import TensorGraph.Domain.PlanCache
import TensorGraph.Execution.Statistics
import TensorGraph.Execution.Table
import TensorGraph.Execution.Variables
import TensorGraph.Kernel.Scratchpad
import TensorGraph.Memory.Allocator

/-!
# The world that graphs run in

A `World` is everything that outlives a call: the buffers, the variables, the pending requests to
cancel, what each executor remembers, plan caches and scratch memory, the time, and whatever state
of type `σ` the evaluators of a user keep for themselves.

A buffer is used again only if nobody else can see it.  Who holds a tensor is written in the world
(variables, and the intermediates that executors remember) or is passed along by the calls in
progress; `World.isExclusive` looks through both.

`Run σ` is a computation in the world that may fail; what it did to the world before it failed
stays done.
-/

namespace TensorGraph

/-- Whether somebody has asked an executor to cancel, and it has not yet obeyed. -/
structure CancelFlag where
  requested : Bool
deriving DecidableEq, Repr, Inhabited

/-- What an executor remembers between calls. -/
structure Memory where
  /-- For each tensor of the graph the one that the last call bound to it, if it was kept. -/
  intermediates : List (Option Tensor)
  statistics : Statistics
deriving DecidableEq, Repr, Inhabited

/-- Nothing to remember yet. -/
def Memory.empty : Memory := ⟨[], .empty⟩

instance : Inhabited PlanCache := ⟨.empty⟩

/-- Everything that outlives a call. -/
structure World (σ : Type) where
  store : Store
  «variables» : Table Variables
  cancelFlags : Table CancelFlag
  memories : Table Memory
  planCaches : Table PlanCache
  scratchpads : Table Scratchpad
  /-- Nanoseconds since some moment. -/
  clock : Nat
  user : σ

namespace World

variable {σ : Type}

/-- A world without objects. -/
def empty (user : σ) : World σ :=
  ⟨.empty, .empty, .empty, .empty, .empty, .empty, 0, user⟩

/-- The tensors that the world itself holds: values of variables, and kept intermediates. -/
def held (w : World σ) : List Tensor :=
  w.variables.toList.flatMap Variables.values
    ++ w.memories.toList.flatMap fun m => m.intermediates.filterMap id

/-- How many of the world's tensors and of some others lie in a buffer. -/
def holders (w : World σ) (others : List Tensor) (b : BufferId) : Nat :=
  (others ++ w.held).countP (·.buffer = b)

/-- Whether none of the world's tensors and none of some others lies in a buffer. -/
def isExclusive (w : World σ) (others : List Tensor) (b : BufferId) : Bool :=
  (others ++ w.held).all (·.buffer ≠ b)

/-- The world with new variables, of which none has a value. -/
def addVariables (w : World σ) : Ref Variables × World σ :=
  let (r, vars) := w.variables.add .empty
  (r, { w with «variables» := vars })

/-- The world with a new cancel flag, which nobody has raised. -/
def addCancelFlag (w : World σ) : Ref CancelFlag × World σ :=
  let (r, cancelFlags) := w.cancelFlags.add ⟨false⟩
  (r, { w with cancelFlags := cancelFlags })

/-- The world with room for a new executor to remember things. -/
def addMemory (w : World σ) : Ref Memory × World σ :=
  let (r, memories) := w.memories.add .empty
  (r, { w with memories := memories })

/-- The world with a new plan cache. -/
def addPlanCache (w : World σ) : Ref PlanCache × World σ :=
  let (r, planCaches) := w.planCaches.add .empty
  (r, { w with planCaches := planCaches })

/-- The world with a new scratchpad. -/
def addScratchpad (w : World σ) : Ref Scratchpad × World σ :=
  let (r, scratchpads) := w.scratchpads.add .empty
  (r, { w with scratchpads := scratchpads })

/-- The world after a request to cancel. -/
def requestCancel (w : World σ) (r : Ref CancelFlag) : World σ :=
  { w with cancelFlags := w.cancelFlags.put r ⟨true⟩ }

/-- Whether a request to cancel is pending. -/
def cancelRequested (w : World σ) (r : Ref CancelFlag) : Bool := (w.cancelFlags.get r).requested

/-- The world with other variables in the place of a reference. -/
def putVariables (w : World σ) (r : Ref Variables) (v : Variables) : World σ :=
  { w with «variables» := w.variables.put r v }

/-- The world with other things remembered by an executor. -/
def putMemory (w : World σ) (r : Ref Memory) (m : Memory) : World σ :=
  { w with memories := w.memories.put r m }

/-- The world in which only the given variables and executors hold anything. -/
def retain (w : World σ) (vars : List (Ref Variables)) (memories : List (Ref Memory)) :
    World σ :=
  { w with
    «variables» := w.variables.retain .empty vars
    memories := w.memories.retain .empty memories }

end World

/-- A computation in the world that may fail. -/
abbrev Run (σ : Type) := ExceptT Error (StateM (World σ))

namespace Run

variable {σ α : Type}

/-- The outcome of a computation in a world, and the world after it. -/
def outcome (m : Run σ α) (w : World σ) : Except Error α × World σ := Id.run (StateT.run m.run w)

/-- The outcome on a machine.  There is none if its allocator refuses something on the way. -/
def outcomeOn (a : Allocator) (m : Run σ α) (w : World σ) : Option (Except Error α × World σ) :=
  let (r, w') := m.outcome w
  if w'.store.Granted a then some (r, w') else none

/-- A computation that works on the buffers alone. -/
def onStore (f : Store → α × Store) : Run σ α := do
  let (a, store) := f (← get).store
  modify fun w => { w with store := store }
  return a

/-- A computation that works on the buffers alone and may fail, leaving them as they were. -/
def tryStore (f : Store → Except Error (α × Store)) : Run σ α := do
  let (a, store) ← f (← get).store
  modify fun w => { w with store := store }
  return a

/-- The bits of the elements of a tensor. -/
def elements (t : Tensor) : Run σ (List Nat) := return t.elements (← get).store

/-- Replaces the elements of a tensor. -/
def setElements (t : Tensor) (elements : List Nat) : Run σ Unit :=
  modify fun w => { w with store := t.store elements w.store }

/-- Takes a pending request to cancel: tells whether there was one, and it is gone. -/
def takeCancel (r : Ref CancelFlag) : Run σ Bool := do
  let requested := (← get).cancelRequested r
  modify fun w => { w with cancelFlags := w.cancelFlags.put r ⟨false⟩ }
  return requested

/-- Changes what an executor remembers. -/
def modifyMemory (r : Ref Memory) (f : Memory → Memory) : Run σ Unit :=
  modify fun w => w.putMemory r (f (w.memories.get r))

end Run

end TensorGraph
