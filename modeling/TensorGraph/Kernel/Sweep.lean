import TensorGraph.Kernel.Invocation

/-!
# Sweeps

A sweep invokes a kernel once for each outer index of a plan.  The indices are split among tasks;
each task takes small steps (look whether the sweep was aborted, call the kernel, note a failure,
abort the sweep), and the steps of different tasks may come in any order.  An interleaving is the
list of the tasks that take the next step; a task that is done ignores its turn.  `Sweep.run` runs
a sweep along an interleaving, and `Sweep.inOrder` is the interleaving in which one task after the
other runs to its end.
-/

namespace TensorGraph

/-- What a task does next. -/
inductive TaskPhase where
  /-- Looks whether the sweep was aborted, unless nothing is left to do. -/
  | looking
  /-- Calls the kernel for its next index. -/
  | calling
  /-- Notes the failure of its call, unless another one was noted before. -/
  | failing (reason : String)
  /-- Aborts the sweep. -/
  | aborting
deriving DecidableEq, Repr

/-- One task of a sweep: the indices for which it still has to call the kernel, its scratch memory,
and what it does next. -/
structure Task where
  pending : List Index
  scratch : Option Region
  phase : TaskPhase
deriving DecidableEq, Repr

namespace Task

/-- A task with everything still to do. -/
def ready (pending : List Index) (scratch : Option Region) : Task := ⟨pending, scratch, .looking⟩

/-- Whether nothing is left to do. -/
def isDone (t : Task) : Bool := t.pending.isEmpty && t.phase == .looking

/-- Turns that a task needs at most: two for each call, and two to report a failure. -/
def turns (t : Task) : Nat := 2 * t.pending.length + 2

end Task

/-- A sweep in progress. -/
structure Sweep (σ : Type) where
  tasks : List Task
  aborted : Bool
  /-- The first failure that was noted. -/
  failure : Option String
  world : World σ

namespace Sweep

variable {σ : Type}

/-- One step of one task; `invoke` makes the invocation for an index. -/
def step (kernel : Kernel σ) (invoke : Option Region → Index → Invocation) (s : Sweep σ)
    (turn : Nat) : Sweep σ :=
  match s.tasks[turn]? with
  | none => s
  | some task =>
    let continue_ (task : Task) (s : Sweep σ) : Sweep σ := { s with tasks := s.tasks.set turn task }
    match task.phase, task.pending with
    | .looking, [] => s
    | .looking, _ :: _ =>
      if s.aborted then continue_ { task with pending := [] } s
      else continue_ { task with phase := .calling } s
    | .calling, [] => continue_ { task with phase := .looking } s
    | .calling, index :: rest =>
      match kernel.call (invoke task.scratch index) s.world with
      | (.ok (), world) =>
        continue_ { task with pending := rest, phase := .looking } { s with world := world }
      | (.error reason, world) =>
        continue_ { task with phase := .failing reason } { s with world := world }
    | .failing reason, _ =>
      continue_ { task with phase := .aborting } { s with failure := s.failure <|> some reason }
    | .aborting, _ =>
      continue_ { task with pending := [], phase := .looking } { s with aborted := true }

/-- Runs a sweep along an interleaving. -/
def run (kernel : Kernel σ) (invoke : Option Region → Index → Invocation) (s : Sweep σ)
    (interleaving : List Nat) : Sweep σ :=
  interleaving.foldl (step kernel invoke) s

/-- The interleaving in which one task after the other runs to its end. -/
def inOrder (tasks : List Task) : List Nat :=
  (tasks.zipIdx.map fun (task, turn) => List.replicate task.turns turn).flatten

end Sweep

/-! ### Walking the outer indices -/

namespace Domain

/-- `count` indices from `index` on, each the odometer successor of the one before. -/
def walkFrom (extents : Shape) : Nat → Index → List Index
  | 0, _ => []
  | count + 1, index => index :: walkFrom extents count (Shape.succ extents index)

/-- The number of wheels of the odometer: one for each dimension that a domain of the least rank can
have outside its tile. -/
def wheels : Nat := Planner.leastRank - 1

/-- The extents that the odometer steps through: the outer ones, and ones for the wheels left over. -/
def wheelExtents (d : Domain) : Shape := d.outer ++ List.replicate (wheels - d.outer.length) 1

/-- The outer indices of a share, stepped with an odometer from the first one; wheels left over are
not part of an index. -/
def steppedWalk (d : Domain) (share : Share) : List Index :=
  (walkFrom d.wheelExtents share.length (Shape.unravel d.wheelExtents share.start)).map
    (·.take d.outer.length)

/-- The outer indices of a share, each computed from its number. -/
def flatWalk (d : Domain) (share : Share) : List Index := share.items.map (Shape.unravel d.outer)

/-- The outer indices of a share: stepped in domains of the least rank, else computed one by one. -/
def walk (d : Domain) (share : Share) : List Index :=
  if d.rank = Planner.leastRank then d.steppedWalk share else d.flatWalk share

/-- The outer indices of one of `tasks` tasks. -/
def taskIndices (d : Domain) (tasks task : Nat) : List Index :=
  d.walk (Share.ofTask d.invocations tasks task)

end Domain

/-- Runs kernels with a number of workers and scratch memory that all its runs share. -/
structure Scheduler where
  config : Config
  /-- How many tasks run at the same time at most. -/
  workers : Nat
  scratchpad : Ref Scratchpad

namespace Scheduler

variable {σ : Type}

/-- A new scheduler for some settings, on a machine with some workers. -/
def create (config : Config) (available : Nat) (w : World σ) : Scheduler × World σ :=
  let (scratchpad, w) := w.addScratchpad
  (⟨config, config.workers available, scratchpad⟩, w)

/-- Bytes of scratch memory that the scheduler holds. -/
def scratchCapacity (s : Scheduler) (w : World σ) : Nat := (w.scratchpads.get s.scratchpad).capacity

/-- The scheduler as a record. -/
def describe (s : Scheduler) (w : World σ) : String :=
  Text.record "SubgraphScheduler" [("workers", toString s.workers),
    ("scratchpad", toString (s.scratchCapacity w))]

/-- How many tasks share the invocations of a domain: no more than workers, at least one. -/
def taskCount (s : Scheduler) (d : Domain) : Nat := max 1 (min s.workers d.invocations)

/-- The tasks of a sweep over a domain. -/
def tasks (s : Scheduler) (d : Domain) (reservation : Reservation) : List Task :=
  (List.range (s.taskCount d)).map fun task =>
    .ready (d.taskIndices (s.taskCount d) task) (reservation.region? task)

/-- Invokes a kernel once for each outer index of a plan, along an interleaving of the tasks.  The
numbers of buffers must be those of the plan; the first failure that a task notes is reported. -/
def runAlong (s : Scheduler) (interleaving : List Task → List Nat) (kernel : Kernel σ) (plan : Plan)
    (inputs outputs : List (Option BufferId)) : Run σ Unit := do
  if inputs.length ≠ plan.inputs.length then
    throw (.inputCount plan.inputs.length inputs.length)
  if outputs.length ≠ plan.outputs.length then
    throw (.outputCount plan.outputs.length outputs.length)
  if plan.domain.isEmpty then
    return
  let w ← get
  let (reservation, scratchpad) :=
    (w.scratchpads.get s.scratchpad).reserve kernel.scratchSize (s.taskCount plan.domain)
  let w := { w with scratchpads := w.scratchpads.put s.scratchpad scratchpad }
  let tasks := s.tasks plan.domain reservation
  let sweep := Sweep.run kernel (plan.invocation inputs outputs) ⟨tasks, false, none, w⟩
    (interleaving tasks)
  set sweep.world
  match sweep.failure with
  | some reason => throw (.kernelFailed reason)
  | none => return

/-- Invokes a kernel once for each outer index of a plan, one task after the other. -/
def run (s : Scheduler) (kernel : Kernel σ) (plan : Plan)
    (inputs outputs : List (Option BufferId)) : Run σ Unit :=
  s.runAlong Sweep.inOrder kernel plan inputs outputs

end Scheduler

end TensorGraph
