import TensorGraph.Execution.Executor
import TensorGraph.Kernel.Sweep

/-!
# Fused operators

A fused operator runs a graph of its own, its *body*, as one operator of another graph.  With a
kernel it plans the domain of its operands and sweeps the kernel over it; without one an executor of
its own interprets the body.  On both ways every output is given the common broadcast shape of all
inputs before anything is computed.
-/

namespace TensorGraph

/-- A graph that is run as one operator. -/
structure FusedOperator (σ : Type) where
  body : Graph (Evaluator σ)
  kernel : Option (Kernel σ)
  scheduler : Scheduler
  planner : Planner
  plans : Ref PlanCache
  interpreter : Executor σ

namespace FusedOperator

variable {σ : Type}

/-- A new fused operator, with the settings of its scheduler, on a machine with some workers. -/
def create (body : Graph (Evaluator σ)) (registry : Registry (Evaluator σ)) (scheduler : Scheduler)
    (available : Nat) (kernel : Option (Kernel σ)) (w : World σ) : FusedOperator σ × World σ :=
  let (plans, w) := w.addPlanCache
  let (interpreter, w) := Executor.create body registry scheduler.config w
  (⟨body, kernel, scheduler, .ofConfig scheduler.config available, plans, interpreter⟩, w)

/-- The common shape of some tensors; the first without shape is refused when its turn comes. -/
def commonShape (tensors : List Tensor) : Except Error Shape :=
  tensors.foldlM (fun shape t => do Shape.broadcast shape (← t.resolvedShape)) []

/-- The tensors resized to a shape, one after the other. -/
def resizeAll (shape : Shape) : List Tensor → Store → List Tensor × Store
  | [], s => ([], s)
  | t :: tensors, s =>
    let (t, s) := t.resize shape s
    let (tensors, s) := resizeAll shape tensors s
    (t :: tensors, s)

/-- Interprets the body. -/
def interpret (f : FusedOperator σ) (outputs inputs : List Tensor) (c : Context) :
    Run σ (List Tensor) := do
  match ← f.interpreter.execute outputs inputs c false with
  | (.completed, slots) => return slots
  | (.cancelled, _) => throw (.internal "subgraph body was cancelled")

/-- The plan for some tensors, kept from the last time if their interface is the same. -/
def planFor (f : FusedOperator σ) (inputs outputs : List Tensor) : Run σ Plan := do
  let interface ← Interface.ofTensors inputs outputs
  let w ← get
  let (entry, plans) ← (w.planCaches.get f.plans).fetch f.planner interface
  set { w with planCaches := w.planCaches.put f.plans plans }
  return entry.plan

/-- Sweeps a kernel over the domain of some tensors. -/
def sweep (f : FusedOperator σ) (kernel : Kernel σ) (outputs inputs : List Tensor) :
    Run σ Unit := do
  let plan ← f.planFor inputs outputs
  let buffers (tensors : List Tensor) : List (Option BufferId) := tensors.map (some ·.buffer)
  f.scheduler.run kernel plan (buffers inputs) (buffers outputs)

/-- Evaluates the operator: with its kernel if there is one, and else by interpreting the body. -/
def evaluate (f : FusedOperator σ) (_ : Operation) (outputs inputs : List Tensor) (c : Context) :
    Run σ (List Tensor) := do
  Executor.checkOperands f.body outputs inputs
  let shape ← commonShape inputs
  let outputs ← Run.onStore (resizeAll shape outputs)
  match f.kernel with
  | some kernel =>
    f.sweep kernel outputs inputs
    return outputs
  | none => f.interpret outputs inputs c

/-- The operator as an evaluator, which keeps the memory of all executors inside it alive. -/
def evaluator (f : FusedOperator σ) : Evaluator σ :=
  { evaluate := f.evaluate
    memories := f.interpreter.memory :: f.interpreter.evaluators.flatMap (·.memories)
    «variables» := f.interpreter.variables :: f.interpreter.evaluators.flatMap (·.variables) }

/-- The node that runs the operator on some tensors of another graph; its outputs are described as
the results of the body. -/
def nodeSpec (f : FusedOperator σ) (inputs : List Handle) (name : Option String) :
    NodeSpec (Evaluator σ) :=
  ⟨.fused, name, inputs, f.body.resultDescs, none, some f.evaluator⟩

/-- The operator as a record. -/
def describe (f : FusedOperator σ) : String :=
  Text.record "FusedSubgraph" [("nodes", toString f.body.nodes.length),
    ("available", toString f.kernel.isSome)]

end FusedOperator

end TensorGraph
