import TensorGraph.Execution.World

/-!
# Evaluators

An evaluator computes the outputs of an operation from its inputs, in a context that the caller of
the graph supplies.  It is any computation in the world.  Outputs arrive allocated when their shape
is known and without shape otherwise; the evaluator gives back the outputs as it leaves them.
-/

namespace TensorGraph

/-- Something that a caller passes along to the evaluators, under a name. -/
inductive Entry where
  | bool (value : Bool)
  | text (value : String)
  | integer (value : Int)
  | number (value : Float)
  | cancel (flag : Ref CancelFlag)

/-- What evaluators find besides their operands. -/
structure Context where
  /-- The variables of stateful operators. -/
  «variables» : Option (Ref Variables)
  /-- Named entries; of entries with one name the first counts. -/
  entries : List (String × Entry)
  /-- Tensors that the caller and the calls in progress keep. -/
  held : List Tensor

namespace Context

/-- A context without anything. -/
def empty : Context := ⟨none, [], []⟩

/-- The context with an entry that replaces others of its name. -/
def insert (c : Context) (key : String) (entry : Entry) : Context :=
  { c with entries := (key, entry) :: c.entries.filter (·.1 != key) }

/-- The entry of a name. -/
def get? (c : Context) (key : String) : Option Entry := c.entries.lookup key

/-- The context with more tensors kept. -/
def holding (c : Context) (tensors : List Tensor) : Context := { c with held := tensors ++ c.held }

/-- The context as a record. -/
def describe (c : Context) : String :=
  Text.record "EvalContext" [("variables", toString c.variables.isSome),
    ("entries", Text.quotedList (c.entries.map (·.1)))]

end Context

/-- A way to evaluate operations. -/
structure Evaluator (σ : Type) where
  /-- The outputs made from the outputs as handed in and the inputs. -/
  evaluate : Operation → List Tensor → List Tensor → Context → Run σ (List Tensor)
  /-- Executors whose memory lives as long as the evaluator. -/
  memories : List (Ref Memory)
  /-- Variables that live as long as the evaluator. -/
  «variables» : List (Ref Variables)

namespace Evaluator

variable {σ : Type}

/-- An evaluator that keeps nothing alive. -/
def ofFunction (f : Operation → List Tensor → List Tensor → Context → Run σ (List Tensor)) :
    Evaluator σ := ⟨f, [], []⟩

/-- Runs an evaluator on an operation.  There are as many outputs afterwards as before: outputs
that the evaluator does not give back stay as they were handed in. -/
def apply (e : Evaluator σ) (operation : Operation) (outputs inputs : List Tensor) (c : Context) :
    Run σ (List Tensor) := do
  let produced ← e.evaluate operation outputs inputs c
  return produced.take outputs.length ++ outputs.drop produced.length

end Evaluator

/-- Evaluators by operator. -/
structure Registry (ε : Type) where
  entries : List (OpType × ε)

namespace Registry

variable {ε : Type}

/-- A registry without evaluators. -/
def empty : Registry ε := ⟨[]⟩

/-- The evaluator of an operator. -/
def get? (r : Registry ε) (op : OpType) : Option ε := r.entries.lookup op

/-- Whether an operator has an evaluator. -/
def contains (r : Registry ε) (op : OpType) : Bool := (r.get? op).isSome

/-- The registry with an evaluator that replaces another one of its operator. -/
def register (r : Registry ε) (op : OpType) (evaluator : ε) : Registry ε :=
  ⟨(op, evaluator) :: r.entries.filter (·.1 != op)⟩

/-- All evaluators. -/
def evaluators (r : Registry ε) : List ε := r.entries.map (·.2)

/-- Number of operators that have an evaluator. -/
def count (r : Registry ε) : Nat := r.entries.length

/-- The names of the operators that have an evaluator, in ascending order. -/
def names (r : Registry ε) : List String := (r.entries.map (·.1.name)).mergeSort

/-- The registry as a record. -/
def describe (r : Registry ε) : String :=
  Text.record "EvaluatorRegistry" [("ops", Text.quotedList r.names)]

end Registry

end TensorGraph
