import TensorGraph.Operators.Stateful

/-!
# The reference registry

The operators that every element type has, and the registry that holds an evaluator for each.
-/

namespace TensorGraph

variable {σ : Type} [HalfConversion]

/-- The reference operators. -/
inductive ReferenceOp where
  | relu | add | subtract | multiply | accumulate | readValue | assign
deriving DecidableEq, Repr

namespace ReferenceOp

/-- Every reference operator. -/
def all : List ReferenceOp := [relu, add, subtract, multiply, accumulate, readValue, assign]

/-- The name under which a reference operator is found. -/
def opType : ReferenceOp → OpType
  | relu => .relu
  | add => .add
  | subtract => .subtract
  | multiply => .multiply
  | accumulate => .accumulate
  | readValue => .readValue
  | assign => .assign

/-- How a reference operator is evaluated. -/
def evaluator : ReferenceOp → Evaluator σ
  | relu => .ofFunction Elementwise.relu
  | add => .ofFunction (Elementwise.binary (· + ·))
  | subtract => .ofFunction (Elementwise.binary (· - ·))
  | multiply => .ofFunction (Elementwise.binary (· * ·))
  | accumulate => .ofFunction Stateful.accumulate
  | readValue => .ofFunction Stateful.readValue
  | assign => .ofFunction Stateful.assign

end ReferenceOp

/-- The registry that holds the reference operators and no others. -/
def Registry.reference : Registry (Evaluator σ) :=
  ReferenceOp.all.foldl (fun r op => r.register op.opType op.evaluator) .empty

end TensorGraph
