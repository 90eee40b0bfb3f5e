import TensorGraph.Operators.Operand

/-!
# Elementwise operators

`Relu` keeps each positive element and makes the others zero.  `Add`, `Subtract` and `Multiply`
combine two operands of one element type element by element over their common broadcast shape.  All
compute in binary64 and store the nearest element.
-/

namespace TensorGraph.Elementwise

variable {σ : Type} [HalfConversion]

/-- The larger of a number and zero; what is no number gives zero. -/
def positivePart (x : Float) : Float := if 0 < x then x else 0

/-- Each element mapped through binary64. -/
def mapElements (dtype : DType) (f : Float → Float) (xs : List Nat) : List Nat :=
  xs.map fun x => dtype.ofFloat (f (dtype.toFloat x))

/-- Two runs of elements combined pair by pair through binary64. -/
def zipElements (dtype : DType) (f : Float → Float → Float) (xs ys : List Nat) : List Nat :=
  List.zipWith (fun x y => dtype.ofFloat (f (dtype.toFloat x) (dtype.toFloat y))) xs ys

/-- The elements that a view of a dense run of elements passes, in the order of the view. -/
def gather (elements : List Nat) (view : Layout) : List Nat :=
  let elements := elements.toArray
  view.addresses.map fun address => elements[Word.unsigned address]?.getD 0

/-- The output keeps the shape of the input, and its elements are the positive parts. -/
def relu (operation : Operation) (outputs inputs : List Tensor) (_ : Context) :
    Run σ (List Tensor) := do
  let input ← Operand.one operation inputs
  let shape ← input.resolvedShape
  let out ← Operand.output operation input.dtype outputs
  let out ← Run.onStore (out.resize shape)
  let xs ← Run.elements input
  Run.setElements out (mapElements input.dtype positivePart xs)
  return [out]

/-- The output has the common shape of the operands, and its elements are combined from theirs. -/
def binary (f : Float → Float → Float) (operation : Operation) (outputs inputs : List Tensor)
    (_ : Context) : Run σ (List Tensor) := do
  let (lhs, rhs) ← Operand.two operation inputs
  if lhs.dtype ≠ rhs.dtype then
    throw (.dtypeMismatch lhs.dtype rhs.dtype)
  let left ← lhs.resolvedShape
  let right ← rhs.resolvedShape
  let shape ← Shape.broadcast left right
  let leftView ← (Layout.contiguous left).broadcastTo shape
  let rightView ← (Layout.contiguous right).broadcastTo shape
  let out ← Operand.output operation lhs.dtype outputs
  let out ← Run.onStore (out.resize shape)
  let xs ← Run.elements lhs
  let ys ← Run.elements rhs
  Run.setElements out (zipElements lhs.dtype f (gather xs leftView) (gather ys rightView))
  return [out]

end TensorGraph.Elementwise
