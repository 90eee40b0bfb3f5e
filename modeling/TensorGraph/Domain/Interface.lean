import TensorGraph.Memory.Tensor

/-!
# The interface of a fused operator

A fused operator meets the rest of a graph in its boundary tensors, its *terminals*: inputs first,
then outputs.  A `Terminal` gives the extents in memory order, which logical dimension is stored at
each place (`order`), the element type and how many elements precede the first one.  An `Interface`
lists the terminals.
-/

namespace TensorGraph

/-- A boundary tensor of a fused operator. -/
structure Terminal where
  /-- Extents in memory order, outermost first. -/
  extents : Shape
  /-- The logical dimension stored at each place. -/
  order : List Nat
  dtype : DType
  /-- Elements before the first one that is addressed. -/
  offset : Nat
deriving DecidableEq, Repr

namespace Terminal

/-- A dense row-major terminal in logical order. -/
def dense (dtype : DType) (extents : Shape) : Terminal :=
  ⟨extents, List.range extents.length, dtype, 0⟩

/-- Number of dimensions. -/
def rank (t : Terminal) : Nat := t.extents.length

/-- Bytes of one element. -/
def elementSize (t : Terminal) : Nat := t.dtype.size

/-- Bytes that a buffer must have for all elements of the terminal to lie in it. -/
def extent (t : Terminal) : Nat := (t.offset + t.extents.size) * t.elementSize

/-- The terminal that a tensor of known shape makes. -/
def ofTensor (t : Tensor) : Except Error Terminal := return dense t.dtype (← t.resolvedShape)

/-- Whether the order names every dimension once. -/
def IsPermutation (order : List Nat) (rank : Nat) : Prop :=
  order.length = rank ∧ (∀ axis ∈ order, axis < rank) ∧ order.Nodup

instance (order : List Nat) (rank : Nat) : Decidable (IsPermutation order rank) :=
  inferInstanceAs (Decidable (_ ∧ _ ∧ _))

/-- Refuses an order that is no permutation of the dimensions. -/
def checkOrder (t : Terminal) : Except Error Unit :=
  if t.order.length ≠ t.rank then
    .error (.invalidArgument "order" ("memory order " ++ Text.numbers t.order ++ " has "
      ++ toString t.order.length ++ " entries for rank " ++ toString t.rank))
  else if IsPermutation t.order t.rank then .ok ()
  else
    .error (.invalidArgument "order"
      (Text.numbers t.order ++ " is not a permutation of 0.." ++ toString t.rank))

end Terminal

/-- The terminals of a fused operator. -/
structure Interface where
  inputs : List Terminal
  outputs : List Terminal
deriving DecidableEq, Repr

namespace Interface

/-- All terminals, inputs first. -/
def terminals (i : Interface) : List Terminal := i.inputs ++ i.outputs

/-- The highest rank of a terminal. -/
def rank (i : Interface) : Nat := i.terminals.foldl (fun r t => max r t.rank) 0

/-- The interface that tensors of known shape make; the first tensor without shape is refused. -/
def ofTensors (inputs outputs : List Tensor) : Except Error Interface :=
  return ⟨← inputs.mapM Terminal.ofTensor, ← outputs.mapM Terminal.ofTensor⟩

end Interface

end TensorGraph
