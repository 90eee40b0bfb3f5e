import TensorGraph.Memory.Store
import TensorGraph.Shape.Layout

/-!
# Tensors

A `Tensor` is an element type, a shape and a buffer.  The shape is missing as long as an operator
has not decided it, and the buffer is then empty.  Copying a tensor value makes an alias: both name
one buffer.  Operations that need a buffer of their own take the store and give it back.
-/

namespace TensorGraph

/-- A dense row-major array of elements in a buffer. -/
structure Tensor where
  dtype : DType
  shape : Option Shape
  buffer : BufferId
deriving DecidableEq, Repr, Inhabited

namespace Tensor

/-- A tensor whose shape is not known yet. -/
def unshaped (dtype : DType) (s : Store) : Tensor × Store :=
  let (buffer, s) := s.alloc #[]
  (⟨dtype, none, buffer⟩, s)

/-- A tensor of a shape with every byte zero. -/
def zeros (dtype : DType) (shape : Shape) (s : Store) : Tensor × Store :=
  let (buffer, s) := s.allocZeros ⟨dtype, shape⟩
  (⟨dtype, some shape, buffer⟩, s)

/-- A tensor that holds the given bytes, which must be as many as the shape needs. -/
def ofBytes (dtype : DType) (shape : Shape) (content : Bytes) (s : Store) :
    Except Error (Tensor × Store) :=
  if content.size = shape.size * dtype.size then
    let (buffer, s) := s.alloc content
    .ok (⟨dtype, some shape, buffer⟩, s)
  else .error (.shapeMismatch shape [content.size / dtype.size])

/-- Whether the shape is known. -/
def hasShape (t : Tensor) : Bool := t.shape.isSome

/-- The extents, none while the shape is not known. -/
def extents (t : Tensor) : List Nat := t.shape.getD []

/-- The shape of a tensor that must have one. -/
def resolvedShape (t : Tensor) : Except Error Shape :=
  match t.shape with
  | some shape => .ok shape
  | none => .error (.internal "tensor shape is not resolved")

/-- Number of elements, 0 while the shape is not known. -/
def size (t : Tensor) : Nat := (t.shape.map Shape.size).getD 0

/-- The layout, once the shape is known. -/
def layout? (t : Tensor) : Option Layout := t.shape.map Layout.contiguous

/-- Whether two tensors have their elements in one buffer. -/
def SharesBuffer (t u : Tensor) : Prop := t.buffer = u.buffer

instance (t u : Tensor) : Decidable (t.SharesBuffer u) :=
  inferInstanceAs (Decidable (t.buffer = u.buffer))

/-- The bytes of a tensor. -/
def bytes (t : Tensor) (s : Store) : Bytes := s.bytes t.buffer

/-- The bits of the elements of a tensor. -/
def elements (t : Tensor) (s : Store) : List Nat := t.dtype.elements (t.bytes s)

/-- The elements, for a reader that expects them in a given type. -/
def elementsAs (t : Tensor) (dtype : DType) (s : Store) : Except Error (List Nat) :=
  if dtype = t.dtype then .ok (t.elements s) else .error (.dtypeMismatch t.dtype dtype)

/-- The store with other elements in the buffer of a tensor. -/
def store (t : Tensor) (elements : List Nat) (s : Store) : Store :=
  s.write t.buffer (t.dtype.bytes elements)

/-- The tensor itself if it has the shape, and otherwise a new zero tensor of the shape. -/
def resize (t : Tensor) (shape : Shape) (s : Store) : Tensor × Store :=
  if t.shape = some shape then (t, s) else zeros t.dtype shape s

/-- A copy with a buffer of its own. -/
def deepCopy (t : Tensor) (s : Store) : Tensor × Store :=
  let (buffer, s) := s.alloc (t.bytes s)
  ({ t with buffer := buffer }, s)

/-- The store after the elements of `source` have been copied into the buffer of `t`.  Type and
shape must be the same; on an alias of itself nothing changes. -/
def copyFrom (t source : Tensor) (s : Store) : Except Error Store :=
  if source.dtype ≠ t.dtype then .error (.dtypeMismatch t.dtype source.dtype)
  else if source.shape ≠ t.shape then .error (.shapeMismatch t.extents source.extents)
  else if t.SharesBuffer source then .ok s
  else .ok (s.write t.buffer (source.bytes s))

/-- The tensor as it is shown to a user. -/
def display (t : Tensor) : String :=
  "Tensor(" ++ (t.shape.map Text.numbers).getD "?" ++ ", dtype=" ++ t.dtype.shortName ++ ")"

/-- The tensor as a record, with the number of its holders. -/
def describe (t : Tensor) (holders : Nat) : String :=
  Text.record "Tensor" [("shape", Text.optional (t.shape.map Text.numbers)), ("dtype", t.dtype.tag),
    ("refs", toString holders)]

/-- The buffer of a tensor as a record, with the number of its holders. -/
def describeBuffer (t : Tensor) (holders : Nat) (s : Store) : String :=
  Text.record "Storage" [("len", toString (t.bytes s).size), ("refs", toString holders)]

end Tensor

end TensorGraph
