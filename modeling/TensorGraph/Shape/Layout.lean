import TensorGraph.Number.Word
import TensorGraph.Shape.Broadcast

/-!
# Layouts

A layout says where the elements of a tensor lie in a flat buffer: the element at an index is at
the offset plus the sum of the coordinates times the strides.  Strides count elements; a stride of
0 marks a dimension along which every coordinate reads the same element.  `Layout.broadcastTo`
stretches a layout to a larger shape, and `Cursor` walks the addresses of a layout in row-major
order, keeping a running address instead of computing each one anew.
-/

namespace TensorGraph

/-- Distances in elements, one per dimension. -/
abbrev Strides := List Int

/-- The strides of a dense row-major buffer and the stride that one more outer dimension would
have.  An extent enters as a signed word. -/
def Strides.denseFrom : Shape → Strides × Int
  | [] => ([], 1)
  | n :: rest =>
    let (strides, stride) := denseFrom rest
    (stride :: strides, stride * Word.signed n)

/-- The strides of a dense row-major buffer. -/
def Strides.dense (s : Shape) : Strides := (Strides.denseFrom s).1

/-- The sum of coordinates times strides; coordinates beyond the last stride do not count. -/
def Strides.dot : Strides → List Int → Int
  | stride :: strides, i :: index => i * stride + dot strides index
  | _, _ => 0

@[simp] theorem Strides.length_dense (s : Shape) : (Strides.dense s).length = s.length := by
  unfold Strides.dense
  induction s with
  | nil => rfl
  | cons n rest ih => simp [Strides.denseFrom, ih]

/-- A way to lay out a shape in a buffer. -/
structure Layout where
  shape : Shape
  strides : Strides
  offset : Nat
deriving DecidableEq, Repr

namespace Layout

/-- The dense row-major layout. -/
def contiguous (s : Shape) : Layout := ⟨s, Strides.dense s, 0⟩

/-- Number of dimensions. -/
def rank (l : Layout) : Nat := l.shape.length

/-- Number of elements. -/
def size (l : Layout) : Nat := l.shape.size

/-- The address of an index. -/
def address (l : Layout) (index : Index) : Int :=
  l.offset + Strides.dot l.strides (index.map Int.ofNat)

/-- The strides of a stretched layout, dimension by dimension: an extent that stays keeps its
stride, an extent of 1 that grows gets stride 0, any other change is refused. -/
def stretch : Shape → Strides → Shape → Option Strides
  | n :: shape, stride :: strides, t :: target =>
    if n = t then (stretch shape strides target).map (stride :: ·)
    else if n = 1 then (stretch shape strides target).map (0 :: ·)
    else none
  | _, _, _ => some []

/-- The layout stretched to a target shape, if that is possible; dimensions in front get
stride 0. -/
def broadcastTo? (l : Layout) (target : Shape) : Option Layout :=
  if target.length < l.rank then none
  else
    let added := target.length - l.rank
    (stretch l.shape l.strides (target.drop added)).map fun strides =>
      ⟨target, List.replicate added 0 ++ strides, l.offset⟩

/-- The layout stretched to a target shape. -/
def broadcastTo (l : Layout) (target : Shape) : Except Error Layout :=
  match l.broadcastTo? target with
  | some view => .ok view
  | none => .error (.broadcast l.shape target)

/-- The layout as a record. -/
def describe (l : Layout) : String :=
  Text.record "Layout" [("shape", Text.numbers l.shape), ("strides", Text.integers l.strides),
    ("offset", toString l.offset)]

end Layout

/-- A walk over the addresses of a layout in row-major order: the index reached, its address, and
how many addresses are still to come. -/
structure Cursor where
  layout : Layout
  index : Index
  current : Int
  remaining : Nat
deriving DecidableEq, Repr

namespace Cursor

/-- The start of the walk; the offset enters as a signed word. -/
def start (l : Layout) : Cursor :=
  ⟨l, List.replicate l.rank 0, Word.signed l.offset, l.size⟩

/-- One odometer step from the innermost dimension outward: the index that follows, by how much the
address changes, and whether every dimension wrapped.  A dimension that wraps gives back the whole
row that it had walked. -/
def advance : Shape → Strides → Index → Index × Int × Bool
  | n :: shape, stride :: strides, i :: index =>
    match advance shape strides index with
    | (tail, change, false) => (i :: tail, change, false)
    | (tail, change, true) =>
      if i + 1 < n then ((i + 1) :: tail, change + stride, false)
      else (0 :: tail, change + stride - stride * (i + 1 : Nat), true)
  | _, _, index => (index, 0, true)

/-- The next address, if there is one, and the walk that goes on after it. -/
def next? (c : Cursor) : Option (Int × Cursor) :=
  match c.remaining with
  | 0 => none
  | n + 1 =>
    let (index, change, _) := advance c.layout.shape c.layout.strides c.index
    some (c.current, { c with index := index, current := c.current + change, remaining := n })

/-- At most `n` further addresses, and the walk after them. -/
def take : Nat → Cursor → List Int × Cursor
  | 0, c => ([], c)
  | n + 1, c =>
    match c.next? with
    | none => ([], c)
    | some (address, rest) =>
      let (addresses, last) := take n rest
      (address :: addresses, last)

end Cursor

/-- The addresses of a layout in row-major order. -/
def Layout.addresses (l : Layout) : List Int := (Cursor.take l.size (Cursor.start l)).1

end TensorGraph
