import TensorGraph.Domain.Interface

/-!
# Plans

A `Plan` says how a kernel walks the elements of a fused operator: over which `Domain`, and how each
terminal is addressed there (`Access`).  The last one or two dimensions of a domain form the tile,
which one invocation of the kernel walks by itself; the others are walked from outside, one
invocation for each outer index.
-/

namespace TensorGraph

/-- The index space of one fused operator. -/
structure Domain where
  /-- The common shape of all terminals, at their highest rank. -/
  master : Shape
  /-- The extents in order of execution, after collapsing. -/
  extents : Shape
  /-- How many trailing dimensions one invocation walks: 1 or 2. -/
  tileRank : Nat
  /-- Number of elements. -/
  work : Nat
  /-- Number of invocations. -/
  invocations : Nat
deriving DecidableEq, Repr

namespace Domain

/-- Number of dimensions. -/
def rank (d : Domain) : Nat := d.extents.length

/-- The extents that are walked from outside. -/
def outer (d : Domain) : Shape := d.extents.take (d.rank - d.tileRank)

/-- The two extents that an invocation walks; the first is 1 if only one dimension is tiled. -/
def tile (d : Domain) : Nat × Nat :=
  let last := d.extents.getLast?.getD 1
  if d.tileRank = 2 then (d.extents.dropLast.getLast?.getD 1, last) else (1, last)

/-- Whether there are no elements. -/
def isEmpty (d : Domain) : Bool := d.work == 0

end Domain

/-- How a terminal is addressed over a domain. -/
structure Access where
  /-- The element at index zero. -/
  offset : Nat
  /-- Elements per step of each dimension, 0 where the terminal does not extend. -/
  strides : Strides
  elementSize : Nat
deriving DecidableEq, Repr

namespace Access

/-- The element at an index of leading dimensions; words enter as signed ones. -/
def element (a : Access) (index : Index) : Int :=
  Word.signed a.offset + Strides.dot a.strides (index.map Word.signed)

/-- The byte at which the element at an index of leading dimensions begins. -/
def byteOffset (a : Access) (index : Index) : Int := a.element index * a.elementSize

/-- Bytes per step of the two tiled dimensions; the first is 0 if only one dimension is tiled. -/
def tileStrides (a : Access) (tileRank : Nat) : Int × Int :=
  let last := a.strides.getLast?.getD 0 * a.elementSize
  if tileRank = 2 then (a.strides.dropLast.getLast?.getD 0 * a.elementSize, last) else (0, last)

end Access

/-- How a kernel walks the elements of a fused operator. -/
structure Plan where
  domain : Domain
  /-- One access per terminal, inputs first. -/
  inputs : List Access
  outputs : List Access
deriving DecidableEq, Repr

/-- All accesses, inputs first. -/
def Plan.accesses (p : Plan) : List Access := p.inputs ++ p.outputs

end TensorGraph
