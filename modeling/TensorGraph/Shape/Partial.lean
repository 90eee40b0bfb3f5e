import TensorGraph.DType
import TensorGraph.Shape.Basic
import TensorGraph.Text.Listing

/-!
# Partially known shapes

Before a graph runs, the rank of each of its tensors is known, but extents may be open.  A
`PartialShape` lists them, and a `TensorDesc` joins it with an element type.
-/

namespace TensorGraph

/-- One dimension of a shape that may not be fully known. -/
inductive Dim where
  /-- An extent known when the graph is built. -/
  | fixed (extent : Nat)
  /-- An extent known only at run time. -/
  | dynamic
deriving DecidableEq, Repr

namespace Dim

/-- The extent, if it is known. -/
def extent? : Dim → Option Nat
  | fixed n => some n
  | dynamic => none

/-- Whether an extent is allowed here. -/
def accepts : Dim → Nat → Bool
  | fixed n, extent => n == extent
  | dynamic, _ => true

/-- The dimension as it is written in a description of dimensions. -/
def describe : Dim → String
  | fixed n => "Static(" ++ toString n ++ ")"
  | dynamic => "Dynamic"

end Dim

/-- A shape of known rank whose extents may be open. -/
abbrev PartialShape := List Dim

namespace PartialShape

/-- The shape of a rank that leaves every extent open. -/
def dynamic (rank : Nat) : PartialShape := List.replicate rank .dynamic

/-- A fully known shape. -/
def ofShape (s : Shape) : PartialShape := s.map .fixed

/-- Whether every extent is known. -/
def isStatic (p : PartialShape) : Bool := p.all fun d => d.extent?.isSome

/-- The shape, if every extent is known. -/
def toShape? (p : PartialShape) : Option Shape := p.mapM Dim.extent?

/-- Whether a shape is an instance: the same rank, and every extent allowed. -/
def accepts : PartialShape → Shape → Bool
  | [], [] => true
  | d :: p, n :: s => d.accepts n && accepts p s
  | _, _ => false

/-- The extents, an open one as 0. -/
def extentsOrZero (p : PartialShape) : List Nat := p.map fun d => d.extent?.getD 0

/-- The extents in brackets, an open one as a question mark. -/
def describe (p : PartialShape) : String :=
  Text.bracketed (p.map fun
    | .fixed n => toString n
    | .dynamic => "?")

theorem toShape?_ofShape (s : Shape) : (ofShape s).toShape? = some s := by
  induction s with
  | nil => rfl
  | cons n s ih =>
    simp only [toShape?, ofShape] at ih
    simp [toShape?, ofShape, Dim.extent?, ih]

theorem accepts_ofShape (s t : Shape) : (ofShape s).accepts t = true ↔ s = t := by
  induction s generalizing t with
  | nil => cases t <;> simp [ofShape, accepts]
  | cons n s ih =>
    cases t with
    | nil => simp [ofShape, accepts]
    | cons m t =>
      simp only [ofShape] at ih
      simp [ofShape, accepts, Dim.accepts, ih]

end PartialShape

/-- What a graph knows of a tensor. -/
structure TensorDesc where
  dtype : DType
  shape : PartialShape
deriving DecidableEq, Repr

namespace TensorDesc

/-- The description narrowed to a shape that is known. -/
def withShape (d : TensorDesc) (s : Shape) : TensorDesc := { d with shape := .ofShape s }

/-- The description as a record. -/
def describe (d : TensorDesc) : String :=
  Text.record "TensorDesc" [("dtype", d.dtype.tag), ("shape", d.shape.describe)]

end TensorDesc

end TensorGraph
