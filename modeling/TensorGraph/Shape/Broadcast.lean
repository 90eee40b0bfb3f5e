import TensorGraph.Error
import TensorGraph.Shape.Basic

/-!
# Broadcasting

Two shapes are aligned at their last dimensions; where one has no dimension it counts as 1.  Two
extents are compatible when they are equal or one of them is 1, and an extent of 1 stretches to the
other, also to 0.  `Shape.broadcast` is the common shape.
-/

namespace TensorGraph

/-- Whether two extents can be stretched to one. -/
def Extent.compatible (a b : Nat) : Bool := a == b || a == 1 || b == 1

/-- The extent that two compatible extents are stretched to. -/
def Extent.join (a b : Nat) : Nat := if a = 1 then b else a

namespace Shape

/-- The common shape of two shapes given innermost first. -/
def joinInner : Shape → Shape → Option Shape
  | [], bs => some bs
  | as, [] => some as
  | a :: as, b :: bs =>
    if Extent.compatible a b then (joinInner as bs).map (Extent.join a b :: ·) else none

/-- The common shape of two shapes, if every aligned pair of extents is compatible. -/
def broadcast? (a b : Shape) : Option Shape := (joinInner a.reverse b.reverse).map List.reverse

/-- The common shape of two shapes. -/
def broadcast (a b : Shape) : Except Error Shape :=
  match broadcast? a b with
  | some s => .ok s
  | none => .error (.broadcast a b)

theorem broadcast_eq_ok {a b s : Shape} : broadcast a b = .ok s ↔ broadcast? a b = some s := by
  unfold broadcast
  split <;> simp_all

end Shape

end TensorGraph
