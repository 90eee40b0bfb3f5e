import TensorGraph.Domain.Planner

/-!
# The plan cache

A fused operator keeps its last plan, and uses it again as long as its interface stays the same.
Plans are numbered in the order in which they were made, so that a kept plan can be told from a new
one.
-/

namespace TensorGraph

/-- A kept plan, with the interface it was made for and its number. -/
structure PlanCache.Entry where
  interface : Interface
  plan : Plan
  number : Nat
deriving DecidableEq, Repr

/-- The last plan, and how many were made. -/
structure PlanCache where
  entry : Option PlanCache.Entry
  made : Nat
deriving DecidableEq, Repr

namespace PlanCache

/-- A cache without a plan. -/
def empty : PlanCache := ⟨none, 0⟩

/-- The kept entry, if it was made for this interface. -/
def find? (c : PlanCache) (i : Interface) : Option Entry := c.entry.filter (·.interface = i)

/-- The kept entry for an interface, or a new one made by the planner.  A failure to plan leaves the
cache as it was. -/
def fetch (c : PlanCache) (p : Planner) (i : Interface) : Except Error (Entry × PlanCache) :=
  match c.find? i with
  | some entry => .ok (entry, c)
  | none =>
    match p.plan i with
    | .error e => .error e
    | .ok plan =>
      let entry : Entry := ⟨i, plan, c.made⟩
      .ok (entry, ⟨some entry, c.made + 1⟩)

/-- The cache without its plan. -/
def clear (c : PlanCache) : PlanCache := { c with entry := none }

end PlanCache

end TensorGraph
