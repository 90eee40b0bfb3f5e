import TensorGraph.Config
import TensorGraph.Domain.Plan

/-!
# Planning

`Planner.plan` turns the interface of a fused operator into a plan.

* The extents of every terminal are padded with ones in front to a common rank, at least
  `leastRank`, and broadcast into one shape.
* `collapse` merges the two innermost dimensions as long as the innermost extent is small, enough
  invocations stay for the workers, and every terminal either extends over both dimensions or has
  extent 1 in both.
* The tile has two dimensions if all elements have one size and every terminal extends over the
  innermost dimension, and else one.
* Each terminal gets dense strides over its own extents, 0 in dimensions over which it does not
  extend.
-/

namespace TensorGraph

/-- How a domain is planned. -/
structure Planner where
  /-- Innermost extent from which dimensions are no longer merged. -/
  minKernelWork : Nat
  /-- Number of workers for which invocations must stay. -/
  workers : Nat
deriving DecidableEq, Repr

namespace Planner

/-- The rank to which every domain is padded; domains of this rank are walked by an odometer. -/
def leastRank : Nat := 6

/-- The highest rank of a terminal. -/
def maxRank : Nat := 12

/-- The planner for some settings, on a machine with some workers. -/
def ofConfig (c : Config) (available : Nat) : Planner := ⟨max 1 c.minKernelWork, c.workers available⟩

/-- The planner for another number of workers, at least one. -/
def withWorkers (p : Planner) (workers : Nat) : Planner := { p with workers := max 1 workers }

/-! ### Memory orders -/

/-- Checks the order of the terminal at a position.  A terminal below the highest rank must be in
logical order; the others must agree with the first of them, whose order is passed along. -/
def checkOrder (rank : Nat) (shared : Option (List Nat)) (entry : Terminal × Nat) :
    Except Error (Option (List Nat)) := do
  let (terminal, position) := entry
  terminal.checkOrder
  if terminal.rank ≠ rank then
    if terminal.order = List.range terminal.rank then return shared
    else throw (.memoryOrder position (List.range terminal.rank) terminal.order)
  else
    match shared with
    | none => return some terminal.order
    | some order =>
      if order = terminal.order then return shared
      else throw (.memoryOrder position order terminal.order)

/-- Checks the orders of all terminals. -/
def checkOrders (i : Interface) : Except Error Unit :=
  discard (i.terminals.zipIdx.foldlM (checkOrder i.rank) none)

/-! ### The common shape -/

/-- Broadcasts the extents of one more terminal into the shape so far, both padded to `rank`. -/
def joinTerminal (rank master : Nat) (extents : Shape) (t : Terminal) : Except Error Shape :=
  let padded := Shape.leftPadded t.extents rank
  if (extents.zip padded).all fun (d, p) => Extent.compatible d p then
    .ok (List.zipWith Extent.join extents padded)
  else .error (.broadcast (extents.drop (rank - master)) t.extents)

/-- The common shape of all terminals, padded to `rank`. -/
def joinTerminals (rank : Nat) (i : Interface) : Except Error Shape :=
  i.terminals.foldlM (joinTerminal rank i.rank) (List.replicate rank 1)

/-! ### Collapsing -/

/-- The extents of a domain and of every terminal in it, all of one rank. -/
structure Spread where
  extents : Shape
  terminals : List Shape
deriving DecidableEq, Repr

/-- The last two extents, the inner one first. -/
def innermost (s : Shape) : Nat × Nat :=
  match s.reverse with
  | inner :: next :: _ => (inner, next)
  | [inner] => (inner, 1)
  | [] => (1, 1)

/-- The shape with its last two extents multiplied into one and a 1 in front. -/
def mergeInnermost (s : Shape) : Shape :=
  match s.reverse with
  | inner :: next :: rest => 1 :: rest.reverse ++ [inner * next]
  | _ => s

/-- Whether a terminal extends over both inner dimensions of the domain, or over neither. -/
def mergeable (s : Spread) (terminal : Shape) : Bool :=
  innermost terminal == innermost s.extents || innermost terminal == (1, 1)

/-- Whether merging the two inner dimensions pays off and is safe. -/
def shouldMerge (p : Planner) (work : Nat) (s : Spread) : Bool :=
  let (inner, next) := innermost s.extents
  decide (inner < p.minKernelWork) && next != 1 &&
    match Word.mul? inner next with
    | none => false
    | some merged => decide (p.workers ≤ work / merged) && s.terminals.all (mergeable s)

/-- Merges the two inner dimensions of the domain and of every terminal. -/
def Spread.merge (s : Spread) : Spread := ⟨mergeInnermost s.extents, s.terminals.map mergeInnermost⟩

/-- At most `steps` merges, stopping at the first that should not be done. -/
def collapse (p : Planner) (work : Nat) : Nat → Spread → Spread
  | 0, s => s
  | steps + 1, s => if p.shouldMerge work s then collapse p work steps s.merge else s

/-! ### Tiles and strides -/

/-- The rank of the tile: 2 if all elements have one size and the innermost dimension is walked by
every terminal or has extent 1. -/
def tileRank (i : Interface) (s : Spread) : Nat :=
  let sizes := i.terminals.map Terminal.elementSize
  let last := (innermost s.extents).1
  let oneSize := sizes.all (· == sizes.head?.getD 0)
  let everywhere := last == 1 || s.terminals.all fun t => (innermost t).1 == last
  if oneSize && everywhere then 2 else 1

/-- The strides of a terminal over a domain: dense ones where it extends, else 0. -/
def accessStrides (extents terminal : Shape) : Strides :=
  List.zipWith (fun (t, d) stride => if t = d ∧ 1 < d then stride else 0) (terminal.zip extents)
    (Strides.dense terminal)

/-- How a terminal, spread to `spread`, is addressed over a domain. -/
def access (extents : Shape) (t : Terminal) (spread : Shape) : Access :=
  ⟨t.offset, accessStrides extents spread, t.elementSize⟩

/-! ### The plan -/

/-- The plan for an interface. -/
def plan (p : Planner) (i : Interface) : Except Error Plan := do
  if i.terminals.isEmpty then
    throw (.invalidArgument "desc" "subgraph has no ports")
  if maxRank < i.rank then
    throw (.unsupportedRank i.rank maxRank)
  checkOrders i
  let rank := max i.rank leastRank
  let extents ← joinTerminals rank i
  let master := extents.drop (rank - i.rank)
  let some work := Word.product? extents
    | throw (.invalidArgument "blocked_dims"
        ("domain " ++ Text.numbers master ++ " overflows usize"))
  let spread : Spread := ⟨extents, i.terminals.map fun t => Shape.leftPadded t.extents rank⟩
  let spread := if work = 0 then spread else p.collapse work (rank - 1) spread
  let tileRank := tileRank i spread
  let domain : Domain :=
    { master := master
      extents := spread.extents
      tileRank := tileRank
      work := work
      invocations := if work = 0 then 0 else Shape.size (spread.extents.take (rank - tileRank)) }
  let accesses := List.zipWith (access spread.extents) i.terminals spread.terminals
  return ⟨domain, accesses.take i.inputs.length, accesses.drop i.inputs.length⟩

end Planner

end TensorGraph
