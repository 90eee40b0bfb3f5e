import TensorGraph.Graph.Node

/-!
# Statistics

An executor counts, for each node, how often it was evaluated and how long that took.  Times are
whole nanoseconds.
-/

namespace TensorGraph

/-- What is known of the evaluations of one node. -/
structure NodeStatistics where
  op : OpType
  calls : Nat
  /-- Nanoseconds spent. -/
  total : Nat
deriving DecidableEq, Repr

namespace NodeStatistics

/-- The mean time of an evaluation in whole nanoseconds, 0 if there was none.  The number of
evaluations enters as a 32-bit word; there is no mean when that word is 0 and the number is not. -/
def mean? (s : NodeStatistics) : Option Nat :=
  if s.calls = 0 then some 0
  else
    let divisor := s.calls % 1 <<< 32
    if divisor = 0 then none else some (s.total / divisor)

end NodeStatistics

/-- The statistics of nodes, by node id in ascending order. -/
structure Statistics where
  nodes : List (Nat × NodeStatistics)
deriving DecidableEq, Repr, Inhabited

namespace Statistics

/-- Nothing has been recorded. -/
def empty : Statistics := ⟨[]⟩

/-- Enters one evaluation of a node into an ascending list. -/
def recordIn (operation : Operation) (elapsed : Nat) :
    List (Nat × NodeStatistics) → List (Nat × NodeStatistics)
  | [] => [(operation.id, ⟨operation.op, 1, elapsed⟩)]
  | (id, s) :: rest =>
    if operation.id < id then (operation.id, ⟨operation.op, 1, elapsed⟩) :: (id, s) :: rest
    else if operation.id = id then
      (id, { s with calls := s.calls + 1, total := s.total + elapsed }) :: rest
    else (id, s) :: recordIn operation elapsed rest

/-- Enters one evaluation of a node. -/
def record (s : Statistics) (operation : Operation) (elapsed : Nat) : Statistics :=
  ⟨recordIn operation elapsed s.nodes⟩

/-- What is known of a node. -/
def node? (s : Statistics) (id : Nat) : Option NodeStatistics := s.nodes.lookup id

/-- Whether nothing has been recorded. -/
def isEmpty (s : Statistics) : Bool := s.nodes.isEmpty

end Statistics

end TensorGraph
