/-!
# Shares of work

Work that is numbered from 0 is split among tasks in order: each task gets one run of consecutive
numbers, the runs differ in length by at most one, and longer runs come first.
-/

namespace TensorGraph

/-- The numbers from `start` up to and without `stop`. -/
structure Share where
  start : Nat
  stop : Nat
deriving DecidableEq, Repr

namespace Share

/-- Number of items. -/
def length (s : Share) : Nat := s.stop - s.start

/-- The items in order. -/
def items (s : Share) : List Nat := List.range' s.start s.length

/-- The share of one of `tasks` tasks in `work` items.  A single task gets everything, and so does
the first task of no work at all; a task beyond the last gets nothing. -/
def ofTask (work tasks task : Nat) : Share :=
  if tasks ≤ 1 ∨ work = 0 then
    if task = 0 then ⟨0, work⟩ else ⟨work, work⟩
  else
    let long := (work + tasks - 1) / tasks
    let short := long - 1
    let longer := work - short * tasks
    let (start, length) :=
      if task < longer then (task * long, long)
      else (longer * long + (task - longer) * short, short)
    let start := min start work
    ⟨start, min (start + length) work⟩

end Share

end TensorGraph
