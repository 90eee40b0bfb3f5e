import TensorGraph.Number.Word
import TensorGraph.Proofs.Walks

/-! # Even shares in unsigned words

The share of a task is computed from a rounded quotient and not from the shares before it.  Here it is computed once
more in unsigned words, with every sum, difference and product checked (`Share.ofTask?`).  For the tasks that there
are nothing is refused (`ofTask?_of_lt`), since every product on the way counts items of the work.  A task with a
larger number gets nothing (`ofTask_of_le`), but the products that say so may need more than one word.

Shares have one of two neighbouring lengths, and the longer ones come first (`length_ofTask`);
`Share.tiles_evenly` says this and that they lie end to end, of any amount of work and any number of tasks. -/

namespace TensorGraph

/-! ### Computing in unsigned words -/

namespace Word

/-- The sum of two words, unless it needs more than one word. -/
def add? (a b : Nat) : Option Nat := if a + b < size then some (a + b) else none

/-- The difference of two words, unless it is below zero. -/
def sub? (a b : Nat) : Option Nat := if b ≤ a then some (a - b) else none

/-- The quotient of two words rounded up, with the increment checked. -/
def divUp? (a b : Nat) : Option Nat := if a % b = 0 then some (a / b) else add? (a / b) 1

theorem add?_eq_some {a b n : Nat} : add? a b = some n ↔ a + b < size ∧ a + b = n := by
  simp [add?]

theorem sub?_eq_some {a b n : Nat} : sub? a b = some n ↔ b ≤ a ∧ a - b = n := by
  simp [sub?]

theorem divUp_eq {a b : Nat} (hb : 0 < b) :
    (a + b - 1) / b = if a % b = 0 then a / b else a / b + 1 := by
  have hdiv : a / b * b + a % b = a := Nat.div_add_mod' a b
  have hmod : a % b < b := Nat.mod_lt a hb
  split
  · exact Nat.div_eq_of_lt_le (by omega) (by rw [Nat.succ_mul]; omega)
  · exact Nat.div_eq_of_lt_le (by rw [Nat.succ_mul]; omega) (by rw [Nat.succ_mul, Nat.succ_mul]; omega)

/-- Rounding up is never refused. -/
theorem divUp?_eq {a b : Nat} (hb : 0 < b) (ha : a < size) : divUp? a b = some ((a + b - 1) / b) := by
  rw [divUp?, divUp_eq hb]
  split
  · rfl
  · have hdiv : a / b * b + a % b = a := Nat.div_add_mod' a b
    have hle : a / b ≤ a / b * b := Nat.le_mul_of_pos_right _ hb
    exact add?_eq_some.mpr ⟨by omega, rfl⟩

end Word

namespace Share

/-- Where the share of a task begins and how long it is, with every value checked: `longer` tasks have `long` items
each, those behind them `short` ones. -/
def place? (long short longer task : Nat) : Option (Nat × Nat) :=
  if task < longer then do
    let start ← Word.mul? task long
    return (start, long)
  else do
    let before ← Word.mul? longer long
    let others ← Word.sub? task longer
    let between ← Word.mul? others short
    let start ← Word.add? before between
    return (start, short)

/-- The share of a task, with every value checked. -/
def ofTask? (work tasks task : Nat) : Option Share :=
  if tasks ≤ 1 ∨ work = 0 then
    some (if task = 0 then ⟨0, work⟩ else ⟨work, work⟩)
  else do
    let long ← Word.divUp? work tasks
    let short ← Word.sub? long 1
    let covered ← Word.mul? short tasks
    let longer ← Word.sub? work covered
    let (start, length) ← place? long short longer task
    let start := min start work
    let stop ← Word.add? start length
    return ⟨start, min stop work⟩

theorem place?_eq_some {long short longer task start length : Nat}
    (h : place? long short longer task = some (start, length)) :
    (start, length) = if task < longer then (task * long, long)
      else (longer * long + (task - longer) * short, short) := by
  unfold place? at h
  split at h
  · obtain ⟨_, hstart, h⟩ := Option.bind_eq_some_iff.mp h
    obtain ⟨_, rfl⟩ := Word.mul?_eq_some.mp hstart
    rw [if_pos ‹_›]
    exact (Option.some.inj h).symm
  · simp only [Option.bind_eq_bind, Option.bind_eq_some_iff] at h
    obtain ⟨before, hbefore, others, hothers, between, hbetween, start, hstart, h⟩ := h
    obtain ⟨_, rfl⟩ := Word.mul?_eq_some.mp hbefore
    obtain ⟨_, rfl⟩ := Word.sub?_eq_some.mp hothers
    obtain ⟨_, rfl⟩ := Word.mul?_eq_some.mp hbetween
    obtain ⟨_, rfl⟩ := Word.add?_eq_some.mp hstart
    rw [if_neg ‹_›]
    exact (Option.some.inj h).symm

/-- What is not refused is the share. -/
theorem eq_ofTask_of_ofTask? {work tasks task : Nat} (hwork : work < Word.size) {share : Share}
    (h : ofTask? work tasks task = some share) : share = ofTask work tasks task := by
  unfold ofTask? at h
  unfold ofTask
  split at h
  · rename_i hsingle
    rw [if_pos hsingle]
    exact (Option.some.inj h).symm
  · rename_i hsingle
    rw [if_neg hsingle]
    simp only [Word.divUp?_eq (show 0 < tasks by omega) hwork, Option.bind_eq_bind, Option.bind_some,
      Option.bind_eq_some_iff] at h
    obtain ⟨short, hshort, covered, hcovered, longer, hlonger, ⟨start, length⟩, hplace, stop, hstop, hshare⟩ := h
    obtain ⟨_, rfl⟩ := Word.sub?_eq_some.mp hshort
    obtain ⟨_, rfl⟩ := Word.mul?_eq_some.mp hcovered
    obtain ⟨_, rfl⟩ := Word.sub?_eq_some.mp hlonger
    obtain ⟨_, rfl⟩ := Word.add?_eq_some.mp hstop
    dsimp only
    rw [← place?_eq_some hplace]
    exact (Option.some.inj hshare).symm

/-- The shares of the tasks that there are lie within the work, so that nothing on the way to them is refused. -/
theorem exists_place? {work tasks task short longer : Nat} (hlonger : longer ≤ tasks)
    (htotal : longer * (short + 1) + (tasks - longer) * short = work) (hwork : work < Word.size)
    (h : task < tasks) : ∃ start length,
      place? (short + 1) short longer task = some (start, length) ∧ start + length ≤ work := by
  unfold place?
  by_cases hlong : task < longer
  · have hstop : (task + 1) * (short + 1) ≤ longer * (short + 1) := Nat.mul_le_mul_right _ hlong
    rw [Nat.succ_mul] at hstop
    rw [if_pos hlong, Word.mul?_eq_some.mpr ⟨by omega, rfl⟩]
    exact ⟨_, _, rfl, by omega⟩
  · have hstop : (task - longer + 1) * short ≤ (tasks - longer) * short := Nat.mul_le_mul_right _ (by omega)
    rw [Nat.succ_mul] at hstop
    rw [if_neg hlong, Word.mul?_eq_some.mpr ⟨by omega, rfl⟩, Word.sub?_eq_some.mpr ⟨by omega, rfl⟩]
    simp only [Option.bind_eq_bind, Option.bind_some]
    rw [Word.mul?_eq_some.mpr ⟨by omega, rfl⟩, Option.bind_some, Word.add?_eq_some.mpr ⟨by omega, rfl⟩]
    exact ⟨_, _, rfl, by omega⟩

/-- Short shares for all tasks and one more item for the longer ones are all the work. -/
theorem total_eq {work tasks : Nat} (ht : 0 < tasks) (hw : 0 < work) :
    work - short work tasks * tasks ≤ tasks ∧
      (work - short work tasks * tasks) * (short work tasks + 1)
        + (tasks - (work - short work tasks * tasks)) * short work tasks = work := by
  obtain ⟨_, hlow, hhigh⟩ := short_bounds ht hw
  generalize short work tasks = short at *
  obtain ⟨longer, rfl⟩ : ∃ longer, work = short * tasks + longer := ⟨work - short * tasks, by omega⟩
  have hlonger : longer ≤ tasks := by omega
  rw [Nat.add_sub_cancel_left]
  refine ⟨hlonger, ?_⟩
  calc longer * (short + 1) + (tasks - longer) * short
      = (longer + (tasks - longer)) * short + longer := by rw [Nat.mul_succ, Nat.add_mul]; omega
    _ = short * tasks + longer := by rw [Nat.add_sub_cancel' hlonger, Nat.mul_comm]

/-- Nothing is refused for a task that there is. -/
theorem ofTask?_of_lt {work tasks task : Nat} (hwork : work < Word.size) (h : task < tasks) :
    ofTask? work tasks task = some (ofTask work tasks task) := by
  have hexists : ∃ share, ofTask? work tasks task = some share := by
    unfold ofTask?
    by_cases hsingle : tasks ≤ 1 ∨ work = 0
    · exact ⟨_, if_pos hsingle⟩
    · have ht : 0 < tasks := by omega
      have hw : 0 < work := by omega
      obtain ⟨hlong, hlow, _⟩ := short_bounds ht hw
      obtain ⟨hlonger, htotal⟩ := total_eq ht hw
      obtain ⟨start, length, hplace, hstop⟩ := exists_place? hlonger htotal hwork h
      rw [if_neg hsingle, Word.divUp?_eq ht hwork, hlong]
      simp only [Option.bind_eq_bind, Option.bind_some]
      rw [Word.sub?_eq_some.mpr ⟨by omega, Nat.add_sub_cancel ..⟩, Option.bind_some,
        Word.mul?_eq_some.mpr ⟨by omega, rfl⟩, Option.bind_some, Word.sub?_eq_some.mpr ⟨by omega, rfl⟩,
        Option.bind_some, hplace, Option.bind_some, Word.add?_eq_some.mpr ⟨by omega, rfl⟩]
      exact ⟨_, rfl⟩
  obtain ⟨share, hshare⟩ := hexists
  rw [hshare, eq_ofTask_of_ofTask? hwork hshare]

/-! ### Lengths -/

/-- A task beyond the last gets nothing. -/
theorem ofTask_of_le {work tasks task : Nat} (ht : 0 < tasks) (h : tasks ≤ task) :
    ofTask work tasks task = ⟨work, work⟩ := by
  unfold ofTask
  split
  · rw [if_neg (by omega)]
  · have hw : 0 < work := by omega
    obtain ⟨hlong, _⟩ := short_bounds ht hw
    obtain ⟨hlonger, htotal⟩ := total_eq ht hw
    simp only [hlong, Nat.add_sub_cancel]
    generalize short work tasks = short at *
    have hbehind : (tasks - (work - short * tasks)) * short ≤ (task - (work - short * tasks)) * short :=
      Nat.mul_le_mul_right _ (by omega)
    rw [if_neg (by omega)]
    dsimp only
    congr 1 <;> omega

/-- The longer shares have one item more than the short ones and come before them. -/
theorem length_ofTask {work tasks task : Nat} (h : task < tasks) :
    (ofTask work tasks task).length
      = short work tasks + if task < work - short work tasks * tasks then 1 else 0 := by
  rw [ofTask_eq_boundary h]
  dsimp only [length, boundary]
  rw [Nat.succ_mul]
  split <;> omega

theorem start_le_stop {work tasks task : Nat} (h : task < tasks) :
    (ofTask work tasks task).start ≤ (ofTask work tasks task).stop := by
  rw [ofTask_eq_boundary h]
  exact boundary_le_succ work tasks task

/-- **Shares tile the work evenly.**  However much work there is and however many tasks, the first share begins at
0, the last one ends with the work, and each one begins where the one before it ends.  No share is longer than an
earlier one, and none is shorter by more than one item.  What the computation in words does not refuse is empty
for a task beyond the last, and for the tasks that there are it refuses nothing. -/
theorem tiles_evenly (work tasks : Nat) (hwork : work < Word.size) (hpos : 0 < tasks) :
    (ofTask work tasks 0).start = 0 ∧ (ofTask work tasks (tasks - 1)).stop = work ∧
    (∀ task, task + 1 < tasks → (ofTask work tasks task).stop = (ofTask work tasks (task + 1)).start) ∧
    (∀ task < tasks, (ofTask work tasks task).start ≤ (ofTask work tasks task).stop) ∧
    (∀ task other, task ≤ other → other < tasks →
      (ofTask work tasks other).length ≤ (ofTask work tasks task).length ∧
      (ofTask work tasks task).length ≤ (ofTask work tasks other).length + 1) ∧
    (∀ task, tasks ≤ task → ∀ share, ofTask? work tasks task = some share → share = ⟨work, work⟩) ∧
    ∀ task < tasks, ofTask? work tasks task = some (ofTask work tasks task) := by
  refine ⟨?_, ?_, fun task h => ?_, fun task h => start_le_stop h, fun task other hle h => ?_,
    fun task h share hshare => ?_, fun task h => ofTask?_of_lt hwork h⟩
  · rw [ofTask_eq_boundary hpos, boundary_zero]
  · rw [ofTask_eq_boundary (by omega), Nat.sub_add_cancel hpos, boundary_tasks hpos]
  · rw [ofTask_eq_boundary (by omega), ofTask_eq_boundary h]
  · rw [length_ofTask h, length_ofTask (by omega)]
    constructor <;> split <;> split <;> omega
  · rw [eq_ofTask_of_ofTask? hwork hshare, ofTask_of_le hpos h]

/-- Nearly as many items as words count, two for each task but the last two.  The next two task numbers get
nothing; for the one behind them the product is no word any more. -/
theorem tiles_evenly_largest :
    let work := 18446744073709551614
    let tasks := 9223372036854775808
    (ofTask work tasks 0).start = 0 ∧ (ofTask work tasks (tasks - 1)).stop = work ∧
    (ofTask work tasks 0).length ≤ (ofTask work tasks (tasks - 1)).length + 1 ∧
    ofTask? work tasks (tasks - 1) = some ⟨work - 1, work⟩ ∧
    (∀ share, ofTask? work tasks (tasks + 1) = some share → share = ⟨work, work⟩) ∧
    (ofTask? work tasks (tasks + 1)).isSome ∧ ofTask? work tasks (tasks + 2) = none := by
  intro work tasks
  obtain ⟨hstart, hstop, _, _, hlengths, hbeyond, hthere⟩ := tiles_evenly work tasks (by decide) (by decide)
  exact ⟨hstart, hstop, (hlengths 0 (tasks - 1) (by decide) (by decide)).2,
    (hthere (tasks - 1) (by decide)).trans (by decide), hbeyond (tasks + 1) (by decide), by decide, by decide⟩

end Share

end TensorGraph
