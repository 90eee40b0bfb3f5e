import TensorGraph.Kernel.Sweep
import TensorGraph.Proofs.Enumeration

/-! # Shares of work and the walks over them

The shares of the tasks lie end to end between the boundaries `Share.boundary`
(`ofTask_eq_boundary`), so that their items, one task after the other, are all numbers below the work
(`flatMap_items`).  Over a domain without zero extents the odometer visits the same indices as the
computation of each index from its number (`steppedWalk_eq_flatWalk`); the tasks' walks, one after
the other, are therefore all outer indices in row-major order (`flatMap_taskIndices`). -/

namespace TensorGraph

namespace Share

/-! ### Boundaries -/

/-- The length of the shares that are shorter by one. -/
def short (work tasks : Nat) : Nat := (work + tasks - 1) / tasks - 1

/-- Where the share of a task begins: after as many short shares as there are tasks before it, and one
more item for each of those that have a long one. -/
def boundary (work tasks task : Nat) : Nat :=
  task * short work tasks + min task (work - short work tasks * tasks)

@[simp] theorem boundary_zero (work tasks : Nat) : boundary work tasks 0 = 0 := by
  simp [boundary]

theorem boundary_le_succ (work tasks task : Nat) :
    boundary work tasks task ≤ boundary work tasks (task + 1) := by
  unfold boundary
  rw [Nat.succ_mul]
  omega

theorem short_zero {tasks : Nat} (ht : 0 < tasks) : short 0 tasks = 0 := by
  unfold short
  rw [Nat.div_eq_of_lt (by omega)]

/-- With short shares only there is work left, with long shares only there is none. -/
theorem short_bounds {work tasks : Nat} (ht : 0 < tasks) (hw : 0 < work) :
    (work + tasks - 1) / tasks = short work tasks + 1 ∧ short work tasks * tasks < work ∧
      work ≤ short work tasks * tasks + tasks := by
  have hlong : (work + tasks - 1) / tasks = (work - 1) / tasks + 1 := by
    rw [← Nat.add_div_right _ ht]
    congr 1
    omega
  have hshort : short work tasks = (work - 1) / tasks := by
    rw [short, hlong, Nat.add_sub_cancel]
  have hdiv : tasks * ((work - 1) / tasks) + (work - 1) % tasks = work - 1 := Nat.div_add_mod _ _
  have hmod : (work - 1) % tasks < tasks := Nat.mod_lt _ ht
  rw [hshort, Nat.mul_comm]
  exact ⟨hlong, by omega, by omega⟩

theorem boundary_tasks {work tasks : Nat} (ht : 0 < tasks) : boundary work tasks tasks = work := by
  unfold boundary
  rcases Nat.eq_zero_or_pos work with rfl | hw
  · rw [short_zero ht]
    omega
  · obtain ⟨_, hlow, hhigh⟩ := short_bounds ht hw
    rw [Nat.mul_comm tasks]
    omega

theorem boundary_le {work tasks task : Nat} (h : task ≤ tasks) (ht : 0 < tasks) :
    boundary work tasks task ≤ work := by
  have hmul : task * short work tasks ≤ tasks * short work tasks := Nat.mul_le_mul_right _ h
  calc boundary work tasks task ≤ boundary work tasks tasks := by unfold boundary; omega
    _ = work := boundary_tasks ht

/-- The share of a task lies between two neighbouring boundaries. -/
theorem ofTask_eq_boundary {work tasks task : Nat} (h : task < tasks) :
    ofTask work tasks task = ⟨boundary work tasks task, boundary work tasks (task + 1)⟩ := by
  have hstart : boundary work tasks task ≤ work := boundary_le (by omega) (by omega)
  have hstop : boundary work tasks (task + 1) ≤ work := boundary_le (by omega) (by omega)
  unfold ofTask
  split
  · rename_i hsingle
    rcases Nat.eq_zero_or_pos work with rfl | hw
    · have hstart : boundary 0 tasks task = 0 := by omega
      have hstop : boundary 0 tasks (task + 1) = 0 := by omega
      simp [hstart, hstop]
    · obtain ⟨rfl, rfl⟩ : tasks = 1 ∧ task = 0 := by omega
      rw [if_pos rfl, boundary_zero, boundary_tasks Nat.one_pos]
  · have ht : 0 < tasks := by omega
    have hw : 0 < work := by omega
    obtain ⟨hlong, hlow, hhigh⟩ := short_bounds ht hw
    simp only [hlong, Nat.add_sub_cancel]
    unfold boundary at hstart hstop ⊢
    rw [Nat.succ_mul] at hstop ⊢
    generalize short work tasks = short at *
    split
    · rename_i hlonger
      rw [Nat.min_eq_left (Nat.le_of_lt hlonger)] at hstart ⊢
      rw [Nat.min_eq_left hlonger] at hstop ⊢
      rw [Nat.mul_succ]
      congr 1 <;> omega
    · rename_i hlonger
      have hsplit : task * short = (work - short * tasks) * short
          + (task - (work - short * tasks)) * short := by
        rw [← Nat.add_mul]
        congr 1
        omega
      rw [Nat.mul_succ]
      congr 1 <;> omega

/-- The items of all tasks, one task after the other, are all numbers below the work. -/
theorem flatMap_items {work tasks : Nat} (ht : 0 < tasks) :
    ((List.range tasks).flatMap fun task => (ofTask work tasks task).items) = List.range work := by
  have hfirst : ∀ n ≤ tasks, ((List.range n).flatMap fun task => (ofTask work tasks task).items)
      = List.range (boundary work tasks n) := by
    intro n hn
    induction n with
    | zero => simp
    | succ n ih =>
        have hle := boundary_le_succ work tasks n
        have hlength : boundary work tasks (n + 1)
            = boundary work tasks n + (boundary work tasks (n + 1) - boundary work tasks n) := by
          omega
        rw [List.range_succ, List.flatMap_append, ih (by omega), List.flatMap_singleton,
          ofTask_eq_boundary (by omega), hlength, List.range_add, ← List.range'_eq_map_range]
        simp [items, length]
  rw [hfirst tasks (Nat.le_refl _), boundary_tasks ht]

end Share

namespace Domain

/-! ### The odometer -/

/-- From the index of a number on, the odometer visits the indices of the numbers that follow. -/
theorem walkFrom_unravel {s : Shape} (hs : s.Positive) (count start : Nat) :
    walkFrom s count (s.unravel start) = (List.range' start count).map s.unravel := by
  induction count generalizing start with
  | zero => rfl
  | succ count ih => rw [walkFrom, Shape.succ_unravel hs, ih, List.range'_succ, List.map_cons]

/-- The odometer and the computation of each index from its number visit the same indices. -/
theorem steppedWalk_eq_flatWalk {d : Domain} (h : d.outer.Positive) (share : Share) :
    d.steppedWalk share = d.flatWalk share := by
  have hwheels : d.wheelExtents.Positive :=
    Shape.positive_append.mpr ⟨h, fun n hn => by simp [List.eq_of_mem_replicate hn]⟩
  rw [steppedWalk, walkFrom_unravel hwheels, List.map_map, flatWalk, Share.items]
  refine List.map_congr_left fun k _ => ?_
  rw [Function.comp_apply, wheelExtents, Shape.unravel_append, Shape.size_replicate_one, Nat.div_one,
    List.take_left' (Shape.length_unravel _ _)]

theorem walk_eq_flatWalk {d : Domain} (h : d.outer.Positive) (share : Share) :
    d.walk share = d.flatWalk share := by
  unfold walk
  split
  · exact steppedWalk_eq_flatWalk h share
  · rfl

/-- The walks of the tasks, one after the other, are all outer indices in row-major order. -/
theorem flatMap_taskIndices {d : Domain} (h : d.outer.Positive) (hcount : d.invocations = d.outer.size)
    {tasks : Nat} (ht : 0 < tasks) :
    (List.range tasks).flatMap (d.taskIndices tasks) = d.outer.indices := by
  have hitems := @Share.flatMap_items d.invocations tasks ht
  rw [Shape.indices_eq_map_unravel, ← hcount, ← hitems, List.map_flatMap]
  refine List.flatMap_congr fun task _ => ?_
  rw [taskIndices, walk_eq_flatWalk h, flatWalk]

end Domain

end TensorGraph
