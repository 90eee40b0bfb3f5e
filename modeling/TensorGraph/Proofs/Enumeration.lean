import Mathlib.Data.List.Forall2
import Mathlib.Data.List.Nodup
import TensorGraph.Shape.Basic

/-! # Counting the indices of a shape

`Shape.ravel` is the row-major number of an index and `Shape.unravel` the index of a number.  They
are inverse to each other on the indices in bounds (`ravel_unravel`, `unravel_ravel`), so that
`Shape.indices` lists each index in bounds exactly once and in the order of its number
(`indices_eq_map_unravel`, `nodup_indices`).  Splitting a shape splits its numbers into quotient and
remainder (`unravel_append`).  The odometer step `Shape.succ` leads from each number to the next
(`succ_unravel`), also around the end. -/

namespace TensorGraph.Shape

/-- The row-major number of an index. -/
def ravel : Shape → Index → Nat
  | _ :: rest, i :: index => i * size rest + ravel rest index
  | _, _ => 0

/-- Every coordinate lies below its extent. -/
abbrev InBounds (s : Shape) (index : Index) : Prop := List.Forall₂ (· < ·) index s

/-- No extent is zero. -/
def Positive (s : Shape) : Prop := ∀ n ∈ s, 0 < n

/-! ### Sizes -/

@[simp] theorem positive_nil : Positive [] := fun _ h => nomatch h

theorem positive_cons {n : Nat} {s : Shape} : Positive (n :: s) ↔ 0 < n ∧ s.Positive := by
  simp [Positive]

theorem positive_append {s t : Shape} : Positive (s ++ t) ↔ s.Positive ∧ t.Positive := by
  simp only [Positive, List.mem_append, or_imp, forall_and]

theorem Positive.drop {s : Shape} (h : s.Positive) (m : Nat) : Positive (s.drop m) :=
  fun n hn => h n (List.mem_of_mem_drop hn)

theorem Positive.take {s : Shape} (h : s.Positive) (m : Nat) : Positive (s.take m) :=
  fun n hn => h n (List.mem_of_mem_take hn)

theorem size_pos_iff {s : Shape} : 0 < s.size ↔ s.Positive := by
  induction s with
  | nil => simp
  | cons n s ih => rw [size_cons, positive_cons, ← ih, Nat.pos_iff_ne_zero, Nat.mul_ne_zero_iff,
        Nat.pos_iff_ne_zero, Nat.pos_iff_ne_zero]

theorem le_size_of_mem {s : Shape} (hpos : s.Positive) {n : Nat} (hn : n ∈ s) : n ≤ s.size := by
  induction s with
  | nil => cases hn
  | cons m s ih =>
      obtain ⟨hm, hs⟩ := positive_cons.mp hpos
      rcases List.mem_cons.mp hn with rfl | hn
      · exact Nat.le_mul_of_pos_right _ (size_pos_iff.mpr hs)
      · exact Nat.le_trans (ih hs hn) (Nat.le_mul_of_pos_left _ hm)

@[simp] theorem size_append (s t : Shape) : size (s ++ t) = s.size * t.size := by
  induction s with
  | nil => simp
  | cons n s ih => simp [ih, Nat.mul_assoc]

@[simp] theorem size_replicate_one (m : Nat) : size (List.replicate m 1) = 1 := by
  induction m with
  | zero => rfl
  | succ m ih => simp [List.replicate_succ, ih]

@[simp] theorem size_leftPadded (s : Shape) (rank : Nat) : size (s.leftPadded rank) = s.size := by
  rw [leftPadded, size_append, size_replicate_one, Nat.one_mul]

/-! ### Numbers and indices -/

@[simp] theorem length_unravel (s : Shape) (k : Nat) : (s.unravel k).length = s.length := by
  induction s with
  | nil => rfl
  | cons n s ih => simp [unravel_eq_cons, ih]

theorem unravel_inBounds {s : Shape} (h : s.Positive) (k : Nat) : s.InBounds (s.unravel k) := by
  induction s with
  | nil => exact .nil
  | cons n s ih =>
      obtain ⟨hn, hs⟩ := positive_cons.mp h
      rw [unravel_eq_cons]
      exact .cons (Nat.mod_lt _ hn) (ih hs)

theorem ravel_lt {s : Shape} {index : Index} (h : s.InBounds index) : s.ravel index < s.size := by
  induction h with
  | nil => exact Nat.one_pos
  | @cons i n index s hi _ ih =>
      calc i * size s + ravel s index < (i + 1) * size s := by rw [Nat.succ_mul]; omega
        _ ≤ n * size s := Nat.mul_le_mul_right _ hi

/-- A coordinate in bounds is less than the number of all indices. -/
theorem InBounds.lt_size {s : Shape} {index : Index} (h : s.InBounds index) :
    ∀ i ∈ index, i < s.size := by
  induction h with
  | nil => exact fun _ hi => nomatch hi
  | @cons i n index s hi hs ih =>
      have hpos : 0 < size s := Nat.zero_lt_of_lt (ravel_lt hs)
      intro j hj
      rcases List.mem_cons.mp hj with rfl | hj
      · exact Nat.lt_of_lt_of_le hi (Nat.le_mul_of_pos_right n hpos)
      · exact Nat.lt_of_lt_of_le (ih j hj) (Nat.le_mul_of_pos_left _ (Nat.zero_lt_of_lt hi))

/-- The number of the `k`-th index is `k`, counted around the end. -/
theorem ravel_unravel_mod (s : Shape) (k : Nat) : s.ravel (s.unravel k) = k % s.size := by
  induction s with
  | nil => simp [ravel, Nat.mod_one]
  | cons n s ih =>
      rw [unravel_eq_cons, ravel, ih, size_cons, Nat.mul_comm n, Nat.mod_mul, Nat.add_comm,
        Nat.mul_comm (size s)]

theorem ravel_unravel {s : Shape} {k : Nat} (h : k < s.size) : s.ravel (s.unravel k) = k := by
  rw [ravel_unravel_mod, Nat.mod_eq_of_lt h]

/-- Whole rounds do not show in an index. -/
theorem unravel_add_mul (s : Shape) (k j : Nat) : s.unravel (k + j * s.size) = s.unravel k := by
  induction s generalizing j with
  | nil => rfl
  | cons n s ih =>
      have hround : k + j * size (n :: s) = k + j * n * size s := by
        rw [size_cons, Nat.mul_assoc]
      rw [hround, unravel_eq_cons, unravel_eq_cons, ih]
      rcases Nat.eq_zero_or_pos (size s) with h | h
      · rw [h, Nat.mul_zero, Nat.add_zero]
      · rw [Nat.add_mul_div_right _ _ h, Nat.add_mul_mod_self_right]

theorem unravel_ravel {s : Shape} {index : Index} (h : s.InBounds index) :
    s.unravel (s.ravel index) = index := by
  induction h with
  | nil => rfl
  | @cons i n index s hi hs ih =>
      have hlt : ravel s index < size s := ravel_lt hs
      have hpos : 0 < size s := by omega
      rw [ravel, Nat.add_comm, unravel_eq_cons, unravel_add_mul, ih,
        Nat.add_mul_div_right _ _ hpos, Nat.div_eq_of_lt hlt, Nat.zero_add, Nat.mod_eq_of_lt hi]

/-- Indices of a shape in two parts: the first part counts whole rounds of the second. -/
theorem unravel_append (s t : Shape) (k : Nat) :
    unravel (s ++ t) k = s.unravel (k / t.size) ++ t.unravel k := by
  induction s with
  | nil => rfl
  | cons n s ih =>
      rw [List.cons_append, unravel_eq_cons, unravel_eq_cons, List.cons_append, ih, size_append,
        Nat.mul_comm, Nat.div_div_eq_div_mul]

theorem unravel_drop (s : Shape) (m k : Nat) : (s.unravel k).drop m = unravel (s.drop m) k := by
  induction s generalizing m with
  | nil => simp
  | cons n s ih =>
      cases m with
      | zero => rfl
      | succ m => rw [unravel_eq_cons, List.drop_succ_cons, List.drop_succ_cons, ih]

/-! ### The list of all indices -/

theorem mem_indices {s : Shape} {index : Index} : index ∈ s.indices ↔ s.InBounds index := by
  induction s generalizing index with
  | nil => simp [indices]
  | cons n s ih =>
      simp only [indices, List.mem_flatMap, List.mem_range, List.mem_map]
      constructor
      · rintro ⟨i, hi, rest, hrest, rfl⟩
        exact .cons hi (ih.mp hrest)
      · rintro (_ | ⟨hi, hrest⟩)
        exact ⟨_, hi, _, ih.mpr hrest, rfl⟩

/-- The rows of a table, one after the other, are the numbers of its cells in order. -/
theorem flatMap_range_rows {α : Type} (f : Nat → α) (n m : Nat) :
    ((List.range n).flatMap fun i => (List.range m).map fun j => f (i * m + j))
      = (List.range (n * m)).map f := by
  induction n with
  | zero => simp
  | succ n ih =>
      rw [List.range_succ, List.flatMap_append, ih, Nat.succ_mul, List.range_add, List.map_append]
      simp [Function.comp_def]

theorem indices_eq_map_unravel (s : Shape) :
    s.indices = (List.range s.size).map (unravel s) := by
  induction s with
  | nil => rfl
  | cons n s ih =>
      rw [size_cons, ← flatMap_range_rows, indices]
      refine List.flatMap_congr fun i hi => ?_
      rw [ih, List.map_map]
      refine List.map_congr_left fun j hj => ?_
      have hi : i < n := List.mem_range.mp hi
      have hj : j < size s := List.mem_range.mp hj
      rw [Function.comp_apply, Nat.add_comm, unravel_eq_cons, unravel_add_mul,
        Nat.add_mul_div_right _ _ (by omega), Nat.div_eq_of_lt hj, Nat.zero_add,
        Nat.mod_eq_of_lt hi]

theorem nodup_indices (s : Shape) : s.indices.Nodup := by
  rw [indices_eq_map_unravel]
  refine List.Nodup.map_on ?_ List.nodup_range
  intro j hj k hk h
  rw [← ravel_unravel (List.mem_range.mp hj), h, ravel_unravel (List.mem_range.mp hk)]

/-! ### The odometer -/

theorem succ_mod_eq_ite {n : Nat} (hn : 0 < n) (q : Nat) :
    (q + 1) % n = if q % n + 1 < n then q % n + 1 else 0 := by
  rw [← Nat.mod_add_mod]
  split
  · rename_i h
    exact Nat.mod_eq_of_lt h
  · have hmod : q % n < n := Nat.mod_lt _ hn
    have hlast : q % n + 1 = n := by omega
    rw [hlast, Nat.mod_self]

/-- One step of the odometer from the `k`-th index; it wraps when `k` is the last of a round. -/
theorem next_unravel {s : Shape} (h : s.Positive) (k : Nat) :
    s.next (s.unravel k) = (s.unravel (k + 1), decide (s.size ∣ k + 1)) := by
  induction s with
  | nil => simp [next]
  | cons n s ih =>
      obtain ⟨hn, hs⟩ := positive_cons.mp h
      have hdiv : (k + 1) / size s = k / size s + if size s ∣ k + 1 then 1 else 0 := Nat.succ_div
      rw [unravel_eq_cons, unravel_eq_cons n s (k + 1), next, ih hs, hdiv]
      by_cases hwrap : size s ∣ k + 1
      · have hround : n * size s ∣ k + 1 ↔ (k / size s + 1) % n = 0 := by
          rw [Nat.mul_comm, ← Nat.dvd_div_iff_mul_dvd hwrap, hdiv, if_pos hwrap,
            Nat.dvd_iff_mod_eq_zero]
        have hdigit := succ_mod_eq_ite hn (k / size s)
        by_cases hlt : k / size s % n + 1 < n
        · rw [if_pos hlt] at hdigit
          simp [hwrap, hround, hdigit, hlt]
        · rw [if_neg hlt] at hdigit
          simp [hwrap, hround, hdigit, hlt]
      · have hround : ¬ n * size s ∣ k + 1 := fun hd =>
          hwrap (Nat.dvd_trans ⟨n, Nat.mul_comm _ _⟩ hd)
        simp [hwrap, hround]

/-- The odometer counts. -/
theorem succ_unravel {s : Shape} (h : s.Positive) (k : Nat) :
    s.succ (s.unravel k) = s.unravel (k + 1) := by
  rw [succ, next_unravel h]

end TensorGraph.Shape
