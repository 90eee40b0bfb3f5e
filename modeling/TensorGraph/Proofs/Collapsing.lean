import Mathlib.Logic.Function.Iterate
import TensorGraph.Proofs.Broadcasting
import TensorGraph.Proofs.Tiling

/-! # Collapsing

Collapsing repeats one step, `Spread.merge`, and so ends in an iterate of it (`collapse_eq_iterate`).  The number
of merges is bounded by the rank, but the bound never ends them: each merge leaves one more extent of 1 in front
(`take_iterate_mergeInnermost`), and when only the innermost extent is left there is nothing to merge it with
(`shouldMerge_collapse`).  Collapsing therefore ends where a merge would not be done, and `shouldMerge_iff` says
when that is.  A word never overflows there, since the two inner extents divide the work.

`plan_collapses` puts this together for a plan: no work is lost, enough invocations are left for the workers, and
the reason why collapsing ended holds at the planned extents. -/

namespace TensorGraph.Planner

open Shape

/-! ### The number of merges -/

/-- How many merges collapsing does. -/
def mergeCount (p : Planner) (work : Nat) : Nat → Spread → Nat
  | 0, _ => 0
  | steps + 1, s => if p.shouldMerge work s then p.mergeCount work steps s.merge + 1 else 0

theorem collapse_eq_iterate (p : Planner) (work steps : Nat) (s : Spread) :
    p.collapse work steps s = Spread.merge^[p.mergeCount work steps s] s := by
  induction steps generalizing s with
  | zero => rfl
  | succ steps ih =>
      rw [collapse, mergeCount]
      split
      · rw [Function.iterate_succ_apply]
        exact ih s.merge
      · rfl

theorem mergeCount_le (p : Planner) (work steps : Nat) (s : Spread) : p.mergeCount work steps s ≤ steps := by
  induction steps generalizing s with
  | zero => exact Nat.le_refl 0
  | succ steps ih =>
      rw [mergeCount]
      split
      · exact Nat.succ_le_succ (ih s.merge)
      · exact Nat.zero_le _

/-- Every merge that is done should be done. -/
theorem shouldMerge_iterate {p : Planner} {work steps k : Nat} {s : Spread}
    (h : k < p.mergeCount work steps s) : p.shouldMerge work (Spread.merge^[k] s) = true := by
  induction steps generalizing s k with
  | zero => cases h
  | succ steps ih =>
      rw [mergeCount] at h
      split at h
      · rename_i hmerge
        cases k with
        | zero => exact hmerge
        | succ k =>
            rw [Function.iterate_succ_apply]
            exact ih (Nat.lt_of_succ_lt_succ h)
      · cases h

/-- Collapsing that does fewer merges than it may ends where the next one should not be done. -/
theorem shouldMerge_of_mergeCount_lt {p : Planner} {work steps : Nat} {s : Spread}
    (h : p.mergeCount work steps s < steps) : p.shouldMerge work (p.collapse work steps s) = false := by
  induction steps generalizing s with
  | zero => cases h
  | succ steps ih =>
      rw [mergeCount] at h
      rw [collapse]
      split at h
      · rename_i hmerge
        rw [if_pos hmerge]
        exact ih (Nat.lt_of_succ_lt_succ h)
      · rename_i hmerge
        rw [if_neg hmerge]
        exact Bool.eq_false_iff.mpr hmerge

/-! ### What a merge leaves -/

/-- The two inner extents and what a merge leaves outside of them make up the whole. -/
theorem size_dropLast_mergeInnermost {s : Shape} (h : 2 ≤ s.length) :
    size (mergeInnermost s).dropLast * ((innermost s).1 * (innermost s).2) = s.size := by
  obtain ⟨pre, n, i, rfl⟩ := exists_eq_append_pair h
  have hdrop : (mergeInnermost (pre ++ [n, i])).dropLast = 1 :: pre := by
    rw [mergeInnermost_append_pair, List.dropLast_concat]
  rw [hdrop, innermost_append_pair, size_append, size_cons, size_cons, size_cons, size_nil]
  ring

theorem dropLast_iterate_merge (s : Spread) (k : Nat) :
    (Spread.merge^[k + 1] s).extents.dropLast = (mergeInnermost (Spread.merge^[k] s).extents).dropLast := by
  rw [Function.iterate_succ_apply']
  rfl

theorem extents_iterate_merge (s : Spread) (k : Nat) :
    (Spread.merge^[k] s).extents = mergeInnermost^[k] s.extents := by
  induction k generalizing s with
  | zero => rfl
  | succ k ih => exact ih s.merge

theorem length_iterate_mergeInnermost (s : Shape) (k : Nat) : (mergeInnermost^[k] s).length = s.length := by
  induction k generalizing s with
  | zero => rfl
  | succ k ih =>
      rw [Function.iterate_succ_apply, ih]
      exact length_mergeInnermost s

theorem size_iterate_mergeInnermost (s : Shape) (k : Nat) : size (mergeInnermost^[k] s) = s.size := by
  induction k generalizing s with
  | zero => rfl
  | succ k ih =>
      rw [Function.iterate_succ_apply, ih]
      exact size_mergeInnermost s

/-- Each merge leaves one more extent of 1 in front. -/
theorem take_iterate_mergeInnermost {s : Shape} {k : Nat} (h : k < s.length) :
    (mergeInnermost^[k] s).take k = List.replicate k 1 := by
  induction k with
  | zero => rfl
  | succ k ih =>
      have hlength : 2 ≤ (mergeInnermost^[k] s).length := by
        rw [length_iterate_mergeInnermost]
        omega
      obtain ⟨pre, n, i, hpair⟩ := exists_eq_append_pair hlength
      have hpre : k ≤ pre.length := by
        have hsum := congrArg List.length hpair
        rw [length_iterate_mergeInnermost, List.length_append] at hsum
        simp only [List.length_cons, List.length_nil] at hsum
        omega
      have hones : pre.take k = List.replicate k 1 := by
        have hfront := ih (by omega)
        rwa [hpair, List.take_append_of_le_length hpre] at hfront
      rw [Function.iterate_succ_apply', hpair, mergeInnermost_append_pair, List.cons_append, List.take_succ_cons,
        List.take_append_of_le_length hpre, hones]
      rfl

/-- Where all extents but the innermost are 1 there is nothing to merge. -/
theorem innermost_snd_of_take {s : Shape} (hlength : 2 ≤ s.length)
    (h : s.take (s.length - 1) = List.replicate (s.length - 1) 1) : (innermost s).2 = 1 := by
  obtain ⟨pre, n, i, rfl⟩ := exists_eq_append_pair hlength
  have htake : (pre ++ [n, i]).take ((pre ++ [n, i]).length - 1) = pre ++ [n] := by
    rw [← List.dropLast_eq_take, ← List.singleton_append, ← List.append_assoc, List.dropLast_concat]
  have hmem : n ∈ List.replicate ((pre ++ [n, i]).length - 1) 1 := by
    rw [← h, htake]
    exact List.mem_append_right _ List.mem_cons_self
  rw [innermost_append_pair]
  exact List.eq_of_mem_replicate hmem

/-! ### When a merge should be done -/

/-- A merge should be done if the innermost extent is small, there is one next to it, the workers stay busy, and
every terminal extends over both dimensions or over neither. -/
theorem shouldMerge_iff {p : Planner} {work : Nat} {s : Spread} (hlength : 2 ≤ s.extents.length)
    (hsize : s.extents.size = work) (hpos : 0 < work) (hword : work < Word.size) :
    p.shouldMerge work s = true ↔
      (innermost s.extents).1 < p.minKernelWork ∧ (innermost s.extents).2 ≠ 1 ∧
      p.workers ≤ size (mergeInnermost s.extents).dropLast ∧
      ∀ t ∈ s.terminals, innermost t = innermost s.extents ∨ innermost t = (1, 1) := by
  have hsplit := size_dropLast_mergeInnermost hlength
  rw [hsize] at hsplit
  have hmerged : 0 < (innermost s.extents).1 * (innermost s.extents).2 :=
    Nat.pos_of_ne_zero fun hzero => by
      rw [hzero, Nat.mul_zero] at hsplit
      omega
  have hfits : Word.mul? (innermost s.extents).1 (innermost s.extents).2
      = some ((innermost s.extents).1 * (innermost s.extents).2) :=
    Word.mul?_eq_some.mpr ⟨Nat.lt_of_le_of_lt (Nat.le_of_dvd hpos ⟨_, by rw [Nat.mul_comm, hsplit]⟩) hword, rfl⟩
  have houter : work / ((innermost s.extents).1 * (innermost s.extents).2)
      = size (mergeInnermost s.extents).dropLast := by
    rw [← hsplit, Nat.mul_div_cancel _ hmerged]
  simp only [shouldMerge, hfits, houter, mergeable, Bool.and_eq_true, decide_eq_true_eq, bne_iff_ne,
    List.all_eq_true, Bool.or_eq_true, beq_iff_eq]
  tauto

/-- Collapsing that may do as many merges as there are outer dimensions ends where the next one should not be
done. -/
theorem shouldMerge_collapse (p : Planner) {work : Nat} {s : Spread} (hlength : 2 ≤ s.extents.length) :
    p.shouldMerge work (p.collapse work (s.extents.length - 1) s) = false := by
  rcases Nat.lt_or_eq_of_le (mergeCount_le p work (s.extents.length - 1) s) with hfewer | hall
  · exact shouldMerge_of_mergeCount_lt hfewer
  · have hextents : (p.collapse work (s.extents.length - 1) s).extents
        = mergeInnermost^[s.extents.length - 1] s.extents := by
      rw [collapse_eq_iterate, hall, extents_iterate_merge]
    have hnext : (innermost (p.collapse work (s.extents.length - 1) s).extents).2 = 1 := by
      rw [hextents]
      refine innermost_snd_of_take ?_ ?_
      · rw [length_iterate_mergeInnermost]
        exact hlength
      · rw [length_iterate_mergeInnermost]
        exact take_iterate_mergeInnermost (by omega)
    simp [shouldMerge, hnext]

/-! ### The merges of a plan -/

section
variable {p : Planner} {i : Interface} {plan : Plan}

theorem two_le_commonRank (i : Interface) : 2 ≤ commonRank i :=
  Nat.le_trans (by decide) (Nat.le_max_right i.rank leastRank)

/-- The terminals over the common shape, as they are before any merge. -/
def startOf (i : Interface) (plan : Plan) : Spread :=
  initial i (plan.domain.master.leftPadded (commonRank i))

/-- How many merges were done for a plan. -/
def mergesOf (p : Planner) (i : Interface) (plan : Plan) : Nat :=
  if plan.domain.work = 0 then 0 else p.mergeCount plan.domain.work (commonRank i - 1) (startOf i plan)

/-- The terminals over the planned extents. -/
def spreadOf (p : Planner) (i : Interface) (plan : Plan) : Spread :=
  Spread.merge^[p.mergesOf i plan] (startOf i plan)

theorem spreadOf_eq (p : Planner) (i : Interface) (plan : Plan) : p.spreadOf i plan
    = p.finalSpread i (plan.domain.master.leftPadded (commonRank i)) plan.domain.work := by
  rw [spreadOf, mergesOf, finalSpread]
  split
  · rfl
  · exact (collapse_eq_iterate ..).symm

/-- A plan is assembled from its spread. -/
theorem plan_eq_assemble (h : p.plan i = .ok plan) :
    joinTerminals (commonRank i) i = .ok (plan.domain.master.leftPadded (commonRank i)) ∧
    Word.product? (plan.domain.master.leftPadded (commonRank i)) = some plan.domain.work ∧
    plan = assemble i (plan.domain.master.leftPadded (commonRank i)) plan.domain.work (p.spreadOf i plan) := by
  obtain ⟨_, _, horders, extents, work, hjoin, hwork, hplan⟩ := plan_eq_ok_iff.mp h
  have hshape := (master_of_plan (checkOrders_eq_ok_iff.mp horders) h).1
  have hextents : extents = plan.domain.master.leftPadded (commonRank i) :=
    Except.ok.inj (hjoin.symm.trans (joinTerminals_of_joined (foldlM_broadcast_eq_ok.mp hshape)).2)
  have hsame : plan.domain.work = work := by rw [hplan]; rfl
  rw [spreadOf_eq, hsame, ← hextents]
  exact ⟨hjoin, hwork, hplan⟩

theorem length_startOf (h : p.plan i = .ok plan) : (startOf i plan).extents.length = commonRank i :=
  (joinTerminals_eq_ok (plan_eq_assemble h).1).1

theorem extents_spreadOf (h : p.plan i = .ok plan) : (p.spreadOf i plan).extents = plan.domain.extents := by
  have hplan := (plan_eq_assemble h).2.2
  exact (congrArg (fun q : Plan => q.domain.extents) hplan).symm

theorem accesses_spreadOf (h : p.plan i = .ok plan) :
    plan.accesses = List.zipWith (access plan.domain.extents) i.terminals (p.spreadOf i plan).terminals := by
  rw [← extents_spreadOf h, ← accesses_assemble i (plan.domain.master.leftPadded (commonRank i)) plan.domain.work]
  exact congrArg Plan.accesses (plan_eq_assemble h).2.2

/-- The invocations of a plan and the elements of its tile make up the work. -/
theorem invocations_mul_tile (h : p.plan i = .ok plan) :
    plan.domain.invocations * (plan.domain.tile.1 * plan.domain.tile.2) = plan.domain.work := by
  obtain ⟨_, htile, hinvocations⟩ := domain_of_plan h
  have hsize := (size_extents_of_plan h).1
  rw [hinvocations]
  split
  · rename_i hzero
    rw [hzero, Nat.zero_mul]
  · rw [← hsize]
    rcases Domain.exists_inner (two_le_rank_of_plan h) htile with
      ⟨_, columns, hextents, htile⟩ | ⟨_, rows, columns, hextents, htile⟩
    · rw [htile, hextents, size_append, size_cons, size_nil, Nat.one_mul, Nat.mul_one]
    · rw [htile, hextents, size_append, size_cons, size_cons, size_nil, Nat.mul_one]

/-- The last merge of a plan left enough for the workers. -/
theorem workers_le_of_merged (h : p.plan i = .ok plan) (hmerged : 0 < p.mergesOf i plan) :
    p.workers ≤ size plan.domain.extents.dropLast := by
  obtain ⟨hsize, hword⟩ := product?_eq_some (plan_eq_assemble h).2.1
  obtain ⟨k, hk⟩ : ∃ k, p.mergesOf i plan = k + 1 := ⟨p.mergesOf i plan - 1, by omega⟩
  have hwork : plan.domain.work ≠ 0 := fun hzero => by
    rw [mergesOf, if_pos hzero] at hmerged
    cases hmerged
  have hmerge : p.shouldMerge plan.domain.work (Spread.merge^[k] (startOf i plan)) = true := by
    rw [mergesOf, if_neg hwork] at hk
    exact shouldMerge_iterate (by rw [hk]; exact Nat.lt_succ_self k)
  rw [← extents_spreadOf h, spreadOf, hk, dropLast_iterate_merge]
  refine ((shouldMerge_iff ?_ ?_ (Nat.pos_of_ne_zero hwork) hword).mp hmerge).2.2.1
  · rw [extents_iterate_merge, length_iterate_mergeInnermost, length_startOf h]
    exact two_le_commonRank i
  · rw [extents_iterate_merge, size_iterate_mergeInnermost]
    exact hsize.symm

/-- At the planned extents the next merge should not be done. -/
theorem shouldMerge_spreadOf (h : p.plan i = .ok plan) (hwork : plan.domain.work ≠ 0) :
    p.shouldMerge plan.domain.work (p.spreadOf i plan) = false := by
  rw [spreadOf, mergesOf, if_neg hwork, ← collapse_eq_iterate, ← length_startOf h]
  exact shouldMerge_collapse p (length_startOf h ▸ two_le_commonRank i)

/-- **Collapsing loses no work and ends for a reason.**  The planned extents, the common shape, and the
invocations together with the tile all make up the work, and the rank stays as it was.  If two dimensions were
merged, the extents around the innermost one keep all workers busy.  Where there is any work, collapsing ended
because the innermost extent is large enough, because there is nothing to merge it with, because one more merge
would leave too little for the workers, or because some terminal extends over one of the two inner dimensions
but does not extend over both. -/
theorem plan_collapses (p : Planner) (i : Interface) (plan : Plan) (h : p.plan i = .ok plan) :
    plan.domain.extents = (p.spreadOf i plan).extents ∧
    plan.accesses = List.zipWith (access plan.domain.extents) i.terminals (p.spreadOf i plan).terminals ∧
    plan.domain.extents.size = plan.domain.work ∧
    plan.domain.master.size = plan.domain.work ∧
    plan.domain.invocations * (plan.domain.tile.1 * plan.domain.tile.2) = plan.domain.work ∧
    plan.domain.rank = (startOf i plan).extents.length ∧
    (0 < p.mergesOf i plan → p.workers ≤ size plan.domain.extents.dropLast) ∧
    (plan.domain.work ≠ 0 →
      p.minKernelWork ≤ (innermost plan.domain.extents).1 ∨
      (innermost plan.domain.extents).2 = 1 ∨
      size (mergeInnermost plan.domain.extents).dropLast < p.workers ∨
      ∃ t ∈ (p.spreadOf i plan).terminals, innermost t ≠ innermost plan.domain.extents ∧ innermost t ≠ (1, 1)) := by
  have hextents := extents_spreadOf h
  obtain ⟨hsize, hword⟩ := size_extents_of_plan h
  have hmaster := (product?_eq_some (plan_eq_assemble h).2.1).1
  have hrank : plan.domain.rank = (startOf i plan).extents.length := by
    rw [Domain.rank, ← hextents, spreadOf, extents_iterate_merge, length_iterate_mergeInnermost]
  refine ⟨hextents.symm, accesses_spreadOf h, hsize, ?_, invocations_mul_tile h, hrank, workers_le_of_merged h,
    fun hwork => ?_⟩
  · rw [hmaster, size_leftPadded]
  · have hlength := two_le_rank_of_plan h
    have hstop : ¬ p.shouldMerge plan.domain.work (p.spreadOf i plan) = true :=
      Bool.eq_false_iff.mp (shouldMerge_spreadOf h hwork)
    rw [shouldMerge_iff (by rw [hextents]; exact hlength) (by rw [hextents]; exact hsize)
      (Nat.pos_of_ne_zero hwork) hword, hextents] at hstop
    simp only [not_and_or, not_lt, not_not, not_le, not_forall, not_or, exists_prop] at hstop
    exact hstop

/-- Two merges that leave six elements outside of the innermost dimension; a third one would leave one, for the
five workers. -/
theorem plan_collapses_busy :
    let p : Planner := ⟨256, 5⟩
    let i : Interface := ⟨[.dense .f32 [6, 2, 3, 4], .dense .f32 [6, 1, 1, 1]], [.dense .f32 [6, 2, 3, 4]]⟩
    let plan : Plan :=
      { domain := ⟨[6, 2, 3, 4], [1, 1, 1, 1, 6, 24], 1, 144, 6⟩
        inputs := [⟨0, [0, 0, 0, 0, 24, 1], 4⟩, ⟨0, [0, 0, 0, 0, 1, 0], 4⟩]
        outputs := [⟨0, [0, 0, 0, 0, 24, 1], 4⟩] }
    p.plan i = .ok plan ∧ p.mergesOf i plan = 2 ∧ p.workers ≤ size plan.domain.extents.dropLast ∧
      (p.minKernelWork ≤ 24 ∨ (6 : Nat) = 1 ∨ 1 < p.workers ∨
        ∃ t ∈ (p.spreadOf i plan).terminals, innermost t ≠ (24, 6) ∧ innermost t ≠ (1, 1)) := by
  intro p i plan
  have hplan : p.plan i = .ok plan := by decide +kernel
  have hmerges : p.mergesOf i plan = 2 := by decide +kernel
  obtain ⟨_, _, _, _, _, _, hworkers, hstop⟩ := plan_collapses p i plan hplan
  exact ⟨hplan, hmerges, hworkers (by rw [hmerges]; decide), hstop (by decide)⟩

end

end TensorGraph.Planner
