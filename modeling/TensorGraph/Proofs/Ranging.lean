import TensorGraph.Proofs.Collapsing
import TensorGraph.Proofs.Signed

/-! # The range of planned addresses

A planner bounds the number of elements of a domain by an unsigned word and bounds no offset, so that the accesses
of a plan need not be in range (`exists_plan_not_ranged`).  `plan_ranges` says exactly when they are.  If there are
elements, the number of elements of every terminal and the byte at which its last element begins must be signed
words.  No coordinate is larger then: wherever a domain extends, some terminal does, also where dimensions were
merged (`Spread.Covered`).  If there are no elements, only the strides remain. -/

namespace TensorGraph.Planner

open Shape

/-- Every access of a plan is in range. -/
def Ranged (p : Planner) (i : Interface) (plan : Plan) : Prop :=
  ∀ entry ∈ plan.accesses.zip (p.spreadOf i plan).terminals, entry.1.Ranged plan.domain entry.2

/-! ### Coordinates -/

/-- Wherever the domain extends, some terminal does. -/
def Spread.Covered (s : Spread) : Prop :=
  ∀ j m : Nat, s.extents[j]? = some m → m = 1 ∨ ∃ t : Shape, t ∈ s.terminals ∧ t[j]? = some m

/-- Every extent that is joined is that of a terminal or was there before. -/
theorem getElem?_joinTerminals {rank master : Nat} {ts : List Terminal} {start extents : Shape}
    (h : ts.foldlM (joinTerminal rank master) start = .ok extents) {j m : Nat} (hm : extents[j]? = some m) :
    start[j]? = some m ∨ ∃ t ∈ ts, (t.extents.leftPadded rank)[j]? = some m := by
  induction ts generalizing start with
  | nil =>
      obtain rfl := Except.ok.inj h
      exact .inl hm
  | cons t ts ih =>
      rw [List.foldlM_cons] at h
      obtain ⟨next, hnext, h⟩ := bind_eq_ok.mp h
      rcases ih h with hstart | ⟨u, hu, hm⟩
      · unfold joinTerminal at hnext
        dsimp only at hnext
        split at hnext
        · obtain rfl := Except.ok.inj hnext
          obtain ⟨a, b, ha, hb, hjoin⟩ := List.getElem?_zipWith_eq_some.mp hstart
          unfold Extent.join at hjoin
          split at hjoin
          · exact .inr ⟨t, List.mem_cons_self, hjoin ▸ hb⟩
          · exact .inl (hjoin ▸ ha)
        · cases hnext
      · exact .inr ⟨u, List.mem_cons_of_mem t hu, hm⟩

theorem covered_initial {i : Interface} {extents : Shape}
    (h : joinTerminals (commonRank i) i = .ok extents) : (initial i extents).Covered := by
  intro j m hm
  rcases getElem?_joinTerminals h hm with hone | ⟨t, ht, hm⟩
  · exact .inl (List.eq_of_mem_replicate (List.mem_of_getElem? hone))
  · exact .inr ⟨_, List.mem_map_of_mem ht, hm⟩

/-- If the domain extends over one of its two inner dimensions, some terminal extends over both. -/
theorem exists_innermost_eq {s : Spread} (hlength : 2 ≤ s.extents.length) (haligned : s.Aligned) (h : s.Covered)
    (hm : ∀ t ∈ s.terminals, innermost t = innermost s.extents ∨ innermost t = (1, 1)) :
    innermost s.extents = (1, 1) ∨ ∃ t ∈ s.terminals, innermost t = innermost s.extents := by
  obtain ⟨pre, n, i, hextents⟩ := exists_eq_append_pair hlength
  have hends : s.extents[pre.length]? = some n ∧ s.extents[pre.length + 1]? = some i := by simp [hextents]
  -- A terminal with an extent other than 1 in one of the two places is not of extent 1 in both.
  have hboth {t : Shape} (ht : t ∈ s.terminals) {k m : Nat} (hne : m ≠ 1) (htm : t[k]? = some m)
      (hk : k = pre.length ∨ k = pre.length + 1) : innermost t = innermost s.extents := by
    have hlen : t.length = s.extents.length := (haligned t ht).length_eq
    obtain ⟨preT, tn, ti, rfl⟩ := exists_eq_append_pair (hlen ▸ hlength)
    have hpre : pre.length = preT.length := by simpa [hextents] using hlen.symm
    refine (hm _ ht).resolve_right fun hones => hne ?_
    obtain ⟨rfl, rfl⟩ := Prod.mk.inj ((innermost_append_pair preT tn ti).symm.trans hones)
    rcases hk with rfl | rfl
    · simpa [hpre] using htm.symm
    · simpa [hpre] using htm.symm
  by_cases hi : i = 1
  · by_cases hn : n = 1
    · exact .inl (by rw [hextents, innermost_append_pair, hi, hn])
    · obtain ⟨t, ht, htn⟩ := (h _ _ hends.1).resolve_left hn
      exact .inr ⟨t, ht, hboth ht hn htn (.inl rfl)⟩
  · obtain ⟨t, ht, hti⟩ := (h _ _ hends.2).resolve_left hi
    exact .inr ⟨t, ht, hboth ht hi hti (.inr rfl)⟩

/-- A merge leaves a 1 in front. -/
theorem getElem?_mergeInnermost_zero {s : Shape} (h : 2 ≤ s.length) : (mergeInnermost s)[0]? = some 1 := by
  obtain ⟨pre, n, i, rfl⟩ := exists_eq_append_pair h
  rw [mergeInnermost_append_pair, List.cons_append, List.getElem?_cons_zero]

/-- Behind it come the extents that were not merged, and then the product of the others. -/
theorem getElem?_mergeInnermost {s : Shape} (h : 2 ≤ s.length) (j : Nat) :
    (mergeInnermost s)[j + 1]? = if j + 2 < s.length then s[j]? else
      if j + 2 = s.length then some ((innermost s).1 * (innermost s).2) else none := by
  obtain ⟨pre, n, i, rfl⟩ := exists_eq_append_pair h
  have hlength : (pre ++ [n, i]).length = pre.length + 2 := by simp
  rw [mergeInnermost_append_pair, innermost_append_pair, hlength, List.cons_append, List.getElem?_cons_succ]
  rcases Nat.lt_trichotomy j pre.length with hlt | rfl | hgt
  · rw [if_pos (by omega), List.getElem?_append_left hlt, List.getElem?_append_left hlt]
  · simp
  · rw [if_neg (by omega), if_neg (by omega)]
    exact List.getElem?_eq_none (by simp; omega)

/-- A merge keeps a domain covered. -/
theorem covered_merge {s : Spread} (hlength : 2 ≤ s.extents.length) (haligned : s.Aligned) (h : s.Covered)
    (hm : ∀ t ∈ s.terminals, innermost t = innermost s.extents ∨ innermost t = (1, 1)) :
    s.merge.Covered := by
  have hlen : ∀ t ∈ s.terminals, t.length = s.extents.length := fun t ht => (haligned t ht).length_eq
  have hgoal : ∀ j m : Nat, (mergeInnermost s.extents)[j]? = some m →
      m = 1 ∨ ∃ t ∈ s.terminals, (mergeInnermost t)[j]? = some m := by
    intro j m hj
    cases j with
    | zero =>
        rw [getElem?_mergeInnermost_zero hlength] at hj
        exact .inl (Option.some.inj hj).symm
    | succ j =>
        have hmerged {t : Shape} (ht : t ∈ s.terminals) := getElem?_mergeInnermost (hlen t ht ▸ hlength) j
        rw [getElem?_mergeInnermost hlength] at hj
        split at hj
        · rename_i hbefore
          refine (h j m hj).imp_right fun ⟨t, ht, htj⟩ => ⟨t, ht, ?_⟩
          rw [hmerged ht, if_pos (by rwa [hlen t ht]), htj]
        · rename_i hbefore
          split at hj
          · rename_i hlast
            obtain rfl := Option.some.inj hj
            rcases exists_innermost_eq hlength haligned h hm with hones | ⟨t, ht, hinner⟩
            · exact .inl (by simp [hones])
            · refine .inr ⟨t, ht, ?_⟩
              rw [hmerged ht, hlen t ht, if_neg hbefore, if_pos hlast, hinner]
          · cases hj
  intro j m hj
  refine (hgoal j m hj).imp_right fun ⟨t, ht, htj⟩ => ⟨_, List.mem_map_of_mem ht, htj⟩

theorem covered_collapse (p : Planner) (work steps : Nat) {s : Spread} (hlength : 2 ≤ s.extents.length)
    (haligned : s.Aligned) (h : s.Covered) : (p.collapse work steps s).Covered := by
  suffices 2 ≤ (p.collapse work steps s).extents.length ∧ (p.collapse work steps s).Aligned ∧
      (p.collapse work steps s).Covered from this.2.2
  refine collapse_induction p work (P := fun s => 2 ≤ s.extents.length ∧ s.Aligned ∧ s.Covered) ?_ steps
    ⟨hlength, haligned, h⟩
  rintro s hshould ⟨hlength, haligned, h⟩
  have hm := mergeable_of_shouldMerge hshould
  refine ⟨?_, aligned_merge haligned hm, covered_merge hlength haligned h hm⟩
  rw [Spread.merge, length_mergeInnermost]
  exact hlength

/-- Over a domain with elements, extents are signed words if the numbers of elements of all terminals are. -/
theorem extents_lt_of_covered {s : Spread} (haligned : s.Aligned) (h : s.Covered) (hpositive : s.extents.Positive)
    (hsizes : ∀ t ∈ s.terminals, size t < 2 ^ 63) : ∀ m ∈ s.extents, m < 2 ^ 63 := by
  intro m hm
  obtain ⟨j, hj⟩ := List.mem_iff_getElem?.mp hm
  rcases h j m hj with rfl | ⟨t, ht, htj⟩
  · decide
  · exact Nat.lt_of_le_of_lt (le_size_of_mem (positive_of_stretchesTo (haligned t ht) hpositive)
      (List.mem_of_getElem? htj)) (hsizes t ht)

/-! ### The accesses of a plan -/

section
variable {p : Planner} {i : Interface} {plan : Plan}

theorem covered_spreadOf (h : p.plan i = .ok plan) : (p.spreadOf i plan).Covered := by
  have hjoin := (plan_eq_assemble h).1
  have hlength : 2 ≤ (startOf i plan).extents.length := length_startOf h ▸ two_le_commonRank i
  rw [spreadOf_eq, finalSpread]
  split
  · exact covered_initial hjoin
  · exact covered_collapse p _ _ hlength (aligned_initial hjoin) (covered_initial hjoin)

theorem aligned_spreadOf (h : p.plan i = .ok plan) : (p.spreadOf i plan).Aligned := by
  rw [spreadOf_eq]
  exact (equivalent_finalSpread p _ (plan_eq_assemble h).1).1

theorem length_spreadOf (h : p.plan i = .ok plan) :
    (p.spreadOf i plan).terminals.length = i.terminals.length := by
  rw [spreadOf_eq]
  exact length_spread_terminals _ (plan_eq_assemble h).1

/-- A terminal as it is spread has as many elements as the terminal. -/
theorem sizes_spreadOf (h : p.plan i = .ok plan) :
    (p.spreadOf i plan).terminals.map Shape.size = i.terminals.map (·.extents.size) := by
  rw [spreadOf_eq, (equivalent_finalSpread p plan.domain.work (plan_eq_assemble h).1).2.sizes, initial, List.map_map]
  exact List.map_congr_left fun t _ => size_leftPadded t.extents _

theorem size_of_mem_zip (h : p.plan i = .ok plan) {entry : Terminal × Shape}
    (hentry : entry ∈ i.terminals.zip (p.spreadOf i plan).terminals) :
    entry.2.size = entry.1.extents.size := by
  obtain ⟨k, hk⟩ := List.mem_iff_getElem?.mp hentry
  obtain ⟨ht, hspread⟩ := List.getElem?_zip_eq_some.mp hk
  have hsizes := congrArg (·[k]?) (sizes_spreadOf h)
  simpa [ht, hspread] using hsizes

theorem stretchesTo_of_mem_zip (h : p.plan i = .ok plan) {entry : Terminal × Shape}
    (hentry : entry ∈ i.terminals.zip (p.spreadOf i plan).terminals) :
    StretchesTo entry.2 plan.domain.extents :=
  extents_spreadOf h ▸ aligned_spreadOf h entry.2 (List.of_mem_zip hentry).2

/-- No coordinate is larger than a signed word if the numbers of elements of all terminals are signed words. -/
theorem extents_lt_of_plan (h : p.plan i = .ok plan) (hpositive : plan.domain.extents.Positive)
    (hsizes : ∀ t ∈ i.terminals, t.extents.size < 2 ^ 63) : ∀ m ∈ plan.domain.extents, m < 2 ^ 63 := by
  rw [← extents_spreadOf h] at hpositive ⊢
  refine extents_lt_of_covered (aligned_spreadOf h) (covered_spreadOf h) hpositive fun spread hspread => ?_
  have hmem := List.mem_map_of_mem (f := Shape.size) hspread
  rw [sizes_spreadOf h] at hmem
  obtain ⟨t, ht, hsize⟩ := List.mem_map.mp hmem
  exact hsize ▸ hsizes t ht

theorem forall_zip_fst {α β : Type} {as : List α} {bs : List β} (h : bs.length = as.length) {P : α → Prop} :
    (∀ entry ∈ as.zip bs, P entry.1) ↔ ∀ a ∈ as, P a := by
  rw [← List.forall_mem_map, List.map_fst_zip (Nat.le_of_eq h.symm)]

theorem zip_zipWith_left {α β γ : Type} (f : α → β → γ) (as : List α) (bs : List β) :
    (List.zipWith f as bs).zip bs = (as.zip bs).map fun entry => (f entry.1 entry.2, entry.2) := by
  induction as generalizing bs with
  | nil => rfl
  | cons a as ih =>
      cases bs with
      | nil => rfl
      | cons b bs => exact congrArg ((f a b, b) :: ·) (ih bs)

theorem ranged_iff (h : p.plan i = .ok plan) : p.Ranged i plan ↔
    ∀ entry ∈ i.terminals.zip (p.spreadOf i plan).terminals,
      (access plan.domain.extents entry.1 entry.2).Ranged plan.domain entry.2 := by
  rw [Ranged, accesses_spreadOf h, zip_zipWith_left, List.forall_mem_map]

/-- The accesses of a plan with elements are in range if the last element of every terminal is. -/
theorem ranged_iff_of_work (h : p.plan i = .ok plan) (hwork : plan.domain.work ≠ 0) : p.Ranged i plan ↔
    ∀ t ∈ i.terminals, t.extents.size < 2 ^ 63 ∧
      (t.offset + t.extents.size - 1) * t.elementSize < 2 ^ 63 := by
  have hpositive := positive_extents_of_plan h hwork
  -- The terminals bound each other's coordinates, so that all sizes are needed before any access is looked at.
  have haccess (hsizes : ∀ t ∈ i.terminals, t.extents.size < 2 ^ 63) {entry : Terminal × Shape}
      (hentry : entry ∈ i.terminals.zip (p.spreadOf i plan).terminals) :
      (access plan.domain.extents entry.1 entry.2).Ranged plan.domain entry.2 ↔ entry.1.extents.size < 2 ^ 63 ∧
        (entry.1.offset + entry.1.extents.size - 1) * entry.1.elementSize < 2 ^ 63 := by
    rw [ranged_access_iff (stretchesTo_of_mem_zip h hentry) hpositive (two_le_rank_of_plan h)
      (extents_lt_of_plan h hpositive hsizes), size_of_mem_zip h hentry]
  rw [ranged_iff h]
  constructor
  · intro hranged
    have hsizes : ∀ t ∈ i.terminals, t.extents.size < 2 ^ 63 := by
      rw [← forall_zip_fst (length_spreadOf h)]
      intro entry hentry
      have hsize := (Strides.denseFrom?_eq_some_iff.mp (hranged entry hentry).dense).2
      rwa [(positive_of_stretchesTo (stretchesTo_of_mem_zip h hentry) hpositive).trailing_eq,
        size_of_mem_zip h hentry] at hsize
    rw [← forall_zip_fst (length_spreadOf h)]
    exact fun entry hentry => (haccess hsizes hentry).mp (hranged entry hentry)
  · intro hlast entry hentry
    exact (haccess (fun t ht => (hlast t ht).1) hentry).mpr (hlast _ (List.of_mem_zip hentry).1)

/-! ### Plans without elements -/

theorem innermost_one_cons (s : Shape) : innermost (1 :: s) = innermost s := by
  unfold innermost
  rw [List.reverse_cons]
  match s.reverse with
  | [] => rfl
  | [_] => rfl
  | _ :: _ :: _ => rfl

theorem size_trailing_one_cons (s : Shape) : (trailing (1 :: s)).size = s.trailing.size := by
  by_cases hs : 0 ∈ s
  · rw [trailing, if_pos (List.mem_cons_of_mem 1 hs)]
  · rw [trailing_of_not_mem hs, trailing_of_not_mem (by simpa using hs), size_cons, Nat.one_mul]

/-- Ones in front of a shape change neither its inner extents nor the product of those behind the last 0. -/
theorem trailing_innermost_leftPadded (s : Shape) (rank : Nat) :
    (s.leftPadded rank).trailing.size = s.trailing.size ∧ innermost (s.leftPadded rank) = innermost s := by
  unfold leftPadded
  induction rank - s.length with
  | zero => exact ⟨rfl, rfl⟩
  | succ m ih =>
      rw [List.replicate_succ, List.cons_append, size_trailing_one_cons, innermost_one_cons]
      exact ih

/-- The accesses of a plan without elements are in range if its strides are: no index is looked up. -/
theorem ranged_iff_of_no_work (h : p.plan i = .ok plan) (hwork : plan.domain.work = 0) : p.Ranged i plan ↔
    ∀ t ∈ i.terminals, (∀ n ∈ t.extents, n < 2 ^ 63) ∧ t.extents.trailing.size < 2 ^ 63 ∧
      (plan.domain.tileRank = 2 → 1 < (innermost t.extents).2 →
        (innermost t.extents).1 * t.elementSize < 2 ^ 63) := by
  have hlength := two_le_rank_of_plan h
  rw [ranged_iff h, ← forall_zip_fst (length_spreadOf h)]
  refine forall₂_congr fun entry hentry => ?_
  have hstretch := stretchesTo_of_mem_zip h hentry
  have hspread : entry.2 = entry.1.extents.leftPadded (commonRank i) := by
    obtain ⟨k, hk⟩ := List.mem_iff_getElem?.mp hentry
    obtain ⟨ht, hspread⟩ := List.getElem?_zip_eq_some.mp hk
    rw [spreadOf_eq, finalSpread, if_pos hwork, initial, List.getElem?_map, ht] at hspread
    exact (Option.some.inj hspread).symm
  have hsmall : (∀ n ∈ entry.2, n < 2 ^ 63) ↔ ∀ n ∈ entry.1.extents, n < 2 ^ 63 := by
    rw [hspread, leftPadded, List.forall_mem_append]
    exact and_iff_right fun n hn => List.eq_of_mem_replicate hn ▸ by decide
  obtain ⟨htrailing, hinnermost⟩ := trailing_innermost_leftPadded entry.1.extents (commonRank i)
  rw [← hspread] at htrailing hinnermost
  rw [← hsmall, ← htrailing, ← hinnermost]
  constructor
  · intro hranged
    obtain ⟨hextents, htrailing⟩ := Strides.denseFrom?_eq_some_iff.mp hranged.dense
    exact ⟨hextents, htrailing, (tileStrides?_access_iff hstretch hlength hextents).mp hranged.tileStrides⟩
  · rintro ⟨hextents, htrailing, htile⟩
    refine ⟨Strides.denseFrom?_eq_some_iff.mpr ⟨hextents, htrailing⟩,
      (tileStrides?_access_iff hstretch hlength hextents).mpr htile, fun index hindex => ?_⟩
    have hlt := ravel_lt hindex
    rw [(size_extents_of_plan h).1, hwork] at hlt
    cases hlt

/-! ### When a plan is in range -/

/-- **When addresses stay in signed words.**  Everything that is computed for the accesses of a plan with elements
is in range exactly if the number of elements of every terminal is a signed word and so is the byte at which the
last of them begins; buffers that a signed word can count the bytes of are therefore addressed exactly.  For a plan
without elements the strides alone must be in range: the extents of every terminal, the product of those behind its
last 0, and, if the tile has two dimensions and the terminal extends over the outer one, the bytes of its innermost
dimension. -/
theorem plan_ranges (p : Planner) (i : Interface) (plan : Plan) (h : p.plan i = .ok plan) :
    (plan.domain.work ≠ 0 → (p.Ranged i plan ↔ ∀ t ∈ i.terminals,
      t.extents.size < 2 ^ 63 ∧ (t.offset + t.extents.size - 1) * t.elementSize < 2 ^ 63)) ∧
    (plan.domain.work ≠ 0 → (∀ t ∈ i.terminals, t.extent < 2 ^ 63) → p.Ranged i plan) ∧
    (plan.domain.work = 0 → (p.Ranged i plan ↔ ∀ t ∈ i.terminals,
      (∀ n ∈ t.extents, n < 2 ^ 63) ∧ t.extents.trailing.size < 2 ^ 63 ∧
      (plan.domain.tileRank = 2 → 1 < (innermost t.extents).2 →
        (innermost t.extents).1 * t.elementSize < 2 ^ 63))) := by
  refine ⟨ranged_iff_of_work h, fun hwork hextents => ?_, ranged_iff_of_no_work h⟩
  refine (ranged_iff_of_work h hwork).mpr fun t ht => ?_
  have hextent : (t.offset + t.extents.size) * t.elementSize < 2 ^ 63 := hextents t ht
  have hcount : t.offset + t.extents.size ≤ (t.offset + t.extents.size) * t.elementSize :=
    Nat.le_mul_of_pos_right _ t.dtype.size_pos
  exact ⟨by omega, Nat.lt_of_le_of_lt (Nat.mul_le_mul_right _ (Nat.sub_le _ 1)) hextent⟩

/-- Two bytes, the last of which is the last one that a signed word addresses. -/
theorem plan_ranges_last :
    let p : Planner := ⟨256, 1⟩
    let i : Interface := ⟨[⟨[2], [0], .u8, 9223372036854775806⟩], []⟩
    let plan : Plan :=
      { domain := ⟨[2], [1, 1, 1, 1, 1, 2], 2, 2, 1⟩
        inputs := [⟨9223372036854775806, [0, 0, 0, 0, 0, 1], 1⟩]
        outputs := [] }
    p.plan i = .ok plan ∧ p.Ranged i plan := by
  intro p i plan
  have hplan : p.plan i = .ok plan := by decide +kernel
  refine ⟨hplan, ((plan_ranges p i plan hplan).1 (by decide)).mpr fun t ht => ?_⟩
  obtain rfl := List.mem_singleton.mp ht
  decide

/-- One byte further on, an accepted plan reads the offset of its terminal as a negative one. -/
theorem exists_plan_not_ranged : ¬ ∀ (p : Planner) (i : Interface) (plan : Plan),
    p.plan i = .ok plan → p.Ranged i plan := by
  intro h
  have hplan : Planner.plan ⟨256, 1⟩ ⟨[⟨[1], [0], .u8, 9223372036854775808⟩], []⟩ = .ok
      { domain := ⟨[1], [1, 1, 1, 1, 1, 1], 2, 1, 1⟩
        inputs := [⟨9223372036854775808, [0, 0, 0, 0, 0, 0], 1⟩]
        outputs := [] } := by
    decide +kernel
  have hranged := (ranged_iff hplan).mp (h _ _ _ hplan)
    (⟨[1], [0], .u8, 9223372036854775808⟩, [1, 1, 1, 1, 1, 1]) (by decide +kernel)
  have hoffset := hranged.byteOffset [0, 0, 0, 0, 0, 0] (by decide) 6
  have hrefused : (access [1, 1, 1, 1, 1, 1] ⟨[1], [0], .u8, 9223372036854775808⟩ [1, 1, 1, 1, 1, 1]).byteOffset?
      [0, 0, 0, 0, 0, 0] = none := by decide +kernel
  cases hrefused.symm.trans hoffset

end

end TensorGraph.Planner
