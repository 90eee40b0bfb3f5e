import TensorGraph.Proofs.Outcomes
import TensorGraph.Proofs.Projection

/-! # What a plan consists of

`plan_eq_ok_iff` says when a planner succeeds and what it returns: the terminals are joined into one
shape of the common rank, its size fits a word, and the plan is assembled from the spread of the
terminals over that shape, collapsed if there is any work.

`Spread.Aligned` is the invariant of a spread: every terminal has the rank of the domain and
stretches to it.  The joined shape satisfies it at the start (`aligned_initial`).  Each merge keeps it,
and keeps the size of the domain and which element every terminal supplies (`Spread.Equivalent`);
hence so does collapsing (`equivalent_collapse`). -/

namespace TensorGraph

namespace Planner

open Shape

/-- The rank of the domain of an interface. -/
def commonRank (i : Interface) : Nat := max i.rank leastRank

/-- The terminals of an interface, spread over the joined extents. -/
def initial (i : Interface) (extents : Shape) : Spread :=
  ⟨extents, i.terminals.map fun t => t.extents.leftPadded (commonRank i)⟩

/-- The spread of an interface as it is planned: collapsed if there is any work. -/
def finalSpread (p : Planner) (i : Interface) (extents : Shape) (work : Nat) : Spread :=
  if work = 0 then initial i extents else p.collapse work (commonRank i - 1) (initial i extents)

/-- The plan for a spread. -/
def assemble (i : Interface) (extents : Shape) (work : Nat) (s : Spread) : Plan :=
  let accesses := List.zipWith (access s.extents) i.terminals s.terminals
  { domain :=
      { master := extents.drop (commonRank i - i.rank)
        extents := s.extents
        tileRank := tileRank i s
        work := work
        invocations :=
          if work = 0 then 0 else Shape.size (s.extents.take (commonRank i - tileRank i s)) }
    inputs := accesses.take i.inputs.length
    outputs := accesses.drop i.inputs.length }

/-- A planner succeeds exactly if there are terminals, none of them has too high a rank, their memory
orders agree, their extents have a common shape, and its size fits a word. -/
theorem plan_eq_ok_iff {p : Planner} {i : Interface} {plan : Plan} :
    p.plan i = .ok plan ↔ i.terminals ≠ [] ∧ i.rank ≤ maxRank ∧ checkOrders i = .ok () ∧
      ∃ extents work, joinTerminals (commonRank i) i = .ok extents ∧
        Word.product? extents = some work ∧
        plan = assemble i extents work (p.finalSpread i extents work) := by
  unfold Planner.plan
  by_cases hports : i.terminals = []
  · simp [hports, bind_eq_ok]
  by_cases hrank : maxRank < i.rank
  · simp [hports, hrank, Nat.not_le_of_lt hrank, bind_eq_ok]
  have hle : i.rank ≤ maxRank := Nat.le_of_not_lt hrank
  simp only [hports, hrank, hle, List.isEmpty_iff, if_false, bind_eq_ok, ne_eq, not_false_eq_true,
    true_and]
  constructor
  · rintro ⟨_, horders, extents, hjoin, h⟩
    split at h
    · rename_i work hwork
      exact ⟨horders, extents, work, hjoin, hwork, (pure_eq_ok.mp h).symm⟩
    · simp at h
  · rintro ⟨horders, extents, work, hjoin, hwork, rfl⟩
    refine ⟨(), horders, extents, hjoin, ?_⟩
    simp only [hwork]
    rfl

/-! ### Joining the terminals -/

theorem product?_eq_some {ns : List Nat} {n : Nat} (h : Word.product? ns = some n) :
    n = Shape.size ns ∧ n < Word.size := by
  suffices ∀ (acc : Nat), acc < Word.size → ns.foldlM Word.mul? acc = some n →
      n = acc * Shape.size ns ∧ n < Word.size by simpa using this 1 (by decide) h
  clear h
  induction ns with
  | nil =>
      intro acc hacc h
      obtain rfl := Option.some.inj h
      exact ⟨by simp, hacc⟩
  | cons m ns ih =>
      intro acc hacc h
      rw [List.foldlM_cons] at h
      obtain ⟨next, hnext, h⟩ := Option.bind_eq_some_iff.mp h
      obtain ⟨hlt, rfl⟩ := Word.mul?_eq_some.mp hnext
      obtain ⟨rfl, hn⟩ := ih _ hlt h
      exact ⟨by rw [size_cons, Nat.mul_assoc], hn⟩

theorem rank_le_commonRank {i : Interface} {t : Terminal} (h : t ∈ i.terminals) :
    t.rank ≤ i.rank := by
  suffices ∀ (ts : List Terminal) (r : Nat), r ≤ ts.foldl (fun r t => max r t.rank) r ∧
      ∀ t ∈ ts, t.rank ≤ ts.foldl (fun r t => max r t.rank) r from (this i.terminals 0).2 t h
  intro ts
  induction ts with
  | nil => intro r; simp
  | cons u ts ih =>
      intro r
      obtain ⟨hacc, hmem⟩ := ih (max r u.rank)
      rw [List.foldl_cons]
      refine ⟨Nat.le_trans (Nat.le_max_left _ _) hacc, fun t ht => ?_⟩
      rcases List.mem_cons.mp ht with rfl | ht
      · exact Nat.le_trans (Nat.le_max_right _ _) hacc
      · exact hmem t ht

/-- Extents that are compatible place by place both stretch to their join. -/
theorem stretchesTo_join {a b : Shape} (hlen : a.length = b.length)
    (h : (a.zip b).all fun (d, p) => Extent.compatible d p) :
    StretchesTo a (List.zipWith Extent.join a b) ∧
      StretchesTo b (List.zipWith Extent.join a b) := by
  induction a generalizing b with
  | nil =>
      obtain rfl := List.length_eq_zero_iff.mp hlen.symm
      exact ⟨.nil, .nil⟩
  | cons n a ih =>
      cases b with
      | nil => simp at hlen
      | cons m b =>
          simp only [List.zip_cons_cons, List.all_cons, Bool.and_eq_true] at h
          obtain ⟨ha, hb⟩ := ih (by simpa using hlen) h.2
          have hc : n = m ∨ n = 1 ∨ m = 1 := by simpa [Extent.compatible, or_assoc] using h.1
          refine ⟨.cons ?_ ha, .cons ?_ hb⟩ <;> unfold Extent.join <;> split <;> omega

theorem joinTerminal_eq_ok {rank master : Nat} {extents joined : Shape} {t : Terminal}
    (ht : t.rank ≤ rank) (hlen : extents.length = rank)
    (h : joinTerminal rank master extents t = .ok joined) :
    StretchesTo extents joined ∧ StretchesTo (t.extents.leftPadded rank) joined := by
  have hpad : extents.length = (t.extents.leftPadded rank).length := by
    rw [length_leftPadded, hlen]
    exact (Nat.max_eq_left ht).symm
  simp only [joinTerminal] at h
  split at h
  · rename_i hall
    obtain rfl := Except.ok.inj h
    exact stretchesTo_join hpad hall
  · cases h

/-- Every terminal, padded to the common rank, stretches to the joined shape. -/
theorem joinTerminals_eq_ok {i : Interface} {extents : Shape}
    (h : joinTerminals (commonRank i) i = .ok extents) :
    extents.length = commonRank i ∧
      ∀ t ∈ i.terminals, StretchesTo (t.extents.leftPadded (commonRank i)) extents := by
  suffices ∀ (ts : List Terminal) (start : Shape), (∀ t ∈ ts, t.rank ≤ commonRank i) →
      start.length = commonRank i →
      ts.foldlM (joinTerminal (commonRank i) i.rank) start = .ok extents →
      StretchesTo start extents ∧
        ∀ t ∈ ts, StretchesTo (t.extents.leftPadded (commonRank i)) extents by
    obtain ⟨hstart, hall⟩ := this i.terminals _
      (fun t ht => Nat.le_trans (rank_le_commonRank ht) (Nat.le_max_left _ _))
      (List.length_replicate ..) h
    exact ⟨by rw [← hstart.length_eq, List.length_replicate], hall⟩
  clear h
  intro ts
  induction ts with
  | nil =>
      intro start _ _ h
      obtain rfl := Except.ok.inj h
      exact ⟨stretchesTo_refl _, fun _ h => nomatch h⟩
  | cons t ts ih =>
      intro start hranks hlen h
      rw [List.foldlM_cons] at h
      obtain ⟨next, hnext, h⟩ := bind_eq_ok.mp h
      obtain ⟨hstart, ht⟩ := joinTerminal_eq_ok (hranks t List.mem_cons_self) hlen hnext
      obtain ⟨hrest, hall⟩ := ih next (fun u hu => hranks u (List.mem_cons_of_mem _ hu))
        (by rw [← hstart.length_eq, hlen]) h
      refine ⟨stretchesTo_trans hstart hrest, fun u hu => ?_⟩
      rcases List.mem_cons.mp hu with rfl | hu
      · exact stretchesTo_trans ht hrest
      · exact hall u hu

/-! ### Collapsing -/

/-- Every terminal of a spread stretches to its domain. -/
def Spread.Aligned (s : Spread) : Prop := ∀ t ∈ s.terminals, StretchesTo t s.extents

/-- Two spreads of the same terminals have the same elements: the same number of them, in the domain
and in each terminal, and each terminal supplies the same element for every one. -/
structure Spread.Equivalent (s s' : Spread) : Prop where
  rank : s'.extents.length = s.extents.length
  size : s'.extents.size = s.extents.size
  sizes : s'.terminals.map Shape.size = s.terminals.map Shape.size
  elements : s'.terminals.map (elementFor s'.extents) = s.terminals.map (elementFor s.extents)

theorem Spread.Equivalent.refl (s : Spread) : s.Equivalent s := ⟨rfl, rfl, rfl, rfl⟩

theorem Spread.Equivalent.trans {s s' s'' : Spread} (h : s.Equivalent s')
    (h' : s'.Equivalent s'') : s.Equivalent s'' :=
  ⟨h'.rank.trans h.rank, h'.size.trans h.size, h'.sizes.trans h.sizes, h'.elements.trans h.elements⟩

/-- What a spread must satisfy for its inner dimensions to be merged. -/
theorem mergeable_of_shouldMerge {p : Planner} {work : Nat} {s : Spread}
    (h : p.shouldMerge work s = true) :
    ∀ t ∈ s.terminals, innermost t = innermost s.extents ∨ innermost t = (1, 1) := by
  simp only [shouldMerge, Bool.and_eq_true] at h
  obtain ⟨_, h⟩ := h
  split at h
  · cases h
  · simp only [Bool.and_eq_true, List.all_eq_true] at h
    intro t ht
    simpa [mergeable] using h.2 t ht

theorem aligned_merge {s : Spread} (h : s.Aligned)
    (hm : ∀ t ∈ s.terminals, innermost t = innermost s.extents ∨ innermost t = (1, 1)) :
    s.merge.Aligned := by
  intro t' ht'
  obtain ⟨t, ht, rfl⟩ := List.mem_map.mp ht'
  exact stretchesTo_mergeInnermost (h t ht) (hm t ht)

theorem equivalent_merge {s : Spread} (h : s.Aligned)
    (hm : ∀ t ∈ s.terminals, innermost t = innermost s.extents ∨ innermost t = (1, 1)) :
    s.Equivalent s.merge where
  rank := length_mergeInnermost _
  size := size_mergeInnermost _
  sizes := by
    rw [Spread.merge, List.map_map]
    exact List.map_congr_left fun t _ => size_mergeInnermost t
  elements := by
    rw [Spread.merge, List.map_map]
    refine List.map_congr_left fun t ht => funext fun k => ?_
    exact elementFor_mergeInnermost (h t ht).length_eq (hm t ht) k

/-- What holds of a spread and is kept by every merge that should be done holds after collapsing. -/
theorem collapse_induction (p : Planner) (work : Nat) {P : Spread → Prop}
    (hmerge : ∀ s, p.shouldMerge work s = true → P s → P s.merge) (steps : Nat) {s : Spread} (h : P s) :
    P (p.collapse work steps s) := by
  induction steps generalizing s with
  | zero => exact h
  | succ steps ih =>
      rw [collapse]
      split
      · rename_i hshould
        exact ih (hmerge s hshould h)
      · exact h

/-- Collapsing keeps the elements of a spread. -/
theorem equivalent_collapse (p : Planner) (work steps : Nat) {s : Spread} (h : s.Aligned) :
    (p.collapse work steps s).Aligned ∧ s.Equivalent (p.collapse work steps s) := by
  refine collapse_induction p work (P := fun s' => s'.Aligned ∧ s.Equivalent s') ?_ steps ⟨h, .refl s⟩
  rintro s' hshould ⟨haligned, hequiv⟩
  have hm := mergeable_of_shouldMerge hshould
  exact ⟨aligned_merge haligned hm, hequiv.trans (equivalent_merge haligned hm)⟩

theorem aligned_initial {i : Interface} {extents : Shape}
    (h : joinTerminals (commonRank i) i = .ok extents) : (initial i extents).Aligned := by
  intro t' ht'
  obtain ⟨t, ht, rfl⟩ := List.mem_map.mp ht'
  exact (joinTerminals_eq_ok h).2 t ht

/-- The spread that is planned has the elements of the initial one. -/
theorem equivalent_finalSpread (p : Planner) {i : Interface} {extents : Shape} (work : Nat)
    (h : joinTerminals (commonRank i) i = .ok extents) :
    (p.finalSpread i extents work).Aligned ∧
      (initial i extents).Equivalent (p.finalSpread i extents work) := by
  unfold finalSpread
  split
  · exact ⟨aligned_initial h, .refl _⟩
  · exact equivalent_collapse p work _ (aligned_initial h)

end Planner

end TensorGraph
