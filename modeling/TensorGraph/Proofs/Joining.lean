import TensorGraph.Execution.Fused
import TensorGraph.Proofs.Addressing
import TensorGraph.Proofs.Operators

/-! # Planning over the common shape

Broadcasting finds least upper bounds: both shapes stretch to their common shape
(`broadcastsTo_of_broadcast?`), and two shapes that stretch to a third one have a common shape that does
too (`exists_broadcast?`).  A planner that joins padded extents place by place finds the same shape
(`joinTerminal_of_broadcast?`).  Tensors with a common shape of no too high a rank and of a size that fits
a word therefore have a plan over this shape (`exists_plan`). -/

namespace TensorGraph

namespace Shape

/-! ### Innermost dimensions first -/

/-- Of two shapes given innermost first, the first stretches to as many dimensions of the second. -/
abbrev StretchesInner (t d : Shape) : Prop := t.StretchesTo (d.take t.length)

theorem stretchesInner_nil (d : Shape) : StretchesInner [] d := .nil

theorem stretchesInner_cons {n m : Nat} {t d : Shape} :
    StretchesInner (n :: t) (m :: d) ↔ (n = m ∨ n = 1) ∧ StretchesInner t d := List.forall₂_cons

theorem not_stretchesInner_nil {n : Nat} {t : Shape} : ¬ StretchesInner (n :: t) [] := nofun

theorem stretchesInner_trans {a b c : Shape} (hab : StretchesInner a b) (hbc : StretchesInner b c) :
    StretchesInner a c := by
  have hlen : a.length ≤ b.length := by
    have := hab.length_eq
    rw [List.length_take] at this
    omega
  have htake := List.forall₂_take a.length hbc
  rw [List.take_take, Nat.min_eq_left hlen] at htake
  exact stretchesTo_trans hab htake

theorem broadcastsTo_iff {t d : Shape} : t.BroadcastsTo d ↔ StretchesInner t.reverse d.reverse := by
  have hreverse : StretchesInner t.reverse d.reverse ↔ StretchesTo t (d.drop (d.length - t.length)) := by
    rw [StretchesInner, List.length_reverse, List.take_reverse, StretchesTo, List.forall₂_reverse_iff]
  rw [hreverse]
  constructor
  · exact BroadcastsTo.stretchesTo_drop
  · intro h
    have hlen : t.length ≤ d.length := by
      have := h.length_eq
      rw [List.length_drop] at this
      omega
    refine ⟨hlen, ?_⟩
    have hones : StretchesTo (List.replicate (d.length - t.length) 1) (d.take (d.length - t.length)) := by
      rw [StretchesTo, List.forall₂_iff_get]
      refine ⟨by rw [List.length_replicate, List.length_take]; omega, fun i _ _ => .inr ?_⟩
      rw [List.get_eq_getElem, List.getElem_replicate]
    have hall : StretchesTo (t.leftPadded d.length)
        (d.take (d.length - t.length) ++ d.drop (d.length - t.length)) := List.rel_append hones h
    rwa [List.take_append_drop] at hall

theorem broadcastsTo_trans {a b c : Shape} (hab : a.BroadcastsTo b) (hbc : b.BroadcastsTo c) :
    a.BroadcastsTo c :=
  broadcastsTo_iff.mpr (stretchesInner_trans (broadcastsTo_iff.mp hab) (broadcastsTo_iff.mp hbc))

theorem broadcastsTo_refl (s : Shape) : s.BroadcastsTo s :=
  broadcastsTo_iff.mpr (by rw [StretchesInner, List.take_length]; exact stretchesTo_refl _)

theorem stretchesInner_antisymm {a b : Shape} (hab : StretchesInner a b) (hba : StretchesInner b a) : a = b := by
  induction a generalizing b with
  | nil =>
      cases b with
      | nil => rfl
      | cons m b => exact absurd hba not_stretchesInner_nil
  | cons n a ih =>
      cases b with
      | nil => exact absurd hab not_stretchesInner_nil
      | cons m b =>
          obtain ⟨hn, hab⟩ := stretchesInner_cons.mp hab
          obtain ⟨hm, hba⟩ := stretchesInner_cons.mp hba
          rw [ih hab hba, show n = m by omega]

theorem broadcastsTo_antisymm {a b : Shape} (hab : a.BroadcastsTo b) (hba : b.BroadcastsTo a) : a = b :=
  List.reverse_inj.mp (stretchesInner_antisymm (broadcastsTo_iff.mp hab) (broadcastsTo_iff.mp hba))

/-! ### Least upper bounds -/

/-- Both shapes stretch to their join. -/
theorem stretchesInner_joinInner {a b d : Shape} (h : joinInner a b = some d) :
    StretchesInner a d ∧ StretchesInner b d := by
  induction a generalizing b d with
  | nil =>
      obtain rfl := Option.some.inj h
      exact ⟨stretchesInner_nil _, by rw [StretchesInner, List.take_length]; exact stretchesTo_refl _⟩
  | cons n a ih =>
      cases b with
      | nil =>
          obtain rfl := Option.some.inj h
          exact ⟨by rw [StretchesInner, List.take_length]; exact stretchesTo_refl _, stretchesInner_nil _⟩
      | cons m b =>
          rw [joinInner] at h
          split at h
          · rename_i hcompatible
            obtain ⟨d, hd, rfl⟩ := Option.map_eq_some_iff.mp h
            obtain ⟨ha, hb⟩ := ih hd
            have hc : n = m ∨ n = 1 ∨ m = 1 := by
              simpa [Extent.compatible, or_assoc] using hcompatible
            rw [stretchesInner_cons, stretchesInner_cons, Extent.join]
            refine ⟨⟨?_, ha⟩, ⟨?_, hb⟩⟩
            · split <;> omega
            · split <;> omega
          · cases h

/-- Shapes that stretch to one shape have a join that stretches to it. -/
theorem exists_joinInner {a b s : Shape} (ha : StretchesInner a s) (hb : StretchesInner b s) :
    ∃ d, joinInner a b = some d ∧ StretchesInner d s := by
  induction a generalizing b s with
  | nil => exact ⟨b, rfl, hb⟩
  | cons n a ih =>
      cases b with
      | nil => exact ⟨n :: a, rfl, ha⟩
      | cons m b =>
          cases s with
          | nil => exact absurd ha not_stretchesInner_nil
          | cons k s =>
              obtain ⟨hn, ha⟩ := stretchesInner_cons.mp ha
              obtain ⟨hm, hb⟩ := stretchesInner_cons.mp hb
              obtain ⟨d, hd, hs⟩ := ih ha hb
              have hcompatible : Extent.compatible n m = true := by
                simp only [Extent.compatible, Bool.or_eq_true, beq_iff_eq]
                omega
              refine ⟨Extent.join n m :: d, ?_, stretchesInner_cons.mpr ⟨?_, hs⟩⟩
              · rw [joinInner, if_pos hcompatible, hd]
                rfl
              · rw [Extent.join]
                split <;> omega

theorem length_joinInner {a b d : Shape} (h : joinInner a b = some d) :
    d.length = max a.length b.length := by
  induction a generalizing b d with
  | nil =>
      obtain rfl := Option.some.inj h
      simp
  | cons n a ih =>
      cases b with
      | nil =>
          obtain rfl := Option.some.inj h
          simp
      | cons m b =>
          rw [joinInner] at h
          split at h
          · obtain ⟨d, hd, rfl⟩ := Option.map_eq_some_iff.mp h
            simp only [List.length_cons, ih hd]
            omega
          · cases h

/-- Two shapes have a common shape only if both stretch to it. -/
theorem broadcastsTo_of_broadcast? {a b d : Shape} (h : broadcast? a b = some d) :
    a.BroadcastsTo d ∧ b.BroadcastsTo d := by
  obtain ⟨d, hd, rfl⟩ := Option.map_eq_some_iff.mp h
  rw [broadcastsTo_iff, broadcastsTo_iff, List.reverse_reverse]
  exact stretchesInner_joinInner hd

/-- Two shapes that stretch to a third one have a common shape that stretches to it. -/
theorem exists_broadcast? {a b s : Shape} (ha : a.BroadcastsTo s) (hb : b.BroadcastsTo s) :
    ∃ d, broadcast? a b = some d ∧ d.BroadcastsTo s := by
  obtain ⟨d, hd, hs⟩ := exists_joinInner (broadcastsTo_iff.mp ha) (broadcastsTo_iff.mp hb)
  refine ⟨d.reverse, congrArg (Option.map List.reverse) hd, ?_⟩
  rwa [broadcastsTo_iff, List.reverse_reverse]

theorem length_broadcast? {a b d : Shape} (h : broadcast? a b = some d) :
    d.length = max a.length b.length := by
  obtain ⟨d, hd, rfl⟩ := Option.map_eq_some_iff.mp h
  rw [List.length_reverse, length_joinInner hd, List.length_reverse, List.length_reverse]

/-- Shapes that are joined one after the other all stretch to what comes out. -/
theorem broadcastsTo_of_joined {shapes : List Shape} {c s : Shape}
    (h : shapes.foldlM broadcast? c = some s) : c.BroadcastsTo s ∧ ∀ t ∈ shapes, t.BroadcastsTo s := by
  induction shapes generalizing c with
  | nil =>
      obtain rfl := Option.some.inj h
      exact ⟨broadcastsTo_refl _, fun t ht => (List.not_mem_nil ht).elim⟩
  | cons t shapes ih =>
      rw [List.foldlM_cons] at h
      obtain ⟨d, hd, h⟩ := Option.bind_eq_some_iff.mp h
      obtain ⟨hc, ht⟩ := broadcastsTo_of_broadcast? hd
      obtain ⟨hds, hshapes⟩ := ih h
      refine ⟨broadcastsTo_trans hc hds, fun u hu => ?_⟩
      rcases List.mem_cons.mp hu with rfl | hu
      · exact broadcastsTo_trans ht hds
      · exact hshapes u hu

/-- Shapes that all stretch to one shape are joined to one that does too. -/
theorem exists_joined {shapes : List Shape} {c s : Shape} (hc : c.BroadcastsTo s)
    (h : ∀ t ∈ shapes, t.BroadcastsTo s) : ∃ d, shapes.foldlM broadcast? c = some d ∧ d.BroadcastsTo s := by
  induction shapes generalizing c with
  | nil => exact ⟨c, rfl, hc⟩
  | cons t shapes ih =>
      obtain ⟨ht, h⟩ := List.forall_mem_cons.mp h
      obtain ⟨d, hd, hds⟩ := exists_broadcast? hc ht
      rw [List.foldlM_cons, hd]
      exact ih hds h

theorem broadcastsTo_nil (s : Shape) : BroadcastsTo [] s := broadcastsTo_iff.mpr (stretchesInner_nil _)

/-- Shapes are joined to the least one to which all of them stretch. -/
theorem joined_eq_some_iff {shapes : List Shape} {s : Shape} :
    shapes.foldlM broadcast? [] = some s ↔
      (∀ t ∈ shapes, t.BroadcastsTo s) ∧ ∀ d, (∀ t ∈ shapes, t.BroadcastsTo d) → s.BroadcastsTo d := by
  constructor
  · intro h
    refine ⟨(broadcastsTo_of_joined h).2, fun d hd => ?_⟩
    obtain ⟨c, hc, hcd⟩ := exists_joined (broadcastsTo_nil d) hd
    obtain rfl := Option.some.inj (h.symm.trans hc)
    exact hcd
  · rintro ⟨hbound, hleast⟩
    obtain ⟨d, hd, hds⟩ := exists_joined (broadcastsTo_nil s) hbound
    rw [hd, broadcastsTo_antisymm hds (hleast d (broadcastsTo_of_joined hd).2)]

/-- Joining what groups of shapes are joined to is joining all of them. -/
theorem joined_flatten {groups : List (List Shape)} {shapes : List Shape} {s : Shape}
    (hgroups : List.Forall₂ (fun shape group => group.foldlM broadcast? [] = some shape) shapes groups)
    (h : shapes.foldlM broadcast? [] = some s) : groups.flatten.foldlM broadcast? [] = some s := by
  obtain ⟨hbound, hleast⟩ := joined_eq_some_iff.mp h
  refine joined_eq_some_iff.mpr ⟨fun t ht => ?_, fun d hd => hleast d fun shape hshape => ?_⟩
  · obtain ⟨group, hgroup, ht⟩ := List.mem_flatten.mp ht
    obtain ⟨i, hi, rfl⟩ := List.mem_iff_getElem.mp hgroup
    have hi' : i < shapes.length := hgroups.length_eq ▸ hi
    exact broadcastsTo_trans ((joined_eq_some_iff.mp (hgroups.get hi' hi)).1 t ht)
      (hbound _ (List.getElem_mem hi'))
  · obtain ⟨i, hi, rfl⟩ := List.mem_iff_getElem.mp hshape
    have hi' : i < groups.length := hgroups.length_eq ▸ hi
    exact (joined_eq_some_iff.mp (hgroups.get hi hi')).2 d fun t ht =>
      hd t (List.mem_flatten.mpr ⟨groups[i], List.getElem_mem hi', ht⟩)

/-- In which order shapes are joined, and how often each of them, does not matter. -/
theorem joined_congr {shapes shapes' : List Shape} {s : Shape} (h : shapes.foldlM broadcast? [] = some s)
    (hmem : ∀ t, t ∈ shapes' ↔ t ∈ shapes) : shapes'.foldlM broadcast? [] = some s := by
  obtain ⟨hbound, hleast⟩ := joined_eq_some_iff.mp h
  exact joined_eq_some_iff.mpr ⟨fun t ht => hbound t ((hmem t).mp ht),
    fun d hd => hleast d fun t ht => hd t ((hmem t).mpr ht)⟩

/-- The rank of the common shape is no higher than the highest one. -/
theorem length_le_of_joined {shapes : List Shape} {c s : Shape} {rank : Nat}
    (h : shapes.foldlM broadcast? c = some s) (hc : c.length ≤ rank)
    (hshapes : ∀ t ∈ shapes, t.length ≤ rank) : s.length ≤ rank := by
  induction shapes generalizing c with
  | nil =>
      obtain rfl := Option.some.inj h
      exact hc
  | cons t shapes ih =>
      obtain ⟨ht, hshapes⟩ := List.forall_mem_cons.mp hshapes
      rw [List.foldlM_cons] at h
      obtain ⟨d, hd, h⟩ := Option.bind_eq_some_iff.mp h
      refine ih h ?_ hshapes
      rw [length_broadcast? hd]
      exact Nat.max_le.mpr ⟨hc, ht⟩

theorem broadcast?_nil (s : Shape) : broadcast? [] s = some s := by
  simp [broadcast?, joinInner]

theorem broadcast?_self (s : Shape) : broadcast? s s = some s := by
  have hself : ∀ s : Shape, joinInner s s = some s := by
    intro s
    induction s with
    | nil => rfl
    | cons n s ih => simp [joinInner, Extent.compatible, ih, Extent.join]
  rw [broadcast?, hself, Option.map_some, List.reverse_reverse]

/-- Copies of the common shape change it no more. -/
theorem joined_of_all_eq {shapes : List Shape} {s : Shape} (h : ∀ t ∈ shapes, t = s) :
    shapes.foldlM broadcast? s = some s := by
  induction shapes with
  | nil => rfl
  | cons t shapes ih =>
      obtain ⟨rfl, h⟩ := List.forall_mem_cons.mp h
      rw [List.foldlM_cons, broadcast?_self]
      exact ih h

/-! ### Padded shapes -/

/-- A shape given innermost first with ones behind it up to a rank. -/
def rightPadded (s : Shape) (rank : Nat) : Shape := s ++ List.replicate (rank - s.length) 1

theorem reverse_leftPadded (s : Shape) (rank : Nat) :
    (s.leftPadded rank).reverse = rightPadded s.reverse rank := by
  rw [leftPadded, rightPadded, List.reverse_append, List.reverse_replicate, List.length_reverse]

theorem rightPadded_cons (n : Nat) (s : Shape) (rank : Nat) :
    rightPadded (n :: s) (rank + 1) = n :: rightPadded s rank := by
  simp [rightPadded]

theorem length_rightPadded {s : Shape} {rank : Nat} (h : s.length ≤ rank) :
    (rightPadded s rank).length = rank := by
  rw [rightPadded, List.length_append, List.length_replicate]
  omega

/-- The extents of two shapes of one rank are compatible place by place, and are joined to a third. -/
def JoinsTo (a b d : Shape) : Prop :=
  List.zipWith Extent.join a b = d ∧ (a.zip b).all (fun (n, m) => Extent.compatible n m) = true

theorem joinsTo_cons {n m : Nat} {a b d : Shape} (hcompatible : Extent.compatible n m = true)
    (h : JoinsTo a b d) : JoinsTo (n :: a) (m :: b) (Extent.join n m :: d) := by
  refine ⟨?_, ?_⟩
  · rw [List.zipWith_cons_cons, h.1]
  · rw [List.zip_cons_cons, List.all_cons, h.2]
    exact (Bool.and_true _).trans hcompatible

theorem joinsTo_ones_left (s : Shape) : JoinsTo (List.replicate s.length 1) s s := by
  induction s with
  | nil => exact ⟨rfl, rfl⟩
  | cons n s ih =>
      have hjoin : Extent.join 1 n = n := if_pos rfl
      rw [List.length_cons, List.replicate_succ]
      exact hjoin ▸ joinsTo_cons (by simp [Extent.compatible]) ih

theorem joinsTo_ones_right (s : Shape) : JoinsTo s (List.replicate s.length 1) s := by
  induction s with
  | nil => exact ⟨rfl, rfl⟩
  | cons n s ih =>
      have hjoin : Extent.join n 1 = n := by
        rw [Extent.join]
        split
        · exact Eq.symm ‹_›
        · rfl
      rw [List.length_cons, List.replicate_succ]
      have hcons := joinsTo_cons (show Extent.compatible n 1 = true by simp [Extent.compatible]) ih
      rwa [hjoin] at hcons

/-- Joining place by place what was padded is padding what was joined. -/
theorem joinsTo_rightPadded {a b d : Shape} {rank : Nat} (h : joinInner a b = some d)
    (hrank : d.length ≤ rank) : JoinsTo (rightPadded a rank) (rightPadded b rank) (rightPadded d rank) := by
  induction a generalizing b d rank with
  | nil =>
      obtain rfl := Option.some.inj h
      have hones : rightPadded [] rank = List.replicate (rightPadded b rank).length 1 := by
        rw [length_rightPadded hrank]
        rfl
      exact hones ▸ joinsTo_ones_left _
  | cons n a ih =>
      cases b with
      | nil =>
          obtain rfl := Option.some.inj h
          have hones : rightPadded [] rank = List.replicate (rightPadded (n :: a) rank).length 1 := by
            rw [length_rightPadded hrank]
            rfl
          exact hones ▸ joinsTo_ones_right _
      | cons m b =>
          rw [joinInner] at h
          split at h
          · rename_i hcompatible
            obtain ⟨d, hd, rfl⟩ := Option.map_eq_some_iff.mp h
            rw [List.length_cons] at hrank
            obtain ⟨rank, rfl⟩ : ∃ r, rank = r + 1 := ⟨rank - 1, by omega⟩
            rw [rightPadded_cons, rightPadded_cons, rightPadded_cons]
            exact joinsTo_cons hcompatible (ih hd (by omega))
          · cases h

theorem joinsTo_of_reverse {a b d : Shape} (hlen : a.length = b.length)
    (h : JoinsTo a.reverse b.reverse d.reverse) : JoinsTo a b d := by
  refine ⟨?_, ?_⟩
  · have hjoin := h.1
    rw [← List.reverse_zipWith hlen] at hjoin
    exact List.reverse_inj.mp hjoin
  · have hall := h.2
    unfold List.zip at hall
    rwa [← List.reverse_zipWith hlen, List.all_reverse] at hall

end Shape

namespace Planner

open Shape

/-- A planner joins a terminal as broadcasting does. -/
theorem joinTerminal_of_broadcast? {rank master : Nat} {c d : Shape} {t : Terminal}
    (h : broadcast? c t.extents = some d) (hrank : d.length ≤ rank) :
    joinTerminal rank master (c.leftPadded rank) t = .ok (d.leftPadded rank) := by
  have hlength := length_broadcast? h
  obtain ⟨d, hd, rfl⟩ := Option.map_eq_some_iff.mp h
  rw [List.length_reverse] at hrank hlength
  have hjoins : JoinsTo (c.leftPadded rank) (t.extents.leftPadded rank) (leftPadded d.reverse rank) := by
    refine joinsTo_of_reverse ?_ ?_
    · rw [length_leftPadded, length_leftPadded]
      omega
    · rw [reverse_leftPadded, reverse_leftPadded, reverse_leftPadded, List.reverse_reverse]
      exact joinsTo_rightPadded hd hrank
  unfold joinTerminal
  simp only
  rw [if_pos hjoins.2, hjoins.1]

/-- Joining terminals one after the other is joining their extents. -/
theorem joinTerminals_of_broadcast? {rank master : Nat} {ts : List Terminal} {c s : Shape}
    (h : (ts.map Terminal.extents).foldlM broadcast? c = some s) (hrank : s.length ≤ rank) :
    ts.foldlM (joinTerminal rank master) (c.leftPadded rank) = .ok (s.leftPadded rank) := by
  induction ts generalizing c with
  | nil =>
      obtain rfl := Option.some.inj h
      rfl
  | cons t ts ih =>
      rw [List.map_cons, List.foldlM_cons] at h
      obtain ⟨d, hd, h⟩ := Option.bind_eq_some_iff.mp h
      have hle := (broadcastsTo_of_joined h).1.1
      rw [List.foldlM_cons, joinTerminal_of_broadcast? hd (Nat.le_trans hle hrank)]
      exact ih h

/-- The highest rank of some terminals is that of their common shape. -/
theorem rank_of_joined {ts : List Terminal} {c s : Shape}
    (h : (ts.map Terminal.extents).foldlM broadcast? c = some s) :
    ts.foldl (fun r t => max r t.rank) c.length = s.length := by
  induction ts generalizing c with
  | nil =>
      obtain rfl := Option.some.inj h
      rfl
  | cons t ts ih =>
      rw [List.map_cons, List.foldlM_cons] at h
      obtain ⟨d, hd, h⟩ := Option.bind_eq_some_iff.mp h
      rw [List.foldl_cons, ← ih h, length_broadcast? hd]
      rfl

theorem checkOrder_eq_ok {t : Terminal} (h : t.order = List.range t.rank) : t.checkOrder = .ok () := by
  have hlength : t.order.length = t.rank := by rw [h, List.length_range]
  have hpermutation : Terminal.IsPermutation t.order t.rank :=
    ⟨hlength, fun axis haxis => List.mem_range.mp (h ▸ haxis), h ▸ List.nodup_range⟩
  unfold Terminal.checkOrder
  rw [if_neg (not_not.mpr hlength), if_pos hpermutation]

/-- A terminal in logical order agrees with those before it, if they are in logical order. -/
theorem exists_checkOrder {rank : Nat} {shared : Option (List Nat)} {entry : Terminal × Nat}
    (hentry : entry.1.order = List.range entry.1.rank)
    (hshared : ∀ order ∈ shared, order = List.range rank) :
    ∃ shared', checkOrder rank shared entry = .ok shared' ∧
      ∀ order ∈ shared', order = List.range rank := by
  obtain ⟨t, position⟩ := entry
  simp only at hentry
  unfold checkOrder
  simp only [checkOrder_eq_ok hentry, ok_bind]
  by_cases hrank : t.rank = rank
  · rw [if_neg (not_not.mpr hrank)]
    cases shared with
    | none =>
        refine ⟨some t.order, rfl, fun order horder => ?_⟩
        rw [← Option.some.inj horder, hentry, hrank]
    | some order =>
        refine ⟨some order, ?_, hshared⟩
        have hsame : order = t.order := by rw [hshared order rfl, hentry, hrank]
        simp only [if_pos hsame]
        rfl
  · rw [if_pos hrank, if_pos hentry]
    exact ⟨shared, rfl, hshared⟩

theorem exists_foldlM_checkOrder (rank : Nat) {entries : List (Terminal × Nat)}
    {shared : Option (List Nat)}
    (hentries : ∀ e ∈ entries, e.1.order = List.range e.1.rank)
    (hshared : ∀ order ∈ shared, order = List.range rank) :
    ∃ shared', entries.foldlM (checkOrder rank) shared = .ok shared' := by
  induction entries generalizing shared with
  | nil => exact ⟨shared, rfl⟩
  | cons e entries ih =>
      obtain ⟨he, hentries⟩ := List.forall_mem_cons.mp hentries
      obtain ⟨next, hnext, hshared'⟩ := exists_checkOrder he hshared
      rw [List.foldlM_cons, hnext]
      exact ih hentries hshared'

/-- Terminals in logical order agree in their orders. -/
theorem checkOrders_eq_ok {i : Interface} (h : ∀ t ∈ i.terminals, t.order = List.range t.rank) :
    checkOrders i = .ok () := by
  have hentries : ∀ e ∈ i.terminals.zipIdx, e.1.order = List.range e.1.rank :=
    fun e he => h e.1 (List.fst_mem_of_mem_zipIdx he)
  have hnone : ∀ order ∈ (none : Option (List Nat)), order = List.range i.rank := nofun
  obtain ⟨shared, hfold⟩ := exists_foldlM_checkOrder i.rank hentries hnone
  unfold checkOrders
  rw [hfold]
  rfl

/-- Ones in front of a shape do not change the product of its extents. -/
theorem product?_leftPadded (s : Shape) (rank : Nat) :
    Word.product? (s.leftPadded rank) = Word.product? s := by
  unfold leftPadded Word.product?
  induction rank - s.length with
  | zero => rfl
  | succ m ih =>
      rw [List.replicate_succ, List.cons_append, List.foldlM_cons]
      exact ih

/-- Terminals are joined to their common shape, padded to the rank of the domain. -/
theorem joinTerminals_of_joined {i : Interface} {s : Shape}
    (hjoined : (i.terminals.map Terminal.extents).foldlM broadcast? [] = some s) :
    i.rank = s.length ∧ joinTerminals (commonRank i) i = .ok (s.leftPadded (commonRank i)) := by
  have hi : i.rank = s.length := rank_of_joined hjoined
  refine ⟨hi, ?_⟩
  have hfold : i.terminals.foldlM (joinTerminal (commonRank i) i.rank) (leftPadded [] (commonRank i))
      = .ok (s.leftPadded (commonRank i)) :=
    joinTerminals_of_broadcast? hjoined (hi ▸ Nat.le_max_left _ _)
  rwa [leftPadded, List.length_nil, Nat.sub_zero, List.append_nil] at hfold

/-- Dense terminals whose extents have a common shape of no too high a rank, and of a size that fits a
word, have a plan over this shape. -/
theorem exists_plan (p : Planner) {i : Interface} {s : Shape} {n : Nat} (hports : i.terminals ≠ [])
    (horders : ∀ t ∈ i.terminals, t.order = List.range t.rank)
    (hjoined : (i.terminals.map Terminal.extents).foldlM broadcast? [] = some s)
    (hrank : s.length ≤ maxRank) (hsize : Word.product? s = some n) :
    ∃ plan, p.plan i = .ok plan ∧ plan.domain.master = s ∧ plan.domain.work = n := by
  obtain ⟨hi, hjoin⟩ := joinTerminals_of_joined hjoined
  refine ⟨_, plan_eq_ok_iff.mpr ⟨hports, hi ▸ hrank, checkOrders_eq_ok horders, _, n, hjoin, ?_, rfl⟩, ?_, rfl⟩
  · rw [product?_leftPadded, hsize]
  · show (s.leftPadded (commonRank i)).drop (commonRank i - i.rank) = s
    rw [leftPadded, hi, List.drop_left' List.length_replicate]

/-- Dense terminals with a common shape have no other plan: there must be one of them, and the rank and the
size of the common shape are bounded. -/
theorem exists_plan_iff (p : Planner) {i : Interface} {s : Shape}
    (horders : ∀ t ∈ i.terminals, t.order = List.range t.rank)
    (hjoined : (i.terminals.map Terminal.extents).foldlM broadcast? [] = some s) :
    (∃ plan, p.plan i = .ok plan) ↔
      i.terminals ≠ [] ∧ s.length ≤ maxRank ∧ (Word.product? s).isSome = true := by
  constructor
  · rintro ⟨plan, hplan⟩
    obtain ⟨hi, hjoin⟩ := joinTerminals_of_joined hjoined
    obtain ⟨hports, hrank, _, extents, work, hextents, hwork, _⟩ := plan_eq_ok_iff.mp hplan
    obtain rfl := Except.ok.inj (hjoin.symm.trans hextents)
    rw [product?_leftPadded] at hwork
    exact ⟨hports, hi ▸ hrank, Option.isSome_iff_exists.mpr ⟨work, hwork⟩⟩
  · rintro ⟨hports, hrank, hsize⟩
    obtain ⟨n, hn⟩ := Option.isSome_iff_exists.mp hsize
    obtain ⟨plan, hplan, _⟩ := exists_plan p hports horders hjoined hrank hn
    exact ⟨plan, hplan⟩

end Planner

/-! ### The common shape of tensors -/

namespace FusedOperator

open Shape

/-- Tensors have a common shape when each has a shape and these have a common one. -/
theorem commonShape_eq_ok {tensors : List Tensor} {s : Shape} :
    commonShape tensors = .ok s ↔ ∃ shapes : List Shape, tensors.map Tensor.shape = shapes.map some ∧
      shapes.foldlM broadcast? [] = some s := by
  unfold commonShape
  generalize ([] : Shape) = c
  induction tensors generalizing c with
  | nil =>
      constructor
      · intro h
        obtain rfl := Except.ok.inj h
        exact ⟨[], rfl, rfl⟩
      · rintro ⟨shapes, hshapes, h⟩
        obtain rfl := List.map_eq_nil_iff.mp hshapes.symm
        obtain rfl := Option.some.inj h
        rfl
  | cons t tensors ih =>
      rw [List.foldlM_cons, bind_eq_ok]
      constructor
      · rintro ⟨d, hd, h⟩
        obtain ⟨shape, hshape, hd⟩ := bind_eq_ok.mp hd
        obtain ⟨shapes, hshapes, h⟩ := (ih d).mp h
        refine ⟨shape :: shapes, ?_, ?_⟩
        · rw [List.map_cons, List.map_cons, hshapes, Tensor.resolvedShape_eq_ok.mp hshape]
        · rw [List.foldlM_cons, broadcast_eq_ok.mp hd]
          exact h
      · rintro ⟨shapes, hshapes, h⟩
        cases shapes with
        | nil => cases hshapes
        | cons shape shapes =>
            obtain ⟨hshape, hshapes⟩ := List.cons.inj hshapes
            rw [List.foldlM_cons] at h
            obtain ⟨d, hd, h⟩ := Option.bind_eq_some_iff.mp h
            exact ⟨d, bind_eq_ok.mpr ⟨shape, Tensor.resolvedShape_eq_ok.mpr hshape,
              broadcast_eq_ok.mpr hd⟩, (ih d).mpr ⟨shapes, hshapes, h⟩⟩

/-- Tensors with a common shape all have a shape, and these are joined one after the other. -/
theorem joined_of_commonShape {tensors : List Tensor} {s : Shape} (h : commonShape tensors = .ok s) :
    (∀ t ∈ tensors, t.shape = some t.extents) ∧ (tensors.map Tensor.extents).foldlM broadcast? [] = some s := by
  obtain ⟨shapes, hshapes, hjoined⟩ := commonShape_eq_ok.mp h
  have hextents : tensors.map Tensor.extents = shapes := by
    have hget := congrArg (List.map fun shape : Option Shape => shape.getD []) hshapes
    rw [List.map_map, List.map_map] at hget
    exact hget.trans (List.map_id shapes)
  refine ⟨fun t ht => ?_, hextents ▸ hjoined⟩
  have hmem : t.shape ∈ shapes.map some := hshapes ▸ List.mem_map_of_mem ht
  obtain ⟨shape, _, hshape⟩ := List.mem_map.mp hmem
  rw [Tensor.extents, ← hshape, Option.getD_some]

end FusedOperator

end TensorGraph
