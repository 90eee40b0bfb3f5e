import Mathlib.Data.List.TakeWhile
import TensorGraph.Proofs.Joining

/-! # Planning and broadcasting

A planner pads the extents of all terminals with ones to a common rank and joins them place by place, and
broadcasting aligns two shapes at their last dimensions.  Both refuse the same terminals and find the same
shape (`joinTerminal_of_broadcast?`): what is joined is, at every step, the padded shape that broadcasting
has reached.  Terminals whose memory orders agree (`Interface.Ordered`) are therefore refused for their
extents exactly when these have no common shape, and a plan is over the common shape (`plan_broadcasts`);
since that is a least upper bound, the order of the terminals does not matter.

Of terminals with a common shape only the size decides.  It is multiplied up from the outermost extent, and
every partial product must fit a word: the extents from the first 0 on do not count, but those in front of
it do (`plan_accepts_iff`). -/

namespace TensorGraph

/-! ### Memory orders -/

/-- The order of a terminal is a permutation, and is `order` for a terminal of the given rank and the
logical order for every other one. -/
def Terminal.Follows (t : Terminal) (rank : Nat) (order : List Nat) : Prop :=
  Terminal.IsPermutation t.order t.rank ∧ t.order = if t.rank = rank then order else List.range t.rank

instance (t : Terminal) (rank : Nat) (order : List Nat) : Decidable (t.Follows rank order) :=
  inferInstanceAs (Decidable (_ ∧ _))

/-- The memory orders of all terminals are permutations and agree: terminals of the highest rank share one
order, and the others are in logical order. -/
def Interface.Ordered (i : Interface) : Prop := ∃ order, ∀ t ∈ i.terminals, t.Follows i.rank order

/-- The common shape of all terminals: their extents are broadcast one after the other, from the left. -/
def Interface.commonShape (i : Interface) : Except Error Shape :=
  (i.terminals.map Terminal.extents).foldlM Shape.broadcast []

/-- The extents in front of the first 0: all of them if there is none. -/
def Shape.leading (s : Shape) : Shape := s.takeWhile (· ≠ 0)

namespace Planner

open Shape

theorem terminal_checkOrder_eq_ok {t : Terminal} :
    t.checkOrder = .ok () ↔ Terminal.IsPermutation t.order t.rank := by
  unfold Terminal.checkOrder
  by_cases hpermutation : Terminal.IsPermutation t.order t.rank
  · rw [if_neg (not_not.mpr hpermutation.1), if_pos hpermutation]
    exact ⟨fun _ => hpermutation, fun _ => rfl⟩
  · rw [if_neg hpermutation]
    split
    · exact ⟨nofun, fun h => absurd h hpermutation⟩
    · exact ⟨nofun, fun h => absurd h hpermutation⟩

/-- Which order a terminal follows does not matter below the highest rank. -/
theorem follows_of_rank_ne {t : Terminal} {rank : Nat} {order order' : List Nat} (hrank : t.rank ≠ rank)
    (h : t.Follows rank order) : t.Follows rank order' := by
  refine ⟨h.1, ?_⟩
  rw [if_neg hrank]
  exact h.2.trans (if_neg hrank)

/-- A terminal passes if it follows the order that is passed along, or its own if there is none yet; one
of the highest rank passes this order on. -/
theorem checkOrder_eq_ok_iff {rank : Nat} {shared next : Option (List Nat)} {entry : Terminal × Nat} :
    checkOrder rank shared entry = .ok next ↔ entry.1.Follows rank (shared.getD entry.1.order) ∧
      next = if entry.1.rank = rank then some (shared.getD entry.1.order) else shared := by
  obtain ⟨t, position⟩ := entry
  unfold checkOrder Terminal.Follows
  by_cases hpermutation : Terminal.IsPermutation t.order t.rank
  · simp only [terminal_checkOrder_eq_ok.mpr hpermutation, ok_bind, hpermutation, true_and]
    by_cases hrank : t.rank = rank
    · cases shared with
      | none => simpa [hrank] using eq_comm
      | some order =>
          by_cases horder : order = t.order
          · simpa [hrank, horder] using eq_comm
          · simp [hrank, horder, Ne.symm horder]
    · by_cases horder : t.order = List.range t.rank
      · simpa [hrank, horder] using eq_comm
      · simp [hrank, horder]
  · cases hcheck : t.checkOrder with
    | ok _ => exact absurd (terminal_checkOrder_eq_ok.mp hcheck) hpermutation
    | error _ =>
        simp only [hcheck]
        exact ⟨nofun, fun h => absurd h.1.1 hpermutation⟩

/-- Terminals pass if they all follow one order, which is the one passed along if there is one. -/
theorem exists_foldlM_checkOrder_iff {rank : Nat} {entries : List (Terminal × Nat)}
    {shared : Option (List Nat)} :
    (∃ next, entries.foldlM (checkOrder rank) shared = .ok next) ↔
      ∃ order, (∀ o ∈ shared, o = order) ∧ ∀ e ∈ entries, e.1.Follows rank order := by
  induction entries generalizing shared with
  | nil =>
      refine ⟨fun _ => ⟨shared.getD [], fun o ho => ?_, nofun⟩, fun _ => ⟨shared, rfl⟩⟩
      rw [ho, Option.getD_some]
  | cons e entries ih =>
      have hfold : ∀ next, (e :: entries).foldlM (checkOrder rank) shared = .ok next ↔
          ∃ passed, checkOrder rank shared e = .ok passed ∧
            entries.foldlM (checkOrder rank) passed = .ok next := fun next => by
        rw [List.foldlM_cons, bind_eq_ok]
      simp only [hfold, checkOrder_eq_ok_iff, List.forall_mem_cons]
      constructor
      · rintro ⟨next, _, ⟨hfollows, rfl⟩, h⟩
        obtain ⟨order, hshared, hentries⟩ := ih.mp ⟨next, h⟩
        by_cases hrank : e.1.rank = rank
        · rw [if_pos hrank] at hshared
          obtain rfl := hshared _ rfl
          refine ⟨_, fun o ho => ?_, hfollows, hentries⟩
          rw [ho, Option.getD_some]
        · rw [if_neg hrank] at hshared
          exact ⟨order, hshared, follows_of_rank_ne hrank hfollows, hentries⟩
      · rintro ⟨order, hshared, hfollows, hentries⟩
        by_cases hrank : e.1.rank = rank
        · have horder : shared.getD e.1.order = order := by
            cases hcase : shared with
            | none => exact hfollows.2.trans (if_pos hrank)
            | some o => exact hshared o hcase
          rw [horder, if_pos hrank]
          have hpassed : ∀ o ∈ some order, o = order := fun o ho => (Option.some.inj ho).symm
          obtain ⟨next, hnext⟩ := ih.mpr ⟨order, hpassed, hentries⟩
          exact ⟨next, _, ⟨hfollows, rfl⟩, hnext⟩
        · rw [if_neg hrank]
          obtain ⟨next, hnext⟩ := ih.mpr ⟨order, hshared, hentries⟩
          exact ⟨next, _, ⟨follows_of_rank_ne hrank hfollows, rfl⟩, hnext⟩

/-- The orders of an interface pass exactly if they agree. -/
theorem checkOrders_eq_ok_iff {i : Interface} : checkOrders i = .ok () ↔ i.Ordered := by
  have hdiscard : checkOrders i = .ok () ↔
      ∃ next, i.terminals.zipIdx.foldlM (checkOrder i.rank) none = .ok next := by
    unfold checkOrders
    cases i.terminals.zipIdx.foldlM (checkOrder i.rank) none with
    | error _ => exact ⟨nofun, nofun⟩
    | ok next => exact ⟨fun _ => ⟨next, rfl⟩, fun _ => rfl⟩
  rw [hdiscard, exists_foldlM_checkOrder_iff]
  refine exists_congr fun order => ⟨fun h t ht => ?_, fun h => ⟨nofun, fun e he => ?_⟩⟩
  · obtain ⟨k, hk, rfl⟩ := List.mem_iff_getElem.mp ht
    exact h.2 (i.terminals[k], k) (List.mk_mem_zipIdx_iff_getElem?.mpr (List.getElem?_eq_getElem hk))
  · exact h e.1 (List.fst_mem_of_mem_zipIdx he)

/-! ### Joining and broadcasting -/

theorem drop_leftPadded {s : Shape} {master rank : Nat} (hs : s.length ≤ master) (hmaster : master ≤ rank) :
    (s.leftPadded rank).drop (rank - master) = s.leftPadded master := by
  have hlen : rank - master ≤ (List.replicate (rank - s.length) 1).length := by
    rw [List.length_replicate]
    omega
  rw [leftPadded, List.drop_append_of_le_length hlen, List.drop_replicate, leftPadded]
  congr 2
  omega

/-- Where broadcasting refuses a shape, joining refuses the terminal. -/
theorem joinTerminal_of_broadcast?_eq_none {rank master : Nat} {c : Shape} {t : Terminal}
    (h : broadcast? c t.extents = none) (hc : c.length ≤ rank) (ht : t.rank ≤ rank) :
    joinTerminal rank master (c.leftPadded rank) t
      = .error (.broadcast ((c.leftPadded rank).drop (rank - master)) t.extents) := by
  unfold joinTerminal
  refine if_neg fun hall => ?_
  have hpad : ∀ s : Shape, s.length ≤ rank → (s.leftPadded rank).length = rank := fun s hs => by
    rw [length_leftPadded, Nat.max_eq_left hs]
  -- Both shapes would stretch to what is joined place by place, and so have a common shape.
  obtain ⟨joined, hlen, hleft, hright⟩ : ∃ joined : Shape, joined.length = rank ∧
      StretchesTo (c.leftPadded rank) joined ∧ StretchesTo (t.extents.leftPadded rank) joined := by
    obtain ⟨hleft, hright⟩ := stretchesTo_join ((hpad _ hc).trans (hpad _ ht).symm) hall
    exact ⟨_, hleft.length_eq.symm.trans (hpad _ hc), hleft, hright⟩
  subst hlen
  obtain ⟨d, hd, _⟩ := exists_broadcast? ⟨hc, hleft⟩ ⟨ht, hright⟩
  rw [h] at hd
  cases hd

theorem foldlM_broadcast_eq_ok {shapes : List Shape} {c s : Shape} :
    shapes.foldlM broadcast c = .ok s ↔ shapes.foldlM broadcast? c = some s := by
  induction shapes generalizing c with
  | nil => exact ⟨fun h => congrArg some (Except.ok.inj h), fun h => congrArg Except.ok (Option.some.inj h)⟩
  | cons t shapes ih =>
      rw [List.foldlM_cons, List.foldlM_cons, bind_eq_ok]
      exact (exists_congr fun d => and_congr broadcast_eq_ok ih).trans Option.bind_eq_some_iff.symm

/-- The terminal at which broadcasting stops is refused by the planner, which shows what was reached before
it padded to the highest rank. -/
theorem joinTerminals_of_error {rank master : Nat} {ts : List Terminal} {c : Shape} {error : Error}
    (h : (ts.map Terminal.extents).foldlM broadcast c = .error error) (hc : c.length ≤ master)
    (hts : ∀ t ∈ ts, t.rank ≤ master) (hmaster : master ≤ rank) :
    ∃ d t : Shape, error = .broadcast d t ∧
      ts.foldlM (joinTerminal rank master) (c.leftPadded rank)
        = .error (.broadcast (d.leftPadded master) t) := by
  induction ts generalizing c with
  | nil => cases h
  | cons t ts ih =>
      obtain ⟨ht, hts⟩ := List.forall_mem_cons.mp hts
      rw [List.map_cons, List.foldlM_cons] at h
      rw [List.foldlM_cons]
      cases hstep : broadcast? c t.extents with
      | none =>
          rw [broadcast, hstep] at h
          rw [joinTerminal_of_broadcast?_eq_none hstep (Nat.le_trans hc hmaster) (Nat.le_trans ht hmaster),
            drop_leftPadded hc hmaster]
          exact ⟨c, t.extents, (Except.error.inj h).symm, rfl⟩
      | some d =>
          have hd : d.length ≤ master := by
            rw [length_broadcast? hstep]
            exact Nat.max_le.mpr ⟨hc, ht⟩
          rw [broadcast_eq_ok.mpr hstep, ok_bind] at h
          rw [joinTerminal_of_broadcast? hstep (Nat.le_trans hd hmaster), ok_bind]
          exact ih h hd hts

/-! ### Plans over the common shape -/

section
variable {p : Planner} {i j : Interface}

/-- What a planner does once it has let the terminals through. -/
theorem plan_of_ordered (hports : i.terminals ≠ []) (hrank : i.rank ≤ maxRank) (horders : i.Ordered) :
    p.plan i = joinTerminals (commonRank i) i >>= fun extents =>
      match Word.product? extents with
      | some work => .ok (assemble i extents work (p.finalSpread i extents work))
      | none => .error (.invalidArgument "blocked_dims"
          ("domain " ++ Text.numbers (extents.drop (commonRank i - i.rank)) ++ " overflows usize")) := by
  unfold Planner.plan
  rw [if_neg (mt List.isEmpty_iff.mp hports), if_neg (Nat.not_lt.mpr hrank), checkOrders_eq_ok_iff.mpr horders]
  show joinTerminals (commonRank i) i >>= _ = _
  refine congrArg _ (funext fun extents => ?_)
  cases Word.product? extents with
  | none => rfl
  | some _ => rfl

/-- Terminals without a common shape have no plan. -/
theorem plan_of_commonShape_eq_error {error : Error} (hports : i.terminals ≠ []) (hrank : i.rank ≤ maxRank)
    (horders : i.Ordered) (h : i.commonShape = .error error) :
    ∃ c t : Shape, error = .broadcast c t ∧ p.plan i = .error (.broadcast (c.leftPadded i.rank) t) := by
  have hle : i.rank ≤ commonRank i := Nat.le_max_left _ _
  obtain ⟨c, t, rfl, hjoin⟩ := joinTerminals_of_error h (Nat.zero_le i.rank)
    (fun t ht => rank_le_commonRank ht) hle
  refine ⟨c, t, rfl, ?_⟩
  have hjoin : joinTerminals (commonRank i) i = .error (.broadcast (c.leftPadded i.rank) t) := by
    rwa [leftPadded, List.length_nil, Nat.sub_zero, List.append_nil] at hjoin
  rw [plan_of_ordered hports hrank horders, hjoin]
  rfl

/-- A shape of the highest rank is found again behind the padding. -/
theorem drop_commonRank {s : Shape} (h : i.rank = s.length) :
    (s.leftPadded (commonRank i)).drop (commonRank i - i.rank) = s := by
  have hle : i.rank ≤ commonRank i := Nat.le_max_left _ _
  rw [drop_leftPadded (Nat.le_of_eq h.symm) hle, leftPadded, h, Nat.sub_self]
  rfl

/-- Terminals with a common shape have a plan exactly if its size can be multiplied up. -/
theorem plan_of_commonShape {s : Shape} (hports : i.terminals ≠ []) (hrank : i.rank ≤ maxRank)
    (horders : i.Ordered) (h : i.commonShape = .ok s) :
    p.plan i = match Word.product? s with
      | some work => .ok (assemble i (s.leftPadded (commonRank i)) work
          (p.finalSpread i (s.leftPadded (commonRank i)) work))
      | none => .error (.invalidArgument "blocked_dims" ("domain " ++ Text.numbers s ++ " overflows usize")) := by
  obtain ⟨hlength, hjoin⟩ := joinTerminals_of_joined (foldlM_broadcast_eq_ok.mp h)
  rw [plan_of_ordered hports hrank horders, hjoin, ok_bind, drop_commonRank hlength, product?_leftPadded]

/-- A plan is over the common shape, at the common rank. -/
theorem master_of_plan {plan : Plan} (horders : i.Ordered) (h : p.plan i = .ok plan) :
    i.commonShape = .ok plan.domain.master ∧ plan.domain.rank = commonRank i := by
  obtain ⟨hports, hrank, _, extents, work, hjoin, _, hplan⟩ := plan_eq_ok_iff.mp h
  refine ⟨?_, ?_⟩
  · cases hshape : i.commonShape with
    | error error =>
        obtain ⟨_, _, _, herror⟩ := plan_of_commonShape_eq_error hports hrank horders hshape
        rw [h] at herror
        cases herror
    | ok s =>
        obtain ⟨hlength, hjoined⟩ := joinTerminals_of_joined (foldlM_broadcast_eq_ok.mp hshape)
        obtain rfl := Except.ok.inj (hjoin.symm.trans hjoined)
        rw [hplan]
        exact congrArg Except.ok (drop_commonRank hlength).symm
  · rw [hplan]
    exact (equivalent_finalSpread p work hjoin).2.rank.trans (joinTerminals_eq_ok hjoin).1

/-- Terminals are planned over a shape exactly if it is their common shape and its size can be multiplied
up. -/
theorem map_master_eq_ok_iff {s : Shape} (hports : i.terminals ≠ []) (hrank : i.rank ≤ maxRank)
    (horders : i.Ordered) :
    (p.plan i).map (·.domain.master) = .ok s ↔
      i.commonShape = .ok s ∧ (Word.product? s).isSome = true := by
  constructor
  · intro h
    cases hplan : p.plan i with
    | error _ =>
        rw [hplan] at h
        cases h
    | ok plan =>
        rw [hplan] at h
        obtain rfl := Except.ok.inj h
        have hshape := (master_of_plan horders hplan).1
        refine ⟨hshape, ?_⟩
        rw [plan_of_commonShape hports hrank horders hshape] at hplan
        cases hwork : Word.product? plan.domain.master with
        | none =>
            rw [hwork] at hplan
            cases hplan
        | some _ => rfl
  · rintro ⟨hshape, hsize⟩
    obtain ⟨work, hwork⟩ := Option.isSome_iff_exists.mp hsize
    have hplan := plan_of_commonShape (p := p) hports hrank horders hshape
    rw [hwork] at hplan
    rw [hplan]
    obtain ⟨hlength, _⟩ := joinTerminals_of_joined (foldlM_broadcast_eq_ok.mp hshape)
    exact congrArg Except.ok (drop_commonRank hlength)

/-- Terminals are refused for their extents exactly if these have no common shape. -/
theorem plan_eq_broadcast_error_iff (hports : i.terminals ≠ []) (hrank : i.rank ≤ maxRank)
    (horders : i.Ordered) :
    (∃ c t, p.plan i = .error (.broadcast c t)) ↔ ∃ error, i.commonShape = .error error := by
  constructor
  · rintro ⟨c, t, hplan⟩
    cases hshape : i.commonShape with
    | error error => exact ⟨error, rfl⟩
    | ok s =>
        rw [plan_of_commonShape hports hrank horders hshape] at hplan
        split at hplan
        · cases hplan
        · cases hplan
  · rintro ⟨error, hshape⟩
    obtain ⟨c, t, _, hplan⟩ := plan_of_commonShape_eq_error hports hrank horders hshape
    exact ⟨_, _, hplan⟩

/-! ### The sequence of the terminals -/

theorem exists_error_iff {α : Type} {m : Except Error α} :
    (∃ error, m = .error error) ↔ ¬ ∃ a, m = .ok a := by
  cases m <;> simp

theorem rank_perm (h : j.terminals.Perm i.terminals) : j.rank = i.rank :=
  h.foldl_eq' (fun t _ u _ r => by omega) 0

/-- Orders that agree still do when the terminals are put in another sequence. -/
theorem ordered_perm (hperm : j.terminals.Perm i.terminals) (h : i.Ordered) : j.Ordered := by
  obtain ⟨order, h⟩ := h
  exact ⟨order, fun t ht => rank_perm hperm ▸ h t (hperm.mem_iff.mp ht)⟩

theorem commonShape_perm (hperm : j.terminals.Perm i.terminals) {s : Shape} (h : i.commonShape = .ok s) :
    j.commonShape = .ok s :=
  foldlM_broadcast_eq_ok.mpr
    (joined_congr (foldlM_broadcast_eq_ok.mp h) fun _ => (hperm.map Terminal.extents).mem_iff)

/-- A planner refuses the extents of terminals exactly when these have no common shape, and reports the first
terminal that does not fit those before it.  A plan is over the common shape, and its domain has the highest
rank of a terminal, at least 6.  The refusal, and the shape over which is planned, are the same for every
sequence of the terminals. -/
theorem plan_broadcasts (p : Planner) {i : Interface} (hports : i.terminals ≠ []) (hrank : i.rank ≤ 12)
    (horders : i.Ordered) :
    ((∃ c t, p.plan i = .error (.broadcast c t)) ↔ ∃ error, i.commonShape = .error error) ∧
    (∀ c t : Shape, i.commonShape = .error (.broadcast c t) →
      p.plan i = .error (.broadcast (c.leftPadded i.rank) t)) ∧
    (∀ plan, p.plan i = .ok plan →
      i.commonShape = .ok plan.domain.master ∧ plan.domain.rank = max 6 i.rank) ∧
    ∀ j : Interface, j.terminals.Perm i.terminals →
      ((∃ c t, p.plan j = .error (.broadcast c t)) ↔ ∃ c t, p.plan i = .error (.broadcast c t)) ∧
      ∀ s, (p.plan j).map (·.domain.master) = .ok s ↔ (p.plan i).map (·.domain.master) = .ok s := by
  refine ⟨plan_eq_broadcast_error_iff hports hrank horders, fun c t hshape => ?_, fun plan hplan => ?_,
    fun j hperm => ?_⟩
  · obtain ⟨_, _, herror, hplan⟩ := plan_of_commonShape_eq_error (p := p) hports hrank horders hshape
    cases herror
    exact hplan
  · obtain ⟨hshape, hdomain⟩ := master_of_plan horders hplan
    exact ⟨hshape, hdomain.trans (Nat.max_comm ..)⟩
  · have hports' : j.terminals ≠ [] := fun h => hports (List.perm_nil.mp (h ▸ hperm.symm))
    have hrank' : j.rank ≤ maxRank := rank_perm hperm ▸ hrank
    have horders' := ordered_perm hperm horders
    have hsame : ∀ s, j.commonShape = .ok s ↔ i.commonShape = .ok s := fun s =>
      ⟨commonShape_perm hperm.symm, commonShape_perm hperm⟩
    refine ⟨?_, fun s => ?_⟩
    · rw [plan_eq_broadcast_error_iff hports' hrank' horders', plan_eq_broadcast_error_iff hports hrank horders,
        exists_error_iff, exists_error_iff]
      exact not_congr (exists_congr hsame)
    · rw [map_master_eq_ok_iff hports' hrank' horders', map_master_eq_ok_iff hports hrank horders, hsame]

/-- A terminal of seven dimensions, the innermost of which is stored outermost, and two of lower rank. -/
def mixed : Interface :=
  ⟨[⟨[4, 1, 3, 1, 1, 1, 2], [6, 0, 1, 2, 3, 4, 5], .f32, 0⟩, .dense .f32 [0, 1]], [.dense .f32 [1]]⟩

/-- The same terminals in another sequence. -/
def mixed' : Interface :=
  ⟨[.dense .f32 [1]], [.dense .f32 [0, 1], ⟨[4, 1, 3, 1, 1, 1, 2], [6, 0, 1, 2, 3, 4, 5], .f32, 0⟩]⟩

/-- Terminals of three ranks, one of them without elements, have one common shape in either sequence. -/
theorem plan_broadcasts_mixed :
    mixed.terminals ≠ [] ∧ mixed.rank ≤ 12 ∧ mixed.Ordered ∧ mixed'.terminals.Perm mixed.terminals ∧
    (Planner.plan ⟨256, 1⟩ mixed').map (·.domain.master) = .ok [4, 1, 3, 1, 1, 0, 2] ∧
    ∀ plan, Planner.plan ⟨256, 1⟩ mixed = .ok plan →
      mixed.commonShape = .ok plan.domain.master ∧ plan.domain.rank = 7 := by
  have hordered : mixed.Ordered := ⟨[6, 0, 1, 2, 3, 4, 5], by decide⟩
  have hperm : mixed'.terminals.Perm mixed.terminals := by decide
  obtain ⟨_, _, hplan, hsequence⟩ := plan_broadcasts ⟨256, 1⟩ (i := mixed) (by decide) (by decide) hordered
  refine ⟨by decide, by decide, hordered, hperm, ((hsequence mixed' hperm).2 _).mpr (by decide +kernel), hplan⟩

/-! ### The size of the common shape -/

theorem size_leading_pos (s : Shape) : 0 < s.leading.size := by
  refine size_pos_iff.mpr fun n hn => ?_
  have hne := List.all_eq_true.mp List.all_takeWhile n hn
  exact Nat.pos_of_ne_zero (of_decide_eq_true hne)

theorem leading_of_not_mem {s : Shape} (h : 0 ∉ s) : s.leading = s :=
  List.takeWhile_eq_self_iff.mpr fun _ hn => decide_eq_true fun hzero => h (hzero ▸ hn)

theorem size_eq_zero_of_mem {s : Shape} (h : 0 ∈ s) : s.size = 0 :=
  Nat.eq_zero_of_not_pos fun hpos => absurd (size_pos_iff.mp hpos 0 h) (by decide)

theorem foldlM_mul?_zero (ns : List Nat) : ns.foldlM Word.mul? 0 = some 0 := by
  induction ns with
  | nil => rfl
  | cons n ns ih =>
      have hstep : Word.mul? 0 n = some 0 :=
        Word.mul?_eq_some.mpr ⟨by rw [Nat.zero_mul]; decide, Nat.zero_mul n⟩
      rw [List.foldlM_cons, hstep]
      exact ih

/-- A product that is multiplied up from the left is refused exactly if the factors in front of the first 0
overflow: a partial product that does not fit a word is not made smaller by them. -/
theorem foldlM_mul? {s : Shape} {acc : Nat} (hpos : 0 < acc) (hacc : acc < Word.size) :
    s.foldlM Word.mul? acc = if acc * s.leading.size < Word.size then some (acc * s.size) else none := by
  induction s generalizing acc with
  | nil =>
      rw [leading, List.takeWhile_nil, size_nil, Nat.mul_one, if_pos hacc]
      rfl
  | cons n s ih =>
      rw [List.foldlM_cons, Word.mul?]
      cases n with
      | zero =>
          have hleading : leading (0 :: s) = [] := rfl
          rw [hleading, size_nil, Nat.mul_one, if_pos hacc, Nat.mul_zero, size_cons, Nat.zero_mul, Nat.mul_zero,
            if_pos (by decide)]
          exact foldlM_mul?_zero s
      | succ n =>
          have hleading : leading ((n + 1) :: s) = (n + 1) :: leading s := rfl
          rw [hleading, size_cons, size_cons, ← Nat.mul_assoc, ← Nat.mul_assoc]
          by_cases hstep : acc * (n + 1) < Word.size
          · rw [if_pos hstep]
            exact ih (Nat.mul_pos hpos n.succ_pos) hstep
          · have hle := Nat.le_mul_of_pos_right (acc * (n + 1)) (size_leading_pos s)
            rw [if_neg hstep, if_neg (by omega)]
            rfl

theorem product?_eq (s : Shape) :
    Word.product? s = if s.leading.size < Word.size then some s.size else none := by
  have h := foldlM_mul? (s := s) Nat.one_pos (by decide)
  rwa [Nat.one_mul, Nat.one_mul] at h

/-- Terminals with a common shape have a plan exactly if the product of the extents in front of its first 0
fits a word, and are refused with its extents otherwise.  Without an extent of 0 this is the size of the
common shape; with one, a plan has nothing to do. -/
theorem plan_accepts_iff (p : Planner) {i : Interface} {s : Shape} (hports : i.terminals ≠ [])
    (hrank : i.rank ≤ 12) (horders : i.Ordered) (hshape : i.commonShape = .ok s) :
    ((∃ plan, p.plan i = .ok plan) ↔ s.leading.size < Word.size) ∧
    (0 ∉ s → ((∃ plan, p.plan i = .ok plan) ↔ s.size < Word.size)) ∧
    (Word.size ≤ s.leading.size → p.plan i =
      .error (.invalidArgument "blocked_dims" ("domain " ++ Text.numbers s ++ " overflows usize"))) ∧
    ∀ plan, p.plan i = .ok plan → plan.domain.master = s ∧ plan.domain.work = s.size ∧
      (0 ∈ s → plan.domain.work = 0 ∧ plan.domain.invocations = 0) := by
  have hplan := plan_of_commonShape (p := p) hports hrank horders hshape
  rw [product?_eq] at hplan
  have haccepts : (∃ plan, p.plan i = .ok plan) ↔ s.leading.size < Word.size := by
    rw [hplan]
    by_cases hsize : s.leading.size < Word.size
    · rw [if_pos hsize]
      exact ⟨fun _ => hsize, fun _ => ⟨_, rfl⟩⟩
    · rw [if_neg hsize]
      exact ⟨nofun, fun h => absurd h hsize⟩
  refine ⟨haccepts, fun hzero => ?_, fun hsize => ?_, fun plan h => ?_⟩
  · rw [haccepts, leading_of_not_mem hzero]
  · rw [hplan, if_neg (Nat.not_lt.mpr hsize)]
  · have hmaster := Except.ok.inj ((master_of_plan horders h).1.symm.trans hshape)
    have hsize := haccepts.mp ⟨plan, h⟩
    rw [hplan, if_pos hsize] at h
    obtain rfl := Except.ok.inj h
    refine ⟨hmaster, rfl, fun hzero => ⟨size_eq_zero_of_mem hzero, if_pos (size_eq_zero_of_mem hzero)⟩⟩

/-- An extent of 0 behind a product of 2⁶³. -/
def bounded : Interface := ⟨[.dense .f32 [4294967296, 2147483648, 0, 8]], [.dense .f32 [0, 1]]⟩

/-- A large shape without elements has a plan that does nothing. -/
theorem plan_accepts_iff_bounded :
    bounded.terminals ≠ [] ∧ bounded.rank ≤ 12 ∧ bounded.Ordered ∧
    bounded.commonShape = .ok [4294967296, 2147483648, 0, 8] ∧
    ∃ plan, Planner.plan ⟨256, 1⟩ bounded = .ok plan ∧ plan.domain.work = 0 ∧ plan.domain.invocations = 0 := by
  have hordered : bounded.Ordered := ⟨[0, 1, 2, 3], by decide⟩
  have hshape : bounded.commonShape = .ok [4294967296, 2147483648, 0, 8] := by decide
  obtain ⟨haccepts, _, _, hempty⟩ := plan_accepts_iff ⟨256, 1⟩ (by decide) (by decide) hordered hshape
  obtain ⟨plan, hplan⟩ := haccepts.mpr (by decide)
  exact ⟨by decide, by decide, hordered, hshape, plan, hplan, (hempty plan hplan).2.2 (by decide)⟩

/-- A shape without elements is refused if the product of the extents in front of its 0 overflows. -/
theorem plan_refuses_empty : ¬ ∀ (p : Planner) (i : Interface) (s : Shape), i.terminals ≠ [] → i.rank ≤ 12 →
    i.Ordered → i.commonShape = .ok s → ((∃ plan, p.plan i = .ok plan) ↔ s.size < Word.size) := by
  intro h
  obtain ⟨plan, hplan⟩ := (h ⟨256, 1⟩ ⟨[.dense .f32 [8589934592, 8589934592, 0]], []⟩
    [8589934592, 8589934592, 0] (by decide) (by decide) ⟨[0, 1, 2], by decide⟩ (by decide)).mpr (by decide)
  have hrefused : (Planner.plan ⟨256, 1⟩ ⟨[.dense .f32 [8589934592, 8589934592, 0]], []⟩).toOption = none := by
    decide +kernel
  rw [hplan] at hrefused
  cases hrefused

end

end Planner

end TensorGraph
