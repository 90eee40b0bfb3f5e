import Mathlib.Data.List.DropRight
import TensorGraph.Domain.PlanCache
import TensorGraph.Proofs.Planning

/-! # What a kept plan can be told from

A plan is kept for an interface, and not for the planner that made it.  After any history of calls with any
planners (`PlanCache.Use`) the plan that is kept for an interface is that of the first call for it since the
cache was last cleared or gave a plan for another interface (`keeps_after`).  The next call for the interface
gets this plan, if there is one.

A planner's settings have no part in whether an interface can be planned (`Planner.plan_eq_error`).  A kept
plan therefore never hides a failure, and between calls of one planner it cannot be told from a new one
(`planFor_after`). -/

namespace TensorGraph

/-- Planners fail for the same interfaces, and with the same errors. -/
theorem Planner.plan_eq_error {p : Planner} {i : Interface} {error : Error} (h : p.plan i = .error error)
    (q : Planner) : q.plan i = .error error := by
  unfold Planner.plan at h ⊢
  by_cases hports : i.terminals.isEmpty = true
  · rw [if_pos hports] at h ⊢
    exact h
  rw [if_neg hports] at h ⊢
  by_cases hrank : maxRank < i.rank
  · rw [if_pos hrank] at h ⊢
    exact h
  rw [if_neg hrank] at h ⊢
  cases horders : checkOrders i with
  | error _ =>
      rw [horders] at h
      exact h
  | ok _ =>
      cases hjoin : joinTerminals (max i.rank leastRank) i with
      | error _ =>
          simp only [horders, hjoin, ok_bind] at h ⊢
          exact h
      | ok extents =>
          simp only [horders, hjoin, ok_bind] at h ⊢
          cases hwork : Word.product? extents with
          | none =>
              rw [hwork] at h
              exact h
          | some work =>
              rw [hwork] at h
              cases h

namespace PlanCache

/-- What is done with a cache. -/
inductive Use where
  /-- A plan is asked for. -/
  | fetch (p : Planner) (i : Interface)
  /-- The plan is dropped. -/
  | clear

/-- The plan that a cache gives for an interface. -/
def planFor (c : PlanCache) (p : Planner) (i : Interface) : Except Error Plan :=
  (c.fetch p i).map (·.1.plan)

namespace Use

/-- A cache after it was used. -/
def apply (c : PlanCache) : Use → PlanCache
  | fetch p i => ((c.fetch p i).map (·.2)).toOption.getD c
  | clear => c.clear

/-- Whether a plan for an interface outlasts a use: a call for the interface, or one that fails. -/
def keeps (i : Interface) : Use → Bool
  | fetch p j => decide (j = i) || !(p.plan j).isOk
  | clear => false

/-- The planner of a call for an interface. -/
def planner? (i : Interface) : Use → Option Planner
  | fetch p j => if j = i then some p else none
  | clear => none

end Use

/-- A new cache after it was used any number of times. -/
def after (uses : List Use) : PlanCache := uses.foldl Use.apply empty

/-- The planner whose plan for an interface is kept after some uses: that of the first call for the interface
since the cache was last cleared or gave a plan for another interface. -/
def maker? (uses : List Use) (i : Interface) : Option Planner :=
  ((uses.rtakeWhile (·.keeps i)).filterMap (·.planner? i)).head?

variable {c : PlanCache} {p q : Planner} {i j : Interface} {uses : List Use}

theorem after_concat (uses : List Use) (u : Use) : after (uses ++ [u]) = u.apply (after uses) :=
  List.foldl_concat ..

/-- A use that a plan for an interface outlasts adds its planner behind those of the calls before. -/
theorem maker?_concat {u : Use} (h : u.keeps i = true) :
    maker? (uses ++ [u]) i = (maker? uses i).or (u.planner? i) := by
  rw [maker?, List.rtakeWhile_concat_pos _ _ _ h, List.filterMap_append, List.head?_append, maker?]
  congr 1
  cases hu : u.planner? i <;> simp [hu]

/-- After any other use no plan for the interface is kept. -/
theorem maker?_concat_of_not_keeps {u : Use} (h : ¬ u.keeps i = true) : maker? (uses ++ [u]) i = none := by
  rw [maker?, List.rtakeWhile_concat_neg _ _ _ h]
  rfl

/-! ### One use -/

theorem find?_eq_some {entry : Entry} :
    c.find? i = some entry ↔ c.entry = some entry ∧ entry.interface = i := by
  simp [find?, Option.filter_eq_some_iff]

/-- A plan that is kept for an interface is used again, whoever asks. -/
theorem fetch_of_find? {entry : Entry} (h : c.find? i = some entry) (p : Planner) :
    c.fetch p i = .ok (entry, c) := by
  rw [fetch, h]

theorem fetch_of_error (hfind : c.find? i = none) {error : Error} (hplan : p.plan i = .error error) :
    c.fetch p i = .error error := by
  rw [fetch, hfind, hplan]

theorem fetch_of_ok (hfind : c.find? i = none) {plan : Plan} (hplan : p.plan i = .ok plan) :
    c.fetch p i = .ok (⟨i, plan, c.made⟩, ⟨some ⟨i, plan, c.made⟩, c.made + 1⟩) := by
  rw [fetch, hfind, hplan]

/-- A call that fails leaves the cache as it was. -/
theorem apply_of_error {error : Error} (h : c.fetch p i = .error error) : (Use.fetch p i).apply c = c := by
  rw [Use.apply, h]
  rfl

theorem apply_of_ok {entry : Entry} {c' : PlanCache} (h : c.fetch p i = .ok (entry, c')) :
    (Use.fetch p i).apply c = c' := by
  rw [Use.apply, h]
  rfl

@[simp] theorem find?_entry (entry : Entry) (made : Nat) :
    (PlanCache.mk (some entry) made).find? entry.interface = some entry :=
  find?_eq_some.mpr ⟨rfl, rfl⟩

/-- A call that succeeds leaves a plan for its interface. -/
theorem exists_fetch {plan : Plan} (hplan : p.plan j = .ok plan) :
    ∃ entry c', c.fetch p j = .ok (entry, c') ∧ c'.find? j = some entry := by
  cases hfind : c.find? j with
  | some entry => exact ⟨entry, c, fetch_of_find? hfind p, hfind⟩
  | none => exact ⟨_, _, fetch_of_ok hfind hplan, find?_entry ⟨j, plan, c.made⟩ _⟩

/-- Only one plan is kept. -/
theorem find?_eq_none_of_ne {entry : Entry} (h : c.find? j = some entry) (hne : j ≠ i) : c.find? i = none := by
  obtain ⟨hentry, rfl⟩ := find?_eq_some.mp h
  cases hother : c.find? i with
  | none => rfl
  | some other =>
      obtain ⟨hother', rfl⟩ := find?_eq_some.mp hother
      exact absurd (congrArg Entry.interface (Option.some.inj (hentry.symm.trans hother'))) hne

/-! ### Histories -/

/-- What is kept is what the maker makes: the invariant of a history. -/
def Keeps (c : PlanCache) (maker? : Interface → Option Planner) : Prop :=
  ∀ i, (c.find? i).map (·.plan) = (maker? i).bind fun q => (q.plan i).toOption

/-- No plan is kept for an interface that cannot be planned. -/
theorem Keeps.find?_of_error {maker? : Interface → Option Planner} (h : c.Keeps maker?) {error : Error}
    (hplan : p.plan i = .error error) : c.find? i = none := by
  refine Option.map_eq_none_iff.mp ((h i).trans (Option.bind_eq_none_iff.mpr fun q _ => ?_))
  rw [Planner.plan_eq_error hplan q]
  rfl

/-- An interface that can be planned, but for which no plan is kept, has no maker. -/
theorem Keeps.maker?_of_find? {maker? : Interface → Option Planner} (h : c.Keeps maker?) {plan : Plan}
    (hplan : p.plan i = .ok plan) (hfind : c.find? i = none) : maker? i = none := by
  refine Option.eq_none_iff_forall_not_mem.mpr fun q hq => ?_
  have hnone := h i
  rw [hfind, hq] at hnone
  cases hmade : q.plan i with
  | ok _ =>
      rw [Option.bind_some, hmade] at hnone
      cases hnone
  | error _ =>
      rw [Planner.plan_eq_error hmade p] at hplan
      cases hplan

/-- After any history the plan that is kept for an interface is the one that its maker makes. -/
theorem keeps_after (uses : List Use) : (after uses).Keeps (maker? uses) := by
  induction uses using List.reverseRecOn with
  | nil => exact fun _ => rfl
  | append_singleton uses u ih =>
      intro i
      rw [after_concat]
      cases u with
      | clear =>
          rw [maker?_concat_of_not_keeps (by simp [Use.keeps])]
          rfl
      | fetch p j =>
          cases hplan : p.plan j with
          | error error =>
              -- Nothing changes; `p` is the maker now if there was none, but makes nothing.
              have hfetch := fetch_of_error (ih.find?_of_error hplan) hplan
              rw [apply_of_error hfetch, maker?_concat (by simp [Use.keeps, hplan, Except.isOk, Except.toBool]), ih i]
              cases hmaker : maker? uses i with
              | some q => rfl
              | none =>
                  rw [Option.none_or, Use.planner?]
                  split
                  · rename_i hji
                    rw [Option.bind_some, ← hji, hplan]
                    rfl
                  · rfl
          | ok plan =>
              by_cases hji : j = i
              · subst hji
                rw [maker?_concat (by simp [Use.keeps]), Use.planner?, if_pos rfl]
                cases hfind : (after uses).find? j with
                | some entry =>
                    have hold := ih j
                    rw [hfind] at hold
                    obtain ⟨q, hmaker, _⟩ := Option.bind_eq_some_iff.mp hold.symm
                    rw [apply_of_ok (fetch_of_find? hfind p), ih j, hmaker]
                    rfl
                | none =>
                    have hfound := find?_entry ⟨j, plan, (after uses).made⟩ ((after uses).made + 1)
                    rw [apply_of_ok (fetch_of_ok hfind hplan), ih.maker?_of_find? hplan hfind, hfound,
                      Option.none_or, Option.bind_some, hplan]
                    rfl
              · obtain ⟨entry, c', hfetch, hfound⟩ := exists_fetch (c := after uses) hplan
                rw [apply_of_ok hfetch, find?_eq_none_of_ne hfound hji,
                  maker?_concat_of_not_keeps (by simp [Use.keeps, hji, hplan, Except.isOk, Except.toBool])]
                rfl

/-- The maker has been asked for a plan for the interface. -/
theorem mem_of_maker? (h : maker? uses i = some q) : .fetch q i ∈ uses := by
  obtain ⟨u, hu, hq⟩ := List.mem_filterMap.mp (List.mem_of_head? h)
  have hmem := (List.rtakeWhile_suffix (·.keeps i) uses).subset hu
  cases u with
  | clear => cases hq
  | fetch p j =>
      rw [Use.planner?] at hq
      split at hq
      · rename_i hji
        rw [← hji, ← Option.some.inj hq]
        exact hji ▸ hmem
      · cases hq

/-- A call of a cache returns what the planner of an earlier call for the same interface makes: that of the
first such call since the cache was last cleared or gave a plan for another interface, and the planner of the
call itself if there was none.  It fails exactly if the planner of the call does, with the same error, and
leaves the cache as it was then; and if all planners that were asked for the interface are the one of the
call, then it returns what this planner makes. -/
theorem planFor_after (uses : List Use) (p : Planner) (i : Interface) :
    (after uses).planFor p i = ((maker? uses i).getD p).plan i ∧
    (∀ error, (after uses).planFor p i = .error error ↔ p.plan i = .error error) ∧
    (∀ error, (after uses).planFor p i = .error error → after (uses ++ [.fetch p i]) = after uses) ∧
    ((∀ q, .fetch q i ∈ uses → q = p) → (after uses).planFor p i = p.plan i) := by
  have hkeeps := keeps_after uses
  have hanswer : (after uses).planFor p i = ((maker? uses i).getD p).plan i := by
    have hkept := hkeeps i
    unfold planFor
    cases hfind : (after uses).find? i with
    | some entry =>
        rw [hfind] at hkept
        obtain ⟨q, hmaker, hplan⟩ := Option.bind_eq_some_iff.mp hkept.symm
        rw [fetch_of_find? hfind, hmaker, Option.getD_some]
        cases hmade : q.plan i with
        | error _ =>
            rw [hmade] at hplan
            cases hplan
        | ok plan =>
            rw [hmade] at hplan
            exact congrArg Except.ok (Option.some.inj hplan).symm
    | none =>
        cases hplan : p.plan i with
        | error error =>
            rw [fetch_of_error hfind hplan, Planner.plan_eq_error hplan]
            rfl
        | ok plan =>
            rw [fetch_of_ok hfind hplan, hkeeps.maker?_of_find? hplan hfind, Option.getD_none, hplan]
            rfl
  refine ⟨hanswer, fun error => ?_, fun error herror => ?_, fun hall => ?_⟩
  · rw [hanswer]
    exact ⟨fun h => Planner.plan_eq_error h p, fun h => Planner.plan_eq_error h _⟩
  · rw [after_concat]
    cases hfetch : (after uses).fetch p i with
    | error _ => exact apply_of_error hfetch
    | ok _ =>
        rw [planFor, hfetch] at herror
        cases herror
  · rw [hanswer]
    cases hmaker : maker? uses i with
    | none => rfl
    | some q => rw [Option.getD_some, hall q (mem_of_maker? hmaker)]

/-- An input and an output of four elements in two rows. -/
def square : Interface := ⟨[.dense .f32 [2, 2]], [.dense .f32 [2, 2]]⟩

/-- Between calls of one planner, of which some fail, a kept plan cannot be told from a new one. -/
theorem planFor_after_one_planner :
    (∀ q, Use.fetch q square ∈ [Use.fetch ⟨256, 1⟩ square, .clear, .fetch ⟨256, 1⟩ square,
      .fetch ⟨1, 1⟩ ⟨[], []⟩] → q = ⟨256, 1⟩) ∧
    (after [.fetch ⟨256, 1⟩ square, .clear, .fetch ⟨256, 1⟩ square, .fetch ⟨1, 1⟩ ⟨[], []⟩]).planFor
      ⟨256, 1⟩ square = Planner.plan ⟨256, 1⟩ square := by
  have hone : ∀ q, Use.fetch q square ∈ [Use.fetch ⟨256, 1⟩ square, .clear, .fetch ⟨256, 1⟩ square,
      .fetch ⟨1, 1⟩ ⟨[], []⟩] → q = ⟨256, 1⟩ := by
    intro q hq
    simpa [square] using hq
  exact ⟨hone, (planFor_after _ _ _).2.2.2 hone⟩

/-- A planner that does not merge dimensions is given the plan of one that does. -/
theorem planFor_other_planner : ¬ ∀ (uses : List Use) (p : Planner) (i : Interface),
    (after uses).planFor p i = p.plan i := by
  intro h
  have hplans : (after [.fetch ⟨256, 1⟩ square]).planFor ⟨1, 1⟩ square ≠ Planner.plan ⟨1, 1⟩ square := by
    decide +kernel
  exact hplans (h _ _ _)

end PlanCache

end TensorGraph
