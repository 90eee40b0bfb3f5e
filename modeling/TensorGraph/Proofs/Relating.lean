import Mathlib.Data.List.Forall2
import TensorGraph.Proofs.Valuation
import TensorGraph.Proofs.Wellformed

/-! # Related valuations

One graph can be walked with values of two kinds.  If every node makes related values of related ones
(`Node.Relates`), then valuations that start with related inputs both have a value for every node, and end
with related results (`exists_valuate`).  The walk never stops because a graph is checked: what a node
reads has been given a value before. -/

namespace TensorGraph

variable {ε α β S T : Type}

/-- A node that makes related values of related ones, whatever the states are. -/
def Node.Relates (R : α → β → Prop) (apply : Node ε → List α → S → Option (α × S))
    (apply' : Node ε → List β → T → Option (β × T)) (n : Node ε) : Prop :=
  ∀ as bs s t, as.length = n.inputs.length → List.Forall₂ R as bs →
    ∃ a s' b t', apply n as s = some (a, s') ∧ apply' n bs t = some (b, t') ∧ R a b

namespace Valuation

/-- Two valuations give related values to the same tensors, and have related results. -/
structure Related (R : α → β → Prop) (v : Valuation α S) (v' : Valuation β T) : Prop where
  env : ∀ h, Option.Rel R (v.env h) (v'.env h)
  results : List.Forall₂ R v.results v'.results

variable {R : α → β → Prop} {v : Valuation α S} {v' : Valuation β T}

theorem isSome_bind (v : Valuation α S) {hs : List Handle} {a : α} {h : Handle}
    (hh : h ∈ hs ∨ (v.env h).isSome = true) : ((v.bind hs a).env h).isSome = true := by
  show (if h ∈ hs then some a else v.env h).isSome = true
  split
  · rfl
  · exact hh.resolve_left ‹_›

theorem Related.bind (h : Related R v v') {a : α} {b : β} (hab : R a b) (hs : List Handle) :
    Related R (v.bind hs a) (v'.bind hs b) := by
  refine ⟨fun k => ?_, h.results⟩
  show Option.Rel R (if k ∈ hs then some a else v.env k) (if k ∈ hs then some b else v'.env k)
  split
  · exact .some hab
  · exact h.env k

theorem Related.push (h : Related R v v') {a : α} {b : β} (hab : R a b) :
    Related R { v with results := v.results ++ [a] } { v' with results := v'.results ++ [b] } :=
  ⟨h.env, List.rel_append h.results (.cons hab .nil)⟩

theorem Related.withState (h : Related R v v') (s : S) (t : T) :
    Related R { v with state := s } { v' with state := t } := ⟨h.env, h.results⟩

/-- What related valuations have for some tensors is related, if one of them has a value for each. -/
theorem Related.exists_mapM (h : Related R v v') {hs : List Handle}
    (hsome : ∀ k ∈ hs, (v.env k).isSome = true) :
    ∃ as bs, hs.mapM v.env = some as ∧ hs.mapM v'.env = some bs ∧ as.length = hs.length ∧
      List.Forall₂ R as bs := by
  induction hs with
  | nil => exact ⟨[], [], rfl, rfl, rfl, .nil⟩
  | cons k hs ih =>
      obtain ⟨hk, hsome⟩ := List.forall_mem_cons.mp hsome
      obtain ⟨as, bs, has, hbs, hlength, hrelated⟩ := ih hsome
      obtain ⟨a, ha⟩ := Option.isSome_iff_exists.mp hk
      have henv := h.env k
      rw [ha] at henv
      cases hb : v'.env k with
      | none =>
          rw [hb] at henv
          cases henv
      | some b =>
          rw [hb] at henv
          obtain hab | _ := henv
          refine ⟨a :: as, b :: bs, ?_, ?_, congrArg Nat.succ hlength, .cons hab hrelated⟩
          · rw [List.mapM_cons, ha, has]
            rfl
          · rw [List.mapM_cons, hb, hbs]
            rfl

/-- Every tensor that is listed has a value. -/
def Covers (v : Valuation α S) (hs : List Handle) : Prop := ∀ h ∈ hs, (v.env h).isSome = true

variable {apply : Node ε → List α → S → Option (α × S)}
  {apply' : Node ε → List β → T → Option (β × T)}

/-- One node leads from related valuations to related valuations, and gives values to its outputs. -/
theorem Related.exists_step (h : Related R v v') {g : Graph ε} {n : Node ε} (hn : n ∈ g.nodes)
    (hrelates : ¬ n.isParameter = true → ¬ n.isResult = true → n.Relates R apply apply')
    (hparameters : v.Covers g.parameterHandles) (hreads : v.Covers n.inputs) :
    ∃ w w', v.step apply n = some w ∧ v'.step apply' n = some w' ∧ Related R w w' ∧
      w.Covers n.outputs ∧ (∀ hs, v.Covers hs → w.Covers hs) ∧
      w.results.length = v.results.length + if n.isResult = true then 1 else 0 := by
  by_cases hparameter : n.isParameter = true
  · refine ⟨v, v', if_pos hparameter, if_pos hparameter, h, fun k hk => ?_, fun _ hs => hs, ?_⟩
    · exact hparameters k (List.mem_flatMap.mpr ⟨n, List.mem_filter.mpr ⟨hn, hparameter⟩, hk⟩)
    · rw [if_neg (Node.not_isResult hparameter), Nat.add_zero]
  · obtain ⟨as, bs, has, hbs, hlength, hrelated⟩ := h.exists_mapM hreads
    rw [step, step, if_neg hparameter, if_neg hparameter, has, hbs]
    simp only [Option.bind_eq_bind, Option.bind_some]
    by_cases hresult : n.isResult = true
    · rw [if_pos hresult, if_pos hresult]
      obtain ⟨input, output, hinput, _⟩ := g.result_form hn hresult
      rw [hinput] at hlength
      cases hrelated with
      | nil => cases hlength
      | @cons a b as bs hab _ =>
          refine ⟨_, _, rfl, rfl, (h.bind hab n.outputs).push hab, fun k hk => ?_, fun hs hcovers k hk => ?_, ?_⟩
          · exact v.isSome_bind (.inl hk)
          · exact v.isSome_bind (.inr (hcovers k hk))
          · rw [List.length_append, List.length_singleton, if_pos hresult]
    · rw [if_neg hresult, if_neg hresult]
      obtain ⟨a, s, b, t, ha, hb, hab⟩ := hrelates hparameter hresult as bs v.state v'.state hlength hrelated
      rw [ha, hb]
      refine ⟨_, _, rfl, rfl, (h.bind hab n.outputs).withState s t, fun k hk => ?_, fun hs hcovers k hk => ?_, ?_⟩
      · exact v.isSome_bind (.inl hk)
      · exact v.isSome_bind (.inr (hcovers k hk))
      · rw [if_neg hresult]
        rfl

end Valuation

namespace Graph

open TensorGraph.Valuation

variable {R : α → β → Prop}

/-- Valuations of related inputs start related, and have values for all parameters. -/
theorem related_foldl_bind {inputs : List α} {inputs' : List β} (hinputs : List.Forall₂ R inputs inputs')
    (hs : List Handle) {v : Valuation α S} {v' : Valuation β T} (h : Related R v v') :
    Related R ((hs.zip inputs).foldl (fun v (h, a) => v.bind [h] a) v)
        ((hs.zip inputs').foldl (fun v (h, a) => v.bind [h] a) v') ∧
      ∀ k, (k ∈ hs ∧ hs.length = inputs.length ∨ (v.env k).isSome = true) →
        (((hs.zip inputs).foldl (fun v (h, a) => v.bind [h] a) v).env k).isSome = true := by
  induction hinputs generalizing hs v v' with
  | nil =>
      rw [List.zip_nil_right, List.zip_nil_right]
      refine ⟨h, fun k hk => hk.resolve_left fun ⟨hmem, hlen⟩ => ?_⟩
      rw [List.length_eq_zero_iff.mp hlen] at hmem
      exact List.not_mem_nil hmem
  | @cons a b as bs hab _ ih =>
      cases hs with
      | nil => exact ⟨h, fun k hk => hk.resolve_left fun ⟨hmem, _⟩ => List.not_mem_nil hmem⟩
      | cons k hs =>
          obtain ⟨hrelated, hcovers⟩ := ih hs (h.bind hab [k])
          refine ⟨hrelated, fun j hj => hcovers j ?_⟩
          rcases hj with ⟨hj, hlen⟩ | hj
          · rcases List.mem_cons.mp hj with rfl | hj
            · exact .inr (v.isSome_bind (.inl (List.mem_singleton_self _)))
            · exact .inl ⟨hj, Nat.succ.inj hlen⟩
          · exact .inr (v.isSome_bind (.inr hj))

theorem related_initialValuation (g : Graph ε) {inputs : List α} {inputs' : List β}
    (hlength : inputs.length = g.parameters.length) (hinputs : List.Forall₂ R inputs inputs') (s : S)
    (t : T) : Related R (g.initialValuation inputs s) (g.initialValuation inputs' t) ∧
      (g.initialValuation inputs s).Covers g.parameterHandles := by
  have hstart : Related R (⟨fun _ => none, s, []⟩ : Valuation α S) (⟨fun _ => none, t, []⟩ : Valuation β T) :=
    ⟨fun _ => .none, .nil⟩
  obtain ⟨hrelated, hcovers⟩ := related_foldl_bind hinputs g.parameterHandles hstart
  refine ⟨hrelated, fun k hk => hcovers k (.inl ⟨hk, ?_⟩)⟩
  rw [g.length_parameterHandles, hlength]

/-- A graph of nodes that make related values of related ones has related results for related inputs, as
many as it has result nodes. -/
theorem exists_valuate (g : Graph ε) {apply : Node ε → List α → S → Option (α × S)}
    {apply' : Node ε → List β → T → Option (β × T)}
    (hnodes : ∀ n ∈ g.nodes, ¬ n.isParameter = true → ¬ n.isResult = true → n.Relates R apply apply')
    {inputs : List α} {inputs' : List β} (hlength : inputs.length = g.parameters.length)
    (hinputs : List.Forall₂ R inputs inputs') (s : S) (t : T) :
    ∃ v v', g.valuate apply inputs s = some v ∧ g.valuate apply' inputs' t = some v' ∧
      List.Forall₂ R v.results v'.results ∧ v.results.length = g.results.length := by
  have hwalk : ∀ (rest before : List (Node ε)) (v : Valuation α S) (v' : Valuation β T),
      g.nodes = before ++ rest → Related R v v' → v.Covers g.parameterHandles →
      v.Covers (Node.produced before) → v.results.length = (before.filter (·.isResult)).length →
      ∃ w w', rest.foldlM (step apply) v = some w ∧ rest.foldlM (step apply') v' = some w' ∧
        List.Forall₂ R w.results w'.results ∧ w.results.length = g.results.length := by
    intro rest
    induction rest with
    | nil =>
        intro before v v' hsplit h _ _ hcount
        refine ⟨v, v', rfl, rfl, h.results, ?_⟩
        rw [hcount, results, resultNodes, hsplit, List.append_nil, List.length_map]
    | cons n rest ih =>
        intro before v v' hsplit h hparameters hproduced hcount
        have hn : n ∈ g.nodes := hsplit ▸ List.mem_append_right _ List.mem_cons_self
        obtain ⟨w, w', hw, hw', hrelated, houtputs, hkeeps, hresults⟩ :=
          h.exists_step hn (hnodes n hn) hparameters fun k hk => hproduced k (g.reads_earlier hsplit hk)
        have hmore : w.Covers (Node.produced (before ++ [n])) := fun k hk => by
          rw [Node.produced_append] at hk
          rcases List.mem_append.mp hk with hk | hk
          · exact hkeeps _ hproduced k hk
          · exact houtputs k (by simpa [Node.produced] using hk)
        obtain ⟨u, u', hu, hu', hall⟩ := ih (before ++ [n]) w w'
          (by rw [hsplit, List.append_assoc, List.singleton_append]) hrelated (hkeeps _ hparameters) hmore
          (by rw [hresults, hcount, List.filter_append, List.length_append]; split <;> simp_all)
        exact ⟨u, u', by rw [List.foldlM_cons, hw]; exact hu, by rw [List.foldlM_cons, hw']; exact hu', hall⟩
  obtain ⟨hrelated, hparameters⟩ := g.related_initialValuation hlength hinputs s t
  have hempty : (g.initialValuation inputs s).results.length = 0 :=
    congrArg List.length (g.results_initialValuation inputs s).1
  exact hwalk g.nodes [] _ _ rfl hrelated hparameters (fun k hk => (List.not_mem_nil hk).elim) hempty

end Graph

end TensorGraph
