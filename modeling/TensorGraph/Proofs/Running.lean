import TensorGraph.Proofs.Allocating
import TensorGraph.Proofs.Sequencing

/-! # Calls on a machine

A call of reference operators computes what its graph denotes, also on a machine, as long as the machine has the room
for what is denoted: its allocator admits the descriptions of the graph and every value on the way (`Graph.FitsOn`).
It then ends as it does without limits (`granted_execute`), whatever has happened before, which reference operators
the graph has, and whether tensors of earlier calls are used again (`execute_refines`).  Room for the values alone is
not enough: what is described is allocated, too, although an operator may make something else of it
(`execute_exhausted`). -/

namespace TensorGraph

variable {σ ε : Type} {a : Allocator}

/-! ### Room for a graph -/

instance (a : Allocator) (dtype : DType) (shape : Option Shape) : Decidable (a.Admits dtype shape) :=
  inferInstanceAs (Decidable (∀ s ∈ shape, a.grants ⟨dtype, s⟩ = true))

/-- The values that some tensors have been given. -/
def Valuation.values {α S : Type} (v : Valuation α S) (count : Nat) : List α := (List.range count).filterMap v.env

namespace Graph

variable [HalfConversion]

/-- The valuation after some nodes of a graph of reference operators, whose variables have been given zeros. -/
def valuationAfter (g : Graph ε) (kind : Node ε → ReferenceOp) (inputs : List Value) (vars : VariableValues)
    (nodes : List (Node ε)) : Option (Valuation Value VariableValues) :=
  nodes.foldlM (Valuation.step (g.applyReference kind))
    (g.initialValuation inputs (g.nodes.foldl (g.withZeros inputs) vars))

theorem valuationAfter_concat {g : Graph ε} {kind : Node ε → ReferenceOp} {inputs : List Value}
    {vars : VariableValues} {before : List (Node ε)} {node : Node ε} {v v' : Valuation Value VariableValues}
    (hv : g.valuationAfter kind inputs vars before = some v) (hstep : v.step (g.applyReference kind) node = some v') :
    g.valuationAfter kind inputs vars (before ++ [node]) = some v' := by
  rw [valuationAfter, List.foldlM_append, ← valuationAfter, hv]
  show (v.step (g.applyReference kind) node >>= fun v => pure v) = some v'
  rw [hstep]
  rfl

/-- An allocator has room for a graph: it admits what is described with a known shape, and all values that are given
to tensors after any number of nodes. -/
structure FitsOn (g : Graph ε) (a : Allocator) (kind : Node ε → ReferenceOp) (inputs : List Value)
    (vars : VariableValues) : Prop where
  described : ∀ desc ∈ g.tensors, a.Admits desc.dtype desc.shape.toShape?
  valued : ∀ count ≤ g.nodes.length, ∀ v ∈ g.valuationAfter kind inputs vars (g.nodes.take count),
    ∀ x ∈ v.values g.tensors.length, a.Admits x.dtype x.shape

instance (g : Graph ε) (a : Allocator) (kind : Node ε → ReferenceOp) (inputs : List Value) (vars : VariableValues) :
    Decidable (g.FitsOn a kind inputs vars) :=
  decidable_of_iff ((∀ desc ∈ g.tensors, a.Admits desc.dtype desc.shape.toShape?) ∧
      ∀ count ≤ g.nodes.length, ∀ v ∈ g.valuationAfter kind inputs vars (g.nodes.take count),
        ∀ x ∈ v.values g.tensors.length, a.Admits x.dtype x.shape)
    ⟨fun ⟨described, valued⟩ => ⟨described, valued⟩, fun ⟨described, valued⟩ => ⟨described, valued⟩⟩

variable {g : Graph ε} {kind : Node ε → ReferenceOp} {inputs : List Value} {vars : VariableValues}

theorem FitsOn.admits (h : g.FitsOn a kind inputs vars) {before rest : List (Node ε)}
    (hnodes : g.nodes = before ++ rest) {v : Valuation Value VariableValues}
    (hv : g.valuationAfter kind inputs vars before = some v) {k : Handle} (hk : k < g.tensors.length) {x : Value}
    (hx : v.env k = some x) : a.Admits x.dtype x.shape := by
  have htake : g.nodes.take before.length = before := by rw [hnodes, List.take_left']; rfl
  refine h.valued before.length ?_ v (htake.symm ▸ hv) x ?_
  · rw [hnodes, List.length_append]
    exact Nat.le_add_right _ _
  · exact List.mem_filterMap.mpr ⟨k, List.mem_range.mpr hk, hx⟩

end Graph

theorem Bindings.exists_get?_of_mem {b : Bindings} {t : Tensor} (ht : t ∈ b.tensors) : ∃ k, b.get? k = some t := by
  obtain ⟨k, hk⟩ := List.mem_iff_getElem?.mp (mem_tensors.mp ht)
  exact ⟨k, Option.join_eq_some_iff.mpr hk⟩

/-! ### Nodes -/

namespace Executor

variable {e : Executor σ} {V : VariableId → Prop} {r : Ref Variables} {f : Frame} {w : World σ}
  {kind : Node (Evaluator σ) → ReferenceOp} {inputs slots : List Tensor} {values : List Value}
  {vars : VariableValues}

/-- A call in progress has come as far as a valuation, and all that was allocated is granted. -/
def Affords [HalfConversion] (e : Executor σ) (V : VariableId → Prop) (r : Ref Variables) (a : Allocator)
    (kind : Node (Evaluator σ) → ReferenceOp) (values : List Value) (vars : VariableValues)
    (before : List (Node (Evaluator σ))) (f : Frame) (w : World σ) : Prop :=
  ∃ v, e.graph.valuationAfter kind values vars before = some v ∧ e.Simulates V r f w v ∧
    v.results.length = (before.filter (·.isResult)).length ∧ w.store.Granted a

/-- What is bound is admitted. -/
theorem Simulates.admits [HalfConversion] {before rest : List (Node (Evaluator σ))}
    {v : Valuation Value VariableValues} (h : e.Simulates V r f w v) (hfits : e.graph.FitsOn a kind values vars)
    (hnodes : e.graph.nodes = before ++ rest) (hv : e.graph.valuationAfter kind values vars before = some v)
    {k : Handle} {t : Tensor} (hget : f.bindings.get? k = some t) : a.Admits t.dtype t.shape := by
  have hk : k < e.graph.tensors.length := by
    rw [← h.length]
    exact (List.getElem?_eq_some_iff.mp (Option.join_eq_some_iff.mp hget)).1
  have henv := h.env k
  rw [hget] at henv
  exact hfits.admits hnodes hv hk henv.symm

/-- Delivering allocates nothing. -/
theorem granted_deliverNode {before rest : List (Node (Evaluator σ))} {node : Node (Evaluator σ)}
    (hnodes : e.graph.nodes = before ++ node :: rest) (hresult : node.isResult = true)
    (hplaces : f.slots.length = e.graph.results.length) (hw : w.store.Granted a) :
    ((e.deliverNode node).eval f w).2.store.Granted a := by
  have hnode : node ∈ e.graph.nodes := hnodes ▸ List.mem_append_right _ List.mem_cons_self
  obtain ⟨input, output, hinput, houtput⟩ := e.graph.result_form hnode hresult
  obtain ⟨slot, hslot⟩ := exists_slot hnodes hresult hplaces
  rw [eval_deliverNode hnodes hresult hinput houtput hslot w]
  rcases f.bindings.get input with error | value
  · exact hw
  · rcases deliver_cases slot value w with ⟨-, houtcome⟩ | ⟨-, -, -, s, hcopy, houtcome⟩
    · simp only [houtcome]
      exact hw
    · simp only [houtcome]
      exact hw.copyFrom hcopy

/-- Every step follows the valuation, and all that it allocates is granted, also if it fails. -/
theorem invariant_affords [HalfConversion] (hkind : e.IsReference kind) (hV : e.Tracks V kind) {c : Context}
    (hc : c.variables = some r) (hfits : e.graph.FitsOn a kind values vars) (collect : Bool) :
    e.Invariant c collect (e.Affords V r a kind values vars) (fun _ w => w.store.Granted a)
      fun _ _ w => w.store.Granted a where
  cancel before f w h := by
    obtain ⟨v, hv, hsimulates, hcount, hgranted⟩ := h
    obtain ⟨w', heval, hsimulates'⟩ := eval_takeCancel hsimulates
    have hstore : w'.store = w.store := congrArg (fun o => o.2.store) heval.symm
    rw [heval]
    exact ⟨v, hv, hsimulates', hcount, hstore ▸ hgranted⟩
  parameter {before rest node} hnodes hparameter f w h := by
    obtain ⟨v, hv, hsimulates, hcount, hgranted⟩ := h
    refine ⟨v, Graph.valuationAfter_concat hv (if_pos hparameter), hsimulates, ?_, hgranted⟩
    rw [hcount, List.filter_append, List.filter_cons_of_neg (Node.not_isResult hparameter), List.filter_nil,
      List.append_nil]
  result {before rest node} hnodes hresult f w h := by
    obtain ⟨v, hv, hsimulates, hcount, hgranted⟩ := h
    have hparameter : ¬ node.isParameter = true := fun hparameter => Node.not_isResult hparameter hresult
    have hfollows : Call.Follows (fun _ f' w' v' => e.Simulates V r f' w' v' ∧ v'.results.length = v.results.length + 1)
        (v.step (e.graph.applyReference kind) node) ((e.deliverNode node).eval f w) :=
      follows_deliverNode hsimulates hnodes hparameter hresult hcount
    have hgranted' := granted_deliverNode hnodes hresult hsimulates.places hgranted
    rcases heval : (e.deliverNode node).eval f w with ⟨⟨error | ⟨⟩, f'⟩, w'⟩
    · rw [heval] at hgranted'
      exact hgranted'
    · rw [heval] at hgranted' hfollows
      obtain ⟨v', hstep, hsimulates', hlength⟩ := hfollows.of_ok
      refine ⟨v', Graph.valuationAfter_concat hv hstep, hsimulates', ?_, hgranted'⟩
      rw [hlength, hcount, List.filter_append, List.filter_cons_of_pos hresult, List.filter_nil, List.length_append,
        List.length_singleton]
  operator {before rest node} hnodes hparameter hresult f w h := by
    obtain ⟨v, hv, hsimulates, hcount, hgranted⟩ := h
    have hnode : node ∈ e.graph.nodes := hnodes ▸ List.mem_append_right _ List.mem_cons_self
    have hconcat : e.graph.nodes = (before ++ [node]) ++ rest := by
      rw [hnodes, List.append_assoc, List.singleton_append]
    obtain ⟨hone, hevaluator⟩ := hkind node hnode hparameter hresult
    obtain ⟨k, houtputs⟩ := List.length_eq_one_iff.mp hone
    have hk : k < e.graph.tensors.length := e.graph.output_lt hnode (houtputs ▸ List.mem_singleton_self k)
    have hfollows := follows_evaluateNode hsimulates hnode hparameter hresult hone hevaluator hc
      (hV node hnode hparameter hresult) collect
    have hgranted' := granted_evaluateNode c collect houtputs (List.getElem?_eq_getElem hk) (hsimulates.length.symm ▸ hk)
      hevaluator hgranted (hfits.described _ (List.getElem_mem hk))
      (fun ts hts t ht => by
        obtain ⟨k', hget⟩ := Bindings.exists_get?_of_mem (Bindings.subset_tensors_of_mapM hts ht)
        exact hsimulates.admits hfits hnodes hv hget)
      (fun f' w' t heval hget => by
        rw [heval] at hfollows
        obtain ⟨v', hstep, hsimulates'⟩ := hfollows.of_ok
        exact hsimulates'.admits hfits hconcat (Graph.valuationAfter_concat hv hstep) hget)
    rcases heval : (e.evaluateNode c collect node).eval f w with ⟨⟨error | ⟨⟩, f'⟩, w'⟩
    · rw [heval] at hgranted'
      exact hgranted'
    · rw [heval] at hgranted' hfollows
      obtain ⟨v', hstep, hsimulates'⟩ := hfollows.of_ok
      refine ⟨v', Graph.valuationAfter_concat hv hstep, hsimulates', ?_, hgranted'⟩
      rw [Valuation.results_step hparameter hresult hstep, hcount, List.filter_append, List.filter_cons_of_neg hresult,
        List.filter_nil, List.append_nil]

/-! ### Calls -/

/-- The zeros from which a variable starts are like an input, or are described. -/
theorem grants_of_startsFrom [HalfConversion] (hfits : e.graph.FitsOn a kind (inputs.map (·.value w.store)) vars)
    (hcheck : checkOperands e.graph slots inputs = .ok ()) {dtype : DType} {shape : Shape}
    (hstarts : StartsFrom e.graph inputs dtype shape) : a.grants ⟨dtype, shape⟩ = true := by
  obtain ⟨first, desc, hdesc, rfl, hshape⟩ := hstarts
  obtain ⟨hlength, _, hinstances⟩ := (checkOperands_eq_ok w.store).mp hcheck
  have hinitial := initialValue_eq w.store hlength hinstances first
  rw [hdesc, Option.bind_some, hshape, Option.map_some] at hinitial
  unfold Graph.initialValue at hinitial
  cases hposition : e.graph.parameterHandles.idxOf? first with
  | none =>
      simp only [hposition] at hinitial
      obtain ⟨described, hget, hzeros⟩ := Option.bind_eq_some_iff.mp hinitial
      obtain ⟨known, hknown, hzeros⟩ := Option.bind_eq_some_iff.mp hzeros
      injection Option.some.inj hzeros with hdtype hshapes
      obtain rfl := Option.some.inj hshapes
      rw [← hdtype]
      exact hfits.described described (List.mem_of_getElem? hget) known hknown
  | some position =>
      simp only [hposition, List.getElem?_map] at hinitial
      obtain ⟨value, hget, hzeros⟩ := Option.bind_eq_some_iff.mp hinitial
      obtain ⟨t, ht, rfl⟩ := Option.map_eq_some_iff.mp hget
      obtain ⟨known, hknown, hzeros⟩ := Option.bind_eq_some_iff.mp hzeros
      injection Option.some.inj hzeros with hdtype hshapes
      obtain rfl := Option.some.inj hshapes
      have hi : position < e.graph.parameterHandles.length := (List.idxOf?_eq_some_iff.mp hposition).1
      obtain ⟨hi', rfl⟩ := List.getElem?_eq_some_iff.mp ht
      have henv : ((bindInputs e.graph inputs).get? e.graph.parameterHandles[position]).map (·.value w.store) = _ :=
        get?_bindInputs (·.value w.store)
          (e.graph.nodes.foldl (e.graph.withZeros (inputs.map (·.value w.store))) vars) _
      rw [get?_bindInputs_getElem hlength hi hi'] at henv
      rw [← hdtype]
      exact hfits.admits (List.nil_append _).symm rfl (e.graph.parameterHandles_lt (List.getElem_mem hi)) henv.symm
        known hknown

/-- A call is granted all that it allocates, whether it completes or fails. -/
theorem granted_execute [HalfConversion] (hkind : e.IsReference kind) (hV : e.Tracks V kind) (hw : w.Sound)
    {c : Context} (hhas : ∀ id, V id → w.variables.Has (c.variables.getD e.variables))
    (hcancel : w.cancelRequested e.cancel = false) (hslots : w.store.Holds slots) (hinputs : w.store.Holds inputs)
    (hseparate : Separate V (c.variables.getD e.variables) slots inputs w)
    (hvars : ∀ id, V id → w.valuesOf (c.variables.getD e.variables) id = vars id) (hgranted : w.store.Granted a)
    (hfits : e.graph.FitsOn a kind (inputs.map (·.value w.store)) vars) (collect : Bool) :
    ((e.execute slots inputs c collect).outcome w).2.store.Granted a := by
  change ((e.executeNodes e.graph.nodes slots inputs c collect).outcome w).2.store.Granted a
  rcases hcheck : checkOperands e.graph slots inputs with error | ⟨⟩
  · obtain ⟨w₁, htake, hstore₁, -⟩ := outcome_takeCancel hw hcancel
    rw [outcome_executeNodes_rejected hcancel hcheck, htake]
    exact hstore₁ ▸ hgranted
  obtain ⟨w₁, w₂, htake, hstore₁, hinit, hsimulates⟩ :=
    exists_started hw hhas hcancel hslots hinputs hcheck hseparate hvars
  generalize hr : c.variables.getD e.variables = r at *
  obtain ⟨w₂', hinit', hgranted₂⟩ := initVariables_induction (P := fun w => w.store.Granted a) (r := r) e.graph inputs
    (fun w' id dtype shape hstarts hw' =>
      World.granted_valueOrInit hw' (grants_of_startsFrom hfits hcheck hstarts) r id)
    (show w₁.store.Granted a from hstore₁ ▸ hgranted)
  obtain rfl : w₂' = w₂ := congrArg Prod.snd (hinit'.symm.trans hinit)
  have hstarted : e.startedWorld inputs c w = w₂' := by rw [startedWorld, htake, hr, hinit]
  rw [outcome_executeNodes hcancel hcheck]
  simp only [hstarted]
  have hnodes : e.graph.nodes = [] ++ e.graph.nodes ++ [] := (List.append_nil _).symm
  have hends := (invariant_affords hkind hV (c := e.contextFor c) (congrArg some hr) hfits collect).ensures_runNodes
    hnodes (e.openedFrame slots inputs w₂') (e.openedWorld w₂')
    ⟨_, rfl, hsimulates, by rw [(e.graph.results_initialValuation _ _).1]; rfl, by rwa [store_openedWorld]⟩
  generalize (e.runNodes (e.contextFor c) collect e.graph.nodes).eval (e.openedFrame slots inputs w₂')
    (e.openedWorld w₂') = o at hends ⊢
  obtain ⟨⟨error | status, f⟩, w₃⟩ := o
  all_goals
    obtain ⟨w₄, hclose, hstore₄, _⟩ := outcome_closeFrame (e := e) f w₃
    simp only [hclose]
    refine Store.Granted.of_eq ?_ (congrArg Store.allocations hstore₄)
  · exact hends
  · rcases hends with ⟨-, _, _, _, _, hgranted⟩ | ⟨-, hgranted⟩ <;> exact hgranted

/-- An executor computes what its graph denotes, on every machine and whatever has happened before.  A call that the
machine carries out completes exactly when the graph denotes something for the inputs and variables at its start, and
then every slot and every variable has the value that is denoted; and it carries out every call that it has room
for. -/
theorem execute_refines [HalfConversion] (hkind : e.IsReference kind) (hw : e.Reached w)
    (hcancel : w.cancelRequested e.cancel = false) {c : Context}
    (hvariables : ∀ r, c.variables = some r → w.variables.Has r) (hslots : w.store.Holds slots)
    (hinputs : w.store.Holds inputs)
    (hseparate : Separate (fun _ => True) (c.variables.getD e.variables) slots inputs w) (collect : Bool)
    (a : Allocator) :
    (∀ o w', (e.execute slots inputs c collect).outcomeOn a w = some (o, w') →
      match e.graph.denote kind slots.length (inputs.map (·.value w.store))
          (w.valuesOf (c.variables.getD e.variables)) with
      | some (results, after) => ∃ slots', o = .ok (.completed, slots') ∧ slots'.map (·.value w'.store) = results ∧
          w'.valuesOf (c.variables.getD e.variables) = after
      | none => ∃ error, o = .error error) ∧
    (w.store.Granted a → e.graph.FitsOn a kind (inputs.map (·.value w.store))
        (w.valuesOf (c.variables.getD e.variables)) →
      ((e.execute slots inputs c collect).outcomeOn a w).isSome = true) := by
  obtain ⟨hsound, hhas⟩ := hw.sound hkind.keepsNodes
  have hhas' : w.variables.Has (c.variables.getD e.variables) := by
    cases hc : c.variables with
    | none => exact hhas
    | some r => exact hvariables r hc
  have htracks : e.Tracks (fun _ => True) kind := fun _ _ _ _ _ _ => trivial
  have hfollows := execute_follows hkind htracks hsound (fun _ _ => hhas') hcancel hslots hinputs hseparate
    (fun _ _ => rfl) collect
  constructor
  · intro o w' ho
    rw [Run.outcome_of_outcomeOn ho] at hfollows
    rcases hdenoted : e.graph.denote kind slots.length (inputs.map (·.value w.store))
      (w.valuesOf (c.variables.getD e.variables)) with _ | ⟨results, after⟩
    all_goals simp only [hdenoted] at hfollows ⊢
    · obtain ⟨error, w'', houtcome⟩ := hfollows
      exact ⟨error, congrArg Prod.fst houtcome⟩
    · obtain ⟨slots', w'', houtcome, hresults, hafter⟩ := hfollows
      obtain ⟨rfl, rfl⟩ := Prod.mk.inj houtcome
      exact ⟨slots', rfl, hresults, funext fun id => hafter id trivial⟩
  · intro hgranted hfits
    rw [Run.outcomeOn_eq, if_pos (granted_execute hkind htracks hsound (fun _ _ => hhas') hcancel hslots hinputs
      hseparate (fun _ _ => rfl) hgranted hfits collect)]
    rfl

/-- A graph that doubles its input and hands on the positive parts. -/
def doubler : Graph (Evaluator Unit) where
  tensors := List.replicate 4 ⟨.u8, [.fixed 2]⟩
  nodes := [⟨⟨0, .parameter, none, [], [0], none⟩, none⟩, ⟨⟨1, .add, none, [0, 0], [1], none⟩, none⟩,
    ⟨⟨2, .relu, none, [1], [2], none⟩, none⟩, ⟨⟨3, .result, none, [2], [3], none⟩, none⟩]
  numbered := rfl
  checked := rfl

/-- The operators of its nodes. -/
def doublerKind (node : Node (Evaluator Unit)) : ReferenceOp := if node.op = .add then .add else .relu

/-- An executor for it that uses intermediates again, and the world in which it is created. -/
def doublerCreated : Executor Unit × World Unit := create doubler .reference ⟨none, 1, true⟩ (.empty ())

/-- The world in which the caller has made an input and an open slot. -/
def doublerFilled : World Unit :=
  { doublerCreated.2 with store := ((doublerCreated.2.store.alloc #[1, 2]).2.alloc #[]).2 }

/-- The world after a first call, when the caller has written into the tensor that it gave as input. -/
def doublerWritten : World Unit :=
  let called := ((doublerCreated.1.execute [⟨.u8, none, ⟨1⟩⟩] [⟨.u8, some [2], ⟨0⟩⟩] .empty false).outcome
    doublerFilled).2
  { called with store := called.store.write ⟨0⟩ #[3, 4] }

theorem isReference_doubler : doublerCreated.1.IsReference doublerKind :=
  isReference_of_registry rfl (by decide)

theorem reached_doublerWritten : doublerCreated.1.Reached doublerWritten := by
  have hkeeps := isReference_doubler.keepsNodes
  have hcreated : doublerCreated.1.Reached doublerCreated.2 := .created (World.sound_empty ()) rfl
  have hinput := hcreated.elsewhere (elsewhere_alloc (hcreated.sound hkeeps).1 #[1, 2])
  have hfilled : doublerCreated.1.Reached doublerFilled :=
    hinput.elsewhere (elsewhere_alloc (hinput.sound hkeeps).1 #[])
  have hcalled := hfilled.called 4 (show doublerFilled.store.Holds [⟨.u8, none, ⟨1⟩⟩] by decide +kernel)
    (show doublerFilled.store.Holds [⟨.u8, some [2], ⟨0⟩⟩] by decide +kernel) .empty false
  exact hcalled.elsewhere (elsewhere_write (hcalled.sound hkeeps).1 ⟨0⟩ #[3, 4])

/-- The second call is handed the slot of the first one, and doubles into the tensor that it did then: only the
positive parts need a new one, since the slot lies in the one that the executor remembers. -/
theorem execute_refines_second_call : ∃ slots w,
    (doublerCreated.1.execute [⟨.u8, some [2], ⟨3⟩⟩] [⟨.u8, some [2], ⟨0⟩⟩] .empty false).outcomeOn .checked
      doublerWritten = some (.ok (.completed, slots), w) ∧
    slots.map (·.value w.store) = [⟨.u8, some [2], #[6, 8]⟩] ∧
    w.store.allocations = ⟨.u8, [2]⟩ :: doublerWritten.store.allocations := by
  have hslots : doublerWritten.store.Holds [⟨.u8, some [2], ⟨3⟩⟩] := by decide +kernel
  have hinputs : doublerWritten.store.Holds [⟨.u8, some [2], ⟨0⟩⟩] := by decide +kernel
  have hseparate : Separate (fun _ => True) doublerCreated.1.variables [⟨.u8, some [2], ⟨3⟩⟩] [⟨.u8, some [2], ⟨0⟩⟩]
      doublerWritten := by
    refine ⟨by decide, by decide, fun t ht id u _ hu => ?_⟩
    have hnone : (doublerWritten.variables.get doublerCreated.1.variables).values = [] := by decide +kernel
    exact absurd (hnone ▸ Variables.mem_values hu) List.not_mem_nil
  obtain ⟨hcarried, hfits⟩ := execute_refines isReference_doubler reached_doublerWritten (by decide +kernel)
    (c := .empty) nofun hslots hinputs hseparate false .checked
  obtain ⟨⟨o, w⟩, houtcome⟩ := Option.isSome_iff_exists.mp (hfits (by decide +kernel) (by decide +kernel))
  have hresults : (doublerCreated.1.graph.denote doublerKind 1
      ([⟨.u8, some [2], ⟨0⟩⟩].map fun t : Tensor => t.value doublerWritten.store)
      (doublerWritten.valuesOf doublerCreated.1.variables)).map (·.1) = some [⟨.u8, some [2], #[6, 8]⟩] := by
    decide +kernel
  obtain ⟨⟨results, after⟩, hdenote, rfl⟩ := Option.map_eq_some_iff.mp hresults
  have hmatched := hcarried o w houtcome
  simp only [show doublerCreated.1.graph.denote doublerKind [(⟨.u8, some [2], ⟨3⟩⟩ : Tensor)].length
    ([(⟨.u8, some [2], ⟨0⟩⟩ : Tensor)].map fun t => t.value doublerWritten.store)
    (doublerWritten.valuesOf (Context.empty.variables.getD doublerCreated.1.variables)) = some (_, after)
    from hdenote] at hmatched
  obtain ⟨slots, rfl, hvalues, -⟩ := hmatched
  refine ⟨slots, w, houtcome, hvalues, ?_⟩
  have hallocations : ((doublerCreated.1.execute [⟨.u8, some [2], ⟨3⟩⟩] [⟨.u8, some [2], ⟨0⟩⟩] .empty false).outcome
      doublerWritten).2.store.allocations = ⟨.u8, [2]⟩ :: doublerWritten.store.allocations := by
    decide +kernel
  rwa [Run.outcome_of_outcomeOn houtcome] at hallocations

/-! ### Room that is missing -/

/-- A graph that squares its input, and describes the squares to be as many as no machine can hold. -/
def hoarder : Graph (Evaluator Unit) where
  tensors := [⟨.u8, [.fixed 1]⟩, ⟨.u8, [.fixed (2 ^ 63)]⟩, ⟨.u8, [.fixed (2 ^ 63)]⟩]
  nodes := [⟨⟨0, .parameter, none, [], [0], none⟩, none⟩, ⟨⟨1, .multiply, none, [0, 0], [1], none⟩, none⟩,
    ⟨⟨2, .result, none, [1], [2], none⟩, none⟩]
  numbered := rfl
  checked := rfl

/-- An executor for it, and the world in which it is created. -/
def hoarderCreated : Executor Unit × World Unit := create hoarder .reference ⟨none, 1, true⟩ (.empty ())

/-- The world in which the caller has made an input and an open slot. -/
def hoarderFilled : World Unit :=
  { hoarderCreated.2 with store := ((hoarderCreated.2.store.alloc #[5]).2.alloc #[]).2 }

theorem isReference_hoarder : hoarderCreated.1.IsReference fun _ => .multiply :=
  isReference_of_registry rfl (by decide)

theorem reached_hoarderFilled : hoarderCreated.1.Reached hoarderFilled := by
  have hkeeps := isReference_hoarder.keepsNodes
  have hcreated : hoarderCreated.1.Reached hoarderCreated.2 := .created (World.sound_empty ()) rfl
  have hinput := hcreated.elsewhere (elsewhere_alloc (hcreated.sound hkeeps).1 #[5])
  exact hinput.elsewhere (elsewhere_alloc (hinput.sound hkeeps).1 #[])

/-- The graph denotes something, but no machine carries out the call. -/
theorem execute_exhausted :
    hoarderCreated.1.IsReference (fun _ => .multiply) ∧ hoarderCreated.1.Reached hoarderFilled ∧
    hoarderFilled.cancelRequested hoarderCreated.1.cancel = false ∧
    hoarderFilled.store.Holds [⟨.u8, none, ⟨1⟩⟩] ∧ hoarderFilled.store.Holds [⟨.u8, some [1], ⟨0⟩⟩] ∧
    Separate (fun _ => True) hoarderCreated.1.variables [⟨.u8, none, ⟨1⟩⟩] [⟨.u8, some [1], ⟨0⟩⟩] hoarderFilled ∧
    (hoarderCreated.1.graph.denote (fun _ => .multiply) 1
      [(⟨.u8, some [1], ⟨0⟩⟩ : Tensor).value hoarderFilled.store]
      (hoarderFilled.valuesOf hoarderCreated.1.variables)).map (·.1) = some [⟨.u8, some [1], #[25]⟩] ∧
    ∀ a, (hoarderCreated.1.execute [⟨.u8, none, ⟨1⟩⟩] [⟨.u8, some [1], ⟨0⟩⟩] .empty false).outcomeOn a hoarderFilled
      = none := by
  refine ⟨isReference_hoarder, reached_hoarderFilled, by decide +kernel, by decide +kernel, by decide +kernel, ?_,
    by decide +kernel, fun a => ?_⟩
  · refine ⟨by decide, by decide, fun t ht id u _ hu => ?_⟩
    have hnone : (hoarderFilled.variables.get hoarderCreated.1.variables).values = [] := by decide +kernel
    exact absurd (hnone ▸ Variables.mem_values hu) List.not_mem_nil
  · have hmem : (⟨.u8, [2 ^ 63]⟩ : Allocation) ∈ ((hoarderCreated.1.execute [⟨.u8, none, ⟨1⟩⟩]
        [⟨.u8, some [1], ⟨0⟩⟩] .empty false).outcome hoarderFilled).2.store.allocations := by
      decide +kernel
    exact Run.outcomeOn_eq_none (Store.not_granted hmem (by decide) a)

end Executor

end TensorGraph
