import TensorGraph.DType.Half
import TensorGraph.Proofs.Simulation

/-! # Calls compute what graphs denote

A call of an executor whose nodes are reference operators completes exactly when the graph denotes
something for the values of its inputs and variables, and the slots and the variables then have the
values that are denoted (`execute_follows`).  Which tensors were handed out again, and what the executor
was called with before, makes no difference. -/

namespace TensorGraph

variable {σ : Type}

namespace Executor

variable {g : Graph (Evaluator σ)} {e : Executor σ} {V : VariableId → Prop} {r : Ref Variables}
  {w w' : World σ} {slots inputs : List Tensor}

/-! ### Operands -/

theorem checkTensor_eq_ok {desc : TensorDesc} {t : Tensor} (s : Store) :
    checkTensor desc t = .ok () ↔ (t.value s).IsInstance desc := by
  unfold checkTensor Value.IsInstance
  by_cases hdtype : t.dtype = desc.dtype
  · cases hshape : t.shape with
    | none => simp [hdtype, hshape, Tensor.hasShape]
    | some shape => simp [hdtype, hshape, Tensor.hasShape, Tensor.extents]
  · simp [hdtype]

theorem forM_checkTensor_eq_ok (descs : List TensorDesc) (s : Store) :
    (descs.zip inputs).forM (fun (desc, t) => checkTensor desc t) = .ok () ↔
      ∀ p ∈ descs.zip (inputs.map (·.value s)), p.2.IsInstance p.1 := by
  rw [forM_eq_ok, List.zip_map_right]
  simp only [List.forall_mem_map, checkTensor_eq_ok s]
  rfl

theorem checkOperands_eq_ok (s : Store) :
    checkOperands g slots inputs = .ok () ↔ inputs.length = g.parameters.length ∧
      slots.length = g.results.length ∧
      ∀ p ∈ g.parameterDescs.zip (inputs.map (·.value s)), p.2.IsInstance p.1 := by
  unfold checkOperands
  rw [← forM_checkTensor_eq_ok]
  by_cases hinputs : inputs.length = g.parameters.length
  · by_cases hslots : slots.length = g.results.length
    · simp [hinputs, hslots]
    · simp [hinputs, hslots, bind_eq_ok]
  · simp [hinputs, bind_eq_ok]

/-- An accepted input is an instance of the description of its parameter. -/
theorem exists_desc_of_checkOperands (hcheck : checkOperands g slots inputs = .ok ()) (s : Store) {t : Tensor}
    (ht : t ∈ inputs) : ∃ desc ∈ g.tensors, (t.value s).IsInstance desc := by
  obtain ⟨hlength, _, hinstances⟩ := (checkOperands_eq_ok s).mp hcheck
  obtain ⟨n, hn, rfl⟩ := List.mem_iff_getElem.mp ht
  have hhandle : n < g.parameterHandles.length := by rw [g.length_parameterHandles]; omega
  have hlt := g.parameterHandles_lt (List.getElem_mem hhandle)
  refine ⟨g.tensors[g.parameterHandles[n]], List.getElem_mem hlt,
    hinstances (_, _) (List.mem_iff_getElem?.mpr ⟨n, List.getElem?_zip_eq_some.mpr ⟨?_, ?_⟩⟩)⟩
  · rw [g.parameterDescs_getElem?, List.getElem?_eq_getElem hhandle, Option.bind_some,
      List.getElem?_eq_getElem hlt]
  · rw [List.getElem?_map, List.getElem?_eq_getElem hn]
    rfl

/-! ### Variables -/

theorem getElem?_refineDescs (descs : List TensorDesc) (inputs : List Tensor) (i : Nat) {d : TensorDesc}
    {t : Tensor} (hd : descs[i]? = some d) (ht : inputs[i]? = some t) :
    (refineDescs descs inputs)[i]? = some ((t.shape.map d.withShape).getD d) := by
  induction descs generalizing inputs i with
  | nil => cases hd
  | cons d' descs ih =>
      cases inputs with
      | nil => cases ht
      | cons t' inputs =>
          cases i with
          | zero =>
              obtain rfl := Option.some.inj hd
              obtain rfl := Option.some.inj ht
              rfl
          | succ i => exact ih inputs i hd ht

/-- The description from which a variable starts gives the zeros from which its value starts. -/
theorem initialValue_eq (s : Store) (hlength : inputs.length = g.parameters.length)
    (hinputs : ∀ p ∈ g.parameterDescs.zip (inputs.map (·.value s)), p.2.IsInstance p.1)
    (first : Handle) :
    g.initialValue (inputs.map (·.value s)) first = (initialDesc g inputs first).bind fun desc =>
      desc.shape.toShape?.map (Value.zeros desc.dtype) := by
  unfold Graph.initialValue initialDesc
  cases hposition : g.parameterHandles.idxOf? first with
  | none =>
      simp only
      cases g.tensors[first]? with
      | none => rfl
      | some desc =>
          simp only [Option.bind_eq_bind, Option.bind_some]
          cases desc.shape.toShape? <;> rfl
  | some position =>
      have hlt : position < g.parameterHandles.length := (List.idxOf?_eq_some_iff.mp hposition).1
      have hlt' : position < inputs.length := by rw [hlength, ← g.length_parameterHandles]; exact hlt
      have ht : inputs[position]? = some inputs[position] := List.getElem?_eq_getElem hlt'
      have hhandle := g.parameterHandles_lt (List.getElem_mem hlt)
      obtain ⟨d, hd⟩ : ∃ d, g.parameterDescs[position]? = some d :=
        ⟨g.tensors[g.parameterHandles[position]], by
          rw [g.parameterDescs_getElem?, List.getElem?_eq_getElem hlt, Option.bind_some,
            List.getElem?_eq_getElem hhandle]⟩
      have hinstance : (inputs[position].value s).IsInstance d := by
        refine hinputs (d, inputs[position].value s) (List.mem_iff_getElem?.mpr ⟨position, ?_⟩)
        rw [List.getElem?_zip_eq_some, List.getElem?_map, ht]
        exact ⟨hd, rfl⟩
      obtain ⟨hdtype, hshape⟩ := hinstance
      obtain ⟨shape, hshape⟩ : ∃ shape, inputs[position].shape = some shape := by
        cases h : inputs[position].shape with
        | none =>
            rw [Tensor.shape_value, h] at hshape
            cases hshape
        | some shape => exact ⟨shape, rfl⟩
      rw [Tensor.dtype_value] at hdtype
      simp only [getElem?_refineDescs _ _ _ hd ht, List.getElem?_map, ht, hshape]
      simp [TensorDesc.withShape, PartialShape.toShape?_ofShape, hshape, hdtype]

/-- Giving a variable zeros gives its value zeros. -/
theorem exists_initialized (hhas : ∀ id, V id → w.variables.Has r) (hw : w.Sound)
    {vars : VariableValues} (hvars : ∀ id, V id → w.valuesOf r id = vars id) (id : VariableId)
    (dtype : DType) (shape : Shape) :
    ∃ w', (discard (Stateful.valueOrInit r id (Tensor.zeros dtype shape)) : Run σ Unit).outcome w
        = (.ok (), w') ∧ w.Reaches (fun _ => False) w' ∧ ∀ id', V id' → w'.valuesOf r id'
          = Function.update vars id ((vars id).or (some (.zeros dtype shape))) id' := by
  refine ⟨(w.valueOrInit r id (Tensor.zeros dtype shape)).2, ?_,
    (World.Reaches.refl _ w).valueOrInit r id dtype shape, fun id' hid => ?_⟩
  · rw [Run.outcome_discard, Stateful.outcome_valueOrInit]
    rfl
  · rw [World.valuesOf_valueOrInit (hhas id' hid) id dtype shape (hw.values r id')]
    by_cases hne : id' = id
    · subst hne
      rw [Function.update_self, Function.update_self, ← hvars id' hid]
      cases w.valuesOf r id' <;> rfl
    · rw [Function.update_of_ne hne, Function.update_of_ne hne, hvars id' hid]

/-- The variable of a node starts as the valuation's does. -/
theorem exists_initVariable (s : Store) (hlength : inputs.length = g.parameters.length)
    (hinputs : ∀ p ∈ g.parameterDescs.zip (inputs.map (·.value s)), p.2.IsInstance p.1)
    (hhas : ∀ id, V id → w.variables.Has r) (hw : w.Sound) {vars : VariableValues}
    (hvars : ∀ id, V id → w.valuesOf r id = vars id) (node : Node (Evaluator σ)) :
    ∃ w', (initVariable g r inputs node).outcome w = (.ok (), w') ∧
      w.Reaches (fun _ => False) w' ∧
      ∀ id, V id → w'.valuesOf r id = g.withZeros (inputs.map (·.value s)) vars node id := by
  have hnothing : ∀ vars', vars' = vars → ∃ w', (pure () : Run σ Unit).outcome w = (.ok (), w') ∧
      w.Reaches (fun _ => False) w' ∧ ∀ id, V id → w'.valuesOf r id = vars' id := by
    rintro _ rfl
    exact ⟨w, rfl, .refl _ w, hvars⟩
  have hzero := initialValue_eq s hlength hinputs
  unfold initVariable Graph.withZeros
  cases hid : node.varId with
  | none => exact hnothing _ rfl
  | some id =>
      cases hfirst : node.inputs with
      | nil => exact hnothing _ rfl
      | cons first rest =>
          simp only [hzero first]
          have hsame : Function.update vars id ((vars id).or none) = vars := by
            rw [Option.or_none, Function.update_eq_self]
          cases hdesc : initialDesc g inputs first with
          | none => exact hnothing _ hsame
          | some desc =>
              simp only [Option.bind_some]
              cases hshape : desc.shape.toShape? with
              | none => exact hnothing _ hsame
              | some shape => exact exists_initialized hhas hw hvars id desc.dtype shape

theorem exists_initVariables (s : Store) (hlength : inputs.length = g.parameters.length)
    (hinputs : ∀ p ∈ g.parameterDescs.zip (inputs.map (·.value s)), p.2.IsInstance p.1)
    (hhas : ∀ id, V id → w.variables.Has r) (hw : w.Sound) {vars : VariableValues}
    (hvars : ∀ id, V id → w.valuesOf r id = vars id) :
    ∃ w', (initVariables g r inputs).outcome w = (.ok (), w') ∧ w.Reaches (fun _ => False) w' ∧
      ∀ id, V id →
        w'.valuesOf r id = g.nodes.foldl (g.withZeros (inputs.map (·.value s))) vars id := by
  unfold initVariables
  generalize g.nodes = nodes
  induction nodes generalizing w vars with
  | nil => exact ⟨w, rfl, .refl _ w, hvars⟩
  | cons node nodes ih =>
      obtain ⟨w', houtcome, hreaches, hvars'⟩ :=
        exists_initVariable s hlength hinputs hhas hw hvars node
      obtain ⟨w'', houtcome', hreaches', hvars''⟩ :=
        ih (fun id hid => hreaches.has r (hhas id hid)) (hreaches.sound hw) hvars'
      refine ⟨w'', ?_, hreaches.trans hreaches' fun _ _ h => h, hvars''⟩
      exact (Run.outcome_bind_ok houtcome _).trans houtcome'

/-! ### Frames -/

/-- Tensors and what a function makes of them are bound alike. -/
theorem get?_foldl_bind {α S : Type} (φ : Tensor → α) (pairs : List (Handle × Tensor)) {b : Bindings}
    {v : Valuation α S} (hlt : ∀ p ∈ pairs, p.1 < b.length) (henv : ∀ k, (b.get? k).map φ = v.env k)
    (k : Handle) : ((pairs.foldl (fun b (h, t) => b.bind h t) b).get? k).map φ
      = ((pairs.map fun p => (p.1, φ p.2)).foldl (fun v (h, a) => v.bind [h] a) v).env k := by
  induction pairs generalizing b v with
  | nil => exact henv k
  | cons p pairs ih =>
      obtain ⟨hp, hlt⟩ := List.forall_mem_cons.mp hlt
      have hlength : (b.bind p.1 p.2).length = b.length := List.length_set ..
      refine ih (b := b.bind p.1 p.2) (fun q hq => hlength.symm ▸ hlt q hq) fun j => ?_
      rw [Bindings.get?_bind p.2 hp]
      by_cases hj : j = p.1
      · simp [Valuation.bind, hj]
      · simpa [Valuation.bind, hj] using henv j

/-- The bindings of the parameters are those of the initial environment. -/
theorem get?_bindInputs {α S : Type} (φ : Tensor → α) (state : S) (k : Handle) :
    ((bindInputs g inputs).get? k).map φ = (g.initialValuation (inputs.map φ) state).env k := by
  have hpairs : (g.parameterHandles.zip inputs).map (fun p => (p.1, φ p.2))
      = g.parameterHandles.zip (inputs.map φ) := by
    rw [List.zip_map_right]
    rfl
  have hempty : (Bindings.empty g.tensors.length).length = g.tensors.length := List.length_replicate
  have hinitial := get?_foldl_bind φ (g.parameterHandles.zip inputs)
    (b := .empty g.tensors.length) (v := ⟨fun _ => none, state, []⟩)
    (fun p hp => hempty.symm ▸ g.parameterHandles_lt (List.of_mem_zip hp).1)
    (fun k => by
      simp only [Bindings.get?, Bindings.empty, List.getElem?_replicate]
      split <;> rfl) k
  rw [hpairs] at hinitial
  exact hinitial

theorem length_foldl_bind (pairs : List (Handle × Tensor)) (b : Bindings) :
    (pairs.foldl (fun b (h, t) => b.bind h t) b).length = b.length := by
  induction pairs generalizing b with
  | nil => rfl
  | cons p pairs ih => exact (ih _).trans (List.length_set ..)

theorem length_bindInputs (g : Graph (Evaluator σ)) (inputs : List Tensor) :
    (bindInputs g inputs).length = g.tensors.length :=
  (length_foldl_bind _ _).trans List.length_replicate

/-- No slot shares its buffer with an input, with another slot, or with a variable that is followed. -/
structure Separate (V : VariableId → Prop) (r : Ref Variables) (slots inputs : List Tensor)
    (w : World σ) : Prop where
  input_ne : ∀ t ∈ slots, ∀ u ∈ inputs, u.buffer ≠ t.buffer
  slot_ne : (slots.map (·.buffer)).Nodup
  variable_ne : ∀ t ∈ slots, ∀ id u, V id → (w.variables.get r).get? id = some u →
    u.buffer ≠ t.buffer

/-- Variables only come to refer to new tensors. -/
theorem Separate.reaches (h : Separate V r slots inputs w) {w' : World σ}
    (hreaches : w.Reaches (fun _ => False) w') (hslots : w.store.Holds slots) :
    Separate V r slots inputs w' := by
  refine ⟨h.input_ne, h.slot_ne, fun t ht id u hid hu => ?_⟩
  rcases hreaches.values r id u hu with hold | hnew
  · exact h.variable_ne t ht id u hid hold
  · exact hnew.ne_buffer (hslots t ht)

theorem simulates_openedFrame (hw : w.Sound) (hhas : ∀ id, V id → w.variables.Has r)
    (hcancel : w.cancelRequested e.cancel = false) (hslots : w.store.Holds slots)
    (hinputs : w.store.Holds inputs) (hplaces : slots.length = e.graph.results.length)
    (hseparate : Separate V r slots inputs w) {state : VariableValues}
    (hstate : ∀ id, V id → w.valuesOf r id = state id) :
    e.Simulates V r (e.openedFrame slots inputs w) (e.openedWorld w)
      (e.graph.initialValuation (inputs.map (·.value w.store)) state) := by
  obtain ⟨hresults, hinitial⟩ :=
    e.graph.results_initialValuation (inputs.map (·.value w.store)) state
  have hstore := store_openedWorld (e := e) w
  have hvariables := variables_openedWorld (e := e) w
  refine ⟨sound_openedWorld hw, hstore ▸ sound_openedFrame hw hslots hinputs, ?_, ?_, hplaces, ?_, ?_,
    ?_, ?_, ?_, ?_, ?_⟩
  · rw [hvariables]
    exact hhas
  · exact length_bindInputs e.graph inputs
  · rw [hstore]
    exact get?_bindInputs (·.value w.store) state
  · intro id hid
    rw [hinitial, ← hstate id hid, World.valuesOf_congr hstore hvariables]
  · intro j t _ hj
    rw [hresults] at hj
    exact absurd hj (Nat.not_lt_zero j)
  · intro j t ht _ u hu
    exact hseparate.input_ne t (List.mem_of_getElem? ht) u (tensors_bindInputs_subset e.graph inputs hu)
  · intro j t ht _ id u hid hu
    rw [hvariables] at hu
    exact hseparate.variable_ne t (List.mem_of_getElem? ht) id u hid hu
  · intro j t ht _ k u hk hu
    exact Tensor.buffer_ne_of_nodup hseparate.slot_ne hk ht hu
  · unfold openedWorld
    split <;> exact hcancel

/-- Variables are initialized, and the nodes start from the initial environment. -/
theorem exists_opened (hw : w.Sound) (hhas : ∀ id, V id → w.variables.Has r)
    (hcancel : w.cancelRequested e.cancel = false) (hslots : w.store.Holds slots)
    (hinputs : w.store.Holds inputs) (hcheck : checkOperands e.graph slots inputs = .ok ())
    (hseparate : Separate V r slots inputs w) {vars : VariableValues}
    (hvars : ∀ id, V id → w.valuesOf r id = vars id) :
    ∃ w', (initVariables e.graph r inputs).outcome w = (.ok (), w') ∧
      e.Simulates V r (e.openedFrame slots inputs w') (e.openedWorld w')
        (e.graph.initialValuation (inputs.map (·.value w.store))
          (e.graph.nodes.foldl (e.graph.withZeros (inputs.map (·.value w.store))) vars)) := by
  obtain ⟨hlength, hplaces, hinstances⟩ := (checkOperands_eq_ok w.store).mp hcheck
  obtain ⟨w', hinit, hreaches, hvars'⟩ :=
    exists_initVariables w.store hlength hinstances hhas hw hvars
  have hmap : inputs.map (·.value w'.store) = inputs.map (·.value w.store) :=
    List.map_congr_left fun t ht => Tensor.value_within hreaches.store (hinputs t ht) not_false
  have hcancel' : w'.cancelRequested e.cancel = false := by
    obtain ⟨_, _, rfl⟩ := hreaches.same
    exact hcancel
  refine ⟨w', hinit, ?_⟩
  rw [← hmap]
  refine simulates_openedFrame (hreaches.sound hw) (fun id hid => hreaches.has r (hhas id hid)) hcancel'
    (hreaches.grows.holds hslots) (hreaches.grows.holds hinputs) hplaces
    (hseparate.reaches hreaches hslots) ?_
  rw [hmap]
  exact hvars'

/-- A call that is not cancelled and has the operands of its graph leaves the tensors alone until the nodes start. -/
theorem exists_started (hw : w.Sound) {c : Context}
    (hhas : ∀ id, V id → w.variables.Has (c.variables.getD e.variables))
    (hcancel : w.cancelRequested e.cancel = false) (hslots : w.store.Holds slots)
    (hinputs : w.store.Holds inputs) (hcheck : checkOperands e.graph slots inputs = .ok ())
    (hseparate : Separate V (c.variables.getD e.variables) slots inputs w) {vars : VariableValues}
    (hvars : ∀ id, V id → w.valuesOf (c.variables.getD e.variables) id = vars id) :
    ∃ w₁ w₂, (Run.takeCancel e.cancel : Run σ Bool).outcome w = (.ok false, w₁) ∧ w₁.store = w.store ∧
      (initVariables e.graph (c.variables.getD e.variables) inputs).outcome w₁ = (.ok (), w₂) ∧
      e.Simulates V (c.variables.getD e.variables) (e.openedFrame slots inputs w₂) (e.openedWorld w₂)
        (e.graph.initialValuation (inputs.map (·.value w.store))
          (e.graph.nodes.foldl (e.graph.withZeros (inputs.map (·.value w.store))) vars)) := by
  obtain ⟨w₁, htake, hstore₁, hvars₁, hw₁, hcancel₁⟩ := outcome_takeCancel hw hcancel
  have hvalues₁ : ∀ id, V id → w₁.valuesOf (c.variables.getD e.variables) id = vars id := fun id hid => by
    rw [← hvars id hid, World.valuesOf_congr hstore₁ hvars₁]
  have hseparate₁ : Separate V (c.variables.getD e.variables) slots inputs w₁ :=
    ⟨hseparate.input_ne, hseparate.slot_ne, hvars₁ ▸ hseparate.variable_ne⟩
  obtain ⟨w₂, hinit, hsimulates⟩ := exists_opened hw₁ (hvars₁ ▸ hhas) hcancel₁ (hstore₁ ▸ hslots)
    (hstore₁ ▸ hinputs) hcheck hseparate₁ hvalues₁
  rw [hstore₁] at hsimulates
  exact ⟨w₁, w₂, htake, hstore₁, hinit, hsimulates⟩

theorem outcome_closeFrame (f : Frame) (w : World σ) :
    ∃ w', (e.closeFrame f).outcome w = (.ok (), w') ∧ w'.store = w.store ∧
      w'.variables = w.variables := by
  unfold closeFrame
  split
  · exact ⟨_, rfl, rfl, rfl⟩
  · exact ⟨w, rfl, rfl, rfl⟩

theorem value_of_simulates {f : Frame} {v : Valuation Value VariableValues}
    (h : e.Simulates V r f w v) (hall : v.results.length = e.graph.results.length) :
    f.slots.map (·.value w.store) = v.results :=
  Tensor.map_value_eq (hall.trans h.places.symm) fun j t ht hj => h.filled j t ht hj

/-! ### Calls -/

/-- What is denoted is the outcome of the valuation, if the operands are as they should be. -/
theorem denote_eq [HalfConversion] (kind : Node (Evaluator σ) → ReferenceOp) (s : Store) (vars : VariableValues) :
    g.denote kind slots.length (inputs.map (·.value s)) vars =
      match checkOperands g slots inputs with
      | .error _ => none
      | .ok () => (g.nodes.foldlM (Valuation.step (g.applyReference kind))
          (g.initialValuation (inputs.map (·.value s))
            (g.nodes.foldl (g.withZeros (inputs.map (·.value s))) vars))).map
          fun v => (v.results, v.state) := by
  unfold Graph.denote Graph.valuate
  cases hcheck : checkOperands g slots inputs with
  | ok _ =>
      obtain ⟨hinputs, hslots, hinstances⟩ := (checkOperands_eq_ok s).mp hcheck
      rw [List.length_map]
      simp only [guard, if_pos (show _ ∧ _ ∧ _ from ⟨hinputs, hslots, hinstances⟩)]
      exact (Option.map_eq_bind ..).symm
  | error error =>
      have hnot : ¬ (inputs.length = g.parameters.length ∧ slots.length = g.results.length ∧
          ∀ p ∈ g.parameterDescs.zip (inputs.map (·.value s)), p.2.IsInstance p.1) := fun h => by
        rw [(checkOperands_eq_ok s).mpr h] at hcheck
        cases hcheck
      rw [List.length_map]
      simp only [guard, if_neg hnot]
      rfl

/-- A call completes exactly when its graph denotes something, and the slots and variables have the
values that are denoted then. -/
theorem execute_follows [HalfConversion] {kind : Node (Evaluator σ) → ReferenceOp} (hkind : e.IsReference kind)
    (hV : e.Tracks V kind) (hw : w.Sound) {c : Context}
    (hhas : ∀ id, V id → w.variables.Has (c.variables.getD e.variables))
    (hcancel : w.cancelRequested e.cancel = false) (hslots : w.store.Holds slots)
    (hinputs : w.store.Holds inputs)
    (hseparate : Separate V (c.variables.getD e.variables) slots inputs w) {vars : VariableValues}
    (hvars : ∀ id, V id → w.valuesOf (c.variables.getD e.variables) id = vars id) (collect : Bool) :
    match e.graph.denote kind slots.length (inputs.map (·.value w.store)) vars with
    | some (results, after) => ∃ slots' w',
        (e.execute slots inputs c collect).outcome w = (.ok (.completed, slots'), w') ∧
        slots'.map (·.value w'.store) = results ∧
        ∀ id, V id → w'.valuesOf (c.variables.getD e.variables) id = after id
    | none => ∃ error w', (e.execute slots inputs c collect).outcome w = (.error error, w') := by
  rw [denote_eq]
  rcases hcheck : checkOperands e.graph slots inputs with error | ⟨⟩
  · obtain ⟨w₁, htake, -⟩ := outcome_takeCancel hw hcancel
    rw [execute, Run.outcome_bind_ok htake]
    simp only [Bool.false_eq_true, if_false, hcheck]
    exact ⟨error, _, rfl⟩
  obtain ⟨w₁, w₂, htake, -, hinit, hsimulates⟩ :=
    exists_started hw hhas hcancel hslots hinputs hcheck hseparate hvars
  generalize hr : c.variables.getD e.variables = r at *
  rw [execute, Run.outcome_bind_ok htake]
  simp only [Bool.false_eq_true, if_false, hcheck]
  have hfollower := follower_simulates hkind hV (c := e.contextFor c) (congrArg some hr) collect
  have hwalk := hfollower.runNodes (show e.graph.nodes = [] ++ e.graph.nodes from rfl) hsimulates
    (by rw [(e.graph.results_initialValuation _ _).1]; rfl)
  have hc : (e.contextFor c).variables.getD e.variables = r := hr
  rw [Run.outcome_bind_ok (Run.outcome_lift w₁ _), hc, Run.outcome_bind_ok hinit,
    Run.outcome_bind_ok (outcome_openFrame slots inputs w₂),
    Run.outcome_bind_ok (Call.outcome_outcome _ _ _)]
  rcases heval : (e.runNodes (e.contextFor c) collect e.graph.nodes).eval
      (e.openedFrame slots inputs w₂) (e.openedWorld w₂) with ⟨⟨result, f⟩, w₃⟩
  rw [heval] at hwalk
  obtain ⟨w₄, hclose, hstore₄, hvars₄⟩ := outcome_closeFrame (e := e) f w₃
  simp only [Run.outcome_bind_ok hclose]
  cases hexpected : e.graph.nodes.foldlM (Valuation.step (e.graph.applyReference kind))
      (e.graph.initialValuation (inputs.map (·.value w.store))
        (e.graph.nodes.foldl (e.graph.withZeros (inputs.map (·.value w.store))) vars)) with
  | none =>
      rw [hexpected] at hwalk
      obtain ⟨error, rfl⟩ := hwalk
      exact ⟨error, w₄, rfl⟩
  | some v =>
      rw [hexpected] at hwalk
      obtain ⟨status, rfl, rfl, hfinal, hall⟩ := hwalk
      refine ⟨f.slots, w₄, rfl, ?_, fun id hid => ?_⟩
      · rw [hstore₄]
        exact value_of_simulates hfinal hall
      · rw [← hfinal.state id hid, World.valuesOf_congr hstore₄ hvars₄]

/-- A graph that assigns its input to a variable and hands it on. -/
def keeper : Graph (Evaluator Unit) where
  tensors := List.replicate 3 ⟨.u8, [.fixed 2]⟩
  nodes := [⟨⟨0, .parameter, none, [], [0], none⟩, none⟩,
    ⟨⟨1, .assign, none, [0], [1], some ⟨"last"⟩⟩, none⟩, ⟨⟨2, .result, none, [1], [2], none⟩, none⟩]
  numbered := rfl
  checked := rfl

/-- An executor for it, and the world in which it is created. -/
def keeperCreated : Executor Unit × World Unit :=
  create keeper .reference ⟨none, 1, true⟩ (.empty ())

/-- The world in which the caller has made an input and an open slot. -/
def keeperFilled : World Unit :=
  { keeperCreated.2 with store := ((keeperCreated.2.store.alloc #[1, 2]).2.alloc #[]).2 }

theorem isReference_keeper : keeperCreated.1.IsReference fun _ => .assign :=
  isReference_of_registry rfl (by decide)

end Executor

end TensorGraph
