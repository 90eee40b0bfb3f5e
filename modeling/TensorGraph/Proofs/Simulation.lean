import TensorGraph.Proofs.Agreement
import TensorGraph.Proofs.Soundness
import TensorGraph.Proofs.Wellformed

/-! # A call simulates a valuation

`Executor.Simulates` relates a call in progress to a valuation: the tensors bound so far have the values
of the environment, the variables those of the state, and the slots filled so far those of the results.
What carries it through a step is that a slot that is not filled yet shares its buffer with nothing that
the call will read, and that an output is handed out only if nobody else holds its buffer.

The step lemmas say that a node succeeds exactly when the step of the valuation does
(`follows_evaluateNode`, `follows_deliverNode`).  A relation that steps keep in this way is kept by a walk over
all nodes (`Follower.runNodes`). -/

namespace TensorGraph

variable {σ α β γ δ : Type}

/-! ### Following an expectation -/

namespace Call

/-- A computation within a call ends as expected: it returns something and a relation holds then, or it
fails where nothing is expected. -/
def Follows (R : α → Frame → World σ → β → Prop) (expected : Option β)
    (o : (Except Error α × Frame) × World σ) : Prop :=
  match expected with
  | some b => ∃ a, o.1.1 = .ok a ∧ R a o.1.2 o.2 b
  | none => ∃ error, o.1.1 = .error error

theorem Follows.bind {R : α → Frame → World σ → β → Prop} {R' : γ → Frame → World σ → δ → Prop}
    {m : Call σ α} {k : α → Call σ γ} {expected : Option β} {expected' : β → Option δ} {f : Frame}
    {w : World σ} (hm : Follows R expected (m.eval f w))
    (hk : ∀ a f' w' b, expected = some b → R a f' w' b →
      Follows R' (expected' b) ((k a).eval f' w')) :
    Follows R' (expected >>= expected') ((m >>= k).eval f w) := by
  rw [eval_bind]
  rcases heval : m.eval f w with ⟨⟨result, f'⟩, w'⟩
  rw [heval] at hm
  cases expected with
  | none =>
      obtain ⟨error, rfl⟩ := hm
      exact ⟨error, rfl⟩
  | some b =>
      obtain ⟨a, rfl, hR⟩ := hm
      exact hk a f' w' b rfl hR

/-- What returns something was expected to. -/
theorem Follows.of_ok {R : α → Frame → World σ → β → Prop} {expected : Option β} {a : α} {f : Frame} {w : World σ}
    (h : Follows R expected ((.ok a, f), w)) : ∃ b, expected = some b ∧ R a f w b := by
  cases expected with
  | none =>
      obtain ⟨error, herror⟩ := h
      cases herror
  | some b =>
      obtain ⟨a', ha, hR⟩ := h
      exact ⟨b, rfl, Except.ok.inj ha ▸ hR⟩

theorem follows_error (R : α → Frame → World σ → β → Prop) {error : Error} {f : Frame} {w : World σ} :
    Follows R none ((.error error, f), w) :=
  ⟨error, rfl⟩

theorem follows_ok {R : α → Frame → World σ → β → Prop} {a : α} {b : β} {f : Frame} {w : World σ}
    (h : R a f w b) : Follows R (some b) ((.ok a, f), w) :=
  ⟨a, rfl, h⟩

end Call

namespace Bindings

theorem get?_bind {b : Bindings} {h : Handle} (t : Tensor) (hb : h < b.length) (k : Handle) :
    (b.bind h t).get? k = if k = h then some t else b.get? k := by
  by_cases hk : k = h
  · rw [hk, if_pos rfl, get?_bind_same t hb]
  · rw [if_neg hk, get?_bind_ne b t (Ne.symm hk)]

theorem mem_tensors_of_get? {b : Bindings} {h : Handle} {t : Tensor} (hget : b.get? h = some t) :
    t ∈ b.tensors := by
  rw [mem_tensors]
  exact List.mem_of_getElem? (Option.join_eq_some_iff.mp hget)

theorem get_eq_ok {b : Bindings} {h : Handle} {t : Tensor} : b.get h = .ok t ↔ b.get? h = some t := by
  unfold get
  cases b.get? h <;> simp

end Bindings

theorem Variables.mem_values {v : Variables} {id : VariableId} {t : Tensor} (h : v.get? id = some t) :
    t ∈ v.values := by
  obtain ⟨entries⟩ := v
  change Variables.getIn id entries = some t at h
  induction entries with
  | nil => cases h
  | cons p entries ih =>
      unfold Variables.getIn at h
      split at h
      · exact List.mem_map.mpr ⟨p, List.mem_cons_self, Option.some.inj h⟩
      · exact List.mem_cons_of_mem _ (ih h)

namespace Executor

/-- A call in progress and the valuation that it stands for, as far as the variables in `V` of `r` are
concerned. -/
structure Simulates (e : Executor σ) (V : VariableId → Prop) (r : Ref Variables) (f : Frame)
    (w : World σ) (v : Valuation Value VariableValues) : Prop where
  sound : w.Sound
  frame : f.Sound w.store
  has : ∀ id, V id → w.variables.Has r
  length : f.bindings.length = e.graph.tensors.length
  places : f.slots.length = e.graph.results.length
  env : ∀ h, (f.bindings.get? h).map (·.value w.store) = v.env h
  state : ∀ id, V id → w.valuesOf r id = v.state id
  /-- A slot that is filled has the value of its result. -/
  filled : ∀ (j : Nat) t, f.slots[j]? = some t → j < v.results.length →
    v.results[j]? = some (t.value w.store)
  /-- A slot that is not filled yet has a buffer that nothing else lies in. -/
  bound_ne : ∀ (j : Nat) t, f.slots[j]? = some t → v.results.length ≤ j →
    ∀ u ∈ f.bindings.tensors, u.buffer ≠ t.buffer
  variable_ne : ∀ (j : Nat) t, f.slots[j]? = some t → v.results.length ≤ j →
    ∀ id u, V id → (w.variables.get r).get? id = some u → u.buffer ≠ t.buffer
  slot_ne : ∀ (j : Nat) t, f.slots[j]? = some t → v.results.length ≤ j →
    ∀ k u, k ≠ j → f.slots[k]? = some u → u.buffer ≠ t.buffer
  cancel : w.cancelRequested e.cancel = false

variable {e : Executor σ} {V : VariableId → Prop} {r : Ref Variables} {f f' : Frame} {w w' : World σ}
  {v : Valuation Value VariableValues}

namespace Simulates

theorem mem_held_of_bound {t : Tensor} (ht : t ∈ f.bindings.tensors) : t ∈ f.held :=
  List.mem_append_left _ (List.mem_append_left _ ht)

theorem mem_held_of_slot {j : Nat} {t : Tensor} (ht : f.slots[j]? = some t) : t ∈ f.held :=
  List.mem_append_right _ (List.mem_of_getElem? ht)

/-- Only bindings, slots, buffers, variables and the request to cancel matter. -/
theorem congr (h : e.Simulates V r f w v) (hbindings : f'.bindings = f.bindings)
    (hslots : f'.slots = f.slots) (hframe : f'.Sound w.store) (hstore : w'.store = w.store)
    (hvars : w'.variables = w.variables) (hsound : w'.Sound)
    (hcancel : w'.cancelRequested e.cancel = false) : e.Simulates V r f' w' v where
  sound := hsound
  frame := hstore ▸ hframe
  has id hid := hvars ▸ h.has id hid
  length := hbindings ▸ h.length
  places := hslots ▸ h.places
  env := by rw [hbindings, hstore]; exact h.env
  state id hid := by
    rw [← h.state id hid, World.valuesOf_congr hstore hvars]
  filled := by rw [hslots, hstore]; exact h.filled
  bound_ne := by rw [hslots, hbindings]; exact h.bound_ne
  variable_ne := by rw [hslots, hvars]; exact h.variable_ne
  slot_ne := by rw [hslots]; exact h.slot_ne
  cancel := hcancel

/-- Writing into buffers that the call does not hold changes at most the variables. -/
theorem reaches (h : e.Simulates V r f w v) {W : BufferId → Prop} (hw : w.Reaches W w')
    (hW : ∀ t ∈ f.held, ¬ W t.buffer) {state : VariableValues}
    (hstate : ∀ id, V id → w'.valuesOf r id = state id) :
    e.Simulates V r f w' { v with state := state } where
  sound := hw.sound h.sound
  frame := hw.grows.holds h.frame
  has id hid := hw.has r (h.has id hid)
  length := h.length
  places := h.places
  env k := by
    rw [← h.env k]
    cases hget : f.bindings.get? k with
    | none => rfl
    | some t =>
        have ht := mem_held_of_bound (Bindings.mem_tensors_of_get? hget)
        exact congrArg some (Tensor.value_within hw.store (h.frame t ht) (hW t ht))
  state := hstate
  filled j t ht hj := by
    have hheld := mem_held_of_slot ht
    rw [Tensor.value_within hw.store (h.frame t hheld) (hW t hheld)]
    exact h.filled j t ht hj
  bound_ne := h.bound_ne
  variable_ne j t ht hj id u hid hu := by
    rcases hw.values r id u hu with hu | hnew
    · exact h.variable_ne j t ht hj id u hid hu
    · exact hnew.ne_buffer (h.frame t (mem_held_of_slot ht))
  slot_ne := h.slot_ne
  cancel := by
    obtain ⟨_, _, rfl⟩ := hw.same
    exact h.cancel

/-- Binding a tensor that lies in the buffer of no slot that is still to be filled. -/
theorem bind (h : e.Simulates V r f w v) {t : Tensor} (ht : w.store.Allocated t.buffer)
    (hne : ∀ (j : Nat) u, f.slots[j]? = some u → v.results.length ≤ j → t.buffer ≠ u.buffer)
    {k : Handle} (hk : k < e.graph.tensors.length) :
    e.Simulates V r { f with bindings := f.bindings.bind k t } w (v.bind [k] (t.value w.store)) where
  sound := h.sound
  frame u hu := by
    simp only [Frame.held, List.mem_append] at hu
    rcases hu with (hu | hu) | hu
    · rcases List.mem_cons.mp (Bindings.tensors_bind_subset _ k t hu) with rfl | hu
      · exact ht
      · exact h.frame u (mem_held_of_bound hu)
    · exact h.frame u (List.mem_append_left _ (List.mem_append_right _ hu))
    · exact h.frame u (List.mem_append_right _ hu)
  has := h.has
  length := (List.length_set ..).trans h.length
  places := h.places
  env i := by
    rw [Bindings.get?_bind t (h.length.symm ▸ hk)]
    by_cases hi : i = k
    · simp [Valuation.bind, hi]
    · simpa [Valuation.bind, hi] using h.env i
  state := h.state
  filled := h.filled
  bound_ne j u hu hj t' ht' := by
    rcases List.mem_cons.mp (Bindings.tensors_bind_subset _ k t ht') with rfl | ht'
    · exact hne j u hu hj
    · exact h.bound_ne j u hu hj t' ht'
  variable_ne := h.variable_ne
  slot_ne := h.slot_ne
  cancel := h.cancel

end Simulates

/-! ### Evaluating a node -/

/-- Reading tensors gives the values of the environment. -/
theorem follows_bound (h : e.Simulates V r f w v) (hs : List Handle) :
    Call.Follows (fun ts f' w' vs => f' = f ∧ w' = w ∧ ts ⊆ f.bindings.tensors ∧
        ts.map (·.value w.store) = vs ∧ ts.length = hs.length)
      (hs.mapM v.env) ((hs.mapM bound : Call σ (List Tensor)).eval f w) := by
  induction hs with
  | nil => exact Call.follows_ok ⟨rfl, rfl, List.nil_subset _, rfl, rfl⟩
  | cons k hs ih =>
      rw [List.mapM_cons, List.mapM_cons]
      have hbound : Call.Follows (fun t f' w' a => f' = f ∧ w' = w ∧ t ∈ f.bindings.tensors ∧
          t.value w.store = a) (v.env k) ((bound k : Call σ Tensor).eval f w) := by
        have heval : (bound k : Call σ Tensor).eval f w = ((f.bindings.get k, f), w) := rfl
        rw [heval, ← h.env k]
        cases hget : f.bindings.get? k with
        | none =>
            rw [show f.bindings.get k = .error (.unboundTensor k.describe) by
              rw [Bindings.get, hget]]
            exact Call.follows_error _
        | some t =>
            rw [Bindings.get_eq_ok.mpr hget]
            exact Call.follows_ok ⟨rfl, rfl, Bindings.mem_tensors_of_get? hget, rfl⟩
      refine hbound.bind ?_
      rintro t _ _ a - ⟨rfl, rfl, ht, rfl⟩
      refine ih.bind ?_
      rintro ts _ _ vs - ⟨rfl, rfl, hts, rfl, hlength⟩
      exact Call.follows_ok
        ⟨rfl, rfl, List.cons_subset.mpr ⟨ht, hts⟩, rfl, congrArg (· + 1) hlength⟩

/-- A variable's tensor is among those that the world holds. -/
theorem mem_held_of_variable {id : VariableId} {t : Tensor}
    (ht : (w.variables.get r).get? id = some t) : t ∈ w.held := by
  unfold Table.get at ht
  cases hget : w.variables.entries[r.index]? with
  | none =>
      rw [hget] at ht
      cases ht
  | some vars =>
      rw [hget] at ht
      refine List.mem_append_left _ (List.mem_flatMap.mpr ⟨vars, ?_, Variables.mem_values ht⟩)
      exact Array.mem_toList_iff.mpr (Array.mem_of_getElem? hget)

/-- What a node's evaluator is handed as output: its buffer is that of nothing the call holds and of no
variable. -/
structure Output (r : Ref Variables) (f : Frame) (w : World σ) (desc : TensorDesc) (out : Tensor) :
    Prop where
  dtype : out.dtype = desc.dtype
  allocated : w.store.Allocated out.buffer
  held_ne : ∀ t ∈ f.held, t.buffer ≠ out.buffer
  variable_ne : ∀ id t, (w.variables.get r).get? id = some t → t.buffer ≠ out.buffer

/-- Allocating an output succeeds, and leaves what is bound as it is. -/
theorem exists_allocate (h : e.Simulates V r f w v) (c : Context) {k : Handle} {desc : TensorDesc}
    (hdesc : e.graph.tensors[k]? = some desc) :
    ∃ out f' w', (e.allocate c [] k).eval f w = ((.ok [out], f'), w') ∧ e.Simulates V r f' w' v ∧
      Output r f' w' desc out ∧ f'.bindings = f.bindings ∧
      ∀ t ∈ f.bindings.tensors, t.value w'.store = t.value w.store := by
  have hkept : Frame.Sound { f with kept := f.kept.set k none } w.store := fun t ht =>
    h.frame t (kept_subset f k ht)
  rcases allocate_cases c [] hdesc f w with ⟨t, hentry, hfits, hne, heval⟩ | heval
  · have hmem : t ∈ f.held := mem_held_of_kept (List.mem_of_getElem? hentry)
    refine ⟨t, _, w, heval, h.congr rfl rfl hkept rfl rfl h.sound h.cancel,
      ⟨dtype_of_fits hfits, h.frame t hmem, fun u hu => hne u ?_, fun id u hu => hne u ?_⟩, rfl, fun _ _ => rfl⟩
    · exact List.mem_append_left _ (List.mem_append_left _ hu)
    · exact List.mem_append_right _ (mem_held_of_variable hu)
  · obtain ⟨hwithin, hnew, hdtype⟩ := fresh_spec desc w.store
    have hreaches := World.Reaches.of_store hwithin
    have hframe : e.Simulates V r { f with kept := f.kept.set k none } w v :=
      h.congr rfl rfl hkept rfl rfl h.sound h.cancel
    have hstate : ∀ id, V id →
        World.valuesOf { w with store := (fresh desc w.store).2 } r id = v.state id := fun id hid => by
      rw [World.valuesOf_store hwithin fun t ht => ⟨h.sound.values r id t ht, not_false⟩]
      exact h.state id hid
    refine ⟨_, _, _, heval, hframe.reaches hreaches (fun _ _ => not_false) hstate,
      ⟨hdtype, hnew.2, fun t ht => ?_, fun id t ht => ?_⟩, rfl, fun t ht => ?_⟩
    · exact (hnew.ne_buffer (hkept t ht)).symm
    · exact (hnew.ne_buffer (h.sound.values r id t ht)).symm
    · exact Tensor.value_within hwithin (h.frame t (Simulates.mem_held_of_bound ht)) not_false

/-- What is done with the outputs that an evaluator has made. -/
def bindProduced (e : Executor σ) (collect : Bool) (node : Node (Evaluator σ)) (start : Nat)
    (produced : List Tensor) : Call σ Unit := do
  if collect then
    let elapsed := (← getThe (World σ)).clock - start
    Call.ofRun (Run.modifyMemory e.memory fun m =>
      { m with statistics := m.statistics.record node.toOperation elapsed })
  (node.outputs.zip produced).zipIdx.forM (e.bindOutput node)

theorem evaluateNode_eq (c : Context) (collect : Bool) (node : Node (Evaluator σ)) :
    e.evaluateNode c collect node = (do
      let inputs ← node.inputs.mapM bound
      let outputs ← node.outputs.foldlM (e.allocate c) []
      let evaluator ← e.evaluatorOf node
      modify fun frame => { frame with dispatched := node.id :: frame.dispatched }
      let frame ← get
      let start := (← getThe (World σ)).clock
      let produced ←
        Call.ofRun (evaluator.apply node.toOperation outputs inputs (c.holding frame.held))
      e.bindProduced collect node start produced) := rfl

/-- Recording a time changes only statistics. -/
theorem Simulates.record (h : e.Simulates V r f w v) (operation : Operation) (elapsed : Nat) :
    e.Simulates V r f ((Run.modifyMemory e.memory fun m =>
      { m with statistics := m.statistics.record operation elapsed }).outcome w).2 v := by
  have hkeeps : Run.Keeps [] (Run.modifyMemory e.memory _ : Run σ Unit) fun _ => [] :=
    keeps_modifyMemory e.memory
      (g := fun m => { m with statistics := m.statistics.record operation elapsed }) fun _ => rfl
  exact h.congr rfl rfl h.frame rfl rfl (hkeeps w h.sound nofun).1 h.cancel

/-- An output is bound if it has a shape and the described type. -/
theorem follows_bindOutput (h : e.Simulates V r f w v) {node : Node (Evaluator σ)} {k : Handle}
    {desc : TensorDesc} (hdesc : e.graph.tensors[k]? = some desc) {t : Tensor}
    (ht : w.store.Allocated t.buffer)
    (hne : ∀ (j : Nat) u, f.slots[j]? = some u → t.buffer ≠ u.buffer) (position : Nat) :
    Call.Follows (fun _ f' w' v' => e.Simulates V r f' w' v')
      (if t.shape.isSome = true ∧ t.dtype = desc.dtype then some (v.bind [k] (t.value w.store))
        else none)
      ((e.bindOutput node ((k, t), position)).eval f w) := by
  have hlt : k < e.graph.tensors.length := (List.getElem?_eq_some_iff.mp hdesc).1
  rcases eval_bindOutput_cases (e := e) node k t position f w with
    ⟨hshape, heval⟩ | ⟨-, desc', hdesc', hdtype, heval⟩ | ⟨hshape, hdtype, heval⟩
  · rw [heval, if_neg fun hand => Bool.false_ne_true (hshape.symm.trans hand.1)]
    exact Call.follows_error _
  · obtain rfl := Option.some.inj (hdesc.symm.trans hdesc')
    rw [heval, if_neg fun hand => hdtype hand.2]
    exact Call.follows_error _
  · rw [heval, if_pos ⟨hshape, hdtype desc hdesc⟩]
    exact Call.follows_ok (h.bind ht (fun j u hu _ => hne j u hu) hlt)

theorem follows_bindProduced (h : e.Simulates V r f w v) {node : Node (Evaluator σ)} {k : Handle}
    (houtputs : node.outputs = [k]) {desc : TensorDesc} (hdesc : e.graph.tensors[k]? = some desc)
    {t : Tensor} (ht : w.store.Allocated t.buffer)
    (hne : ∀ (j : Nat) u, f.slots[j]? = some u → t.buffer ≠ u.buffer) (collect : Bool) (start : Nat) :
    Call.Follows (fun _ f' w' v' => e.Simulates V r f' w' v')
      (if t.shape.isSome = true ∧ t.dtype = desc.dtype then some (v.bind [k] (t.value w.store))
        else none)
      ((e.bindProduced collect node start [t]).eval f w) := by
  have hforM (w' : World σ) : ((node.outputs.zip [t]).zipIdx.forM (e.bindOutput node)).eval f w'
      = (e.bindOutput node ((k, t), 0)).eval f w' := by
    rw [houtputs]
    show ((e.bindOutput node ((k, t), 0)) >>= fun _ => pure ()).eval f w' = _
    rw [bind_pure]
  cases collect with
  | false => exact (hforM w).symm ▸ follows_bindOutput h hdesc ht hne 0
  | true =>
      have hrecord := h.record node.toOperation (w.clock - start)
      have heval : (e.bindProduced true node start [t]).eval f w
          = ((node.outputs.zip [t]).zipIdx.forM (e.bindOutput node)).eval f
            ((Run.modifyMemory e.memory fun m => { m with
              statistics := m.statistics.record node.toOperation (w.clock - start) }).outcome w).2 :=
        rfl
      rw [heval, hforM]
      exact follows_bindOutput hrecord hdesc ht hne 0

/-- What an evaluator has made of an output: it agrees with what is denoted, and the call goes on as
before. -/
def Made (e : Executor σ) (V : VariableId → Prop) (r : Ref Variables) (f : Frame)
    (v : Valuation Value VariableValues) (desc : TensorDesc)
    (denoted : Option (Value × VariableValues)) (o : Except Error (List Tensor) × World σ) : Prop :=
  match o with
  | (.error _, _) => ∀ a state, denoted = some (a, state) → a.dtype ≠ desc.dtype
  | (.ok ts, w) => ∃ t state, ts = [t] ∧ denoted = some (t.value w.store, state) ∧
      e.Simulates V r f w { v with state := state } ∧ w.store.Allocated t.buffer ∧
      ∀ (j : Nat) u, f.slots[j]? = some u → t.buffer ≠ u.buffer

theorem made_apply [HalfConversion] (h : e.Simulates V r f w v) {desc : TensorDesc} {out : Tensor}
    (hout : Output r f w desc out) {inputs : List Tensor} (hinputs : inputs ⊆ f.bindings.tensors)
    (op : ReferenceOp) (operation : Operation) {c : Context} (hc : c.variables = some r)
    (hV : op.isStateful = true → ∀ id, V id) :
    e.Made V r f v desc (op.denote operation.varId (inputs.map (·.value w.store)) v.state)
      ((op.evaluator.apply operation [out] inputs c).outcome w) := by
  have hapart : w.Apart V r out inputs v.state := by
    refine ⟨hout.allocated, fun t ht => ?_, fun id t _ ht => ?_, h.state⟩
    · have hheld := Simulates.mem_held_of_bound (hinputs ht)
      exact ⟨h.frame t hheld, hout.held_ne t hheld⟩
    · exact ⟨h.sound.values r id t ht, hout.variable_ne id t ht⟩
  have hagrees := op.agrees_evaluate hapart operation hc
    fun hop => ⟨h.has default (hV hop default), fun id _ => hV hop id⟩
  obtain ⟨hreaches, hcontained⟩ := op.contained_evaluate operation [out] inputs c w
  unfold Evaluator.apply
  rw [Run.outcome_bind]
  rcases houtcome : (op.evaluator.evaluate operation [out] inputs c).outcome w with ⟨error | ts, w'⟩
  · rw [houtcome] at hagrees
    intro a state hdenoted
    rw [← hout.dtype]
    exact hagrees a state hdenoted
  · rw [houtcome] at hagrees hreaches hcontained
    obtain ⟨t, state, rfl, hdenoted, hstate⟩ := hagrees
    have hW : ∀ u ∈ f.held, ¬ ∃ t ∈ [out], t.buffer = u.buffer := by
      rintro u hu ⟨t', ht', hbuffer⟩
      rw [List.mem_singleton.mp ht'] at hbuffer
      exact hout.held_ne u hu hbuffer.symm
    refine ⟨t, state, rfl, hdenoted, h.reaches hreaches hW hstate, ?_, fun j u hu => ?_⟩
    · rcases hcontained _ rfl t (List.mem_singleton_self t) with hold | hnew
      · rw [List.mem_singleton.mp hold]
        exact hreaches.store.grows _ hout.allocated
      · exact hnew.2
    · have hheld := Simulates.mem_held_of_slot hu
      rcases hcontained _ rfl t (List.mem_singleton_self t) with hold | hnew
      · rw [List.mem_singleton.mp hold]
        exact (hout.held_ne u hheld).symm
      · exact hnew.ne_buffer (h.frame u hheld)

theorem applyReference_eq [HalfConversion] (g : Graph (Evaluator σ)) (kind : Node (Evaluator σ) → ReferenceOp)
    {node : Node (Evaluator σ)} {k : Handle} (houtputs : node.outputs = [k]) {desc : TensorDesc}
    (hdesc : g.tensors[k]? = some desc) (vs : List Value) (vars : VariableValues) :
    g.applyReference kind node vs vars = ((kind node).denote node.varId vs vars).bind fun p =>
      if p.1.shape.isSome = true ∧ p.1.dtype = desc.dtype then some p else none := by
  unfold Graph.applyReference
  rw [houtputs]
  cases (kind node).denote node.varId vs vars with
  | none => rfl
  | some p =>
      by_cases hp : p.1.shape.isSome = true ∧ p.1.dtype = desc.dtype
      · simp [hdesc, hp]
      · simp [hdesc, hp, guard]

/-- A node succeeds exactly when its reference operator denotes something that its output may have. -/
theorem follows_evaluateNode [HalfConversion] (h : e.Simulates V r f w v) {kind : Node (Evaluator σ) → ReferenceOp}
    {node : Node (Evaluator σ)} (hnode : node ∈ e.graph.nodes)
    (hparameter : ¬ node.isParameter = true) (hresult : ¬ node.isResult = true)
    (hone : node.outputs.length = 1) (hevaluator : e.evaluatorOf node = .ok (kind node).evaluator)
    {c : Context} (hc : c.variables = some r) (hV : (kind node).isStateful = true → ∀ id, V id)
    (collect : Bool) :
    Call.Follows (fun _ f' w' v' => e.Simulates V r f' w' v')
      (v.step (e.graph.applyReference kind) node) ((e.evaluateNode c collect node).eval f w) := by
  obtain ⟨k, houtputs⟩ := List.length_eq_one_iff.mp hone
  have hlt : k < e.graph.tensors.length :=
    e.graph.output_lt hnode (houtputs ▸ List.mem_singleton_self k)
  obtain ⟨desc, hdesc⟩ : ∃ desc, e.graph.tensors[k]? = some desc :=
    ⟨_, List.getElem?_eq_getElem hlt⟩
  rw [evaluateNode_eq, Valuation.step, if_neg hparameter]
  refine (follows_bound h node.inputs).bind ?_
  rintro inputs f w _ - ⟨rfl, rfl, hinputs, rfl, -⟩
  rw [if_neg hresult, applyReference_eq e.graph kind houtputs hdesc]
  obtain ⟨out, f', w', hallocate, h', hout, hbindings, hvalues⟩ := exists_allocate h c hdesc
  have hallocateAll : (node.outputs.foldlM (e.allocate c) []).eval f w = ((.ok [out], f'), w') := by
    rw [houtputs, List.foldlM_cons]
    exact Call.eval_bind_ok hallocate _
  have hmap : inputs.map (·.value w'.store) = inputs.map (·.value w.store) :=
    List.map_congr_left fun t ht => hvalues t (hinputs ht)
  have hdispatched : e.Simulates V r { f' with dispatched := node.id :: f'.dispatched } w' v :=
    h'.congr rfl rfl h'.frame rfl rfl h'.sound h'.cancel
  have hout' : Output r { f' with dispatched := node.id :: f'.dispatched } w' desc out :=
    ⟨hout.dtype, hout.allocated, hout.held_ne, hout.variable_ne⟩
  rw [Call.eval_bind_ok hallocateAll, hevaluator, Call.eval_bind_ok (Call.eval_lift f' w' _),
    Call.eval_bind_ok (Call.eval_modify f' w' _), Call.eval_bind_ok (Call.eval_get _ w'),
    Call.eval_bind_ok (Call.eval_getWorld _ w'), Call.eval_bind, Call.eval_ofRun]
  have hmade := made_apply hdispatched hout' (hbindings ▸ hinputs) (kind node) node.toOperation
    (c := c.holding (Frame.held { f' with dispatched := node.id :: f'.dispatched })) hc hV
  rw [hmap] at hmade
  rcases houtcome : ((kind node).evaluator.apply node.toOperation [out] inputs
      (c.holding (Frame.held { f' with dispatched := node.id :: f'.dispatched }))).outcome w'
    with ⟨error | ts, w''⟩
  · rw [houtcome] at hmade
    have hnone : (((kind node).denote node.varId (inputs.map (·.value w.store)) v.state).bind fun p =>
        if p.1.shape.isSome = true ∧ p.1.dtype = desc.dtype then some p else none) = none := by
      refine Option.bind_eq_none_iff.mpr fun p hp => if_neg fun hand => ?_
      exact hmade p.1 p.2 hp hand.2
    rw [hnone]
    exact Call.follows_error _
  · rw [houtcome] at hmade
    obtain ⟨t, state, rfl, hdenoted, h'', ht, hne⟩ := hmade
    have hbind := follows_bindProduced h'' houtputs hdesc ht hne collect w'.clock
    rw [hdenoted, houtputs]
    by_cases hand : t.shape.isSome = true ∧ t.dtype = desc.dtype
    · rw [if_pos hand] at hbind
      have hsome : ((some (t.value w''.store, state)).bind fun p =>
          if p.1.shape.isSome = true ∧ p.1.dtype = desc.dtype then some p else none)
            = some (t.value w''.store, state) :=
        if_pos hand
      rw [hsome]
      exact hbind
    · rw [if_neg hand] at hbind
      have hnone : ((some (t.value w''.store, state)).bind fun p =>
          if p.1.shape.isSome = true ∧ p.1.dtype = desc.dtype then some p else none) = none :=
        if_neg hand
      rw [hnone]
      exact hbind

/-! ### Delivering a result -/

/-- Filling the next slot, which keeps its buffer or becomes an alias of something bound. -/
theorem Simulates.fill (h : e.Simulates V r f w v) {slot slot' : Tensor}
    (hslot : f.slots[v.results.length]? = some slot) {s : Store}
    (hs : w.store.Within (· = slot.buffer) s) (hslot' : slot' = slot ∨ slot' ∈ f.bindings.tensors) :
    e.Simulates V r { f with slots := f.slots.set v.results.length slot' } { w with store := s }
      { v with results := v.results ++ [slot'.value s] } := by
  have hreaches := World.Reaches.of_store hs
  have hheld : slot' ∈ f.held := by
    rcases hslot' with rfl | hbound
    · exact mem_held_of_slot hslot
    · exact mem_held_of_bound hbound
  have hlater : ∀ {j : Nat} {t : Tensor}, (f.slots.set v.results.length slot')[j]? = some t →
      (v.results ++ [slot'.value s]).length ≤ j → f.slots[j]? = some t ∧ v.results.length ≤ j := by
    intro j t ht hj
    rw [List.length_append, List.length_singleton] at hj
    rw [List.getElem?_set_ne (by omega)] at ht
    exact ⟨ht, by omega⟩
  refine ⟨hreaches.sound h.sound, fun t ht => ?_, h.has, h.length, (List.length_set ..).trans h.places,
    fun k => ?_, fun id hid => ?_, fun j t ht hj => ?_, fun j t ht hj => ?_, fun j t ht hj => ?_,
    fun j t ht hj k u hk hu => ?_, h.cancel⟩
  · rcases List.mem_append.mp ht with ht | ht
    · exact hs.grows _ (h.frame t (List.mem_append_left _ ht))
    · rcases List.mem_or_eq_of_mem_set ht with ht | rfl
      · exact hs.grows _ (h.frame t (List.mem_append_right _ ht))
      · exact hs.grows _ (h.frame t hheld)
  · rw [← h.env k]
    cases hget : f.bindings.get? k with
    | none => rfl
    | some t =>
        have ht := Bindings.mem_tensors_of_get? hget
        exact congrArg some (Tensor.value_within hs (h.frame t (mem_held_of_bound ht))
          (h.bound_ne _ slot hslot (Nat.le_refl _) t ht))
  · rw [World.valuesOf_store hs fun t ht =>
      ⟨h.sound.values r id t ht, h.variable_ne _ slot hslot (Nat.le_refl _) id t hid ht⟩]
    exact h.state id hid
  · rw [List.length_append, List.length_singleton] at hj
    by_cases hp : j = v.results.length
    · subst hp
      rw [List.getElem?_set_self (List.getElem?_eq_some_iff.mp hslot).1] at ht
      obtain rfl := Option.some.inj ht
      exact List.getElem?_concat_length
    · rw [List.getElem?_set_ne (Ne.symm hp)] at ht
      rw [List.getElem?_append_left (by omega), h.filled j t ht (by omega),
        Tensor.value_within hs (h.frame t (mem_held_of_slot ht))
          (h.slot_ne _ slot hslot (Nat.le_refl _) j t hp ht)]
  · obtain ⟨ht, hj⟩ := hlater ht hj
    exact h.bound_ne j t ht hj
  · obtain ⟨ht, hj⟩ := hlater ht hj
    exact h.variable_ne j t ht hj
  · obtain ⟨ht, hj⟩ := hlater ht hj
    by_cases hp : k = v.results.length
    · subst hp
      rw [List.getElem?_set_self (List.getElem?_eq_some_iff.mp hslot).1] at hu
      obtain rfl := Option.some.inj hu
      rcases hslot' with rfl | hbound
      · exact h.slot_ne j t ht hj _ _ hk hslot
      · exact h.bound_ne j t ht hj _ hbound
    · rw [List.getElem?_set_ne (Ne.symm hp)] at hu
      exact h.slot_ne j t ht hj k u hk hu

/-- Delivering the value of something bound fills the next slot with it. -/
theorem exists_deliver (h : e.Simulates V r f w v) {slot value : Tensor}
    (hslot : f.slots[v.results.length]? = some slot) (hvalue : value ∈ f.bindings.tensors) :
    ∃ slot' w', (deliver slot value : Run σ Tensor).outcome w = (.ok slot', w') ∧
      value.value w'.store = value.value w.store ∧
      e.Simulates V r { f with slots := f.slots.set v.results.length slot' } w'
        { v with results := v.results ++ [value.value w.store] } := by
  rcases deliver_cases slot value w with ⟨-, houtcome⟩ | ⟨-, hshape, hdtype, s, hcopy, houtcome⟩
  · exact ⟨value, w, houtcome, rfl, h.fill hslot (.refl _ w.store) (.inr hvalue)⟩
  · have hne : value.buffer ≠ slot.buffer := h.bound_ne _ slot hslot (Nat.le_refl _) value hvalue
    obtain rfl := eq_write_of_copyFrom hcopy hne.symm
    have hwithin : w.store.Within (· = slot.buffer)
        (w.store.write slot.buffer (value.bytes w.store)) := copyFrom_within hcopy
    have halloc : w.store.Allocated slot.buffer := h.frame slot (Simulates.mem_held_of_slot hslot)
    have hfilled : slot.value (w.store.write slot.buffer (value.bytes w.store))
        = value.value w.store := by
      rw [Tensor.value, Tensor.value, Tensor.bytes, Store.bytes_write_same _ _ halloc, hshape, hdtype]
    refine ⟨slot, _, houtcome, ?_, ?_⟩
    · exact Tensor.value_within hwithin (h.frame value (Simulates.mem_held_of_bound hvalue)) hne
    · rw [← hfilled]
      exact h.fill hslot hwithin (.inl rfl)

/-- A result node hands its value to the next slot. -/
theorem follows_deliverNode (h : e.Simulates V r f w v)
    {apply : Node (Evaluator σ) → List Value → VariableValues → Option (Value × VariableValues)}
    {before rest : List (Node (Evaluator σ))} {node : Node (Evaluator σ)}
    (hnodes : e.graph.nodes = before ++ node :: rest) (hparameter : ¬ node.isParameter = true)
    (hresult : node.isResult = true)
    (hcount : v.results.length = (before.filter (·.isResult)).length) :
    Call.Follows (fun _ f' w' v' => e.Simulates V r f' w' v' ∧
        v'.results.length = v.results.length + 1)
      (v.step apply node) ((e.deliverNode node).eval f w) := by
  have hnode : node ∈ e.graph.nodes := hnodes ▸ List.mem_append_right _ List.mem_cons_self
  obtain ⟨input, output, hinput, houtput⟩ := e.graph.result_form hnode hresult
  have hposition : e.graph.results.idxOf? node.id = some v.results.length :=
    hcount ▸ e.graph.idxOf_results hnodes hresult
  obtain ⟨slot, hslot⟩ : ∃ slot, f.slots[v.results.length]? = some slot := by
    have hlt := (List.idxOf?_eq_some_iff.mp hposition).1
    rw [← h.places] at hlt
    exact ⟨_, List.getElem?_eq_getElem hlt⟩
  unfold deliverNode
  rw [Valuation.step, if_neg hparameter]
  refine (follows_bound h node.inputs).bind ?_
  rintro values f w _ - ⟨rfl, rfl, hvalues, rfl, hlength⟩
  rw [hinput] at hlength
  obtain ⟨value, rfl⟩ := List.length_eq_one_iff.mp hlength
  rw [if_pos hresult]
  obtain ⟨slot', w', hdeliver, hvalue, h'⟩ := exists_deliver h hslot (hvalues List.mem_cons_self)
  simp only [List.map_singleton, hposition]
  rw [Call.eval_bind_ok (Call.eval_get f w)]
  simp only [hslot]
  rw [Call.eval_bind, Call.eval_ofRun, hdeliver]
  simp only
  rw [Call.eval_bind_ok (Call.eval_modify f w' _), houtput]
  have hbound : value ∈ f.bindings.tensors := hvalues List.mem_cons_self
  have hfinal := h'.bind (t := value) (h'.frame value (Simulates.mem_held_of_bound hbound))
    (fun j u hu hj => h'.bound_ne j u hu hj value hbound)
    (e.graph.output_lt hnode (houtput ▸ List.mem_singleton_self output))
  rw [hvalue] at hfinal
  exact ⟨(), rfl, hfinal, by simp⟩

/-! ### All nodes -/

/-- Looking for a request that nobody made finds none. -/
theorem outcome_takeCancel (hw : w.Sound) (hcancel : w.cancelRequested e.cancel = false) :
    ∃ w', (Run.takeCancel e.cancel : Run σ Bool).outcome w = (.ok false, w') ∧
      w'.store = w.store ∧ w'.variables = w.variables ∧ w'.Sound ∧
      w'.cancelRequested e.cancel = false := by
  refine ⟨{ w with cancelFlags := w.cancelFlags.put e.cancel ⟨false⟩ }, ?_, rfl, rfl,
    hw.congr rfl rfl fun _ _ ht => ht, ?_⟩
  · show (Except.ok (w.cancelRequested e.cancel), _) = _
    rw [hcancel]
  · unfold World.cancelRequested
    rw [Table.get_put]
    split
    · rfl
    · exact hcancel

theorem eval_takeCancel (h : e.Simulates V r f w v) :
    ∃ w', e.takeCancel.eval f w = ((.ok false, f), w') ∧ e.Simulates V r f w' v := by
  obtain ⟨w', houtcome, hstore, hvars, hsound, hcancel⟩ := outcome_takeCancel h.sound h.cancel
  refine ⟨w', ?_, h.congr rfl rfl h.frame hstore hvars hsound hcancel⟩
  rw [takeCancel, Call.eval_ofRun, houtcome]

/-- Every node that is neither a parameter nor a result has one output and is handed to a reference
operator. -/
def IsReference [HalfConversion] (e : Executor σ) (kind : Node (Evaluator σ) → ReferenceOp) : Prop :=
  ∀ node ∈ e.graph.nodes, ¬ node.isParameter = true → ¬ node.isResult = true →
    node.outputs.length = 1 ∧ e.evaluatorOf node = .ok (kind node).evaluator

/-- An executor with the reference registry has the operators for which its nodes are named, if no node brings
an evaluator of its own. -/
theorem isReference_of_registry [HalfConversion] {kind : Node (Evaluator σ) → ReferenceOp}
    (hregistry : e.registry = .reference)
    (hnodes : ∀ node ∈ e.graph.nodes, ¬ node.isParameter = true → ¬ node.isResult = true →
      node.outputs.length = 1 ∧ node.inline.isNone = true ∧ node.op = (kind node).opType) :
    e.IsReference kind := by
  intro node hnode hparameter hresult
  obtain ⟨hone, hinline, hop⟩ := hnodes node hnode hparameter hresult
  refine ⟨hone, ?_⟩
  have hget : e.registry.get? node.op = some (kind node).evaluator := by
    rw [hregistry, hop]
    cases kind node <;> rfl
  rw [evaluatorOf, Option.isNone_iff_eq_none.mp hinline, hget]
  rfl

theorem IsReference.keepsNodes [HalfConversion] {kind : Node (Evaluator σ) → ReferenceOp} (h : e.IsReference kind) :
    e.KeepsNodes := by
  intro node hnode hparameter hresult ev hev
  rw [(h node hnode hparameter hresult).2] at hev
  exact Except.ok.inj hev ▸ (kind node).keeps_evaluator

/-- Some reference operators either touch no variables, or all variables are followed. -/
def Tracks (e : Executor σ) (V : VariableId → Prop) (kind : Node (Evaluator σ) → ReferenceOp) : Prop :=
  ∀ node ∈ e.graph.nodes, ¬ node.isParameter = true → ¬ node.isResult = true →
    (kind node).isStateful = true → ∀ id, V id

/-- A relation between calls in progress and valuations that steps keep: no request to cancel is found, and
a node is passed exactly where the valuation passes it. -/
structure Follower {α S : Type} (e : Executor σ) (c : Context) (collect : Bool)
    (apply : Node (Evaluator σ) → List α → S → Option (α × S))
    (R : Frame → World σ → Valuation α S → Prop) : Prop where
  cancel : ∀ {f w v}, R f w v → ∃ w', e.takeCancel.eval f w = ((.ok false, f), w') ∧ R f w' v
  result : ∀ {before rest node f w v}, e.graph.nodes = before ++ node :: rest →
    ¬ node.isParameter = true → node.isResult = true → R f w v →
    v.results.length = (before.filter (·.isResult)).length →
    Call.Follows (fun _ f' w' v' => R f' w' v' ∧ v'.results.length = v.results.length + 1)
      (v.step apply node) ((e.deliverNode node).eval f w)
  operator : ∀ {node f w v}, node ∈ e.graph.nodes → ¬ node.isParameter = true → ¬ node.isResult = true →
    R f w v → Call.Follows (fun _ => R) (v.step apply node) ((e.evaluateNode c collect node).eval f w)

/-- A walk over nodes completes exactly when the valuation has a value for each of them. -/
theorem Follower.runNodes {α S : Type} {c : Context} {collect : Bool}
    {apply : Node (Evaluator σ) → List α → S → Option (α × S)} {R : Frame → World σ → Valuation α S → Prop}
    (hR : e.Follower c collect apply R) {before nodes : List (Node (Evaluator σ))}
    (hnodes : e.graph.nodes = before ++ nodes) {v : Valuation α S} (h : R f w v)
    (hcount : v.results.length = (before.filter (·.isResult)).length) :
    Call.Follows (fun status f' w' v' => status = .completed ∧ R f' w' v' ∧
        v'.results.length = e.graph.results.length)
      (nodes.foldlM (Valuation.step apply) v) ((e.runNodes c collect nodes).eval f w) := by
  induction nodes generalizing before f w v with
  | nil =>
      refine Call.follows_ok ⟨rfl, h, ?_⟩
      rw [hcount, Graph.results, Graph.resultNodes, hnodes, List.append_nil, List.length_map]
  | cons node rest ih =>
      have hnode : node ∈ e.graph.nodes := hnodes ▸ List.mem_append_right _ List.mem_cons_self
      have hrest : e.graph.nodes = (before ++ [node]) ++ rest := by
        rw [hnodes, List.append_assoc, List.singleton_append]
      obtain ⟨w', hcancel, h'⟩ := hR.cancel h
      unfold Executor.runNodes
      rw [Call.eval_bind_ok hcancel, List.foldlM_cons]
      simp only [Bool.false_eq_true, if_false]
      by_cases hparameter : node.isParameter = true
      · rw [if_pos hparameter, Valuation.step, if_pos hparameter]
        refine ih hrest h' ?_
        rw [hcount, List.filter_append, List.filter_cons_of_neg (Node.not_isResult hparameter),
          List.filter_nil, List.append_nil]
      · rw [if_neg hparameter]
        by_cases hresult : node.isResult = true
        · rw [if_pos hresult]
          refine (hR.result hnodes hparameter hresult h' hcount).bind ?_
          rintro _ f'' w'' v'' - ⟨h'', hlength⟩
          refine ih hrest h'' ?_
          rw [hlength, hcount, List.filter_append, List.filter_cons_of_pos hresult, List.filter_nil,
            List.length_append, List.length_singleton]
        · rw [if_neg hresult]
          refine (hR.operator hnode hparameter hresult h').bind ?_
          rintro _ f'' w'' v'' hstep h''
          obtain ⟨w₁, hcancel', h₁⟩ := hR.cancel h''
          rw [Call.eval_bind_ok hcancel']
          simp only [Bool.false_eq_true, if_false]
          refine ih hrest h₁ ?_
          rw [Valuation.results_step hparameter hresult hstep, hcount, List.filter_append,
            List.filter_cons_of_neg hresult, List.filter_nil, List.append_nil]

/-- Every step of a call of reference operators does what the valuation does with values. -/
theorem follower_simulates [HalfConversion] {kind : Node (Evaluator σ) → ReferenceOp} (hkind : e.IsReference kind)
    (hV : e.Tracks V kind) {c : Context} (hc : c.variables = some r) (collect : Bool) :
    e.Follower c collect (e.graph.applyReference kind) (e.Simulates V r) where
  cancel h := eval_takeCancel h
  result hnodes hparameter hresult h hcount := follows_deliverNode h hnodes hparameter hresult hcount
  operator {node _ _ _} hnode hparameter hresult h :=
    have ⟨hone, hevaluator⟩ := hkind node hnode hparameter hresult
    follows_evaluateNode h hnode hparameter hresult hone hevaluator hc
      (hV node hnode hparameter hresult) collect

end Executor

end TensorGraph
