import TensorGraph.Proofs.Conforming
import TensorGraph.Proofs.Stepping

/-! # A call mirrors a walk on values

`Setting.Mirrors` relates a call in progress to a valuation, as `Executor.Simulates` does, but whatever runs
the nodes, and also where the call fails: the tensors bound so far have the values of the environment, the
variables those of the state, and the slots filled so far those of the results.  What carries it through a
node is that its evaluator spares everything that the call holds, and that a slot still to be filled is
either without shape, and then becomes the value itself, or shares its buffer with nothing that will be read.

If the evaluators conform to what their operations mean, the walk of a call therefore mirrors the walk on
values step by step, and both end alike (`Setting.Mirrors.meets_runNodes`). -/

namespace TensorGraph

variable {σ α β γ δ : Type}

/-- A call: the executor, what it is called with, the variables that it uses, and the world in which it
starts. -/
structure Setting (σ : Type) where
  executor : Executor σ
  slots : List Tensor
  inputs : List Tensor
  context : Context
  «variables» : Ref Variables
  start : World σ

/-- The evaluators that an executor may hand its nodes conform to what the operations mean. -/
def Executor.Conforms (e : Executor σ) (flags : Ref CancelFlag → Prop)
    (run : Operation → List DType → Meaning) : Prop :=
  ∀ node ∈ e.graph.nodes, ¬ node.isParameter = true → ¬ node.isResult = true →
    ∃ ev, e.evaluatorOf node = .ok ev ∧ ev.Conforms flags node.toOperation (e.graph.typesOf node.outputs)
      (run node.toOperation (e.graph.typesOf node.outputs))

/-- Looking for a request to cancel that is not pending spares everything. -/
theorem Executor.exists_taken (e : Executor σ) {w : World σ} (hw : w.Sound)
    (hcancel : w.cancelRequested e.cancel = false) (held : List Tensor) (r : Ref Variables) :
    ∃ w', (Run.takeCancel e.cancel : Run σ Bool).outcome w = (.ok false, w') ∧ w.Spares held r w' ∧
      w'.valuesOf r = w.valuesOf r ∧ w'.store = w.store := by
  have hsound : ((Run.takeCancel e.cancel : Run σ Bool).outcome w).2.Sound := hw.congr rfl rfl fun _ _ h => h
  exact ⟨_, outcome_takeCancel_of hcancel, (w.continues_takenRequest e.cancel).spares hsound rfl rfl, rfl, rfl⟩

namespace Setting

variable {S : Setting σ} {flags : Ref CancelFlag → Prop} {f f' : Frame} {w w' : World σ}
  {v v' : Valuation Value VariableValues}

/-- What is known of a call at its start. -/
structure Fair (S : Setting σ) (flags : Ref CancelFlag → Prop) : Prop where
  sound : S.start.Sound
  idle : S.start.Idle flags
  flag : flags S.executor.cancel
  has : S.start.variables.Has S.variables
  «variables» : S.context.variables = some S.variables
  held : S.start.store.Holds S.context.held

/-- A slot shares its buffer with nothing that the call will read. -/
structure Lone (S : Setting σ) (f : Frame) (w : World σ) (j : Nat) (t : Tensor) : Prop where
  bound_ne : ∀ u ∈ f.bindings.tensors, u.buffer ≠ t.buffer
  held_ne : ∀ u ∈ S.context.held, u.buffer ≠ t.buffer
  variable_ne : ∀ id u, (w.variables.get S.variables).get? id = some u → u.buffer ≠ t.buffer
  slot_ne : ∀ (k : Nat) u, k ≠ j → f.slots[k]? = some u → u.buffer ≠ t.buffer

/-- A call in progress and the valuation that it mirrors. -/
structure Mirrors (S : Setting σ) (f : Frame) (w : World σ) (v : Valuation Value VariableValues) : Prop where
  spares : S.start.Spares S.context.held S.variables w
  frame : f.Sound w.store
  length : f.bindings.length = S.executor.graph.tensors.length
  places : f.slots.length = S.executor.graph.results.length
  env : ∀ h, (f.bindings.get? h).map (·.value w.store) = v.env h
  state : w.valuesOf S.variables = v.state
  placed : ∀ t ∈ f.bindings.tensors, t.Placed S.inputs S.context.held
  /-- A slot that is filled has the value of its result. -/
  filled : ∀ (j : Nat) t, f.slots[j]? = some t → j < v.results.length →
    v.results[j]? = some (t.value w.store) ∧ t.Placed S.inputs S.context.held
  /-- Any other is as it was handed in, and may be filled. -/
  unfilled : ∀ j, v.results.length ≤ j → f.slots[j]? = S.slots[j]?
  free : ∀ (j : Nat) t, f.slots[j]? = some t → v.results.length ≤ j → t.shape = none ∨ S.Lone f w j t

namespace Mirrors

theorem mem_held_of_bound {t : Tensor} (ht : t ∈ f.bindings.tensors) : t ∈ f.held :=
  List.mem_append_left _ (List.mem_append_left _ ht)

theorem mem_held_of_slot {j : Nat} {t : Tensor} (ht : f.slots[j]? = some t) : t ∈ f.held :=
  List.mem_append_right _ (List.mem_of_getElem? ht)

/-- What a call does to its surroundings may be done by its nodes: what the call and its caller hold is
spared. -/
theorem spared (h : S.Mirrors f w v) (hw : w.Spares (f.held ++ S.context.held) S.variables w') :
    S.Mirrors f w' { v with state := w'.valuesOf S.variables } where
  spares := h.spares.trans (hw.mono (List.subset_append_right _ _))
  frame := hw.continues.holds h.frame
  length := h.length
  places := h.places
  env k := by
    rw [← h.env k]
    cases hget : f.bindings.get? k with
    | none => rfl
    | some t =>
        have ht := mem_held_of_bound (Bindings.mem_tensors_of_get? hget)
        exact congrArg some (hw.kept t (List.mem_append_left _ ht))
  state := rfl
  placed := h.placed
  filled j t ht hj := by
    rw [hw.kept t (List.mem_append_left _ (mem_held_of_slot ht))]
    exact h.filled j t ht hj
  unfilled := h.unfilled
  free j t ht hj := by
    refine (h.free j t ht hj).imp id fun hlone => ⟨hlone.bound_ne, hlone.held_ne, fun id u hu => ?_, hlone.slot_ne⟩
    obtain hu | hnew := hw.values id u hu
    · exact hlone.variable_ne id u hu
    · exact hnew.ne_buffer (h.frame t (mem_held_of_slot ht))

/-- The same where the variables keep their values. -/
theorem unchanged (h : S.Mirrors f w v) (hw : w.Spares (f.held ++ S.context.held) S.variables w')
    (hvars : w'.valuesOf S.variables = w.valuesOf S.variables) : S.Mirrors f w' v := by
  have hspared := h.spared hw
  rw [hvars, h.state] at hspared
  exact hspared

/-- What the call keeps and which nodes it has dispatched make no difference. -/
theorem reframe (h : S.Mirrors f w v) (hbindings : f'.bindings = f.bindings) (hslots : f'.slots = f.slots)
    (hframe : f'.Sound w.store) : S.Mirrors f' w v := by
  obtain ⟨bindings, kept, slots, dispatched⟩ := f'
  obtain rfl : bindings = f.bindings := hbindings
  obtain rfl : slots = f.slots := hslots
  exact ⟨h.spares, hframe, h.length, h.places, h.env, h.state, h.placed, h.filled, h.unfilled, fun j t ht hj =>
    (h.free j t ht hj).imp id fun hlone => ⟨hlone.bound_ne, hlone.held_ne, hlone.variable_ne, hlone.slot_ne⟩⟩

/-- Binding a tensor that lies in the buffer of no slot that is still to be filled. -/
theorem bind (h : S.Mirrors f w v) {t : Tensor} (ht : w.store.Allocated t.buffer)
    (hplaced : t.Placed S.inputs S.context.held)
    (hfree : ∀ (j : Nat) u, f.slots[j]? = some u → v.results.length ≤ j → u.shape = none ∨ t.buffer ≠ u.buffer)
    {k : Handle} (hk : k < S.executor.graph.tensors.length) :
    S.Mirrors { f with bindings := f.bindings.bind k t } w (v.bind [k] (t.value w.store)) where
  spares := h.spares
  frame u hu := by
    simp only [Frame.held, List.mem_append] at hu
    obtain (hu | hu) | hu := hu
    · obtain rfl | hu := List.mem_cons.mp (Bindings.tensors_bind_subset _ k t hu)
      · exact ht
      · exact h.frame u (mem_held_of_bound hu)
    · exact h.frame u (List.mem_append_left _ (List.mem_append_right _ hu))
    · exact h.frame u (List.mem_append_right _ hu)
  length := (List.length_set ..).trans h.length
  places := h.places
  env i := by
    rw [Bindings.get?_bind t (h.length.symm ▸ hk)]
    by_cases hi : i = k
    · simp [Valuation.bind, hi]
    · simpa [Valuation.bind, hi] using h.env i
  state := h.state
  placed u hu := by
    obtain rfl | hu := List.mem_cons.mp (Bindings.tensors_bind_subset _ k t hu)
    · exact hplaced
    · exact h.placed u hu
  filled := h.filled
  unfilled := h.unfilled
  free j u hu hj := by
    obtain hshape | hlone := h.free j u hu hj
    · exact .inl hshape
    obtain hshape | hne := hfree j u hu hj
    · exact .inl hshape
    refine .inr ⟨fun t' ht' => ?_, hlone.held_ne, hlone.variable_ne, hlone.slot_ne⟩
    obtain rfl | ht' := List.mem_cons.mp (Bindings.tensors_bind_subset _ k t ht')
    · exact hne
    · exact hlone.bound_ne t' ht'

end Mirrors

/-! ### Ending alike -/

/-- A computation within a call ends as one on values does: the call mirrors the valuation then, and both
fail with the same error or return something that is related. -/
def Meets (S : Setting σ) (R : α → Frame → World σ → β → Prop)
    (expected : Except Error β × Valuation Value VariableValues)
    (o : (Except Error α × Frame) × World σ) : Prop :=
  S.Mirrors o.1.2 o.2 expected.2 ∧ Except.Agree (fun a b => R a o.1.2 o.2 b) o.1.1 expected.1

variable {R : α → Frame → World σ → β → Prop} {R' : γ → Frame → World σ → δ → Prop}

theorem Meets.bind {m : Call σ α} {m' : Walk β} {k : α → Call σ γ} {k' : β → Walk δ}
    (hm : S.Meets R (m'.outcome v) (m.eval f w))
    (hk : ∀ a b f' w' v', m'.outcome v = (.ok b, v') → S.Mirrors f' w' v' → R a f' w' b →
      S.Meets R' ((k' b).outcome v') ((k a).eval f' w')) :
    S.Meets R' ((m' >>= k').outcome v) ((m >>= k).eval f w) := by
  rw [Call.eval_bind, Effect.outcome_bind]
  obtain ⟨hmirrors, hresult⟩ := hm
  rcases heval : m.eval f w with ⟨⟨result, f'⟩, w'⟩
  rcases hexpected : m'.outcome v with ⟨expected, v'⟩
  rw [heval, hexpected] at hmirrors hresult
  obtain ⟨a, b, rfl, rfl, hR⟩ | ⟨error, rfl, rfl⟩ := hresult.elim
  · exact hk a b f' w' v' hexpected hmirrors hR
  · exact ⟨hmirrors, .error error⟩

/-- Reading tensors gives the values of the environment. -/
theorem Mirrors.agree_get (h : S.Mirrors f w v) (hs : List Handle) :
    Except.Agree (fun ts vs => ts ⊆ f.bindings.tensors ∧ vs = ts.map (·.value w.store))
      (hs.mapM f.bindings.get) (hs.mapM v.get) := by
  induction hs with
  | nil => exact .ok ⟨List.nil_subset _, rfl⟩
  | cons k hs ih =>
      rw [List.mapM_cons, List.mapM_cons, Bindings.get, Valuation.get, ← h.env k]
      cases hget : f.bindings.get? k with
      | none => exact .error _
      | some t =>
          simp only [Option.map_some, ok_bind]
          obtain ⟨ts, vs, hts, hvs, hsub, rfl⟩ | ⟨error, hts, hvs⟩ := ih.elim
          all_goals rw [hts, hvs]
          · exact .ok ⟨List.cons_subset.mpr ⟨Bindings.mem_tensors_of_get? hget, hsub⟩, rfl⟩
          · exact .error error

theorem Mirrors.meets_gathered (h : S.Mirrors f w v) (hs : List Handle) {k : List Tensor → Call σ γ}
    {k' : List Value → Walk δ}
    (hk : ∀ ts, ts ⊆ f.bindings.tensors → hs.mapM f.bindings.get = .ok ts →
      S.Meets R' ((k' (ts.map (·.value w.store))).outcome v) ((k ts).eval f w)) :
    S.Meets R' ((liftM (hs.mapM v.get) >>= k').outcome v) ((hs.mapM Executor.bound >>= k).eval f w) := by
  rw [Call.eval_bind, Executor.eval_mapM_bound, Effect.outcome_bind, Effect.outcome_lift]
  obtain ⟨ts, vs, hts, hvs, hsub, rfl⟩ | ⟨error, hts, hvs⟩ := (h.agree_get hs).elim
  all_goals rw [hts, hvs]
  · exact hk ts hsub hts
  · exact ⟨h, .error error⟩

/-! ### Evaluating a node -/

/-- What allocating comes to: there are more outputs, of the given types and in buffers of their own, and what is
bound is as it was. -/
structure Allots (S : Setting σ) (f : Frame) (w : World σ) (v : Valuation Value VariableValues)
    (outputs made : List Tensor) (dtypes : List DType) (f' : Frame) (w' : World σ) : Prop where
  mirrors : S.Mirrors f' w' v
  clear : w'.Clear S.variables (f'.held ++ S.context.held) (outputs ++ made)
  types : made.map (·.dtype) = dtypes
  bindings : f'.bindings = f.bindings
  values : ∀ u ∈ f.bindings.tensors, u.value w'.store = u.value w.store

/-- Allocating an output succeeds. -/
theorem Mirrors.exists_output (h : S.Mirrors f w v) {k : Handle} {desc : TensorDesc}
    (hS : S.Fair flags) (hdesc : S.executor.graph.tensors[k]? = some desc) {outputs : List Tensor}
    (hout : w.Clear S.variables (f.held ++ S.context.held) outputs) :
    ∃ t f' w', (S.executor.allocate S.context outputs k).eval f w = ((.ok (outputs ++ [t]), f'), w') ∧
      S.Allots f w v outputs [t] [desc.dtype] f' w' := by
  have hsub := Executor.kept_subset f k
  have hsub' := List.append_subset.mpr ⟨List.subset_append_of_subset_left S.context.held hsub,
    List.subset_append_right f.held S.context.held⟩
  have hframe : Frame.Sound { f with kept := f.kept.set k none } w.store := fun t ht => h.frame t (hsub ht)
  have hreframed : S.Mirrors { f with kept := f.kept.set k none } w v := h.reframe rfl rfl hframe
  rcases Executor.allocate_cases S.context outputs hdesc f w with ⟨t, hentry, hfits, hne, heval⟩ | heval
  · have hmem : t ∈ f.held := Executor.mem_held_of_kept (List.mem_of_getElem? hentry)
    refine ⟨t, _, w, heval, hreframed, (hout.mono hsub').concat (h.frame t hmem) (fun u hu => ?_)
      fun id u hu => ?_, congrArg ([·]) (Executor.dtype_of_fits hfits), rfl, fun _ _ => rfl⟩
    · rw [← List.append_assoc] at hu
      exact hne u (List.mem_append_left _ hu)
    · exact hne u (List.mem_append_right _ (Executor.mem_held_of_variable hu))
  · obtain ⟨hwithin, hnew, hdtype⟩ := Executor.fresh_spec desc w.store
    have hheld : w.store.Holds (f.held ++ S.context.held) :=
      List.forall_mem_append.mpr ⟨h.frame, h.spares.continues.holds hS.held⟩
    have hspares : w.Spares (f.held ++ S.context.held) S.variables
        { w with store := (Executor.fresh desc w.store).2 } :=
      (World.Reaches.of_store hwithin).spares h.spares.sound hheld fun _ _ => not_false
    have hmirrors := hreframed.unchanged (hspares.mono hsub')
      (h.spares.sound.valuesOf_store hwithin S.variables)
    have hclear := (hout.spared hspares).mono hsub'
    refine ⟨_, _, _, heval, hmirrors, hclear.concat hnew.2 (fun u hu => ?_) fun id u hu => ?_,
      congrArg ([·]) hdtype, rfl, fun u hu => ?_⟩
    · obtain hu | hu := List.mem_append.mp hu
      · exact (hnew.ne_buffer (hout.allocated u hu)).symm
      · exact (hnew.ne_buffer (hheld u (hsub' hu))).symm
    · exact (hnew.ne_buffer (h.spares.sound.values S.variables id u hu)).symm
    · exact hspares.kept u (List.mem_append_left _ (mem_held_of_bound hu))

/-- So does allocating all outputs of a node. -/
theorem Mirrors.exists_outputs (h : S.Mirrors f w v) (hS : S.Fair flags) {hs : List Handle}
    (hlt : ∀ k ∈ hs, k < S.executor.graph.tensors.length) {outputs : List Tensor}
    (hout : w.Clear S.variables (f.held ++ S.context.held) outputs) :
    ∃ made f' w', (hs.foldlM (S.executor.allocate S.context) outputs).eval f w
        = ((.ok (outputs ++ made), f'), w') ∧
      S.Allots f w v outputs made (S.executor.graph.typesOf hs) f' w' := by
  induction hs generalizing outputs f w with
  | nil =>
      rw [← List.append_nil outputs] at hout
      exact ⟨[], f, w, by rw [List.append_nil]; rfl, h, hout, rfl, rfl, fun _ _ => rfl⟩
  | cons k hs ih =>
      obtain ⟨hk, hlt⟩ := List.forall_mem_cons.mp hlt
      have hdesc : S.executor.graph.tensors[k]? = some S.executor.graph.tensors[k] :=
        List.getElem?_eq_getElem hk
      obtain ⟨t, f₁, w₁, heval, hfirst⟩ := h.exists_output hS hdesc hout
      obtain ⟨made, f₂, w₂, hevals, hrest⟩ := ih hfirst.mirrors hlt hfirst.clear
      refine ⟨t :: made, f₂, w₂, ?_, hrest.mirrors, ?_, ?_, hrest.bindings.trans hfirst.bindings, fun u hu => ?_⟩
      · rw [List.foldlM_cons, Call.eval_bind_ok heval, hevals, List.append_assoc, List.singleton_append]
      · rw [List.append_cons]
        exact hrest.clear
      · rw [Graph.typesOf, List.filterMap_cons_some (by rw [hdesc, Option.map_some]), List.map_cons, hrest.types]
        exact congrArg (· :: _) (List.singleton_inj.mp hfirst.types)
      · rw [hrest.values u (hfirst.bindings ▸ hu), hfirst.values u hu]

/-- Then an evaluator may be called with inputs that are bound. -/
theorem Allots.ready {outputs inputs : List Tensor} {dtypes : List DType}
    (h : S.Allots f w v [] outputs dtypes f' w') (hS : S.Fair flags) (hinputs : inputs ⊆ f.bindings.tensors) :
    w'.Ready flags S.variables outputs inputs (S.context.holding f'.held) where
  sound := h.mirrors.spares.sound
  idle := hS.idle.continues h.mirrors.spares.continues
  has := h.mirrors.spares.continues.has _ hS.has
  «variables» := hS.variables
  held := List.forall_mem_append.mpr ⟨h.mirrors.frame, h.mirrors.spares.continues.holds hS.held⟩
  inputs _ ht := List.mem_append_left _ (Mirrors.mem_held_of_bound (h.bindings ▸ hinputs ht))
  outputs := h.clear

/-- An evaluator that conforms gives back what is meant, and spares what the call holds. -/
theorem Mirrors.meets_applied (h : S.Mirrors f w v) {ev : Evaluator σ} {operation : Operation} {outs : List DType}
    {meaning : Meaning} (hconforms : ev.Conforms flags operation outs meaning) {outputs inputs : List Tensor}
    (hready : w.Ready flags S.variables outputs inputs (S.context.holding f.held))
    (houtputs : outputs.map (·.dtype) = outs) :
    S.Meets (fun ts f' w' vs => f' = f ∧ ts.map (·.value w'.store) = vs ∧ w'.store.Holds ts ∧
        ∀ t ∈ ts, t.Placed inputs (f.held ++ S.context.held))
      ((Walk.onVariables (meaning (inputs.map (·.value w.store)))).outcome v)
      ((Call.ofRun (ev.apply operation outputs inputs (S.context.holding f.held))).eval f w) := by
  have hmakes := hconforms S.variables outputs inputs _ w hready houtputs
  have hmirrors := h.spared hmakes.spares
  rw [Call.eval_ofRun, hconforms.apply hready houtputs]
  rcases houtcome : (ev.evaluate operation outputs inputs (S.context.holding f.held)).outcome w with ⟨result, w'⟩
  rw [houtcome] at hmakes hmirrors
  obtain ⟨hvars, hresult⟩ := hmakes.means
  rw [h.state] at hvars hresult
  rcases hexpected : (meaning (inputs.map (·.value w.store))).outcome v.state with ⟨expected, vars⟩
  rw [hexpected] at hvars hresult
  obtain rfl : w'.valuesOf S.variables = vars := hvars
  have hwalk : (Walk.onVariables (meaning (inputs.map (·.value w.store)))).outcome v
      = (expected, { v with state := w'.valuesOf S.variables }) := by
    show (_, _) = _
    rw [hexpected]
  rw [hwalk]
  refine ⟨hmirrors, ?_⟩
  obtain ⟨ts, vs, rfl, rfl, hvalues⟩ | ⟨error, rfl, rfl⟩ := hresult.elim
  · exact .ok ⟨rfl, hvalues, hmakes.holds rfl, hmakes.placed rfl⟩
  · exact .error error

/-- An output is bound, or refused by both with the same error. -/
theorem bindOutput_cases {g : Graph (Evaluator σ)} {e : Executor σ} (hg : e.graph = g) (node : Node (Evaluator σ))
    {k : Handle} {desc : TensorDesc} (hdesc : g.tensors[k]? = some desc) (t : Tensor) (position : Nat) (f : Frame)
    (w : World σ) (v : Valuation Value VariableValues) :
    (∃ error, (e.bindOutput node ((k, t), position)).eval f w = ((.error error, f), w) ∧
      (g.bindValue node.op ((k, t.value w.store), position)).outcome v = (.error error, v)) ∨
    ((e.bindOutput node ((k, t), position)).eval f w
        = ((.ok (), { f with bindings := f.bindings.bind k t }), w) ∧
      (g.bindValue node.op ((k, t.value w.store), position)).outcome v
        = (.ok (), v.bind [k] (t.value w.store))) := by
  subst hg
  rw [Graph.bindValue, Effect.outcome_bind, Effect.outcome_lift]
  unfold Executor.bindOutput Graph.checkOutput
  simp only [hdesc, Tensor.hasShape, Tensor.shape_value, Tensor.dtype_value]
  cases hshape : t.shape with
  | none => exact .inl ⟨_, rfl, rfl⟩
  | some shape =>
      by_cases hdtype : t.dtype = desc.dtype
      · simp only [hdtype, ne_eq, not_true_eq_false, if_false]
        exact .inr ⟨rfl, rfl⟩
      · simp only [hdtype, ne_eq, not_false_eq_true, if_true]
        exact .inl ⟨_, rfl, rfl⟩

/-- A tensor may be bound: it shares its buffer with an input of the call or nothing that its caller holds, and
with no slot that is still to be filled. -/
def Binds (S : Setting σ) (f : Frame) (v : Valuation Value VariableValues) (t : Tensor) : Prop :=
  t.Placed S.inputs S.context.held ∧
    ∀ (j : Nat) u, f.slots[j]? = some u → v.results.length ≤ j → u.shape = none ∨ t.buffer ≠ u.buffer

/-- What an evaluator gives back may be bound. -/
theorem Mirrors.binds (h : S.Mirrors f w v) {inputs : List Tensor} (hinputs : inputs ⊆ f.bindings.tensors)
    {t : Tensor} (ht : t.Placed inputs (f.held ++ S.context.held)) : S.Binds f v t := by
  obtain ⟨u, hu, hbuffer⟩ | hne := ht
  · constructor
    · obtain ⟨x, hx, hx'⟩ | hheld := h.placed u (hinputs hu)
      · exact .inl ⟨x, hx, hx'.trans hbuffer⟩
      · exact .inr fun x hx => hbuffer ▸ hheld x hx
    · intro j slot hslot hj
      exact (h.free j slot hslot hj).imp id fun hlone => hbuffer ▸ hlone.bound_ne u (hinputs hu)
  · constructor
    · exact .inr fun u hu => hne u (List.mem_append_right _ hu)
    · intro j slot hslot hj
      exact .inr (hne slot (List.mem_append_left _ (mem_held_of_slot hslot))).symm

theorem Mirrors.meets_bindOutputs (h : S.Mirrors f w v) (node : Node (Evaluator σ)) {hs : List Handle}
    (hlt : ∀ k ∈ hs, k < S.executor.graph.tensors.length) {ts : List Tensor} (hts : w.store.Holds ts)
    (hbinds : ∀ t ∈ ts, S.Binds f v t) (position : Nat) :
    S.Meets (fun _ _ _ _ => True)
      ((((hs.zip (ts.map (·.value w.store))).zipIdx position).forM
        (S.executor.graph.bindValue node.op) : Walk Unit).outcome v)
      ((((hs.zip ts).zipIdx position).forM (S.executor.bindOutput node)).eval f w) := by
  induction hs generalizing ts f v position with
  | nil => exact ⟨h, .ok trivial⟩
  | cons k hs ih =>
      cases ts with
      | nil => exact ⟨h, .ok trivial⟩
      | cons t ts =>
          obtain ⟨hk, hlt⟩ := List.forall_mem_cons.mp hlt
          obtain ⟨ht, hts⟩ := List.forall_mem_cons.mp hts
          obtain ⟨⟨hplaced, hfree⟩, hrest⟩ := List.forall_mem_cons.mp hbinds
          rw [List.map_cons, List.zip_cons_cons, List.zip_cons_cons, List.zipIdx_cons, List.zipIdx_cons]
          show S.Meets _ ((S.executor.graph.bindValue node.op ((k, t.value w.store), position) >>= _).outcome v)
            ((S.executor.bindOutput node ((k, t), position) >>= _).eval f w)
          obtain ⟨error, heval, hexpected⟩ | ⟨heval, hexpected⟩ := bindOutput_cases (e := S.executor) rfl node
            (List.getElem?_eq_getElem hk) t position f w v
          · rw [Call.eval_bind, heval, Effect.outcome_bind, hexpected]
            exact ⟨h, .error error⟩
          · rw [Call.eval_bind_ok heval, Effect.outcome_bind_ok hexpected]
            exact ih (h.bind ht hplaced hfree hk) hlt hts hrest (position + 1)

/-- Recording a time changes only statistics. -/
theorem Mirrors.recorded (h : S.Mirrors f w v) (operation : Operation) (elapsed : Nat) :
    S.Mirrors f ((Run.modifyMemory S.executor.memory fun m =>
      { m with statistics := m.statistics.record operation elapsed }).outcome w).2 v := by
  have hkeeps : Run.Keeps [] (Run.modifyMemory S.executor.memory _ : Run σ Unit) fun _ => [] :=
    Executor.keeps_modifyMemory S.executor.memory
      (g := fun m => { m with statistics := m.statistics.record operation elapsed }) fun _ => rfl
  obtain ⟨hsound, hcontinues, -⟩ := hkeeps w h.spares.sound nofun
  exact h.unchanged (hcontinues.spares hsound rfl rfl) rfl

theorem Mirrors.meets_bindProduced (h : S.Mirrors f w v) {node : Node (Evaluator σ)}
    (hnode : node ∈ S.executor.graph.nodes) {ts : List Tensor} (hts : w.store.Holds ts)
    (hbinds : ∀ t ∈ ts, S.Binds f v t) (collect : Bool) (start : Nat) :
    S.Meets (fun _ _ _ _ => True)
      (((node.outputs.zip (ts.map (·.value w.store))).zipIdx.forM
        (S.executor.graph.bindValue node.op) : Walk Unit).outcome v)
      ((S.executor.bindProduced collect node start ts).eval f w) := by
  have hlt : ∀ k ∈ node.outputs, k < S.executor.graph.tensors.length :=
    fun k hk => S.executor.graph.output_lt hnode hk
  cases collect with
  | false => exact h.meets_bindOutputs node hlt hts hbinds 0
  | true => exact (h.recorded node.toOperation (w.clock - start)).meets_bindOutputs node hlt hts hbinds 0

/-- A node whose evaluator conforms is evaluated as its operation is meant. -/
theorem Mirrors.meets_evaluateNode (h : S.Mirrors f w v) (hS : S.Fair flags) {node : Node (Evaluator σ)}
    (hnode : node ∈ S.executor.graph.nodes) {ev : Evaluator σ} (hev : S.executor.evaluatorOf node = .ok ev)
    {meaning : Meaning}
    (hconforms : ev.Conforms flags node.toOperation (S.executor.graph.typesOf node.outputs) meaning)
    (collect : Bool) :
    S.Meets (fun _ _ _ _ => True)
      ((do
        let inputs ← (node.inputs.mapM v.get : Except Error (List Value))
        let produced ← Walk.onVariables (meaning inputs)
        (node.outputs.zip produced).zipIdx.forM (S.executor.graph.bindValue node.op) : Walk Unit).outcome v)
      ((S.executor.evaluateNode S.context collect node).eval f w) := by
  rw [Executor.evaluateNode_eq]
  refine h.meets_gathered node.inputs fun inputs hinputs _ => ?_
  obtain ⟨outputs, f₁, w₁, hallocate, hallots⟩ := h.exists_outputs hS
    (fun k hk => S.executor.graph.output_lt hnode hk) (World.clear_nil w S.variables _)
  have h₁ : S.Mirrors { f₁ with dispatched := node.id :: f₁.dispatched } w₁ v :=
    hallots.mirrors.reframe rfl rfl hallots.mirrors.frame
  have hvalues : inputs.map (·.value w.store) = inputs.map (·.value w₁.store) :=
    (List.map_congr_left fun t ht => hallots.values t (hinputs ht)).symm
  rw [List.nil_append] at hallocate
  rw [Call.eval_bind_ok hallocate, hev, Call.eval_bind_ok (Call.eval_lift f₁ w₁ _),
    Call.eval_bind_ok (Call.eval_modify f₁ w₁ _), Call.eval_bind_ok (Call.eval_get _ w₁),
    Call.eval_bind_ok (Call.eval_getWorld _ w₁), hvalues]
  refine (h₁.meets_applied hconforms (hallots.ready hS hinputs) hallots.types).bind ?_
  rintro ts _ _ w₂ v₂ - h₂ ⟨rfl, rfl, hholds, hplaced⟩
  have hinputs₁ : inputs ⊆ f₁.bindings.tensors := hallots.bindings ▸ hinputs
  exact h₂.meets_bindProduced hnode hholds (fun t ht => h₂.binds hinputs₁ (hplaced t ht)) collect w₁.clock

/-! ### Delivering a result -/

/-- What is done to the slot at a place spares all else that the call reads. -/
structure Leaves (S : Setting σ) (f : Frame) (j : Nat) (w w' : World σ) : Prop where
  spares : w.Spares S.context.held S.variables w'
  same : w'.variables = w.variables
  state : w'.valuesOf S.variables = w.valuesOf S.variables
  bound : ∀ t ∈ f.bindings.tensors, t.value w'.store = t.value w.store
  slot : ∀ (k : Nat) t, k ≠ j → f.slots[k]? = some t → t.value w'.store = t.value w.store

theorem Leaves.refl (hw : w.Sound) (j : Nat) : S.Leaves f j w w :=
  ⟨.refl hw, rfl, rfl, fun _ _ => rfl, fun _ _ _ _ => rfl⟩

/-- Writing into a slot's buffer does. -/
theorem Lone.leaves {j : Nat} {slot : Tensor} (hlone : S.Lone f w j slot) (h : S.Mirrors f w v)
    (hS : S.Fair flags) {s : Store} (hs : w.store.Within (· = slot.buffer) s) :
    S.Leaves f j w { w with store := s } where
  spares := (World.Reaches.of_store hs).spares h.spares.sound (h.spares.continues.holds hS.held) hlone.held_ne
  same := rfl
  state := funext fun id => World.valuesOf_store hs fun t ht =>
    ⟨h.spares.sound.values S.variables id t ht, hlone.variable_ne id t ht⟩
  bound t ht := Tensor.value_within hs (h.frame t (Mirrors.mem_held_of_bound ht)) (hlone.bound_ne t ht)
  slot k t hk ht := Tensor.value_within hs (h.frame t (Mirrors.mem_held_of_slot ht)) (hlone.slot_ne k t hk ht)

/-- Filling the next slot. -/
theorem Mirrors.fill (h : S.Mirrors f w v) (hw : S.Leaves f v.results.length w w') {slot slot' : Tensor}
    (hslot : f.slots[v.results.length]? = some slot)
    (hslot' : slot' ∈ f.bindings.tensors ∨ slot' = slot ∧ slot'.Placed S.inputs S.context.held) :
    S.Mirrors { f with slots := f.slots.set v.results.length slot' } w'
      { v with results := v.results ++ [slot'.value w'.store] } where
  spares := h.spares.trans hw.spares
  frame t ht := by
    obtain ht | ht := List.mem_append.mp ht
    · exact hw.spares.continues.store _ (h.frame t (List.mem_append_left _ ht))
    · obtain ht | rfl := List.mem_or_eq_of_mem_set ht
      · exact hw.spares.continues.store _ (h.frame t (List.mem_append_right _ ht))
      · obtain hbound | ⟨rfl, -⟩ := hslot'
        · exact hw.spares.continues.store _ (h.frame t (mem_held_of_bound hbound))
        · exact hw.spares.continues.store _ (h.frame t (mem_held_of_slot hslot))
  length := h.length
  places := (List.length_set ..).trans h.places
  env k := by
    rw [← h.env k]
    cases hget : f.bindings.get? k with
    | none => rfl
    | some t => exact congrArg some (hw.bound t (Bindings.mem_tensors_of_get? hget))
  state := hw.state.trans h.state
  placed := h.placed
  filled j t ht hj := by
    rw [List.length_append, List.length_singleton] at hj
    by_cases hp : j = v.results.length
    · subst hp
      rw [List.getElem?_set_self (List.getElem?_eq_some_iff.mp hslot).1] at ht
      obtain rfl := Option.some.inj ht
      refine ⟨List.getElem?_concat_length, ?_⟩
      obtain hbound | ⟨-, hplaced⟩ := hslot'
      · exact h.placed slot' hbound
      · exact hplaced
    · rw [List.getElem?_set_ne (Ne.symm hp)] at ht
      rw [List.getElem?_append_left (by omega), hw.slot j t hp ht]
      exact h.filled j t ht (by omega)
  unfilled j hj := by
    rw [List.length_append, List.length_singleton] at hj
    rw [List.getElem?_set_ne (by omega)]
    exact h.unfilled j (by omega)
  free j t ht hj := by
    rw [List.length_append, List.length_singleton] at hj
    rw [List.getElem?_set_ne (by omega)] at ht
    refine (h.free j t ht (by omega)).imp id fun hlone => ⟨hlone.bound_ne, hlone.held_ne, ?_, fun k u hk hu => ?_⟩
    · rw [hw.same]
      exact hlone.variable_ne
    · by_cases hp : k = v.results.length
      · subst hp
        rw [List.getElem?_set_self (List.getElem?_eq_some_iff.mp hslot).1] at hu
        obtain rfl := Option.some.inj hu
        obtain hbound | ⟨rfl, -⟩ := hslot'
        · exact hlone.bound_ne slot' hbound
        · exact hlone.slot_ne _ _ hk hslot
      · rw [List.getElem?_set_ne (Ne.symm hp)] at hu
        exact hlone.slot_ne k u hk hu

/-- Delivering the value of something bound fills the next slot with it. -/
theorem Mirrors.exists_delivered (h : S.Mirrors f w v) (hS : S.Fair flags) {slot value : Tensor}
    (hslot : f.slots[v.results.length]? = some slot) (hvalue : value ∈ f.bindings.tensors) :
    ∃ slot' w', (Executor.deliver slot value : Run σ Tensor).outcome w = (.ok slot', w') ∧
      value.value w'.store = value.value w.store ∧
      S.Mirrors { f with slots := f.slots.set v.results.length slot' } w'
        { v with results := v.results ++ [value.value w.store] } := by
  rcases Executor.deliver_cases slot value w with ⟨-, houtcome⟩ | ⟨hnone, hshape, hdtype, s, hcopy, houtcome⟩
  · exact ⟨value, w, houtcome, rfl, h.fill (.refl h.spares.sound _) hslot (.inl hvalue)⟩
  · obtain hlone : S.Lone f w v.results.length slot := by
      refine (h.free _ slot hslot (Nat.le_refl _)).resolve_left fun hshape => hnone ?_
      rw [hshape]
      rfl
    have hne : value.buffer ≠ slot.buffer := hlone.bound_ne value hvalue
    obtain rfl := Executor.eq_write_of_copyFrom hcopy hne.symm
    have hwithin : w.store.Within (· = slot.buffer) (w.store.write slot.buffer (value.bytes w.store)) :=
      Executor.copyFrom_within hcopy
    have halloc : w.store.Allocated slot.buffer := h.frame slot (mem_held_of_slot hslot)
    have hfilled : slot.value (w.store.write slot.buffer (value.bytes w.store)) = value.value w.store := by
      rw [Tensor.value, Tensor.value, Tensor.bytes, Store.bytes_write_same _ _ halloc, hshape, hdtype]
    have hleaves := hlone.leaves h hS hwithin
    refine ⟨slot, _, houtcome, hleaves.bound value hvalue, ?_⟩
    · rw [← hfilled]
      exact h.fill hleaves hslot (.inr ⟨rfl, .inr hlone.held_ne⟩)

/-- A result is delivered as it is passed on. -/
theorem Mirrors.meets_deliverNode (h : S.Mirrors f w v) (hS : S.Fair flags)
    (run : Operation → List DType → Meaning) {before rest : List (Node (Evaluator σ))} {node : Node (Evaluator σ)}
    (hnodes : S.executor.graph.nodes = before ++ node :: rest) (hparameter : ¬ node.isParameter = true)
    (hresult : node.isResult = true) (hcount : v.results.length = (before.filter (·.isResult)).length) :
    S.Meets (fun _ _ _ _ => True) ((S.executor.graph.stepValues run node).outcome v)
      ((S.executor.deliverNode node).eval f w) := by
  have hnode : node ∈ S.executor.graph.nodes := hnodes ▸ List.mem_append_right _ List.mem_cons_self
  obtain ⟨input, output, hinput, houtput⟩ := S.executor.graph.result_form hnode hresult
  obtain ⟨slot, hslot⟩ := Executor.exists_slot hnodes hresult h.places
  rw [Executor.eval_deliverNode hnodes hresult hinput houtput hslot w,
    Graph.outcome_stepValues_result _ run hparameter hresult hinput houtput, Bindings.get, Valuation.get,
    ← h.env input]
  cases hget : f.bindings.get? input with
  | none => exact ⟨h, .error _⟩
  | some value =>
      have hbound : value ∈ f.bindings.tensors := Bindings.mem_tensors_of_get? hget
      rw [← hcount] at hslot ⊢
      obtain ⟨slot', w', hdeliver, hvalue, h'⟩ := h.exists_delivered hS hslot hbound
      have hfinal := h'.bind (t := value) (h'.frame value (mem_held_of_bound hbound)) (h.placed value hbound)
        (fun j u hu hj => (h'.free j u hu hj).imp id fun hlone => hlone.bound_ne value hbound)
        (S.executor.graph.output_lt hnode (houtput ▸ List.mem_singleton_self output))
      simp only [Option.map_some, hdeliver]
      rw [hvalue] at hfinal
      exact ⟨hfinal, .ok trivial⟩

/-! ### All nodes -/

/-- Looking for a request to cancel finds none. -/
theorem Mirrors.exists_polled (h : S.Mirrors f w v) (hS : S.Fair flags) :
    ∃ w', S.executor.takeCancel.eval f w = ((.ok false, f), w') ∧ S.Mirrors f w' v := by
  obtain ⟨w', houtcome, hspares, hvars, -⟩ := S.executor.exists_taken h.spares.sound
    (hS.idle.continues h.spares.continues _ hS.flag) (f.held ++ S.context.held) S.variables
  refine ⟨w', ?_, h.unchanged hspares hvars⟩
  rw [Executor.takeCancel, Call.eval_ofRun, houtcome]

/-- If evaluators conform, a call that nobody cancels ends as the walk on values does. -/
theorem Mirrors.meets_runNodes (h : S.Mirrors f w v) (hS : S.Fair flags)
    {run : Operation → List DType → Meaning} (hrun : S.executor.Conforms flags run) (collect : Bool)
    {before nodes : List (Node (Evaluator σ))} (hnodes : S.executor.graph.nodes = before ++ nodes)
    (hcount : v.results.length = (before.filter (·.isResult)).length) :
    S.Meets (fun status _ _ _ => status = .completed)
      ((nodes.forM (S.executor.graph.stepValues run) : Walk Unit).outcome v)
      ((S.executor.runNodes S.context collect nodes).eval f w) := by
  induction nodes generalizing before f w v with
  | nil => exact ⟨h, .ok rfl⟩
  | cons node rest ih =>
      have hnode : node ∈ S.executor.graph.nodes := hnodes ▸ List.mem_append_right _ List.mem_cons_self
      have hrest : S.executor.graph.nodes = (before ++ [node]) ++ rest := by
        rw [hnodes, List.append_assoc, List.singleton_append]
      obtain ⟨w₁, hpolled, h₁⟩ := h.exists_polled hS
      unfold Executor.runNodes
      rw [Call.eval_bind_ok hpolled]
      simp only [Bool.false_eq_true, if_false]
      show S.Meets _ ((S.executor.graph.stepValues run node >>= fun _ =>
        rest.forM (S.executor.graph.stepValues run) : Walk Unit).outcome v) _
      by_cases hparameter : node.isParameter = true
      · rw [if_pos hparameter, Graph.stepValues_parameter _ run hparameter]
        refine ih h₁ hrest ?_
        rw [hcount, List.filter_append, List.filter_cons_of_neg (Node.not_isResult hparameter), List.filter_nil,
          List.append_nil]
      · rw [if_neg hparameter]
        by_cases hresult : node.isResult = true
        · rw [if_pos hresult]
          refine (h₁.meets_deliverNode hS run hnodes hparameter hresult hcount).bind ?_
          intro _ _ f₂ w₂ v₂ hstep h₂ _
          refine ih h₂ hrest ?_
          rw [Graph.length_results_of_result _ run hnode hparameter hresult hstep, hcount, List.filter_append,
            List.filter_cons_of_pos hresult, List.filter_nil, List.length_append, List.length_singleton]
        · rw [if_neg hresult]
          obtain ⟨ev, hev, hconforms⟩ := hrun node hnode hparameter hresult
          have hevaluate := h₁.meets_evaluateNode hS hnode hev hconforms collect
          rw [← Graph.stepValues_operator _ run hparameter hresult] at hevaluate
          refine hevaluate.bind ?_
          intro _ _ f₂ w₂ v₂ hstep h₂ _
          obtain ⟨w₃, hpolled', h₃⟩ := h₂.exists_polled hS
          rw [Call.eval_bind_ok hpolled']
          simp only [Bool.false_eq_true, if_false]
          refine ih h₃ hrest ?_
          have hresults := Graph.results_stepValues S.executor.graph run hparameter hresult v
          rw [hstep] at hresults
          rw [hresults, hcount, List.filter_append, List.filter_cons_of_neg hresult, List.filter_nil,
            List.append_nil]

end Setting

end TensorGraph
