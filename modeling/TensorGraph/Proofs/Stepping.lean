import TensorGraph.Proofs.Refinement

/-! # What holds all along a call

`Call.Ensures P m R E` says that from a frame and world of which `P` holds, `m` ends in ones of which `R`
holds if it returns something, and `E` if it fails; it passes through binds.  An invariant of a call is a
property of the nodes walked so far, the frame and the world that every step keeps (`Executor.Invariant`);
it then holds wherever a walk over some of the nodes ends (`Invariant.ensures_runNodes`). -/

namespace TensorGraph

variable {σ α β : Type}

namespace Call

/-- From every frame and world of which `P` holds, a computation within a call returns something of which
`R` holds, or fails so that `E` holds. -/
def Ensures (P : Frame → World σ → Prop) (m : Call σ α) (R : α → Frame → World σ → Prop)
    (E : Error → Frame → World σ → Prop) : Prop :=
  ∀ f w, P f w → match m.eval f w with
    | ((.ok a, f'), w') => R a f' w'
    | ((.error error, f'), w') => E error f' w'

variable {P : Frame → World σ → Prop} {R : α → Frame → World σ → Prop}
  {R' : β → Frame → World σ → Prop} {E : Error → Frame → World σ → Prop}

theorem Ensures.of_ok {m : Call σ α} (h : Ensures P m R E) {f f' : Frame} {w w' : World σ} {a : α}
    (hP : P f w) (heval : m.eval f w = ((.ok a, f'), w')) : R a f' w' := by
  have hends := h f w hP
  rwa [heval] at hends

theorem Ensures.of_error {m : Call σ α} (h : Ensures P m R E) {f f' : Frame} {w w' : World σ}
    {error : Error} (hP : P f w) (heval : m.eval f w = ((.error error, f'), w')) : E error f' w' := by
  have hends := h f w hP
  rwa [heval] at hends

theorem Ensures.bind {m : Call σ α} {k : α → Call σ β} (hm : Ensures P m R E)
    (hk : ∀ a, Ensures (R a) (k a) R' E) : Ensures P (m >>= k) R' E := by
  intro f w hP
  rw [eval_bind]
  rcases heval : m.eval f w with ⟨⟨error | a, f'⟩, w'⟩
  · exact hm.of_error hP heval
  · exact hk a f' w' (hm.of_ok hP heval)

theorem Ensures.imp {m : Call σ α} {R₁ : α → Frame → World σ → Prop}
    {E₁ : Error → Frame → World σ → Prop} (h : Ensures P m R E) (hR : ∀ a f w, R a f w → R₁ a f w)
    (hE : ∀ error f w, E error f w → E₁ error f w) : Ensures P m R₁ E₁ := by
  intro f w hP
  rcases heval : m.eval f w with ⟨⟨error | a, f'⟩, w'⟩
  · exact hE error f' w' (h.of_error hP heval)
  · exact hR a f' w' (h.of_ok hP heval)

theorem ensures_pure {a : α} (h : ∀ f w, P f w → R a f w) : Ensures P (pure a) R E :=
  fun f w hP => h f w hP

theorem ensures_lift_bind {m : Except Error α} {k : α → Call σ β}
    (hok : ∀ a, m = .ok a → Ensures P (k a) R' E)
    (herror : ∀ error, m = .error error → ∀ f w, P f w → E error f w) :
    Ensures P (liftM m >>= k) R' E := by
  cases m with
  | error error => exact fun f w hP => herror error rfl f w hP
  | ok a => exact fun f w hP => hok a rfl f w hP

theorem ensures_modify {g : Frame → Frame} {R : Unit → Frame → World σ → Prop}
    (h : ∀ f w, P f w → R () (g f) w) : Ensures P (modify g) R E :=
  fun f w hP => h f w hP

/-- What is read of the frame may be used afterwards. -/
theorem ensures_get_bind {k : Frame → Call σ β}
    (h : ∀ f, Ensures (fun f' w => f' = f ∧ P f' w) (k f) R' E) : Ensures P (get >>= k) R' E :=
  fun f w hP => h f f w ⟨rfl, hP⟩

theorem ensures_getWorld_bind {k : World σ → Call σ β}
    (h : ∀ w, Ensures P (k w) R' E) : Ensures P (getThe (World σ) >>= k) R' E :=
  fun f w hP => h w f w hP

theorem ensures_forM {ι : Type} {k : ι → Call σ Unit} {is : List ι}
    (h : ∀ i ∈ is, Ensures P (k i) (fun _ => P) E) : Ensures P (is.forM k) (fun _ => P) E := by
  induction is with
  | nil => exact ensures_pure fun _ _ hP => hP
  | cons i is ih =>
      show Ensures P (k i >>= fun _ => is.forM k) (fun _ => P) E
      exact (h i List.mem_cons_self).bind fun _ => ih fun j hj => h j (List.mem_cons_of_mem _ hj)

end Call

/-- The frame after a result has been bound, and handed to a slot. -/
def Frame.delivered (f : Frame) (output : Handle) (value : Tensor) (position : Nat) (slot : Tensor) :
    Frame :=
  { f with bindings := f.bindings.bind output value, slots := f.slots.set position slot }

namespace Executor

variable {e : Executor σ}

/-- Reading tensors changes neither the frame nor the world. -/
theorem eval_mapM_bound (hs : List Handle) (f : Frame) (w : World σ) :
    (hs.mapM bound : Call σ (List Tensor)).eval f w = ((hs.mapM f.bindings.get, f), w) := by
  induction hs with
  | nil => rfl
  | cons h hs ih =>
      have hbound : (bound h : Call σ Tensor).eval f w = ((f.bindings.get h, f), w) := rfl
      rw [List.mapM_cons, List.mapM_cons, Call.eval_bind, hbound]
      rcases f.bindings.get h with error | t
      · rfl
      · rw [ok_bind]
        simp only [Call.eval_bind, ih]
        rcases hs.mapM f.bindings.get with error | ts <;> rfl

/-- One more output is a tensor of the described type, in a new buffer or in one that neither the caller, the
call nor the world holds.  What is bound, and what the world is apart from new buffers, stays as it is. -/
theorem exists_output (c : Context) (outputs : List Tensor) {h : Handle} {desc : TensorDesc}
    (hdesc : e.graph.tensors[h]? = some desc) (f : Frame) (w : World σ) :
    ∃ t kept s, (e.allocate c outputs h).eval f w
        = ((.ok (outputs ++ [t]), { f with kept := kept }), { w with store := s }) ∧
      w.store.Within (fun _ => False) s ∧ t.dtype = desc.dtype ∧
      (w.store.IsNew s t ∨ ∀ u ∈ f.bindings.tensors ++ c.held ++ w.held, u.buffer ≠ t.buffer) := by
  rcases allocate_cases c outputs hdesc f w with ⟨t, -, hfits, hne, heval⟩ | heval
  · refine ⟨t, f.kept.set h none, w.store, heval, .refl _ _, dtype_of_fits hfits, .inr fun u hu => hne u ?_⟩
    simp only [Frame.held, List.mem_append] at hu ⊢
    rcases hu with (hu | hu) | hu
    · exact .inl (.inl (.inr (.inl (.inl hu))))
    · exact .inl (.inr hu)
    · exact .inr hu
  · obtain ⟨hwithin, hnew, hdtype⟩ := fresh_spec desc w.store
    exact ⟨_, f.kept.set h none, _, heval, hwithin, hdtype, .inl hnew⟩

/-- Allocating outputs never fails.  There is one for each described tensor, and none lies in a buffer of the
caller, the call or the world; it takes tensors that were kept, and makes new buffers. -/
theorem exists_outputs (c : Context) (hs : List Handle) (outputs : List Tensor) (f : Frame)
    (w : World σ) : ∃ made kept s, (hs.foldlM (e.allocate c) outputs).eval f w
        = ((.ok (outputs ++ made), { f with kept := kept }), { w with store := s }) ∧
      w.store.Within (fun _ => False) s ∧
      ((∀ h ∈ hs, h < e.graph.tensors.length) → made.length = hs.length) ∧
      ∀ u ∈ f.bindings.tensors ++ c.held ++ w.held, w.store.Allocated u.buffer →
        ∀ t ∈ made, t.buffer ≠ u.buffer := by
  induction hs generalizing outputs f w with
  | nil =>
      exact ⟨[], f.kept, w.store, by rw [List.append_nil]; rfl, .refl _ _, fun _ => rfl,
        fun _ _ _ _ ht => nomatch ht⟩
  | cons h hs ih =>
      rw [List.foldlM_cons]
      cases hdesc : e.graph.tensors[h]? with
      | none =>
          have hsame : (e.allocate c outputs h).eval f w = ((.ok outputs, f), w) := by
            unfold allocate
            rw [hdesc]
            rfl
          obtain ⟨made, kept, s, heval, hwithin, _, hne⟩ := ih outputs f w
          rw [Call.eval_bind_ok hsame]
          refine ⟨made, kept, s, heval, hwithin, fun hlt => ?_, hne⟩
          exact absurd (hlt h List.mem_cons_self) (Nat.not_lt.mpr (List.getElem?_eq_none_iff.mp hdesc))
      | some desc =>
          obtain ⟨t, kept₁, s₁, hone, hwithin₁, _, hout⟩ := exists_output c outputs hdesc f w
          obtain ⟨made, kept, s, heval, hwithin, hlength, hne⟩ :=
            ih (outputs ++ [t]) { f with kept := kept₁ } { w with store := s₁ }
          rw [Call.eval_bind_ok hone]
          refine ⟨t :: made, kept, s, ?_, hwithin₁.trans hwithin fun _ _ hb => hb, fun hlt => ?_,
            fun u hu hallocated => List.forall_mem_cons.mpr ⟨?_, ?_⟩⟩
          · rw [heval, List.append_assoc]
            rfl
          · rw [List.length_cons, List.length_cons, hlength (List.forall_mem_cons.mp hlt).2]
          · obtain hnew | hheld := hout
            · exact fun heq => hnew.1 (heq ▸ hallocated)
            · exact (hheld u hu).symm
          · exact hne u hu (hwithin₁.grows _ hallocated)

/-- There is a slot for every result. -/
theorem exists_slot {before rest : List (Node (Evaluator σ))} {node : Node (Evaluator σ)}
    (hnodes : e.graph.nodes = before ++ node :: rest) (hresult : node.isResult = true) {f : Frame}
    (hplaces : f.slots.length = e.graph.results.length) :
    ∃ slot, f.slots[(before.filter (·.isResult)).length]? = some slot := by
  have hlt := (List.idxOf?_eq_some_iff.mp (e.graph.idxOf_results hnodes hresult)).1
  rw [← hplaces] at hlt
  exact ⟨_, List.getElem?_eq_getElem hlt⟩

/-- Delivering writes into the slot or into nothing. -/
theorem within_deliver (slot value : Tensor) (w : World σ) :
    w.store.Within (· = slot.buffer) ((deliver slot value : Run σ Tensor).outcome w).2.store := by
  rcases deliver_cases slot value w with ⟨-, houtcome⟩ | ⟨-, -, -, s, hcopy, houtcome⟩
  · rw [houtcome]
    exact .refl _ w.store
  · rw [houtcome]
    exact copyFrom_within hcopy

/-- A result hands what it reads to the slot whose place is the number of results before it, and fails
only if it cannot read it or the slot cannot take it. -/
theorem eval_deliverNode {before rest : List (Node (Evaluator σ))} {node : Node (Evaluator σ)}
    (hnodes : e.graph.nodes = before ++ node :: rest) (hresult : node.isResult = true)
    {input output : Handle} (hinput : node.inputs = [input]) (houtput : node.outputs = [output])
    {f : Frame} {slot : Tensor} (hslot : f.slots[(before.filter (·.isResult)).length]? = some slot)
    (w : World σ) :
    (e.deliverNode node).eval f w = match f.bindings.get input with
      | .error error => ((.error error, f), w)
      | .ok value => match (deliver slot value : Run σ Tensor).outcome w with
        | (.error error, w') => ((.error error, f), w')
        | (.ok slot', w') =>
          ((.ok (), f.delivered output value (before.filter (·.isResult)).length slot'), w') := by
  unfold deliverNode
  rw [Call.eval_bind, eval_mapM_bound, hinput, houtput, e.graph.idxOf_results hnodes hresult]
  rw [List.mapM_cons, List.mapM_nil]
  rcases f.bindings.get input with error | value
  · rfl
  · simp only [ok_bind, pure, Except.pure]
    rw [Call.eval_bind_ok (Call.eval_get f w)]
    simp only [hslot]
    rw [Call.eval_bind, Call.eval_ofRun]
    rcases (deliver slot value : Run σ Tensor).outcome w with ⟨error | slot', w'⟩ <;> rfl

/-! ### The start of a call -/

theorem get?_foldl_bind_of_not_mem (pairs : List (Handle × Tensor)) (b : Bindings) {h : Handle}
    (hh : h ∉ pairs.map (·.1)) : (pairs.foldl (fun b (h, t) => b.bind h t) b).get? h = b.get? h := by
  induction pairs generalizing b with
  | nil => rfl
  | cons p pairs ih =>
      obtain ⟨hne, hh⟩ := not_or.mp (mt List.mem_cons.mpr hh)
      exact (ih _ hh).trans (Bindings.get?_bind_ne b p.2 (Ne.symm hne))

theorem get?_foldl_bind_of_mem {pairs : List (Handle × Tensor)} {b : Bindings}
    (hnodup : (pairs.map (·.1)).Nodup) (hlt : ∀ p ∈ pairs, p.1 < b.length) {p : Handle × Tensor}
    (hp : p ∈ pairs) : (pairs.foldl (fun b (h, t) => b.bind h t) b).get? p.1 = some p.2 := by
  induction pairs generalizing b with
  | nil => exact (List.not_mem_nil hp).elim
  | cons q pairs ih =>
      obtain ⟨hnew, hnodup⟩ := List.nodup_cons.mp hnodup
      obtain ⟨hq, hlt⟩ := List.forall_mem_cons.mp hlt
      rcases List.mem_cons.mp hp with rfl | hp
      · exact (get?_foldl_bind_of_not_mem pairs _ hnew).trans (Bindings.get?_bind_same p.2 hq)
      · have hlength : (b.bind q.1 q.2).length = b.length := List.length_set ..
        exact ih hnodup (fun r hr => hlength.symm ▸ hlt r hr) hp

/-- An input is bound to its parameter. -/
theorem get?_bindInputs_of_mem {g : Graph (Evaluator σ)} {inputs : List Tensor}
    (hlength : inputs.length = g.parameters.length) {p : Handle × Tensor}
    (hp : p ∈ g.parameterHandles.zip inputs) : (bindInputs g inputs).get? p.1 = some p.2 := by
  refine get?_foldl_bind_of_mem ?_ (fun q hq => ?_) hp
  · rw [List.map_fst_zip (Nat.le_of_eq (g.length_parameterHandles.trans hlength.symm))]
    exact g.nodup_parameterHandles
  · rw [show (Bindings.empty g.tensors.length).length = g.tensors.length from List.length_replicate]
    exact g.parameterHandles_lt (List.of_mem_zip hq).1

theorem get?_bindInputs_getElem {g : Graph (Evaluator σ)} {inputs : List Tensor}
    (hlength : inputs.length = g.parameters.length) {i : Nat} (hi : i < g.parameterHandles.length)
    (hi' : i < inputs.length) : (bindInputs g inputs).get? g.parameterHandles[i] = some inputs[i] :=
  get?_bindInputs_of_mem hlength
    (List.mem_iff_getElem.mpr ⟨i, by rw [List.length_zip]; omega, List.getElem_zip⟩)

/-- Nothing else is bound. -/
theorem mem_zip_of_get?_bindInputs {g : Graph (Evaluator σ)} {inputs : List Tensor} {h : Handle}
    {t : Tensor} (hget : (bindInputs g inputs).get? h = some t) :
    (h, t) ∈ g.parameterHandles.zip inputs := by
  have hfold : ∀ (pairs : List (Handle × Tensor)) (b : Bindings),
      (pairs.foldl (fun b (h, t) => b.bind h t) b).get? h = some t →
        (h, t) ∈ pairs ∨ b.get? h = some t := by
    intro pairs
    induction pairs with
    | nil => exact fun b hget => .inr hget
    | cons p pairs ih =>
        intro b hget
        rcases ih _ hget with hmem | hbound
        · exact .inl (List.mem_cons_of_mem _ hmem)
        by_cases hp : p.1 = h
        · have hlt : p.1 < b.length := by
            by_contra hge
            replace hbound : Bindings.get? (b.set p.1 (some p.2)) h = some t := hbound
            rw [List.set_eq_of_length_le (Nat.not_lt.mp hge), ← hp] at hbound
            simp [Bindings.get?, List.getElem?_eq_none (Nat.not_lt.mp hge)] at hbound
          rw [← hp, Bindings.get?_bind_same p.2 hlt] at hbound
          obtain rfl := Option.some.inj hbound
          exact .inl (hp ▸ List.mem_cons_self)
        · rw [Bindings.get?_bind_ne b p.2 hp] at hbound
          exact .inr hbound
  refine (hfold _ _ hget).resolve_right fun hempty => ?_
  simp only [Bindings.get?, Bindings.empty, List.getElem?_replicate] at hempty
  split at hempty <;> simp at hempty

/-- The world in which the nodes of a call are walked: a request to cancel has been looked for, and
variables have been given zeros. -/
def startedWorld (e : Executor σ) (inputs : List Tensor) (c : Context) (w : World σ) : World σ :=
  ((initVariables e.graph (c.variables.getD e.variables) inputs).outcome
    ((Run.takeCancel e.cancel).outcome w).2).2

/-- Variables have been given new tensors, and nothing else has changed since the request was looked for. -/
theorem reaches_startedWorld (inputs : List Tensor) (c : Context) (w : World σ) :
    ((Run.takeCancel e.cancel).outcome w).2.Reaches (fun _ => False) (e.startedWorld inputs c w) := by
  obtain ⟨w', houtcome, hreaches⟩ := exists_reaches_initVariables e.graph
    (c.variables.getD e.variables) inputs ((Run.takeCancel e.cancel).outcome w).2
  rw [startedWorld, houtcome]
  exact hreaches

theorem within_startedWorld (inputs : List Tensor) (c : Context) (w : World σ) :
    w.store.Within (fun _ => False) (e.startedWorld inputs c w).store :=
  (reaches_startedWorld inputs c w).store

theorem outcome_takeCancel_of {w : World σ} {requested : Bool}
    (hcancel : w.cancelRequested e.cancel = requested) :
    (Run.takeCancel e.cancel : Run σ Bool).outcome w
      = (.ok requested, ((Run.takeCancel e.cancel).outcome w).2) := by
  rw [← hcancel]
  rfl

/-- Looking for a request leaves none. -/
theorem cancelRequested_taken (w : World σ) :
    ((Run.takeCancel e.cancel : Run σ Bool).outcome w).2.cancelRequested e.cancel = false := by
  show ((w.cancelFlags.put e.cancel ⟨false⟩).get e.cancel).requested = false
  rw [Table.get_put]
  split
  · rfl
  · rename_i hnone
    have hsize : ¬ e.cancel.index < w.cancelFlags.entries.size := fun hlt => hnone ⟨rfl, hlt⟩
    rw [Table.get, Array.getElem?_eq_none (Nat.not_lt.mp hsize)]
    rfl

theorem cancelRequested_startedWorld (w : World σ) (inputs : List Tensor) (c : Context) :
    (e.startedWorld inputs c w).cancelRequested e.cancel = false := by
  obtain ⟨_, _, hsame⟩ := (reaches_startedWorld (e := e) inputs c w).same
  rw [hsame]
  exact cancelRequested_taken w

/-- A call that has been asked to cancel returns its slots. -/
theorem outcome_executeNodes_pending {w : World σ} (hcancel : w.cancelRequested e.cancel = true)
    (nodes : List (Node (Evaluator σ))) (slots inputs : List Tensor) (c : Context) (collect : Bool) :
    (e.executeNodes nodes slots inputs c collect).outcome w
      = (.ok (.cancelled, slots), ((Run.takeCancel e.cancel).outcome w).2) := by
  rw [executeNodes, Run.outcome_bind_ok (outcome_takeCancel_of hcancel), if_pos rfl]
  rfl

/-- A call that refuses its operands does nothing else. -/
theorem outcome_executeNodes_rejected {slots inputs : List Tensor} {w : World σ} {error : Error}
    (hcancel : w.cancelRequested e.cancel = false) (hcheck : checkOperands e.graph slots inputs = .error error)
    (nodes : List (Node (Evaluator σ))) (c : Context) (collect : Bool) :
    (e.executeNodes nodes slots inputs c collect).outcome w
      = (.error error, ((Run.takeCancel e.cancel).outcome w).2) := by
  rw [executeNodes, Run.outcome_bind_ok (outcome_takeCancel_of hcancel), if_neg Bool.false_ne_true, hcheck]
  rfl

/-- A call that has not been asked to cancel and accepts its operands walks over the nodes. -/
theorem outcome_executeNodes {slots inputs : List Tensor} {w : World σ}
    (hcancel : w.cancelRequested e.cancel = false) (hcheck : checkOperands e.graph slots inputs = .ok ())
    (nodes : List (Node (Evaluator σ))) (c : Context) (collect : Bool) :
    (e.executeNodes nodes slots inputs c collect).outcome w =
      let started := e.startedWorld inputs c w
      match (e.runNodes (e.contextFor c) collect nodes).eval (e.openedFrame slots inputs started)
          (e.openedWorld started) with
      | ((.ok status, f), w') => (.ok (status, f.slots), ((e.closeFrame f).outcome w').2)
      | ((.error error, f), w') => (.error error, ((e.closeFrame f).outcome w').2) := by
  obtain ⟨w', hinit, _⟩ := exists_reaches_initVariables e.graph
    ((e.contextFor c).variables.getD e.variables) inputs ((Run.takeCancel e.cancel).outcome w).2
  have hstarted : e.startedWorld inputs c w = w' := congrArg Prod.snd hinit
  rw [executeNodes, Run.outcome_bind_ok (outcome_takeCancel_of hcancel)]
  simp only [Bool.false_eq_true, if_false, hcheck, hstarted]
  rw [Run.outcome_bind_ok (Run.outcome_lift _ _), Run.outcome_bind_ok hinit,
    Run.outcome_bind_ok (outcome_openFrame slots inputs w'),
    Run.outcome_bind_ok (Call.outcome_outcome _ _ _)]
  rcases (e.runNodes (e.contextFor c) collect nodes).eval (e.openedFrame slots inputs w')
    (e.openedWorld w') with ⟨⟨error | status, f⟩, w''⟩
  all_goals
    obtain ⟨w₃, hclose, _, _⟩ := outcome_closeFrame (e := e) f w''
    simp only [Run.outcome_bind_ok hclose, hclose]
    rfl

/-! ### Invariants -/

/-- A property of the nodes walked so far, the frame and the world that every step of a call keeps.  `R`
is what holds if a request to cancel is obeyed, and `E` what holds if a step fails. -/
structure Invariant (e : Executor σ) (c : Context) (collect : Bool)
    (I : List (Node (Evaluator σ)) → Frame → World σ → Prop) (R : Frame → World σ → Prop)
    (E : Error → Frame → World σ → Prop) : Prop where
  cancel : ∀ before, Call.Ensures (I before) e.takeCancel
    (fun cancelled f w => if cancelled then R f w else I before f w) E
  parameter : ∀ {before rest node}, e.graph.nodes = before ++ node :: rest →
    node.isParameter = true → ∀ f w, I before f w → I (before ++ [node]) f w
  result : ∀ {before rest node}, e.graph.nodes = before ++ node :: rest → node.isResult = true →
    Call.Ensures (I before) (e.deliverNode node) (fun _ => I (before ++ [node])) E
  operator : ∀ {before rest node}, e.graph.nodes = before ++ node :: rest →
    ¬ node.isParameter = true → ¬ node.isResult = true →
    Call.Ensures (I before) (e.evaluateNode c collect node) (fun _ => I (before ++ [node])) E

/-- A walk over some of the nodes keeps an invariant. -/
theorem Invariant.ensures_runNodes {c : Context} {collect : Bool}
    {I : List (Node (Evaluator σ)) → Frame → World σ → Prop} {R : Frame → World σ → Prop}
    {E : Error → Frame → World σ → Prop} (h : e.Invariant c collect I R E)
    {before nodes rest : List (Node (Evaluator σ))} (hnodes : e.graph.nodes = before ++ nodes ++ rest) :
    Call.Ensures (I before) (e.runNodes c collect nodes)
      (fun status f w => status = .completed ∧ I (before ++ nodes) f w ∨ status = .cancelled ∧ R f w)
      E := by
  induction nodes generalizing before with
  | nil =>
      refine Call.ensures_pure fun f w hI => .inl ⟨rfl, ?_⟩
      rwa [List.append_nil]
  | cons node nodes ih =>
      have hnode : e.graph.nodes = before ++ node :: (nodes ++ rest) := by
        rw [hnodes, List.append_assoc, List.cons_append]
      have hrest : Call.Ensures (I (before ++ [node])) (e.runNodes c collect nodes) _ E :=
        ih (by rw [hnode]; simp)
      rw [List.append_assoc, List.singleton_append] at hrest
      unfold runNodes
      refine (h.cancel before).bind fun cancelled => ?_
      cases cancelled with
      | true => exact Call.ensures_pure fun f w hR => .inr ⟨rfl, hR⟩
      | false =>
          simp only [Bool.false_eq_true, if_false]
          by_cases hparameter : node.isParameter = true
          · rw [if_pos hparameter]
            exact fun f w hI => hrest f w (h.parameter hnode hparameter f w hI)
          · rw [if_neg hparameter]
            by_cases hresult : node.isResult = true
            · rw [if_pos hresult]
              exact (h.result hnode hresult).bind fun _ => hrest
            · rw [if_neg hresult]
              refine (h.operator hnode hparameter hresult).bind fun _ => ?_
              refine (h.cancel (before ++ [node])).bind fun cancelled => ?_
              cases cancelled with
              | true => exact Call.ensures_pure fun f w hR => .inr ⟨rfl, hR⟩
              | false =>
                  simp only [Bool.false_eq_true, if_false]
                  exact hrest

/-- A call that starts with the invariant keeps it over its first nodes. -/
theorem Invariant.ensures_take {c : Context} {collect : Bool}
    {I : List (Node (Evaluator σ)) → Frame → World σ → Prop} {R : Frame → World σ → Prop}
    {E : Error → Frame → World σ → Prop} (h : e.Invariant c collect I R E) (count : Nat) :
    Call.Ensures (I []) (e.runNodes c collect (e.graph.nodes.take count))
      (fun status f w => status = .completed ∧ I (e.graph.nodes.take count) f w ∨
        status = .cancelled ∧ R f w) E :=
  have hnodes : e.graph.nodes = [] ++ e.graph.nodes.take count ++ e.graph.nodes.drop count :=
    (List.take_append_drop count e.graph.nodes).symm
  h.ensures_runNodes hnodes

end Executor

end TensorGraph
