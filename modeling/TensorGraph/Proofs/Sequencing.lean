import Mathlib.Data.List.Induction
import TensorGraph.Proofs.Acceptance
import TensorGraph.Proofs.Tracing

/-! # Nodes are run in order, on what earlier nodes have bound

The check of a graph and a walk over its nodes agree: where the check has entered a producer, the walk has
bound a tensor.  `Frame.Fits` says that the tables of a frame have an entry for each tensor and each result;
that is `Frame.Stable`, so every computation of a call keeps it.  `Binds` is the invariant of the walk: the
inputs of the caller are bound to the parameters, and each output of a node that was passed is bound to what the
step of that node made (`Source`).  No later step touches it, since no other node produces the same tensor.  So
what a node reads is bound when the walk comes to it, and no walk fails because something is not. -/

namespace TensorGraph

variable {σ α β : Type}

namespace Call

/-- However a computation within a call ends, a property of the frame is kept. -/
def Preserves (P : Frame → Prop) (m : Call σ α) : Prop := ∀ f w, P f → P (m.eval f w).1.2

variable {P : Frame → Prop}

theorem Preserves.bind {m : Call σ α} {k : α → Call σ β} (hm : Preserves P m)
    (hk : ∀ a, Preserves P (k a)) : Preserves P (m >>= k) := by
  intro f w hP
  have hends := hm f w hP
  rw [eval_bind]
  rcases heval : m.eval f w with ⟨⟨error | a, f'⟩, w'⟩
  · rw [heval] at hends
    exact hends
  · rw [heval] at hends
    exact hk a f' w' hends

theorem preserves_pure (a : α) : Preserves P (pure a : Call σ α) := fun _ _ hP => hP

theorem preserves_ofRun (m : Run σ α) : Preserves P (ofRun m) := fun _ _ hP => hP

theorem preserves_lift (m : Except Error α) : Preserves P (liftM m : Call σ α) := fun _ _ hP => hP

theorem preserves_getWorld : Preserves P (getThe (World σ) : Call σ (World σ)) := fun _ _ hP => hP

theorem preserves_modify {g : Frame → Frame} (h : ∀ f, P f → P (g f)) :
    Preserves P (modify g : Call σ Unit) := fun f _ hP => h f hP

theorem preserves_forM {ι : Type} {k : ι → Call σ Unit} (h : ∀ i, Preserves P (k i)) (is : List ι) :
    Preserves P (is.forM k) := by
  induction is with
  | nil => exact preserves_pure ()
  | cons i is ih =>
      show Preserves P (k i >>= fun _ => is.forM k)
      exact (h i).bind fun _ => ih

theorem preserves_foldlM {ι : Type} {k : β → ι → Call σ β} (h : ∀ b i, Preserves P (k b i)) (b : β)
    (is : List ι) : Preserves P (is.foldlM k b) := by
  induction is generalizing b with
  | nil => exact preserves_pure b
  | cons i is ih =>
      rw [List.foldlM_cons]
      exact (h b i).bind fun b' => ih b'

end Call

theorem Bindings.exists_mapM_get {b : Bindings} {hs : List Handle}
    (h : ∀ k ∈ hs, ∃ t, b.get? k = some t) : ∃ ts, hs.mapM b.get = .ok ts := by
  induction hs with
  | nil => exact ⟨[], rfl⟩
  | cons k hs ih =>
      obtain ⟨hk, hrest⟩ := List.forall_mem_cons.mp h
      obtain ⟨t, ht⟩ := hk
      obtain ⟨ts, hts⟩ := ih hrest
      refine ⟨t :: ts, ?_⟩
      rw [List.mapM_cons, Bindings.get_eq_ok.mpr ht, ok_bind, hts]
      rfl

/-- What is gathered is bound. -/
theorem Bindings.subset_tensors_of_mapM {b : Bindings} {hs : List Handle} {ts : List Tensor}
    (h : hs.mapM b.get = .ok ts) : ts ⊆ b.tensors := by
  induction hs generalizing ts with
  | nil =>
      cases h
      exact List.nil_subset _
  | cons k hs ih =>
      rw [List.mapM_cons] at h
      obtain ⟨t, hk, h⟩ := bind_eq_ok.mp h
      obtain ⟨rest, hrest, h⟩ := bind_eq_ok.mp h
      cases h
      exact List.cons_subset.mpr ⟨mem_tensors_of_get hk, ih hrest⟩

/-- A frame has an entry for each tensor and each result of a graph. -/
structure Frame.Fits {ε : Type} (g : Graph ε) (f : Frame) : Prop where
  bindings : f.bindings.length = g.tensors.length
  kept : f.kept.length = g.tensors.length
  slots : f.slots.length = g.results.length

/-- A property of frames that is kept when a kept tensor is taken, a node is entered, a tensor is bound, or a
slot is filled.  `V` is what is known of a tensor that is bound: it has a shape, or was bound before. -/
structure Frame.Stable (V : Tensor → Prop) (P : Frame → Prop) : Prop where
  shaped : ∀ t : Tensor, t.hasShape = true → V t
  read : ∀ (f : Frame) t, P f → t ∈ f.bindings.tensors → V t
  take : ∀ (f : Frame) h, P f → P { f with kept := f.kept.set h none }
  enter : ∀ (f : Frame) ids, P f → P { f with dispatched := ids }
  bind : ∀ (f : Frame) h t, V t → P f → P { f with bindings := f.bindings.bind h t }
  fill : ∀ (f : Frame) position t, P f → P { f with slots := f.slots.set position t }

theorem Frame.stable_fits {ε : Type} (g : Graph ε) : Frame.Stable (fun _ => True) (Frame.Fits g) where
  shaped _ _ := trivial
  read _ _ _ _ := trivial
  take _ _ h := ⟨h.bindings, (List.length_set ..).trans h.kept, h.slots⟩
  enter _ _ h := ⟨h.bindings, h.kept, h.slots⟩
  bind _ _ _ _ h := ⟨(List.length_set ..).trans h.bindings, h.kept, h.slots⟩
  fill _ _ _ h := ⟨h.bindings, h.kept, (List.length_set ..).trans h.slots⟩

theorem Evaluator.length_apply {ev : Evaluator σ} {operation : Operation} {outputs inputs : List Tensor}
    {c : Context} {w w' : World σ} {produced : List Tensor}
    (h : (ev.apply operation outputs inputs c).outcome w = (.ok produced, w')) :
    produced.length = outputs.length := by
  unfold apply at h
  rw [Run.outcome_bind] at h
  rcases hevaluate : (ev.evaluate operation outputs inputs c).outcome w with ⟨error | made, w₁⟩
  · rw [hevaluate] at h
    cases h
  · rw [hevaluate] at h
    cases h
    simp only [List.length_append, List.length_take, List.length_drop]
    omega

namespace Executor

variable {e : Executor σ} {c : Context} {collect : Bool} {node : Node (Evaluator σ)}
  {before nodes rest : List (Node (Evaluator σ))} {f f' : Frame} {w w' : World σ}
  {slots inputs : List Tensor}

/-! ### What every step keeps -/

section
variable {V : Tensor → Prop} {P : Frame → Prop}

theorem preserves_allocate (hP : Frame.Stable V P) (c : Context) (outputs : List Tensor) (h : Handle) :
    Call.Preserves P (e.allocate c outputs h) := by
  intro f w hf
  cases hdesc : e.graph.tensors[h]? with
  | none =>
      unfold allocate
      rw [hdesc]
      exact hf
  | some desc =>
      rcases allocate_cases c outputs hdesc f w with ⟨_, -, -, -, heval⟩ | heval
      all_goals
        rw [heval]
        exact hP.take f h hf

theorem preserves_bound (hs : List Handle) : Call.Preserves P (hs.mapM bound : Call σ (List Tensor)) := by
  intro f w hf
  rw [eval_mapM_bound]
  exact hf

theorem preserves_bindOutput (hP : Frame.Stable V P) (node : Node (Evaluator σ))
    (entry : (Handle × Tensor) × Nat) : Call.Preserves P (e.bindOutput node entry) := by
  obtain ⟨⟨h, t⟩, position⟩ := entry
  intro f w hf
  rcases eval_bindOutput_cases (e := e) node h t position f w with
    ⟨-, heval⟩ | ⟨-, _, -, -, heval⟩ | ⟨hshape, -, heval⟩
  · rw [heval]
    exact hf
  · rw [heval]
    exact hf
  · rw [heval]
    exact hP.bind f h t (hP.shaped t hshape) hf

theorem preserves_prepare (hP : Frame.Stable V P) (c : Context) (node : Node (Evaluator σ)) :
    Call.Preserves P (e.prepare c node) := by
  unfold prepare
  refine (preserves_bound _).bind fun inputs => ?_
  refine (Call.preserves_foldlM (preserves_allocate hP c) [] _).bind fun outputs => ?_
  refine (Call.preserves_lift _).bind fun evaluator => ?_
  refine (Call.preserves_modify fun f hf => hP.enter f _ hf).bind fun _ => ?_
  exact fun _ _ hf => hf

theorem preserves_evaluateNode (hP : Frame.Stable V P) (c : Context) (collect : Bool)
    (node : Node (Evaluator σ)) : Call.Preserves P (e.evaluateNode c collect node) := by
  rw [evaluateNode_eq_prepare]
  refine (preserves_prepare hP c node).bind fun handed => ?_
  refine Call.preserves_getWorld.bind fun start => ?_
  refine (Call.preserves_ofRun _).bind fun produced => ?_
  unfold bindProduced
  cases collect with
  | false => exact Call.preserves_forM (preserves_bindOutput hP node) _
  | true =>
      refine Call.preserves_getWorld.bind fun world => ?_
      exact (Call.preserves_ofRun _).bind fun _ => Call.preserves_forM (preserves_bindOutput hP node) _

theorem preserves_deliverNode (hP : Frame.Stable V P) (node : Node (Evaluator σ)) :
    Call.Preserves P (e.deliverNode node) := by
  intro f w hf
  unfold deliverNode
  rw [Call.eval_bind, eval_mapM_bound]
  rcases hgathered : node.inputs.mapM f.bindings.get with error | _ | ⟨value, rest⟩
  · exact hf
  · exact hf
  · have hvalue : V value := hP.read f value hf (Bindings.subset_tensors_of_mapM hgathered List.mem_cons_self)
    have hbindAll : Call.Preserves (σ := σ) P
        (node.outputs.forM fun h => modify fun frame =>
          { frame with bindings := frame.bindings.bind h value }) :=
      Call.preserves_forM (fun h => Call.preserves_modify fun f hf => hP.bind f h value hvalue hf) _
    simp only
    split
    · exact hbindAll f w hf
    · rename_i position _
      refine Call.Preserves.bind (fun _ _ hf => hf) (fun frame => ?_) f w hf
      split
      · exact hbindAll
      · refine (Call.preserves_ofRun _).bind fun slot => ?_
        exact (Call.preserves_modify fun f hf => hP.fill f position slot hf).bind fun _ => hbindAll

/-- However a walk ends, it keeps what every step keeps. -/
theorem preserves_runNodes (hP : Frame.Stable V P) (c : Context) (collect : Bool)
    (nodes : List (Node (Evaluator σ))) : Call.Preserves P (e.runNodes c collect nodes) := by
  have htake : Call.Preserves P e.takeCancel := Call.preserves_ofRun _
  induction nodes with
  | nil => exact Call.preserves_pure _
  | cons node nodes ih =>
      unfold runNodes
      refine htake.bind fun cancelled => ?_
      cases cancelled with
      | true => exact Call.preserves_pure _
      | false =>
          simp only [Bool.false_eq_true, if_false]
          split
          · exact ih
          · split
            · exact (preserves_deliverNode hP node).bind fun _ => ih
            · refine (preserves_evaluateNode hP c collect node).bind fun _ => htake.bind fun cancelled => ?_
              cases cancelled with
              | true => exact Call.preserves_pure _
              | false => exact ih

end

/-! ### Tables -/

theorem lengths_of_checkOperands (hcheck : checkOperands e.graph slots inputs = .ok ()) :
    inputs.length = e.graph.parameters.length ∧ slots.length = e.graph.results.length := by
  obtain ⟨hinputs, hslots, -⟩ := (checkOperands_eq_ok Store.empty).mp hcheck
  exact ⟨hinputs, hslots⟩

theorem fits_openedFrame (hcheck : checkOperands e.graph slots inputs = .ok ()) (w : World σ) :
    (e.openedFrame slots inputs w).Fits e.graph := by
  refine ⟨length_bindInputs _ _, ?_, (lengths_of_checkOperands hcheck).2⟩
  simp only [openedFrame, fitLength, List.length_append, List.length_take, List.length_replicate]
  omega

/-- Wherever the walk of a call stands, its tables are as long as the graph asks. -/
theorem fits_walk (hcheck : checkOperands e.graph slots inputs = .ok ()) (c : Context) (collect : Bool)
    (w : World σ) (nodes : List (Node (Evaluator σ))) :
    (e.walk slots inputs c collect w nodes).1.2.Fits e.graph :=
  preserves_runNodes (Frame.stable_fits e.graph) _ _ _ _ _ (fits_openedFrame hcheck _)

theorem fits_of_walk (hcheck : checkOperands e.graph slots inputs = .ok ()) {o : Except Error Status}
    (hwalk : e.walk slots inputs c collect w nodes = ((o, f), w')) : f.Fits e.graph := by
  have hfits := fits_walk hcheck c collect w nodes
  rwa [hwalk] at hfits

/-! ### Walks -/

/-- A walk that completes has completed its first nodes. -/
theorem exists_walked (hwalk : e.walk slots inputs c collect w (nodes ++ rest) = ((.ok .completed, f), w')) :
    ∃ f₁ w₁, e.walk slots inputs c collect w nodes = ((.ok .completed, f₁), w₁) := by
  induction rest using List.reverseRecOn generalizing f w' with
  | nil => exact ⟨f, w', by rwa [List.append_nil] at hwalk⟩
  | append_singleton rest node ih =>
      rw [← List.append_assoc] at hwalk
      obtain ⟨f₁, w₁, hbefore, -⟩ := exists_last_step hwalk
      exact ih hbefore

/-- What holds before the first node, and is kept by every step that goes on, holds wherever a walk has
completed some first nodes. -/
theorem walk_induction {P : List (Node (Evaluator σ)) → Frame → World σ → Prop}
    (hopened : P [] (e.openedFrame slots inputs (e.startedWorld inputs c w))
      (e.openedWorld (e.startedWorld inputs c w)))
    (hstep : ∀ {before node rest f₁ w₁ f₂ w₂}, e.graph.nodes = before ++ node :: rest →
      e.walk slots inputs c collect w before = ((.ok .completed, f₁), w₁) → P before f₁ w₁ →
      (e.stepNode (e.contextFor c) collect node).eval f₁ w₁ = ((.ok false, f₂), w₂) →
      P (before ++ [node]) f₂ w₂)
    (hnodes : e.graph.nodes = before ++ rest)
    (hwalk : e.walk slots inputs c collect w before = ((.ok .completed, f), w')) : P before f w' := by
  induction before using List.reverseRecOn generalizing rest f w' with
  | nil =>
      cases hwalk
      exact hopened
  | append_singleton before node ih =>
      obtain ⟨f₁, w₁, hbefore, hlast⟩ := exists_last_step hwalk
      have hsplit : e.graph.nodes = before ++ node :: rest := hnodes.trans (List.append_cons ..).symm
      exact hstep hsplit hbefore (ih hsplit hbefore) hlast

/-- Wherever the walk of a call stands, its world is sound, and holds what the call holds. -/
theorem sound_walk (hkeeps : e.KeepsNodes) (hw : w.Sound) (hslots : w.store.Holds slots)
    (hinputs : w.store.Holds inputs) (hnodes : nodes ⊆ e.graph.nodes) {o : Except Error Status}
    (hwalk : e.walk slots inputs c collect w nodes = ((o, f), w')) : w'.Sound ∧ f.Sound w'.store := by
  have hreaches := reaches_startedWorld (e := e) inputs c w
  have hstarted : (e.startedWorld inputs c w).Sound := hreaches.sound (hw.congr rfl rfl fun _ _ ht => ht)
  have hframe : (e.openedFrame slots inputs (e.startedWorld inputs c w)).Sound
      (e.openedWorld (e.startedWorld inputs c w)).store := by
    rw [store_openedWorld]
    exact sound_openedFrame hstarted (hreaches.grows.holds hslots) (hreaches.grows.holds hinputs)
  have hkept : Call.Keeps [] (e.runNodes (e.contextFor c) collect nodes) fun _ => [] :=
    keeps_runNodes hkeeps (e.contextFor c) collect hnodes
  obtain ⟨hf, hsound, -, -⟩ := hkept _ _ hframe (sound_openedWorld hstarted) nofun
  have heval : (e.runNodes (e.contextFor c) collect nodes).eval
      (e.openedFrame slots inputs (e.startedWorld inputs c w))
      (e.openedWorld (e.startedWorld inputs c w)) = ((o, f), w') := hwalk
  rw [heval] at hf hsound
  exact ⟨hsound, hf⟩

/-! ### What a step binds -/

/-- What a step binds to an output of its node: what the evaluator gives back for it, or what a result
reads. -/
inductive Source (e : Executor σ) (c : Context) (node : Node (Evaluator σ)) (f : Frame) (w : World σ)
    (h : Handle) (t : Tensor) : Prop
  | evaluated {produced : List Tensor} {after : World σ}
    (hevent : e.stepEvent c node f w = some (.dispatched node.id (.ok produced) after))
    (hmem : (h, t) ∈ node.outputs.zip produced)
  | forwarded {source : Handle} (hresult : node.isResult = true) (hsource : node.inputs = [source])
    (houtput : node.outputs = [h]) (hread : f.bindings.get? source = some t)

theorem bindings_bindOutputs (node : Node (Evaluator σ)) (pairs : List (Handle × Tensor)) (start : Nat)
    (h : ((pairs.zipIdx start).forM (e.bindOutput node)).eval f w = ((.ok (), f'), w')) :
    f'.bindings = pairs.foldl (fun b (h, t) => b.bind h t) f.bindings := by
  induction pairs generalizing f w start with
  | nil =>
      cases h
      rfl
  | cons pair pairs ih =>
      obtain ⟨k, t⟩ := pair
      have hbind : (e.bindOutput node ((k, t), start) >>= fun _ =>
          (pairs.zipIdx (start + 1)).forM (e.bindOutput node)).eval f w = ((.ok (), f'), w') := h
      rw [Call.eval_bind] at hbind
      rcases hone : (e.bindOutput node ((k, t), start)).eval f w with ⟨⟨error | ⟨⟩, f₁⟩, w₁⟩
      · rw [hone] at hbind
        cases hbind
      · rw [hone] at hbind
        have hbound : f₁.bindings = f.bindings.bind k t := by
          rcases eval_bindOutput_cases (e := e) node k t start f w with
            ⟨-, heval⟩ | ⟨-, _, -, -, heval⟩ | ⟨-, -, heval⟩
          all_goals
            rw [heval] at hone
            cases hone
          rfl
        rw [ih _ hbind, hbound]
        rfl

theorem bindings_bindProduced {start : Nat} {produced : List Tensor}
    (h : (e.bindProduced collect node start produced).eval f w = ((.ok (), f'), w')) :
    f'.bindings = (node.outputs.zip produced).foldl (fun b (h, t) => b.bind h t) f.bindings := by
  cases collect with
  | false => exact bindings_bindOutputs node _ 0 h
  | true =>
      unfold bindProduced at h
      simp only [if_true] at h
      rw [Call.eval_bind_ok (Call.eval_getWorld _ _), Call.eval_bind_ok (Call.eval_ofRun _ _ _)] at h
      exact bindings_bindOutputs node _ 0 h

/-- What an evaluator gives back is bound to the outputs of its node. -/
theorem get?_bindProduced {start : Nat} {produced : List Tensor}
    (hbound : (e.bindProduced collect node start produced).eval f w = ((.ok (), f'), w'))
    (hnode : node ∈ e.graph.nodes) (hbindings : f.bindings.length = e.graph.tensors.length)
    (hlength : produced.length = node.outputs.length)
    {p : Handle × Tensor} (hp : p ∈ node.outputs.zip produced) : f'.bindings.get? p.1 = some p.2 := by
  rw [bindings_bindProduced hbound]
  refine get?_foldl_bind_of_mem ?_ (fun q hq => ?_) hp
  · rw [List.map_fst_zip (Nat.le_of_eq hlength.symm)]
    exact (List.nodup_flatMap.mp e.graph.nodup_produced).1 node hnode
  · rw [hbindings]
    exact e.graph.output_lt hnode (List.of_mem_zip hq).1

/-- What a result does that goes on: it binds what it reads, and hands it to its slot, into whose buffer it may
write. -/
structure Delivered (e : Executor σ) (before : List (Node (Evaluator σ))) (node : Node (Evaluator σ)) (f : Frame)
    (w : World σ) (source output : Handle) (t slot slot' : Tensor) (f' : Frame) (w' : World σ) : Prop where
  inputs : node.inputs = [source]
  outputs : node.outputs = [output]
  read : f.bindings.get? source = some t
  place : f.slots[(before.filter (·.isResult)).length]? = some slot
  dtype : slot'.dtype = t.dtype
  shape : slot'.shape = t.shape
  frame : f' = f.delivered output t (before.filter (·.isResult)).length slot'
  within : w.store.Within (· = slot.buffer) w'.store
  «variables» : w'.variables = w.variables

theorem exists_delivered_stepNode (hnodes : e.graph.nodes = before ++ node :: rest)
    (hfits : f.Fits e.graph) (hresult : node.isResult = true)
    (hstep : (e.stepNode c collect node).eval f w = ((.ok false, f'), w')) :
    ∃ source output t slot slot', e.Delivered before node f w source output t slot slot' f' w' := by
  have hmem : node ∈ e.graph.nodes := hnodes ▸ List.mem_append_right before List.mem_cons_self
  obtain ⟨source, output, hsource, houtput⟩ := e.graph.result_form hmem hresult
  obtain ⟨slot, hslot⟩ := exists_slot hnodes hresult hfits.slots
  have hparameter : node.isParameter = false :=
    Bool.eq_false_iff.mpr fun hparameter => Node.not_isResult hparameter hresult
  unfold stepNode at hstep
  rw [Call.eval_bind, eval_takeCancel_eq] at hstep
  cases hcancel : w.cancelRequested e.cancel with
  | true =>
      rw [hcancel] at hstep
      cases hstep
  | false =>
      simp only [hcancel, hparameter, hresult, Bool.false_eq_true, if_false, if_true] at hstep
      rw [Call.eval_bind, eval_deliverNode hnodes hresult hsource houtput hslot] at hstep
      rcases hread : f.bindings.get source with error | t
      · simp only [hread] at hstep
        cases hstep
      · obtain ⟨slot', store, hdelivered⟩ := exists_delivered slot t (e.polled w)
        obtain ⟨hdtype, hshape⟩ := described_of_delivered hdelivered
        have hwithin := within_deliver slot t (e.polled w)
        rw [hdelivered] at hwithin
        simp only [hread, hdelivered] at hstep
        cases hstep
        exact ⟨source, output, t, slot, slot', hsource, houtput, Bindings.get_eq_ok.mp hread, hslot, hdtype,
          hshape, rfl, hwithin, rfl⟩

/-- A step that goes on binds every output of a node that is no parameter, each to its source. -/
theorem exists_pairs (hnodes : e.graph.nodes = before ++ node :: rest) (hfits : f.Fits e.graph)
    (hstep : (e.stepNode c collect node).eval f w = ((.ok false, f'), w')) :
    ∃ pairs : List (Handle × Tensor), f'.bindings = pairs.foldl (fun b (h, t) => b.bind h t) f.bindings ∧
      pairs.map (·.1) = (if node.isParameter then [] else node.outputs) ∧
      ∀ p ∈ pairs, e.Source c node f w p.1 p.2 := by
  have hmem : node ∈ e.graph.nodes := hnodes ▸ List.mem_append_right before List.mem_cons_self
  have hvisit := visit_stepNode hstep
  generalize hevent : e.stepEvent c node f w = event at hvisit
  generalize hr : (Except.ok false : Except Error Bool) = r at hvisit
  cases hvisit with
  | cancelled hcancel => cases hr
  | parameter hcancel hparameter => exact ⟨[], rfl, by rw [if_pos hparameter]; rfl, nofun⟩
  | unread hcancel hresult hgathered => cases hr
  | unprepared hcancel hoperator hprepared => cases hr
  | failed hcancel hoperator hprepared houtcome => cases hr
  | refused hcancel hoperator hprepared houtcome hbound hrefused => cases hr
  | @evaluated handed produced f₁ bindings memories w₁ w₂ hcancel hoperator hprepared houtcome hbound =>
      obtain ⟨kept, store, rfl, _⟩ := frame_of_prepare hprepared
      have hlength : produced.length = node.outputs.length :=
        (Evaluator.length_apply houtcome).trans
          ((prepared_of_prepare hprepared).length fun h => e.graph.output_lt hmem)
      have hparameter : node.isParameter = false := by
        simp only [Node.isOperator, Bool.and_eq_true, Bool.not_eq_true'] at hoperator
        exact hoperator.1
      have hbindings := bindings_bindProduced hbound
      refine ⟨node.outputs.zip produced, hbindings, ?_, fun p hp => ?_⟩
      · rw [List.map_fst_zip (Nat.le_of_eq hlength.symm), hparameter, if_neg Bool.false_ne_true]
      · exact .evaluated hevent hp
  | delivered hcancel hresult hevents =>
      obtain ⟨source, output, t, _, _, hdelivered⟩ := exists_delivered_stepNode hnodes hfits hresult hstep
      have hparameter : node.isParameter = false :=
        Bool.eq_false_iff.mpr fun hparameter => Node.not_isResult hparameter hresult
      refine ⟨[(output, t)], congrArg Frame.bindings hdelivered.frame, ?_, fun p hp => ?_⟩
      · rw [hparameter, if_neg Bool.false_ne_true, hdelivered.outputs]
        rfl
      · obtain rfl := List.mem_singleton.mp hp
        exact .forwarded hresult hdelivered.inputs hdelivered.outputs hdelivered.read

/-! ### What a walk has bound -/

/-- How a tensor comes to be bound to an output of a node that a call has passed: the caller hands it in
for a parameter, and the step of the node makes it for any other. -/
inductive Bound (e : Executor σ) (slots inputs : List Tensor) (c : Context) (collect : Bool) (w : World σ)
    (before : List (Node (Evaluator σ))) (producer : Node (Evaluator σ)) (h : Handle) (t : Tensor) : Prop
  | input {i : Nat} (hparameter : producer.isParameter = true)
    (hposition : e.graph.parameterHandles[i]? = some h) (hinput : inputs[i]? = some t)
  | made {earlier later : List (Node (Evaluator σ))} {f₁ : Frame} {w₁ : World σ}
    (hbefore : before = earlier ++ producer :: later)
    (hwalk : e.walk slots inputs c collect w earlier = ((.ok .completed, f₁), w₁))
    (hsource : e.Source (e.contextFor c) producer f₁ w₁ h t)

theorem Bound.append {producer : Node (Evaluator σ)} {h : Handle} {t : Tensor}
    (hbound : e.Bound slots inputs c collect w before producer h t) (more : List (Node (Evaluator σ))) :
    e.Bound slots inputs c collect w (before ++ more) producer h t := by
  cases hbound with
  | input hparameter hposition hinput => exact .input hparameter hposition hinput
  | made hbefore hwalk hsource =>
      exact .made (by rw [hbefore, List.append_assoc, List.cons_append]) hwalk hsource

/-- The parameters are bound to the inputs, and what the nodes passed so far produce is bound. -/
structure Binds (e : Executor σ) (slots inputs : List Tensor) (c : Context) (collect : Bool) (w : World σ)
    (before : List (Node (Evaluator σ))) (f : Frame) : Prop where
  given : ∀ (i : Nat) h t, e.graph.parameterHandles[i]? = some h → inputs[i]? = some t →
    f.bindings.get? h = some t
  produced : ∀ producer ∈ before, ∀ h ∈ producer.outputs, ∃ t, f.bindings.get? h = some t ∧
    e.Bound slots inputs c collect w before producer h t

theorem binds_openedFrame (hcheck : checkOperands e.graph slots inputs = .ok ()) (w₁ : World σ) :
    e.Binds slots inputs c collect w [] (e.openedFrame slots inputs w₁) := by
  refine ⟨fun i h t hposition hinput => ?_, nofun⟩
  refine get?_bindInputs_of_mem (p := (h, t)) (lengths_of_checkOperands hcheck).1 ?_
  exact List.mem_of_getElem? (List.getElem?_zip_eq_some.mpr ⟨hposition, hinput⟩)

/-- A step that goes on binds what its node produces, and leaves the other bindings. -/
theorem Binds.step (hcheck : checkOperands e.graph slots inputs = .ok ())
    (hnodes : e.graph.nodes = before ++ node :: rest)
    (hwalk : e.walk slots inputs c collect w before = ((.ok .completed, f), w'))
    (hbinds : e.Binds slots inputs c collect w before f) {f₁ : Frame} {w₁ : World σ}
    (hstep : (e.stepNode (e.contextFor c) collect node).eval f w' = ((.ok false, f₁), w₁)) :
    e.Binds slots inputs c collect w (before ++ [node]) f₁ := by
  have hfits : f.Fits e.graph := fits_of_walk hcheck hwalk
  have hmem : node ∈ e.graph.nodes := hnodes ▸ List.mem_append_right before List.mem_cons_self
  have hdisjoint : ∀ h ∈ Node.produced before, h ∉ node.outputs := by
    have hnodup := e.graph.nodup_produced
    rw [hnodes, Node.produced_append] at hnodup
    intro h hbefore hnode
    exact (List.nodup_append.mp hnodup).2.2 h hbefore h
      (List.mem_flatMap.mpr ⟨node, List.mem_cons_self, hnode⟩) rfl
  obtain ⟨pairs, hbindings, hfst, hsource⟩ := exists_pairs hnodes hfits hstep
  have hsame {h : Handle} (hh : ¬ node.isParameter = true → h ∉ node.outputs) :
      f₁.bindings.get? h = f.bindings.get? h := by
    rw [hbindings]
    refine get?_foldl_bind_of_not_mem pairs _ ?_
    rw [hfst]
    split
    · exact List.not_mem_nil
    · exact hh ‹_›
  have hgiven (i : Nat) (h : Handle) (t : Tensor) (hposition : e.graph.parameterHandles[i]? = some h)
      (hinput : inputs[i]? = some t) : f₁.bindings.get? h = some t := by
    rw [hsame fun hparameter hout =>
      e.graph.not_mem_parameterHandles hmem hparameter hout (List.mem_of_getElem? hposition)]
    exact hbinds.given i h t hposition hinput
  refine ⟨hgiven, fun producer hproducer h hh => ?_⟩
  obtain hbefore | hlast := List.mem_append.mp hproducer
  · obtain ⟨t, hget, hbound⟩ := hbinds.produced producer hbefore h hh
    have hnew := hdisjoint h (List.mem_flatMap.mpr ⟨producer, hbefore, hh⟩)
    exact ⟨t, (hsame fun _ => hnew).trans hget, hbound.append [node]⟩
  · obtain rfl := List.mem_singleton.mp hlast
    by_cases hparameter : producer.isParameter = true
    · have hhandle : h ∈ e.graph.parameterHandles :=
        List.mem_flatMap.mpr ⟨producer, List.mem_filter.mpr ⟨hmem, hparameter⟩, hh⟩
      obtain ⟨i, hi, rfl⟩ := List.mem_iff_getElem.mp hhandle
      have hi' : i < inputs.length := by
        rw [(lengths_of_checkOperands hcheck).1, ← e.graph.length_parameterHandles]
        exact hi
      exact ⟨inputs[i], hgiven i _ _ (List.getElem?_eq_getElem hi) (List.getElem?_eq_getElem hi'),
        .input hparameter (List.getElem?_eq_getElem hi) (List.getElem?_eq_getElem hi')⟩
    · rw [if_neg hparameter] at hfst
      obtain ⟨p, hp, rfl⟩ := List.mem_map.mp (hfst.symm ▸ hh)
      refine ⟨p.2, ?_, .made rfl hwalk (hsource p hp)⟩
      rw [hbindings]
      refine get?_foldl_bind_of_mem ?_ (fun q hq => ?_) hp
      · rw [hfst]
        exact (List.nodup_flatMap.mp e.graph.nodup_produced).1 producer hmem
      · rw [hfits.bindings]
        exact e.graph.output_lt hmem (hfst ▸ List.mem_map_of_mem hq)

theorem binds_walk (hcheck : checkOperands e.graph slots inputs = .ok ())
    (hnodes : e.graph.nodes = before ++ rest)
    (hwalk : e.walk slots inputs c collect w before = ((.ok .completed, f), w')) :
    e.Binds slots inputs c collect w before f :=
  walk_induction (P := fun walked f _ => e.Binds slots inputs c collect w walked f) (binds_openedFrame hcheck _)
    (fun hsplit hwalked hbinds hstep => hbinds.step hcheck hsplit hwalked hstep) hnodes hwalk

/-- What a node reads is bound when a walk comes to it. -/
theorem exists_gathered (hcheck : checkOperands e.graph slots inputs = .ok ())
    (hnodes : e.graph.nodes = before ++ node :: rest)
    (hwalk : e.walk slots inputs c collect w before = ((.ok .completed, f), w')) :
    ∃ ts, node.inputs.mapM f.bindings.get = .ok ts := by
  have hbinds := binds_walk hcheck hnodes hwalk
  refine Bindings.exists_mapM_get fun h hh => ?_
  obtain ⟨producer, hproducer, hh⟩ := List.mem_flatMap.mp (e.graph.reads_earlier hnodes hh)
  obtain ⟨t, hget, _⟩ := hbinds.produced producer hproducer h hh
  exact ⟨t, hget⟩

/-! ### Order -/

theorem Visit.ordered {event : Option (Event σ)} {r : Except Error Bool}
    (h : e.Visit c collect node f w event r f' w') :
    event.toList.filterMap Event.dispatchedNode? <+: operatorIds [node] ∧
      (r = .ok false → event.toList.filterMap Event.dispatchedNode? = operatorIds [node]) := by
  have hone (hoperator : node.isOperator = true) : operatorIds [node] = [node.id] := by
    simp [operatorIds, hoperator]
  have hnone (hoperator : node.isOperator = false) : operatorIds [node] = [] := by
    simp [operatorIds, hoperator]
  cases h with
  | cancelled hcancel => exact ⟨List.nil_prefix, fun hr => by cases hr⟩
  | parameter hcancel hparameter =>
      exact ⟨List.nil_prefix, fun _ => (hnone (by simp [Node.isOperator, hparameter])).symm⟩
  | unread hcancel hresult hgathered => exact ⟨List.nil_prefix, fun hr => by cases hr⟩
  | delivered hcancel hresult hevent =>
      have hids := hnone (by simp [Node.isOperator, hresult])
      have hempty : event.toList.filterMap Event.dispatchedNode? = [] := by
        cases event with
        | none => rfl
        | some ev =>
            obtain ⟨position, value, rfl⟩ := hevent ev rfl
            rfl
      rw [hempty, hids]
      exact ⟨List.nil_prefix, fun _ => rfl⟩
  | unprepared hcancel hoperator hprepared => exact ⟨List.nil_prefix, fun hr => by cases hr⟩
  | failed hcancel hoperator hprepared houtcome =>
      rw [hone hoperator]
      exact ⟨List.prefix_rfl, fun _ => rfl⟩
  | refused hcancel hoperator hprepared houtcome hbound hrefused =>
      rw [hone hoperator]
      exact ⟨List.prefix_rfl, fun _ => rfl⟩
  | evaluated hcancel hoperator hprepared houtcome hbound =>
      rw [hone hoperator]
      exact ⟨List.prefix_rfl, fun _ => rfl⟩

/-- The nodes that a walk hands to evaluators are operators in order, and all of them if it completes. -/
theorem operatorIds_events (c : Context) (collect : Bool) (nodes : List (Node (Evaluator σ))) (f : Frame)
    (w : World σ) :
    (e.events c collect nodes f w).filterMap Event.dispatchedNode? <+: operatorIds nodes ∧
      (((e.runNodes c collect nodes).eval f w).1.1 = .ok .completed →
        (e.events c collect nodes f w).filterMap Event.dispatchedNode? = operatorIds nodes) := by
  induction nodes generalizing f w with
  | nil => exact ⟨List.prefix_rfl, fun _ => rfl⟩
  | cons node nodes ih =>
      have hids : operatorIds (node :: nodes) = operatorIds [node] ++ operatorIds nodes := by
        rw [operatorIds, operatorIds, operatorIds, ← List.map_append, ← List.filter_append,
          List.singleton_append]
      obtain ⟨f', w', hstep, hrun, hevents⟩ | ⟨r, f', w', hstep, hr, hrun, hevents⟩ :=
        walk_cases (e := e) c collect node nodes f w
      · have hone := (visit_stepNode hstep).ordered.2 rfl
        rw [hrun, hevents, hids, List.filterMap_append, hone]
        obtain ⟨hfirst, hcompleted⟩ := ih f' w'
        exact ⟨(List.prefix_append_right_inj _).mpr hfirst, fun h => by rw [hcompleted h]⟩
      · rw [hrun, hevents, hids]
        refine ⟨(visit_stepNode hstep).ordered.1.trans (List.prefix_append _ _), fun h => ?_⟩
        cases r <;> cases h

/-- The ids of the operators of a graph ascend. -/
theorem pairwise_operatorIds (g : Graph (Evaluator σ)) : (operatorIds g.nodes).Pairwise (· < ·) := by
  rw [operatorIds, g.map_id_filter]
  exact List.pairwise_lt_range.filter _

/-- The slot that a step of a result fills is that of the results passed before. -/
theorem deliveredPosition_stepEvent (hnodes : e.graph.nodes = before ++ node :: rest)
    (hfits : f.Fits e.graph) (hstep : (e.stepNode c collect node).eval f w = ((.ok false, f'), w')) :
    (e.stepEvent c node f w).toList.filterMap Event.deliveredPosition?
      = if node.isResult then [(before.filter (·.isResult)).length] else [] := by
  have hvisit := visit_stepNode hstep
  generalize hevent : e.stepEvent c node f w = event at hvisit
  generalize hr : (Except.ok false : Except Error Bool) = r at hvisit
  have hnot (hoperator : node.isOperator = true) : ¬ node.isResult = true := by
    intro hresult
    simp [Node.isOperator, hresult] at hoperator
  cases hvisit with
  | cancelled hcancel => cases hr
  | parameter hcancel hparameter =>
      rw [if_neg (Node.not_isResult hparameter)]
      rfl
  | unread hcancel hresult hgathered => cases hr
  | unprepared hcancel hoperator hprepared => cases hr
  | failed hcancel hoperator hprepared houtcome => cases hr
  | refused hcancel hoperator hprepared houtcome hbound hrefused => cases hr
  | evaluated hcancel hoperator hprepared houtcome hbound =>
      rw [if_neg (hnot hoperator)]
      rfl
  | delivered hcancel hresult hevents =>
      obtain ⟨source, output, t, _, _, hdelivered⟩ := exists_delivered_stepNode hnodes hfits hresult hstep
      have hplace := (List.getElem?_eq_some_iff.mp hdelivered.place).1
      have hparameter : node.isParameter = false :=
        Bool.eq_false_iff.mpr fun hparameter => Node.not_isResult hparameter hresult
      have hgathered : node.inputs.mapM f.bindings.get = .ok [t] := by
        rw [hdelivered.inputs, List.mapM_cons, Bindings.get_eq_ok.mpr hdelivered.read]
        rfl
      rw [← hevent, stepEvent, hcancel, hparameter, hresult]
      simp only [Bool.false_eq_true, if_false, if_true, deliveryEvent, hgathered,
        e.graph.idxOf_results hnodes hresult, if_pos hplace]
      rfl

theorem fits_stepNode (hfits : f.Fits e.graph)
    (hstep : (e.stepNode c collect node).eval f w = ((.ok false, f'), w')) : f'.Fits e.graph := by
  have hone := preserves_runNodes (e := e) (Frame.stable_fits e.graph) c collect [node] f w hfits
  rw [eval_runNodes_cons, hstep] at hone
  exact hone

/-- A walk that completes hands a value to the slot of each result, one after the other. -/
theorem deliveredPosition_events (hnodes : e.graph.nodes = before ++ (nodes ++ rest))
    (hfits : f.Fits e.graph)
    (hcompleted : ((e.runNodes c collect nodes).eval f w).1.1 = .ok .completed) :
    (e.events c collect nodes f w).filterMap Event.deliveredPosition?
      = List.range' (before.filter (·.isResult)).length (nodes.filter (·.isResult)).length := by
  induction nodes generalizing before f w with
  | nil => rfl
  | cons node nodes ih =>
      obtain ⟨f', w', hstep, hrun, hevents⟩ | ⟨r, f', w', hstep, hr, hrun, hevents⟩ :=
        walk_cases (e := e) c collect node nodes f w
      · rw [hrun] at hcompleted
        have hsplit : e.graph.nodes = (before ++ [node]) ++ (nodes ++ rest) := by
          rw [hnodes]
          simp
        rw [hevents, List.filterMap_append, deliveredPosition_stepEvent hnodes hfits hstep,
          ih hsplit (fits_stepNode hfits hstep) hcompleted, List.filter_append, List.filter_cons]
        by_cases hresult : node.isResult = true
        · simp [hresult, List.range'_succ]
        · simp [hresult]
      · rw [hrun] at hcompleted
        cases r <;> cases hcompleted

/-! ### Calls -/

/-- What the check of a graph is good for in a call. -/
structure RunsInOrder (e : Executor σ) (slots inputs : List Tensor) (c : Context) (collect : Bool)
    (w : World σ) : Prop where
  /-- Handles are positions of descriptions. -/
  handles : ∀ node ∈ e.graph.nodes, ∀ h ∈ node.inputs ++ node.outputs, h < e.graph.tensors.length
  /-- Wherever the walk over the nodes stands, its tables have an entry for each handle. -/
  tables : ∀ before rest, e.graph.nodes = before ++ rest →
    (e.walk slots inputs c collect w before).1.2.Fits e.graph
  /-- Every result has a slot. -/
  places : ∀ node ∈ e.graph.nodes, node.isResult = true →
    ∃ position < slots.length, e.graph.results.idxOf? node.id = some position
  /-- When the walk comes to a node, each input is bound to what its only producer has made of it. -/
  bound : ∀ before node rest f₁ w₁, e.graph.nodes = before ++ node :: rest →
    e.walk slots inputs c collect w before = ((.ok .completed, f₁), w₁) → ∀ h ∈ node.inputs,
      ∃ producer ∈ before, h ∈ producer.outputs ∧
        (∀ other ∈ e.graph.nodes, h ∈ other.outputs → other = producer) ∧
        ∃ t, f₁.bindings.get? h = some t ∧ e.Bound slots inputs c collect w before producer h t
  /-- Only an evaluator says that something is not bound. -/
  unbound : ∀ name, ((e.execute slots inputs c collect).outcome w).1 = .error (.unboundTensor name) →
    ∃ node after, .dispatched node (.error (.unboundTensor name)) after
      ∈ e.trace slots inputs c collect w
  /-- Operators are handed to their evaluators in order, each at most once. -/
  order : (e.trace slots inputs c collect w).filterMap Event.dispatchedNode? <+: operatorIds e.graph.nodes
  /-- Ids ascend in the order of the nodes. -/
  ascending : (operatorIds e.graph.nodes).Pairwise (· < ·)
  /-- A call that completes hands every operator to its evaluator, and a value to every slot, once. -/
  completed : ∀ slots', ((e.execute slots inputs c collect).outcome w).1 = .ok (.completed, slots') →
    (e.trace slots inputs c collect w).filterMap Event.dispatchedNode? = operatorIds e.graph.nodes ∧
    (e.trace slots inputs c collect w).filterMap Event.deliveredPosition? = List.range slots.length

/-- A walk of a call fails with an unbound tensor only if an evaluator gives this error. -/
theorem exists_unbound_event (hcheck : checkOperands e.graph slots inputs = .ok ()) {name : String}
    (hwalk : e.walk slots inputs c collect w e.graph.nodes = ((.error (.unboundTensor name), f'), w')) :
    ∃ node after, Event.dispatched node (.error (.unboundTensor name)) after
      ∈ e.events (e.contextFor c) collect e.graph.nodes
        (e.openedFrame slots inputs (e.startedWorld inputs c w))
        (e.openedWorld (e.startedWorld inputs c w)) := by
  obtain ⟨before, node, rest, f₁, w₁, hnodes, hbefore, hstep, hevents⟩ := exists_failing_event hwalk
  obtain ⟨ts, hgathered⟩ := exists_gathered hcheck hnodes hbefore
  have hvisit := visit_stepNode hstep
  rw [hevents]
  generalize e.stepEvent (e.contextFor c) node f₁ w₁ = event at hvisit ⊢
  generalize hr : (Except.error (.unboundTensor name) : Except Error Bool) = r at hvisit
  cases hvisit with
  | cancelled hcancel => cases hr
  | parameter hcancel hparameter => cases hr
  | delivered hcancel hresult hevent => cases hr
  | evaluated hcancel hoperator hprepared houtcome hbound => cases hr
  | unread hcancel hresult hunread =>
      rw [hgathered] at hunread
      cases hunread
  | unprepared hcancel hoperator hprepared =>
      cases hr
      obtain ⟨error, kept, store, hfails, hcause⟩ | ⟨handed, kept, store, hsucceeds, _⟩ :=
        exists_prepare (e := e) (e.contextFor c) node f₁ (e.polled w₁)
      · rw [hprepared] at hfails
        cases hfails
        obtain hunread | hmissing := hcause
        · rw [hgathered] at hunread
          cases hunread
        · unfold evaluatorOf at hmissing
          split at hmissing
          · cases hmissing
          · cases hmissing
      · rw [hprepared] at hsucceeds
        cases hsucceeds
  | failed hcancel hoperator hprepared houtcome =>
      cases hr
      exact ⟨node.id, _, List.mem_append_right _ (List.mem_singleton_self _)⟩
  | refused hcancel hoperator hprepared houtcome hbound hrefused =>
      cases hr
      obtain ⟨_, _, hname⟩ | ⟨_, _, hname⟩ := hrefused
      · cases hname
      · cases hname

/-- **Order.**  Whatever the evaluators do, a call that accepts its operands runs the nodes in order, each on
what earlier nodes have made in this call. -/
theorem runsInOrder (e : Executor σ) (slots inputs : List Tensor) (c : Context) (collect : Bool) (w : World σ)
    (hcheck : checkOperands e.graph slots inputs = .ok ()) :
    e.RunsInOrder slots inputs c collect w where
  handles node hnode h hh := by
    obtain hread | hout := List.mem_append.mp hh
    · obtain ⟨before, rest, hnodes⟩ := List.append_of_mem hnode
      obtain ⟨producer, hproducer, hout⟩ := List.mem_flatMap.mp (e.graph.reads_earlier hnodes hread)
      exact e.graph.output_lt (hnodes ▸ List.mem_append_left _ hproducer) hout
    · exact e.graph.output_lt hnode hout
  tables before rest hnodes := fits_walk hcheck c collect w before
  places node hnode hresult := by
    obtain ⟨before, rest, hnodes⟩ := List.append_of_mem hnode
    have hplaces := (lengths_of_checkOperands hcheck).2
    have hposition := e.graph.idxOf_results hnodes hresult
    exact ⟨_, hplaces ▸ (List.idxOf?_eq_some_iff.mp hposition).1, hposition⟩
  bound before node rest f₁ w₁ hnodes hwalk h hh := by
    obtain ⟨producer, hproducer, hout⟩ := List.mem_flatMap.mp (e.graph.reads_earlier hnodes hh)
    have hmem : producer ∈ e.graph.nodes := hnodes ▸ List.mem_append_left _ hproducer
    obtain ⟨t, hget, hbound⟩ := (binds_walk hcheck hnodes hwalk).produced producer hproducer h hout
    exact ⟨producer, hproducer, hout,
      fun other hother hother' => e.graph.producer_unique hother hmem hother' hout, t, hget, hbound⟩
  unbound name herror := by
    cases hcancel : w.cancelRequested e.cancel with
    | true =>
        rw [outcome_execute_pending hcancel] at herror
        cases herror
    | false =>
        obtain ⟨memories, houtcome⟩ := outcome_execute_walked c collect hcancel hcheck
        rw [houtcome] at herror
        rw [trace_walked hcancel hcheck]
        rcases hwalk : e.walk slots inputs c collect w e.graph.nodes with ⟨⟨error | status, f'⟩, w'⟩
        · rw [hwalk] at herror
          cases herror
          exact exists_unbound_event hcheck hwalk
        · rw [hwalk] at herror
          cases herror
  order := by
    cases hcancel : w.cancelRequested e.cancel with
    | true =>
        rw [trace, hcancel, if_pos rfl]
        exact List.nil_prefix
    | false =>
        rw [trace_walked hcancel hcheck]
        exact (operatorIds_events _ _ _ _ _).1
  ascending := pairwise_operatorIds e.graph
  completed slots' hcompleted := by
    cases hcancel : w.cancelRequested e.cancel with
    | true =>
        rw [outcome_execute_pending hcancel] at hcompleted
        cases hcompleted
    | false =>
        obtain ⟨memories, houtcome⟩ := outcome_execute_walked c collect hcancel hcheck
        rw [houtcome] at hcompleted
        have hwalk := status_of_map hcompleted
        rw [trace_walked hcancel hcheck]
        refine ⟨(operatorIds_events _ _ _ _ _).2 hwalk, ?_⟩
        have hnodes : e.graph.nodes = [] ++ (e.graph.nodes ++ []) := (List.append_nil _).symm
        rw [deliveredPosition_events hnodes (fits_openedFrame hcheck _) hwalk,
          (lengths_of_checkOperands hcheck).2, List.range_eq_range', Graph.results, List.length_map]
        rfl

/-- The operator of a graph is handed to its evaluator, and its result to the slot. -/
theorem runsInOrder_keeper :
    (keeperCreated.1.trace [⟨.u8, none, ⟨1⟩⟩] [⟨.u8, some [2], ⟨0⟩⟩] .empty false
      keeperFilled).filterMap Event.dispatchedNode? = [1] ∧
    (keeperCreated.1.trace [⟨.u8, none, ⟨1⟩⟩] [⟨.u8, some [2], ⟨0⟩⟩] .empty false
      keeperFilled).filterMap Event.deliveredPosition? = [0] := by
  have hcheck : checkOperands keeperCreated.1.graph [⟨.u8, none, ⟨1⟩⟩] [⟨.u8, some [2], ⟨0⟩⟩] = .ok () := by
    decide +kernel
  have hcompleted : ((keeperCreated.1.execute [⟨.u8, none, ⟨1⟩⟩] [⟨.u8, some [2], ⟨0⟩⟩] .empty
      false).outcome keeperFilled).1 = .ok (.completed, [⟨.u8, some [2], ⟨5⟩⟩]) := by
    decide +kernel
  exact (runsInOrder keeperCreated.1 [⟨.u8, none, ⟨1⟩⟩] [⟨.u8, some [2], ⟨0⟩⟩] .empty false keeperFilled
    hcheck).completed _ hcompleted

end Executor

end TensorGraph
