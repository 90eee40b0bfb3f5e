import TensorGraph.Proofs.Coverage
import TensorGraph.Proofs.Representing
import TensorGraph.Proofs.Separation

/-! # Tensors in use

`Usage own w us w' us'` says that a program that begins in a world with some tensors in hand may come to another
world with others in hand: it makes tensors, copies and drops handles, resizes, copies elements, writes bytes in
place, calls reference operators, and calls executors whose evaluators are such programs themselves.  Moments in the
middle of a call are included, when nodes have been walked and when an evaluator is handed its operands.  The
reference operators are such evaluators, and so are fused operators whose kernels or bodies are
(`FusedOperator.usesTensors`).

Everything that is in hand or kept by the world is represented all along (`Usage.represents`): a step lemma for each
thing that a call does carries this through walks over nodes and whole calls (`Executor.represents_execute`).  So
tensors always have the bytes that their elements take, aliases have one type and one shape, and nothing that reads,
copies or stores elements finds another number than it expects (`Usage.lengths_agree`). -/

namespace TensorGraph

variable {σ α β : Type}

/-! ### Computations within a call -/

namespace Call

/-- What a call in progress holds is represented, with other tensors in hand and what the world keeps. -/
def Represented (own : σ → List Tensor) (us : List Tensor) (f : Frame) (w : World σ) : Prop :=
  w.Represents own (f.held ++ us)

/-- A computation within a call leaves everything represented, and what it makes if it returns. -/
abbrev Represents (own : σ → List Tensor) (us : List Tensor) (m : Call σ α) (made : α → List Tensor) : Prop :=
  Ensures (Represented own us) m (fun a => Represented own (made a ++ us)) fun _ => Represented own us

variable {own : σ → List Tensor} {us vs : List Tensor} {f : Frame} {w : World σ}

theorem Represented.mono (h : Represented own us f w) (hsub : vs ⊆ f.held ++ us) : Represented own vs f w :=
  World.Represents.mono h (List.append_subset.mpr ⟨List.subset_append_left _ _, hsub⟩)

theorem Represented.dropped (h : Represented own (vs ++ us) f w) : Represented own us f w :=
  h.mono fun _ ht => List.mem_append_right _ (List.mem_append_right _ ht)

theorem Represented.dropped_middle {ts : List Tensor} (h : Represented own (ts ++ (vs ++ us)) f w) :
    Represented own (ts ++ us) f w := by
  refine h.mono (List.append_subset.mpr ⟨fun t ht => ?_, fun t ht => ?_⟩)
  · exact List.mem_append_right _ (List.mem_append_left _ ht)
  · exact List.mem_append_right _ (List.mem_append_right _ (List.mem_append_right _ ht))

/-- Another frame that brings in none but tensors in hand. -/
theorem Represented.reframe (h : Represented own us f w) {f' : Frame} (hsub : f'.held ⊆ us ++ f.held) :
    Represented own us f' w := by
  refine World.Represents.mono h (List.append_subset.mpr ⟨fun t ht => ?_, List.subset_append_right _ _⟩)
  exact List.mem_append.mpr (List.mem_append.mp (hsub ht)).symm

theorem represents_pure {made : α → List Tensor} {a : α} (h : made a ⊆ us) :
    Represents own us (pure a : Call σ α) made :=
  ensures_pure fun f _ hrep => hrep.mono
    (List.append_subset.mpr ⟨fun _ ht => List.mem_append_right _ (h ht), List.subset_append_right f.held us⟩)

theorem Represents.bind {m : Call σ α} {k : α → Call σ β} {made : α → List Tensor} {made' : β → List Tensor}
    (hm : Represents own us m made) (hk : ∀ a, Represents own (made a ++ us) (k a) made') :
    Represents own us (m >>= k) made' :=
  Ensures.bind hm fun a => (hk a).imp (fun _ _ _ h => h.dropped_middle) fun _ _ _ h => h.dropped

/-- One computation after another that makes no tensors. -/
theorem Represents.seq {m : Call σ α} {k : α → Call σ β} {made : β → List Tensor}
    (hm : Represents own us m fun _ => []) (hk : ∀ a, Represents own us (k a) made) :
    Represents own us (m >>= k) made :=
  hm.bind hk

theorem represents_modify {g : Frame → Frame} (h : ∀ f, (g f).held ⊆ us ++ f.held) :
    Represents own us (modify g : Call σ Unit) fun _ => [] :=
  ensures_modify fun f _ hrep => hrep.reframe (h f)

/-- The tensors that the frame holds are in hand once it is read. -/
theorem represents_get_bind {made : α → List Tensor} {k : Frame → Call σ α}
    (h : ∀ f, Represents own (f.held ++ us) (k f) made) : Represents own us (get >>= k) made := by
  refine ensures_get_bind fun f f' w' hrep => ?_
  obtain ⟨rfl, hrep⟩ := hrep
  have hheld : Represented own (f'.held ++ us) f' w' := hrep.mono (List.Subset.refl _)
  exact (h f').imp (fun _ _ _ h => h.dropped_middle) (fun _ _ _ h => h.dropped) f' w' hheld

end Call

namespace World.Represents

variable {own : σ → List Tensor} {w : World σ} {us : List Tensor}

/-- An evaluator that is called for a node. -/
theorem apply {ev : Evaluator σ} (hev : ev.Represents own) (h : w.Represents own us) {outputs inputs : List Tensor}
    (houtputs : outputs ⊆ us) (hinputs : inputs ⊆ us) (operation : Operation) (c : Context) :
    let ends := (ev.apply operation outputs inputs c).outcome w
    ends.2.Represents own (Evaluator.made ends.1 ++ us) := by
  have hends := hev operation outputs inputs c w us h houtputs hinputs
  rw [Evaluator.apply, Run.outcome_bind]
  generalize (ev.evaluate operation outputs inputs c).outcome w = ends at hends ⊢
  obtain ⟨error | produced, w'⟩ := ends
  · exact hends
  · refine World.Represents.mono hends (List.append_subset.mpr ⟨fun t ht => ?_, List.subset_append_right _ _⟩)
    rcases List.mem_append.mp ht with ht | ht
    · exact List.mem_append_left _ (List.mem_of_mem_take ht)
    · exact List.mem_append_right _ (houtputs (List.mem_of_mem_drop ht))

/-- A value is handed to a slot. -/
theorem deliver (h : w.Represents own us) {slot value : Tensor} (hslot : slot ∈ us) (hvalue : value ∈ us) :
    ((Executor.deliver slot value : Run σ Tensor).outcome w).2.Represents own us := by
  rcases Executor.deliver_cases slot value w with ⟨-, houtcome⟩ | ⟨-, -, -, s, hcopy, houtcome⟩
  · rw [houtcome]
    exact h
  · rw [houtcome]
    exact Store.Represents.copyFrom h (List.mem_append_left _ hslot) (List.mem_append_left _ hvalue) hcopy

theorem initVariables (h : w.Represents own us) (g : Graph (Evaluator σ)) (r : Ref Variables)
    (inputs : List Tensor) : ((Executor.initVariables g r inputs).outcome w).2.Represents own us := by
  obtain ⟨w', houtcome, hrep⟩ := Executor.initVariables_induction (P := (·.Represents own us))
    g inputs (fun _ id dtype shape _ h => (h.valueOrInit r id dtype shape).mono (List.subset_cons_self _ _)) h
  rw [houtcome]
  exact hrep

end World.Represents

namespace Executor

variable {e : Executor σ} {own : σ → List Tensor} {us : List Tensor} {f : Frame} {w : World σ}

/-! ### Steps of a call -/

theorem represents_polled (h : w.Represents own us) (e : Executor σ) : (e.polled w).Represents own us :=
  h.of_subset rfl (List.Subset.refl _)

theorem represents_takeCancel (e : Executor σ) : Call.Represents own us e.takeCancel fun _ => [] :=
  fun _ _ h => represents_polled h e

theorem represents_mapM_bound (hs : List Handle) :
    Call.Represents own us (hs.mapM bound : Call σ (List Tensor)) fun ts => ts := by
  intro f w h
  rw [eval_mapM_bound]
  cases hget : hs.mapM f.bindings.get with
  | error error => exact h
  | ok ts =>
      refine h.mono (List.append_subset.mpr ⟨fun t ht => List.mem_append_left _ ?_, List.subset_append_right _ _⟩)
      exact Simulates.mem_held_of_bound (Bindings.subset_tensors_of_mapM hget ht)

/-- A new tensor for a description. -/
theorem represents_fresh (h : w.Represents own us) (desc : TensorDesc) :
    let made := fresh desc w.store
    World.Represents own { w with store := made.2 } (made.1 :: us) := by
  unfold fresh
  cases desc.shape.toShape? with
  | some shape => exact h.zeros desc.dtype shape
  | none => exact Store.Represents.unshaped h desc.dtype

theorem represents_allocate (c : Context) {outputs : List Tensor} (k : Handle) (houtputs : outputs ⊆ us) :
    Call.Represents own us (e.allocate c outputs k) fun made => made := by
  cases hdesc : e.graph.tensors[k]? with
  | none =>
      unfold allocate
      rw [hdesc]
      exact Call.represents_pure houtputs
  | some desc =>
      intro f w h
      have hmore {t : Tensor} {w' : World σ} {f' : Frame} (h : Call.Represented own (t :: us) f' w') :
          Call.Represented own (outputs ++ [t] ++ us) f' w' := by
        refine h.mono (List.append_subset.mpr ⟨List.append_subset.mpr ⟨fun u hu => ?_, ?_⟩, ?_⟩)
        · exact List.mem_append_right _ (List.mem_cons_of_mem _ (houtputs hu))
        · exact List.cons_subset.mpr ⟨List.mem_append_right _ List.mem_cons_self, List.nil_subset _⟩
        · exact fun u hu => List.mem_append_right _ (List.mem_cons_of_mem _ hu)
      have hframe : Frame.held { f with kept := f.kept.set k none } ⊆ f.held := kept_subset f k
      rcases allocate_cases c outputs hdesc f w with ⟨t, hkept, -, -, heval⟩ | heval
      · rw [heval]
        refine hmore (World.Represents.mono h (List.append_subset.mpr ⟨?_, ?_⟩))
        · exact List.subset_append_of_subset_left _ hframe
        · exact List.cons_subset.mpr ⟨List.mem_append_left _ (mem_held_of_kept (List.mem_of_getElem? hkept)),
            List.subset_append_right _ _⟩
      · rw [heval]
        refine hmore (World.Represents.mono (represents_fresh h desc) (List.append_subset.mpr ⟨?_, ?_⟩))
        · exact fun u hu => List.mem_cons_of_mem _ (List.mem_append_left _ (hframe hu))
        · exact List.cons_subset_cons _ (List.subset_append_right _ _)

theorem represents_allocateAll (c : Context) (hs : List Handle) {outputs : List Tensor} (houtputs : outputs ⊆ us) :
    Call.Represents own us (hs.foldlM (e.allocate c) outputs) fun made => made := by
  induction hs generalizing outputs us with
  | nil => exact Call.represents_pure houtputs
  | cons k hs ih =>
      rw [List.foldlM_cons]
      exact (represents_allocate c k houtputs).bind fun made => ih (List.subset_append_left _ _)

/-- An evaluator is handed represented operands. -/
theorem represents_prepare (c : Context) (node : Node (Evaluator σ)) :
    Call.Represents own us (e.prepare c node) fun handed => handed.outputs ++ handed.inputs := by
  unfold prepare
  refine (represents_mapM_bound node.inputs).bind fun inputs => ?_
  refine (represents_allocateAll c node.outputs (List.nil_subset _)).bind fun outputs => ?_
  refine Call.ensures_lift_bind (fun ev _ => ?_) fun _ _ _ _ h => h
  have henter : Call.Represents own (outputs ++ (inputs ++ us))
      (modify fun f => { f with dispatched := node.id :: f.dispatched } : Call σ Unit) fun _ => [] :=
    Call.represents_modify fun f => List.subset_append_right _ f.held
  refine henter.seq fun _ => Call.represents_get_bind fun f => Call.represents_pure ?_
  intro t ht
  simp only [List.mem_append] at ht ⊢
  exact .inr (ht.imp_right .inl)

theorem represents_bindValue {value : Tensor} (hvalue : value ∈ us) (k : Handle) :
    Call.Represents own us (modify fun f => { f with bindings := f.bindings.bind k value } : Call σ Unit)
      fun _ => [] :=
  Call.represents_modify (bound_subset hvalue k)

theorem represents_bindProduced (collect : Bool) (node : Node (Evaluator σ)) (start : Nat)
    {produced : List Tensor} (hproduced : produced ⊆ us) :
    Call.Represents own us (e.bindProduced collect node start produced) fun _ => [] := by
  have hbind : Call.Represents own us ((node.outputs.zip produced).zipIdx.forM (e.bindOutput node)) fun _ => [] := by
    refine Call.ensures_forM fun ⟨⟨k, t⟩, position⟩ hentry => ?_
    have ht := hproduced (List.of_mem_zip (List.fst_mem_of_mem_zipIdx hentry)).2
    intro f w h
    rcases eval_bindOutput_cases (e := e) node k t position f w with ⟨-, heval⟩ | ⟨-, _, -, -, heval⟩ | ⟨-, -, heval⟩
    · rw [heval]
      exact h
    · rw [heval]
      exact h
    · rw [heval]
      exact represents_bindValue ht k f w h
  unfold bindProduced
  split
  · refine Call.ensures_getWorld_bind fun w' => Call.Represents.seq (fun f w h => ?_) fun _ => hbind
    refine World.Represents.putMemory h _ fun t ht => List.mem_append_right _ (List.mem_append_left _ ?_)
    obtain ⟨_, hentry, rfl⟩ := List.mem_filterMap.mp ht
    exact Holder.Holds.mem_held (x := .memory e.memory) hentry
  · exact hbind

/-- The evaluators that an executor may hand its operators to leave everything represented. -/
def RepresentsNodes (own : σ → List Tensor) (e : Executor σ) : Prop :=
  ∀ node ∈ e.graph.nodes, node.isOperator = true → ∀ ev, e.evaluatorOf node = .ok ev → ev.Represents own

theorem represents_apply {ev : Evaluator σ} (hev : ev.Represents own) {outputs inputs : List Tensor}
    (houtputs : outputs ⊆ us) (hinputs : inputs ⊆ us) (operation : Operation) (c : Context) :
    Call.Represents own us (Call.ofRun (ev.apply operation outputs inputs c)) fun made => made := by
  intro f w h
  have hends := h.apply hev (List.subset_append_of_subset_right _ houtputs)
    (List.subset_append_of_subset_right _ hinputs) operation c
  rw [Call.eval_ofRun]
  generalize (ev.apply operation outputs inputs c).outcome w = ends at hends ⊢
  obtain ⟨error | produced, w'⟩ := ends
  · exact hends
  · refine World.Represents.mono hends fun t ht => ?_
    simp only [Evaluator.made, List.mem_append] at ht ⊢
    exact or_left_comm.mp ht

theorem represents_evaluateNode (c : Context) (collect : Bool) {node : Node (Evaluator σ)}
    (hev : ∀ ev, e.evaluatorOf node = .ok ev → ev.Represents own) :
    Call.Represents own us (e.evaluateNode c collect node) fun _ => [] := by
  rw [evaluateNode_eq_prepare]
  intro f w h
  have hprepared := represents_prepare (e := e) c node f w h
  rw [Call.eval_bind]
  rcases heval : (e.prepare c node).eval f w with ⟨⟨error | handed, f'⟩, w'⟩
  · rw [heval] at hprepared
    exact hprepared
  · rw [heval] at hprepared
    have hrest : Call.Represents own (handed.outputs ++ handed.inputs ++ us) (do
        let start := (← getThe (World σ)).clock
        let produced ← Call.ofRun (handed.apply node.toOperation)
        e.bindProduced collect node start produced) fun _ => [] :=
      Call.ensures_getWorld_bind fun start =>
        (represents_apply (hev _ (prepared_of_prepare heval).evaluator)
          (List.subset_append_of_subset_left _ (List.subset_append_left _ _))
          (List.subset_append_of_subset_left _ (List.subset_append_right _ _)) _ _).bind fun produced =>
            represents_bindProduced collect node start.clock (List.subset_append_left _ _)
    exact hrest.imp (fun _ _ _ h => h.dropped.dropped) (fun _ _ _ h => h.dropped) f' w' hprepared

theorem represents_deliver {slot value : Tensor} (hslot : slot ∈ us) (hvalue : value ∈ us) :
    Call.Represents own us (Call.ofRun (deliver slot value)) fun t => [t] := by
  intro f w h
  have hdelivered := World.Represents.deliver h (List.mem_append_right _ hslot) (List.mem_append_right _ hvalue)
  rw [Call.eval_ofRun]
  rcases houtcome : (deliver slot value : Run σ Tensor).outcome w with ⟨error | slot', w'⟩
  · rw [houtcome] at hdelivered
    exact hdelivered
  · rw [houtcome] at hdelivered
    have hmem : slot' ∈ us := by
      rw [eq_of_delivered houtcome]
      split <;> assumption
    exact Call.Represented.mono hdelivered (List.cons_subset.mpr ⟨List.mem_append_right _ hmem,
      List.subset_append_right _ _⟩)

theorem represents_deliverNode (node : Node (Evaluator σ)) :
    Call.Represents own us (e.deliverNode node) fun _ => [] := by
  unfold deliverNode
  refine (represents_mapM_bound node.inputs).bind fun inputs => ?_
  cases inputs with
  | nil => exact Call.represents_pure (List.nil_subset _)
  | cons value rest =>
      have hbind {vs : List Tensor} (hvalue : value ∈ vs) : Call.Represents own vs (node.outputs.forM fun k =>
          (modify fun f => { f with bindings := f.bindings.bind k value } : Call σ Unit)) fun _ => [] :=
        Call.ensures_forM fun k _ => represents_bindValue hvalue k
      have hvalue : value ∈ value :: rest ++ us := List.mem_append_left _ List.mem_cons_self
      dsimp only
      split
      · exact hbind hvalue
      · rename_i position _
        refine Call.represents_get_bind fun f => ?_
        split
        · exact hbind (List.mem_append_right _ hvalue)
        · rename_i slot hslot
          have hslot : slot ∈ f.held ++ (value :: rest ++ us) :=
            List.mem_append_left _ (List.mem_append_right _ (List.mem_of_getElem? hslot))
          refine (represents_deliver hslot (List.mem_append_right _ hvalue)).bind fun slot' => ?_
          have hfill : Call.Represents own ([slot'] ++ (f.held ++ (value :: rest ++ us)))
              (modify fun f => { f with slots := f.slots.set position slot' } : Call σ Unit) fun _ => [] :=
            Call.represents_modify (filled_subset (List.mem_append_left _ List.mem_cons_self) position)
          exact hfill.seq fun _ => hbind (List.mem_append_right _ (List.mem_append_right _ hvalue))

/-- Every step of a call leaves everything represented. -/
theorem invariant_represented (hnodes : e.RepresentsNodes own) (c : Context) (collect : Bool) (us : List Tensor) :
    e.Invariant c collect (fun _ => Call.Represented own us) (Call.Represented own us)
      fun _ => Call.Represented own us where
  cancel _ := by
    intro f w h
    have hpolled := represents_takeCancel e f w h
    rw [eval_takeCancel_eq] at hpolled ⊢
    show if w.cancelRequested e.cancel = true then _ else _
    split <;> exact hpolled
  parameter _ _ _ _ h := h
  result _ _ := represents_deliverNode _
  operator hsplit hparameter hresult := by
    refine represents_evaluateNode c collect (hnodes _ (hsplit ▸ List.mem_append_right _ List.mem_cons_self) ?_)
    simp [Node.isOperator, hparameter, hresult]

/-! ### Whole calls -/

variable {slots inputs : List Tensor}

theorem represented_opened (h : w.Represents own us) (hslots : slots ⊆ us) (hinputs : inputs ⊆ us) :
    Call.Represented own us (e.openedFrame slots inputs w) (e.openedWorld w) := by
  have hheld : (e.openedFrame slots inputs w).held ⊆ us ++ w.tensors own := by
    intro t ht
    simp only [openedFrame, Frame.held, List.mem_append, List.mem_filterMap, id] at ht
    rcases ht with (ht | ⟨_, hkept, rfl⟩) | ht
    · exact List.mem_append_left _ (hinputs (tensors_bindInputs_subset e.graph inputs ht))
    · have hmem := mem_fitLength hkept
      split at hmem
      · exact List.mem_append_right _ (List.mem_append_left _ (Holder.Holds.mem_held (x := .memory e.memory) hmem))
      · cases hmem
    · exact List.mem_append_left _ (hslots ht)
  have htaken : w.Represents own ((e.openedFrame slots inputs w).held ++ us) :=
    h.take (List.append_subset.mpr ⟨hheld, List.subset_append_left _ _⟩)
  unfold openedWorld
  split
  · exact htaken.putMemory _ (List.nil_subset _)
  · exact htaken

/-- Wherever the walk of a call stands, everything is represented. -/
theorem represented_walk (hnodes : e.RepresentsNodes own) (h : w.Represents own us) (hslots : slots ⊆ us)
    (hinputs : inputs ⊆ us) (c : Context) (collect : Bool) {before rest : List (Node (Evaluator σ))}
    (hsplit : e.graph.nodes = before ++ rest) :
    let walked := e.walk slots inputs c collect w before
    Call.Represented own us walked.1.2 walked.2 := by
  have hstarted : (e.startedWorld inputs c w).Represents own us :=
    (represents_polled h e).initVariables e.graph _ inputs
  have hopened := represented_opened (e := e) hstarted hslots hinputs
  have hruns := (invariant_represented hnodes (e.contextFor c) collect us).ensures_runNodes
    (show e.graph.nodes = [] ++ before ++ rest from hsplit)
  rcases hwalk : e.walk slots inputs c collect w before with ⟨⟨error | status, f⟩, w'⟩
  · exact hruns.of_error hopened hwalk
  · rcases hruns.of_ok hopened hwalk with ⟨_, hends⟩ | ⟨_, hends⟩ <;> exact hends

theorem represents_closeFrame (h : Call.Represented own us f w) :
    ((e.closeFrame f).outcome w).2.Represents own (f.held ++ us) := by
  unfold closeFrame
  split
  · refine World.Represents.putMemory h _ fun t ht => ?_
    obtain ⟨_, hentry, rfl⟩ := List.mem_filterMap.mp ht
    exact List.mem_append_left _ (List.mem_append_left _ (mem_remembered hentry))
  · exact h

/-- A call leaves everything represented, and the slots as they are after it, whether it completes, is cancelled
or fails. -/
theorem represents_execute (hnodes : e.RepresentsNodes own) (h : w.Represents own us) (hslots : slots ⊆ us)
    (hinputs : inputs ⊆ us) (c : Context) (collect : Bool) :
    ((e.execute slots inputs c collect).outcome w).2.Represents own
      (e.slotsAfter slots inputs c collect w ++ us) := by
  have hpolled : (e.polled w).Represents own (slots ++ us) :=
    (represents_polled h e).mono (List.append_subset.mpr ⟨hslots, List.Subset.refl us⟩)
  cases hcancel : w.cancelRequested e.cancel with
  | true =>
      rw [outcome_execute_pending hcancel, slotsAfter, trace, if_pos hcancel]
      exact hpolled
  | false =>
      cases hcheck : checkOperands e.graph slots inputs with
      | error error =>
          rw [outcome_execute_rejected hcancel hcheck, slotsAfter_rejected hcancel hcheck]
          exact hpolled
      | ok _ =>
          have hwalked := represented_walk hnodes h hslots hinputs c collect (List.append_nil _).symm
          rw [slotsAfter_walked hcancel hcheck]
          rcases hwalk : e.walk slots inputs c collect w e.graph.nodes with ⟨⟨o, f⟩, w'⟩
          rw [hwalk] at hwalked
          rw [execute_eq, outcome_executeNodes_walk hcancel hcheck hwalk]
          refine (represents_closeFrame hwalked).mono (List.append_subset.mpr ⟨?_, List.subset_append_right _ _⟩)
          exact List.subset_append_of_subset_left _ (List.subset_append_right _ _)

end Executor

/-- A moment of a call, and tensors that are in hand there besides those of the caller: wherever the walk stands,
when an evaluator is called, and when the call has returned or failed. -/
inductive Execution.Moment (q : Execution σ) : World σ → List Tensor → Prop
  | walked {before rest : List (Node (Evaluator σ))} (hsplit : q.executor.graph.nodes = before ++ rest) :
    Moment q (q.walk before).2 (q.walk before).1.2.held
  | handed {node : Node (Evaluator σ)} {f : Frame} {w : World σ} {handed : Handed σ}
    (hdispatches : q.Dispatches node f w handed) : Moment q w (handed.outputs ++ handed.inputs ++ f.held)
  | ended : Moment q q.outcome.2 (q.executor.slotsAfter q.slots q.inputs q.context q.collect q.world)

/-- At every moment of a call everything is represented. -/
theorem Execution.Moment.represents {own : σ → List Tensor} {q : Execution σ} {w : World σ} {held us : List Tensor}
    (h : q.Moment w held) (hnodes : q.executor.RepresentsNodes own) (hworld : q.world.Represents own us)
    (hslots : q.slots ⊆ us) (hinputs : q.inputs ⊆ us) : w.Represents own (held ++ us) := by
  cases h with
  | walked hsplit => exact Executor.represented_walk hnodes hworld hslots hinputs q.context q.collect hsplit
  | ended => exact Executor.represents_execute hnodes hworld hslots hinputs q.context q.collect
  | @handed node f w handed hdispatches =>
      obtain ⟨-, -, hsplit, hwalk, -, -, hprepared⟩ := hdispatches
      have hwalked := Executor.represented_walk hnodes hworld hslots hinputs q.context q.collect hsplit
      rw [show q.executor.walk q.slots q.inputs q.context q.collect q.world _ = _ from hwalk] at hwalked
      have hpolled := Executor.represents_polled hwalked q.executor
      have hready := Executor.represents_prepare (e := q.executor) (q.executor.contextFor q.context) node _ _ hpolled
      rw [hprepared] at hready
      refine World.Represents.mono hready fun t ht => ?_
      simp only [List.mem_append] at ht ⊢
      exact ht.elim (·.elim (fun ht => .inr (.inl ht)) .inl) fun ht => .inr (.inr ht)

/-! ### Programs -/

/-- A program that begins in a world with some tensors in hand may come to another world with others in hand.
`own` are the tensors that the evaluators of a user keep for themselves. -/
inductive Usage [HalfConversion] (own : σ → List Tensor) : World σ → List Tensor → World σ → List Tensor → Prop
  | begun (w : World σ) (us : List Tensor) : Usage own w us w us
  /-- Handles are copied and dropped, and taken from what the world keeps. -/
  | taken {w₀ w : World σ} {us₀ us vs : List Tensor} (h : Usage own w₀ us₀ w us)
    (hvs : vs ⊆ us ++ w.tensors own) : Usage own w₀ us₀ w vs
  /-- The world changes in other things than buffers: handles are put into variables or dropped from them, objects
  are made and dropped, a call is asked to cancel, time passes. -/
  | turned {w₀ w w' : World σ} {us₀ us : List Tensor} (h : Usage own w₀ us₀ w us) (hstore : w'.store = w.store)
    (hkept : w'.tensors own ⊆ us ++ w.tensors own) : Usage own w₀ us₀ w' us
  | unshaped {w₀ w : World σ} {us₀ us : List Tensor} (h : Usage own w₀ us₀ w us) (dtype : DType) :
    Usage own w₀ us₀ { w with store := (Tensor.unshaped dtype w.store).2 }
      ((Tensor.unshaped dtype w.store).1 :: us)
  | zeros {w₀ w : World σ} {us₀ us : List Tensor} (h : Usage own w₀ us₀ w us) (dtype : DType) (shape : Shape) :
    Usage own w₀ us₀ { w with store := (Tensor.zeros dtype shape w.store).2 }
      ((Tensor.zeros dtype shape w.store).1 :: us)
  | ofBytes {w₀ w : World σ} {us₀ us : List Tensor} (h : Usage own w₀ us₀ w us) {dtype : DType} {shape : Shape}
    {content : Bytes} {t : Tensor} {s : Store} (hmade : Tensor.ofBytes dtype shape content w.store = .ok (t, s)) :
    Usage own w₀ us₀ { w with store := s } (t :: us)
  | deepCopied {w₀ w : World σ} {us₀ us : List Tensor} (h : Usage own w₀ us₀ w us) {t : Tensor} (ht : t ∈ us) :
    Usage own w₀ us₀ { w with store := (t.deepCopy w.store).2 } ((t.deepCopy w.store).1 :: us)
  | resized {w₀ w : World σ} {us₀ us : List Tensor} (h : Usage own w₀ us₀ w us) {t : Tensor} (ht : t ∈ us)
    (shape : Shape) :
    Usage own w₀ us₀ { w with store := (t.resize shape w.store).2 } ((t.resize shape w.store).1 :: us)
  | copied {w₀ w : World σ} {us₀ us : List Tensor} (h : Usage own w₀ us₀ w us) {t source : Tensor} (ht : t ∈ us)
    (hsource : source ∈ us) {s : Store} (hcopy : t.copyFrom source w.store = .ok s) :
    Usage own w₀ us₀ { w with store := s } us
  /-- Bytes are written into a buffer in place, so that it keeps its size. -/
  | written {w₀ w : World σ} {us₀ us : List Tensor} (h : Usage own w₀ us₀ w us) (b : BufferId) {content : Bytes}
    (hsize : content.size = (w.store.bytes b).size) :
    Usage own w₀ us₀ { w with store := w.store.write b content } us
  | evaluated {w₀ w : World σ} {us₀ us : List Tensor} (h : Usage own w₀ us₀ w us) (op : ReferenceOp)
    (operation : Operation) {outputs inputs : List Tensor} (houtputs : outputs ⊆ us) (hinputs : inputs ⊆ us)
    (c : Context) :
    Usage own w₀ us₀ ((op.evaluator.evaluate operation outputs inputs c).outcome w).2
      (Evaluator.made ((op.evaluator.evaluate operation outputs inputs c).outcome w).1 ++ us)
  /-- An executor is called whose evaluators are such programs, and the call comes to some moment. -/
  | called {w₀ w : World σ} {us₀ us held : List Tensor} {q : Execution σ} (h : Usage own w₀ us₀ q.world us)
    (hslots : q.slots ⊆ us) (hinputs : q.inputs ⊆ us)
    (hnodes : ∀ node ∈ q.executor.graph.nodes, node.isOperator = true → ∀ ev, q.executor.evaluatorOf node = .ok ev →
      ∀ (operation : Operation) (outputs inputs : List Tensor) (c : Context) (w : World σ),
        Usage own w (outputs ++ inputs) ((ev.evaluate operation outputs inputs c).outcome w).2
          (Evaluator.made ((ev.evaluate operation outputs inputs c).outcome w).1))
    (hmoment : q.Moment w held) : Usage own w₀ us₀ w (held ++ us)

namespace Usage

variable {own : σ → List Tensor} {w₀ w : World σ} {us₀ us : List Tensor}

/-- Tensors that are in hand or kept are so too with others in hand besides. -/
theorem subset_beside {ts us kept : List Tensor} (h : ts ⊆ us ++ kept) (vs : List Tensor) :
    ts ⊆ us ++ vs ++ kept := by
  intro t ht
  rcases List.mem_append.mp (h ht) with ht | ht
  · exact List.mem_append_left _ (List.mem_append_left _ ht)
  · exact List.mem_append_right _ ht

variable [HalfConversion]

/-- What a program has in hand and what the world keeps is represented wherever the program comes, together with
what others have in hand meanwhile. -/
theorem represents (h : Usage own w₀ us₀ w us) {vs : List Tensor} (hbegun : w₀.Represents own (us₀ ++ vs)) :
    w.Represents own (us ++ vs) := by
  induction h generalizing vs with
  | begun => exact hbegun
  | taken _ hvs ih =>
      refine (ih hbegun).take (List.append_subset.mpr ⟨subset_beside hvs vs, ?_⟩)
      exact List.subset_append_of_subset_left _ (List.subset_append_right _ _)
  | turned _ hstore hkept ih =>
      exact (ih hbegun).of_subset hstore
        (List.append_subset.mpr ⟨List.subset_append_left _ _, subset_beside hkept vs⟩)
  | unshaped _ dtype ih => exact Store.Represents.unshaped (ih hbegun) dtype
  | zeros _ dtype shape ih => exact (ih hbegun).zeros dtype shape
  | ofBytes _ hmade ih => exact Store.Represents.ofBytes (ih hbegun) hmade
  | deepCopied _ ht ih =>
      exact (ih hbegun).copied (List.mem_append_left _ (List.mem_append_left _ ht))
  | resized _ ht shape ih => exact (ih hbegun).resized (List.mem_append_left _ ht) shape
  | copied _ ht hsource hcopy ih =>
      exact Store.Represents.copyFrom (ih hbegun) (List.mem_append_left _ (List.mem_append_left _ ht))
        (List.mem_append_left _ (List.mem_append_left _ hsource)) hcopy
  | written _ b hsize ih => exact Store.Represents.of_keepsSizes (ih hbegun) (Store.keepsSizes_write hsize)
  | evaluated _ op operation houtputs hinputs c ih =>
      rw [List.append_assoc]
      exact op.represents own operation _ _ c _ _ (ih hbegun) (List.subset_append_of_subset_left _ houtputs)
        (List.subset_append_of_subset_left _ hinputs)
  | @called w₀ w us₀ us held q _ hslots hinputs _ hmoment ih hacts =>
      have hrepresents : q.executor.RepresentsNodes own := by
        intro node hnode hoperator ev hev operation outputs inputs c w ts hts houtputs hinputs
        refine hacts node hnode hoperator ev hev operation outputs inputs c w (hts.mono ?_)
        exact List.append_subset.mpr ⟨List.append_subset.mpr ⟨houtputs, hinputs⟩, List.Subset.refl ts⟩
      rw [List.append_assoc]
      exact hmoment.represents hrepresents (ih hbegun) (List.subset_append_of_subset_left _ hslots)
        (List.subset_append_of_subset_left _ hinputs)

/-! ### Programs one after the other -/

theorem trans {w' : World σ} {us' : List Tensor} (h : Usage own w₀ us₀ w us) (h' : Usage own w us w' us') :
    Usage own w₀ us₀ w' us' := by
  induction h' with
  | begun => exact h
  | taken _ hvs ih => exact (ih h).taken hvs
  | turned _ hstore hkept ih => exact (ih h).turned hstore hkept
  | unshaped _ dtype ih => exact (ih h).unshaped dtype
  | zeros _ dtype shape ih => exact (ih h).zeros dtype shape
  | ofBytes _ hmade ih => exact (ih h).ofBytes hmade
  | deepCopied _ ht ih => exact (ih h).deepCopied ht
  | resized _ ht shape ih => exact (ih h).resized ht shape
  | copied _ ht hsource hcopy ih => exact (ih h).copied ht hsource hcopy
  | written _ b hsize ih => exact (ih h).written b hsize
  | evaluated _ op operation houtputs hinputs c ih => exact (ih h).evaluated op operation houtputs hinputs c
  | called _ hslots hinputs hnodes hmoment ih => exact (ih h).called hslots hinputs hnodes hmoment

/-- What a program has in hand besides may stay there. -/
theorem frame (h : Usage own w₀ us₀ w us) (vs : List Tensor) : Usage own w₀ (us₀ ++ vs) w (us ++ vs) := by
  have hleft {us ts : List Tensor} (hsub : us ⊆ ts) : us ⊆ ts ++ vs := List.subset_append_of_subset_left _ hsub
  induction h with
  | begun w us => exact .begun w (us ++ vs)
  | taken _ hvs ih =>
      refine ih.taken (List.append_subset.mpr ⟨subset_beside hvs vs, ?_⟩)
      exact List.subset_append_of_subset_left _ (List.subset_append_right _ _)
  | turned _ hstore hkept ih => exact ih.turned hstore (subset_beside hkept vs)
  | unshaped _ dtype ih => exact ih.unshaped dtype
  | zeros _ dtype shape ih => exact ih.zeros dtype shape
  | ofBytes _ hmade ih => exact ih.ofBytes hmade
  | deepCopied _ ht ih => exact ih.deepCopied (List.mem_append_left _ ht)
  | resized _ ht shape ih => exact ih.resized (List.mem_append_left _ ht) shape
  | copied _ ht hsource hcopy ih =>
      exact ih.copied (List.mem_append_left _ ht) (List.mem_append_left _ hsource) hcopy
  | written _ b hsize ih => exact ih.written b hsize
  | evaluated _ op operation houtputs hinputs c ih =>
      rw [List.append_assoc]
      exact ih.evaluated op operation (hleft houtputs) (hleft hinputs) c
  | called _ hslots hinputs hnodes hmoment ih =>
      rw [List.append_assoc]
      exact ih.called (hleft hslots) (hleft hinputs) hnodes hmoment

theorem resizedAll (h : Usage own w₀ us₀ w us) (shape : Shape) {ts : List Tensor} (hts : ts ⊆ us) :
    Usage own w₀ us₀ { w with store := (FusedOperator.resizeAll shape ts w.store).2 }
      ((FusedOperator.resizeAll shape ts w.store).1 ++ us) := by
  induction ts generalizing w us with
  | nil => exact h
  | cons t ts ih =>
      obtain ⟨ht, hts⟩ := List.cons_subset.mp hts
      refine (ih (h.resized ht shape) (List.subset_cons_of_subset _ hts)).taken
        (List.subset_append_of_subset_left _ fun u hu => ?_)
      rcases List.mem_append.mp hu with hu | hu
      · rcases List.mem_cons.mp hu with rfl | hu
        · exact List.mem_append_right _ List.mem_cons_self
        · exact List.mem_append_left _ hu
      · exact List.mem_append_right _ (List.mem_cons_of_mem _ hu)

/-- A kernel is called again and again, each call being such a program. -/
theorem after (h : Usage own w₀ us₀ w us) {kernel : Kernel σ}
    (hkernel : ∀ i w, Usage own w [] (kernel.call i w).2 []) (calls : List KernelCall) :
    Usage own w₀ us₀ (kernel.after calls w) us := by
  induction calls generalizing w with
  | nil => exact h
  | cons call calls ih => exact ih (h.trans ((hkernel call.invocation w).frame us))

end Usage

/-! ### Evaluators -/

/-- An evaluator that acts as a program does that has the operands in hand. -/
def Evaluator.UsesTensors [HalfConversion] (own : σ → List Tensor) (ev : Evaluator σ) : Prop :=
  ∀ (operation : Operation) (outputs inputs : List Tensor) (c : Context) (w : World σ),
    Usage own w (outputs ++ inputs) ((ev.evaluate operation outputs inputs c).outcome w).2
      (made ((ev.evaluate operation outputs inputs c).outcome w).1)

/-- The evaluators that an executor may hand its operators to act so. -/
def Executor.UsesTensors [HalfConversion] (own : σ → List Tensor) (e : Executor σ) : Prop :=
  ∀ node ∈ e.graph.nodes, node.isOperator = true → ∀ ev, e.evaluatorOf node = .ok ev → ev.UsesTensors own

theorem ReferenceOp.usesTensors [HalfConversion] (own : σ → List Tensor) (op : ReferenceOp) :
    Evaluator.UsesTensors own (op.evaluator : Evaluator σ) := by
  intro operation outputs inputs c w
  have hbegun : Usage own w (outputs ++ inputs) w (outputs ++ inputs) := .begun w _
  exact (hbegun.evaluated op operation (List.subset_append_left _ _) (List.subset_append_right _ _) c).taken
    (List.subset_append_of_subset_left _ (List.subset_append_left _ _))

theorem Executor.IsReference.usesTensors [HalfConversion] {e : Executor σ} {kind : Node (Evaluator σ) → ReferenceOp}
    (h : e.IsReference kind) (own : σ → List Tensor) : e.UsesTensors own := by
  intro node hnode hoperator ev hev
  obtain ⟨hparameter, hresult⟩ : ¬ node.isParameter = true ∧ ¬ node.isResult = true := by
    simpa [Node.isOperator] using hoperator
  rw [(h node hnode hparameter hresult).2] at hev
  exact Except.ok.inj hev ▸ (kind node).usesTensors own

namespace FusedOperator

variable {own : σ → List Tensor} {f : FusedOperator σ}

/-- Planning changes nothing but the plans that are kept. -/
theorem exists_planFor (f : FusedOperator σ) (inputs outputs : List Tensor) (w : World σ) :
    ∃ plans, ((f.planFor inputs outputs).outcome w).2 = { w with planCaches := plans } := by
  unfold planFor
  cases Interface.ofTensors inputs outputs with
  | error error => exact ⟨w.planCaches, rfl⟩
  | ok i =>
      rw [Run.outcome_bind_ok (Run.outcome_lift w _), Run.outcome_bind_ok (Run.outcome_get w)]
      cases (w.planCaches.get f.plans).fetch f.planner i with
      | error error => exact ⟨w.planCaches, rfl⟩
      | ok fetched => exact ⟨w.planCaches.put f.plans fetched.2, rfl⟩

variable [HalfConversion]

theorem usage_sweep {w₀ w : World σ} {us₀ us : List Tensor} (h : Usage own w₀ us₀ w us) {kernel : Kernel σ}
    (hkernel : ∀ i w, Usage own w [] (kernel.call i w).2 []) (outputs inputs : List Tensor) :
    Usage own w₀ us₀ ((f.sweep kernel outputs inputs).outcome w).2 us := by
  have hquiet {w w' : World σ} (h : Usage own w₀ us₀ w us) (hsame : ∃ plans pads,
      w' = { w with planCaches := plans, scratchpads := pads }) : Usage own w₀ us₀ w' us := by
    obtain ⟨plans, pads, rfl⟩ := hsame
    exact h.turned rfl (List.subset_append_right _ _)
  obtain ⟨plans, hplans⟩ := f.exists_planFor inputs outputs w
  unfold sweep
  rw [Run.outcome_bind]
  rcases hplan : (f.planFor inputs outputs).outcome w with ⟨error | plan, w'⟩
  · rw [hplan] at hplans
    exact hquiet h ⟨plans, w.scratchpads, hplans⟩
  · rw [hplan] at hplans
    obtain ⟨calls, pads, hworld⟩ := f.scheduler.world_runAlong Sweep.inOrder kernel plan (inputs.map (some ·.buffer))
      (outputs.map (some ·.buffer)) w'
    simp only
    rw [Scheduler.run, hworld]
    exact (hquiet h ⟨plans, pads, by rw [show w' = _ from hplans]⟩).after hkernel calls

/-- A fused operator acts as a program does, if its kernel or the evaluators of its body do. -/
theorem usesTensors (hkernel : ∀ kernel, f.kernel = some kernel → ∀ i w, Usage own w [] (kernel.call i w).2 [])
    (hbody : f.kernel = none → f.interpreter.UsesTensors own) : f.evaluator.UsesTensors own := by
  intro operation outputs inputs c w
  have hbegun : Usage own w (outputs ++ inputs) w (outputs ++ inputs) := .begun w _
  have hrefused : Usage own w (outputs ++ inputs) w [] := hbegun.taken (List.nil_subset _)
  rw [show f.evaluator.evaluate = f.evaluate from rfl]
  rcases hcheck : Executor.checkOperands f.body outputs inputs with error | ⟨⟩
  · unfold evaluate
    rw [hcheck]
    exact hrefused
  rcases hshape : commonShape inputs with error | shape
  · unfold evaluate
    rw [hcheck, hshape]
    exact hrefused
  have hresized := hbegun.resizedAll shape (List.subset_append_left outputs inputs)
  rw [evaluate_eq, outcome_evaluateAlong hcheck hshape]
  generalize resizeAll shape outputs w.store = made at hresized ⊢
  obtain ⟨made, s⟩ := made
  simp only
  cases hk : f.kernel with
  | some kernel =>
      have hswept := usage_sweep (f := f) hresized (hkernel kernel hk) made inputs
      have hsweep : (do
          let plan ← f.planFor inputs made
          f.scheduler.runAlong Sweep.inOrder kernel plan (inputs.map (some ·.buffer)) (made.map (some ·.buffer))
          return made : Run σ (List Tensor)) = f.sweep kernel made inputs >>= fun _ => return made :=
        (bind_assoc _ _ _).symm
      simp only
      rw [hsweep, Run.outcome_bind]
      rcases houtcome : (f.sweep kernel made inputs).outcome { w with store := s } with ⟨error | ⟨⟩, w'⟩
      · rw [houtcome] at hswept
        exact hswept.taken (List.nil_subset _)
      · rw [houtcome] at hswept
        exact hswept.taken (List.subset_append_of_subset_left _ (List.subset_append_left _ _))
  | none =>
      let q : Execution σ := ⟨f.interpreter, made, inputs, c, false, { w with store := s }⟩
      have hcalled := Usage.called (q := q) hresized (List.subset_append_left _ _)
        (List.subset_append_of_subset_right _ (List.subset_append_right _ _)) (hbody hk) .ended
      simp only
      rw [outcome_interpret]
      rcases houtcome : (f.interpreter.execute made inputs c false).outcome { w with store := s }
        with ⟨error | ⟨_ | _, slots⟩, w'⟩
      all_goals rw [show q.outcome = _ from houtcome] at hcalled
      · exact hcalled.taken (List.nil_subset _)
      · have hslots := Executor.slotsAfter_of_ok (congrArg Prod.fst houtcome)
        rw [show q.executor.slotsAfter q.slots q.inputs q.context q.collect q.world = slots from hslots] at hcalled
        exact hcalled.taken (List.subset_append_of_subset_left _ (List.subset_append_left _ _))
      · exact hcalled.taken (List.nil_subset _)

end FusedOperator

/-! ### Programs that begin with nothing -/

namespace Usage

variable {own : σ → List Tensor} {w₀ w : World σ} {us₀ us : List Tensor}

/-- A program that begins with nothing has everything represented. -/
theorem represents_of_empty [HalfConversion] {user : σ} (h : Usage own (.empty user) [] w us) (hown : own user = []) :
    w.Represents own us := by
  have hnothing : (World.empty user).Represents own ([] ++ []) := by
    show (World.empty user).store.Represents ([] ++ [] ++ ((World.empty user).held ++ own user))
    rw [hown]
    exact Store.represents_nil _
  have hends := h.represents hnothing
  rwa [List.append_nil] at hends

/-- **Representation.**  A program begins with nothing, and comes to any world by making tensors, copying and
dropping handles, copying them deeply, resizing, copying elements, writing bytes in place, calling reference
operators, and calling executors whose evaluators are such programs; `ts` are the tensors in hand and those that the
world keeps.  A tensor that has a shape lies in a buffer of as many bytes as the product of its extents times the
size of an element, a tensor without shape in an empty one; and tensors in one buffer have one type and one shape.
So reading a tensor gives as many elements as its size says and leaves out no byte; copying finds as many bytes in
the source as there are in the tensor; and a reference operator on such operands ends as it would if every store of
elements looked first whether they fill the buffer exactly. -/
theorem lengths_agree [HalfConversion] {user : σ} (h : Usage own (.empty user) [] w us) (hown : own user = []) :
    let ts := us ++ w.tensors own
    (∀ t ∈ ts, ∀ shape, t.shape = some shape → (t.bytes w.store).size = shape.size * t.dtype.size) ∧
    (∀ t ∈ ts, t.shape = none → (t.bytes w.store).size = 0) ∧
    (∀ t ∈ ts, ∀ u ∈ ts, t.SharesBuffer u → t.dtype = u.dtype ∧ t.shape = u.shape) ∧
    (∀ t ∈ ts, ∃ xs, t.elementsAs t.dtype w.store = .ok xs ∧ xs.length = t.size ∧
      t.dtype.bytes xs = t.bytes w.store) ∧
    (∀ t ∈ ts, ∀ source ∈ ts, ∀ s, t.copyFrom source w.store = .ok s →
      (source.bytes w.store).size = (t.bytes w.store).size) ∧
    ∀ (op : ReferenceOp) (operation : Operation) (outputs inputs : List Tensor) (c : Context),
      outputs ⊆ ts → inputs ⊆ ts →
        (op.evaluateBy Run.setFitting operation outputs inputs c).outcome w
          = (op.evaluator.evaluate operation outputs inputs c).outcome w := by
  have hrep := h.represents_of_empty hown
  have hstore : w.store.Represents (us ++ w.tensors own) := hrep
  refine ⟨fun t ht shape hshape => ?_, fun t ht hshape => ?_, hstore.alike, fun t ht => ?_,
    fun t ht source hsource s hcopy => hstore.size_copied ht hsource hcopy,
    fun op operation outputs inputs c houtputs hinputs => ?_⟩
  · rw [hstore.size_bytes t ht, Tensor.room, Tensor.size_of_shape hshape]
  · rw [hstore.size_bytes t ht, Tensor.room, Tensor.size, hshape]
    exact Nat.zero_mul _
  · exact ⟨t.elements w.store, if_pos rfl, hstore.length_elements ht, hstore.bytes_elements ht⟩
  · exact (hrep.take (List.Subset.refl _)).outcome_evaluateBy houtputs hinputs op operation c

/-- An executor assigns an input to a variable, and fills an open slot with a tensor that it remembers. -/
def fillingCall : Execution Unit :=
  ⟨Executor.keeperCreated.1, [⟨.u8, none, ⟨1⟩⟩], [⟨.u8, some [2], ⟨0⟩⟩], .empty, false, Executor.keeperFilled⟩

/-- The world in which the slot is resized afterwards. -/
def resizedWorld : World Unit :=
  { fillingCall.outcome.2 with
    store := (Tensor.resize ⟨.u8, some [2], ⟨5⟩⟩ [3] fillingCall.outcome.2.store).2 }

theorem usage_resizedWorld : Usage (fun _ => []) (.empty ()) [] resizedWorld
    [⟨.u8, some [3], ⟨6⟩⟩, ⟨.u8, some [2], ⟨5⟩⟩, ⟨.u8, none, ⟨1⟩⟩, ⟨.u8, some [2], ⟨0⟩⟩] := by
  have hcreated : Usage (fun _ => []) (.empty ()) [] Executor.keeperCreated.2 [] :=
    (begun _ []).turned rfl (List.Subset.refl _)
  have hmade : Tensor.ofBytes .u8 [2] #[1, 2] Executor.keeperCreated.2.store = .ok (_, _) := if_pos rfl
  have hfilled : Usage (fun _ => []) (.empty ()) [] fillingCall.world
      [⟨.u8, none, ⟨1⟩⟩, ⟨.u8, some [2], ⟨0⟩⟩] :=
    (hcreated.ofBytes hmade).unshaped .u8
  have hcalled := hfilled.called (q := fillingCall) (by decide) (by decide)
    (Executor.isReference_keeper.usesTensors fun _ => []) .ended
  have hslot : fillingCall.executor.slotsAfter fillingCall.slots fillingCall.inputs fillingCall.context
      fillingCall.collect fillingCall.world = [⟨.u8, some [2], ⟨5⟩⟩] := by
    decide +kernel
  have hmoved : (Tensor.resize ⟨.u8, some [2], ⟨5⟩⟩ [3] fillingCall.outcome.2.store).1
      = ⟨.u8, some [3], ⟨6⟩⟩ := by
    decide +kernel
  rw [hslot] at hcalled
  have hresized := hcalled.resized List.mem_cons_self [3]
  rwa [hmoved] at hresized

/-- The handle that was resized has gone to a new buffer, and the one that the executor remembers has not. -/
theorem lengths_agree_resized :
    let us : List Tensor := [⟨.u8, some [3], ⟨6⟩⟩, ⟨.u8, some [2], ⟨5⟩⟩, ⟨.u8, none, ⟨1⟩⟩, ⟨.u8, some [2], ⟨0⟩⟩]
    let ts := us ++ resizedWorld.tensors fun _ => []
    Usage (fun _ => []) (.empty ()) [] resizedWorld us ∧ ⟨.u8, some [2], ⟨5⟩⟩ ∈ resizedWorld.held ∧
    (∀ t ∈ ts, ∀ shape, t.shape = some shape → (t.bytes resizedWorld.store).size = shape.size * t.dtype.size) ∧
    (∀ t ∈ ts, t.shape = none → (t.bytes resizedWorld.store).size = 0) ∧
    ∀ t ∈ ts, ∀ u ∈ ts, t.SharesBuffer u → t.dtype = u.dtype ∧ t.shape = u.shape := by
  obtain ⟨hshaped, hopen, halike, -⟩ := usage_resizedWorld.lengths_agree rfl
  exact ⟨usage_resizedWorld, by decide +kernel, hshaped, hopen, halike⟩

end Usage

end TensorGraph
