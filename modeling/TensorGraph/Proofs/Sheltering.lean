import TensorGraph.Proofs.Handing

/-! # What a call leaves to its callers

An evaluator that writes only into the outputs that it is handed, and into buffers that it makes itself
(`Evaluator.WritesOutputs`), can disturb nothing that somebody holds: each output lies in a buffer of its own,
in which neither the call, nor the callers around it, nor a variable, nor the memory of any executor holds a
tensor (`Executor.Allotment`, `Executor.Ready`).

`World.Guards` is what such an evaluator leaves of the world, and what a call of such evaluators leaves of it:
some tensors, and what some holders hold, keep their bytes outside of some buffers.  It is followed along the
steps of a call (`Executor.Sheltered.step`) and from there over the whole call (`Executor.guards_executeNodes`). -/

namespace TensorGraph

variable {σ : Type}

/-- What holds tensors in the world: a variable its value, and the memory of an executor its intermediates. -/
inductive Holder where
  | value (r : Ref Variables) (id : VariableId)
  | memory (r : Ref Memory)

/-- A tensor is held in a world. -/
def Holder.Holds (w : World σ) (t : Tensor) : Holder → Prop
  | value r id => (w.variables.get r).get? id = some t
  | memory r => some t ∈ (w.memories.get r).intermediates

theorem Holder.Holds.mem_held {w : World σ} {t : Tensor} {x : Holder} (h : x.Holds w t) : t ∈ w.held := by
  cases x with
  | value r id => exact Executor.mem_held_of_variable h
  | memory r =>
      change some t ∈ (w.memories.get r).intermediates at h
      unfold Table.get at h
      cases hget : w.memories.entries[r.index]? with
      | none =>
          rw [hget] at h
          cases h
      | some m =>
          rw [hget] at h
          refine List.mem_append_right _ (List.mem_flatMap.mpr ⟨m, ?_, List.mem_filterMap.mpr ⟨some t, h, rfl⟩⟩)
          exact Array.mem_toList_iff.mpr (Array.mem_of_getElem? hget)

theorem Holder.Holds.congr {w w' : World σ} {t : Tensor} {x : Holder} (h : x.Holds w t)
    (hvariables : w'.variables = w.variables)
    (hmemories : ∀ r, (w'.memories.get r).intermediates = (w.memories.get r).intermediates) : x.Holds w' t := by
  cases x with
  | value r id =>
      change (w'.variables.get r).get? id = some t
      rw [hvariables]
      exact h
  | memory r =>
      change some t ∈ (w'.memories.get r).intermediates
      rw [hmemories r]
      exact h

namespace World

variable {w w' w'' : World σ} {P P' : Holder → Prop} {W W' : BufferId → Prop} {ts ts' : List Tensor}

/-- What is held is allocated in a sound world. -/
theorem Sound.allocated (hw : w.Sound) {x : Holder} {t : Tensor} (h : x.Holds w t) :
    w.store.Allocated t.buffer := by
  cases x with
  | value r id => exact hw.values r id t h
  | memory r => exact hw.memories r t h

/-- The second world goes on from the first, and guards some tensors and some holders: a holder still holds
what it held, and a tensor keeps its bytes if it is one of the tensors or held by one of the holders, and lies
in none of the buffers in `W`. -/
structure Guards (P : Holder → Prop) (W : BufferId → Prop) (ts : List Tensor) (w w' : World σ) : Prop where
  sound : w'.Sound
  grows : ∀ b, w.store.Allocated b → w'.store.Allocated b
  holds : ∀ x t, P x → x.Holds w t → x.Holds w' t
  bytes : ∀ t, w.store.Allocated t.buffer → ¬ W t.buffer → (t ∈ ts ∨ ∃ x, P x ∧ x.Holds w t) →
    w'.store.bytes t.buffer = w.store.bytes t.buffer

theorem Guards.refl (hw : w.Sound) (P : Holder → Prop) (W : BufferId → Prop) (ts : List Tensor) :
    w.Guards P W ts w :=
  ⟨hw, fun _ h => h, fun _ _ _ h => h, fun _ _ _ _ => rfl⟩

/-- Writing within the buffers. -/
theorem Guards.of_within (hw' : w'.Sound) (hs : w.store.Within W w'.store)
    (hholds : ∀ x t, P x → x.Holds w t → x.Holds w' t) (ts : List Tensor) : w.Guards P W ts w' :=
  ⟨hw', hs.grows, hholds, fun t ht hW _ => hs.keeps t.buffer ht hW⟩

/-- First one and then the other, if the second writes into no buffer of what the first guards. -/
theorem Guards.trans (h : w.Guards P W ts w') (h' : w'.Guards P W' ts' w'') (hts : ts ⊆ ts')
    (hW : ∀ t, w.store.Allocated t.buffer → ¬ W t.buffer → (t ∈ ts ∨ ∃ x, P x ∧ x.Holds w' t) →
      ¬ W' t.buffer) : w.Guards P W ts w'' where
  sound := h'.sound
  grows b hb := h'.grows b (h.grows b hb)
  holds x t hx ht := h'.holds x t hx (h.holds x t hx ht)
  bytes := by
    intro t ht hout hguarded
    have hguarded' : t ∈ ts ∨ ∃ x, P x ∧ x.Holds w' t :=
      hguarded.imp_right fun ⟨x, hx, hheld⟩ => ⟨x, hx, h.holds x t hx hheld⟩
    rw [h'.bytes t (h.grows _ ht) (hW t ht hout hguarded') (hguarded'.imp_left (hts ·)), h.bytes t ht hout hguarded]

/-- First one and then another that writes into no buffer that there was. -/
theorem Guards.append (h : w.Guards P W ts w') (h' : w'.Guards P (fun _ => False) ts w'') : w.Guards P W ts w'' :=
  h.trans h' (List.Subset.refl _) fun _ _ _ _ => not_false

theorem Guards.mono (h : w.Guards P W ts w') (hP : ∀ x, P' x → P x) (hts : ts' ⊆ ts) : w.Guards P' W ts' w' where
  sound := h.sound
  grows := h.grows
  holds x t hx := h.holds x t (hP x hx)
  bytes t ht hW hguarded :=
    h.bytes t ht hW (hguarded.imp (hts ·) fun ⟨x, hx, hheld⟩ => ⟨x, hP x hx, hheld⟩)

end World

/-! ### Evaluators -/

/-- However it ends, the evaluator writes only into its outputs and into buffers that it makes itself, and what
some holders hold they still hold.  It may give back any tensors there are, and do anything else. -/
def Evaluator.WritesOutputs (P : Holder → Prop) (operation : Operation) (ev : Evaluator σ) : Prop :=
  ∀ (outputs inputs : List Tensor) (c : Context) (w : World σ), w.Sound → w.store.Holds (outputs ++ inputs) →
    let ends := (ev.evaluate operation outputs inputs c).outcome w
    w.store.Within (fun b => ∃ t ∈ outputs, t.buffer = b) ends.2.store ∧ ends.2.Sound ∧
      (∀ made, ends.1 = .ok made → ends.2.store.Holds made) ∧
      ∀ x t, P x → x.Holds w t → x.Holds ends.2 t

/-- What an evaluator leaves of the world: outside of its outputs, its inputs and what the callers hold keep
their bytes, and so does what the holders hold. -/
def Evaluator.Guards (P : Holder → Prop) (operation : Operation) (ev : Evaluator σ) : Prop :=
  ∀ (outputs inputs : List Tensor) (c : Context) (w : World σ), w.Sound → w.store.Holds (outputs ++ inputs) →
    let ends := (ev.evaluate operation outputs inputs c).outcome w
    w.Guards P (fun b => ∃ t ∈ outputs, t.buffer = b) (inputs ++ c.held) ends.2 ∧
      ∀ made, ends.1 = .ok made → ends.2.store.Holds made

theorem Evaluator.WritesOutputs.guards {P : Holder → Prop} {operation : Operation} {ev : Evaluator σ}
    (h : ev.WritesOutputs P operation) : ev.Guards P operation := by
  intro outputs inputs c w hw hheld
  obtain ⟨hwithin, hsound, hmade, hholds⟩ := h outputs inputs c w hw hheld
  exact ⟨.of_within hsound hwithin hholds _, hmade⟩

theorem Evaluator.world_apply (ev : Evaluator σ) (operation : Operation) (outputs inputs : List Tensor) (c : Context)
    (w : World σ) : ((ev.apply operation outputs inputs c).outcome w).2
      = ((ev.evaluate operation outputs inputs c).outcome w).2 := by
  unfold Evaluator.apply
  rw [Run.outcome_bind]
  rcases (ev.evaluate operation outputs inputs c).outcome w with ⟨error | made, w'⟩ <;> rfl

/-- An evaluator as it is called guards the same, since what it gives back is filled up with its outputs. -/
theorem Evaluator.Guards.apply {P : Holder → Prop} {operation : Operation} {ev : Evaluator σ}
    (h : ev.Guards P operation) {outputs inputs : List Tensor} {c : Context} {w : World σ} (hw : w.Sound)
    (hheld : w.store.Holds (outputs ++ inputs)) :
    let ends := (ev.apply operation outputs inputs c).outcome w
    w.Guards P (fun b => ∃ t ∈ outputs, t.buffer = b) (inputs ++ c.held) ends.2 ∧
      ∀ made, ends.1 = .ok made → ends.2.store.Holds made := by
  obtain ⟨hguards, hmade⟩ := h outputs inputs c w hw hheld
  simp only [ev.world_apply]
  refine ⟨hguards, fun filled hfilled t ht => ?_⟩
  unfold Evaluator.apply at hfilled
  rw [Run.outcome_bind] at hfilled
  rcases houtcome : (ev.evaluate operation outputs inputs c).outcome w with ⟨error | made, w'⟩
  · rw [houtcome] at hfilled
    cases hfilled
  · rw [houtcome] at hguards hmade hfilled
    obtain rfl := Except.ok.inj hfilled
    rcases List.mem_append.mp ht with ht | ht
    · exact hmade made rfl t (List.mem_of_mem_take ht)
    · exact hguards.grows _ (hheld t (List.mem_append_left _ (List.mem_of_mem_drop ht)))

namespace Executor

/-- The evaluators that an executor may hand its nodes to guard what some holders hold. -/
def GuardsNodes (P : Holder → Prop) (e : Executor σ) : Prop :=
  ∀ node ∈ e.graph.nodes, node.isOperator = true →
    ∀ ev, e.evaluatorOf node = .ok ev → ev.Guards P node.toOperation

variable {P : Holder → Prop} {e : Executor σ} {c : Context} {collect : Bool} {node : Node (Evaluator σ)}
  {before nodes rest : List (Node (Evaluator σ))} {f f' : Frame} {w w' start : World σ}
  {slots inputs ts : List Tensor} {handed : Handed σ}

/-! ### Dispatches -/

/-- A node is ready for its evaluator: the frame and the world in which it starts, and the world before its
outputs were made.  Each output lies in a buffer of its own, where nothing that is held lies. -/
structure Ready (inputs : List Tensor) (c : Context) (origin : World σ) (handed : Handed σ) (f : Frame)
    (w : World σ) : Prop where
  within : origin.store.Within (fun _ => False) w.store
  holds : ∀ (x : Holder) t, x.Holds w t ↔ x.Holds origin t
  began : origin.Sound
  sound : w.Sound
  frame : f.Sound origin.store
  given : inputs ⊆ f.held
  read : handed.inputs ⊆ f.held
  context : handed.context.held = f.held ++ c.held
  outputs : w.store.Holds handed.outputs
  apart : ∀ u, origin.store.Allocated u.buffer → (u ∈ f.held ++ c.held ∨ ∃ x : Holder, x.Holds origin u) →
    ∀ t ∈ handed.outputs, t.buffer ≠ u.buffer
  distinct : handed.outputs.Pairwise fun t u => t.buffer ≠ u.buffer

/-- The inputs of a call stay bound. -/
theorem given_of_walk (hcheck : checkOperands e.graph slots inputs = .ok ())
    (hnodes : e.graph.nodes = before ++ rest)
    (hwalk : e.walk slots inputs c collect start before = ((.ok .completed, f), w)) :
    inputs ⊆ f.bindings.tensors := by
  intro t ht
  have hbinds := binds_walk hcheck hnodes hwalk
  obtain ⟨i, hi, rfl⟩ := List.mem_iff_getElem.mp ht
  have hi' : i < e.graph.parameterHandles.length := by
    rw [e.graph.length_parameterHandles, ← (lengths_of_checkOperands hcheck).1]
    exact hi
  exact Bindings.mem_tensors_of_get?
    (hbinds.given i _ _ (List.getElem?_eq_getElem hi') (List.getElem?_eq_getElem hi))

/-- What is prepared in a sound call is ready. -/
theorem ready_of_prepare (hcheck : checkOperands e.graph slots inputs = .ok ())
    (hnodes : e.graph.nodes = before ++ node :: rest)
    (hwalk : e.walk slots inputs c collect start before = ((.ok .completed, f), w)) (hw : w.Sound)
    (hf : f.Sound w.store)
    (hprepared : (e.prepare (e.contextFor c) node).eval f (e.polled w) = ((.ok handed, f'), w')) :
    Ready inputs c w handed f' w' := by
  have hmem : node ∈ e.graph.nodes := hnodes ▸ List.mem_append_right _ List.mem_cons_self
  obtain ⟨hevaluator, hinputs, hcontext, -, -, -⟩ := prepared_of_prepare hprepared
  obtain ⟨kept, s, rfl, rfl, hallotment⟩ :=
    allotment_of_prepare (fun h hh => e.graph.output_lt hmem hh) hprepared
  have hbound : f.bindings.tensors ⊆ Frame.held { f with kept := kept, dispatched := node.id :: f.dispatched } :=
    fun t ht => List.mem_append_left _ (List.mem_append_left _ ht)
  have hstore : w.store.Within (fun _ => False) s := hallotment.within
  have hsound : World.Sound { e.polled w with store := s } :=
    (World.Reaches.of_store (w := e.polled w) hallotment.within).sound (hw.congr rfl rfl fun _ _ h => h)
  refine ⟨hstore, fun x t => by cases x <;> rfl, hw, hsound, ?_, ?_, ?_, ?_, hallotment.holds hf, ?_,
    hallotment.distinct hf⟩
  · intro t ht
    exact hf t (held_erased hallotment.remaining ht)
  · exact List.Subset.trans (given_of_walk hcheck hnodes hwalk) hbound
  · exact List.Subset.trans (Bindings.subset_tensors_of_mapM hinputs) hbound
  · rw [hcontext]
    rfl
  · intro u hallocated hheld
    refine hallotment.apart u ?_ hallocated
    simp only [List.mem_append] at hheld ⊢
    rcases hheld with (hframe | hcaller) | ⟨x, hx⟩
    · exact .inl (.inl (.inr hframe))
    · exact .inl (.inr hcaller)
    · exact .inr hx.mem_held

theorem Ready.holds_operands (h : Ready inputs c w handed f' w') :
    w'.store.Holds (handed.outputs ++ handed.inputs) :=
  List.forall_mem_append.mpr ⟨h.outputs, fun t ht => h.within.grows _ (h.frame t (h.read ht))⟩

/-- An evaluator that guards what its callers hold leaves everything that the call and its callers hold. -/
theorem Ready.guards_apply (h : Ready inputs c w handed f' w') {operation : Operation}
    (hev : handed.evaluator.Guards P operation) :
    let ends := (handed.apply operation).outcome w'
    w.Guards P (fun _ => False) (f'.held ++ c.held) ends.2 ∧ f'.Sound ends.2.store ∧
      ∀ made, ends.1 = .ok made → ends.2.store.Holds made := by
  obtain ⟨hguards, hmade⟩ := hev.apply (c := handed.context) h.sound h.holds_operands
  have hprepared : w.Guards P (fun _ => False) (f'.held ++ c.held) w' :=
    .of_within h.sound h.within (fun x t _ hx => (h.holds x t).mpr hx) _
  refine ⟨hprepared.trans hguards ?_ ?_, fun t ht => hguards.grows _ (h.within.grows _ (h.frame t ht)), hmade⟩
  · rw [h.context]
    exact List.subset_append_right _ _
  · rintro t hallocated - hheld ⟨u, hu, hbuffer⟩
    refine h.apart t hallocated (hheld.imp_right fun ⟨x, _, hx⟩ => ⟨x, (h.holds x t).mp hx⟩) u hu hbuffer

/-- What was allocated before the outputs were made has the bytes that it had then. -/
theorem Ready.bytes_eq (h : Ready inputs c w handed f' w') {t : Tensor} (ht : w.store.Allocated t.buffer) :
    t.bytes w'.store = t.bytes w.store :=
  h.within.keeps _ ht not_false

theorem Ready.allocated (h : Ready inputs c w handed f' w') {x : Holder} {t : Tensor} (hx : x.Holds w' t) :
    w.store.Allocated t.buffer :=
  h.began.allocated ((h.holds x t).mp hx)

/-- Writing into outputs only leaves what variables and executors hold. -/
theorem Ready.bytes_of_holds (h : Ready inputs c w handed f' w') {s : Store}
    (hwithin : w'.store.Within (fun b => ∃ t ∈ handed.outputs, t.buffer = b) s) {x : Holder} {t : Tensor}
    (hx : x.Holds w' t) : t.bytes s = t.bytes w'.store := by
  have hallocated := h.allocated hx
  refine hwithin.keeps t.buffer (h.within.grows _ hallocated) ?_
  rintro ⟨u, hu, hbuffer⟩
  exact h.apart t hallocated (.inr ⟨x, (h.holds x t).mp hx⟩) u hu hbuffer

/-- Writing into some outputs leaves the others. -/
theorem Ready.bytes_of_output (h : Ready inputs c w handed f' w') {s : Store} {written : Nat → Prop}
    (hwithin : w'.store.Within
      (fun b => ∃ (k : Nat) (t : Tensor), written k ∧ handed.outputs[k]? = some t ∧ t.buffer = b) s)
    {k : Nat} {t : Tensor} (hget : handed.outputs[k]? = some t) (hnot : ¬ written k) :
    t.bytes s = t.bytes w'.store := by
  refine hwithin.keeps t.buffer (h.outputs t (List.mem_of_getElem? hget)) ?_
  rintro ⟨j, u, hwritten, hu, hbuffer⟩
  obtain ⟨hk, rfl⟩ := List.getElem?_eq_some_iff.mp hget
  obtain ⟨hj, rfl⟩ := List.getElem?_eq_some_iff.mp hu
  have hdistinct := List.pairwise_iff_getElem.mp h.distinct
  rcases Nat.lt_trichotomy j k with hlt | rfl | hlt
  · exact hdistinct j k hj hk hlt hbuffer
  · exact hnot hwritten
  · exact hdistinct k j hk hj hlt hbuffer.symm

/-! ### Steps -/

theorem guards_polled (hw : w.Sound) (e : Executor σ) (P : Holder → Prop) (ts : List Tensor) :
    w.Guards P (fun _ => False) ts (e.polled w) :=
  have hsound : (e.polled w).Sound := hw.congr rfl rfl fun _ _ h => h
  have hwithin : w.store.Within (fun _ => False) (e.polled w).store := .refl _ _
  .of_within hsound hwithin (fun _ _ _ h => h.congr rfl fun _ => rfl) ts

/-- Binding what an evaluator has given back changes nothing in the world but statistics. -/
theorem guards_bindProduced (hw : w.Sound) (hf : f.Sound w.store) {produced : List Tensor}
    (hproduced : w.store.Holds produced) (collect : Bool) (node : Node (Evaluator σ)) (began : Nat)
    (P : Holder → Prop) (ts : List Tensor) :
    let ends := (e.bindProduced collect node began produced).eval f w
    w.Guards P (fun _ => False) ts ends.2 ∧ ends.1.2.Sound ends.2.store := by
  have hbind : Call.Keeps produced ((node.outputs.zip produced).zipIdx.forM (e.bindOutput node)) fun _ => [] :=
    Call.keeps_forM fun entry hentry =>
      keeps_bindOutput node (List.of_mem_zip (List.fst_mem_of_mem_zipIdx hentry)).2
  cases collect with
  | false =>
      obtain ⟨hframe, hsound, -, -⟩ := hbind f w hf hw hproduced
      obtain ⟨r, bindings, heval, -⟩ :=
        exists_bindings_outputs (e := e) node (node.outputs.zip produced).zipIdx f w
      rw [heval] at hframe
      have hends : (e.bindProduced false node began produced).eval f w = _ := heval
      rw [hends]
      exact ⟨.refl hw P _ ts, hframe⟩
  | true =>
      let record : Run σ Unit := Run.modifyMemory e.memory fun m =>
        { m with statistics := m.statistics.record node.toOperation (w.clock - began) }
      have hkeeps : Run.Keeps produced record fun _ => [] := keeps_modifyMemory e.memory fun _ => rfl
      have hrecorded : (record.outcome w).2.Sound := (hkeeps w hw hproduced).1
      have hsame : ∀ r, ((record.outcome w).2.memories.get r).intermediates
          = (w.memories.get r).intermediates := by
        intro r
        rw [show (record.outcome w).2.memories.get r = _ from get_putMemory w e.memory r _]
        split
        · rename_i hr
          rw [hr.1]
        · rfl
      obtain ⟨hframe, hsound, -, -⟩ := hbind f (record.outcome w).2 hf hrecorded hproduced
      obtain ⟨r, bindings, heval, -⟩ :=
        exists_bindings_outputs (e := e) node (node.outputs.zip produced).zipIdx f (record.outcome w).2
      rw [heval] at hframe
      have hends : (e.bindProduced true node began produced).eval f w = _ := heval
      rw [hends]
      have hwithin : w.store.Within (fun _ => False) (record.outcome w).2.store := .refl _ _
      exact ⟨.of_within hrecorded hwithin (fun _ _ _ h => h.congr rfl hsame) ts, hframe⟩

/-- What is left of the world when a call has passed some nodes, and what it still holds.  The slots that are not
yet filled are those of the caller. -/
structure Sheltered (P : Holder → Prop) (slots ts : List Tensor) (start : World σ)
    (before : List (Node (Evaluator σ))) (f : Frame) (w : World σ) : Prop where
  guards : start.Guards P (fun b => ∃ t ∈ slots, t.buffer = b) ts w
  frame : f.Sound w.store
  unfilled : ∀ (j : Nat) t, f.slots[j]? = some t → (before.filter (·.isResult)).length ≤ j → t ∈ slots

/-- The call goes on, and writes into no buffer that there was. -/
theorem Sheltered.goes (h : Sheltered P slots ts start before f w)
    (hguards : w.Guards P (fun _ => False) ts w') (hf : f'.Sound w'.store) (hslots : f'.slots = f.slots)
    (node : Node (Evaluator σ)) : Sheltered P slots ts start (before ++ [node]) f' w' := by
  refine ⟨h.guards.append hguards, hf, fun j t hget hj => ?_⟩
  rw [hslots] at hget
  refine h.unfilled j t hget (Nat.le_trans ?_ hj)
  rw [List.filter_append, List.length_append]
  exact Nat.le_add_right _ _

/-- A result writes into the slot of the caller that is next. -/
theorem Sheltered.deliver (h : Sheltered P slots ts start before f w) {source output : Handle}
    {t slot slot' : Tensor} (hdelivered : e.Delivered before node f w source output t slot slot' f' w')
    (hresult : node.isResult = true) (hsound : w'.Sound) (hf : f'.Sound w'.store)
    (hmemories : w'.memories = w.memories) : Sheltered P slots ts start (before ++ [node]) f' w' := by
  have hslot : slot ∈ slots := h.unfilled _ slot hdelivered.place (Nat.le_refl _)
  have hwritten : w.Guards P (· = slot.buffer) ts w' :=
    .of_within hsound hdelivered.within
      (fun _ _ _ hx => hx.congr hdelivered.variables fun r => by rw [hmemories]) ts
  refine ⟨h.guards.trans hwritten (List.Subset.refl _) ?_, hf, fun j u hget hj => ?_⟩
  · rintro u - hapart - heq
    exact hapart ⟨slot, hslot, heq.symm⟩
  · rw [List.filter_append, List.filter_cons_of_pos hresult, List.filter_nil, List.length_append,
      List.length_singleton] at hj
    rw [hdelivered.frame] at hget
    simp only [Frame.delivered] at hget
    rw [List.getElem?_set_ne (by omega)] at hget
    exact h.unfilled j u hget (by omega)

/-- A result keeps frames and worlds sound. -/
theorem keeps_stepNode (hresult : node.isResult = true) (c : Context) (collect : Bool) :
    Call.Keeps [] (e.stepNode c collect node) fun _ => [] := by
  have hparameter : node.isParameter = false :=
    Bool.eq_false_iff.mpr fun hparameter => Node.not_isResult hparameter hresult
  unfold stepNode
  simp only [hparameter, hresult, Bool.false_eq_true, if_false, if_true]
  refine (keeps_takeCancel e).seq fun cancelled => ?_
  split
  · exact Call.keeps_pure (List.nil_subset _)
  · exact (keeps_deliverNode node).seq fun _ => Call.keeps_pure (List.nil_subset _)

/-- An operator of the call that is prepared and applied leaves what the call and its callers hold. -/
theorem guards_applied (hguards : e.GuardsNodes P) (hcheck : checkOperands e.graph slots inputs = .ok ())
    (hnodes : e.graph.nodes = before ++ node :: rest)
    (hwalk : e.walk slots inputs c collect start before = ((.ok .completed, f), w)) (hw : w.Sound)
    (hf : f.Sound w.store) (hoperator : node.isOperator = true)
    (hprepared : (e.prepare (e.contextFor c) node).eval f (e.polled w) = ((.ok handed, f'), w')) :
    let ends := (handed.apply node.toOperation).outcome w'
    w.Guards P (fun _ => False) (inputs ++ c.held) ends.2 ∧ f'.Sound ends.2.store ∧ f'.slots = f.slots ∧
      ∀ made, ends.1 = .ok made → ends.2.store.Holds made := by
  have hmem : node ∈ e.graph.nodes := hnodes ▸ List.mem_append_right _ List.mem_cons_self
  have hready := ready_of_prepare hcheck hnodes hwalk hw hf hprepared
  have hev := hguards node hmem hoperator _ (prepared_of_prepare hprepared).evaluator
  obtain ⟨hall, hframe, hmade⟩ := hready.guards_apply hev
  obtain ⟨kept, s, hsame, -⟩ := frame_of_prepare hprepared
  have hheld : inputs ++ c.held ⊆ f'.held ++ c.held :=
    List.append_subset.mpr ⟨fun t ht => List.mem_append_left _ (hready.given ht), List.subset_append_right _ _⟩
  exact ⟨hall.mono (fun _ h => h) hheld, hframe, by rw [hsame], hmade⟩

/-- However a step ends, what the call shelters stays sheltered. -/
theorem Sheltered.step (hguards : e.GuardsNodes P) (hcheck : checkOperands e.graph slots inputs = .ok ())
    (hnodes : e.graph.nodes = before ++ node :: rest)
    (hwalk : e.walk slots inputs c collect start before = ((.ok .completed, f), w))
    (h : Sheltered P slots (inputs ++ c.held) start before f w) {r : Except Error Bool}
    (hstep : (e.stepNode (e.contextFor c) collect node).eval f w = ((r, f'), w')) :
    Sheltered P slots (inputs ++ c.held) start (before ++ [node]) f' w' := by
  have hmem : node ∈ e.graph.nodes := hnodes ▸ List.mem_append_right _ List.mem_cons_self
  have hw := h.guards.sound
  have hpolled := guards_polled hw e P (inputs ++ c.held)
  have hvisit := visit_stepNode hstep
  generalize e.stepEvent (e.contextFor c) node f w = event at hvisit
  cases hvisit with
  | cancelled hcancel => exact h.goes hpolled h.frame rfl node
  | parameter hcancel hparameter => exact h.goes hpolled h.frame rfl node
  | unread hcancel hresult hgathered => exact h.goes hpolled h.frame rfl node
  | delivered hcancel hresult hevent =>
      obtain ⟨source, output, t, slot, slot', hdelivered⟩ :=
        exists_delivered_stepNode hnodes (fits_of_walk hcheck hwalk) hresult hstep
      obtain ⟨hframe, hsound, -, -⟩ := keeps_stepNode hresult (e.contextFor c) collect f w h.frame hw nofun
      rw [hstep] at hframe hsound
      exact h.deliver hdelivered hresult hsound hframe rfl
  | unprepared hcancel hoperator hprepared =>
      obtain ⟨kept, s, hframe, hworld, hwithin, hheld⟩ :=
        frame_of_unprepared (fun k hk => e.graph.output_lt hmem hk) hprepared
      have hsound := (World.Reaches.of_store hwithin).sound hpolled.sound
      have hmade : (e.polled w).Guards P (fun _ => False) (inputs ++ c.held) { e.polled w with store := s } :=
        .of_within hsound hwithin (fun _ _ _ hx => hx.congr rfl fun _ => rfl) _
      rw [hframe, hworld]
      exact h.goes (hpolled.append hmade) (fun t ht => hwithin.grows _ (h.frame t (hheld ht))) rfl node
  | failed hcancel hoperator hprepared houtcome =>
      obtain ⟨hall, hframe, hslots, -⟩ :=
        guards_applied hguards hcheck hnodes hwalk hw h.frame hoperator hprepared
      rw [houtcome] at hall hframe
      exact h.goes hall hframe hslots node
  | refused hcancel hoperator hprepared houtcome hbound hrefused =>
      obtain ⟨hall, hframe, hslots, hmade⟩ :=
        guards_applied hguards hcheck hnodes hwalk hw h.frame hoperator hprepared
      rw [houtcome] at hall hframe hmade
      obtain ⟨hrest, hframe'⟩ := guards_bindProduced (e := e) hall.sound hframe (hmade _ rfl) collect node _ P
        (inputs ++ c.held)
      rw [hbound] at hrest hframe'
      exact h.goes (hall.append hrest) hframe' hslots node
  | evaluated hcancel hoperator hprepared houtcome hbound =>
      obtain ⟨hall, hframe, hslots, hmade⟩ :=
        guards_applied hguards hcheck hnodes hwalk hw h.frame hoperator hprepared
      rw [houtcome] at hall hframe hmade
      obtain ⟨hrest, hframe'⟩ := guards_bindProduced (e := e) hall.sound hframe (hmade _ rfl) collect node _ P
        (inputs ++ c.held)
      rw [hbound] at hrest hframe'
      exact h.goes ((hall.append hrest).append (guards_polled hrest.sound e P _)) hframe' hslots node

/-! ### Calls -/

/-- A variable that has a value keeps it when others are given one. -/
theorem holds_valueOrInit (r : Ref Variables) (id : VariableId) (init : Store → Tensor × Store) {x : Holder}
    {t : Tensor} (h : x.Holds w t) : x.Holds (w.valueOrInit r id init).2 t := by
  unfold World.valueOrInit
  cases hnone : (w.variables.get r).get? id with
  | some u => exact h
  | none =>
      cases x with
      | memory r' => exact h
      | value r' id' =>
          change (w.variables.get r').get? id' = some t at h
          show ((World.setVariable _ r id _).variables.get r').get? id' = some t
          rw [World.get_setVariable]
          split
          · rename_i hr
            have hid : id' ≠ id := by
              intro heq
              rw [hr.1, heq, hnone] at h
              cases h
            rw [Variables.get?_set_ne _ hid, ← hr.1]
            exact h
          · exact h

theorem holds_initVariables (g : Graph (Evaluator σ)) (r : Ref Variables) (inputs : List Tensor) {x : Holder}
    {t : Tensor} (h : x.Holds w t) : x.Holds ((initVariables g r inputs).outcome w).2 t := by
  obtain ⟨w', houtcome, hholds⟩ := initVariables_induction (P := fun w => x.Holds w t)
    g inputs (fun _ id dtype shape _ h => holds_valueOrInit r id (Tensor.zeros dtype shape) h) h
  rw [houtcome]
  exact hholds

/-- A call starts with what it shelters. -/
theorem sheltered_opened (hmemory : ¬ P (.memory e.memory)) (hw : start.Sound) (hslots : start.store.Holds slots)
    (hinputs : start.store.Holds inputs) (c : Context) (ts : List Tensor) :
    Sheltered P slots ts start [] (e.openedFrame slots inputs (e.startedWorld inputs c start))
      (e.openedWorld (e.startedWorld inputs c start)) := by
  have hpolled := guards_polled hw e (fun _ => True) ts
  have hreaches := reaches_startedWorld (e := e) inputs c start
  have hstarted : (e.startedWorld inputs c start).Sound := hreaches.sound hpolled.sound
  have hwithin : start.store.Within (fun b => ∃ t ∈ slots, t.buffer = b)
      (e.openedWorld (e.startedWorld inputs c start)).store := by
    rw [store_openedWorld]
    exact ⟨hreaches.store.grows, fun b hb _ => hreaches.store.keeps b hb not_false⟩
  refine ⟨.of_within (sound_openedWorld hstarted) hwithin (fun x t hx hheld => ?_) ts, ?_, ?_⟩
  · have hheld' : x.Holds (e.startedWorld inputs c start) t :=
      holds_initVariables e.graph _ inputs (hpolled.holds x t trivial hheld)
    cases x with
    | value r id =>
        change ((e.openedWorld (e.startedWorld inputs c start)).variables.get r).get? id = some t
        rw [variables_openedWorld]
        exact hheld'
    | memory r =>
        change some t ∈ ((e.openedWorld (e.startedWorld inputs c start)).memories.get r).intermediates
        have hne : r ≠ e.memory := fun heq => hmemory (heq ▸ hx)
        unfold openedWorld
        split
        · rw [get_putMemory, if_neg fun h => hne h.1]
          exact hheld'
        · exact hheld'
  · rw [store_openedWorld]
    exact sound_openedFrame hstarted (fun t ht => hreaches.store.grows _ (hslots t ht))
      fun t ht => hreaches.store.grows _ (hinputs t ht)
  · intro j t hget _
    exact List.mem_of_getElem? hget

/-- Where the walk of a call has completed some nodes, what the call shelters is sheltered. -/
theorem sheltered_walk (hguards : e.GuardsNodes P) (hmemory : ¬ P (.memory e.memory))
    (hcheck : checkOperands e.graph slots inputs = .ok ()) (hw : start.Sound) (hslots : start.store.Holds slots)
    (hinputs : start.store.Holds inputs) (hnodes : e.graph.nodes = before ++ rest)
    (hwalk : e.walk slots inputs c collect start before = ((.ok .completed, f), w)) :
    Sheltered P slots (inputs ++ c.held) start before f w :=
  walk_induction (P := fun walked f w => Sheltered P slots (inputs ++ c.held) start walked f w)
    (sheltered_opened hmemory hw hslots hinputs c _)
    (fun hsplit hwalked hsheltered hstep => hsheltered.step hguards hcheck hsplit hwalked hstep) hnodes hwalk

/-- However a walk ends, what the call shelters is sheltered. -/
theorem exists_sheltered (hguards : e.GuardsNodes P) (hmemory : ¬ P (.memory e.memory))
    (hcheck : checkOperands e.graph slots inputs = .ok ()) (hw : start.Sound) (hslots : start.store.Holds slots)
    (hinputs : start.store.Holds inputs) (hnodes : e.graph.nodes = nodes ++ rest) {o : Except Error Status}
    (hwalk : e.walk slots inputs c collect start nodes = ((o, f), w)) :
    ∃ before, Sheltered P slots (inputs ++ c.held) start before f w := by
  by_cases hcompleted : o = .ok .completed
  · rw [hcompleted] at hwalk
    exact ⟨nodes, sheltered_walk hguards hmemory hcheck hw hslots hinputs hnodes hwalk⟩
  · obtain ⟨before, node, others, f₁, w₁, r, rfl, hbefore, hlast, -⟩ := exists_ending_step hwalk hcompleted
    have hsplit : e.graph.nodes = before ++ node :: (others ++ rest) := by
      rw [hnodes, List.append_assoc, List.cons_append]
    have hsheltered := sheltered_walk hguards hmemory hcheck hw hslots hinputs hsplit hbefore
    exact ⟨before ++ [node], hsheltered.step hguards hcheck hsplit hbefore hlast⟩

/-- Remembering what a call holds changes the memory of its executor only. -/
theorem guards_closeFrame (hmemory : ¬ P (.memory e.memory)) (hw : w.Sound) (hf : f.Sound w.store)
    (ts : List Tensor) : w.Guards P (fun _ => False) ts ((e.closeFrame f).outcome w).2 := by
  obtain ⟨hsound, -, -⟩ := keeps_closeFrame (e := e) f w hw hf
  obtain ⟨w', hclosed, hstore, hvariables⟩ := outcome_closeFrame (e := e) f w
  have hwithin : w.store.Within (fun _ => False) ((e.closeFrame f).outcome w).2.store := by
    rw [hclosed, hstore]
    exact .refl _ _
  refine .of_within hsound hwithin (fun x t hx hheld => ?_) ts
  cases x with
  | value r id =>
      change (((e.closeFrame f).outcome w).2.variables.get r).get? id = some t
      rw [hclosed, hvariables]
      exact hheld
  | memory r =>
      have hne : r ≠ e.memory := fun heq => hmemory (heq ▸ hx)
      unfold closeFrame
      split
      · change some t ∈ ((w.putMemory e.memory _).memories.get r).intermediates
        rw [get_putMemory, if_neg fun h => hne h.1]
        exact hheld
      · exact hheld

/-- However a call ends: outside of its slots, its inputs and what the callers hold keep their bytes, and so does
what the holders hold. -/
theorem guards_executeNodes (hguards : e.GuardsNodes P) (hmemory : ¬ P (.memory e.memory)) (hw : w.Sound)
    (hslots : w.store.Holds slots) (hinputs : w.store.Holds inputs) (hnodes : e.graph.nodes = nodes ++ rest)
    (c : Context) (collect : Bool) :
    let ends := (e.executeNodes nodes slots inputs c collect).outcome w
    w.Guards P (fun b => ∃ t ∈ slots, t.buffer = b) (inputs ++ c.held) ends.2 ∧
      ∀ p, ends.1 = .ok p → ends.2.store.Holds p.2 := by
  obtain ⟨r, houtcome, hreturned⟩ | ⟨hcheck, o, f, w', hwalk, houtcome⟩ :=
    executeNodes_cases (e := e) nodes slots inputs c collect w
  · rw [houtcome]
    have hpolled := guards_polled hw e P (inputs ++ c.held)
    refine ⟨(World.Guards.refl hw P _ _).append hpolled, ?_⟩
    intro p hp t ht
    exact hpolled.grows _ (hslots t (hreturned p hp ▸ ht))
  · obtain ⟨before, hsheltered⟩ := exists_sheltered hguards hmemory hcheck hw hslots hinputs hnodes hwalk
    have hclosed := guards_closeFrame hmemory hsheltered.guards.sound hsheltered.frame (inputs ++ c.held)
    rw [houtcome]
    refine ⟨hsheltered.guards.append hclosed, ?_⟩
    intro p hp t ht
    cases o with
    | error error => cases hp
    | ok status =>
        cases hp
        exact hclosed.grows _ (hsheltered.frame t (List.mem_append_right _ ht))

end Executor

end TensorGraph
