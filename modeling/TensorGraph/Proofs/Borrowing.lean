import TensorGraph.Proofs.Stepping

/-! # Inputs are only read

A call writes into the slots that it is given, into tensors that nobody else holds, and into tensors that
it makes itself.  The buffer of an input is none of these, unless a slot lies in it when the call starts
(`bytes_executeNodes`).  A slot can come to lie in the buffer of an input without the caller's doing, since
a slot of another shape or type becomes an alias of its result, and the result of a graph may be an input:
a later call with that slot then writes into the input (`forwarded_input_overwritten`).

What a call leaves alone is followed through its steps by `Executor.Spares`.  `Session` lists the calls of
a caller, of any executors, and the inputs that it still holds (`Session.bytes_given`). -/

namespace TensorGraph

variable {σ : Type}

namespace Executor

variable {e : Executor σ} {held : List Tensor} {b : BufferId} {content : Bytes}
  {before rest : List (Node (Evaluator σ))} {node : Node (Evaluator σ)} {f f' : Frame} {w w' : World σ}

/-- Whatever evaluates a node that is neither a parameter nor a result is a reference operator. -/
def UsesReference [HalfConversion] (e : Executor σ) : Prop :=
  ∀ node ∈ e.graph.nodes, ¬ node.isParameter = true → ¬ node.isResult = true →
    ∀ ev, e.evaluatorOf node = .ok ev → ∃ op : ReferenceOp, ev = op.evaluator

/-- After some nodes, a buffer has the content that it is to keep.  It stays so because a tensor in it is
held, by the caller or as the value of a parameter, and because no slot that is still to be filled lies in
it. -/
structure Spares (e : Executor σ) (held : List Tensor) (b : BufferId) (content : Bytes)
    (before : List (Node (Evaluator σ))) (f : Frame) (w : World σ) : Prop where
  allocated : w.store.Allocated b
  bytes : w.store.bytes b = content
  holder : (∃ t ∈ held, t.buffer = b) ∨
    ∃ h ∈ e.graph.parameterHandles, ∃ t, f.bindings.get? h = some t ∧ t.buffer = b
  places : f.slots.length = e.graph.results.length
  slot_ne : ∀ (j : Nat) t, f.slots[j]? = some t → (before.filter (·.isResult)).length ≤ j →
    t.buffer ≠ b

namespace Spares

/-- A tensor in the buffer is held. -/
theorem exists_held (h : e.Spares held b content before f w) :
    ∃ t ∈ f.bindings.tensors ++ held, t.buffer = b := by
  rcases h.holder with ⟨t, ht, hbuffer⟩ | ⟨_, _, t, hget, hbuffer⟩
  · exact ⟨t, List.mem_append_right _ ht, hbuffer⟩
  · exact ⟨t, List.mem_append_left _ (Bindings.mem_tensors_of_get? hget), hbuffer⟩

/-- Writing elsewhere. -/
theorem within (h : e.Spares held b content before f w) {W : BufferId → Prop}
    (hs : w.store.Within W w'.store) (hW : ¬ W b) : e.Spares held b content before f w' where
  allocated := hs.grows b h.allocated
  bytes := (hs.keeps b h.allocated hW).trans h.bytes
  holder := h.holder
  places := h.places
  slot_ne := h.slot_ne

/-- Only what is bound and the slots matter of the frame. -/
theorem congr (h : e.Spares held b content before f w) (hbindings : f'.bindings = f.bindings)
    (hslots : f'.slots = f.slots) : e.Spares held b content before f' w where
  allocated := h.allocated
  bytes := h.bytes
  holder := hbindings ▸ h.holder
  places := hslots ▸ h.places
  slot_ne := hslots ▸ h.slot_ne

/-- Binding a tensor that is no parameter. -/
theorem bind (h : e.Spares held b content before f w) {k : Handle}
    (hk : k ∉ e.graph.parameterHandles) (t : Tensor) :
    e.Spares held b content before { f with bindings := f.bindings.bind k t } w where
  allocated := h.allocated
  bytes := h.bytes
  holder := by
    rcases h.holder with hheld | ⟨i, hi, u, hget, hbuffer⟩
    · exact .inl hheld
    · have hne : k ≠ i := (ne_of_mem_of_not_mem hi hk).symm
      exact .inr ⟨i, hi, u, (Bindings.get?_bind_ne _ t hne).trans hget, hbuffer⟩
  places := h.places
  slot_ne := h.slot_ne

/-- A node that is no result fills no slot. -/
theorem pass (h : e.Spares held b content before f w) (hresult : ¬ node.isResult = true) :
    e.Spares held b content (before ++ [node]) f w := by
  refine ⟨h.allocated, h.bytes, h.holder, h.places, ?_⟩
  rw [List.filter_append, List.filter_cons_of_neg hresult, List.filter_nil, List.append_nil]
  exact h.slot_ne

/-- A result fills the next slot, with whatever tensor. -/
theorem fill (h : e.Spares held b content before f w) (hresult : node.isResult = true) (slot : Tensor) :
    e.Spares held b content (before ++ [node])
      { f with slots := f.slots.set (before.filter (·.isResult)).length slot } w := by
  refine ⟨h.allocated, h.bytes, h.holder, (List.length_set ..).trans h.places, fun j t ht hj => ?_⟩
  rw [List.filter_append, List.filter_cons_of_pos hresult, List.filter_nil, List.length_append,
    List.length_singleton] at hj
  rw [List.getElem?_set_ne (by omega)] at ht
  exact h.slot_ne j t ht (by omega)

end Spares

/-- What is left of it when a step fails. -/
abbrev Left (b : BufferId) (content : Bytes) : Error → Frame → World σ → Prop :=
  fun _ _ w => w.store.bytes b = content

theorem ensures_allocateAll (c : Context) (hs : List Handle) :
    Call.Ensures (e.Spares c.held b content before) (hs.foldlM (e.allocate c) [])
      (fun made f w => e.Spares c.held b content before f w ∧ ∀ t ∈ made, t.buffer ≠ b)
      (Left b content) := by
  intro f w h
  obtain ⟨made, kept, s, heval, hwithin, _, hne⟩ := exists_outputs (e := e) c hs [] f w
  obtain ⟨u, hu, rfl⟩ := h.exists_held
  rw [heval, List.nil_append]
  have hspares : e.Spares c.held u.buffer content before f { w with store := s } := h.within hwithin not_false
  exact ⟨hspares.congr rfl rfl, hne u (List.mem_append_left _ hu) h.allocated⟩

/-- An evaluator writes into its outputs only. -/
theorem ensures_apply [HalfConversion] (op : ReferenceOp) (operation : Operation) {outputs : List Tensor}
    (houtputs : ∀ t ∈ outputs, t.buffer ≠ b) (inputs : List Tensor) (c : Context) :
    Call.Ensures (e.Spares held b content before)
      (Call.ofRun (op.evaluator.apply operation outputs inputs c))
      (fun _ => e.Spares held b content before) (Left b content) := by
  intro f w h
  obtain ⟨hreaches, _⟩ := op.contained_evaluate operation outputs inputs c w
  have hW : ¬ ∃ t ∈ outputs, t.buffer = b := fun ⟨t, ht, hbuffer⟩ => houtputs t ht hbuffer
  rw [Call.eval_ofRun, Evaluator.apply, Run.outcome_bind]
  rcases houtcome : (op.evaluator.evaluate operation outputs inputs c).outcome w with ⟨error | ts, w'⟩
  · rw [houtcome] at hreaches
    exact (h.within hreaches.store hW).bytes
  · rw [houtcome] at hreaches
    exact h.within hreaches.store hW

theorem ensures_bindProduced (hnode : node ∈ e.graph.nodes) (hparameter : ¬ node.isParameter = true)
    (collect : Bool) (start : Nat) (produced : List Tensor) :
    Call.Ensures (e.Spares held b content before) (e.bindProduced collect node start produced)
      (fun _ => e.Spares held b content before) (Left b content) := by
  have hbind : Call.Ensures (e.Spares held b content before)
      ((node.outputs.zip produced).zipIdx.forM (e.bindOutput node))
      (fun _ => e.Spares held b content before) (Left b content) := by
    refine Call.ensures_forM fun entry hentry => ?_
    obtain ⟨⟨k, t⟩, position⟩ := entry
    have hk := e.graph.not_mem_parameterHandles hnode hparameter
      (List.of_mem_zip (List.fst_mem_of_mem_zipIdx hentry)).1
    intro f w h
    rcases eval_bindOutput_cases (e := e) node k t position f w with ⟨-, heval⟩ | ⟨-, _, -, -, heval⟩ | ⟨-, -, heval⟩
    · rw [heval]
      exact h.bytes
    · rw [heval]
      exact h.bytes
    · rw [heval]
      exact h.bind hk t
  unfold bindProduced
  split
  · refine Call.ensures_getWorld_bind fun w' =>
      Call.Ensures.bind (R := fun _ => e.Spares held b content before) (fun f w h => ?_) fun _ => hbind
    exact h.within (.refl (fun _ => False) w.store) not_false
  · exact hbind

/-- Evaluating a node leaves the buffer alone. -/
theorem ensures_evaluateNode [HalfConversion] (href : e.UsesReference) (c : Context) (collect : Bool)
    (hnodes : e.graph.nodes = before ++ node :: rest) (hparameter : ¬ node.isParameter = true)
    (hresult : ¬ node.isResult = true) :
    Call.Ensures (e.Spares c.held b content before) (e.evaluateNode c collect node)
      (fun _ => e.Spares c.held b content (before ++ [node])) (Left b content) := by
  have hnode : node ∈ e.graph.nodes := hnodes ▸ List.mem_append_right _ List.mem_cons_self
  have hbound : Call.Ensures (e.Spares c.held b content before) (node.inputs.mapM bound)
      (fun _ => e.Spares c.held b content before) (Left b content) := by
    intro f w h
    rw [eval_mapM_bound]
    rcases node.inputs.mapM f.bindings.get with error | inputs
    · exact h.bytes
    · exact h
  rw [evaluateNode_eq]
  refine hbound.bind fun inputs => ?_
  refine (ensures_allocateAll c node.outputs).bind fun outputs => ?_
  refine Call.ensures_lift_bind (fun ev hev => ?_) fun _ _ f w h => h.1.bytes
  obtain ⟨op, rfl⟩ := href node hnode hparameter hresult ev hev
  refine Call.Ensures.bind (Call.ensures_modify (R := fun _ f w =>
    e.Spares c.held b content before f w ∧ ∀ t ∈ outputs, t.buffer ≠ b)
    fun f w h => ⟨h.1.congr rfl rfl, h.2⟩) fun _ => ?_
  refine Call.ensures_get_bind fun f => Call.ensures_getWorld_bind fun w f' w' h => ?_
  have hbind : Call.Ensures (e.Spares c.held b content before) _ _ (Left b content) :=
    (ensures_apply op node.toOperation h.2.2 inputs (c.holding f.held)).bind fun produced =>
      ensures_bindProduced hnode hparameter collect w.clock produced
  exact hbind.imp (fun _ _ _ h => h.pass hresult) (fun _ _ _ h => h) f' w' h.2.1

/-- Delivering a result leaves the buffer alone, since no slot that is still to be filled lies in it. -/
theorem ensures_deliverNode (hnodes : e.graph.nodes = before ++ node :: rest)
    (hresult : node.isResult = true) :
    Call.Ensures (e.Spares held b content before) (e.deliverNode node)
      (fun _ => e.Spares held b content (before ++ [node])) (Left b content) := by
  have hnode : node ∈ e.graph.nodes := hnodes ▸ List.mem_append_right _ List.mem_cons_self
  have hparameter : ¬ node.isParameter = true := fun hparameter => Node.not_isResult hparameter hresult
  obtain ⟨input, output, hinput, houtput⟩ := e.graph.result_form hnode hresult
  have houtput_new := e.graph.not_mem_parameterHandles hnode hparameter
    (houtput ▸ List.mem_singleton_self output)
  intro f w h
  obtain ⟨slot, hslot⟩ := exists_slot hnodes hresult h.places
  have hne : ¬ b = slot.buffer := fun heq => h.slot_ne _ slot hslot (Nat.le_refl _) heq.symm
  rw [eval_deliverNode hnodes hresult hinput houtput hslot]
  rcases f.bindings.get input with error | value
  · exact h.bytes
  simp only
  have hkept := h.within (within_deliver slot value w) hne
  rcases houtcome : (deliver slot value : Run σ Tensor).outcome w with ⟨error | slot', w'⟩
  · rw [houtcome] at hkept
    exact hkept.bytes
  · rw [houtcome] at hkept
    exact (hkept.fill hresult slot').bind houtput_new value

/-- Every step of a call leaves the buffer alone. -/
theorem invariant_spares [HalfConversion] (href : e.UsesReference) (c : Context) (collect : Bool) (b : BufferId)
    (content : Bytes) : e.Invariant c collect (e.Spares c.held b content)
      (fun _ w => w.store.bytes b = content) (Left b content) where
  cancel before := by
    intro f w h
    show if w.cancelRequested e.cancel = true then _ else _
    split
    · exact h.bytes
    · exact h.within (.refl (fun _ => False) w.store) not_false
  parameter _ hparameter f w h := h.pass (Node.not_isResult hparameter)
  result hnodes hresult := ensures_deliverNode hnodes hresult
  operator hnodes hparameter hresult :=
    ensures_evaluateNode href c collect hnodes hparameter hresult

/-- At the start of a call, the buffer of an input or of a tensor that the caller holds has its content. -/
theorem spares_openedFrame {slots inputs : List Tensor} {c : Context} {t : Tensor}
    (hcheck : checkOperands e.graph slots inputs = .ok ()) (ht : t ∈ inputs ++ c.held)
    (halloc : w.store.Allocated t.buffer) (hslots : ∀ slot ∈ slots, slot.buffer ≠ t.buffer) :
    e.Spares (e.contextFor c).held t.buffer (t.bytes w.store) []
      (e.openedFrame slots inputs (e.startedWorld inputs c w))
      (e.openedWorld (e.startedWorld inputs c w)) := by
  obtain ⟨hlength, hplaces, _⟩ := (checkOperands_eq_ok w.store).mp hcheck
  have hwithin : w.store.Within (fun _ => False) (e.startedWorld inputs c w).store :=
    within_startedWorld inputs c w
  refine ⟨?_, ?_, ?_, hplaces, fun j slot hslot _ => hslots slot (List.mem_of_getElem? hslot)⟩
  · rw [store_openedWorld]
    exact hwithin.grows _ halloc
  · rw [store_openedWorld]
    exact hwithin.keeps _ halloc not_false
  · rcases List.mem_append.mp ht with hinput | hheld
    · obtain ⟨i, hi, hget⟩ := List.mem_iff_getElem.mp hinput
      have hi' : i < e.graph.parameterHandles.length := by
        rw [e.graph.length_parameterHandles, ← hlength]
        exact hi
      have hbound := get?_bindInputs_getElem hlength hi' hi
      exact .inr ⟨_, List.getElem_mem hi', t, hget ▸ hbound, rfl⟩
    · exact .inl ⟨t, hheld, rfl⟩

/-- A call writes into no tensor that is one of its inputs or held by the caller, unless a slot lies in
its buffer when the call starts. -/
theorem bytes_executeNodes [HalfConversion] (href : e.UsesReference) (count : Nat) {slots inputs : List Tensor}
    {c : Context} {t : Tensor} (ht : t ∈ inputs ++ c.held) (halloc : w.store.Allocated t.buffer)
    (hslots : ∀ slot ∈ slots, slot.buffer ≠ t.buffer) (collect : Bool) :
    t.bytes ((e.executeNodes (e.graph.nodes.take count) slots inputs c collect).outcome w).2.store
      = t.bytes w.store := by
  by_cases hcancel : w.cancelRequested e.cancel = true
  · rw [outcome_executeNodes_pending hcancel]
    rfl
  rw [Bool.not_eq_true] at hcancel
  rcases hcheck : checkOperands e.graph slots inputs with error | ⟨⟩
  · rw [outcome_executeNodes_rejected hcancel hcheck]
    rfl
  have hopened := spares_openedFrame hcheck ht halloc hslots
  rw [outcome_executeNodes hcancel hcheck]
  simp only
  have hwalk := (invariant_spares href (e.contextFor c) collect t.buffer
    (t.bytes w.store)).ensures_take count
  rcases heval : (e.runNodes (e.contextFor c) collect (e.graph.nodes.take count)).eval
      (e.openedFrame slots inputs (e.startedWorld inputs c w))
      (e.openedWorld (e.startedWorld inputs c w)) with ⟨⟨error | status, f⟩, w'⟩
  · obtain ⟨w'', hclose, hstore, _⟩ := outcome_closeFrame (e := e) f w'
    simp only [hclose, Tensor.bytes, hstore]
    exact hwalk.of_error hopened heval
  · obtain ⟨w'', hclose, hstore, _⟩ := outcome_closeFrame (e := e) f w'
    simp only [hclose, Tensor.bytes, hstore]
    rcases hwalk.of_ok hopened heval with ⟨_, hspares⟩ | ⟨_, hleft⟩
    · exact hspares.bytes
    · exact hleft

end Executor

/-! ### Sessions -/

/-- A call of an executor, which walks over some first nodes: all of them, or those that come before a
request to cancel. -/
structure Request (σ : Type) where
  executor : Executor σ
  count : Nat
  slots : List Tensor
  inputs : List Tensor
  context : Context
  collect : Bool

namespace Request

/-- What the call returns, and the world after it. -/
def outcome (q : Request σ) (w : World σ) : Except Error (Status × List Tensor) × World σ :=
  (q.executor.executeNodes (q.executor.graph.nodes.take q.count) q.slots q.inputs q.context
    q.collect).outcome w

/-- A call that a caller can make who holds some tensors: its evaluators are reference operators, its
operands are there, and the caller keeps what it holds while the call runs. -/
structure Admissible [HalfConversion] (q : Request σ) (given : List Tensor) (w : World σ) : Prop where
  reference : q.executor.UsesReference
  slots : w.store.Holds q.slots
  inputs : w.store.Holds q.inputs
  held : given ⊆ q.context.held

end Request

/-- The worlds to which a caller comes, with the tensors that it has passed as inputs and still holds.  It
makes calls, of any executors and with any slots, among them the slots that earlier calls gave back; a call
may complete, fail or be cancelled.  It drops tensors; and in between it makes and writes tensors, creates
executors, resets them or asks them to cancel, or does whatever else leaves all buffers in place. -/
inductive Session [HalfConversion] : World σ → List Tensor → Prop
  | opened {w : World σ} (hw : w.Sound) : Session w []
  | called {w : World σ} {given : List Tensor} (h : Session w given) {q : Request σ}
      (hq : q.Admissible given w) : Session (q.outcome w).2 (q.inputs ++ given)
  | dropped {w : World σ} {given kept : List Tensor} (h : Session w given) (hkept : kept ⊆ given) :
      Session w kept
  | between {w w' : World σ} {given : List Tensor} (h : Session w given) (hw : w'.Sound)
      (hgrows : w.Grows w') : Session w' given

namespace Session

variable {w : World σ} {given : List Tensor} {q : Request σ} [HalfConversion]

/-- The world of a session is sound, and its store holds what the caller holds. -/
theorem sound (h : Session w given) : w.Sound ∧ w.store.Holds given := by
  induction h with
  | opened hw => exact ⟨hw, nofun⟩
  | @called w given _ q hq ih =>
      have hkeeps : q.executor.KeepsNodes := by
        intro node hnode hparameter hresult ev hev
        obtain ⟨op, rfl⟩ := hq.reference node hnode hparameter hresult ev hev
        exact op.keeps_evaluator
      have hholds : w.store.Holds (q.slots ++ q.inputs) := fun t ht =>
        (List.mem_append.mp ht).elim (hq.slots t) (hq.inputs t)
      obtain ⟨hsound, hcontinues, _⟩ := Executor.keeps_executeNodes hkeeps
        (List.take_subset q.count q.executor.graph.nodes) (List.subset_append_left q.slots q.inputs)
        (List.subset_append_right q.slots q.inputs) q.context q.collect w ih.1 hholds
      refine ⟨hsound, fun t ht => hcontinues.store t.buffer ?_⟩
      rcases List.mem_append.mp ht with hinput | hgiven
      · exact hq.inputs t hinput
      · exact ih.2 t hgiven
  | dropped _ hkept ih => exact ⟨ih.1, fun t ht => ih.2 t (hkept ht)⟩
  | between _ hw hgrows ih => exact ⟨hw, hgrows.holds ih.2⟩

/-- Whatever calls a caller has made before, a call changes no byte of a tensor that the caller has passed
as an input, in this call or in an earlier one, unless a slot lies in its buffer when the call starts. -/
theorem bytes_given (h : Session w given) (hq : q.Admissible given w) {t : Tensor}
    (ht : t ∈ q.inputs ++ given) (hslots : ∀ slot ∈ q.slots, slot.buffer ≠ t.buffer) :
    t.bytes (q.outcome w).2.store = t.bytes w.store := by
  have halloc : w.store.Allocated t.buffer := by
    rcases List.mem_append.mp ht with hinput | hgiven
    · exact hq.inputs t hinput
    · exact h.sound.2 t hgiven
  refine Executor.bytes_executeNodes hq.reference q.count ?_ halloc hslots q.collect
  rcases List.mem_append.mp ht with hinput | hgiven
  · exact List.mem_append_left _ hinput
  · exact List.mem_append_right _ (hq.held hgiven)

end Session

/-! ### Forwarding an input -/

/-- A graph whose result is its input. -/
def forwarder : Graph (Evaluator Unit) where
  tensors := List.replicate 2 ⟨.u8, [.fixed 2]⟩
  nodes := [⟨⟨0, .parameter, none, [], [0], none⟩, none⟩, ⟨⟨1, .result, none, [0], [1], none⟩, none⟩]
  numbered := rfl
  checked := rfl

/-- An executor for it, and the world in which it is created. -/
def forwarderCreated : Executor Unit × World Unit :=
  Executor.create forwarder .reference ⟨none, 1, true⟩ (.empty ())

/-- The world in which the caller has made two tensors, an open slot and a slot with zeros. -/
def forwarderFilled : World Unit :=
  let store := ((forwarderCreated.2.store.alloc #[1, 2]).2.alloc #[3, 4]).2
  { forwarderCreated.2 with store := ((store.alloc #[]).2.alloc #[0, 0]).2 }

/-- A call of the executor by a caller that holds both tensors. -/
def forwarding (slot input : Tensor) : Request Unit where
  executor := forwarderCreated.1
  count := 2
  slots := [slot]
  inputs := [input]
  context := Context.empty.holding [⟨.u8, some [2], ⟨0⟩⟩, ⟨.u8, some [2], ⟨1⟩⟩]
  collect := false

/-- The world after the caller has passed its first tensor, with the open slot. -/
def forwarderCalled : World Unit :=
  ((forwarding ⟨.f32, none, ⟨2⟩⟩ ⟨.u8, some [2], ⟨0⟩⟩).outcome forwarderFilled).2

theorem usesReference_forwarder : forwarderCreated.1.UsesReference := by
  intro node hnode hparameter hresult
  simp only [forwarderCreated, Executor.create, forwarder, List.mem_cons, List.not_mem_nil,
    or_false] at hnode
  rcases hnode with rfl | rfl
  · exact absurd rfl hparameter
  · exact absurd rfl hresult

theorem session_forwarderCalled : Session forwarderCalled [⟨.u8, some [2], ⟨0⟩⟩] := by
  have hcreated : forwarderCreated.2.Sound :=
    (Executor.sound_create (e := forwarderCreated.1) (World.sound_empty ()) rfl).1
  have hwithin : forwarderCreated.2.store.Within (fun _ => False) forwarderFilled.store := by
    refine Store.Within.trans ?_ (Store.within_alloc _ _ #[0, 0]) fun _ _ hb => hb
    refine Store.Within.trans ?_ (Store.within_alloc _ _ #[]) fun _ _ hb => hb
    refine Store.Within.trans ?_ (Store.within_alloc _ _ #[3, 4]) fun _ _ hb => hb
    exact Store.within_alloc _ _ #[1, 2]
  have hfilled : forwarderFilled.Sound := (World.Reaches.of_store hwithin).sound hcreated
  refine (Session.opened hfilled).called
    ⟨usesReference_forwarder, by decide +kernel, by decide +kernel, nofun⟩

/-- The caller then passes its second tensor, with the slot that has zeros. -/
theorem bytes_given_forwarder :
    (⟨.u8, some [2], ⟨0⟩⟩ : Tensor).bytes
      ((forwarding ⟨.u8, some [2], ⟨3⟩⟩ ⟨.u8, some [2], ⟨1⟩⟩).outcome forwarderCalled).2.store
      = #[1, 2] := by
  have hadmissible : (forwarding ⟨.u8, some [2], ⟨3⟩⟩ ⟨.u8, some [2], ⟨1⟩⟩).Admissible
      [⟨.u8, some [2], ⟨0⟩⟩] forwarderCalled :=
    ⟨usesReference_forwarder, by decide +kernel, by decide +kernel, by decide⟩
  have hbytes : (⟨.u8, some [2], ⟨0⟩⟩ : Tensor).bytes forwarderCalled.store = #[1, 2] := by
    decide +kernel
  rw [← hbytes]
  exact session_forwarderCalled.bytes_given hadmissible (by decide) (by decide)

/-- The caller instead passes its second tensor with the slot that the first call gave back, which is an
alias of the first tensor: that tensor is overwritten, although the caller has passed it as an input only. -/
theorem forwarded_input_overwritten : ∃ slot,
    ((forwarding ⟨.f32, none, ⟨2⟩⟩ ⟨.u8, some [2], ⟨0⟩⟩).outcome forwarderFilled).1
      = .ok (.completed, [slot]) ∧
    Session forwarderCalled [⟨.u8, some [2], ⟨0⟩⟩] ∧
    (forwarding slot ⟨.u8, some [2], ⟨1⟩⟩).Admissible [⟨.u8, some [2], ⟨0⟩⟩] forwarderCalled ∧
    (⟨.u8, some [2], ⟨0⟩⟩ : Tensor).bytes forwarderCalled.store = #[1, 2] ∧
    (⟨.u8, some [2], ⟨0⟩⟩ : Tensor).bytes
      ((forwarding slot ⟨.u8, some [2], ⟨1⟩⟩).outcome forwarderCalled).2.store = #[3, 4] := by
  refine ⟨⟨.u8, some [2], ⟨0⟩⟩, by decide +kernel, session_forwarderCalled, ?_, by decide +kernel,
    by decide +kernel⟩
  exact ⟨usesReference_forwarder, by decide +kernel, by decide +kernel, by decide⟩

end TensorGraph
