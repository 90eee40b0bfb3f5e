import TensorGraph.Proofs.Sequencing
import TensorGraph.Proofs.Typing

/-! # What operators are handed

An operator is handed an output for each tensor that it produces, made new from the description or taken from
what the executor remembers (`Executor.Allotted`).  Either way it has the described element type, and the
described shape if that is fully known.  An output whose shape is open has none if it is new; one that is
remembered still has the shape that an earlier call gave it (`Executor.Reached.remembersShaped`).

An output that is left without a shape is reported (`Execution.Dispatches.unresolved`).  An operator that leaves
an open output as it was is therefore reported unless it was handed what its executor remembered
(`Execution.handed_as_described`): a call that would have failed can succeed because of an earlier one. -/

namespace TensorGraph

variable {σ : Type}

/-- A call of an executor in a world. -/
structure Execution (σ : Type) where
  executor : Executor σ
  slots : List Tensor
  inputs : List Tensor
  context : Context
  collect : Bool
  world : World σ

namespace Execution

/-- What the call returns, and the world after it. -/
def outcome (q : Execution σ) : Except Error (Status × List Tensor) × World σ :=
  (q.executor.execute q.slots q.inputs q.context q.collect).outcome q.world

/-- The walk of the call over some of its nodes. -/
def walk (q : Execution σ) (nodes : List (Node (Evaluator σ))) : (Except Error Status × Frame) × World σ :=
  q.executor.walk q.slots q.inputs q.context q.collect q.world nodes

/-- The call comes to an operator and calls its evaluator: no request to cancel is pending, the operands are
accepted, the nodes before are passed, no request has come up meanwhile, and the operator is prepared.  The
frame and the world are those in which the evaluator starts. -/
inductive Dispatches (q : Execution σ) (node : Node (Evaluator σ)) (f : Frame) (w : World σ)
    (handed : Handed σ) : Prop
  | intro {before rest : List (Node (Evaluator σ))} {f₁ : Frame} {w₁ : World σ}
    (hcancel : q.world.cancelRequested q.executor.cancel = false)
    (hcheck : Executor.checkOperands q.executor.graph q.slots q.inputs = .ok ())
    (hnodes : q.executor.graph.nodes = before ++ node :: rest)
    (hwalk : q.walk before = ((.ok .completed, f₁), w₁))
    (hpending : w₁.cancelRequested q.executor.cancel = false)
    (hoperator : node.isOperator = true)
    (hprepared : (q.executor.prepare (q.executor.contextFor q.context) node).eval f₁ (q.executor.polled w₁)
      = ((.ok handed, f), w))

end Execution

/-- What a call holds that started with some kept tensors: what is bound has a shape, and what is still kept
was kept at the start. -/
structure Frame.Stems (start : List (Option Tensor)) (f : Frame) : Prop where
  bound : ∀ t ∈ f.bindings.tensors, t.hasShape = true
  kept : ∀ (h : Handle) t, f.kept[h]? = some (some t) → start[h]? = some (some t)

theorem getElem?_of_erased {kept : List (Option Tensor)} {h k : Handle} {t : Tensor}
    (hget : (kept.set h none)[k]? = some (some t)) : kept[k]? = some (some t) := by
  rw [List.getElem?_set] at hget
  split at hget
  · split at hget
    · cases hget
    · cases hget
  · exact hget

namespace Executor

variable {e : Executor σ} {c : Context} {collect : Bool} {node : Node (Evaluator σ)} {f f' : Frame}
  {w w' : World σ} {start : List (Option Tensor)}

/-! ### Outputs -/

/-- An output for a handle is the tensor kept for it, which fits the description, or a new one. -/
inductive Allotted (e : Executor σ) (kept : List (Option Tensor)) (h : Handle) (t : Tensor) : Prop
  | kept {desc : TensorDesc} (hdesc : e.graph.tensors[h]? = some desc) (hkept : kept[h]? = some (some t))
    (hfits : fits desc t = true)
  | made {desc : TensorDesc} {s : Store} (hdesc : e.graph.tensors[h]? = some desc)
    (hmade : t = (fresh desc s).1)

theorem Allotted.of_erased {kept : List (Option Tensor)} {h k : Handle} {t : Tensor}
    (hallotted : e.Allotted (kept.set h none) k t) : e.Allotted kept k t := by
  cases hallotted with
  | kept hdesc hkept hfits => exact .kept hdesc (getElem?_of_erased hkept) hfits
  | made hdesc hmade => exact .made hdesc hmade

/-- One more output is allotted to its handle, in a new buffer or in one in which nothing else lies. -/
theorem exists_allotted (c : Context) (outputs : List Tensor) {h : Handle} {desc : TensorDesc}
    (hdesc : e.graph.tensors[h]? = some desc) (f : Frame) (w : World σ) :
    ∃ t s, (e.allocate c outputs h).eval f w
        = ((.ok (outputs ++ [t]), { f with kept := f.kept.set h none }), { w with store := s }) ∧
      w.store.Within (fun _ => False) s ∧ e.Allotted f.kept h t ∧
      (w.store.IsNew s t ∨ some t ∈ f.kept ∧ ∀ u ∈ outputs ++ Frame.held { f with kept := f.kept.set h none }
        ++ c.held ++ w.held, u.buffer ≠ t.buffer) := by
  rcases allocate_cases c outputs hdesc f w with ⟨t, hkept, hfits, hne, heval⟩ | heval
  · exact ⟨t, w.store, heval, .refl _ _, .kept hdesc hkept hfits, .inr ⟨List.mem_of_getElem? hkept, hne⟩⟩
  · obtain ⟨hwithin, hnew, _⟩ := fresh_spec desc w.store
    exact ⟨_, _, heval, hwithin, .made hdesc rfl, .inl hnew⟩

/-- What a frame holds in which fewer tensors are kept. -/
theorem held_erased {kept : List (Option Tensor)}
    (h : ∀ (k : Handle) t, kept[k]? = some (some t) → f.kept[k]? = some (some t)) :
    Frame.held { f with kept := kept } ⊆ f.held := by
  intro t ht
  simp only [Frame.held, List.mem_append, List.mem_filterMap, id] at ht ⊢
  rcases ht with (ht | ⟨_, hkept, rfl⟩) | ht
  · exact .inl (.inl ht)
  · obtain ⟨k, hk⟩ := List.mem_iff_getElem?.mp hkept
    exact .inl (.inr ⟨_, List.mem_of_getElem? (h k t hk), rfl⟩)
  · exact .inr ht

/-- The outputs of a node, each allotted to its handle.  None lies in a buffer of anything else that is
held; and if what the call holds is there, so are they, each in a buffer of its own. -/
structure Allotment (e : Executor σ) (c : Context) (hs : List Handle) (outputs : List Tensor) (f : Frame)
    (w : World σ) (new : List Tensor) (kept : List (Option Tensor)) (s : Store) : Prop where
  within : w.store.Within (fun _ => False) s
  allotted : List.Forall₂ (e.Allotted f.kept) hs new
  remaining : ∀ (k : Handle) t, kept[k]? = some (some t) → f.kept[k]? = some (some t)
  apart : ∀ u ∈ outputs ++ Frame.held { f with kept := kept } ++ c.held ++ w.held,
    w.store.Allocated u.buffer → ∀ t ∈ new, t.buffer ≠ u.buffer
  holds : f.Sound w.store → s.Holds new
  distinct : f.Sound w.store → new.Pairwise fun t u => t.buffer ≠ u.buffer

/-- An output in front of others that are allotted after it. -/
theorem Allotment.cons {outputs new : List Tensor} {kept : List (Option Tensor)} {h : Handle} {hs : List Handle}
    {t : Tensor} {s s₁ : Store}
    (hrest : e.Allotment c hs (outputs ++ [t]) { f with kept := f.kept.set h none } { w with store := s₁ } new
      kept s)
    (hwithin : w.store.Within (fun _ => False) s₁) (hallotted : e.Allotted f.kept h t)
    (hapart : w.store.IsNew s₁ t ∨ some t ∈ f.kept ∧ ∀ u ∈ outputs
      ++ Frame.held { f with kept := f.kept.set h none } ++ c.held ++ w.held, u.buffer ≠ t.buffer) :
    e.Allotment c (h :: hs) outputs f w (t :: new) kept s := by
  have hsound (hf : f.Sound w.store) :
      Frame.Sound { f with kept := f.kept.set h none } s₁ ∧ s₁.Allocated t.buffer := by
    refine ⟨fun u hu => hwithin.grows _ (hf u (kept_subset f h hu)), ?_⟩
    rcases hapart with hnew | ⟨hkept, -⟩
    · exact hnew.2
    · exact hwithin.grows _ (hf t (mem_held_of_kept hkept))
  refine ⟨hwithin.trans hrest.within fun _ _ hb => hb, .cons hallotted (hrest.allotted.imp fun _ _ => .of_erased),
    fun k u hu => getElem?_of_erased (hrest.remaining k u hu), fun u hu hallocated => ?_, fun hf => ?_,
    fun hf => ?_⟩
  · simp only [List.mem_append] at hu
    have hlater := hrest.apart u (by simp only [List.mem_append]; tauto) (hwithin.grows _ hallocated)
    refine List.forall_mem_cons.mpr ⟨?_, hlater⟩
    rcases hapart with hnew | ⟨-, hapart⟩
    · exact fun heq => hnew.1 (heq ▸ hallocated)
    · have hsub := held_erased hrest.remaining (a := u)
      refine (hapart u ?_).symm
      simp only [List.mem_append]
      tauto
  · obtain ⟨hframe, ht⟩ := hsound hf
    exact List.forall_mem_cons.mpr ⟨hrest.within.grows _ ht, hrest.holds hframe⟩
  · obtain ⟨hframe, ht⟩ := hsound hf
    refine .cons (fun u hu => ?_) (hrest.distinct hframe)
    refine (hrest.apart t ?_ ht u hu).symm
    simp

theorem exists_allotment (c : Context) {hs : List Handle} (hlt : ∀ h ∈ hs, h < e.graph.tensors.length)
    (outputs : List Tensor) (f : Frame) (w : World σ) :
    ∃ new kept s, (hs.foldlM (e.allocate c) outputs).eval f w
        = ((.ok (outputs ++ new), { f with kept := kept }), { w with store := s }) ∧
      e.Allotment c hs outputs f w new kept s := by
  induction hs generalizing outputs f w with
  | nil =>
      refine ⟨[], f.kept, w.store, by rw [List.append_nil]; rfl, .refl _ _, .nil, fun _ _ h => h, ?_, ?_, ?_⟩
      · exact fun _ _ _ _ ht => nomatch ht
      · exact fun _ _ ht => nomatch ht
      · exact fun _ => .nil
  | cons h hs ih =>
      obtain ⟨hh, hlt⟩ := List.forall_mem_cons.mp hlt
      have hdesc : e.graph.tensors[h]? = some e.graph.tensors[h] := List.getElem?_eq_getElem hh
      obtain ⟨t, s₁, hone, hwithin, hallotted, hapart⟩ := exists_allotted c outputs hdesc f w
      obtain ⟨new, kept, s, hall, hrest⟩ :=
        ih hlt (outputs ++ [t]) { f with kept := f.kept.set h none } { w with store := s₁ }
      refine ⟨t :: new, kept, s, ?_, hrest.cons hwithin hallotted hapart⟩
      rw [List.foldlM_cons, Call.eval_bind_ok hone, hall, List.append_assoc]
      rfl

/-- An output has the described type, and the described shape if that is known; if it is not, a new output
has none. -/
theorem Allotted.described {kept : List (Option Tensor)} {h : Handle} {t : Tensor}
    (hallotted : e.Allotted kept h t) : ∃ desc, e.graph.tensors[h]? = some desc ∧ t.dtype = desc.dtype ∧
      (∀ shape, desc.shape.toShape? = some shape → t.shape = some shape) ∧
      (desc.shape.toShape? = none → t.shape = none ∨ kept[h]? = some (some t)) := by
  cases hallotted with
  | @kept desc hdesc hkept hfits =>
      unfold fits at hfits
      obtain ⟨hdtype, hshape⟩ := Bool.and_eq_true_iff.mp hfits
      refine ⟨desc, hdesc, beq_iff_eq.mp hdtype, fun shape hknown => ?_, fun _ => .inr hkept⟩
      rw [hknown] at hshape
      exact beq_iff_eq.mp hshape
  | @made desc s hdesc hmade =>
      subst hmade
      refine ⟨desc, hdesc, (fresh_spec desc s).2.2, fun shape hknown => ?_, fun hopen => .inl ?_⟩
      · rw [fresh, hknown]
        rfl
      · rw [fresh, hopen]
        rfl

/-- What the preparation of a node hands to its evaluator are outputs allotted to the handles of the node. -/
theorem allotment_of_prepare {handed : Handed σ} (hlt : ∀ h ∈ node.outputs, h < e.graph.tensors.length)
    (h : (e.prepare c node).eval f w = ((.ok handed, f'), w')) :
    ∃ kept s, f' = { f with kept := kept, dispatched := node.id :: f.dispatched } ∧
      w' = { w with store := s } ∧ e.Allotment c node.outputs [] f w handed.outputs kept s := by
  obtain ⟨new, kept, s, hallocated, hallotment⟩ := exists_allotment (e := e) c hlt [] f w
  have hprepared := prepared_of_prepare h
  unfold prepare at h
  rw [Call.eval_bind, eval_mapM_bound, hprepared.inputs] at h
  simp only [Call.eval_bind_ok hallocated, hprepared.evaluator] at h
  have houtputs : [] ++ new = handed.outputs :=
    congrArg Handed.outputs (Except.ok.inj (Prod.mk.inj (Prod.mk.inj h).1).1)
  obtain rfl : f' = _ := (Prod.mk.inj (Prod.mk.inj h).1).2.symm
  obtain rfl : w' = _ := (Prod.mk.inj h).2.symm
  rw [← houtputs]
  exact ⟨kept, s, rfl, rfl, hallotment⟩

/-- A preparation that fails has made some outputs all the same. -/
theorem frame_of_unprepared {error : Error} (hlt : ∀ h ∈ node.outputs, h < e.graph.tensors.length)
    (h : (e.prepare c node).eval f w = ((.error error, f'), w')) :
    ∃ kept s, f' = { f with kept := kept } ∧ w' = { w with store := s } ∧
      w.store.Within (fun _ => False) s ∧ Frame.held { f with kept := kept } ⊆ f.held := by
  unfold prepare at h
  rw [Call.eval_bind, eval_mapM_bound] at h
  rcases hgathered : node.inputs.mapM f.bindings.get with error' | inputs
  · rw [hgathered] at h
    cases h
    exact ⟨f.kept, w.store, rfl, rfl, .refl _ _, List.Subset.refl _⟩
  · obtain ⟨new, kept, s, hallocated, hallotment⟩ := exists_allotment (e := e) c hlt [] f w
    rw [hgathered] at h
    simp only [Call.eval_bind_ok hallocated] at h
    cases hresolved : e.evaluatorOf node with
    | error error' =>
        rw [hresolved] at h
        cases h
        exact ⟨kept, s, rfl, rfl, hallotment.within, held_erased hallotment.remaining⟩
    | ok evaluator =>
        rw [hresolved] at h
        cases h

/-! ### What is remembered has a shape -/

theorem stable_stems (start : List (Option Tensor)) :
    Frame.Stable (fun t => t.hasShape = true) (Frame.Stems start) where
  shaped _ h := h
  read _ t h ht := h.bound t ht
  take _ _ h := ⟨h.bound, fun k t hget => h.kept k t (getElem?_of_erased hget)⟩
  enter _ _ h := ⟨h.bound, h.kept⟩
  bind f h t ht hf := ⟨fun u hu => (List.mem_cons.mp (Bindings.tensors_bind_subset f.bindings h t hu)).elim
    (fun heq => heq ▸ ht) (hf.bound u), hf.kept⟩
  fill _ _ _ h := ⟨h.bound, h.kept⟩

variable {slots inputs : List Tensor} {nodes before rest : List (Node (Evaluator σ))}

theorem hasShape_of_accepted (hcheck : checkOperands e.graph slots inputs = .ok ()) {t : Tensor}
    (ht : t ∈ inputs) : t.hasShape = true := by
  obtain ⟨desc, _, hinstance⟩ := exists_desc_of_checkOperands hcheck Store.empty ht
  obtain ⟨_, shape, hshape, _⟩ := Tensor.isInstance_of_value hinstance
  rw [Tensor.hasShape, hshape]
  rfl

theorem memories_startedWorld (inputs : List Tensor) (c : Context) (w : World σ) :
    (e.startedWorld inputs c w).memories = w.memories := by
  obtain ⟨_, _, hsame⟩ := (reaches_startedWorld (e := e) inputs c w).same
  rw [hsame]
  rfl

/-- The tensors with which a call starts, by handle: what the executor remembers, if it reuses that. -/
def openedKept (e : Executor σ) (w : World σ) : List (Option Tensor) :=
  fitLength (if e.config.reuseIntermediates then (w.memories.get e.memory).intermediates else [])
    e.graph.tensors.length

theorem stems_openedFrame (hcheck : checkOperands e.graph slots inputs = .ok ()) (c : Context) (w : World σ) :
    (e.openedFrame slots inputs (e.startedWorld inputs c w)).Stems (e.openedKept w) := by
  refine ⟨fun t ht => hasShape_of_accepted hcheck (tensors_bindInputs_subset e.graph inputs ht),
    fun h t hget => ?_⟩
  rw [openedFrame, memories_startedWorld] at hget
  exact hget

/-- Wherever the walk of a call stands, what is bound has a shape, and what is kept was remembered. -/
theorem stems_walk (hcheck : checkOperands e.graph slots inputs = .ok ()) {o : Except Error Status}
    (hwalk : e.walk slots inputs c collect w nodes = ((o, f), w')) : f.Stems (e.openedKept w) := by
  have hstems := preserves_runNodes (e := e) (stable_stems (e.openedKept w)) (e.contextFor c) collect nodes
    (e.openedFrame slots inputs (e.startedWorld inputs c w)) (e.openedWorld (e.startedWorld inputs c w))
    (stems_openedFrame hcheck c w)
  have heval : (e.runNodes (e.contextFor c) collect nodes).eval
      (e.openedFrame slots inputs (e.startedWorld inputs c w))
      (e.openedWorld (e.startedWorld inputs c w)) = ((o, f), w') := hwalk
  rwa [heval] at hstems

theorem getElem?_of_openedKept {h : Handle} {t : Tensor} (hget : (e.openedKept w)[h]? = some (some t)) :
    e.config.reuseIntermediates = true ∧ (w.memories.get e.memory).intermediates[h]? = some (some t) := by
  unfold openedKept fitLength at hget
  split at hget
  · rename_i hreuse
    refine ⟨hreuse, ?_⟩
    rw [List.getElem?_append] at hget
    split at hget
    · rw [List.getElem?_take] at hget
      split at hget
      · exact hget
      · cases hget
    · cases (List.mem_replicate.mp (List.mem_of_getElem? hget)).2
  · rw [List.take_nil, List.nil_append] at hget
    cases (List.mem_replicate.mp (List.mem_of_getElem? hget)).2

/-- A call over some nodes is refused before it starts, or ends as its walk does and remembers intermediates. -/
theorem executeNodes_cases (nodes : List (Node (Evaluator σ))) (slots inputs : List Tensor) (c : Context)
    (collect : Bool) (w : World σ) :
    (∃ r, (e.executeNodes nodes slots inputs c collect).outcome w = (r, e.polled w) ∧
      ∀ p, r = .ok p → p.2 = slots) ∨
    checkOperands e.graph slots inputs = .ok () ∧
      ∃ o f w', e.walk slots inputs c collect w nodes = ((o, f), w') ∧
        (e.executeNodes nodes slots inputs c collect).outcome w
          = (o.map (·, f.slots), ((e.closeFrame f).outcome w').2) := by
  cases hcancel : w.cancelRequested e.cancel with
  | true =>
      left
      exact ⟨_, outcome_executeNodes_pending hcancel nodes slots inputs c collect,
        fun p hp => by rw [← Except.ok.inj hp]⟩
  | false =>
      rcases hcheck : checkOperands e.graph slots inputs with error | ⟨⟩
      · left
        exact ⟨_, outcome_executeNodes_rejected hcancel hcheck nodes c collect, fun p hp => by cases hp⟩
      · exact .inr ⟨rfl, _, _, _, rfl, outcome_executeNodes_walk hcancel hcheck rfl⟩

/-- What an executor remembers has a shape. -/
def RemembersShaped (e : Executor σ) (w : World σ) : Prop :=
  ∀ t, some t ∈ (w.memories.get e.memory).intermediates → t.hasShape = true

theorem RemembersShaped.congr (h : e.RemembersShaped w)
    (hsame : (w'.memories.get e.memory).intermediates = (w.memories.get e.memory).intermediates) :
    e.RemembersShaped w' := by
  intro t ht
  rw [hsame] at ht
  exact h t ht

/-- A call of an executor that reuses intermediates leaves it with such as have a shape. -/
theorem RemembersShaped.executeNodes (hreuse : e.config.reuseIntermediates = true) (h : e.RemembersShaped w)
    (nodes : List (Node (Evaluator σ))) (slots inputs : List Tensor) (c : Context) (collect : Bool) :
    e.RemembersShaped ((e.executeNodes nodes slots inputs c collect).outcome w).2 := by
  obtain ⟨r, hrefused, -⟩ | ⟨hcheck, o, f, w', hwalk, hclosed⟩ :=
    executeNodes_cases (e := e) nodes slots inputs c collect w
  · rw [hrefused]
    exact h
  · intro t ht
    have hstems := stems_walk hcheck hwalk
    rw [hclosed, closeFrame, if_pos hreuse] at ht
    change some t ∈ ((w'.putMemory e.memory _).memories.get e.memory).intermediates at ht
    rw [get_putMemory] at ht
    split at ht
    · obtain hkept | hbound := kept_or_bound_of_remembered ht
      · obtain ⟨k, hk⟩ := List.mem_iff_getElem?.mp hkept
        exact h t (List.mem_of_getElem? (getElem?_of_openedKept (hstems.kept k t hk)).2)
      · exact hstems.bound t hbound
    · rename_i hnone
      have hmissing : w'.memories.get e.memory = default := by
        rw [Table.get, Array.getElem?_eq_none (Nat.not_lt.mp fun hlt => hnone ⟨rfl, hlt⟩)]
        rfl
      rw [hmissing] at ht
      cases ht

/-- What an executor that reuses intermediates remembers has a shape, whatever has happened. -/
theorem Reached.remembersShaped (hreuse : e.config.reuseIntermediates = true) (h : e.Reached w) :
    e.RemembersShaped w := by
  induction h with
  | @created w _ hw hcreate =>
      obtain ⟨hexecutor, rfl⟩ := Prod.mk.inj hcreate
      have hmemory : e.memory = (w.memories.add .empty).1 := congrArg Executor.memory hexecutor.symm
      intro t ht
      change some t ∈ ((w.memories.add .empty).2.get e.memory).intermediates at ht
      rw [hmemory, Table.get_add] at ht
      cases ht
  | called _ count _ _ c collect ih => exact ih.executeNodes hreuse _ _ _ c collect
  | reset _ ih => exact ih
  | requested _ ih => exact ih
  | elsewhere _ hw ih => exact ih.congr hw.memory

/-! ### Unresolved outputs -/

/-- An output that can be bound: it has a shape and the described element type. -/
def Takes (e : Executor σ) (h : Handle) (t : Tensor) : Prop :=
  t.hasShape = true ∧ ∀ desc, e.graph.tensors[h]? = some desc → t.dtype = desc.dtype

theorem eval_bindOutput_of_takes (node : Node (Evaluator σ)) {h : Handle} {t : Tensor} (htakes : e.Takes h t)
    (position : Nat) (f : Frame) (w : World σ) : (e.bindOutput node ((h, t), position)).eval f w
      = ((.ok (), { f with bindings := f.bindings.bind h t }), w) := by
  rcases eval_bindOutput_cases (e := e) node h t position f w with
    ⟨hunshaped, -⟩ | ⟨-, desc, hdesc, hdtype, -⟩ | ⟨-, -, heval⟩
  · exact absurd htakes.1 (by simp [hunshaped])
  · exact absurd (htakes.2 desc hdesc) hdtype
  · exact heval

theorem eval_bindOutput_unshaped (node : Node (Evaluator σ)) {t : Tensor} (hunshaped : t.hasShape = false)
    (h : Handle) (position : Nat) (f : Frame) (w : World σ) :
    (e.bindOutput node ((h, t), position)).eval f w
      = ((.error (.unresolvedShape node.op.name position), f), w) := by
  rcases eval_bindOutput_cases (e := e) node h t position f w with ⟨-, heval⟩ | ⟨hshape, -⟩ | ⟨hshape, -⟩
  · exact heval
  all_goals exact absurd hshape (by simp [hunshaped])

/-- The first of some outputs that cannot be bound is reported, if it is one without a shape. -/
theorem exists_unresolved (node : Node (Evaluator σ)) {pairs : List (Handle × Tensor)} (start : Nat) {k : Nat}
    {h : Handle} {t : Tensor} (hk : pairs[k]? = some (h, t)) (hunshaped : t.hasShape = false)
    (hbefore : ∀ j < k, ∀ h t, pairs[j]? = some (h, t) → e.Takes h t) (f : Frame) (w : World σ) :
    ∃ f', ((pairs.zipIdx start).forM (e.bindOutput node)).eval f w
      = ((.error (.unresolvedShape node.op.name (start + k)), f'), w) := by
  induction pairs generalizing start k f with
  | nil => cases hk
  | cons pair pairs ih =>
      have hforM : ((pair :: pairs).zipIdx start).forM (e.bindOutput node)
          = (e.bindOutput node (pair, start) >>= fun _ =>
              (pairs.zipIdx (start + 1)).forM (e.bindOutput node)) := rfl
      rw [hforM]
      obtain ⟨h', t'⟩ := pair
      cases k with
      | zero =>
          cases hk
          rw [Call.eval_bind, eval_bindOutput_unshaped node hunshaped]
          exact ⟨f, rfl⟩
      | succ k =>
          have htakes : e.Takes h' t' := hbefore 0 k.succ_pos h' t' rfl
          rw [Call.eval_bind_ok (eval_bindOutput_of_takes node htakes start f w),
            show start + (k + 1) = start + 1 + k by omega]
          exact ih (start + 1) hk (fun j hj h t hget => hbefore (j + 1) (by omega) h t hget) _

/-- A walk goes on with the next nodes after it has completed the first ones. -/
theorem eval_runNodes_append (hbefore : (e.runNodes c collect before).eval f w = ((.ok .completed, f'), w'))
    (rest : List (Node (Evaluator σ))) :
    (e.runNodes c collect (before ++ rest)).eval f w = (e.runNodes c collect rest).eval f' w' := by
  induction before generalizing f w with
  | nil =>
      cases hbefore
      rfl
  | cons node before ih =>
      rw [List.cons_append, eval_runNodes_cons]
      rw [eval_runNodes_cons] at hbefore
      rcases hstep : (e.stepNode c collect node).eval f w with ⟨⟨error | _ | _, f₁⟩, w₁⟩
      · rw [hstep] at hbefore
        cases hbefore
      · rw [hstep] at hbefore
        exact ih hbefore
      · rw [hstep] at hbefore
        cases hbefore

/-- A step whose evaluator leaves an output without a shape fails, and says which one it is. -/
theorem exists_unresolved_step (hpending : w.cancelRequested e.cancel = false) (hoperator : node.isOperator = true)
    {handed : Handed σ} (hprepared : (e.prepare c node).eval f (e.polled w) = ((.ok handed, f'), w'))
    {produced : List Tensor} {after : World σ}
    (hproduced : (handed.apply node.toOperation).outcome w' = (.ok produced, after)) {k : Nat} {h : Handle}
    {t : Tensor} (hk : (node.outputs.zip produced)[k]? = some (h, t)) (hunshaped : t.hasShape = false)
    (hbefore : ∀ j < k, ∀ h t, (node.outputs.zip produced)[j]? = some (h, t) → e.Takes h t) :
    ∃ f₂ w₂, (e.stepNode c collect node).eval f w
      = ((.error (.unresolvedShape node.op.name k), f₂), w₂) := by
  have hbinds (f : Frame) (w : World σ) : ∃ f₂, ((node.outputs.zip produced).zipIdx.forM (e.bindOutput node)).eval
      f w = ((.error (.unresolvedShape node.op.name k), f₂), w) := by
    have hunresolved := exists_unresolved node 0 hk hunshaped hbefore f w
    rwa [Nat.zero_add] at hunresolved
  have hbound : ∃ f₂ w₂, (e.bindProduced collect node w'.clock produced).eval f' after
      = ((.error (.unresolvedShape node.op.name k), f₂), w₂) := by
    cases collect with
    | false =>
        obtain ⟨f₂, heval⟩ := hbinds f' after
        exact ⟨f₂, after, heval⟩
    | true =>
        obtain ⟨f₂, heval⟩ := hbinds f' ((Run.modifyMemory e.memory fun m => { m with
          statistics := m.statistics.record node.toOperation (after.clock - w'.clock) }).outcome after).2
        exact ⟨f₂, _, heval⟩
  obtain ⟨f₂, w₂, hbound⟩ := hbound
  obtain ⟨hparameter, hresult⟩ : node.isParameter = false ∧ node.isResult = false := by
    simpa [Node.isOperator] using hoperator
  refine ⟨f₂, w₂, ?_⟩
  unfold stepNode
  rw [Call.eval_bind, eval_takeCancel_eq, hpending]
  simp only [hparameter, hresult, Bool.false_eq_true, if_false]
  rw [evaluateNode_eq_prepare, bind_assoc, Call.eval_bind_ok hprepared, bind_assoc,
    Call.eval_bind_ok (Call.eval_getWorld _ _), bind_assoc, Call.eval_bind, Call.eval_ofRun, hproduced]
  simp only [Call.eval_bind, hbound]

end Executor

/-! ### Dispatches -/

namespace Execution

variable {q : Execution σ} {node : Node (Evaluator σ)} {f : Frame} {w : World σ} {handed : Handed σ}

/-- The executor reuses intermediates, and this is the one that it remembers for a handle. -/
structure Recalls (q : Execution σ) (h : Handle) (t : Tensor) : Prop where
  reuses : q.executor.config.reuseIntermediates = true
  remembered : (q.world.memories.get q.executor.memory).intermediates[h]? = some (some t)
  shaped : q.executor.Reached q.world → t.hasShape = true

/-- An output as an operator is handed it: of the described type, and of the described shape if that is fully
known.  If it is not, the output has no shape, or it is what the executor remembers. -/
structure Describes (q : Execution σ) (desc : TensorDesc) (h : Handle) (t : Tensor) : Prop where
  dtype : t.dtype = desc.dtype
  known : ∀ shape, desc.shape.toShape? = some shape → t.shape = some shape
  unknown : desc.shape.toShape? = none → t.shape = none ∨ q.Recalls h t

/-- Every output that an operator is handed is as described. -/
theorem Dispatches.described (hdispatches : q.Dispatches node f w handed) :
    List.Forall₂ (fun h t => ∃ desc, q.executor.graph.tensors[h]? = some desc ∧ q.Describes desc h t)
      node.outputs handed.outputs := by
  obtain ⟨_, hcheck, hnodes, hwalk, _, _, hprepared⟩ := hdispatches
  have hmem : node ∈ q.executor.graph.nodes := hnodes ▸ List.mem_append_right _ List.mem_cons_self
  obtain ⟨_, _, _, _, hallotment⟩ := Executor.allotment_of_prepare
    (fun h hh => q.executor.graph.output_lt hmem hh) hprepared
  have hstems := Executor.stems_walk hcheck hwalk
  refine hallotment.allotted.imp fun h t hallotted => ?_
  obtain ⟨desc, hdesc, hdtype, hknown, hunknown⟩ := hallotted.described
  refine ⟨desc, hdesc, hdtype, hknown, fun hopen => (hunknown hopen).imp_right fun hkept => ?_⟩
  obtain ⟨hreuses, hremembered⟩ := Executor.getElem?_of_openedKept (hstems.kept h t hkept)
  exact ⟨hreuses, hremembered, fun hreached =>
    hreached.remembersShaped hreuses t (List.mem_of_getElem? hremembered)⟩

/-- An output that is left without a shape makes the call fail, unless an earlier one is refused. -/
theorem Dispatches.unresolved (hdispatches : q.Dispatches node f w handed) {produced : List Tensor}
    {after : World σ} (hproduced : (handed.apply node.toOperation).outcome w = (.ok produced, after)) {k : Nat}
    {t : Tensor} (hk : produced[k]? = some t) (hunshaped : t.hasShape = false)
    (hbefore : ∀ j < k, ∀ h t, (node.outputs.zip produced)[j]? = some (h, t) → q.executor.Takes h t) :
    q.outcome.1 = .error (.unresolvedShape node.op.name k) := by
  have hlength : node.outputs.length = produced.length :=
    hdispatches.described.length_eq.trans (Evaluator.length_apply hproduced).symm
  obtain @⟨before, rest, f₁, w₁, hcancel, hcheck, hnodes, hwalk, hpending, hoperator, hprepared⟩ := hdispatches
  have hlt : k < node.outputs.length := hlength ▸ (List.getElem?_eq_some_iff.mp hk).1
  have hpair : (node.outputs.zip produced)[k]? = some (node.outputs[k], t) :=
    List.getElem?_zip_eq_some.mpr ⟨List.getElem?_eq_getElem hlt, hk⟩
  obtain ⟨f₂, w₂, hstep⟩ : ∃ f₂ w₂, (q.executor.stepNode (q.executor.contextFor q.context) q.collect node).eval
      f₁ w₁ = ((.error (.unresolvedShape node.op.name k), f₂), w₂) :=
    Executor.exists_unresolved_step hpending hoperator hprepared hproduced hpair hunshaped hbefore
  have hall : q.walk q.executor.graph.nodes = ((.error (.unresolvedShape node.op.name k), f₂), w₂) := by
    rw [hnodes]
    exact (Executor.eval_runNodes_append hwalk (node :: rest)).trans
      (by rw [Executor.eval_runNodes_cons, hstep])
  obtain ⟨memories, houtcome⟩ := Executor.outcome_execute_walked q.context q.collect hcancel hcheck
  rw [outcome, houtcome]
  have hmapped : (q.executor.walk q.slots q.inputs q.context q.collect q.world
      q.executor.graph.nodes).1.1 = .error (.unresolvedShape node.op.name k) := congrArg (·.1.1) hall
  rw [hmapped]
  rfl

/-- An operator that has an evaluator is dispatched when the walk comes to it. -/
theorem exists_dispatches {before rest : List (Node (Evaluator σ))}
    (hcancel : q.world.cancelRequested q.executor.cancel = false)
    (hcheck : Executor.checkOperands q.executor.graph q.slots q.inputs = .ok ())
    (hnodes : q.executor.graph.nodes = before ++ node :: rest)
    (hwalk : (q.walk before).1.1 = .ok .completed)
    (hpending : (q.walk before).2.cancelRequested q.executor.cancel = false)
    (hoperator : node.isOperator = true) {ev : Evaluator σ}
    (hevaluator : q.executor.evaluatorOf node = .ok ev) :
    ∃ handed f w, (q.executor.prepare (q.executor.contextFor q.context) node).eval (q.walk before).1.2
        (q.executor.polled (q.walk before).2) = ((.ok handed, f), w) ∧
      q.Dispatches node f w handed := by
  have hwalked : q.walk before = ((.ok .completed, (q.walk before).1.2), (q.walk before).2) :=
    Prod.ext (Prod.ext hwalk rfl) rfl
  obtain ⟨inputs, hgathered⟩ := Executor.exists_gathered hcheck hnodes hwalked
  obtain ⟨error, _, _, _, hcause⟩ | ⟨handed, _, _, hprepared, _⟩ := Executor.exists_prepare
    (e := q.executor) (q.executor.contextFor q.context) node (q.walk before).1.2
    (q.executor.polled (q.walk before).2)
  · rcases hcause with hcause | hcause
    · rw [hgathered] at hcause
      cases hcause
    · rw [hevaluator] at hcause
      cases hcause
  · exact ⟨handed, _, _, hprepared, hcancel, hcheck, hnodes, hwalked, hpending, hoperator, hprepared⟩

/-- **Outputs.**  Whatever has happened before and whatever the evaluators do, an operator is handed an output
for each tensor that it produces, with the described type, and with the described shape if that is known; an
output of open shape has none, or is what the executor remembers from an earlier call.  The first output that is
left without a shape is reported. -/
theorem handed_as_described (hdispatches : q.Dispatches node f w handed) :
    List.Forall₂ (fun h t => ∃ desc, q.executor.graph.tensors[h]? = some desc ∧ q.Describes desc h t)
      node.outputs handed.outputs ∧
    ∀ produced after k t, (handed.apply node.toOperation).outcome w = (.ok produced, after) →
      produced[k]? = some t → t.hasShape = false →
      (∀ j < k, ∀ h t, (node.outputs.zip produced)[j]? = some (h, t) → q.executor.Takes h t) →
      q.outcome.1 = .error (.unresolvedShape node.op.name k) :=
  ⟨hdispatches.described, fun _ _ _ _ hproduced hk hunshaped hbefore =>
    hdispatches.unresolved hproduced hk hunshaped hbefore⟩

end Execution

/-! ### An operator that leaves its output as it was -/

namespace Execution

/-- Gives its output a shape unless the input starts with a zero. -/
def hesitate : Operation → List Tensor → List Tensor → Context → Run Unit (List Tensor)
  | _, [out], [x], _ => do
    if (← Run.elements x).head? = some 0 then
      return [out]
    let out ← Run.onStore (out.resize [2])
    return [out]
  | _, outputs, _, _ => return outputs

/-- The node of the operator. -/
def hesitantNode : Node (Evaluator Unit) :=
  ⟨⟨1, ⟨"Hesitate"⟩, none, [0], [1], none⟩, some (.ofFunction hesitate)⟩

/-- A graph around it, in which every shape is open. -/
def hesitant : Graph (Evaluator Unit) where
  tensors := List.replicate 3 ⟨.u8, [.dynamic]⟩
  nodes := [⟨⟨0, .parameter, none, [], [0], none⟩, none⟩, hesitantNode,
    ⟨⟨2, .result, none, [1], [2], none⟩, none⟩]
  numbered := rfl
  checked := rfl

/-- An executor for it, and the world in which it is created. -/
def hesitantCreated : Executor Unit × World Unit :=
  Executor.create hesitant .empty ⟨none, 1, true⟩ (.empty ())

/-- The world in which the caller has made an input, another one that starts with a zero, and an open slot. -/
def hesitantFilled : World Unit :=
  { hesitantCreated.2 with
    store := (((hesitantCreated.2.store.alloc #[1, 2]).2.alloc #[0, 2]).2.alloc #[]).2 }

/-- A call with one of the inputs. -/
def hesitantCall (input : BufferId) (w : World Unit) : Execution Unit :=
  ⟨hesitantCreated.1, [⟨.u8, none, ⟨2⟩⟩], [⟨.u8, some [2], input⟩], .empty, false, w⟩

/-- The world after a first call. -/
def hesitantCalled : World Unit := (hesitantCall ⟨0⟩ hesitantFilled).outcome.2

/-- What the operator is handed and gives back when the walk has passed the parameter. -/
def hesitantHanded (input : BufferId) (w : World Unit) : Except Error (List Tensor × List Tensor) :=
  let q := hesitantCall input w
  let start := q.walk (hesitant.nodes.take 1)
  match (q.executor.prepare (q.executor.contextFor q.context) hesitantNode).eval start.1.2
      (q.executor.polled start.2) with
  | ((.ok handed, _), w) =>
    ((handed.apply hesitantNode.toOperation).outcome w).1.map fun produced => (handed.outputs, produced)
  | ((.error error, _), _) => .error error

theorem exists_hesitantHanded {input : BufferId} {w : World Unit} {outputs produced : List Tensor}
    (hcancel : w.cancelRequested hesitantCreated.1.cancel = false)
    (hcheck : Executor.checkOperands hesitantCreated.1.graph [⟨.u8, none, ⟨2⟩⟩] [⟨.u8, some [2], input⟩] = .ok ())
    (hwalk : ((hesitantCall input w).walk (hesitant.nodes.take 1)).1.1 = .ok .completed)
    (hpending : ((hesitantCall input w).walk (hesitant.nodes.take 1)).2.cancelRequested
      hesitantCreated.1.cancel = false)
    (hhanded : hesitantHanded input w = .ok (outputs, produced)) :
    ∃ f w' handed after, (hesitantCall input w).Dispatches hesitantNode f w' handed ∧
      handed.outputs = outputs ∧
      (handed.apply hesitantNode.toOperation).outcome w' = (.ok produced, after) := by
  have hnodes : hesitant.nodes = hesitant.nodes.take 1 ++ hesitantNode :: hesitant.nodes.drop 2 := rfl
  have hevaluator : hesitantCreated.1.evaluatorOf hesitantNode = .ok (.ofFunction hesitate) := rfl
  obtain ⟨handed, f, w', hprepared, hdispatches⟩ := exists_dispatches (q := hesitantCall input w) hcancel hcheck
    hnodes hwalk hpending rfl hevaluator
  unfold hesitantHanded at hhanded
  simp only [hprepared] at hhanded
  rcases happly : (handed.apply hesitantNode.toOperation).outcome w' with ⟨error | made, after⟩
  · rw [happly] at hhanded
    cases hhanded
  · rw [happly] at hhanded
    obtain ⟨houtputs, hproduced⟩ := Prod.mk.inj (Except.ok.inj hhanded)
    exact ⟨f, w', handed, after, hdispatches, houtputs, hproduced ▸ happly⟩

/-- The output of the operator has no shape in a first call, and the call fails if it stays so. -/
theorem handed_as_described_hesitant : ∃ f w handed,
    (hesitantCall ⟨1⟩ hesitantFilled).Dispatches hesitantNode f w handed ∧
    (∃ t desc, handed.outputs = [t] ∧ (hesitantCall ⟨1⟩ hesitantFilled).Describes desc 1 t) ∧
    (hesitantCall ⟨1⟩ hesitantFilled).outcome.1 = .error (.unresolvedShape "Hesitate" 0) := by
  have hhanded : hesitantHanded ⟨1⟩ hesitantFilled = .ok ([⟨.u8, none, ⟨3⟩⟩], [⟨.u8, none, ⟨3⟩⟩]) := by
    decide +kernel
  obtain ⟨f, w, handed, after, hdispatches, houtputs, hproduced⟩ :=
    exists_hesitantHanded (by decide +kernel) (by decide +kernel) (by decide +kernel) (by decide +kernel) hhanded
  obtain ⟨hdescribed, hunresolved⟩ := handed_as_described hdispatches
  rw [houtputs] at hdescribed
  obtain ⟨desc, _, hdescribes⟩ := (List.forall₂_cons.mp hdescribed).1
  exact ⟨f, w, handed, hdispatches, ⟨_, desc, houtputs, hdescribes⟩,
    hunresolved _ _ 0 _ hproduced rfl rfl nofun⟩

/-- The second call of an executor hands the operator an output of open shape that has one, from the call
before.  The operator leaves it as it was, and the call completes. -/
theorem recalled_in_second_call :
    hesitantCreated.1.Reached hesitantCalled ∧ hesitant.tensors[1]? = some ⟨.u8, [.dynamic]⟩ ∧
    ∃ f w handed after, (hesitantCall ⟨1⟩ hesitantCalled).Dispatches hesitantNode f w handed ∧
      handed.outputs = [⟨.u8, some [2], ⟨4⟩⟩] ∧
      (handed.apply hesitantNode.toOperation).outcome w = (.ok handed.outputs, after) ∧
      (hesitantCall ⟨1⟩ hesitantCalled).outcome.1 = .ok (.completed, [⟨.u8, some [2], ⟨4⟩⟩]) := by
  have hcreated : hesitantCreated.1.Reached hesitantCreated.2 := .created (World.sound_empty ()) rfl
  have hsound := (Executor.sound_create (World.sound_empty ()) (e := hesitantCreated.1) rfl).1
  have hfirst := Executor.elsewhere_alloc (e := hesitantCreated.1) hsound #[1, 2]
  have hsecond := Executor.elsewhere_alloc (e := hesitantCreated.1) hfirst.sound #[0, 2]
  have hthird := Executor.elsewhere_alloc (e := hesitantCreated.1) hsecond.sound #[]
  have hfilled : hesitantCreated.1.Reached hesitantFilled :=
    ((hcreated.elsewhere hfirst).elsewhere hsecond).elsewhere hthird
  have hcalled : hesitantCreated.1.Reached hesitantCalled :=
    hfilled.called 3 (by decide +kernel) (by decide +kernel) .empty false
  have hhanded : hesitantHanded ⟨1⟩ hesitantCalled
      = .ok ([⟨.u8, some [2], ⟨4⟩⟩], [⟨.u8, some [2], ⟨4⟩⟩]) := by
    decide +kernel
  obtain ⟨f, w, handed, after, hdispatches, houtputs, hproduced⟩ :=
    exists_hesitantHanded (by decide +kernel) (by decide +kernel) (by decide +kernel) (by decide +kernel) hhanded
  rw [← houtputs] at hproduced
  exact ⟨hcalled, rfl, f, w, handed, after, hdispatches, houtputs, hproduced, by decide +kernel⟩

end Execution

end TensorGraph
