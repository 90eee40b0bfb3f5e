import TensorGraph.Proofs.Exits

/-! # What a call does, event by event

A walk over nodes does two things that its surroundings can see: it hands nodes to evaluators, and it
hands values to slots.  `Executor.events` lists them in order, each evaluator's with what it gave back and
the world that it left; `Executor.trace` is the list for a whole call.  The list is read off the run
itself: it follows `stepNode` from node to node, as the walk does, and the frame after the walk holds the
slots filled as the list says (`slots_events`). -/

namespace TensorGraph

variable {σ : Type}

/-- What an evaluator is called with. -/
structure Handed (σ : Type) where
  evaluator : Evaluator σ
  outputs : List Tensor
  inputs : List Tensor
  context : Context

/-- The call of the evaluator. -/
def Handed.apply (h : Handed σ) (operation : Operation) : Run σ (List Tensor) :=
  h.evaluator.apply operation h.outputs h.inputs h.context

/-- Something that a walk does to its surroundings. -/
inductive Event (σ : Type) where
  /-- A node was handed to its evaluator, which ended so and left this world. -/
  | dispatched (node : Nat) (outcome : Except Error (List Tensor)) (after : World σ)
  /-- A value was handed to the slot at a position. -/
  | delivered (position : Nat) (value : Tensor)

namespace Event

/-- The node that was handed to its evaluator. -/
def dispatchedNode? : Event σ → Option Nat
  | dispatched node _ _ => some node
  | delivered _ _ => none

/-- The slot that was handed a value. -/
def deliveredPosition? : Event σ → Option Nat
  | dispatched _ _ _ => none
  | delivered position _ => some position

/-- The slots after an event: a slot becomes the value itself unless it has its type and shape. -/
def fill (slots : List Tensor) : Event σ → List Tensor
  | dispatched _ _ _ => slots
  | delivered position value => slots.modify position fun slot =>
    if slot.shape.isNone ∨ slot.shape ≠ value.shape ∨ slot.dtype ≠ value.dtype then value else slot

end Event

namespace Executor

variable {e : Executor σ} {c : Context} {collect : Bool} {node : Node (Evaluator σ)}
  {nodes : List (Node (Evaluator σ))} {f f' : Frame} {w w' : World σ}

/-! ### Steps -/

/-- What comes before the evaluator of a node is called. -/
def prepare (e : Executor σ) (c : Context) (node : Node (Evaluator σ)) : Call σ (Handed σ) := do
  let inputs ← node.inputs.mapM bound
  let outputs ← node.outputs.foldlM (e.allocate c) []
  let evaluator ← e.evaluatorOf node
  modify fun frame => { frame with dispatched := node.id :: frame.dispatched }
  let frame ← get
  return ⟨evaluator, outputs, inputs, c.holding frame.held⟩

theorem evaluateNode_eq_prepare (c : Context) (collect : Bool) (node : Node (Evaluator σ)) :
    e.evaluateNode c collect node = (do
      let handed ← e.prepare c node
      let start := (← getThe (World σ)).clock
      let produced ← Call.ofRun (handed.apply node.toOperation)
      e.bindProduced collect node start produced) := by
  rw [evaluateNode_eq]
  simp only [prepare, bind_assoc, pure_bind, Handed.apply]

/-- What the preparation of a node hands to its evaluator: what it reads, and for each output a tensor in a
buffer of which neither the caller, the call nor the world holds anything.  Only new buffers are made. -/
structure Prepared (e : Executor σ) (c : Context) (node : Node (Evaluator σ)) (f : Frame) (w : World σ)
    (handed : Handed σ) (f' : Frame) (w' : World σ) : Prop where
  evaluator : e.evaluatorOf node = .ok handed.evaluator
  inputs : node.inputs.mapM f.bindings.get = .ok handed.inputs
  context : handed.context = c.holding f'.held
  within : w.store.Within (fun _ => False) w'.store
  length : (∀ h ∈ node.outputs, h < e.graph.tensors.length) → handed.outputs.length = node.outputs.length
  apart : ∀ u ∈ f.bindings.tensors ++ c.held ++ w.held, w.store.Allocated u.buffer →
    ∀ t ∈ handed.outputs, t.buffer ≠ u.buffer

/-- The preparation fails if an input is not bound or there is no evaluator. -/
theorem exists_prepare (c : Context) (node : Node (Evaluator σ)) (f : Frame) (w : World σ) :
    (∃ error kept store, (e.prepare c node).eval f w
      = ((.error error, { f with kept := kept }), { w with store := store }) ∧
        (node.inputs.mapM f.bindings.get = .error error ∨ e.evaluatorOf node = .error error)) ∨
    ∃ handed kept store, (e.prepare c node).eval f w
      = ((.ok handed, { f with kept := kept, dispatched := node.id :: f.dispatched }),
          { w with store := store }) ∧
        e.Prepared c node f w handed { f with kept := kept, dispatched := node.id :: f.dispatched }
          { w with store := store } := by
  unfold prepare
  rw [Call.eval_bind, eval_mapM_bound]
  cases hgathered : node.inputs.mapM f.bindings.get with
  | error error => exact .inl ⟨error, f.kept, w.store, rfl, .inl rfl⟩
  | ok inputs =>
      obtain ⟨outputs, kept, store, hallocated, hwithin, hlength, hapart⟩ :=
        exists_outputs (e := e) c node.outputs [] f w
      simp only [Call.eval_bind_ok hallocated]
      cases hresolved : e.evaluatorOf node with
      | error error => exact .inl ⟨error, kept, store, rfl, .inr rfl⟩
      | ok evaluator =>
          exact .inr ⟨_, kept, store, rfl, hresolved, hgathered, rfl, hwithin, hlength, hapart⟩

/-- What a walk does to its surroundings at a result. -/
def deliveryEvent (e : Executor σ) (node : Node (Evaluator σ)) (f : Frame) : Option (Event σ) :=
  match node.inputs.mapM f.bindings.get, e.graph.results.idxOf? node.id with
  | .ok (value :: _), some position =>
    if position < f.slots.length then some (.delivered position value) else none
  | _, _ => none

/-- What a walk does to its surroundings at a node. -/
def stepEvent (e : Executor σ) (c : Context) (node : Node (Evaluator σ)) (f : Frame) (w : World σ) :
    Option (Event σ) :=
  if w.cancelRequested e.cancel then none
  else if node.isParameter then none
  else if node.isResult then e.deliveryEvent node f
  else
    match (e.prepare c node).eval f (e.polled w) with
    | ((.ok handed, _), w') =>
      let (outcome, after) := (handed.apply node.toOperation).outcome w'
      some (.dispatched node.id outcome after)
    | ((.error _, _), _) => none

/-- What a step does to its surroundings, and how it ends. -/
inductive Visit (e : Executor σ) (c : Context) (collect : Bool) (node : Node (Evaluator σ)) (f : Frame)
    (w : World σ) : Option (Event σ) → Except Error Bool → Frame → World σ → Prop
  | cancelled (hcancel : w.cancelRequested e.cancel = true) :
    Visit e c collect node f w none (.ok true) f (e.polled w)
  | parameter (hcancel : w.cancelRequested e.cancel = false) (h : node.isParameter = true) :
    Visit e c collect node f w none (.ok false) f (e.polled w)
  | unread {error : Error} (hcancel : w.cancelRequested e.cancel = false) (h : node.isResult = true)
    (hgathered : node.inputs.mapM f.bindings.get = .error error) :
    Visit e c collect node f w none (.error error) f (e.polled w)
  | delivered {event : Option (Event σ)} {bindings : Bindings} {store : Store}
    (hcancel : w.cancelRequested e.cancel = false) (h : node.isResult = true)
    (hevent : ∀ ev ∈ event, ∃ position value, ev = .delivered position value) :
    Visit e c collect node f w event (.ok false)
      { f with bindings := bindings, slots := event.toList.foldl Event.fill f.slots }
      { e.polled w with store := store }
  | unprepared {error : Error} {kept : List (Option Tensor)} {store : Store}
    (hcancel : w.cancelRequested e.cancel = false) (h : node.isOperator = true)
    (hprepared : (e.prepare c node).eval f (e.polled w)
      = ((.error error, { f with kept := kept }), { e.polled w with store := store })) :
    Visit e c collect node f w none (.error error) { f with kept := kept }
      { e.polled w with store := store }
  | failed {handed : Handed σ} {error : Error} {f₁ : Frame} {w₁ w₂ : World σ}
    (hcancel : w.cancelRequested e.cancel = false) (h : node.isOperator = true)
    (hprepared : (e.prepare c node).eval f (e.polled w) = ((.ok handed, f₁), w₁))
    (houtcome : (handed.apply node.toOperation).outcome w₁ = (.error error, w₂)) :
    Visit e c collect node f w (some (.dispatched node.id (.error error) w₂)) (.error error) f₁ w₂
  | refused {handed : Handed σ} {produced : List Tensor} {error : Error} {f₁ : Frame}
    {bindings : Bindings} {memories : Table Memory} {w₁ w₂ : World σ}
    (hcancel : w.cancelRequested e.cancel = false) (h : node.isOperator = true)
    (hprepared : (e.prepare c node).eval f (e.polled w) = ((.ok handed, f₁), w₁))
    (houtcome : (handed.apply node.toOperation).outcome w₁ = (.ok produced, w₂))
    (hbound : (e.bindProduced collect node w₁.clock produced).eval f₁ w₂
      = ((.error error, { f₁ with bindings := bindings }), { w₂ with memories := memories }))
    (hrefused : error.RefusesOutput) :
    Visit e c collect node f w (some (.dispatched node.id (.ok produced) w₂)) (.error error)
      { f₁ with bindings := bindings } { w₂ with memories := memories }
  | evaluated {handed : Handed σ} {produced : List Tensor} {f₁ : Frame} {bindings : Bindings}
    {memories : Table Memory} {w₁ w₂ : World σ}
    (hcancel : w.cancelRequested e.cancel = false) (h : node.isOperator = true)
    (hprepared : (e.prepare c node).eval f (e.polled w) = ((.ok handed, f₁), w₁))
    (houtcome : (handed.apply node.toOperation).outcome w₁ = (.ok produced, w₂))
    (hbound : (e.bindProduced collect node w₁.clock produced).eval f₁ w₂
      = ((.ok (), { f₁ with bindings := bindings }), { w₂ with memories := memories })) :
    Visit e c collect node f w (some (.dispatched node.id (.ok produced) w₂))
      (.ok (w₂.cancelRequested e.cancel)) { f₁ with bindings := bindings }
      (e.polled { w₂ with memories := memories })

/-- A slot takes a value as the event says. -/
theorem eq_of_delivered {slot value slot' : Tensor}
    (h : (deliver slot value : Run σ Tensor).outcome w = (.ok slot', w')) :
    slot' = if slot.shape.isNone ∨ slot.shape ≠ value.shape ∨ slot.dtype ≠ value.dtype then value
      else slot := by
  rcases deliver_cases slot value w with ⟨hdiffers, houtcome⟩ | ⟨hknown, hshape, hdtype, s, -, houtcome⟩
  · rw [houtcome] at h
    cases h
    rw [if_pos hdiffers]
  · rw [houtcome] at h
    cases h
    rw [if_neg (not_or.mpr ⟨hknown, not_or.mpr ⟨not_not.mpr hshape, not_not.mpr hdtype⟩⟩)]

/-- A slot takes the type and the shape of what it is handed. -/
theorem described_of_delivered {slot value slot' : Tensor}
    (h : (deliver slot value : Run σ Tensor).outcome w = (.ok slot', w')) :
    slot'.dtype = value.dtype ∧ slot'.shape = value.shape := by
  rw [eq_of_delivered h]
  split
  · exact ⟨rfl, rfl⟩
  · rename_i hsame
    simp only [not_or, not_not] at hsame
    exact ⟨hsame.2.2, hsame.2.1⟩

theorem delivered_deliveryEvent {ev : Event σ} (h : ev ∈ e.deliveryEvent node f) :
    ∃ position value, ev = .delivered position value := by
  unfold deliveryEvent at h
  split at h
  · split at h
    · exact ⟨_, _, (Option.mem_some.mp h).symm⟩
    · cases h
  · cases h

/-- A result that can be read fills its slot, and is bound. -/
theorem exists_delivery {inputs : List Tensor} (f : Frame) (w : World σ)
    (hgathered : node.inputs.mapM f.bindings.get = .ok inputs) :
    ∃ bindings store, (e.deliverNode node).eval f w = ((.ok (),
      { f with bindings := bindings, slots := (e.deliveryEvent node f).toList.foldl Event.fill f.slots }),
      { w with store := store }) := by
  unfold deliverNode deliveryEvent
  rw [Call.eval_bind, eval_mapM_bound, hgathered]
  cases inputs with
  | nil => exact ⟨f.bindings, w.store, rfl⟩
  | cons value inputs =>
      cases e.graph.results.idxOf? node.id with
      | none =>
          obtain ⟨bindings, heval⟩ := exists_bindings_all node.outputs value f w
          exact ⟨bindings, w.store, heval⟩
      | some position =>
          by_cases hposition : position < f.slots.length
          · obtain ⟨slot', store, houtcome⟩ := exists_delivered f.slots[position] value w
            obtain ⟨bindings, heval⟩ := exists_bindings_all node.outputs value
              { f with slots := f.slots.set position slot' } { w with store := store }
            refine ⟨bindings, store, ?_⟩
            have hfill : f.slots.set position slot'
                = Event.fill f.slots (.delivered position value : Event σ) := by
              rw [eq_of_delivered houtcome, Event.fill, List.modify_eq_set_getElem? _ _,
                List.getElem?_eq_getElem hposition]
              rfl
            simp only [Call.eval_bind, Call.eval_get, List.getElem?_eq_getElem hposition,
              Call.eval_ofRun, houtcome, Call.eval_modify, if_pos hposition, Option.toList_some,
              List.foldl_cons, List.foldl_nil, ← hfill]
            exact heval
          · obtain ⟨bindings, heval⟩ := exists_bindings_all node.outputs value f w
            refine ⟨bindings, w.store, ?_⟩
            simp only [Call.eval_bind, Call.eval_get, List.getElem?_eq_none (Nat.not_lt.mp hposition),
              if_neg hposition]
            exact heval

/-- A step at a result cannot read it, or delivers it. -/
theorem visit_result {r : Except Error Bool} (hcancel : w.cancelRequested e.cancel = false)
    (hresult : node.isResult = true)
    (h : (do e.deliverNode node; return false : Call σ Bool).eval f (e.polled w) = ((r, f'), w')) :
    e.Visit c collect node f w (e.deliveryEvent node f) r f' w' := by
  rw [Call.eval_bind] at h
  rcases hgathered : node.inputs.mapM f.bindings.get with error | inputs
  · have hunread : (e.deliverNode node).eval f (e.polled w) = ((.error error, f), e.polled w) := by
      unfold deliverNode
      rw [Call.eval_bind, eval_mapM_bound, hgathered]
    rw [hunread] at h
    cases h
    unfold deliveryEvent
    rw [hgathered]
    exact .unread hcancel hresult hgathered
  · obtain ⟨bindings, store, hdelivery⟩ := exists_delivery f (e.polled w) hgathered
    rw [hdelivery] at h
    cases h
    exact .delivered hcancel hresult fun _ => delivered_deliveryEvent

/-- A step at an operator fails before its evaluator is called, or in it, or after it, or goes on. -/
theorem visit_operator {r : Except Error Bool} (hcancel : w.cancelRequested e.cancel = false)
    (hparameter : node.isParameter = false) (hresult : node.isResult = false)
    (h : (do e.evaluateNode c collect node; e.takeCancel : Call σ Bool).eval f (e.polled w) = ((r, f'), w')) :
    e.Visit c collect node f w (e.stepEvent c node f w) r f' w' := by
  have hoperator : node.isOperator = true := by
    simp [Node.isOperator, hparameter, hresult]
  unfold stepEvent
  simp only [hcancel, hparameter, hresult, Bool.false_eq_true, if_false]
  rw [evaluateNode_eq_prepare, bind_assoc] at h
  obtain ⟨error, kept, store, hprepared, _⟩ | ⟨handed, kept, store, hprepared, _⟩ :=
    exists_prepare (e := e) c node f (e.polled w)
  · rw [Call.eval_bind, hprepared] at h
    rw [hprepared]
    cases h
    exact .unprepared hcancel hoperator hprepared
  · simp only [bind_assoc] at h
    rw [Call.eval_bind_ok hprepared, Call.eval_bind_ok (Call.eval_getWorld _ _), Call.eval_bind,
      Call.eval_ofRun] at h
    rw [hprepared]
    rcases houtcome : (handed.apply node.toOperation).outcome { e.polled w with store := store }
      with ⟨error | produced, w₂⟩
    · rw [houtcome] at h
      simp only [houtcome]
      cases h
      exact .failed hcancel hoperator hprepared houtcome
    · rw [houtcome] at h
      simp only [houtcome]
      obtain ⟨r', bindings, memories, hbound, hrefused⟩ := exists_bindings_produced (e := e) collect node
        (e.polled w).clock produced { f with kept := kept, dispatched := node.id :: f.dispatched } w₂
      simp only [Call.eval_bind, hbound] at h
      cases r' with
      | error error =>
          cases h
          exact .refused hcancel hoperator hprepared houtcome hbound (hrefused error rfl)
      | ok =>
          simp only [eval_takeCancel_eq] at h
          cases h
          exact .evaluated hcancel hoperator hprepared houtcome hbound

/-- Every step is one of the listed kinds, with its event. -/
theorem visit_stepNode {r : Except Error Bool}
    (h : (e.stepNode c collect node).eval f w = ((r, f'), w')) :
    e.Visit c collect node f w (e.stepEvent c node f w) r f' w' := by
  unfold stepNode at h
  rw [Call.eval_bind, eval_takeCancel_eq] at h
  cases hcancel : w.cancelRequested e.cancel with
  | true =>
      rw [hcancel] at h
      cases h
      rw [stepEvent, if_pos hcancel]
      exact .cancelled hcancel
  | false =>
      simp only [hcancel, Bool.false_eq_true, if_false] at h
      cases hparameter : node.isParameter with
      | true =>
          rw [hparameter] at h
          cases h
          rw [stepEvent, hcancel, if_neg Bool.false_ne_true, if_pos hparameter]
          exact .parameter hcancel hparameter
      | false =>
          simp only [hparameter, Bool.false_eq_true, if_false] at h
          cases hresult : node.isResult with
          | true =>
              simp only [hresult, if_true] at h
              rw [stepEvent, hcancel, hparameter, if_neg Bool.false_ne_true, if_neg Bool.false_ne_true,
                if_pos hresult]
              exact visit_result hcancel hresult h
          | false =>
              simp only [hresult, Bool.false_eq_true, if_false] at h
              exact visit_operator hcancel hparameter hresult h

theorem prepared_of_prepare {handed : Handed σ}
    (h : (e.prepare c node).eval f w = ((.ok handed, f'), w')) : e.Prepared c node f w handed f' w' := by
  obtain ⟨error, kept, store, hprepared, _⟩ | ⟨handed', kept, store, heval, hprepared⟩ :=
    exists_prepare (e := e) c node f w
  · rw [h] at hprepared
    cases hprepared
  · rw [h] at heval
    cases heval
    exact hprepared

/-- A preparation that succeeds enters the node, and changes nothing else but what is kept and buffers. -/
theorem frame_of_prepare {handed : Handed σ} (h : (e.prepare c node).eval f w = ((.ok handed, f'), w')) :
    ∃ kept store, f' = { f with kept := kept, dispatched := node.id :: f.dispatched } ∧
      w' = { w with store := store } := by
  obtain ⟨error, kept, store, hprepared, _⟩ | ⟨handed', kept, store, hprepared, _⟩ :=
    exists_prepare (e := e) c node f w
  · rw [h] at hprepared
    cases hprepared
  · rw [h] at hprepared
    cases hprepared
    exact ⟨kept, store, rfl, rfl⟩

theorem Visit.slots {event : Option (Event σ)} {r : Except Error Bool}
    (h : e.Visit c collect node f w event r f' w') :
    f'.slots = event.toList.foldl Event.fill f.slots := by
  cases h with
  | cancelled hcancel => rfl
  | parameter hcancel hparameter => rfl
  | unread hcancel hresult hgathered => rfl
  | delivered hcancel hresult hevent => rfl
  | unprepared hcancel hoperator hprepared => rfl
  | failed hcancel hoperator hprepared houtcome =>
      obtain ⟨kept, store, rfl, _⟩ := frame_of_prepare hprepared
      rfl
  | refused hcancel hoperator hprepared houtcome hbound hrefused =>
      obtain ⟨kept, store, rfl, _⟩ := frame_of_prepare hprepared
      rfl
  | evaluated hcancel hoperator hprepared houtcome hbound =>
      obtain ⟨kept, store, rfl, _⟩ := frame_of_prepare hprepared
      rfl

/-! ### Walks -/

/-- What a walk over some nodes does to its surroundings. -/
def events (e : Executor σ) (c : Context) (collect : Bool) :
    List (Node (Evaluator σ)) → Frame → World σ → List (Event σ)
  | [], _, _ => []
  | node :: rest, f, w =>
    (e.stepEvent c node f w).toList ++
      match (e.stepNode c collect node).eval f w with
      | ((.ok false, f'), w') => events e c collect rest f' w'
      | _ => []

/-- A walk over a node and others either goes on after the node, or ends with it. -/
theorem walk_cases (c : Context) (collect : Bool) (node : Node (Evaluator σ))
    (rest : List (Node (Evaluator σ))) (f : Frame) (w : World σ) :
    (∃ f' w', (e.stepNode c collect node).eval f w = ((.ok false, f'), w') ∧
      (e.runNodes c collect (node :: rest)).eval f w = (e.runNodes c collect rest).eval f' w' ∧
      e.events c collect (node :: rest) f w
        = (e.stepEvent c node f w).toList ++ e.events c collect rest f' w') ∨
    (∃ r f' w', (e.stepNode c collect node).eval f w = ((r, f'), w') ∧ r ≠ .ok false ∧
      (e.runNodes c collect (node :: rest)).eval f w = ((r.map fun _ => .cancelled, f'), w') ∧
      e.events c collect (node :: rest) f w = (e.stepEvent c node f w).toList) := by
  rw [eval_runNodes_cons, events]
  rcases hstep : (e.stepNode c collect node).eval f w with ⟨⟨error | _ | _, f'⟩, w'⟩
  · exact .inr ⟨.error error, f', w', rfl, nofun, rfl, List.append_nil _⟩
  · exact .inl ⟨f', w', rfl, rfl, rfl⟩
  · exact .inr ⟨.ok true, f', w', rfl, by simp, rfl, List.append_nil _⟩

/-- The slots are filled as the events say. -/
theorem slots_events (c : Context) (collect : Bool) (nodes : List (Node (Evaluator σ))) (f : Frame)
    (w : World σ) : ((e.runNodes c collect nodes).eval f w).1.2.slots
      = (e.events c collect nodes f w).foldl Event.fill f.slots := by
  induction nodes generalizing f w with
  | nil => rfl
  | cons node nodes ih =>
      obtain ⟨f', w', hstep, hrun, hevents⟩ | ⟨r, f', w', hstep, _, hrun, hevents⟩ :=
        walk_cases (e := e) c collect node nodes f w
      · rw [hrun, hevents, ih, (visit_stepNode hstep).slots, List.foldl_append]
      · rw [hrun, hevents]
        exact (visit_stepNode hstep).slots

/-- A walk that completes has completed the nodes before the last one, and then passed that. -/
theorem exists_last_step (h : (e.runNodes c collect (nodes ++ [node])).eval f w
      = ((.ok .completed, f'), w')) :
    ∃ f₁ w₁, (e.runNodes c collect nodes).eval f w = ((.ok .completed, f₁), w₁) ∧
      (e.stepNode c collect node).eval f₁ w₁ = ((.ok false, f'), w') := by
  induction nodes generalizing f w with
  | nil =>
      rw [List.nil_append, eval_runNodes_cons] at h
      rcases hstep : (e.stepNode c collect node).eval f w with ⟨⟨error | _ | _, f₁⟩, w₁⟩
      · rw [hstep] at h
        cases h
      · rw [hstep] at h
        cases h
        exact ⟨f, w, rfl, hstep⟩
      · rw [hstep] at h
        cases h
  | cons first nodes ih =>
      rw [List.cons_append, eval_runNodes_cons] at h
      rcases hstep : (e.stepNode c collect first).eval f w with ⟨⟨error | _ | _, f₁⟩, w₁⟩
      · rw [hstep] at h
        cases h
      · rw [hstep] at h
        obtain ⟨f₂, w₂, hrun, hlast⟩ := ih h
        refine ⟨f₂, w₂, ?_, hlast⟩
        rw [eval_runNodes_cons, hstep]
        exact hrun
      · rw [hstep] at h
        cases h

/-- A walk that fails has completed the nodes before one at which it fails, and the events are those of the
nodes before and of that step. -/
theorem exists_failing_event {error : Error}
    (h : (e.runNodes c collect nodes).eval f w = ((.error error, f'), w')) :
    ∃ before node rest f₁ w₁, nodes = before ++ node :: rest ∧
      (e.runNodes c collect before).eval f w = ((.ok .completed, f₁), w₁) ∧
      (e.stepNode c collect node).eval f₁ w₁ = ((.error error, f'), w') ∧
      e.events c collect nodes f w
        = e.events c collect before f w ++ (e.stepEvent c node f₁ w₁).toList := by
  induction nodes generalizing f w with
  | nil => cases h
  | cons node nodes ih =>
      obtain ⟨f₁, w₁, hstep, hrun, hevents⟩ | ⟨r, f₁, w₁, hstep, hr, hrun, hevents⟩ :=
        walk_cases (e := e) c collect node nodes f w
      · rw [hrun] at h
        obtain ⟨before, failing, rest, f₂, w₂, rfl, hbefore, hfails, hrest⟩ := ih h
        have hcons : (e.runNodes c collect (node :: before)).eval f w = ((.ok .completed, f₂), w₂) := by
          rw [eval_runNodes_cons, hstep]
          exact hbefore
        refine ⟨node :: before, failing, rest, f₂, w₂, rfl, hcons, hfails, ?_⟩
        rw [hevents, hrest, events, hstep, List.append_assoc]
      · rw [hrun] at h
        cases r with
        | ok obeyed => cases h
        | error error =>
            cases h
            exact ⟨[], node, nodes, f, w, rfl, rfl, hstep, hevents⟩

/-! ### Calls -/

/-- What a call does to its surroundings: nothing if a request to cancel is pending or the operands are
refused, and otherwise what its walk over the nodes does. -/
def trace (e : Executor σ) (slots inputs : List Tensor) (c : Context) (collect : Bool) (w : World σ) :
    List (Event σ) :=
  if w.cancelRequested e.cancel then []
  else match checkOperands e.graph slots inputs with
    | .error _ => []
    | .ok () =>
      let started := e.startedWorld inputs c w
      e.events (e.contextFor c) collect e.graph.nodes (e.openedFrame slots inputs started)
        (e.openedWorld started)

variable {slots inputs : List Tensor}

/-- A call that finds a request takes it back, and does nothing else. -/
theorem outcome_execute_pending (hcancel : w.cancelRequested e.cancel = true) :
    (e.execute slots inputs c collect).outcome w = (.ok (.cancelled, slots), e.polled w) :=
  outcome_executeNodes_pending hcancel e.graph.nodes slots inputs c collect

theorem outcome_execute_rejected {error : Error} (hcancel : w.cancelRequested e.cancel = false)
    (hcheck : checkOperands e.graph slots inputs = .error error) :
    (e.execute slots inputs c collect).outcome w = (.error error, e.polled w) :=
  outcome_executeNodes_rejected hcancel hcheck e.graph.nodes c collect

/-- Any other call ends as its walk over the nodes does, and remembers intermediates. -/
theorem outcome_execute_walked (c : Context) (collect : Bool)
    (hcancel : w.cancelRequested e.cancel = false)
    (hcheck : checkOperands e.graph slots inputs = .ok ()) :
    ∃ memories, (e.execute slots inputs c collect).outcome w
      = ((e.walk slots inputs c collect w e.graph.nodes).1.1.map
          (·, (e.walk slots inputs c collect w e.graph.nodes).1.2.slots),
        { (e.walk slots inputs c collect w e.graph.nodes).2 with memories := memories }) := by
  rcases hwalk : e.walk slots inputs c collect w e.graph.nodes with ⟨⟨o, f⟩, w₁⟩
  obtain ⟨memories, hclosed⟩ := exists_closed (e := e) f w₁
  exact ⟨memories, by rw [execute_eq, outcome_executeNodes_walk hcancel hcheck hwalk, hclosed]⟩

theorem status_of_map {o : Except Error Status} {status : Status} {slots slots' : List Tensor}
    (h : o.map (·, slots) = .ok (status, slots')) : o = .ok status := by
  cases o with
  | error error => cases h
  | ok status' =>
      cases h
      rfl

/-- A call that completes has found no request to cancel and accepted its operands, and its walk has passed all
nodes. -/
theorem exists_walk_of_completed {slots' : List Tensor}
    (h : ((e.execute slots inputs c collect).outcome w).1 = .ok (.completed, slots')) :
    w.cancelRequested e.cancel = false ∧ checkOperands e.graph slots inputs = .ok () ∧
      ∃ f w', e.walk slots inputs c collect w e.graph.nodes = ((.ok .completed, f), w') ∧ f.slots = slots' := by
  cases hcancel : w.cancelRequested e.cancel with
  | true =>
      rw [outcome_execute_pending hcancel] at h
      cases h
  | false =>
      cases hcheck : checkOperands e.graph slots inputs with
      | error error =>
          rw [outcome_execute_rejected hcancel hcheck] at h
          cases h
      | ok _ =>
          obtain ⟨memories, houtcome⟩ := outcome_execute_walked c collect hcancel hcheck
          rw [houtcome] at h
          rcases hwalk : e.walk slots inputs c collect w e.graph.nodes with ⟨⟨result, f⟩, w'⟩
          rw [hwalk] at h
          have hcompleted : result = .ok .completed := status_of_map h
          subst hcompleted
          exact ⟨rfl, rfl, f, w', rfl, (Prod.mk.inj (Except.ok.inj h)).2⟩

theorem trace_walked (hcancel : w.cancelRequested e.cancel = false)
    (hcheck : checkOperands e.graph slots inputs = .ok ()) :
    e.trace slots inputs c collect w = e.events (e.contextFor c) collect e.graph.nodes
      (e.openedFrame slots inputs (e.startedWorld inputs c w))
      (e.openedWorld (e.startedWorld inputs c w)) := by
  rw [trace, hcancel, if_neg Bool.false_ne_true, hcheck]

end Executor

end TensorGraph
