import TensorGraph.Proofs.Stepping

/-! # How calls fail

A call that fails has walked over some of its nodes and fails at the next one (`exists_failing_step`), which
is a result that cannot be read or an operator.  `Evaluation` lists how the evaluation of an operator ends:
an input is not bound, there is no evaluator, the evaluator fails, an output is refused, or all outputs are
bound.  What is done around the evaluator changes the frame and the buffers, and nothing else of the
world.

Errors of the configuration class are raised in three places only: by the check of the operands, before
anything is done, by an operator for which there is no evaluator, and by the evaluators themselves.  The
last two come in the middle of a walk, when the operators before have been evaluated
(`configuration_error`). -/

namespace TensorGraph

variable {σ : Type}

/-- Whether a node is handed to an evaluator. -/
def Node.isOperator {ε : Type} (n : Node ε) : Bool := !n.isParameter && !n.isResult

/-- An output has no shape, or another element type than its description. -/
def Error.RefusesOutput (error : Error) : Prop :=
  (∃ operator output, error = .unresolvedShape operator output) ∨
    ∃ expected got, error = .dtypeMismatch expected got

theorem Error.RefusesOutput.isConfiguration {error : Error} (h : error.RefusesOutput) :
    error.isConfiguration = false := by
  rcases h with ⟨_, _, rfl⟩ | ⟨_, _, rfl⟩ <;> rfl

/-- Only what was not bound cannot be read. -/
theorem Bindings.get_eq_error {b : Bindings} {h : Handle} {error : Error} (heq : b.get h = .error error) :
    error = .unboundTensor h.describe := by
  unfold Bindings.get at heq
  split at heq
  · cases heq
  · exact (Except.error.inj heq).symm

theorem Bindings.eq_unboundTensor {b : Bindings} {hs : List Handle} {error : Error}
    (h : hs.mapM b.get = .error error) : ∃ tensor, error = .unboundTensor tensor := by
  induction hs with
  | nil => cases h
  | cons k hs ih =>
      rw [List.mapM_cons] at h
      rcases hget : b.get k with error' | t
      · rw [hget] at h
        cases h
        exact ⟨_, Bindings.get_eq_error hget⟩
      · rcases hrest : hs.mapM b.get with error' | ts
        · rw [hget, hrest] at h
          cases h
          exact ih hrest
        · rw [hget, hrest] at h
          cases h

namespace Executor

variable {e : Executor σ}

/-! ### Evaluations -/

/-- A call of the evaluator of a node: how it was found, what it is handed, and the buffers that there are
then. -/
structure Dispatch (e : Executor σ) (node : Node (Evaluator σ)) (f : Frame) (w : World σ) where
  evaluator : Evaluator σ
  resolved : e.evaluatorOf node = .ok evaluator
  inputs : List Tensor
  gathered : node.inputs.mapM f.bindings.get = .ok inputs
  outputs : List Tensor
  context : Context
  store : Store

/-- What an evaluator gives back, and the world after it. -/
def Dispatch.outcome {node : Node (Evaluator σ)} {f : Frame} {w : World σ} (d : e.Dispatch node f w) :
    Except Error (List Tensor) × World σ :=
  (d.evaluator.apply node.toOperation d.outputs d.inputs d.context).outcome { w with store := d.store }

/-- How the evaluation of an operator may end. -/
inductive Evaluation (e : Executor σ) (node : Node (Evaluator σ)) (f : Frame) (w : World σ) :
    Except Error Unit → Frame → World σ → Prop
  | unbound {error : Error} (h : node.inputs.mapM f.bindings.get = .error error) :
    Evaluation e node f w (.error error) f w
  | missing {error : Error} {kept : List (Option Tensor)} {store : Store}
    (h : e.evaluatorOf node = .error error) :
    Evaluation e node f w (.error error) { f with kept := kept } { w with store := store }
  | failed {error : Error} {kept : List (Option Tensor)} {w' : World σ} (d : e.Dispatch node f w)
    (h : d.outcome = (.error error, w')) :
    Evaluation e node f w (.error error)
      { f with kept := kept, dispatched := node.id :: f.dispatched } w'
  | refused {error : Error} {kept : List (Option Tensor)} {bindings : Bindings} {produced : List Tensor}
    {w' : World σ} {memories : Table Memory} (d : e.Dispatch node f w)
    (h : d.outcome = (.ok produced, w')) (hrefused : error.RefusesOutput) :
    Evaluation e node f w (.error error)
      { f with bindings := bindings, kept := kept, dispatched := node.id :: f.dispatched }
      { w' with memories := memories }
  | bound {kept : List (Option Tensor)} {bindings : Bindings} {produced : List Tensor} {w' : World σ}
    {memories : Table Memory} (d : e.Dispatch node f w) (h : d.outcome = (.ok produced, w')) :
    Evaluation e node f w (.ok ())
      { f with bindings := bindings, kept := kept, dispatched := node.id :: f.dispatched }
      { w' with memories := memories }

/-- Binding an output changes bindings only, and fails only by refusing it. -/
theorem exists_bindings_output (node : Node (Evaluator σ)) (entry : (Handle × Tensor) × Nat) (f : Frame)
    (w : World σ) : ∃ r bindings, (e.bindOutput node entry).eval f w
        = ((r, { f with bindings := bindings }), w) ∧ ∀ error, r = .error error → error.RefusesOutput := by
  obtain ⟨⟨h, t⟩, position⟩ := entry
  rcases eval_bindOutput_cases (e := e) node h t position f w with ⟨-, heval⟩ | ⟨-, _, -, -, heval⟩ | ⟨-, -, heval⟩
  · exact ⟨_, f.bindings, heval, fun _ herror => .inl ⟨_, _, (Except.error.inj herror).symm⟩⟩
  · exact ⟨_, f.bindings, heval, fun _ herror => .inr ⟨_, _, (Except.error.inj herror).symm⟩⟩
  · exact ⟨.ok (), f.bindings.bind h t, heval, nofun⟩

theorem exists_bindings_outputs (node : Node (Evaluator σ)) (entries : List ((Handle × Tensor) × Nat))
    (f : Frame) (w : World σ) : ∃ r bindings, (entries.forM (e.bindOutput node)).eval f w
        = ((r, { f with bindings := bindings }), w) ∧ ∀ error, r = .error error → error.RefusesOutput := by
  induction entries generalizing f with
  | nil => exact ⟨.ok (), f.bindings, rfl, nofun⟩
  | cons entry entries ih =>
      have hforM : (entry :: entries).forM (e.bindOutput node)
          = (e.bindOutput node entry >>= fun _ => entries.forM (e.bindOutput node)) := rfl
      obtain ⟨r, bindings, heval, hrefused⟩ := exists_bindings_output (e := e) node entry f w
      rw [hforM, Call.eval_bind, heval]
      cases r with
      | error error =>
          exact ⟨.error error, bindings, rfl, fun _ herror => hrefused _ herror⟩
      | ok => exact ih { f with bindings := bindings }

/-- Recording a time changes statistics only. -/
theorem exists_bindings_produced (collect : Bool) (node : Node (Evaluator σ)) (start : Nat)
    (produced : List Tensor) (f : Frame) (w : World σ) : ∃ r bindings memories,
      (e.bindProduced collect node start produced).eval f w
        = ((r, { f with bindings := bindings }), { w with memories := memories }) ∧
      ∀ error, r = .error error → error.RefusesOutput := by
  cases collect with
  | false =>
      obtain ⟨r, bindings, heval, hrefused⟩ :=
        exists_bindings_outputs (e := e) node (node.outputs.zip produced).zipIdx f w
      exact ⟨r, bindings, w.memories, heval, hrefused⟩
  | true =>
      let w' := ((Run.modifyMemory e.memory fun m => { m with
        statistics := m.statistics.record node.toOperation (w.clock - start) }).outcome w).2
      obtain ⟨r, bindings, heval, hrefused⟩ :=
        exists_bindings_outputs (e := e) node (node.outputs.zip produced).zipIdx f w'
      exact ⟨r, bindings, w'.memories, heval, hrefused⟩

/-- The evaluation of an operator ends in one of the listed ways. -/
theorem evaluation_evaluateNode (c : Context) (collect : Bool) {node : Node (Evaluator σ)}
    {f f' : Frame} {w w' : World σ} {r : Except Error Unit}
    (h : (e.evaluateNode c collect node).eval f w = ((r, f'), w')) : e.Evaluation node f w r f' w' := by
  rw [evaluateNode_eq, Call.eval_bind, eval_mapM_bound] at h
  rcases hgathered : node.inputs.mapM f.bindings.get with error | inputs
  · rw [hgathered] at h
    cases h
    exact .unbound hgathered
  · rw [hgathered] at h
    obtain ⟨outputs, kept, store, hallocated, _⟩ := exists_outputs (e := e) c node.outputs [] f w
    rw [List.nil_append] at hallocated
    simp only [Call.eval_bind_ok hallocated] at h
    rcases hresolved : e.evaluatorOf node with error | evaluator
    · rw [hresolved] at h
      cases h
      exact .missing hresolved
    · rw [hresolved] at h
      let d : e.Dispatch node f w :=
        ⟨evaluator, hresolved, inputs, hgathered, outputs,
          c.holding (Frame.held { f with kept := kept, dispatched := node.id :: f.dispatched }), store⟩
      simp only [Call.eval_bind_ok (Call.eval_lift _ _ _), Call.eval_bind_ok (Call.eval_modify _ _ _),
        Call.eval_bind_ok (Call.eval_get _ _), Call.eval_bind_ok (Call.eval_getWorld _ _)] at h
      rw [Call.eval_bind, Call.eval_ofRun] at h
      rcases houtcome : d.outcome with ⟨error | produced, w₁⟩
      · have hcall : (evaluator.apply node.toOperation outputs inputs d.context).outcome
            { w with store := store } = (.error error, w₁) := houtcome
        rw [hcall] at h
        cases h
        exact .failed d houtcome
      · have hcall : (evaluator.apply node.toOperation outputs inputs d.context).outcome
            { w with store := store } = (.ok produced, w₁) := houtcome
        rw [hcall] at h
        obtain ⟨r', bindings, memories, hbind, hrefused⟩ :=
          exists_bindings_produced (e := e) collect node w.clock produced
            { f with kept := kept, dispatched := node.id :: f.dispatched } w₁
        simp only [hbind] at h
        cases h
        cases r with
        | error error => exact .refused d houtcome (hrefused error rfl)
        | ok => exact .bound d houtcome

/-! ### Deliveries -/

/-- Handing a value to a slot never fails, since it copies only into a slot that takes it. -/
theorem exists_delivered (slot value : Tensor) (w : World σ) : ∃ slot' store,
    (deliver slot value : Run σ Tensor).outcome w = (.ok slot', { w with store := store }) := by
  rcases deliver_cases slot value w with ⟨-, houtcome⟩ | ⟨-, -, -, s, -, houtcome⟩
  · exact ⟨value, w.store, houtcome⟩
  · exact ⟨slot, s, houtcome⟩

theorem exists_bindings_all (hs : List Handle) (value : Tensor) (f : Frame) (w : World σ) : ∃ bindings,
    (hs.forM fun h => (modify fun frame => { frame with bindings := frame.bindings.bind h value } :
      Call σ Unit)).eval f w = ((.ok (), { f with bindings := bindings }), w) := by
  induction hs generalizing f with
  | nil => exact ⟨f.bindings, rfl⟩
  | cons h hs ih => exact ih { f with bindings := f.bindings.bind h value }

/-- A result fails only if it cannot be read, and otherwise changes bindings, slots and buffers. -/
theorem delivery_deliverNode (node : Node (Evaluator σ)) (f : Frame) (w : World σ) :
    (∃ error, node.inputs.mapM f.bindings.get = .error error ∧
      (e.deliverNode node).eval f w = ((.error error, f), w)) ∨
    ∃ bindings slots store, (e.deliverNode node).eval f w
      = ((.ok (), { f with bindings := bindings, slots := slots }), { w with store := store }) := by
  unfold deliverNode
  rw [Call.eval_bind, eval_mapM_bound]
  rcases hgathered : node.inputs.mapM f.bindings.get with error | _ | ⟨value, _⟩
  · exact .inl ⟨error, rfl, rfl⟩
  · exact .inr ⟨f.bindings, f.slots, w.store, rfl⟩
  · right
    cases hposition : e.graph.results.idxOf? node.id with
    | none =>
        obtain ⟨bindings, heval⟩ := exists_bindings_all node.outputs value f w
        exact ⟨bindings, f.slots, w.store, heval⟩
    | some position =>
        cases hslot : f.slots[position]? with
        | none =>
            obtain ⟨bindings, heval⟩ := exists_bindings_all node.outputs value f w
            refine ⟨bindings, f.slots, w.store, ?_⟩
            simp only [Call.eval_bind, Call.eval_get, hslot]
            exact heval
        | some slot =>
            obtain ⟨slot', store, houtcome⟩ := exists_delivered slot value w
            obtain ⟨bindings, heval⟩ := exists_bindings_all node.outputs value
              { f with slots := f.slots.set position slot' } { w with store := store }
            refine ⟨bindings, f.slots.set position slot', store, ?_⟩
            simp only [Call.eval_bind, Call.eval_get, hslot, Call.eval_ofRun, houtcome, Call.eval_modify]
            exact heval

/-! ### Steps -/

/-- The world after a look for a request to cancel, which is then gone. -/
def polled (e : Executor σ) (w : World σ) : World σ := ((Run.takeCancel e.cancel).outcome w).2

/-- What a walk does at a node; tells whether a request to cancel was obeyed. -/
def stepNode (e : Executor σ) (c : Context) (collect : Bool) (node : Node (Evaluator σ)) :
    Call σ Bool := do
  if ← e.takeCancel then
    return true
  if node.isParameter then
    return false
  else if node.isResult then
    e.deliverNode node
    return false
  else
    e.evaluateNode c collect node
    e.takeCancel

/-- How a step may end. -/
inductive Step (e : Executor σ) (node : Node (Evaluator σ)) (f : Frame) (w : World σ) :
    Except Error Bool → Frame → World σ → Prop
  | cancelled : Step e node f w (.ok true) f (e.polled w)
  | parameter (h : node.isOperator = false) : Step e node f w (.ok false) f (e.polled w)
  | unread {error : Error} (h : node.inputs.mapM f.bindings.get = .error error) :
    Step e node f w (.error error) f (e.polled w)
  | delivered {bindings : Bindings} {slots : List Tensor} {store : Store}
    (h : node.isOperator = false) :
    Step e node f w (.ok false) { f with bindings := bindings, slots := slots }
      { e.polled w with store := store }
  | failed {error : Error} {f' : Frame} {w' : World σ} (h : node.isOperator = true)
    (heval : e.Evaluation node f (e.polled w) (.error error) f' w') :
    Step e node f w (.error error) f' w'
  | evaluated {f' : Frame} {w' : World σ} (h : node.isOperator = true)
    (heval : e.Evaluation node f (e.polled w) (.ok ()) f' w') :
    Step e node f w (.ok (w'.cancelRequested e.cancel)) f' (e.polled w')

variable {c : Context} {collect : Bool} {node : Node (Evaluator σ)} {f f' : Frame} {w w' : World σ}

theorem eval_takeCancel_eq (f : Frame) (w : World σ) :
    e.takeCancel.eval f w = ((.ok (w.cancelRequested e.cancel), f), e.polled w) := rfl

theorem step_stepNode {r : Except Error Bool}
    (h : (e.stepNode c collect node).eval f w = ((r, f'), w')) : e.Step node f w r f' w' := by
  unfold stepNode at h
  rw [Call.eval_bind, eval_takeCancel_eq] at h
  cases hcancel : w.cancelRequested e.cancel with
  | true =>
      rw [hcancel] at h
      cases h
      exact .cancelled
  | false =>
      simp only [hcancel, Bool.false_eq_true, if_false] at h
      cases hparameter : node.isParameter with
      | true =>
          rw [hparameter] at h
          cases h
          exact .parameter (by simp [Node.isOperator, hparameter])
      | false =>
          simp only [hparameter, Bool.false_eq_true, if_false] at h
          cases hresult : node.isResult with
          | true =>
              have hoperator : node.isOperator = false := by simp [Node.isOperator, hresult]
              simp only [hresult, if_true, Call.eval_bind] at h
              rcases delivery_deliverNode (e := e) node f (e.polled w) with
                ⟨error, hgathered, heval⟩ | ⟨bindings, slots, store, heval⟩
              · rw [heval] at h
                cases h
                exact .unread hgathered
              · rw [heval] at h
                cases h
                exact .delivered hoperator
          | false =>
              have hoperator : node.isOperator = true := by
                simp [Node.isOperator, hparameter, hresult]
              simp only [hresult, Bool.false_eq_true, if_false, Call.eval_bind] at h
              rcases heval : (e.evaluateNode c collect node).eval f (e.polled w) with
                ⟨⟨error | ⟨⟩, f₁⟩, w₁⟩
              · rw [heval] at h
                cases h
                exact .failed hoperator (evaluation_evaluateNode c collect heval)
              · simp only [heval, eval_takeCancel_eq] at h
                cases h
                exact .evaluated hoperator (evaluation_evaluateNode c collect heval)

/-! ### Walks -/

theorem eval_runNodes_cons (c : Context) (collect : Bool) (node : Node (Evaluator σ))
    (rest : List (Node (Evaluator σ))) (f : Frame) (w : World σ) :
    (e.runNodes c collect (node :: rest)).eval f w =
      match (e.stepNode c collect node).eval f w with
      | ((.error error, f'), w') => ((.error error, f'), w')
      | ((.ok true, f'), w') => ((.ok .cancelled, f'), w')
      | ((.ok false, f'), w') => (e.runNodes c collect rest).eval f' w' := by
  rw [runNodes, stepNode, Call.eval_bind, Call.eval_bind, eval_takeCancel_eq]
  cases w.cancelRequested e.cancel with
  | true => rfl
  | false =>
      simp only [Bool.false_eq_true, if_false]
      cases node.isParameter with
      | true => rfl
      | false =>
          simp only [Bool.false_eq_true, if_false]
          cases node.isResult with
          | true =>
              simp only [if_true, Call.eval_bind]
              rcases (e.deliverNode node).eval f (e.polled w) with ⟨⟨error | ⟨⟩, f'⟩, w'⟩ <;> rfl
          | false =>
              simp only [Bool.false_eq_true, if_false, Call.eval_bind]
              rcases (e.evaluateNode c collect node).eval f (e.polled w) with ⟨⟨error | ⟨⟩, f'⟩, w'⟩
              · rfl
              · simp only [eval_takeCancel_eq]
                cases w'.cancelRequested e.cancel <;> rfl

variable {nodes : List (Node (Evaluator σ))} {error : Error}

/-- A walk that does not complete has completed the nodes before the one with which it ends. -/
theorem exists_ending_step {o : Except Error Status}
    (h : (e.runNodes c collect nodes).eval f w = ((o, f'), w')) (ho : o ≠ .ok .completed) :
    ∃ before node rest f₁ w₁ r, nodes = before ++ node :: rest ∧
      (e.runNodes c collect before).eval f w = ((.ok .completed, f₁), w₁) ∧
      (e.stepNode c collect node).eval f₁ w₁ = ((r, f'), w') ∧ o = r.map fun _ => .cancelled := by
  -- Each node that the walk passes is put in front of the part that the rest of the walk completes.
  induction nodes generalizing f w with
  | nil =>
      cases h
      exact absurd rfl ho
  | cons node nodes ih =>
      rw [eval_runNodes_cons] at h
      rcases hstep : (e.stepNode c collect node).eval f w with ⟨⟨error' | _ | _, f₁⟩, w₁⟩
      · rw [hstep] at h
        cases h
        exact ⟨[], node, nodes, f, w, .error error', rfl, rfl, hstep, rfl⟩
      · rw [hstep] at h
        obtain ⟨before, last, rest, f₂, w₂, r, rfl, hcompleted, hlast, hr⟩ := ih h
        refine ⟨node :: before, last, rest, f₂, w₂, r, rfl, ?_, hlast, hr⟩
        rw [eval_runNodes_cons, hstep]
        exact hcompleted
      · rw [hstep] at h
        cases h
        exact ⟨[], node, nodes, f, w, .ok true, rfl, rfl, hstep, rfl⟩

/-- A walk that fails has completed the nodes before the one at which it fails. -/
theorem exists_failing_step (h : (e.runNodes c collect nodes).eval f w = ((.error error, f'), w')) :
    ∃ before node rest f₁ w₁, nodes = before ++ node :: rest ∧
      (e.runNodes c collect before).eval f w = ((.ok .completed, f₁), w₁) ∧
      e.Step node f₁ w₁ (.error error) f' w' := by
  obtain ⟨before, node, rest, f₁, w₁, r, hnodes, hcompleted, hlast, hr⟩ := exists_ending_step h nofun
  cases r with
  | ok obeyed => cases hr
  | error error' =>
      cases hr
      exact ⟨before, node, rest, f₁, w₁, hnodes, hcompleted, step_stepNode hlast⟩

/-- The operators among some nodes, by number. -/
def operatorIds (nodes : List (Node (Evaluator σ))) : List Nat := (nodes.filter (·.isOperator)).map (·.id)

theorem Step.dispatched {r : Except Error Bool} (h : e.Step node f w r f' w') (hr : r = .ok false) :
    f'.dispatched = (operatorIds [node]).reverse ++ f.dispatched := by
  cases h with
  | cancelled => cases hr
  | parameter hoperator => simp [operatorIds, hoperator]
  | unread hgathered => cases hr
  | delivered hoperator => simp [operatorIds, hoperator]
  | failed hoperator heval => cases hr
  | evaluated hoperator heval =>
      cases heval
      simp [operatorIds, hoperator]

/-- A walk that completes has handed every operator to its evaluator, one after the other. -/
theorem dispatched_of_completed
    (h : (e.runNodes c collect nodes).eval f w = ((.ok .completed, f'), w')) :
    f'.dispatched = (operatorIds nodes).reverse ++ f.dispatched := by
  induction nodes generalizing f w with
  | nil =>
      cases h
      rfl
  | cons node nodes ih =>
      rw [eval_runNodes_cons] at h
      rcases hstep : (e.stepNode c collect node).eval f w with ⟨⟨error | _ | _, f₁⟩, w₁⟩
      · rw [hstep] at h
        cases h
      · rw [hstep] at h
        have hids : operatorIds (node :: nodes) = operatorIds [node] ++ operatorIds nodes := by
          rw [operatorIds, operatorIds, operatorIds, ← List.map_append, ← List.filter_append,
            List.singleton_append]
        rw [ih h, (step_stepNode hstep).dispatched rfl, hids, List.reverse_append, List.append_assoc]
      · rw [hstep] at h
        cases h

/-! ### Calls -/

/-- The walk of a call over some of its nodes. -/
def walk (e : Executor σ) (slots inputs : List Tensor) (c : Context) (collect : Bool) (w : World σ)
    (nodes : List (Node (Evaluator σ))) : (Except Error Status × Frame) × World σ :=
  let started := e.startedWorld inputs c w
  (e.runNodes (e.contextFor c) collect nodes).eval (e.openedFrame slots inputs started)
    (e.openedWorld started)

/-- A call that starts ends as its walk does, and remembers intermediates. -/
theorem outcome_executeNodes_walk {slots inputs : List Tensor} (hcancel : w.cancelRequested e.cancel = false)
    (hcheck : checkOperands e.graph slots inputs = .ok ()) {o : Except Error Status}
    (hwalk : e.walk slots inputs c collect w nodes = ((o, f), w')) :
    (e.executeNodes nodes slots inputs c collect).outcome w
      = (o.map (·, f.slots), ((e.closeFrame f).outcome w').2) := by
  have heval : (e.runNodes (e.contextFor c) collect nodes).eval
      (e.openedFrame slots inputs (e.startedWorld inputs c w))
      (e.openedWorld (e.startedWorld inputs c w)) = ((o, f), w') := hwalk
  rw [outcome_executeNodes hcancel hcheck]
  simp only [heval]
  cases o <;> rfl

theorem exists_closed (f : Frame) (w : World σ) :
    ∃ memories, ((e.closeFrame f).outcome w).2 = { w with memories := memories } := by
  unfold closeFrame
  split
  · exact ⟨_, rfl⟩
  · exact ⟨w.memories, rfl⟩

/-- How a call may end. -/
inductive Exit (e : Executor σ) (slots inputs : List Tensor) (c : Context) (collect : Bool)
    (w : World σ) : Except Error (Status × List Tensor) → World σ → Prop
  | cancelled : Exit e slots inputs c collect w (.ok (.cancelled, slots)) (e.polled w)
  | rejected {error : Error} (h : checkOperands e.graph slots inputs = .error error) :
    Exit e slots inputs c collect w (.error error) (e.polled w)
  | walked {o : Except Error Status} {f : Frame} {w₁ : World σ} {memories : Table Memory}
    (hcancel : w.cancelRequested e.cancel = false)
    (hcheck : checkOperands e.graph slots inputs = .ok ())
    (hwalk : e.walk slots inputs c collect w e.graph.nodes = ((o, f), w₁)) :
    Exit e slots inputs c collect w (o.map (·, f.slots)) { w₁ with memories := memories }

theorem exit_execute {slots inputs : List Tensor} {r : Except Error (Status × List Tensor)}
    (h : (e.execute slots inputs c collect).outcome w = (r, w')) :
    e.Exit slots inputs c collect w r w' := by
  rw [execute_eq] at h
  cases hcancel : w.cancelRequested e.cancel with
  | true =>
      rw [outcome_executeNodes_pending hcancel] at h
      cases h
      exact .cancelled
  | false =>
      rcases hcheck : checkOperands e.graph slots inputs with error | ⟨⟩
      · rw [outcome_executeNodes_rejected hcancel hcheck] at h
        cases h
        exact .rejected hcheck
      · rcases hwalk : e.walk slots inputs c collect w e.graph.nodes with ⟨⟨o, f⟩, w₁⟩
        obtain ⟨memories, hclosed⟩ := exists_closed (e := e) f w₁
        rw [outcome_executeNodes_walk hcancel hcheck hwalk, hclosed] at h
        cases h
        exact .walked hcancel hcheck hwalk

/-- A call that fails has refused its operands, or it has completed its walk over the nodes before the one
at which it fails. -/
theorem Exit.of_error {slots inputs : List Tensor} {r : Except Error (Status × List Tensor)}
    (h : e.Exit slots inputs c collect w r w') (hr : r = .error error) :
    checkOperands e.graph slots inputs = .error error ∧ w' = e.polled w ∨
      ∃ before node rest f₁ w₁ f w₂ memories, e.graph.nodes = before ++ node :: rest ∧
        e.walk slots inputs c collect w before = ((.ok .completed, f₁), w₁) ∧
        e.walk slots inputs c collect w e.graph.nodes = ((.error error, f), w₂) ∧
        e.Step node f₁ w₁ (.error error) f w₂ ∧ w' = { w₂ with memories := memories } := by
  cases h with
  | cancelled => cases hr
  | rejected hcheck => exact .inl ⟨Except.error.inj hr ▸ hcheck, rfl⟩
  | @walked o f w₂ memories hcancel hcheck hwalk =>
      cases o with
      | ok status => cases hr
      | error error' =>
          cases hr
          obtain ⟨before, node, rest, f₁, w₁, hnodes, hbefore, hstep⟩ := exists_failing_step hwalk
          exact .inr ⟨before, node, rest, f₁, w₁, f, w₂, memories, hnodes, hbefore, hwalk, hstep, rfl⟩

/-! ### Configuration errors -/

/-- The evaluation of an operator gives a configuration error if there is no evaluator for it, or if the
evaluator gives the error. -/
theorem Evaluation.of_configuration (h : e.Evaluation node f w (.error error) f' w')
    (hconfiguration : error.isConfiguration = true) :
    e.evaluatorOf node = .error error ∧ f'.dispatched = f.dispatched ∧ w'.variables = w.variables ∨
      (∃ d : e.Dispatch node f w, d.outcome = (.error error, w')) ∧
        f'.dispatched = node.id :: f.dispatched := by
  cases h with
  | unbound hgathered =>
      obtain ⟨_, rfl⟩ := Bindings.eq_unboundTensor hgathered
      cases hconfiguration
  | missing hresolved => exact .inl ⟨hresolved, rfl, rfl⟩
  | failed d houtcome => exact .inr ⟨⟨d, houtcome⟩, rfl⟩
  | refused d houtcome hrefused =>
      rw [hrefused.isConfiguration] at hconfiguration
      cases hconfiguration

/-- **Configuration errors.**  A call that fails with a configuration error has either refused its operands:
then nothing was evaluated, and the world is as before, but for a look for a request to cancel.  Or it
has evaluated all operators before one of its nodes, an operator that has no evaluator, or whose evaluator
itself gave this error; in the first case the variables stay as the operators before have left them. -/
theorem configuration_error (e : Executor σ) (slots inputs : List Tensor) (c : Context) (collect : Bool)
    (w w' : World σ) (error : Error) (hconfiguration : error.isConfiguration = true)
    (h : (e.execute slots inputs c collect).outcome w = (.error error, w')) :
    (checkOperands e.graph slots inputs = .error error ∧ w' = e.polled w ∧
      ∀ r id, w'.valuesOf r id = w.valuesOf r id) ∨
    ∃ before node rest f₁ w₁ f w₂, e.graph.nodes = before ++ node :: rest ∧ node.isOperator = true ∧
      e.walk slots inputs c collect w before = ((.ok .completed, f₁), w₁) ∧
      e.walk slots inputs c collect w e.graph.nodes = ((.error error, f), w₂) ∧
      (e.evaluatorOf node = .error error ∧ f.dispatched = (operatorIds before).reverse ∧
          w'.variables = w₁.variables ∨
        (∃ d : e.Dispatch node f₁ (e.polled w₁), d.outcome = (.error error, w₂)) ∧
          f.dispatched = node.id :: (operatorIds before).reverse) := by
  rcases (exit_execute h).of_error rfl with ⟨hcheck, hworld⟩ |
    ⟨before, node, rest, f₁, w₁, f, w₂, memories, hnodes, hbefore, hwalk, hstep, rfl⟩
  · exact .inl ⟨hcheck, hworld, fun _ _ => hworld ▸ rfl⟩
  · have hdispatched : f₁.dispatched = (operatorIds before).reverse :=
      (dispatched_of_completed hbefore).trans (List.append_nil _)
    cases hstep with
    | unread hgathered =>
        obtain ⟨_, rfl⟩ := Bindings.eq_unboundTensor hgathered
        cases hconfiguration
    | failed hoperator heval =>
        refine .inr ⟨before, node, rest, f₁, w₁, f, w₂, hnodes, hoperator, hbefore, hwalk, ?_⟩
        have hends := heval.of_configuration hconfiguration
        rwa [hdispatched] at hends

/-! ### An operator that nothing evaluates -/

/-- A graph that assigns its input to a variable, and hands it to an operator that nobody knows. -/
def unknowing : Graph (Evaluator Unit) where
  tensors := List.replicate 4 ⟨.u8, [.fixed 2]⟩
  nodes := [⟨⟨0, .parameter, none, [], [0], none⟩, none⟩,
    ⟨⟨1, .assign, none, [0], [1], some ⟨"last"⟩⟩, none⟩, ⟨⟨2, ⟨"Mystery"⟩, none, [1], [2], none⟩, none⟩,
    ⟨⟨3, .result, none, [2], [3], none⟩, none⟩]
  numbered := rfl
  checked := rfl

/-- An executor for it, and the world in which it is created. -/
def unknowingCreated : Executor Unit × World Unit :=
  create unknowing .reference ⟨none, 1, true⟩ (.empty ())

/-- The world in which the caller has made an input and a slot, and the variable has a value. -/
def unknowingFilled : World Unit :=
  let store := ((unknowingCreated.2.store.alloc #[3, 4]).2.alloc #[0, 0]).2
  let w := { unknowingCreated.2 with store := (store.alloc #[1, 2]).2 }
  w.setVariable unknowingCreated.1.variables ⟨"last"⟩ ⟨.u8, some [2], ⟨2⟩⟩

/-- A call with them. -/
def unknowingCalled : Except Error (Status × List Tensor) × World Unit :=
  (unknowingCreated.1.execute [⟨.u8, some [2], ⟨1⟩⟩] [⟨.u8, some [2], ⟨0⟩⟩] .empty false).outcome
    unknowingFilled

/-- The call fails after a walk over some nodes. -/
theorem configuration_error_unknown : ∃ before node rest f₁ w₁,
    unknowing.nodes = before ++ node :: rest ∧ node.isOperator = true ∧
    unknowingCreated.1.walk [⟨.u8, some [2], ⟨1⟩⟩] [⟨.u8, some [2], ⟨0⟩⟩] .empty false unknowingFilled before
      = ((.ok .completed, f₁), w₁) := by
  have hfails : unknowingCalled.1 = .error (.missingEvaluator "Mystery") := by decide +kernel
  have hcheck : checkOperands unknowingCreated.1.graph [⟨.u8, some [2], ⟨1⟩⟩] [⟨.u8, some [2], ⟨0⟩⟩]
      = .ok () := by decide +kernel
  have hends := configuration_error unknowingCreated.1 [⟨.u8, some [2], ⟨1⟩⟩] [⟨.u8, some [2], ⟨0⟩⟩] .empty false
    unknowingFilled unknowingCalled.2 (.missingEvaluator "Mystery") rfl (Prod.ext hfails rfl)
  rw [hcheck] at hends
  obtain ⟨hrefused, _⟩ | ⟨before, node, rest, f₁, w₁, _, _, hnodes, hoperator, hwalk, _⟩ := hends
  · cases hrefused
  · exact ⟨before, node, rest, f₁, w₁, hnodes, hoperator, hwalk⟩

/-- The error is of the configuration class, but the assignment has been evaluated and the variable has
another value than before the call. -/
theorem assigned_before_configuration_error :
    unknowingCalled.1 = .error (.missingEvaluator "Mystery") ∧
      (Error.missingEvaluator "Mystery").isConfiguration = true ∧
      (unknowingCreated.1.walk [⟨.u8, some [2], ⟨1⟩⟩] [⟨.u8, some [2], ⟨0⟩⟩] .empty false
        unknowingFilled unknowing.nodes).1.2.dispatched = [1] ∧
      unknowingFilled.valuesOf unknowingCreated.1.variables ⟨"last"⟩
        = some ⟨.u8, some [2], #[1, 2]⟩ ∧
      unknowingCalled.2.valuesOf unknowingCreated.1.variables ⟨"last"⟩
        = some ⟨.u8, some [2], #[3, 4]⟩ := by
  decide +kernel

end Executor

end TensorGraph
