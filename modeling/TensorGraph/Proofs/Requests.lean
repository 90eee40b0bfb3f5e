import TensorGraph.Proofs.Exits

/-! # Requests to cancel that a call leaves behind

A call looks for a request to cancel when it starts and on both sides of every operator, and each look
takes the request back (`cancelRequested_taken`).  Nothing else in a call touches the flag, except
that an evaluator may raise it.  A step that does not fail therefore leaves the flag clear
(`Step.cancelRequested_of_ok`), and so does a call that completes or is cancelled.  A step that fails comes
to no look after its evaluator: the flag is then as the evaluator has left it
(`Evaluation.cancelRequested_of_error`). -/

namespace TensorGraph.Executor

variable {σ : Type} {e : Executor σ} {c : Context} {collect : Bool} {node : Node (Evaluator σ)}
  {nodes : List (Node (Evaluator σ))} {f f' : Frame} {w w' : World σ} {error : Error}

/-- A step that does not fail leaves no request. -/
theorem Step.cancelRequested_of_ok {cancelled : Bool} {r : Except Error Bool}
    (h : e.Step node f w r f' w') (hr : r = .ok cancelled) : w'.cancelRequested e.cancel = false := by
  cases h with
  | cancelled => exact cancelRequested_taken w
  | parameter hoperator => exact cancelRequested_taken w
  | unread hgathered => cases hr
  | delivered hoperator => exact cancelRequested_taken w
  | failed hoperator heval => cases hr
  | evaluated hoperator heval => exact cancelRequested_taken _

/-- A walk that does not fail leaves no request. -/
theorem cancelRequested_runNodes {status : Status} (hw : w.cancelRequested e.cancel = false)
    (h : (e.runNodes c collect nodes).eval f w = ((.ok status, f'), w')) :
    w'.cancelRequested e.cancel = false := by
  induction nodes generalizing f w with
  | nil =>
      cases h
      exact hw
  | cons node nodes ih =>
      rw [eval_runNodes_cons] at h
      rcases hstep : (e.stepNode c collect node).eval f w with ⟨⟨error | _ | _, f₁⟩, w₁⟩
      · rw [hstep] at h
        cases h
      · rw [hstep] at h
        exact ih ((step_stepNode hstep).cancelRequested_of_ok rfl) h
      · rw [hstep] at h
        cases h
        exact (step_stepNode hstep).cancelRequested_of_ok rfl

/-- An evaluation that fails leaves a request only if the evaluator has made one. -/
theorem Evaluation.cancelRequested_of_error (h : e.Evaluation node f w (.error error) f' w')
    (hw : w.cancelRequested e.cancel = false) (hraised : w'.cancelRequested e.cancel = true) :
    ∃ d : e.Dispatch node f w, d.outcome.2.cancelRequested e.cancel = true ∧
      (d.outcome.1 = .error error ∨ (∃ produced, d.outcome.1 = .ok produced) ∧ error.RefusesOutput) := by
  cases h with
  | unbound hgathered =>
      rw [hw] at hraised
      cases hraised
  | missing hresolved =>
      have hclear : w.cancelRequested e.cancel = true := hraised
      rw [hw] at hclear
      cases hclear
  | failed d houtcome => exact ⟨d, houtcome ▸ hraised, .inl (houtcome ▸ rfl)⟩
  | refused d houtcome hrefused =>
      exact ⟨d, houtcome ▸ hraised, .inr ⟨⟨_, congrArg Prod.fst houtcome⟩, hrefused⟩⟩

theorem cancelRequested_openedWorld (w : World σ) (r : Ref CancelFlag) :
    (e.openedWorld w).cancelRequested r = w.cancelRequested r := by
  unfold openedWorld
  split <;> rfl

/-- A call that does not fail leaves no request. -/
theorem Exit.cancelRequested_of_ok {slots inputs : List Tensor}
    {r : Except Error (Status × List Tensor)} {p : Status × List Tensor}
    (h : e.Exit slots inputs c collect w r w') (hr : r = .ok p) :
    w'.cancelRequested e.cancel = false := by
  cases h with
  | cancelled => exact cancelRequested_taken w
  | rejected hcheck => cases hr
  | @walked o f w₁ memories hcancel hcheck hwalk =>
      cases o with
      | error error => cases hr
      | ok status =>
          have hopened : (e.openedWorld (e.startedWorld inputs c w)).cancelRequested e.cancel = false :=
            (cancelRequested_openedWorld _ _).trans (cancelRequested_startedWorld w inputs c)
          have hwalked : w₁.cancelRequested e.cancel = false := cancelRequested_runNodes hopened hwalk
          exact hwalked

/-- **Requests that a call leaves behind.**  After a call no request to cancel is pending, unless the call
has failed at an operator whose evaluator made the request: it was called when none was pending, and
then gave an error, or an output that was refused. -/
theorem cancelRequested_execute (e : Executor σ) (slots inputs : List Tensor) (c : Context) (collect : Bool)
    (w w' : World σ) (r : Except Error (Status × List Tensor))
    (h : (e.execute slots inputs c collect).outcome w = (r, w')) :
    w'.cancelRequested e.cancel = false ∨
      ∃ error before node rest f₁ w₁, r = .error error ∧ e.graph.nodes = before ++ node :: rest ∧
        node.isOperator = true ∧ e.walk slots inputs c collect w before = ((.ok .completed, f₁), w₁) ∧
        (e.polled w₁).cancelRequested e.cancel = false ∧
        ∃ d : e.Dispatch node f₁ (e.polled w₁), d.outcome.2.cancelRequested e.cancel = true ∧
          (d.outcome.1 = .error error ∨
            (∃ produced, d.outcome.1 = .ok produced) ∧ error.RefusesOutput) := by
  cases r with
  | ok p => exact .inl ((exit_execute h).cancelRequested_of_ok rfl)
  | error error =>
      rcases (exit_execute h).of_error rfl with ⟨_, rfl⟩ |
        ⟨before, node, rest, f₁, w₁, f, w₂, memories, hnodes, hbefore, hwalk, hstep, rfl⟩
      · exact .inl (cancelRequested_taken w)
      · cases hstep with
        | unread hgathered => exact .inl (cancelRequested_taken w₁)
        | failed hoperator heval =>
            have hpolled : (e.polled w₁).cancelRequested e.cancel = false := cancelRequested_taken w₁
            cases hraised : w₂.cancelRequested e.cancel with
            | false => exact .inl hraised
            | true =>
                exact .inr ⟨error, before, node, rest, f₁, w₁, rfl, hnodes, hoperator, hbefore, hpolled,
                  heval.cancelRequested_of_error hpolled hraised⟩

/-! ### An evaluator that cancels and fails -/

/-- An evaluator that requests to cancel, and gives back its inputs. -/
def canceller : Evaluator Unit := .ofFunction fun _ _ inputs _ => do
  modify fun w => w.requestCancel ⟨0⟩
  return inputs

/-- A graph that hands its input to this evaluator, for an output of another element type. -/
def cancelling : Graph (Evaluator Unit) where
  tensors := [⟨.u8, [.fixed 2]⟩, ⟨.i32, [.fixed 2]⟩, ⟨.i32, [.fixed 2]⟩]
  nodes := [⟨⟨0, .parameter, none, [], [0], none⟩, none⟩,
    ⟨⟨1, ⟨"Stop"⟩, none, [0], [1], none⟩, some canceller⟩, ⟨⟨2, .result, none, [1], [2], none⟩, none⟩]
  numbered := rfl
  checked := rfl

/-- An executor for it, and the world in which it is created. -/
def cancellingCreated : Executor Unit × World Unit :=
  create cancelling .reference ⟨none, 1, true⟩ (.empty ())

/-- The world in which the caller has made an input and a slot. -/
def cancellingFilled : World Unit :=
  { cancellingCreated.2 with
    store := ((cancellingCreated.2.store.alloc #[1, 2]).2.alloc #[0, 0, 0, 0, 0, 0, 0, 0]).2 }

/-- A call with them. -/
def cancellingCalled : Except Error (Status × List Tensor) × World Unit :=
  (cancellingCreated.1.execute [⟨.i32, some [2], ⟨1⟩⟩] [⟨.u8, some [2], ⟨0⟩⟩] .empty false).outcome
    cancellingFilled

/-- The request comes from the evaluator of the operator at which the call fails. -/
theorem cancelRequested_execute_refused : ∃ before node rest f₁ w₁,
    cancelling.nodes = before ++ node :: rest ∧ node.isOperator = true ∧
    (cancellingCreated.1.polled w₁).cancelRequested cancellingCreated.1.cancel = false ∧
    ∃ d : cancellingCreated.1.Dispatch node f₁ (cancellingCreated.1.polled w₁),
      d.outcome.2.cancelRequested cancellingCreated.1.cancel = true := by
  have hraised : cancellingCalled.2.cancelRequested cancellingCreated.1.cancel = true := by decide +kernel
  rcases cancelRequested_execute cancellingCreated.1 [⟨.i32, some [2], ⟨1⟩⟩] [⟨.u8, some [2], ⟨0⟩⟩] .empty
      false cancellingFilled cancellingCalled.2 cancellingCalled.1 rfl with hclear |
    ⟨_, before, node, rest, f₁, w₁, _, hnodes, hoperator, _, hpolled, d, hd, _⟩
  · rw [hraised] at hclear
    cases hclear
  · exact ⟨before, node, rest, f₁, w₁, hnodes, hoperator, hpolled, d, hd⟩

/-- Nobody has asked to cancel before the call, and after it the request is pending: the next call, which is
handed the same operands, is cancelled at once. -/
theorem cancelled_by_earlier_call :
    cancellingFilled.cancelRequested cancellingCreated.1.cancel = false ∧
      cancellingCalled.1 = .error (.dtypeMismatch .i32 .u8) ∧
      cancellingCalled.2.cancelRequested cancellingCreated.1.cancel = true ∧
      ((cancellingCreated.1.execute [⟨.i32, some [2], ⟨1⟩⟩] [⟨.u8, some [2], ⟨0⟩⟩] .empty false).outcome
        cancellingCalled.2).1 = .ok (.cancelled, [⟨.i32, some [2], ⟨1⟩⟩]) := by
  decide +kernel

end TensorGraph.Executor
