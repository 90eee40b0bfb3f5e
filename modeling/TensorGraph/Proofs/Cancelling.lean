import TensorGraph.Proofs.Requests
import TensorGraph.Proofs.Tracing

/-! # Requests to cancel over many calls

A request is consumed by one look, and each look that finds one ends its call.  What the looks of one
call can find is therefore either the request that was pending when the call started, and then the call
does nothing (`outcome_execute_pending`), or one that an evaluator of the call made, and then nothing of the
call comes after that evaluator (`raised_is_last`).  So a call that was cancelled has used up a request
(`cancelled_call`), and over a history of requests and calls there are never more cancelled calls than
requests (`History.cancelled_le`). -/

namespace TensorGraph.Executor

variable {σ : Type} {e : Executor σ} {c : Context} {collect : Bool} {node : Node (Evaluator σ)}
  {nodes : List (Node (Evaluator σ))} {f f' : Frame} {w w' : World σ} {slots inputs : List Tensor}

/-- Whether an event is an evaluator that has requested to cancel: there was no request when it was called,
and there is one when it ends. -/
def raised (e : Executor σ) : Event σ → Bool
  | .dispatched _ _ after => after.cancelRequested e.cancel
  | .delivered _ _ => false

/-! ### One call -/

/-- A step in which the evaluator has requested to cancel is the last one. -/
theorem Visit.ne_of_raised {event : Option (Event σ)} {r : Except Error Bool}
    (h : e.Visit c collect node f w event r f' w') {ev : Event σ} (hev : ev ∈ event)
    (hraised : e.raised ev = true) : r ≠ .ok false := by
  cases h with
  | delivered hcancel hresult hevent =>
      obtain ⟨position, value, rfl⟩ := hevent ev hev
      cases hraised
  | failed hcancel hoperator hprepared houtcome => exact nofun
  | refused hcancel hoperator hprepared houtcome hbound hrefused => exact nofun
  | evaluated hcancel hoperator hprepared houtcome hbound =>
      obtain rfl := Option.mem_some.mp hev
      intro hr
      exact Bool.false_ne_true ((Except.ok.inj hr).symm.trans hraised)
  | _ => cases hev

/-- Nothing comes after an evaluator that has requested to cancel, and the walk does not complete. -/
theorem raised_is_last {before after : List (Event σ)} {ev : Event σ}
    (hevents : e.events c collect nodes f w = before ++ ev :: after) (hraised : e.raised ev = true) :
    after = [] ∧ ((e.runNodes c collect nodes).eval f w).1.1 ≠ .ok .completed := by
  induction nodes generalizing f w before with
  | nil => simp [events] at hevents
  | cons node nodes ih =>
      obtain ⟨f', w', hstep, hrun, hcons⟩ | ⟨r, f', w', hstep, hr, hrun, hcons⟩ :=
        walk_cases (e := e) c collect node nodes f w
      · rw [hrun]
        rw [hcons] at hevents
        cases hevent : e.stepEvent c node f w with
        | none =>
            rw [hevent] at hevents
            exact ih hevents
        | some first =>
            rw [hevent, Option.toList_some, List.singleton_append] at hevents
            cases before with
            | nil =>
                obtain ⟨rfl, -⟩ := List.cons.inj hevents
                exact absurd rfl ((visit_stepNode hstep).ne_of_raised hevent hraised)
            | cons _ before => exact ih (List.cons.inj hevents).2
      · rw [hrun]
        rw [hcons] at hevents
        constructor
        · have hlength := congrArg List.length hevents
          have hone : (e.stepEvent c node f w).toList.length ≤ 1 := by
            cases e.stepEvent c node f w <;> simp
          simp only [List.length_append, List.length_cons] at hlength
          exact List.eq_nil_of_length_eq_zero (by omega)
        · intro hcompleted
          cases r with
          | error error => cases hcompleted
          | ok _ => cases Except.ok.inj hcompleted

/-- A step that starts without a request and obeys one, or leaves one, has had it from its evaluator. -/
theorem Visit.exists_raised {event : Option (Event σ)} {r : Except Error Bool}
    (h : e.Visit c collect node f w event r f' w') (hw : w.cancelRequested e.cancel = false)
    (hends : r = .ok true ∨ w'.cancelRequested e.cancel = true) : ∃ ev ∈ event, e.raised ev = true := by
  have hnone (hleft : (e.polled w).cancelRequested e.cancel = true) : False :=
    Bool.false_ne_true ((cancelRequested_taken w).symm.trans hleft)
  cases h with
  | cancelled hcancel => exact absurd (hw.symm.trans hcancel) Bool.false_ne_true
  | parameter hcancel hparameter => exact (hends.elim (fun hr => by cases hr) hnone).elim
  | unread hcancel hresult hgathered => exact (hends.elim (fun hr => by cases hr) hnone).elim
  | delivered hcancel hresult hevent => exact (hends.elim (fun hr => by cases hr) hnone).elim
  | unprepared hcancel hoperator hprepared => exact (hends.elim (fun hr => by cases hr) hnone).elim
  | failed hcancel hoperator hprepared houtcome =>
      exact ⟨_, rfl, hends.resolve_left nofun⟩
  | refused hcancel hoperator hprepared houtcome hbound hrefused =>
      exact ⟨_, rfl, hends.resolve_left nofun⟩
  | @evaluated handed produced f₁ bindings memories w₁ w₂ hcancel hoperator hprepared houtcome hbound =>
      refine ⟨_, rfl, ?_⟩
      have hclear : (e.polled { w₂ with memories := memories }).cancelRequested e.cancel = false :=
        cancelRequested_taken _
      rw [hclear] at hends
      exact Except.ok.inj (hends.resolve_right Bool.false_ne_true)

/-- The same for a walk. -/
theorem exists_raised (hw : w.cancelRequested e.cancel = false)
    (hends : ((e.runNodes c collect nodes).eval f w).1.1 = .ok .cancelled ∨
      ((e.runNodes c collect nodes).eval f w).2.cancelRequested e.cancel = true) :
    ∃ ev ∈ e.events c collect nodes f w, e.raised ev = true := by
  induction nodes generalizing f w with
  | nil =>
      obtain hcancelled | hleft := hends
      · cases hcancelled
      · exact absurd (hw.symm.trans hleft) Bool.false_ne_true
  | cons node nodes ih =>
      obtain ⟨f', w', hstep, hrun, hcons⟩ | ⟨r, f', w', hstep, hr, hrun, hcons⟩ :=
        walk_cases (e := e) c collect node nodes f w
      · rw [hrun] at hends
        rw [hcons]
        have hclear : w'.cancelRequested e.cancel = false :=
          (step_stepNode hstep).cancelRequested_of_ok rfl
        obtain ⟨ev, hev, hraised⟩ := ih hclear hends
        exact ⟨ev, List.mem_append_right _ hev, hraised⟩
      · rw [hrun] at hends
        rw [hcons]
        have hstepEnds : r = .ok true ∨ w'.cancelRequested e.cancel = true := by
          refine hends.imp_left fun hcancelled => ?_
          cases r with
          | error error => cases hcancelled
          | ok obeyed =>
              cases obeyed with
              | false => exact absurd rfl hr
              | true => rfl
        obtain ⟨ev, hev, hraised⟩ := (visit_stepNode hstep).exists_raised hw hstepEnds
        exact ⟨ev, Option.mem_toList.mpr hev, hraised⟩

/-! ### Counting -/

/-- How many requests are pending. -/
def pending (e : Executor σ) (w : World σ) : Nat := if w.cancelRequested e.cancel then 1 else 0

/-- How many calls a call adds to those that were cancelled. -/
def obeyed : Except Error (Status × List Tensor) → Nat
  | .ok (.cancelled, _) => 1
  | _ => 0

theorem pending_le_one (e : Executor σ) (w : World σ) : e.pending w ≤ 1 := by
  unfold pending
  split <;> decide

theorem pending_eq_zero (h : w.cancelRequested e.cancel = false) : e.pending w = 0 := by
  rw [pending, h]
  rfl

/-- A walk that starts without a request obeys or leaves at most one, and that was made by an evaluator. -/
theorem obeyed_walk {slots : List Tensor} (hw : w.cancelRequested e.cancel = false) :
    obeyed (((e.runNodes c collect nodes).eval f w).1.1.map (·, slots))
        + e.pending ((e.runNodes c collect nodes).eval f w).2
      ≤ (e.events c collect nodes f w).countP e.raised := by
  have hcount (hends : ((e.runNodes c collect nodes).eval f w).1.1 = .ok .cancelled ∨
      ((e.runNodes c collect nodes).eval f w).2.cancelRequested e.cancel = true) :
      1 ≤ (e.events c collect nodes f w).countP e.raised := by
    obtain ⟨ev, hev, hraised⟩ := exists_raised hw hends
    exact List.countP_pos_iff.mpr ⟨ev, hev, hraised⟩
  rcases hwalk : (e.runNodes c collect nodes).eval f w with ⟨⟨error | status, f'⟩, w'⟩
  · rw [hwalk] at hcount
    show 0 + e.pending w' ≤ _
    cases hleft : w'.cancelRequested e.cancel with
    | false =>
        rw [pending_eq_zero hleft]
        exact Nat.zero_le _
    | true =>
        have hpending := e.pending_le_one w'
        have hmade := hcount (.inr hleft)
        omega
  · rw [hwalk] at hcount
    rw [pending_eq_zero (cancelRequested_runNodes hw hwalk)]
    cases status with
    | completed => exact Nat.zero_le _
    | cancelled => exact hcount (.inl rfl)

/-- A call that was cancelled has used up the request that was pending, or one that its evaluators made;
and what is pending after the call was so before, or comes from them. -/
theorem cancelled_call (e : Executor σ) (slots inputs : List Tensor) (c : Context) (collect : Bool)
    (w : World σ) :
    obeyed ((e.execute slots inputs c collect).outcome w).1
        + e.pending ((e.execute slots inputs c collect).outcome w).2
      ≤ (e.trace slots inputs c collect w).countP e.raised + e.pending w := by
  have hpolled : e.pending (e.polled w) = 0 := pending_eq_zero (cancelRequested_taken w)
  cases hcancel : w.cancelRequested e.cancel with
  | true =>
      have hone : e.pending w = 1 := by rw [pending, hcancel, if_pos rfl]
      rw [outcome_execute_pending hcancel, hpolled, hone]
      exact Nat.le_add_left _ _
  | false =>
      cases hcheck : checkOperands e.graph slots inputs with
      | error error =>
          rw [outcome_execute_rejected hcancel hcheck, hpolled]
          exact Nat.zero_le _
      | ok _ =>
          obtain ⟨memories, houtcome⟩ := outcome_execute_walked c collect hcancel hcheck
          rw [houtcome, trace_walked hcancel hcheck]
          have hopened : (e.openedWorld (e.startedWorld inputs c w)).cancelRequested e.cancel = false :=
            (cancelRequested_openedWorld _ _).trans (cancelRequested_startedWorld w inputs c)
          exact Nat.le_trans (obeyed_walk hopened) (Nat.le_add_right _ _)

/-! ### Many calls -/

/-- What may happen with an executor from a world in which no request is pending: how many requests were
made, by the caller or by evaluators, how many calls were cancelled, and the world then. -/
inductive History (e : Executor σ) : Nat → Nat → World σ → Prop
  /-- Nothing has happened. -/
  | started {w : World σ} (h : w.cancelRequested e.cancel = false) : History e 0 0 w
  /-- The caller requests to cancel. -/
  | requested {requests cancelled : Nat} {w : World σ} (h : History e requests cancelled w) :
    History e (requests + 1) cancelled (w.requestCancel e.cancel)
  /-- The executor is called. -/
  | called {requests cancelled : Nat} {w : World σ} (h : History e requests cancelled w)
    (slots inputs : List Tensor) (c : Context) (collect : Bool) :
    History e (requests + (e.trace slots inputs c collect w).countP e.raised)
      (cancelled + obeyed ((e.execute slots inputs c collect).outcome w).1)
      ((e.execute slots inputs c collect).outcome w).2
  /-- Something happens that requests nothing of this executor. -/
  | elsewhere {requests cancelled : Nat} {w w' : World σ} (h : History e requests cancelled w)
    (hquiet : w'.cancelRequested e.cancel = true → w.cancelRequested e.cancel = true) :
    History e requests cancelled w'

/-- No request is obeyed twice. -/
theorem History.cancelled_le {requests cancelled : Nat} (h : e.History requests cancelled w) :
    cancelled + e.pending w ≤ requests := by
  induction h with
  | started hw => exact Nat.le_of_eq (by rw [pending_eq_zero hw])
  | @requested requests cancelled w h ih =>
      have hpending := e.pending_le_one (w.requestCancel e.cancel)
      omega
  | @called requests cancelled w h slots inputs c collect ih =>
      have hcall := cancelled_call e slots inputs c collect w
      omega
  | @elsewhere requests cancelled w w' h hquiet ih =>
      have hpending : e.pending w' ≤ e.pending w := by
        cases hleft : w'.cancelRequested e.cancel with
        | false =>
            rw [pending_eq_zero hleft]
            exact Nat.zero_le _
        | true => exact Nat.le_of_eq (by rw [pending, pending, hleft, hquiet hleft])
      omega

/-- **Cancellation.**  A call that finds a request pending takes it back, gives the slots back as they were,
and changes nothing else of the world; it calls no evaluator.  Once an evaluator of a call has requested to
cancel, the call does nothing more to its surroundings, and does not complete.  Over any history of requests
and calls, at most as many calls are cancelled as requests were made. -/
theorem cancellation_safe (e : Executor σ) :
    (∀ slots inputs c collect w, w.cancelRequested e.cancel = true →
      (e.execute slots inputs c collect).outcome w = (.ok (.cancelled, slots),
        { w with cancelFlags := w.cancelFlags.put e.cancel ⟨false⟩ }) ∧
      e.trace slots inputs c collect w = []) ∧
    (∀ slots inputs c collect w before node outcome after rest,
      e.trace slots inputs c collect w = before ++ .dispatched node outcome after :: rest →
      after.cancelRequested e.cancel = true →
      rest = [] ∧
        ∀ slots', ((e.execute slots inputs c collect).outcome w).1 ≠ .ok (.completed, slots')) ∧
    ∀ requests cancelled w, e.History requests cancelled w → cancelled ≤ requests := by
  refine ⟨?_, ?_, ?_⟩
  · intro slots inputs c collect w hcancel
    exact ⟨outcome_execute_pending hcancel, by rw [trace, hcancel, if_pos rfl]⟩
  · intro slots inputs c collect w before node outcome after rest htrace hraised
    cases hcancel : w.cancelRequested e.cancel with
    | true => simp [trace, hcancel] at htrace
    | false =>
        cases hcheck : checkOperands e.graph slots inputs with
        | error error => simp [trace, hcancel, hcheck] at htrace
        | ok _ =>
            rw [trace_walked hcancel hcheck] at htrace
            obtain ⟨hrest, hcompleted⟩ := raised_is_last htrace hraised
            obtain ⟨memories, houtcome⟩ := outcome_execute_walked c collect hcancel hcheck
            refine ⟨hrest, fun slots' hslots' => hcompleted ?_⟩
            rw [houtcome] at hslots'
            exact status_of_map hslots'
  · intro requests cancelled w h
    have hle := h.cancelled_le
    omega

/-- What the call of the graph whose evaluator cancels does, in some world. -/
def cancellingTrace (w : World Unit) : List (Event Unit) :=
  cancellingCreated.1.trace [⟨.i32, some [2], ⟨1⟩⟩] [⟨.u8, some [2], ⟨0⟩⟩] .empty false w

/-- The evaluator requests to cancel and its call fails; the next call obeys the request, and it is the only
one. -/
theorem cancellation_safe_cancelling :
    (∃ outcome after, cancellingTrace cancellingFilled = [.dispatched 1 outcome after] ∧
      ∀ slots', cancellingCalled.1 ≠ .ok (.completed, slots')) ∧
    cancellingTrace cancellingCalled.2 = [] ∧
    ∃ cancelled, 0 < cancelled ∧
      cancelled ≤ (cancellingTrace cancellingFilled).countP cancellingCreated.1.raised := by
  obtain ⟨hpending, hlast, hcount⟩ := cancellation_safe cancellingCreated.1
  have hraised : cancellingCalled.2.cancelRequested cancellingCreated.1.cancel = true := by decide +kernel
  refine ⟨?_, (hpending _ _ _ _ _ hraised).2, ?_⟩
  · have htrace : ∃ outcome after, cancellingTrace cancellingFilled
        = [] ++ .dispatched 1 outcome after :: [] := ⟨_, _, rfl⟩
    obtain ⟨outcome, after, htrace⟩ := htrace
    have hmade : (cancellingTrace cancellingFilled).all cancellingCreated.1.raised = true := by
      decide +kernel
    rw [htrace, List.nil_append, List.all_cons, Bool.and_eq_true] at hmade
    exact ⟨outcome, after, htrace, (hlast _ _ _ _ _ _ _ _ _ _ htrace hmade.1).2⟩
  · have hstarted : cancellingFilled.cancelRequested cancellingCreated.1.cancel = false := by
      decide +kernel
    have hhistory := (History.started hstarted).called [⟨.i32, some [2], ⟨1⟩⟩] [⟨.u8, some [2], ⟨0⟩⟩]
      .empty false
    have hle := hcount _ _ _ (hhistory.called [⟨.i32, some [2], ⟨1⟩⟩] [⟨.u8, some [2], ⟨0⟩⟩] .empty false)
    refine ⟨_, ?_, Nat.le_trans hle ?_⟩
    · decide +kernel
    · decide +kernel

end TensorGraph.Executor
