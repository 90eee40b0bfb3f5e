import TensorGraph.Execution.Executor

/-! # Outcomes of computations

A computation in `Except` returns something when each of its steps does (`bind_eq_ok`).  The equations
for `Run.outcome` say what a computation in the world returns, and the world after it; those for
`Call.eval` say the same of computations within a call, which have a frame besides the world. -/

namespace TensorGraph

theorem bind_eq_ok {ε α β : Type} {m : Except ε α} {f : α → Except ε β} {b : β} :
    m >>= f = .ok b ↔ ∃ a, m = .ok a ∧ f a = .ok b := by
  cases m with
  | error e => simp [bind, Except.bind]
  | ok a => simp [bind, Except.bind]

@[simp] theorem pure_eq_ok {ε α : Type} {a b : α} : (pure a : Except ε α) = .ok b ↔ a = b := by
  simp [pure, Except.pure]

theorem ok_bind {ε α β : Type} (a : α) (f : α → Except ε β) : Except.ok a >>= f = f a := rfl

namespace Run

variable {σ α β : Type} (w : World σ)

theorem outcome_bind (m : Run σ α) (f : α → Run σ β) :
    (m >>= f).outcome w = match m.outcome w with
      | (.ok a, w') => (f a).outcome w'
      | (.error e, w') => (.error e, w') := by
  simp only [outcome, ExceptT.run_bind, StateT.run_bind, Id.run_bind]
  rcases Id.run (StateT.run m.run w) with ⟨_ | _, _⟩ <;> rfl

theorem outcome_bind_ok {w w' : World σ} {m : Run σ α} {a : α} (h : m.outcome w = (.ok a, w'))
    (f : α → Run σ β) : (m >>= f).outcome w = (f a).outcome w' := by
  rw [outcome_bind, h]

@[simp] theorem outcome_map (g : α → β) (m : Run σ α) :
    (g <$> m).outcome w = ((m.outcome w).1.map g, (m.outcome w).2) := by
  rw [map_eq_pure_bind, outcome_bind]
  rcases m.outcome w with ⟨_ | _, _⟩ <;> rfl

@[simp] theorem outcome_discard (m : Run σ α) :
    (discard m).outcome w = ((m.outcome w).1.map fun _ => (), (m.outcome w).2) :=
  outcome_map w (fun _ => ()) m

@[simp] theorem outcome_get : (get : Run σ (World σ)).outcome w = (.ok w, w) := rfl

@[simp] theorem outcome_set (w' : World σ) : (set w' : Run σ Unit).outcome w = (.ok (), w') := rfl

@[simp] theorem outcome_lift (m : Except Error α) :
    (liftM m : Run σ α).outcome w = (m, w) := rfl

@[simp] theorem outcome_onStore (f : Store → α × Store) :
    (onStore f : Run σ α).outcome w = (.ok (f w.store).1, { w with store := (f w.store).2 }) := rfl

theorem outcome_tryStore (f : Store → Except Error (α × Store)) :
    (tryStore f : Run σ α).outcome w = match f w.store with
      | .ok (a, s) => (.ok a, { w with store := s })
      | .error e => (.error e, w) := by
  simp only [tryStore, outcome_bind, outcome_get, outcome_lift]
  rcases f w.store with _ | ⟨a, s⟩ <;> rfl

@[simp] theorem outcome_elements (t : Tensor) :
    (elements t : Run σ (List Nat)).outcome w = (.ok (t.elements w.store), w) := rfl

@[simp] theorem outcome_setElements (t : Tensor) (xs : List Nat) :
    (setElements t xs : Run σ Unit).outcome w
      = (.ok (), { w with store := t.store xs w.store }) := rfl

end Run

namespace Call

variable {σ α β : Type} (f : Frame) (w : World σ)

/-- The outcome of a computation within a call, with the frame and the world after it. -/
def eval (m : Call σ α) (f : Frame) (w : World σ) : (Except Error α × Frame) × World σ :=
  Id.run (StateT.run (StateT.run m.run f) w)

theorem outcome_outcome (m : Call σ α) : (m.outcome f).outcome w = (.ok (m.eval f w).1, (m.eval f w).2) :=
  rfl

theorem eval_bind (m : Call σ α) (k : α → Call σ β) :
    (m >>= k).eval f w = match m.eval f w with
      | ((.ok a, f'), w') => (k a).eval f' w'
      | ((.error e, f'), w') => ((.error e, f'), w') := by
  simp only [eval, ExceptT.run_bind, StateT.run_bind, Id.run_bind]
  rcases Id.run (StateT.run (StateT.run m.run f) w) with ⟨⟨_ | _, _⟩, _⟩ <;> rfl

theorem eval_bind_ok {f f' : Frame} {w w' : World σ} {m : Call σ α} {a : α}
    (h : m.eval f w = ((.ok a, f'), w')) (k : α → Call σ β) : (m >>= k).eval f w = (k a).eval f' w' := by
  rw [eval_bind, h]

@[simp] theorem eval_get : (get : Call σ Frame).eval f w = ((.ok f, f), w) := rfl

@[simp] theorem eval_set (f' : Frame) : (set f' : Call σ Unit).eval f w = ((.ok (), f'), w) := rfl

@[simp] theorem eval_modify (g : Frame → Frame) :
    (modify g : Call σ Unit).eval f w = ((.ok (), g f), w) := rfl

@[simp] theorem eval_getWorld : (getThe (World σ) : Call σ (World σ)).eval f w = ((.ok w, f), w) := rfl

@[simp] theorem eval_ofRun (m : Run σ α) :
    (ofRun m).eval f w = (((m.outcome w).1, f), (m.outcome w).2) := rfl

@[simp] theorem eval_lift (m : Except Error α) : (liftM m : Call σ α).eval f w = ((m, f), w) := rfl

end Call

end TensorGraph
