import Mathlib.Data.List.Nodup
import TensorGraph.DType.Half
import TensorGraph.Proofs.Agreement
import TensorGraph.Proofs.Soundness

/-! # Stateful operators that fail

`ReadValue` changes no variable, and `Accumulate` and `Assign` change theirs only after they have looked
at their operands and at the value that the variable had.  The outputs are looked at last, when the
variable has its new value already: a stateful operator that refuses them has stored what it denotes
(`ReferenceOp.StoresFirst`), and one that fails in any other way leaves the values of all variables as
they were (`variables_of_error`). -/

namespace TensorGraph

variable {σ : Type}

/-! ### The variables of other contexts -/

namespace World

variable {w : World σ} {r r' : Ref Variables}

theorem valuesOf_setVariable_of_ne (hne : r' ≠ r) (w : World σ) (id : VariableId) (t : Tensor) :
    (w.setVariable r id t).valuesOf r' = w.valuesOf r' := by
  funext id'
  unfold valuesOf
  rw [get_setVariable, if_neg fun h => hne h.1]
  rfl

theorem valuesOf_valueOrInit_of_ne (hne : r' ≠ r) (ha : w.Allocates (fun _ => True) r')
    (id : VariableId) (dtype : DType) (shape : Shape) :
    (w.valueOrInit r id (Tensor.zeros dtype shape)).2.valuesOf r' = w.valuesOf r' := by
  unfold valueOrInit
  cases (w.variables.get r).get? id with
  | some t => rfl
  | none =>
      refine (valuesOf_setVariable_of_ne hne _ id _).trans (funext fun id' => ?_)
      exact valuesOf_store (Tensor.within_zeros (fun _ => False) dtype shape w.store)
        fun t ht => ⟨ha id' t trivial ht, not_false⟩

theorem valuesOf_grown_of_ne [HalfConversion] (hne : r' ≠ r) (ha : w.Allocates (fun _ => True) r') (x : Tensor)
    (shape : Shape) (id : VariableId) (sum : Tensor) :
    (Stateful.grown w x shape r id sum).2.valuesOf r' = w.valuesOf r' := by
  have hnew := Tensor.isNew_zeros x.dtype shape w.store
  have hstore := (Tensor.within_zeros (fun _ => False) x.dtype shape w.store).trans
    (Tensor.within_store _ (Elementwise.zipElements x.dtype (· + ·) (sum.elements w.store)
      (x.elements w.store)) _) fun b hb hbt => hnew.1 (hbt ▸ hb)
  refine (valuesOf_setVariable_of_ne hne _ id _).trans (funext fun id' => ?_)
  exact valuesOf_store hstore fun t ht => ⟨ha id' t trivial ht, not_false⟩

end World

/-- New variables have no values. -/
theorem World.sound_addVariables {w : World σ} (hw : w.Sound) : w.addVariables.2.Sound where
  values r id t ht := by
    change ((w.variables.add .empty).2.get r).get? id = some t at ht
    rw [Table.get_added] at ht
    split at ht
    · cases ht
    · exact hw.values r id t ht
  memories := hw.memories

/-! ### Failures -/

namespace ReferenceOp

/-- The operator has given its variable the value that it denotes, and then refuses its outputs. -/
structure StoresFirst [HalfConversion] (op : ReferenceOp) (operation : Operation) (outputs inputs : List Tensor)
    (c : Context) (r : Ref Variables) (w : World σ) (error : Error) (w' : World σ) : Prop where
  stores : op = .accumulate ∨ op = .assign
  context : c.variables = some r
  refused : ∃ x, inputs = [x] ∧ Operand.output operation x.dtype outputs = .error error
  denoted : ∃ v vars, op.denote operation.varId (inputs.map (·.value w.store)) (w.valuesOf r)
    = some (v, vars) ∧ ∀ id, w'.valuesOf r id = vars id

end ReferenceOp

namespace Elementwise

variable {operation : Operation} {outputs inputs : List Tensor} {c : Context} {w w' : World σ}
  {error : Error} [HalfConversion]

theorem relu_of_error (h : (relu operation outputs inputs c).outcome w = (.error error, w')) : w' = w := by
  rw [outcome_relu] at h
  split at h
  · exact (Prod.mk.inj h).2.symm
  · cases (Prod.mk.inj h).1

theorem binary_of_error {f : Float → Float → Float}
    (h : (binary f operation outputs inputs c).outcome w = (.error error, w')) : w' = w := by
  rw [outcome_binary] at h
  split at h
  · exact (Prod.mk.inj h).2.symm
  · cases (Prod.mk.inj h).1

end Elementwise

namespace Stateful

variable {operation : Operation} {outputs inputs : List Tensor} {c : Context} {r : Ref Variables}
  {w w' : World σ} {error : Error}

/-- A sum that is refused was there before. -/
theorem valueOrInit_of_checkSum {x sum : Tensor} {shape : Shape} {id : VariableId}
    (hsum : w.valueOrInit r id (Tensor.zeros x.dtype shape) = (sum, w'))
    (hcheck : checkSum sum x shape = .error error) : w' = w := by
  unfold World.valueOrInit at hsum
  cases hget : (w.variables.get r).get? id with
  | some t =>
      rw [hget] at hsum
      exact (Prod.mk.inj hsum).2.symm
  | none =>
      rw [hget] at hsum
      obtain ⟨hzeros, _⟩ := Prod.mk.inj hsum
      have hok : checkSum sum x shape = .ok () := checkSum_eq_ok.mpr (hzeros ▸ ⟨rfl, rfl⟩)
      rw [hcheck] at hok
      cases hok

theorem accumulate_of_error [HalfConversion] (ha : w.Allocates (fun _ => True) r) (hr : w.variables.Has r)
    (hinputs : w.store.Holds inputs)
    (h : (accumulate operation outputs inputs c).outcome w = (.error error, w')) :
    (∀ id, w'.valuesOf r id = w.valuesOf r id) ∨
      ReferenceOp.StoresFirst .accumulate operation outputs inputs c r w error w' := by
  rw [outcome_accumulate] at h
  rcases hoperands : accumulateOperands operation inputs c with _ | ⟨x, shape, r₀, id⟩
  · rw [hoperands] at h
    obtain ⟨_, rfl⟩ := Prod.mk.inj h
    exact .inl fun _ => rfl
  · obtain ⟨rfl, hshape, hc, hid⟩ := accumulateOperands_eq_ok.mp hoperands
    rcases hsum : w.valueOrInit r₀ id (Tensor.zeros x.dtype shape) with ⟨sum, w₁⟩
    rcases hcheck : checkSum sum x shape with _ | _
    · simp only [hoperands, hsum, hcheck] at h
      obtain ⟨_, rfl⟩ := Prod.mk.inj h
      rw [valueOrInit_of_checkSum hsum hcheck]
      exact .inl fun _ => rfl
    · rcases hout : Operand.output operation x.dtype outputs with _ | _
      · simp only [hoperands, hsum, hcheck, hout] at h
        obtain ⟨herror, rfl⟩ := Prod.mk.inj h
        obtain rfl := Except.error.inj herror
        -- The next sum has been stored by now, in the variables of the context and in no others.
        by_cases hne : r = r₀
        · subst hne
          have hx := hinputs x List.mem_cons_self
          obtain ⟨hnext, hvalues⟩ := World.valuesOf_accumulated ha hr hx hshape hsum hcheck
          exact .inr ⟨.inl rfl, hc, ⟨x, rfl, hout⟩, _, _,
            ReferenceOp.denote_accumulate_eq_some.mpr ⟨_, id, rfl, hid, hnext, rfl⟩,
            fun id' => hvalues id' trivial⟩
        · have hinit := (World.Reaches.refl (fun _ => False) w).valueOrInit r₀ id x.dtype shape
          have hsame := World.valuesOf_valueOrInit_of_ne hne ha id x.dtype shape
          rw [hsum] at hinit hsame
          refine .inl fun id' => ?_
          rw [World.valuesOf_grown_of_ne hne (hinit.allocates ha) x shape id sum, hsame]
      · simp only [hoperands, hsum, hcheck, hout] at h
        cases (Prod.mk.inj h).1

theorem readValue_of_error (ha : w.Allocates (fun _ => True) r)
    (h : (readValue operation outputs inputs c).outcome w = (.error error, w')) (id : VariableId) :
    w'.valuesOf r id = w.valuesOf r id := by
  rw [outcome_readValue] at h
  rcases hoperands : variableOperands operation c with _ | ⟨r₀, id₀⟩
  · rw [hoperands] at h
    obtain ⟨_, rfl⟩ := Prod.mk.inj h
    rfl
  · rcases hsource : ((w.variables.get r₀).get? id₀).or inputs.head? with _ | source
    · simp only [hoperands, hsource] at h
      obtain ⟨_, rfl⟩ := Prod.mk.inj h
      rfl
    · cases outputs with
      | nil =>
          simp only [hoperands, hsource] at h
          obtain ⟨_, rfl⟩ := Prod.mk.inj h
          exact World.valuesOf_copied ha source trivial
      | cons out rest =>
          simp only [hoperands, hsource] at h
          cases (Prod.mk.inj h).1

theorem assign_of_error [HalfConversion] (ha : w.Allocates (fun _ => True) r) (hr : w.variables.Has r)
    (h : (assign operation outputs inputs c).outcome w = (.error error, w')) :
    (∀ id, w'.valuesOf r id = w.valuesOf r id) ∨
      ReferenceOp.StoresFirst .assign operation outputs inputs c r w error w' := by
  rw [outcome_assign] at h
  rcases hoperands : assignOperands operation inputs c with _ | ⟨x, r₀, id⟩
  · rw [hoperands] at h
    obtain ⟨_, rfl⟩ := Prod.mk.inj h
    exact .inl fun _ => rfl
  · obtain ⟨rfl, hc, hid⟩ := assignOperands_eq_ok.mp hoperands
    rcases hout : Operand.output operation x.dtype outputs with _ | _
    · simp only [hoperands, hout] at h
      obtain ⟨herror, rfl⟩ := Prod.mk.inj h
      obtain rfl := Except.error.inj herror
      by_cases hne : r = r₀
      · subst hne
        have hdenoted : ReferenceOp.denote .assign operation.varId ([x].map (·.value w.store))
            (w.valuesOf r) = some (x.value w.store,
              Function.update (w.valuesOf r) id (some (x.value w.store))) := by
          simp [ReferenceOp.denote, hid]
        exact .inr ⟨.inr rfl, hc, ⟨x, rfl, hout⟩, _, _, hdenoted,
          fun id' => World.valuesOf_assigned ha hr x id trivial⟩
      · refine .inl fun id' => ?_
        rw [World.valuesOf_setVariable_of_ne hne, World.valuesOf_copied ha x trivial]
    · simp only [hoperands, hout] at h
      cases (Prod.mk.inj h).1

end Stateful

namespace ReferenceOp

/-- **Stateful operators that fail.**  A reference operator that fails leaves the values of all variables
as they were, unless it is `Accumulate` or `Assign` and refuses its outputs: then its variable has the
value that the operator denotes for its input. -/
theorem variables_of_error [HalfConversion] (op : ReferenceOp) (operation : Operation) (outputs inputs : List Tensor)
    (c : Context) (w : World σ) (hw : w.Sound) (hinputs : w.store.Holds inputs) (r : Ref Variables)
    (hr : w.variables.Has r) (error : Error) (w' : World σ)
    (h : (op.evaluator.evaluate operation outputs inputs c).outcome w = (.error error, w')) :
    (∀ id, w'.valuesOf r id = w.valuesOf r id) ∨
      op.StoresFirst operation outputs inputs c r w error w' := by
  have ha : w.Allocates (fun _ => True) r := fun id t _ ht => hw.values r id t ht
  cases op with
  | relu => exact .inl fun id => by rw [Elementwise.relu_of_error (c := c) h]
  | add => exact .inl fun id => by rw [Elementwise.binary_of_error (c := c) h]
  | subtract => exact .inl fun id => by rw [Elementwise.binary_of_error (c := c) h]
  | multiply => exact .inl fun id => by rw [Elementwise.binary_of_error (c := c) h]
  | accumulate => exact Stateful.accumulate_of_error ha hr hinputs h
  | readValue => exact .inl fun id => Stateful.readValue_of_error ha h id
  | assign => exact Stateful.assign_of_error ha hr h

/-! ### An assignment that is refused -/

/-- An `Assign` of a variable. -/
def assignLast : Operation := ⟨0, .assign, none, [0], [1], some ⟨"last"⟩⟩

/-- A context with the variables of a world that has no others. -/
def assignContext : Context := { Context.empty with «variables» := some ⟨0⟩ }

/-- A world with two tensors and a variable that has the value of the first. -/
def assignedFirst : World Unit :=
  let (r, w) := World.addVariables (.empty ())
  let store := ((w.store.alloc #[1, 2]).2.alloc #[3, 4]).2
  let (t, w) := { w with store := store }.copied ⟨.u8, some [2], ⟨0⟩⟩
  w.setVariable r ⟨"last"⟩ t

theorem sound_assignedFirst : assignedFirst.Sound := by
  let w : World Unit := (World.addVariables (.empty ())).2
  have hempty : w.Sound := World.sound_addVariables (World.sound_empty ())
  have hfirst : w.store.Within (fun _ => False) (w.store.alloc #[1, 2]).2 := Store.within_alloc _ _ _
  have hsecond := hfirst.trans (Store.within_alloc (fun _ => False) _ #[3, 4]) fun _ _ hb => hb
  obtain ⟨hcopied, hnew⟩ := (World.Reaches.of_store hsecond).copied ⟨.u8, some [2], ⟨0⟩⟩
  exact (hcopied.setVariable ⟨0⟩ ⟨"last"⟩ hnew).sound hempty

/-- The second tensor is assigned with an output of another element type. -/
theorem variables_of_error_output : ∃ error w',
    StoresFirst .assign assignLast [⟨.i32, none, ⟨1⟩⟩] [⟨.u8, some [2], ⟨1⟩⟩] assignContext ⟨0⟩
      assignedFirst error w' := by
  have hfails : ((ReferenceOp.assign.evaluator.evaluate assignLast [⟨.i32, none, ⟨1⟩⟩]
      [⟨.u8, some [2], ⟨1⟩⟩] assignContext).outcome assignedFirst).1
      = .error (.dtypeMismatch .i32 .u8) := by decide +kernel
  have hchanged : ((ReferenceOp.assign.evaluator.evaluate assignLast [⟨.i32, none, ⟨1⟩⟩]
      [⟨.u8, some [2], ⟨1⟩⟩] assignContext).outcome assignedFirst).2.valuesOf ⟨0⟩ ⟨"last"⟩
      ≠ assignedFirst.valuesOf ⟨0⟩ ⟨"last"⟩ := by decide +kernel
  refine ⟨_, _, (variables_of_error .assign assignLast [⟨.i32, none, ⟨1⟩⟩] [⟨.u8, some [2], ⟨1⟩⟩]
    assignContext assignedFirst sound_assignedFirst (by decide +kernel) ⟨0⟩ (by decide +kernel) _ _
    (Prod.ext hfails rfl)).resolve_left fun hsame => hchanged (hsame _)⟩

/-- The assignment fails, but the variable no longer has the value of the first tensor. -/
theorem assign_stores_before_failing :
    let o := (ReferenceOp.assign.evaluator.evaluate assignLast [⟨.i32, none, ⟨1⟩⟩]
      [⟨.u8, some [2], ⟨1⟩⟩] assignContext).outcome assignedFirst
    o.1 = .error (.dtypeMismatch .i32 .u8) ∧
      assignedFirst.valuesOf ⟨0⟩ ⟨"last"⟩ = some ⟨.u8, some [2], #[1, 2]⟩ ∧
      o.2.valuesOf ⟨0⟩ ⟨"last"⟩ = some ⟨.u8, some [2], #[3, 4]⟩ := by
  decide +kernel

end ReferenceOp

end TensorGraph
