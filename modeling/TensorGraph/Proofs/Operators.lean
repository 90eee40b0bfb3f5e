import TensorGraph.Proofs.Effects

/-! # What the reference operators do

Each operator first looks at its operands and fails if they are not as it needs them, and then makes its
output (`outcome_relu`, `outcome_binary`, …). -/

namespace TensorGraph

variable {σ : Type}

/-! ### Operands -/

theorem Tensor.resolvedShape_eq_ok {t : Tensor} {shape : Shape} :
    t.resolvedShape = .ok shape ↔ t.shape = some shape := by
  unfold resolvedShape
  cases t.shape <;> simp

theorem Layout.broadcastTo_eq_ok {l view : Layout} {target : Shape} :
    l.broadcastTo target = .ok view ↔ l.broadcastTo? target = some view := by
  unfold broadcastTo
  cases l.broadcastTo? target <;> simp

namespace Operand

variable {operation : Operation}

theorem one_eq_ok {inputs : List Tensor} {x : Tensor} :
    one operation inputs = .ok x ↔ inputs = [x] := by
  unfold one
  split <;> simp_all

theorem two_eq_ok {inputs : List Tensor} {x y : Tensor} :
    two operation inputs = .ok (x, y) ↔ inputs = [x, y] := by
  unfold two
  split <;> simp_all

theorem output_eq_ok {dtype : DType} {outputs : List Tensor} {out : Tensor} :
    output operation dtype outputs = .ok out ↔ outputs = [out] ∧ out.dtype = dtype := by
  unfold output
  split
  · split
    · simp_all
      rintro rfl
      assumption
    · simp_all
      rintro rfl
      assumption
  · simp_all

theorem variables_eq_ok {c : Context} {r : Ref Variables} :
    Operand.variables operation c = .ok r ↔ c.variables = some r := by
  unfold Operand.variables
  cases c.variables <;> simp

theorem variableId_eq_ok {id : VariableId} :
    variableId operation = .ok id ↔ operation.varId = some id := by
  unfold variableId
  cases operation.varId <;> simp

end Operand

/-! ### Elementwise operators -/

/-- The outcome of storing elements in a tensor that is first given a shape. -/
def Run.storeResized (out : Tensor) (shape : Shape) (xs : Store → List Nat) (w : World σ) :
    Except Error (List Tensor) × World σ :=
  let (t, s) := out.resize shape w.store
  (.ok [t], { w with store := t.store (xs s) s })

namespace Elementwise

/-- The operands of `Relu`: the input, its shape and the output. -/
def reluOperands (operation : Operation) (outputs inputs : List Tensor) :
    Except Error (Tensor × Shape × Tensor) := do
  let x ← Operand.one operation inputs
  let shape ← x.resolvedShape
  let out ← Operand.output operation x.dtype outputs
  return (x, shape, out)

theorem reluOperands_eq_ok {operation : Operation} {outputs inputs : List Tensor} {x out : Tensor}
    {shape : Shape} : reluOperands operation outputs inputs = .ok (x, shape, out) ↔
      inputs = [x] ∧ x.shape = some shape ∧ outputs = [out] ∧ out.dtype = x.dtype := by
  unfold reluOperands
  simp only [bind_eq_ok, pure_eq_ok, Prod.mk.injEq, Operand.one_eq_ok, Tensor.resolvedShape_eq_ok,
    Operand.output_eq_ok]
  constructor
  · rintro ⟨_, rfl, _, hshape, _, ⟨rfl, hdtype⟩, rfl, rfl, rfl⟩
    exact ⟨rfl, hshape, rfl, hdtype⟩
  · rintro ⟨rfl, hshape, rfl, hdtype⟩
    exact ⟨x, rfl, shape, hshape, out, ⟨rfl, hdtype⟩, rfl, rfl, rfl⟩

theorem outcome_relu [HalfConversion] (operation : Operation) (outputs inputs : List Tensor) (c : Context)
    (w : World σ) :
    (relu operation outputs inputs c).outcome w = match reluOperands operation outputs inputs with
      | .error error => (.error error, w)
      | .ok (x, shape, out) => Run.storeResized out shape
          (fun s => mapElements x.dtype positivePart (x.elements s)) w := by
  simp only [relu, reluOperands, Run.outcome_bind, Run.outcome_lift]
  rcases Operand.one operation inputs with _ | x
  · rfl
  simp only [ok_bind]
  rcases x.resolvedShape with _ | shape
  · rfl
  simp only [ok_bind]
  rcases Operand.output operation x.dtype outputs with _ | out <;> rfl

/-- The operands of a binary operator: the inputs, the common shape, the views of both, the output. -/
def binaryOperands (operation : Operation) (outputs inputs : List Tensor) :
    Except Error (Tensor × Tensor × Shape × Layout × Layout × Tensor) := do
  let (x, y) ← Operand.two operation inputs
  if x.dtype ≠ y.dtype then
    throw (.dtypeMismatch x.dtype y.dtype)
  let left ← x.resolvedShape
  let right ← y.resolvedShape
  let shape ← Shape.broadcast left right
  let leftView ← (Layout.contiguous left).broadcastTo shape
  let rightView ← (Layout.contiguous right).broadcastTo shape
  let out ← Operand.output operation x.dtype outputs
  return (x, y, shape, leftView, rightView, out)

theorem binaryOperands_eq_ok {operation : Operation} {outputs inputs : List Tensor}
    {x y out : Tensor} {shape : Shape} {leftView rightView : Layout} :
    binaryOperands operation outputs inputs = .ok (x, y, shape, leftView, rightView, out) ↔
      inputs = [x, y] ∧ x.dtype = y.dtype ∧ outputs = [out] ∧ out.dtype = x.dtype ∧
        ∃ left right, x.shape = some left ∧ y.shape = some right ∧
          Shape.broadcast? left right = some shape ∧
          (Layout.contiguous left).broadcastTo? shape = some leftView ∧
          (Layout.contiguous right).broadcastTo? shape = some rightView := by
  unfold binaryOperands
  rw [bind_eq_ok]
  constructor
  · rintro ⟨⟨x', y'⟩, hinputs, h⟩
    simp only at h
    split at h
    · simp [bind_eq_ok] at h
    rename_i hdtype
    simp only [bind_eq_ok, pure_eq_ok, Prod.mk.injEq, Tensor.resolvedShape_eq_ok,
      Shape.broadcast_eq_ok, Layout.broadcastTo_eq_ok, Operand.output_eq_ok] at h
    obtain ⟨left, hleft, right, hright, _, hshape, _, hlv, _, hrv, _, ⟨hout, hodtype⟩, rfl, rfl, rfl,
      rfl, rfl, rfl⟩ := h
    exact ⟨Operand.two_eq_ok.mp hinputs, not_not.mp hdtype, hout, hodtype, left, right, hleft, hright,
      hshape, hlv, hrv⟩
  · rintro ⟨rfl, hdtype, rfl, hodtype, left, right, hleft, hright, hshape, hlv, hrv⟩
    refine ⟨(x, y), rfl, ?_⟩
    simp only [hdtype, ne_eq, not_true_eq_false, ↓reduceIte, bind_eq_ok, pure_eq_ok,
      Tensor.resolvedShape_eq_ok, Shape.broadcast_eq_ok, Layout.broadcastTo_eq_ok,
      Operand.output_eq_ok]
    exact ⟨left, hleft, right, hright, shape, hshape, leftView, hlv, rightView, hrv, out,
      ⟨rfl, hodtype.trans hdtype⟩, rfl⟩

theorem outcome_binary [HalfConversion] (f : Float → Float → Float) (operation : Operation)
    (outputs inputs : List Tensor) (c : Context) (w : World σ) :
    (binary f operation outputs inputs c).outcome w
      = match binaryOperands operation outputs inputs with
        | .error error => (.error error, w)
        | .ok (x, y, shape, leftView, rightView, out) => Run.storeResized out shape
            (fun s => zipElements x.dtype f (gather (x.elements s) leftView)
              (gather (y.elements s) rightView)) w := by
  simp only [binary, binaryOperands, Run.outcome_bind, Run.outcome_lift]
  rcases Operand.two operation inputs with _ | ⟨x, y⟩
  · rfl
  simp only [ok_bind]
  split
  · rfl
  simp only [Run.outcome_bind, Run.outcome_lift]
  rcases x.resolvedShape with _ | left
  · rfl
  simp only [ok_bind]
  rcases y.resolvedShape with _ | right
  · rfl
  simp only [ok_bind]
  rcases Shape.broadcast left right with _ | shape
  · rfl
  simp only [ok_bind]
  rcases (Layout.contiguous left).broadcastTo shape with _ | leftView
  · rfl
  simp only [ok_bind]
  rcases (Layout.contiguous right).broadcastTo shape with _ | rightView
  · rfl
  simp only [ok_bind]
  rcases Operand.output operation x.dtype outputs with _ | out <;> rfl

end Elementwise

/-! ### Stateful operators -/

namespace World

/-- The world in which a variable has a value. -/
def setVariable (w : World σ) (r : Ref Variables) (id : VariableId) (t : Tensor) : World σ :=
  w.putVariables r ((w.variables.get r).set id t)

/-- The value of a variable and the world with it; a variable without one gets what `init` makes. -/
def valueOrInit (w : World σ) (r : Ref Variables) (id : VariableId)
    (init : Store → Tensor × Store) : Tensor × World σ :=
  match (w.variables.get r).get? id with
  | some t => (t, w)
  | none =>
    let (t, s) := init w.store
    (t, { w with store := s }.setVariable r id t)

/-- A copy of a tensor and the world with it. -/
def copied (w : World σ) (t : Tensor) : Tensor × World σ :=
  let (t, s) := t.deepCopy w.store
  (t, { w with store := s })

end World

namespace Stateful

theorem outcome_valueOrInit (r : Ref Variables) (id : VariableId) (init : Store → Tensor × Store)
    (w : World σ) :
    (valueOrInit r id init).outcome w
      = (.ok (w.valueOrInit r id init).1, (w.valueOrInit r id init).2) := by
  have hvalue : (value? r id).outcome w = (.ok ((w.variables.get r).get? id), w) := rfl
  rw [valueOrInit, Run.outcome_bind_ok hvalue, World.valueOrInit]
  cases (w.variables.get r).get? id <;> rfl

/-- The operands of `Accumulate`: the input, its shape, and the variable. -/
def accumulateOperands (operation : Operation) (inputs : List Tensor) (c : Context) :
    Except Error (Tensor × Shape × Ref Variables × VariableId) := do
  let x ← Operand.one operation inputs
  let shape ← x.resolvedShape
  let r ← Operand.variables operation c
  let id ← Operand.variableId operation
  return (x, shape, r, id)

theorem accumulateOperands_eq_ok {operation : Operation} {inputs : List Tensor} {c : Context}
    {x : Tensor} {shape : Shape} {r : Ref Variables} {id : VariableId} :
    accumulateOperands operation inputs c = .ok (x, shape, r, id) ↔
      inputs = [x] ∧ x.shape = some shape ∧ c.variables = some r ∧ operation.varId = some id := by
  unfold accumulateOperands
  simp only [bind_eq_ok, pure_eq_ok, Prod.mk.injEq, Operand.one_eq_ok, Tensor.resolvedShape_eq_ok,
    Operand.variables_eq_ok, Operand.variableId_eq_ok]
  constructor
  · rintro ⟨_, rfl, _, hshape, _, hr, _, hid, rfl, rfl, rfl, rfl⟩
    exact ⟨rfl, hshape, hr, hid⟩
  · rintro ⟨rfl, hshape, hr, hid⟩
    exact ⟨x, rfl, shape, hshape, r, hr, id, hid, rfl, rfl, rfl, rfl⟩

/-- The sum with the input added to it, in a new tensor, and the world in which the variable has it. -/
def grown [HalfConversion] (w : World σ) (x : Tensor) (shape : Shape) (r : Ref Variables) (id : VariableId)
    (sum : Tensor) : Tensor × World σ :=
  let (t, s) := Tensor.zeros x.dtype shape w.store
  let xs := Elementwise.zipElements x.dtype (· + ·) (sum.elements w.store) (x.elements w.store)
  (t, { w with store := t.store xs s }.setVariable r id t)

/-- Refuses a sum of another type or shape than the input. -/
def checkSum (sum x : Tensor) (shape : Shape) : Except Error Unit := do
  if sum.dtype ≠ x.dtype then
    throw (.dtypeMismatch sum.dtype x.dtype)
  if sum.shape ≠ some shape then
    throw (.shapeMismatch sum.extents shape)

theorem checkSum_eq_ok {sum x : Tensor} {shape : Shape} :
    checkSum sum x shape = .ok () ↔ sum.dtype = x.dtype ∧ sum.shape = some shape := by
  unfold checkSum
  by_cases hdtype : sum.dtype = x.dtype <;> by_cases hshape : sum.shape = some shape <;>
    simp [hdtype, hshape, bind_eq_ok]

theorem outcome_accumulate [HalfConversion] (operation : Operation) (outputs inputs : List Tensor) (c : Context)
    (w : World σ) :
    (accumulate operation outputs inputs c).outcome w
      = match accumulateOperands operation inputs c with
        | .error error => (.error error, w)
        | .ok (x, shape, r, id) =>
          let (sum, w) := w.valueOrInit r id (Tensor.zeros x.dtype shape)
          match checkSum sum x shape with
          | .error error => (.error error, w)
          | .ok () =>
            let (next, w) := grown w x shape r id sum
            match Operand.output operation x.dtype outputs with
            | .error error => (.error error, w)
            | .ok _ => (.ok [(w.copied next).1], (w.copied next).2) := by
  simp only [accumulate, accumulateOperands, Run.outcome_bind, Run.outcome_lift]
  rcases Operand.one operation inputs with _ | x
  · rfl
  simp only [ok_bind]
  rcases x.resolvedShape with _ | shape
  · rfl
  simp only [ok_bind]
  rcases Operand.variables operation c with _ | r
  · rfl
  simp only [ok_bind]
  rcases Operand.variableId operation with _ | id
  · rfl
  simp only [ok_bind, outcome_valueOrInit, pure, Except.pure]
  generalize w.valueOrInit r id (Tensor.zeros x.dtype shape) = p
  obtain ⟨sum, w⟩ := p
  by_cases hdtype : sum.dtype = x.dtype
  · by_cases hshape : sum.shape = some shape
    · have hsum : checkSum sum x shape = .ok () := checkSum_eq_ok.mpr ⟨hdtype, hshape⟩
      simp only [hsum, hdtype, hshape, ne_eq, not_true_eq_false, ↓reduceIte, Run.outcome_bind, Run.outcome_elements,
        Run.outcome_onStore, Run.outcome_setElements, Run.outcome_discard, Run.outcome_lift]
      rcases Operand.output operation x.dtype outputs with _ | out <;> rfl
    · simp only [checkSum, hdtype, hshape, ne_eq, not_true_eq_false, not_false_eq_true, ↓reduceIte]
      rfl
  · simp only [checkSum, hdtype, ne_eq, not_false_eq_true, ↓reduceIte]
    rfl

/-- The variable of an operation. -/
def variableOperands (operation : Operation) (c : Context) :
    Except Error (Ref Variables × VariableId) := do
  let r ← Operand.variables operation c
  let id ← Operand.variableId operation
  return (r, id)

theorem variableOperands_eq_ok {operation : Operation} {c : Context} {r : Ref Variables}
    {id : VariableId} : variableOperands operation c = .ok (r, id) ↔
      c.variables = some r ∧ operation.varId = some id := by
  unfold variableOperands
  simp only [bind_eq_ok, pure_eq_ok, Prod.mk.injEq, Operand.variables_eq_ok,
    Operand.variableId_eq_ok]
  constructor
  · rintro ⟨_, hr, _, hid, rfl, rfl⟩
    exact ⟨hr, hid⟩
  · rintro ⟨hr, hid⟩
    exact ⟨r, hr, id, hid, rfl, rfl⟩

theorem outcome_readValue (operation : Operation) (outputs inputs : List Tensor) (c : Context)
    (w : World σ) :
    (readValue operation outputs inputs c).outcome w
      = match variableOperands operation c with
        | .error error => (.error error, w)
        | .ok (r, id) =>
          match ((w.variables.get r).get? id).or inputs.head? with
          | none => (.error ((OperatorFault.noValue id).toError operation), w)
          | some source =>
            let (value, w) := w.copied source
            match outputs with
            | [] => (.error (OperatorFault.noOutput.toError operation), w)
            | _ :: rest => (.ok (value :: rest), w) := by
  simp only [readValue, variableOperands, Run.outcome_bind, Run.outcome_lift]
  rcases Operand.variables operation c with _ | r
  · rfl
  simp only [ok_bind]
  rcases Operand.variableId operation with _ | id
  · rfl
  have hvalue : (value? r id).outcome w = (.ok ((w.variables.get r).get? id), w) := rfl
  simp only [ok_bind, hvalue, pure, Except.pure]
  cases (w.variables.get r).get? id with
  | some t => cases outputs <;> rfl
  | none =>
      cases inputs with
      | nil => rfl
      | cons x inputs => cases outputs <;> rfl

/-- The operands of `Assign`: the input and the variable. -/
def assignOperands (operation : Operation) (inputs : List Tensor) (c : Context) :
    Except Error (Tensor × Ref Variables × VariableId) := do
  let x ← Operand.one operation inputs
  let (r, id) ← variableOperands operation c
  return (x, r, id)

theorem assignOperands_eq_ok {operation : Operation} {inputs : List Tensor} {c : Context}
    {x : Tensor} {r : Ref Variables} {id : VariableId} :
    assignOperands operation inputs c = .ok (x, r, id) ↔
      inputs = [x] ∧ c.variables = some r ∧ operation.varId = some id := by
  unfold assignOperands
  rw [bind_eq_ok]
  constructor
  · rintro ⟨x', hx, h⟩
    obtain ⟨⟨r', id'⟩, hvariable, h⟩ := bind_eq_ok.mp h
    cases h
    exact ⟨Operand.one_eq_ok.mp hx, variableOperands_eq_ok.mp hvariable⟩
  · rintro ⟨rfl, hvariable⟩
    exact ⟨x, rfl, bind_eq_ok.mpr ⟨(r, id), variableOperands_eq_ok.mpr hvariable, rfl⟩⟩

theorem outcome_assign (operation : Operation) (outputs inputs : List Tensor) (c : Context)
    (w : World σ) :
    (assign operation outputs inputs c).outcome w
      = match assignOperands operation inputs c with
        | .error error => (.error error, w)
        | .ok (x, r, id) =>
          let (t, w) := w.copied x
          let w := w.setVariable r id t
          match Operand.output operation x.dtype outputs with
          | .error error => (.error error, w)
          | .ok _ => (.ok [(w.copied x).1], (w.copied x).2) := by
  simp only [assign, assignOperands, variableOperands, Run.outcome_bind, Run.outcome_lift]
  rcases Operand.one operation inputs with _ | x
  · rfl
  simp only [ok_bind]
  rcases Operand.variables operation c with _ | r
  · rfl
  simp only [ok_bind]
  rcases Operand.variableId operation with _ | id
  · rfl
  simp only [ok_bind, Run.outcome_discard, Run.outcome_lift, pure, Except.pure]
  rcases Operand.output operation x.dtype outputs with _ | out <;> rfl

end Stateful

/-! ### What is reached -/

namespace World

variable {W : BufferId → Prop} {w w' : World σ}

theorem get_setVariable (w : World σ) (r : Ref Variables) (id : VariableId) (t : Tensor)
    (r' : Ref Variables) : (w.setVariable r id t).variables.get r'
      = if r' = r ∧ w.variables.Has r then (w.variables.get r).set id t else w.variables.get r' :=
  Table.get_put _ r r' _

theorem Reaches.setVariable (h : w.Reaches W w') (r : Ref Variables) (id : VariableId) {t : Tensor}
    (ht : w.store.IsNew w'.store t) : w.Reaches W (w'.setVariable r id t) where
  store := h.store
  same := by
    obtain ⟨_, _, rfl⟩ := h.same
    exact ⟨_, _, rfl⟩
  has r' hr' := (Table.has_put _ r r' _).mpr (h.has r' hr')
  values r' id' u hu := by
    rw [get_setVariable] at hu
    split at hu
    · rename_i hr
      by_cases hid : id' = id
      · rw [hid, Variables.get?_set_same] at hu
        obtain rfl := Option.some.inj hu
        exact .inr ht
      · rw [Variables.get?_set_ne _ hid, ← hr.1] at hu
        exact h.values r' id' u hu
    · exact h.values r' id' u hu

theorem Reaches.store_step (h : w.Reaches W w') {s : Store} (hs : w'.store.Within W s) :
    w.Reaches W { w' with store := s } :=
  h.trans (.of_store hs) fun _ _ hb => hb

theorem Reaches.copied (h : w.Reaches W w') (t : Tensor) :
    w.Reaches W (w'.copied t).2 ∧ w.store.IsNew (w'.copied t).2.store (w'.copied t).1 :=
  ⟨h.store_step (Tensor.within_deepCopy W t w'.store),
    (Tensor.isNew_deepCopy t w'.store).of_later h.store⟩

theorem Reaches.valueOrInit (h : w.Reaches W w') (r : Ref Variables) (id : VariableId)
    (dtype : DType) (shape : Shape) :
    w.Reaches W (w'.valueOrInit r id (Tensor.zeros dtype shape)).2 := by
  unfold World.valueOrInit
  cases (w'.variables.get r).get? id with
  | some t => exact h
  | none =>
      exact (h.store_step (Tensor.within_zeros W dtype shape w'.store)).setVariable r id
        ((Tensor.isNew_zeros dtype shape w'.store).of_later h.store)

theorem Reaches.grown [HalfConversion] (h : w.Reaches W w') (x : Tensor) (shape : Shape) (r : Ref Variables)
    (id : VariableId) (sum : Tensor) : w.Reaches W (Stateful.grown w' x shape r id sum).2 := by
  have hnew := (Tensor.isNew_zeros x.dtype shape w'.store).of_later h.store
  have hzeros := h.store_step (Tensor.within_zeros W x.dtype shape w'.store)
  have hstore := hzeros.trans (.of_store (Tensor.within_store _
    (Elementwise.zipElements x.dtype (· + ·) (sum.elements w'.store) (x.elements w'.store)) _))
    fun b hb hbt => absurd (hbt ▸ hb) hnew.1
  exact hstore.setVariable r id ⟨hnew.1, (Tensor.within_store _ _ _).grows _ hnew.2⟩

end World

/-- What an evaluator may do with its operands: write into the buffers of its outputs, and give back
outputs as handed in and new tensors. -/
def Run.Contained (outputs : List Tensor) (w : World σ)
    (o : Except Error (List Tensor) × World σ) : Prop :=
  w.Reaches (∃ t ∈ outputs, t.buffer = ·) o.2 ∧
    ∀ ts, o.1 = .ok ts → ∀ t ∈ ts, t ∈ outputs ∨ w.store.IsNew o.2.store t

namespace Run

variable {outputs : List Tensor} {w w' : World σ}

theorem Contained.of_error {error : Error} (h : w.Reaches (∃ t ∈ outputs, t.buffer = ·) w') :
    Contained outputs w (.error error, w') :=
  ⟨h, nofun⟩

theorem Contained.of_ok {ts : List Tensor} (h : w.Reaches (∃ t ∈ outputs, t.buffer = ·) w')
    (hts : ∀ t ∈ ts, t ∈ outputs ∨ w.store.IsNew w'.store t) : Contained outputs w (.ok ts, w') :=
  ⟨h, fun _ heq => Except.ok.inj heq ▸ hts⟩

theorem contained_storeResized (out : Tensor) (shape : Shape) (xs : Store → List Nat) (w : World σ) :
    Contained [out] w (storeResized out shape xs w) := by
  have hresize := Tensor.resize_eq_or_isNew out shape w.store
  have hgrown := World.Reaches.of_store (w := w)
    (Tensor.within_resize (∃ t ∈ [out], t.buffer = ·) out shape w.store)
  unfold storeResized
  generalize out.resize shape w.store = p at hresize hgrown ⊢
  obtain ⟨t, s⟩ := p
  refine .of_ok (hgrown.trans (.of_store (t.within_store (xs s) s)) fun b hb hbt => ?_) fun u hu => ?_
  · rcases hresize with hout | hnew
    · exact ⟨out, List.mem_singleton_self out, by rw [hbt, ← hout]⟩
    · exact absurd (hbt ▸ hb) hnew.1
  · rw [List.mem_singleton.mp hu]
    rcases hresize with hout | hnew
    · exact .inl (List.mem_singleton.mpr hout)
    · exact .inr ⟨hnew.1, (t.within_store (xs s) s).grows _ hnew.2⟩

theorem contained_relu [HalfConversion] (operation : Operation) (outputs inputs : List Tensor) (c : Context)
    (w : World σ) :
    Contained outputs w ((Elementwise.relu operation outputs inputs c).outcome w) := by
  rw [Elementwise.outcome_relu]
  rcases hoperands : Elementwise.reluOperands operation outputs inputs with _ | ⟨x, shape, out⟩
  · exact .of_error (.refl _ w)
  · obtain ⟨_, _, rfl, _⟩ := Elementwise.reluOperands_eq_ok.mp hoperands
    exact contained_storeResized out shape _ w

theorem contained_binary [HalfConversion] (f : Float → Float → Float) (operation : Operation)
    (outputs inputs : List Tensor) (c : Context) (w : World σ) :
    Contained outputs w ((Elementwise.binary f operation outputs inputs c).outcome w) := by
  rw [Elementwise.outcome_binary]
  rcases hoperands : Elementwise.binaryOperands operation outputs inputs
    with _ | ⟨x, y, shape, leftView, rightView, out⟩
  · exact .of_error (.refl _ w)
  · obtain ⟨_, _, rfl, _⟩ := Elementwise.binaryOperands_eq_ok.mp hoperands
    exact contained_storeResized out shape _ w

/-- Whatever comes before, the copy that is given back is new. -/
theorem contained_copied (h : w.Reaches (∃ t ∈ outputs, t.buffer = ·) w') (source : Tensor) :
    Contained outputs w (.ok [(w'.copied source).1], (w'.copied source).2) := by
  obtain ⟨hcopied, hnew⟩ := h.copied source
  exact .of_ok hcopied fun t ht => .inr (List.mem_singleton.mp ht ▸ hnew)

theorem contained_accumulate [HalfConversion] (operation : Operation) (outputs inputs : List Tensor) (c : Context)
    (w : World σ) :
    Contained outputs w ((Stateful.accumulate operation outputs inputs c).outcome w) := by
  rw [Stateful.outcome_accumulate]
  rcases Stateful.accumulateOperands operation inputs c with _ | ⟨x, shape, r, id⟩
  · exact .of_error (.refl _ w)
  · have hinit := (World.Reaches.refl (∃ t ∈ outputs, t.buffer = ·) w).valueOrInit r id x.dtype shape
    simp only
    split
    · exact .of_error hinit
    · have hgrown := hinit.grown x shape r id (w.valueOrInit r id (Tensor.zeros x.dtype shape)).1
      split
      · exact .of_error hgrown
      · exact contained_copied hgrown _

theorem contained_readValue (operation : Operation) (outputs inputs : List Tensor) (c : Context)
    (w : World σ) :
    Contained outputs w ((Stateful.readValue operation outputs inputs c).outcome w) := by
  rw [Stateful.outcome_readValue]
  rcases Stateful.variableOperands operation c with _ | ⟨r, id⟩
  · exact .of_error (.refl _ w)
  · simp only
    split
    · exact .of_error (.refl _ w)
    · rename_i source _
      obtain ⟨hcopied, hnew⟩ := (World.Reaches.refl (∃ t ∈ outputs, t.buffer = ·) w).copied source
      cases outputs with
      | nil => exact .of_error hcopied
      | cons out rest =>
          refine .of_ok hcopied fun t ht => ?_
          rcases List.mem_cons.mp ht with rfl | ht
          · exact .inr hnew
          · exact .inl (List.mem_cons_of_mem _ ht)

theorem contained_assign (operation : Operation) (outputs inputs : List Tensor) (c : Context)
    (w : World σ) :
    Contained outputs w ((Stateful.assign operation outputs inputs c).outcome w) := by
  rw [Stateful.outcome_assign]
  rcases Stateful.assignOperands operation inputs c with _ | ⟨x, r, id⟩
  · exact .of_error (.refl _ w)
  · obtain ⟨hcopied, hnew⟩ := (World.Reaches.refl (∃ t ∈ outputs, t.buffer = ·) w).copied x
    have hset := hcopied.setVariable r id hnew
    simp only
    split
    · exact .of_error hset
    · exact contained_copied hset x

end Run

namespace ReferenceOp

/-- No reference operator writes into buffers other than those of its outputs. -/
theorem contained_evaluate [HalfConversion] (op : ReferenceOp) (operation : Operation) (outputs inputs : List Tensor)
    (c : Context) (w : World σ) :
    Run.Contained outputs w ((op.evaluator.evaluate operation outputs inputs c).outcome w) := by
  cases op with
  | relu => exact Run.contained_relu operation outputs inputs c w
  | add => exact Run.contained_binary (· + ·) operation outputs inputs c w
  | subtract => exact Run.contained_binary (· - ·) operation outputs inputs c w
  | multiply => exact Run.contained_binary (· * ·) operation outputs inputs c w
  | accumulate => exact Run.contained_accumulate operation outputs inputs c w
  | readValue => exact Run.contained_readValue operation outputs inputs c w
  | assign => exact Run.contained_assign operation outputs inputs c w

end ReferenceOp

end TensorGraph
