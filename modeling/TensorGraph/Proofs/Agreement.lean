import TensorGraph.Proofs.Operators

/-! # The reference operators compute what they denote

A reference operator that is handed an output in a buffer of its own makes the value that
`ReferenceOp.denote` gives for the values of its inputs and variables, and fails only where that gives
none or one of another element type than the output's (`agrees_evaluate`).  The variables that are
followed are those in `V`; nothing need be known of the others. -/

namespace TensorGraph

variable {σ : Type}

/-! ### The values of variables -/

namespace World

variable {W : BufferId → Prop} {w w' : World σ} {r : Ref Variables}

/-- The values of the variables that a reference names. -/
def valuesOf (w : World σ) (r : Ref Variables) : VariableValues := fun id =>
  ((w.variables.get r).get? id).map (·.value w.store)

/-- A variable keeps its value while its tensor's buffer is not written. -/
theorem valuesOf_store {s : Store} (hs : w.store.Within W s) {id : VariableId}
    (hid : ∀ t, (w.variables.get r).get? id = some t → w.store.Allocated t.buffer ∧ ¬ W t.buffer) :
    valuesOf { w with store := s } r id = w.valuesOf r id := by
  unfold valuesOf
  cases hget : (w.variables.get r).get? id with
  | none => rfl
  | some t =>
      obtain ⟨halloc, hW⟩ := hid t hget
      exact congrArg some (Tensor.value_within hs halloc hW)

theorem valuesOf_setVariable (hr : w.variables.Has r) (id : VariableId) (t : Tensor) :
    (w.setVariable r id t).valuesOf r
      = Function.update (w.valuesOf r) id (some (t.value w.store)) := by
  funext id'
  unfold valuesOf
  rw [get_setVariable, if_pos ⟨rfl, hr⟩]
  by_cases hid : id' = id
  · subst hid
    rw [Function.update_self, Variables.get?_set_same]
    rfl
  · rw [Function.update_of_ne hid, Variables.get?_set_ne _ hid]
    rfl

theorem valuesOf_eq_some {id : VariableId} {t : Tensor}
    (h : (w.variables.get r).get? id = some t) : w.valuesOf r id = some (t.value w.store) := by
  rw [valuesOf, h]
  rfl

theorem valuesOf_eq_none {id : VariableId} (h : (w.variables.get r).get? id = none) :
    w.valuesOf r id = none := by
  rw [valuesOf, h]
  rfl

/-- Variables have the same values in worlds with the same buffers and variables. -/
theorem valuesOf_congr (hstore : w'.store = w.store) (hvars : w'.variables = w.variables) (r : Ref Variables) :
    w'.valuesOf r = w.valuesOf r := by
  unfold valuesOf
  rw [hstore, hvars]

/-- The value of a variable, or the zeros that it is given. -/
theorem value_valueOrInit (w : World σ) (r : Ref Variables) (id : VariableId) (dtype : DType)
    (shape : Shape) :
    (w.valueOrInit r id (Tensor.zeros dtype shape)).1.value
        (w.valueOrInit r id (Tensor.zeros dtype shape)).2.store
      = (w.valuesOf r id).getD (.zeros dtype shape) := by
  unfold valueOrInit
  cases hget : (w.variables.get r).get? id with
  | some t =>
      rw [valuesOf_eq_some hget]
      rfl
  | none =>
      rw [valuesOf_eq_none hget]
      exact Tensor.value_zeros dtype shape w.store

theorem valuesOf_valueOrInit (hr : w.variables.Has r) (id : VariableId) (dtype : DType)
    (shape : Shape) {id' : VariableId}
    (hid : ∀ t, (w.variables.get r).get? id' = some t → w.store.Allocated t.buffer) :
    (w.valueOrInit r id (Tensor.zeros dtype shape)).2.valuesOf r id'
      = Function.update (w.valuesOf r) id
          (some ((w.valuesOf r id).getD (.zeros dtype shape))) id' := by
  unfold valueOrInit
  cases hget : (w.variables.get r).get? id with
  | some t =>
      rw [valuesOf_eq_some hget, Option.getD_some, ← valuesOf_eq_some hget, Function.update_eq_self]
  | none =>
      have hstore := valuesOf_store (Tensor.within_zeros (fun _ => False) dtype shape w.store)
        fun t ht => ⟨hid t ht, not_false⟩
      simp only
      rw [valuesOf_setVariable (w := { w with store := (Tensor.zeros dtype shape w.store).2 }) hr,
        valuesOf_eq_none hget, Option.getD_none]
      by_cases hid : id' = id
      · subst hid
        rw [Function.update_self, Function.update_self]
        exact congrArg some (Tensor.value_zeros dtype shape w.store)
      · rw [Function.update_of_ne hid, Function.update_of_ne hid]
        exact hstore

/-- The variables that are followed lie in buffers of the store. -/
def Allocates (w : World σ) (V : VariableId → Prop) (r : Ref Variables) : Prop :=
  ∀ id t, V id → (w.variables.get r).get? id = some t → w.store.Allocated t.buffer

theorem Reaches.allocates {V : VariableId → Prop} (h : w.Reaches W w') (ha : w.Allocates V r) :
    w'.Allocates V r := by
  intro id t hid ht
  rcases h.values r id t ht with ht | hnew
  · exact h.store.grows _ (ha id t hid ht)
  · exact hnew.2

theorem value_copied (w : World σ) (t : Tensor) :
    (w.copied t).1.value (w.copied t).2.store = t.value w.store :=
  Tensor.value_deepCopy t w.store

theorem valuesOf_copied {V : VariableId → Prop} (ha : w.Allocates V r) (t : Tensor)
    {id : VariableId} (hid : V id) : (w.copied t).2.valuesOf r id = w.valuesOf r id :=
  valuesOf_store (Tensor.within_deepCopy (fun _ => False) t w.store)
    fun u hu => ⟨ha id u hid hu, not_false⟩

/-- The sum after the input was added to it. -/
theorem value_grown [HalfConversion] (w : World σ) (x : Tensor) (shape : Shape) (r : Ref Variables)
    (id : VariableId) (sum : Tensor) :
    (Stateful.grown w x shape r id sum).1.value (Stateful.grown w x shape r id sum).2.store
      = .ofElements x.dtype shape (Elementwise.zipElements x.dtype (· + ·)
          (sum.value w.store).elements (x.value w.store).elements) :=
  Tensor.value_store _ (Tensor.isNew_zeros x.dtype shape w.store).2 rfl

theorem valuesOf_grown [HalfConversion] {V : VariableId → Prop} (ha : w.Allocates V r) (hr : w.variables.Has r)
    (x : Tensor) (shape : Shape) (id : VariableId) (sum : Tensor) {id' : VariableId} (hid : V id') :
    (Stateful.grown w x shape r id sum).2.valuesOf r id'
      = Function.update (w.valuesOf r) id
          (some ((Stateful.grown w x shape r id sum).1.value
            (Stateful.grown w x shape r id sum).2.store)) id' := by
  have hnew := Tensor.isNew_zeros x.dtype shape w.store
  have hstore := (Tensor.within_zeros (fun _ => False) x.dtype shape w.store).trans
    (Tensor.within_store _ (Elementwise.zipElements x.dtype (· + ·) (sum.elements w.store)
      (x.elements w.store)) _) fun b hb hbt => hnew.1 (hbt ▸ hb)
  unfold Stateful.grown
  simp only
  rw [valuesOf_setVariable (by exact hr)]
  by_cases hne : id' = id
  · rw [hne, Function.update_self, Function.update_self]
    rfl
  · rw [Function.update_of_ne hne, Function.update_of_ne hne]
    exact valuesOf_store hstore fun t ht => ⟨ha id' t hid ht, not_false⟩

/-- A sum that was kept is the one that is denoted, and the other variables have the values they had. -/
theorem valuesOf_accumulated [HalfConversion] {V : VariableId → Prop} (ha : w.Allocates V r) (hr : w.variables.Has r)
    {x : Tensor} (hx : w.store.Allocated x.buffer) {shape : Shape} (hshape : x.shape = some shape)
    {id : VariableId} {sum : Tensor}
    (hsum : w.valueOrInit r id (Tensor.zeros x.dtype shape) = (sum, w'))
    (hcheck : Stateful.checkSum sum x shape = .ok ()) :
    let next := (Stateful.grown w' x shape r id sum).1.value (Stateful.grown w' x shape r id sum).2.store
    Value.accumulate (w.valuesOf r id) (x.value w.store) = some next ∧
      ∀ id', V id' → (Stateful.grown w' x shape r id sum).2.valuesOf r id'
        = Function.update (w.valuesOf r) id (some next) id' := by
  intro next
  have hinit := (Reaches.refl (fun _ => False) w).valueOrInit r id x.dtype shape
  have hvalue := w.value_valueOrInit r id x.dtype shape
  have hvalues (id' : VariableId) (hid' : V id') := valuesOf_valueOrInit hr id x.dtype shape
    fun t ht => ha id' t hid' ht
  rw [hsum] at hinit hvalue hvalues
  simp only at hinit hvalue hvalues
  obtain ⟨hdtype, hsame⟩ := Stateful.checkSum_eq_ok.mp hcheck
  refine ⟨Value.accumulate_eq_some.mpr ⟨shape, hshape, ?_, ?_, ?_⟩, fun id' hid' => ?_⟩
  · rw [x.dtype_value, ← hvalue]
    exact hdtype
  · rw [x.dtype_value, ← hvalue]
    exact hsame
  · have hgrown := value_grown w' x shape r id sum
    rw [hvalue, Tensor.value_within hinit.store hx not_false] at hgrown
    exact hgrown.symm
  · rw [valuesOf_grown (hinit.allocates ha) (hinit.has r hr) x shape id sum hid']
    by_cases hne : id' = id
    · rw [hne, Function.update_self, Function.update_self]
    · rw [Function.update_of_ne hne, Function.update_of_ne hne, hvalues id' hid',
        Function.update_of_ne hne]

/-- A variable that was given a copy of a tensor has its value, and the others have the values they had. -/
theorem valuesOf_assigned {V : VariableId → Prop} (ha : w.Allocates V r) (hr : w.variables.Has r)
    (x : Tensor) (id : VariableId) {id' : VariableId} (hid' : V id') :
    ((w.copied x).2.setVariable r id (w.copied x).1).valuesOf r id'
      = Function.update (w.valuesOf r) id (some (x.value w.store)) id' := by
  have hcopied := ((Reaches.refl (fun _ => False) w).copied x).1
  rw [valuesOf_setVariable (hcopied.has r hr), value_copied]
  by_cases hne : id' = id
  · rw [hne, Function.update_self, Function.update_self]
  · rw [Function.update_of_ne hne, Function.update_of_ne hne, valuesOf_copied ha x hid']

end World

/-! ### Agreement -/

/-- What a reference operator may rely on: its inputs and the variables that are followed lie in
buffers of the store and outside that of its output, and the variables have the values `vars`. -/
structure World.Apart (w : World σ) (V : VariableId → Prop) (r : Ref Variables) (out : Tensor)
    (inputs : List Tensor) (vars : VariableValues) : Prop where
  output : w.store.Allocated out.buffer
  operands : ∀ t ∈ inputs, w.store.Allocated t.buffer ∧ t.buffer ≠ out.buffer
  tensors : ∀ id t, V id → (w.variables.get r).get? id = some t →
    w.store.Allocated t.buffer ∧ t.buffer ≠ out.buffer
  values : ∀ id, V id → w.valuesOf r id = vars id

/-- An evaluator has made the one output and the variables that are denoted, or it has failed and
nothing of the output's element type is denoted. -/
def Run.Agrees (V : VariableId → Prop) (r : Ref Variables) (out : Tensor)
    (denoted : Option (Value × VariableValues)) (o : Except Error (List Tensor) × World σ) : Prop :=
  match o.1 with
  | .error _ => ∀ v vars, denoted = some (v, vars) → v.dtype ≠ out.dtype
  | .ok ts => ∃ t vars, ts = [t] ∧ denoted = some (t.value o.2.store, vars) ∧
      ∀ id, V id → o.2.valuesOf r id = vars id

namespace Run

variable {V : VariableId → Prop} {r : Ref Variables} {out : Tensor} {inputs : List Tensor}
  {vars : VariableValues} {w : World σ}

theorem elements_resize (h : w.Apart V r out inputs vars) {x : Tensor} (hx : x ∈ inputs)
    (shape : Shape) : x.elements (out.resize shape w.store).2 = (x.value w.store).elements := by
  have hresize := Tensor.within_resize (fun _ => False) out shape w.store
  rw [Tensor.elements_eq_value, Tensor.value_within hresize (h.operands x hx).1 not_false]

/-- Storing elements in the output makes a value that has them, and leaves the variables alone. -/
theorem agrees_storeResized (h : w.Apart V r out inputs vars) (shape : Shape)
    (xs : Store → List Nat) :
    Agrees V r out
      (some (.ofElements out.dtype shape (xs (out.resize shape w.store).2), vars))
      (storeResized out shape xs w) := by
  have hcontained := (contained_storeResized out shape xs w).1.store
  have halloc : (out.resize shape w.store).2.Allocated (out.resize shape w.store).1.buffer := by
    rcases Tensor.resize_eq_or_isNew out shape w.store with hsame | hnew
    · rw [hsame]
      exact (Tensor.within_resize (fun _ => False) out shape w.store).grows _ h.output
    · exact hnew.2
  refine ⟨(out.resize shape w.store).1, vars, rfl, ?_, fun id hid => ?_⟩
  · have hvalue := Tensor.value_store (xs (out.resize shape w.store).2) halloc
      (Tensor.shape_resize out shape w.store)
    rw [Tensor.dtype_resize] at hvalue
    exact congrArg (fun v => some (v, vars)) hvalue.symm
  · rw [← h.values id hid]
    refine World.valuesOf_store hcontained fun t ht => ⟨(h.tensors id t hid ht).1, ?_⟩
    rintro ⟨u, hu, hbuffer⟩
    rw [List.mem_singleton.mp hu] at hbuffer
    exact (h.tensors id t hid ht).2 hbuffer.symm

theorem agrees_relu [HalfConversion] (h : w.Apart V r out inputs vars) (operation : Operation) (c : Context) :
    Agrees V r out (ReferenceOp.denote .relu operation.varId (inputs.map (·.value w.store)) vars)
      ((Elementwise.relu operation [out] inputs c).outcome w) := by
  rw [Elementwise.outcome_relu]
  rcases hoperands : Elementwise.reluOperands operation [out] inputs with error | ⟨x, shape, out'⟩
  · intro v vars' hdenoted hdtype
    rcases inputs with _ | ⟨x, _ | ⟨y, inputs⟩⟩
    · cases hdenoted
    · obtain ⟨_, hrelu, hv⟩ := Option.map_eq_some_iff.mp hdenoted
      obtain ⟨shape, hshape, rfl⟩ := Value.relu_eq_some.mp hrelu
      obtain ⟨rfl, rfl⟩ := Prod.mk.inj hv
      have hok : Elementwise.reluOperands operation [out] [x] = .ok (x, shape, out) :=
        Elementwise.reluOperands_eq_ok.mpr ⟨rfl, hshape, rfl, hdtype.symm⟩
      rw [hoperands] at hok
      cases hok
    · cases hdenoted
  · obtain ⟨rfl, hshape, hout, hdtype⟩ := Elementwise.reluOperands_eq_ok.mp hoperands
    obtain rfl := List.singleton_inj.mp hout
    have hrelu := Value.relu_eq_some.mpr ⟨shape, (x.shape_value w.store).trans hshape, rfl⟩
    have hagrees := agrees_storeResized h shape
      fun s => Elementwise.mapElements x.dtype Elementwise.positivePart (x.elements s)
    rw [elements_resize h (List.mem_singleton_self x), hdtype] at hagrees
    rw [List.map_singleton, ReferenceOp.denote, hrelu]
    exact hagrees

theorem agrees_binary [HalfConversion] (h : w.Apart V r out inputs vars) (f : Float → Float → Float)
    (operation : Operation) (c : Context) :
    Agrees V r out ((Value.combine f (inputs.map (·.value w.store))).map (·, vars))
      ((Elementwise.binary f operation [out] inputs c).outcome w) := by
  rw [Elementwise.outcome_binary]
  rcases hoperands : Elementwise.binaryOperands operation [out] inputs
    with error | ⟨x, y, shape, leftView, rightView, out'⟩
  · intro v vars' hdenoted hdtype
    obtain ⟨_, hcombine, hv⟩ := Option.map_eq_some_iff.mp hdenoted
    obtain ⟨_, _, hinputs, hbinary⟩ := Value.combine_eq_some.mp hcombine
    obtain ⟨x, _, rfl, rfl, hrest⟩ := List.map_eq_cons_iff.mp hinputs
    obtain ⟨y, _, rfl, rfl, hnil⟩ := List.map_eq_cons_iff.mp hrest
    obtain rfl := List.map_eq_nil_iff.mp hnil
    obtain ⟨hxy, left, right, shape, leftView, rightView, hleft, hright, hshape, hlv, hrv, rfl⟩ :=
      Value.binary_eq_some.mp hbinary
    obtain ⟨rfl, rfl⟩ := Prod.mk.inj hv
    have hok : Elementwise.binaryOperands operation [out] [x, y]
        = .ok (x, y, shape, leftView, rightView, out) :=
      Elementwise.binaryOperands_eq_ok.mpr
        ⟨rfl, hxy, rfl, hdtype.symm, left, right, hleft, hright, hshape, hlv, hrv⟩
    rw [hoperands] at hok
    cases hok
  · obtain ⟨rfl, hxy, hout, hdtype, left, right, hleft, hright, hshape, hlv, hrv⟩ :=
      Elementwise.binaryOperands_eq_ok.mp hoperands
    obtain rfl := List.singleton_inj.mp hout
    have hleft' := (x.shape_value w.store).trans hleft
    have hright' := (y.shape_value w.store).trans hright
    have hbinary := (Value.binary_eq_some (f := f)).mpr ⟨(x.dtype_value w.store).trans hxy, left,
      right, shape, leftView, rightView, hleft', hright', hshape, hlv, hrv, rfl⟩
    have hagrees := agrees_storeResized h shape
      fun s => Elementwise.zipElements x.dtype f (Elementwise.gather (x.elements s) leftView)
        (Elementwise.gather (y.elements s) rightView)
    rw [elements_resize h List.mem_cons_self, elements_resize h (by simp), hdtype] at hagrees
    have hcombine : Value.combine f ([x, y].map (·.value w.store)) = some _ :=
      Value.combine_eq_some.mpr ⟨_, _, rfl, hbinary⟩
    rw [hcombine]
    exact hagrees

/-- A copy of what is denoted is handed on. -/
theorem agrees_copied (ha : w.Allocates V r) {source : Tensor}
    {denoted : Option (Value × VariableValues)} (hdenoted : denoted = some (source.value w.store, vars))
    (hvars : ∀ id, V id → w.valuesOf r id = vars id) :
    Agrees V r out denoted (.ok [(w.copied source).1], (w.copied source).2) :=
  ⟨_, vars, rfl, by rw [World.value_copied, hdenoted], fun id hid => by
    rw [World.valuesOf_copied ha source hid, hvars id hid]⟩

/-- A copy of what is denoted is handed on, unless the output is of another element type. -/
theorem agrees_output (ha : w.Allocates V r) (operation : Operation) {source : Tensor} {dtype : DType}
    (hdtype : source.dtype = dtype) {denoted : Option (Value × VariableValues)}
    (hdenoted : denoted = some (source.value w.store, vars))
    (hvars : ∀ id, V id → w.valuesOf r id = vars id) :
    Agrees V r out denoted
      (match Operand.output operation dtype [out] with
      | .error error => (.error error, w)
      | .ok _ => (.ok [(w.copied source).1], (w.copied source).2)) := by
  rcases hout : Operand.output operation dtype [out] with error | out'
  · intro v vars' hv hvdtype
    rw [hdenoted] at hv
    obtain ⟨rfl, rfl⟩ := Prod.mk.inj (Option.some.inj hv)
    have hok : Operand.output operation dtype [out] = .ok out :=
      Operand.output_eq_ok.mpr ⟨rfl, by rw [← hvdtype, source.dtype_value, hdtype]⟩
    rw [hout] at hok
    cases hok
  · exact agrees_copied ha hdenoted hvars

theorem agrees_accumulate [HalfConversion] (h : w.Apart V r out inputs vars) (hr : w.variables.Has r)
    {operation : Operation} (hV : ∀ id, operation.varId = some id → V id) {c : Context}
    (hc : c.variables = some r) :
    Agrees V r out
      (ReferenceOp.denote .accumulate operation.varId (inputs.map (·.value w.store)) vars)
      ((Stateful.accumulate operation [out] inputs c).outcome w) := by
  rw [Stateful.outcome_accumulate]
  rcases hoperands : Stateful.accumulateOperands operation inputs c with error | ⟨x, shape, r', id⟩
  · intro v vars' hdenoted _
    obtain ⟨_, id, hinputs, hid, hsum, _⟩ := ReferenceOp.denote_accumulate_eq_some.mp hdenoted
    obtain ⟨x, _, rfl, rfl, hnil⟩ := List.map_eq_cons_iff.mp hinputs
    obtain rfl := List.map_eq_nil_iff.mp hnil
    obtain ⟨shape, hshape, _⟩ := Value.accumulate_eq_some.mp hsum
    have hok : Stateful.accumulateOperands operation [x] c = .ok (x, shape, r, id) :=
      Stateful.accumulateOperands_eq_ok.mpr ⟨rfl, hshape, hc, hid⟩
    rw [hoperands] at hok
    cases hok
  · obtain ⟨rfl, hshape, hr', hid⟩ := Stateful.accumulateOperands_eq_ok.mp hoperands
    obtain rfl := Option.some.inj (hc.symm.trans hr')
    have hallocates : w.Allocates V r := fun id t hid ht => (h.tensors id t hid ht).1
    have hinit := (World.Reaches.refl (fun _ => False) w).valueOrInit r id x.dtype shape
    have hsum := w.value_valueOrInit r id x.dtype shape
    have hx := (h.operands x List.mem_cons_self).1
    rw [h.values id (hV id hid)] at hsum
    simp only
    rcases heq : w.valueOrInit r id (Tensor.zeros x.dtype shape) with ⟨sum, w'⟩
    rw [heq] at hinit hsum
    simp only at hinit hsum ⊢
    rcases hcheck : Stateful.checkSum sum x shape with error | _
    · intro v vars' hdenoted _
      obtain ⟨_, id', hinputs, hid', hnext, _⟩ := ReferenceOp.denote_accumulate_eq_some.mp hdenoted
      obtain rfl := List.singleton_inj.mp hinputs
      obtain rfl := Option.some.inj (hid.symm.trans hid')
      obtain ⟨shape', hshape', hdtype, hsame, _⟩ := Value.accumulate_eq_some.mp hnext
      obtain rfl := Option.some.inj (hshape.symm.trans hshape')
      have hok : Stateful.checkSum sum x shape = .ok () :=
        Stateful.checkSum_eq_ok.mpr ⟨by rw [← sum.dtype_value, hsum]; exact hdtype,
          by rw [← sum.shape_value, hsum]; exact hsame⟩
      rw [hcheck] at hok
      cases hok
    · obtain ⟨hnext, hvalues⟩ := World.valuesOf_accumulated hallocates hr hx hshape heq hcheck
      rw [h.values id (hV id hid)] at hnext
      have hreached := hinit.grown x shape r id sum
      refine agrees_output (hreached.allocates hallocates) operation rfl
        (ReferenceOp.denote_accumulate_eq_some.mpr ⟨_, id, rfl, hid, hnext, rfl⟩) fun id' hid' => ?_
      rw [hvalues id' hid', Function.update_apply, Function.update_apply, h.values id' hid']

theorem agrees_readValue [HalfConversion] (h : w.Apart V r out inputs vars) {operation : Operation}
    (hV : ∀ id, operation.varId = some id → V id) {c : Context} (hc : c.variables = some r) :
    Agrees V r out
      (ReferenceOp.denote .readValue operation.varId (inputs.map (·.value w.store)) vars)
      ((Stateful.readValue operation [out] inputs c).outcome w) := by
  have hallocates : w.Allocates V r := fun id t hid ht => (h.tensors id t hid ht).1
  rw [Stateful.outcome_readValue]
  rcases hoperands : Stateful.variableOperands operation c with error | ⟨r', id⟩
  · intro v vars' hdenoted _
    obtain ⟨id, hid, _⟩ := Option.bind_eq_some_iff.mp hdenoted
    have hok : Stateful.variableOperands operation c = .ok (r, id) :=
      Stateful.variableOperands_eq_ok.mpr ⟨hc, hid⟩
    rw [hoperands] at hok
    cases hok
  · obtain ⟨hr', hid⟩ := Stateful.variableOperands_eq_ok.mp hoperands
    obtain rfl := Option.some.inj (hc.symm.trans hr')
    have hsource : (vars id).or (inputs.map (·.value w.store)).head?
        = (((w.variables.get r).get? id).or inputs.head?).map (·.value w.store) := by
      rw [← h.values id (hV id hid), World.valuesOf, List.head?_map]
      cases (w.variables.get r).get? id <;> rfl
    simp only [ReferenceOp.denote, hid, hsource, Option.bind_eq_bind, Option.bind_some]
    cases ((w.variables.get r).get? id).or inputs.head? with
    | none =>
        intro v vars' hdenoted
        cases hdenoted
    | some source =>
        exact agrees_copied hallocates rfl h.values

theorem agrees_assign [HalfConversion] (h : w.Apart V r out inputs vars) (hr : w.variables.Has r)
    {operation : Operation} {c : Context} (hc : c.variables = some r) :
    Agrees V r out
      (ReferenceOp.denote .assign operation.varId (inputs.map (·.value w.store)) vars)
      ((Stateful.assign operation [out] inputs c).outcome w) := by
  have hallocates : w.Allocates V r := fun id t hid ht => (h.tensors id t hid ht).1
  rw [Stateful.outcome_assign]
  rcases hoperands : Stateful.assignOperands operation inputs c with error | ⟨x, r', id⟩
  · intro v vars' hdenoted _
    rcases inputs with _ | ⟨x, _ | ⟨y, inputs⟩⟩
    · cases hdenoted
    · obtain ⟨id, hid, _⟩ := Option.bind_eq_some_iff.mp hdenoted
      have hok : Stateful.assignOperands operation [x] c = .ok (x, r, id) :=
        Stateful.assignOperands_eq_ok.mpr ⟨rfl, hc, hid⟩
      rw [hoperands] at hok
      cases hok
    · cases hdenoted
  · obtain ⟨rfl, hr', hid⟩ := Stateful.assignOperands_eq_ok.mp hoperands
    obtain rfl := Option.some.inj (hc.symm.trans hr')
    have hx := (h.operands x List.mem_cons_self).1
    obtain ⟨hcopied, hnew⟩ := (World.Reaches.refl (fun _ => False) w).copied x
    have hset := hcopied.setVariable r id hnew
    have hvalue : x.value ((w.copied x).2.setVariable r id (w.copied x).1).store = x.value w.store :=
      Tensor.value_within hset.store hx not_false
    have hdenoted : ReferenceOp.denote .assign operation.varId ([x].map (·.value w.store)) vars
        = some (x.value w.store, Function.update vars id (some (x.value w.store))) := by
      simp [ReferenceOp.denote, hid]
    refine agrees_output (hset.allocates hallocates) operation rfl (by rw [hdenoted, hvalue])
      fun id' hid' => ?_
    rw [World.valuesOf_assigned hallocates hr x id hid', Function.update_apply, Function.update_apply,
      h.values id' hid']

end Run

namespace ReferenceOp

/-- Whether a reference operator reads or writes a variable. -/
def isStateful : ReferenceOp → Bool
  | accumulate | readValue | assign => true
  | _ => false

/-- A reference operator makes what it denotes. -/
theorem agrees_evaluate [HalfConversion] (op : ReferenceOp) {w : World σ} {V : VariableId → Prop} {r : Ref Variables}
    {out : Tensor} {inputs : List Tensor} {vars : VariableValues}
    (h : w.Apart V r out inputs vars) (operation : Operation) {c : Context}
    (hc : c.variables = some r)
    (hV : op.isStateful = true →
      w.variables.Has r ∧ ∀ id, operation.varId = some id → V id) :
    Run.Agrees V r out (op.denote operation.varId (inputs.map (·.value w.store)) vars)
      ((op.evaluator.evaluate operation [out] inputs c).outcome w) := by
  cases op with
  | relu => exact Run.agrees_relu h operation c
  | add => exact Run.agrees_binary h (· + ·) operation c
  | subtract => exact Run.agrees_binary h (· - ·) operation c
  | multiply => exact Run.agrees_binary h (· * ·) operation c
  | accumulate => exact Run.agrees_accumulate h (hV rfl).1 (hV rfl).2 hc
  | readValue => exact Run.agrees_readValue h (hV rfl).2 hc
  | assign => exact Run.agrees_assign h (hV rfl).1 hc

end ReferenceOp

end TensorGraph
