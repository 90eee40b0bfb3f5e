import TensorGraph.Proofs.Agreement
import TensorGraph.Proofs.Meaning
import TensorGraph.Proofs.Soundness

/-! # Evaluators that conform to a meaning

An evaluator conforms to a meaning if from values and variables it makes what is meant, and fails as is meant,
and on the way spares what its surroundings hold (`Evaluator.Conforms`).  It may count on outputs in buffers of
their own (`World.Clear`).  What it gives back shares its buffer with an input, or with nothing that is held.

The reference operators conform to their meanings (`ReferenceOp.conforms`). -/

namespace TensorGraph

variable {σ α β : Type}

/-! ### What is spared -/

/-- A tensor shares its buffer with an input, or with nothing that is held. -/
def Tensor.Placed (inputs held : List Tensor) (t : Tensor) : Prop :=
  (∃ u ∈ inputs, u.buffer = t.buffer) ∨ ∀ u ∈ held, u.buffer ≠ t.buffer

namespace World

variable {flags : Ref CancelFlag → Prop} {r : Ref Variables} {held held' : List Tensor} {w w' w'' : World σ}
  {W : BufferId → Prop}

/-- No request to cancel is pending at some flags. -/
def Idle (flags : Ref CancelFlag → Prop) (w : World σ) : Prop :=
  ∀ k, flags k → w.cancelRequested k = false

theorem Idle.continues (h : w.Idle flags) (hw : w.Continues w') : w'.Idle flags := by
  intro k hk
  apply Bool.eq_false_iff.mpr
  intro hpending
  exact Bool.false_ne_true ((h k hk).symm.trans (hw.requests k hpending))

/-- The second world goes on from the first, and what is held has its value still; a variable has the tensor
it had or a new one. -/
structure Spares (held : List Tensor) (r : Ref Variables) (w w' : World σ) : Prop where
  sound : w'.Sound
  continues : w.Continues w'
  kept : ∀ t ∈ held, t.value w'.store = t.value w.store
  values : ∀ id t, (w'.variables.get r).get? id = some t →
    (w.variables.get r).get? id = some t ∨ w.store.IsNew w'.store t

theorem Spares.refl (hw : w.Sound) : w.Spares held r w :=
  ⟨hw, .refl w, fun _ _ => rfl, fun _ _ ht => .inl ht⟩

theorem Spares.trans (h : w.Spares held r w') (h' : w'.Spares held r w'') : w.Spares held r w'' where
  sound := h'.sound
  continues := h.continues.trans h'.continues
  kept t ht := (h'.kept t ht).trans (h.kept t ht)
  values id t ht := by
    obtain ht | hnew := h'.values id t ht
    · obtain ht | hnew := h.values id t ht
      · exact .inl ht
      · exact .inr ⟨hnew.1, h'.continues.store _ hnew.2⟩
    · exact .inr ⟨fun hold => hnew.1 (h.continues.store _ hold), hnew.2⟩

theorem Spares.mono (h : w.Spares held r w') (hsub : held' ⊆ held) : w.Spares held' r w' :=
  ⟨h.sound, h.continues, fun t ht => h.kept t (hsub ht), h.values⟩

/-- Making buffers leaves the variables with their values. -/
theorem Sound.valuesOf_store (hw : w.Sound) {s : Store} (hs : w.store.Within (fun _ => False) s)
    (r : Ref Variables) : World.valuesOf { w with store := s } r = w.valuesOf r :=
  funext fun id => World.valuesOf_store hs fun t ht => ⟨hw.values r id t ht, not_false⟩

/-- Writing elsewhere spares what is held. -/
theorem Reaches.spares (h : w.Reaches W w') (hw : w.Sound) (hheld : w.store.Holds held)
    (hW : ∀ t ∈ held, ¬ W t.buffer) : w.Spares held r w' :=
  ⟨h.sound hw, h.continues, fun t ht => Tensor.value_within h.store (hheld t ht) (hW t ht), h.values r⟩

/-- So does everything that concerns neither buffers nor variables. -/
theorem Continues.spares (h : w.Continues w') (hw : w'.Sound) (hstore : w'.store = w.store)
    (hvars : w'.variables = w.variables) : w.Spares held r w' where
  sound := hw
  continues := h
  kept t _ := by rw [hstore]
  values id t ht := .inl (hvars ▸ ht)

/-- Some outputs lie in buffers of their own, apart from what is held and from the variables. -/
structure Clear (w : World σ) (r : Ref Variables) (held outputs : List Tensor) : Prop where
  allocated : w.store.Holds outputs
  nodup : (outputs.map (·.buffer)).Nodup
  held_ne : ∀ out ∈ outputs, ∀ t ∈ held, t.buffer ≠ out.buffer
  variable_ne : ∀ out ∈ outputs, ∀ id t, (w.variables.get r).get? id = some t → t.buffer ≠ out.buffer

/-- Outputs stay clear while what is held is spared. -/
theorem Clear.spared {outputs : List Tensor} (h : w.Clear r held outputs) (hw : w.Spares held' r w') :
    w'.Clear r held outputs where
  allocated := hw.continues.holds h.allocated
  nodup := h.nodup
  held_ne := h.held_ne
  variable_ne out hout id t ht := by
    obtain ht | hnew := hw.values id t ht
    · exact h.variable_ne out hout id t ht
    · exact hnew.ne_buffer (h.allocated out hout)

theorem clear_nil (w : World σ) (r : Ref Variables) (held : List Tensor) : w.Clear r held [] :=
  ⟨nofun, List.nodup_nil, nofun, nofun⟩

theorem Clear.mono {outputs : List Tensor} (h : w.Clear r held outputs) (hsub : held' ⊆ held) :
    w.Clear r held' outputs :=
  ⟨h.allocated, h.nodup, fun out hout t ht => h.held_ne out hout t (hsub ht), h.variable_ne⟩

/-- One more output, in a buffer of its own. -/
theorem Clear.concat {outputs : List Tensor} (h : w.Clear r held outputs) {t : Tensor}
    (ht : w.store.Allocated t.buffer) (hne : ∀ u ∈ outputs ++ held, u.buffer ≠ t.buffer)
    (hvariable : ∀ id u, (w.variables.get r).get? id = some u → u.buffer ≠ t.buffer) :
    w.Clear r held (outputs ++ [t]) where
  allocated := List.forall_mem_append.mpr ⟨h.allocated, List.forall_mem_singleton.mpr ht⟩
  nodup := by
    rw [List.map_append, List.map_singleton]
    refine List.nodup_append.mpr ⟨h.nodup, List.pairwise_singleton _ _, ?_⟩
    rintro _ hb _ hb' rfl
    obtain ⟨u, hu, hbuffer⟩ := List.mem_map.mp hb
    exact hne u (List.mem_append_left _ hu) (hbuffer.trans (List.mem_singleton.mp hb'))
  held_ne := List.forall_mem_append.mpr ⟨h.held_ne, List.forall_mem_singleton.mpr fun u hu =>
    hne u (List.mem_append_right _ hu)⟩
  variable_ne := List.forall_mem_append.mpr ⟨h.variable_ne, List.forall_mem_singleton.mpr hvariable⟩

/-- What an evaluator may count on. -/
structure Ready (w : World σ) (flags : Ref CancelFlag → Prop) (r : Ref Variables)
    (outputs inputs : List Tensor) (c : Context) : Prop where
  sound : w.Sound
  idle : w.Idle flags
  has : w.variables.Has r
  «variables» : c.variables = some r
  held : w.store.Holds c.held
  inputs : inputs ⊆ c.held
  outputs : w.Clear r c.held outputs

end World

/-! ### What is meant -/

namespace Except

/-- Two computations fail with one error, or what they return is related. -/
inductive Agree (R : α → β → Prop) : Except Error α → Except Error β → Prop
  | ok {a : α} {b : β} (h : R a b) : Agree R (.ok a) (.ok b)
  | error (error : Error) : Agree R (.error error) (.error error)

variable {R : α → β → Prop} {m : Except Error α} {m' : Except Error β}

theorem Agree.elim (h : Agree R m m') :
    (∃ a b, m = .ok a ∧ m' = .ok b ∧ R a b) ∨ ∃ error, m = .error error ∧ m' = .error error := by
  cases h with
  | ok h => exact .inl ⟨_, _, rfl, rfl, h⟩
  | error error => exact .inr ⟨error, rfl, rfl⟩

theorem agree_self {R : α → α → Prop} (h : ∀ a, m = .ok a → R a a) : Agree R m m := by
  cases m with
  | error error => exact .error error
  | ok a => exact .ok (h a rfl)

theorem Agree.discard (h : Agree R m m') : Agree (fun _ _ => True) (m.map fun _ => ()) m' := by
  cases h with
  | ok h => exact .ok trivial
  | error error => exact .error error

end Except

namespace Run

/-- An outcome is the one that is meant: the variables have the values that are meant, and the same error is
returned, or something related to what is meant. -/
def Means (r : Ref Variables) (R : α → World σ → β → Prop) (expected : Except Error β × VariableValues)
    (o : Except Error α × World σ) : Prop :=
  o.2.valuesOf r = expected.2 ∧ Except.Agree (fun a b => R a o.2 b) o.1 expected.1

/-- Tensors have the values that are meant. -/
def HasValues (ts : List Tensor) (w : World σ) (vs : List Value) : Prop := ts.map (·.value w.store) = vs

variable {γ δ : Type} {r : Ref Variables} {R : α → World σ → β → Prop} {R' : γ → World σ → δ → Prop}
  {w : World σ}

theorem Means.bind {m : Run σ α} {m' : Effect VariableValues β} {k : α → Run σ γ}
    {k' : β → Effect VariableValues δ} {vars : VariableValues} (hm : Means r R (m'.outcome vars) (m.outcome w))
    (hk : ∀ a b w', m.outcome w = (.ok a, w') → R a w' b →
      Means r R' ((k' b).outcome (w'.valuesOf r)) ((k a).outcome w')) :
    Means r R' ((m' >>= k').outcome vars) ((m >>= k).outcome w) := by
  rw [outcome_bind, Effect.outcome_bind]
  obtain ⟨hvars, hresult⟩ := hm
  rcases houtcome : m.outcome w with ⟨result, w'⟩
  rcases hexpected : m'.outcome vars with ⟨expected, vars'⟩
  rw [houtcome, hexpected] at hvars hresult
  obtain rfl : w'.valuesOf r = vars' := hvars
  obtain ⟨a, b, rfl, rfl, hR⟩ | ⟨error, rfl, rfl⟩ := hresult.elim
  · exact hk a b w' houtcome hR
  · exact ⟨rfl, .error error⟩

/-- A check that concerns neither the world nor the variables. -/
theorem means_check {Q : α → β → Prop} {m : Except Error α} {m' : Except Error β} {k : α → Run σ γ}
    {k' : β → Effect VariableValues δ} (hm : Except.Agree Q m m')
    (hk : ∀ a b, Q a b → Means r R' ((k' b).outcome (w.valuesOf r)) ((k a).outcome w)) :
    Means r R' ((liftM m' >>= k').outcome (w.valuesOf r)) ((liftM m >>= k).outcome w) := by
  have hchecked : Means r (fun a _ b => Q a b) ((liftM m' : Effect VariableValues β).outcome (w.valuesOf r))
      ((liftM m : Run σ α).outcome w) := ⟨rfl, hm⟩
  refine hchecked.bind fun a b w' houtcome hQ => ?_
  obtain ⟨-, rfl⟩ := Prod.mk.inj houtcome
  exact hk a b hQ

end Run

/-! ### Reference operators -/

theorem Tensor.resolvedShape_value (t : Tensor) (s : Store) : (t.value s).resolvedShape = t.resolvedShape := by
  obtain ⟨dtype, shape, buffer⟩ := t
  cases shape <;> rfl

namespace Meaning

variable {operation : Operation} {inputs : List Tensor} {s : Store}

theorem agree_one : Except.Agree (fun x v => inputs = [x] ∧ v = x.value s) (Operand.one operation inputs)
    (one operation (inputs.map (·.value s))) := by
  obtain _ | ⟨x, _ | ⟨y, inputs⟩⟩ := inputs
  · exact .error _
  · exact .ok ⟨rfl, rfl⟩
  · simp only [Operand.one, one, List.map_cons, List.length_cons, List.length_map]
    exact .error _

theorem agree_two : Except.Agree (fun p q => inputs = [p.1, p.2] ∧ q = (p.1.value s, p.2.value s))
    (Operand.two operation inputs) (two operation (inputs.map (·.value s))) := by
  obtain _ | ⟨x, _ | ⟨y, _ | ⟨z, inputs⟩⟩⟩ := inputs
  · exact .error _
  · exact .error _
  · exact .ok ⟨rfl, rfl⟩
  · simp only [Operand.two, two, List.map_cons, List.length_cons, List.length_map]
    exact .error _

theorem agree_output (operation : Operation) {dtype : DType} {out : Tensor} :
    Except.Agree (fun t _ => t = out ∧ out.dtype = dtype) (Operand.output operation dtype [out])
      (output operation dtype [out.dtype]) := by
  by_cases hdtype : out.dtype = dtype
  · simp only [Operand.output, output, hdtype, if_true]
    exact .ok ⟨rfl, trivial⟩
  · simp only [Operand.output, output, hdtype, if_false]
    exact .error _

theorem agree_resolvedShape {x : Tensor} : Except.Agree Eq x.resolvedShape (x.value s).resolvedShape := by
  rw [x.resolvedShape_value]
  exact Except.agree_self fun _ _ => rfl

end Meaning

namespace Run

variable {r : Ref Variables} {out : Tensor} {inputs : List Tensor} {w : World σ}

/-- What agrees with a denotation is what is meant by it. -/
theorem means_of_agrees {v : Value} {vars : VariableValues} {o : Except Error (List Tensor) × World σ}
    (h : Agrees (fun _ => True) r out (some (v, vars)) o) {ts : List Tensor} (hok : o.1 = .ok ts) :
    Means r HasValues (.ok [v], vars) o := by
  obtain ⟨result, w'⟩ := o
  obtain rfl : result = .ok ts := hok
  obtain ⟨t, vars', rfl, hdenoted, hvars⟩ := h
  obtain ⟨rfl, rfl⟩ := Prod.mk.inj (Option.some.inj hdenoted)
  exact ⟨funext fun id => hvars id trivial, .ok rfl⟩

theorem means_relu [HalfConversion] (h : w.Apart (fun _ => True) r out inputs (w.valuesOf r)) (operation : Operation)
    (c : Context) :
    Means r HasValues
      ((Meaning.relu operation [out.dtype] (inputs.map (·.value w.store))).outcome (w.valuesOf r))
      ((Elementwise.relu operation [out] inputs c).outcome w) := by
  unfold Elementwise.relu Meaning.relu
  refine means_check Meaning.agree_one ?_
  rintro x _ ⟨rfl, rfl⟩
  refine means_check Meaning.agree_resolvedShape ?_
  rintro shape _ rfl
  refine means_check (Meaning.agree_output operation) ?_
  rintro _ - ⟨rfl, hdtype⟩
  have hagrees := agrees_storeResized h shape
    fun s => Elementwise.mapElements x.dtype Elementwise.positivePart (x.elements s)
  rw [elements_resize h (List.mem_singleton_self x), hdtype] at hagrees
  exact means_of_agrees hagrees rfl

theorem means_binary [HalfConversion] (h : w.Apart (fun _ => True) r out inputs (w.valuesOf r))
    (f : Float → Float → Float) (operation : Operation) (c : Context) :
    Means r HasValues
      ((Meaning.binary f operation [out.dtype] (inputs.map (·.value w.store))).outcome (w.valuesOf r))
      ((Elementwise.binary f operation [out] inputs c).outcome w) := by
  unfold Elementwise.binary Meaning.binary
  refine means_check Meaning.agree_two ?_
  rintro ⟨x, y⟩ _ ⟨rfl, rfl⟩
  by_cases htypes : x.dtype = y.dtype
  · simp only [Tensor.dtype_value, htypes, ne_eq, not_true_eq_false, if_false]
    refine means_check Meaning.agree_resolvedShape ?_
    rintro left _ rfl
    refine means_check Meaning.agree_resolvedShape ?_
    rintro right _ rfl
    refine means_check (Except.agree_self fun _ _ => rfl) ?_
    rintro shape _ rfl
    refine means_check (Except.agree_self fun _ _ => rfl) ?_
    rintro leftView _ rfl
    refine means_check (Except.agree_self fun _ _ => rfl) ?_
    rintro rightView _ rfl
    refine means_check (Meaning.agree_output operation) ?_
    rintro _ - ⟨rfl, hdtype⟩
    have hagrees := agrees_storeResized h shape
      fun s => Elementwise.zipElements y.dtype f (Elementwise.gather (x.elements s) leftView)
        (Elementwise.gather (y.elements s) rightView)
    rw [elements_resize h List.mem_cons_self, elements_resize h (by simp), hdtype] at hagrees
    exact means_of_agrees hagrees rfl
  · simp only [Tensor.dtype_value, htypes, ne_eq, not_false_eq_true, if_true]
    exact ⟨rfl, .error _⟩

/-- A copy is handed on, unless the output is of another element type. -/
theorem means_copied (out : Tensor) (ha : w.Allocates (fun _ => True) r) (operation : Operation) (dtype : DType)
    (source : Tensor) :
    Means r HasValues
      ((do Meaning.output operation dtype [out.dtype]; return [source.value w.store] :
        Effect VariableValues (List Value)).outcome (w.valuesOf r))
      ((do discard (Operand.output operation dtype [out]); return [← Stateful.copy source] :
        Run σ (List Tensor)).outcome w) := by
  have hchecked : Means r (fun _ _ _ => True)
      ((liftM (Meaning.output operation dtype [out.dtype]) : Effect VariableValues Unit).outcome (w.valuesOf r))
      ((discard (Operand.output operation dtype [out]) : Run σ Unit).outcome w) := by
    rw [outcome_discard, outcome_lift, Effect.outcome_lift]
    exact ⟨rfl, (Meaning.agree_output operation).discard⟩
  refine hchecked.bind fun _ _ w' houtcome _ => ?_
  obtain rfl : w = w' := by
    rw [outcome_discard, outcome_lift] at houtcome
    exact (Prod.mk.inj houtcome).2
  refine ⟨funext fun id => World.valuesOf_copied ha source trivial, ?_⟩
  exact .ok (congrArg ([·]) (World.value_copied w source))

theorem means_accumulate [HalfConversion] (h : w.Apart (fun _ => True) r out inputs (w.valuesOf r))
    (hr : w.variables.Has r) (operation : Operation) {c : Context} (hc : c.variables = some r) :
    Means r HasValues
      ((Meaning.accumulate operation [out.dtype] (inputs.map (·.value w.store))).outcome (w.valuesOf r))
      ((Stateful.accumulate operation [out] inputs c).outcome w) := by
  have hallocates : w.Allocates (fun _ => True) r := fun id t hid ht => (h.tensors id t hid ht).1
  unfold Stateful.accumulate Meaning.accumulate
  refine means_check Meaning.agree_one ?_
  rintro x _ ⟨rfl, rfl⟩
  refine means_check Meaning.agree_resolvedShape ?_
  rintro shape _ rfl
  rw [Operand.variables_eq_ok.mpr hc, outcome_bind_ok (outcome_lift w _)]
  refine means_check (Except.agree_self fun _ _ => rfl) ?_
  rintro id _ rfl
  have hinit := (World.Reaches.refl (fun _ => False) w).valueOrInit r id x.dtype shape
  have hsum := w.value_valueOrInit r id x.dtype shape
  have hvars : (w.valueOrInit r id (Tensor.zeros x.dtype shape)).2.valuesOf r = _ :=
    funext fun id' => World.valuesOf_valueOrInit hr id x.dtype shape fun t ht => hallocates id' t trivial ht
  rw [outcome_bind_ok (Stateful.outcome_valueOrInit r id _ w), Effect.outcome_bind_ok (Effect.outcome_get _),
    Effect.outcome_bind_ok (Effect.outcome_modify _ _), x.dtype_value, ← hvars, ← hsum,
    ← Tensor.value_within hinit.store (h.operands x List.mem_cons_self).1 not_false]
  generalize w.valueOrInit r id (Tensor.zeros x.dtype shape) = p at hinit
  obtain ⟨sum, w₁⟩ := p
  have hallocates₁ := hinit.allocates hallocates
  by_cases hdtype : sum.dtype = x.dtype
  · by_cases hshape : sum.shape = some shape
    · have hcheck : Meaning.checkSum (sum.value w₁.store) (x.value w₁.store) shape = .ok () := by
        simp [Meaning.checkSum, hdtype, hshape]
      have hnext := World.value_grown w₁ x shape r id sum
      have hgrown : (Stateful.grown w₁ x shape r id sum).2.valuesOf r = _ :=
        funext fun id' => World.valuesOf_grown hallocates₁ (hinit.has r hr) x shape id sum trivial
      rw [hnext] at hgrown
      have hcopied := means_copied out ((hinit.grown x shape r id sum).allocates hallocates) operation
        x.dtype (Stateful.grown w₁ x shape r id sum).1
      rw [hgrown, hnext] at hcopied
      simp only [hdtype, hshape, ne_eq, not_true_eq_false, if_false]
      rw [hcheck]
      exact hcopied
    · have hcheck : Meaning.checkSum (sum.value w₁.store) (x.value w₁.store) shape
          = .error (.shapeMismatch sum.extents shape) := by
        simp [Meaning.checkSum, hdtype, hshape, Tensor.extents]
        rfl
      simp only [hdtype, hshape, ne_eq, not_true_eq_false, not_false_eq_true, if_false, if_true]
      rw [hcheck]
      exact ⟨rfl, .error _⟩
  · have hcheck : Meaning.checkSum (sum.value w₁.store) (x.value w₁.store) shape
        = .error (.dtypeMismatch sum.dtype x.dtype) := by
      simp [Meaning.checkSum, hdtype]
      rfl
    simp only [hdtype, ne_eq, not_false_eq_true, if_true]
    rw [hcheck]
    exact ⟨rfl, .error _⟩

theorem means_readValue (h : w.Apart (fun _ => True) r out inputs (w.valuesOf r)) (operation : Operation)
    {c : Context} (hc : c.variables = some r) :
    Means r HasValues ((Meaning.readValue operation (inputs.map (·.value w.store))).outcome (w.valuesOf r))
      ((Stateful.readValue operation [out] inputs c).outcome w) := by
  have hallocates : w.Allocates (fun _ => True) r := fun id t hid ht => (h.tensors id t hid ht).1
  unfold Stateful.readValue Meaning.readValue
  rw [Operand.variables_eq_ok.mpr hc, outcome_bind_ok (outcome_lift w _)]
  refine means_check (Except.agree_self fun _ _ => rfl) ?_
  rintro id _ rfl
  have hvalue : (Stateful.value? r id : Run σ (Option Tensor)).outcome w
      = (.ok ((w.variables.get r).get? id), w) := rfl
  have hcopied (source : Tensor) : Means r HasValues (.ok [source.value w.store], w.valuesOf r)
      (.ok [(w.copied source).1], (w.copied source).2) :=
    ⟨funext fun _ => World.valuesOf_copied hallocates source trivial,
      .ok (congrArg ([·]) (w.value_copied source))⟩
  rw [outcome_bind_ok hvalue, Effect.outcome_bind_ok (Effect.outcome_get _), List.head?_map]
  cases hget : (w.variables.get r).get? id with
  | some t =>
      rw [World.valuesOf_eq_some hget]
      exact hcopied t
  | none =>
      rw [World.valuesOf_eq_none hget]
      cases inputs with
      | nil => exact ⟨rfl, .error _⟩
      | cons x inputs => exact hcopied x

theorem means_assign (h : w.Apart (fun _ => True) r out inputs (w.valuesOf r)) (hr : w.variables.Has r)
    (operation : Operation) {c : Context} (hc : c.variables = some r) :
    Means r HasValues
      ((Meaning.assign operation [out.dtype] (inputs.map (·.value w.store))).outcome (w.valuesOf r))
      ((Stateful.assign operation [out] inputs c).outcome w) := by
  have hallocates : w.Allocates (fun _ => True) r := fun id t hid ht => (h.tensors id t hid ht).1
  unfold Stateful.assign Meaning.assign
  refine means_check Meaning.agree_one ?_
  rintro x _ ⟨rfl, rfl⟩
  rw [Operand.variables_eq_ok.mpr hc, outcome_bind_ok (outcome_lift w _)]
  refine means_check (Except.agree_self fun _ _ => rfl) ?_
  rintro id _ rfl
  obtain ⟨hcopied, hnew⟩ := (World.Reaches.refl (fun _ => False) w).copied x
  have hset := hcopied.setVariable r id hnew
  have hvalue : x.value ((w.copied x).2.setVariable r id (w.copied x).1).store = x.value w.store :=
    Tensor.value_within hset.store (h.operands x List.mem_cons_self).1 not_false
  have hassigned : ((w.copied x).2.setVariable r id (w.copied x).1).valuesOf r = _ :=
    funext fun id' => World.valuesOf_assigned hallocates hr x id trivial
  have hmeans := means_copied out (hset.allocates hallocates) operation x.dtype x
  rw [hassigned, hvalue] at hmeans
  rw [Effect.outcome_bind_ok (Effect.outcome_modify _ _)]
  exact hmeans

end Run

namespace ReferenceOp

/-- A reference operator makes what it means. -/
theorem means_evaluate [HalfConversion] (op : ReferenceOp) {w : World σ} {r : Ref Variables} {out : Tensor}
    {inputs : List Tensor} (h : w.Apart (fun _ => True) r out inputs (w.valuesOf r)) (hr : w.variables.Has r)
    (operation : Operation) {c : Context} (hc : c.variables = some r) :
    Run.Means r Run.HasValues
      ((op.meaning operation [out.dtype] (inputs.map (·.value w.store))).outcome (w.valuesOf r))
      ((op.evaluator.evaluate operation [out] inputs c).outcome w) := by
  cases op with
  | relu => exact Run.means_relu h operation c
  | add => exact Run.means_binary h (· + ·) operation c
  | subtract => exact Run.means_binary h (· - ·) operation c
  | multiply => exact Run.means_binary h (· * ·) operation c
  | accumulate => exact Run.means_accumulate h hr operation hc
  | readValue => exact Run.means_readValue h operation hc
  | assign => exact Run.means_assign h hr operation hc

end ReferenceOp

/-! ### Conforming -/

/-- An evaluation makes what is meant: it ends as is meant and spares what is held, and it returns as many tensors
as there are places, each of which shares its buffer with an input or with nothing that is held. -/
structure Run.Makes (w : World σ) (r : Ref Variables) (held inputs : List Tensor) (places : Nat)
    (expected : Except Error (List Value) × VariableValues) (o : Except Error (List Tensor) × World σ) : Prop where
  spares : w.Spares held r o.2
  means : Run.Means r Run.HasValues expected o
  length {ts : List Tensor} : o.1 = .ok ts → ts.length = places
  holds {ts : List Tensor} : o.1 = .ok ts → o.2.store.Holds ts
  placed {ts : List Tensor} : o.1 = .ok ts → ∀ t ∈ ts, t.Placed inputs held

namespace Run.Makes

variable {w w' : World σ} {r : Ref Variables} {held inputs : List Tensor} {places : Nat}
  {expected : Except Error (List Value) × VariableValues} {o : Except Error (List Tensor) × World σ}

/-- A failure that is meant. -/
theorem error (hw : w.Spares held r w') {vars : VariableValues} (hvars : w'.valuesOf r = vars) (error : Error) :
    Makes w r held inputs places (.error error, vars) (.error error, w') :=
  ⟨hw, ⟨hvars, .error error⟩, nofun, nofun, nofun⟩

/-- What is spared before may be counted in. -/
theorem of_later (h : Makes w' r held inputs places expected o) (hw : w.Spares held r w') :
    Makes w r held inputs places expected o :=
  ⟨hw.trans h.spares, h.means, h.length, h.holds, h.placed⟩

end Run.Makes

/-- An evaluator makes of an operation what is meant, on outputs of the given types. -/
def Evaluator.Conforms (ev : Evaluator σ) (flags : Ref CancelFlag → Prop) (operation : Operation)
    (outs : List DType) (meaning : Meaning) : Prop :=
  ∀ (r : Ref Variables) (outputs inputs : List Tensor) (c : Context) (w : World σ),
    w.Ready flags r outputs inputs c → outputs.map (·.dtype) = outs →
    Run.Makes w r c.held inputs outputs.length
      ((meaning (inputs.map (·.value w.store))).outcome (w.valuesOf r))
      ((ev.evaluate operation outputs inputs c).outcome w)

theorem ReferenceOp.conforms [HalfConversion] (op : ReferenceOp) (flags : Ref CancelFlag → Prop)
    (operation : Operation) (out : DType) :
    (op.evaluator : Evaluator σ).Conforms flags operation [out] (op.meaning operation [out]) := by
  intro r outputs inputs c w h houtputs
  obtain ⟨out, rfl, rfl⟩ := List.map_eq_singleton_iff.mp houtputs
  have hout : out ∈ [out] := List.mem_singleton_self out
  have hallocated : w.store.Allocated out.buffer := h.outputs.allocated out hout
  have hapart : w.Apart (fun _ => True) r out inputs (w.valuesOf r) := by
    refine ⟨hallocated, fun t ht => ?_, fun id t _ ht => ?_, fun _ _ => rfl⟩
    · exact ⟨h.held t (h.inputs ht), h.outputs.held_ne out hout t (h.inputs ht)⟩
    · exact ⟨h.sound.values r id t ht, h.outputs.variable_ne out hout id t ht⟩
  obtain ⟨hreaches, hmade⟩ := op.contained_evaluate operation [out] inputs c w
  have hW : ∀ t ∈ c.held, ¬ ∃ u ∈ [out], u.buffer = t.buffer := by
    rintro t ht ⟨u, hu, hbuffer⟩
    exact h.outputs.held_ne u hu t ht hbuffer.symm
  refine ⟨hreaches.spares h.sound h.held hW, op.means_evaluate hapart h.has operation h.variables,
    fun hts => ?_, fun hts t ht => ?_, fun hts t ht => .inr fun u hu => ?_⟩
  · have hagrees := op.agrees_evaluate hapart operation h.variables fun _ => ⟨h.has, fun _ _ => trivial⟩
    unfold Run.Agrees at hagrees
    rw [hts] at hagrees
    obtain ⟨t, _, rfl, _⟩ := hagrees
    rfl
  · obtain hold | hnew := hmade _ hts t ht
    · rw [List.mem_singleton.mp hold]
      exact hreaches.store.grows _ hallocated
    · exact hnew.2
  · obtain hold | hnew := hmade _ hts t ht
    · exact h.outputs.held_ne t hold u hu
    · exact (hnew.ne_buffer (h.held u hu)).symm

/-- What an evaluator gives back are its outputs, as they were handed in where it gives back none. -/
theorem Evaluator.Conforms.apply {ev : Evaluator σ} {flags : Ref CancelFlag → Prop} {operation : Operation}
    {outs : List DType} {meaning : Meaning} (h : ev.Conforms flags operation outs meaning) {r : Ref Variables}
    {outputs inputs : List Tensor} {c : Context} {w : World σ} (hw : w.Ready flags r outputs inputs c)
    (houtputs : outputs.map (·.dtype) = outs) :
    (ev.apply operation outputs inputs c).outcome w = (ev.evaluate operation outputs inputs c).outcome w := by
  have hmakes := h r outputs inputs c w hw houtputs
  unfold Evaluator.apply
  rw [Run.outcome_bind]
  rcases houtcome : (ev.evaluate operation outputs inputs c).outcome w with ⟨error | ts, w'⟩
  · rfl
  · rw [houtcome] at hmakes
    have hlength : ts.length = outputs.length := hmakes.length rfl
    rw [← hlength]
    simp only [List.take_length]
    rw [hlength, List.drop_length, List.append_nil]
    rfl

end TensorGraph
