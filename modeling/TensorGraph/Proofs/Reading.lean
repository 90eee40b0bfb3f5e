import TensorGraph.Proofs.Sequencing

/-! # What is read of a variable without a value

A variable that has no value when a call starts is given zeros before the nodes are walked, if the shape of its
node's first input is known by then.  An evaluator leaves a variable alone if the variable has the same tensor
afterwards, with the same value (`Evaluator.Leaves`); the reference operators leave all variables but the one that
they name (`ReferenceOp.leaves`).  What the call has made of the variable is therefore still there when its node is
evaluated (`Executor.Reserved`): no other node touches it, no output is allocated in its buffer, and no slot lies
there.  `value_of_readValue` says what is read then. -/

namespace TensorGraph

variable {σ : Type}

/-! ### Variables that are left alone -/

namespace World

variable {W : BufferId → Prop} {r : Ref Variables} {id id' : VariableId} {w w' w'' : World σ}

/-- A variable has the tensor that it had, if any, and that has its value still. -/
structure Retains (r : Ref Variables) (id : VariableId) (w w' : World σ) : Prop where
  tensor : (w'.variables.get r).get? id = (w.variables.get r).get? id
  value : w'.valuesOf r id = w.valuesOf r id

theorem Retains.trans (h : w.Retains r id w') (h' : w'.Retains r id w'') : w.Retains r id w'' :=
  ⟨h'.tensor.trans h.tensor, h'.value.trans h.value⟩

/-- A variable that is not set keeps its value while its buffer is not written. -/
theorem Retains.of_within (htensor : (w'.variables.get r).get? id = (w.variables.get r).get? id)
    (hs : w.store.Within W w'.store)
    (hW : ∀ t, (w.variables.get r).get? id = some t → w.store.Allocated t.buffer ∧ ¬ W t.buffer) :
    w.Retains r id w' := by
  refine ⟨htensor, ?_⟩
  unfold valuesOf
  rw [htensor]
  cases hget : (w.variables.get r).get? id with
  | none => rfl
  | some t =>
      obtain ⟨hallocated, hne⟩ := hW t hget
      exact congrArg some (Tensor.value_within hs hallocated hne)

theorem get?_setVariable_of_ne (hne : id ≠ id') (w : World σ) (r r' : Ref Variables) (t : Tensor) :
    ((w.setVariable r' id' t).variables.get r).get? id = (w.variables.get r).get? id := by
  rw [get_setVariable]
  split
  · rename_i hr
    rw [Variables.get?_set_ne _ hne, hr.1]
  · rfl

theorem get?_valueOrInit_of_ne (hne : id ≠ id') (w : World σ) (r r' : Ref Variables)
    (init : Store → Tensor × Store) :
    ((w.valueOrInit r' id' init).2.variables.get r).get? id = (w.variables.get r).get? id := by
  unfold valueOrInit
  cases (w.variables.get r').get? id' with
  | some t => rfl
  | none => exact get?_setVariable_of_ne hne { w with store := (init w.store).2 } r r' (init w.store).1

end World

/-- However an evaluator ends that is handed no output in the buffer of a variable, it leaves the variable as it
was. -/
def Evaluator.Leaves (ev : Evaluator σ) (operation : Operation) (r : Ref Variables) (id : VariableId) : Prop :=
  ∀ (outputs inputs : List Tensor) (c : Context) (w : World σ), w.Sound →
    (∀ t, (w.variables.get r).get? id = some t → ∀ out ∈ outputs, out.buffer ≠ t.buffer) →
    w.Retains r id ((ev.evaluate operation outputs inputs c).outcome w).2

namespace ReferenceOp

variable {operation : Operation} {id : VariableId} [HalfConversion]

theorem get?_evaluate (op : ReferenceOp) (h : operation.varId ≠ some id) (outputs inputs : List Tensor)
    (c : Context) (w : World σ) (r : Ref Variables) :
    ((((op.evaluator.evaluate operation outputs inputs c).outcome w).2).variables.get r).get? id
      = (w.variables.get r).get? id := by
  have hne {id' : VariableId} (hid : operation.varId = some id') : id ≠ id' := by
    rintro rfl
    exact h hid
  have hbinary (f : Float → Float → Float) :
      ((Elementwise.binary f operation outputs inputs c).outcome w).2.variables = w.variables := by
    rw [Elementwise.outcome_binary]
    split <;> rfl
  cases op with
  | relu =>
      show (((Elementwise.relu operation outputs inputs c).outcome w).2.variables.get r).get? id = _
      rw [Elementwise.outcome_relu]
      split <;> rfl
  | add => exact congrArg (fun vars : Table Variables => (vars.get r).get? id) (hbinary (· + ·))
  | subtract => exact congrArg (fun vars : Table Variables => (vars.get r).get? id) (hbinary (· - ·))
  | multiply => exact congrArg (fun vars : Table Variables => (vars.get r).get? id) (hbinary (· * ·))
  | accumulate =>
      show (((Stateful.accumulate operation outputs inputs c).outcome w).2.variables.get r).get? id = _
      rw [Stateful.outcome_accumulate]
      rcases hoperands : Stateful.accumulateOperands operation inputs c with error | ⟨x, shape, r', id'⟩
      · rfl
      · obtain ⟨-, -, -, hid⟩ := Stateful.accumulateOperands_eq_ok.mp hoperands
        have hinit := World.get?_valueOrInit_of_ne (hne hid) w r r' (Tensor.zeros x.dtype shape)
        rcases hsum : w.valueOrInit r' id' (Tensor.zeros x.dtype shape) with ⟨sum, w₁⟩
        rw [hsum] at hinit
        have hgrown : ((Stateful.grown w₁ x shape r' id' sum).2.variables.get r).get? id
            = (w₁.variables.get r).get? id :=
          World.get?_setVariable_of_ne (hne hid) _ r r' _
        simp only [hsum]
        split
        · exact hinit
        · split
          · exact hgrown.trans hinit
          · exact hgrown.trans hinit
  | readValue =>
      show (((Stateful.readValue operation outputs inputs c).outcome w).2.variables.get r).get? id = _
      rw [Stateful.outcome_readValue]
      split
      · rfl
      · split
        · rfl
        · cases outputs <;> rfl
  | assign =>
      show (((Stateful.assign operation outputs inputs c).outcome w).2.variables.get r).get? id = _
      rw [Stateful.outcome_assign]
      rcases hoperands : Stateful.assignOperands operation inputs c with error | ⟨x, r', id'⟩
      · rfl
      · obtain ⟨-, -, hid⟩ := Stateful.assignOperands_eq_ok.mp hoperands
        have hset := World.get?_setVariable_of_ne (hne hid) (w.copied x).2 r r' (w.copied x).1
        simp only
        split
        · exact hset
        · exact hset

/-- A reference operator leaves every variable but its own. -/
theorem leaves (op : ReferenceOp) (h : operation.varId ≠ some id) (r : Ref Variables) :
    (op.evaluator : Evaluator σ).Leaves operation r id := by
  intro outputs inputs c w hw hne
  have hreaches := (op.contained_evaluate operation outputs inputs c w).1
  refine .of_within (op.get?_evaluate h outputs inputs c w r) hreaches.store fun t ht => ⟨hw.values r id t ht, ?_⟩
  rintro ⟨out, hout, hbuffer⟩
  exact hne t ht out hout hbuffer

end ReferenceOp

/-- A `ReadValue` that returns something gives a copy of its variable, or of its first input if that has no
value. -/
theorem ReferenceOp.exists_read [HalfConversion] {operation : Operation} {outputs inputs produced : List Tensor}
    {x : Tensor} {c : Context} {r : Ref Variables} {id : VariableId} {w w' : World σ} (hc : c.variables = some r)
    (hid : operation.varId = some id) (hx : inputs.head? = some x)
    (h : (ReferenceOp.readValue.evaluator.apply operation outputs inputs c).outcome w = (.ok produced, w')) :
    ∃ t, produced.head? = some t ∧ t.value w'.store = (w.valuesOf r id).getD (x.value w.store) := by
  have hsource : ((w.variables.get r).get? id).or inputs.head?
      = some (((w.variables.get r).get? id).getD x) := by
    rw [hx, Option.or_some]
  have hvalue : (((w.variables.get r).get? id).getD x).value w.store
      = (w.valuesOf r id).getD (x.value w.store) := by
    unfold World.valuesOf
    cases (w.variables.get r).get? id <;> rfl
  have hevaluate : (ReferenceOp.readValue.evaluator.evaluate operation outputs inputs c).outcome w = _ :=
    Stateful.outcome_readValue operation outputs inputs c w
  rw [Stateful.variableOperands_eq_ok.mpr ⟨hc, hid⟩] at hevaluate
  simp only [hsource] at hevaluate
  rw [Evaluator.apply, Run.outcome_bind, hevaluate] at h
  cases outputs with
  | nil => cases h
  | cons out outputs =>
      cases h
      exact ⟨(w.copied _).1, rfl, (World.value_copied w _).trans hvalue⟩

/-! ### What a variable starts from -/

namespace Graph

variable {ε : Type} {g : Graph ε} {id : VariableId}

/-- The variable of a node with an input gets the zeros of that, if it has no value. -/
theorem withZeros_same {n : Node ε} {first : Handle} {more : List Handle} (hid : n.varId = some id)
    (hinputs : n.inputs = first :: more) (inputs : List Value) (vars : VariableValues) :
    g.withZeros inputs vars n id = (vars id).or (g.initialValue inputs first) := by
  unfold withZeros
  rw [hid, hinputs]
  exact Function.update_self ..

theorem withZeros_of_ne {n : Node ε} (h : n.varId ≠ some id) (inputs : List Value) (vars : VariableValues) :
    g.withZeros inputs vars n id = vars id := by
  unfold withZeros
  cases hid : n.varId with
  | none => rfl
  | some id' =>
      cases n.inputs with
      | nil => rfl
      | cons first more =>
          refine Function.update_of_ne ?_ _ _
          rintro rfl
          exact h hid

theorem foldl_withZeros_of_ne {nodes : List (Node ε)} (h : ∀ n ∈ nodes, n.varId ≠ some id)
    (inputs : List Value) (vars : VariableValues) : nodes.foldl (g.withZeros inputs) vars id = vars id := by
  induction nodes generalizing vars with
  | nil => rfl
  | cons n nodes ih =>
      obtain ⟨hn, h⟩ := List.forall_mem_cons.mp h
      exact (ih h _).trans (withZeros_of_ne hn inputs vars)

/-- A variable that has no value and is that of one node only starts from the zeros of that node's input. -/
theorem foldl_withZeros_of_only {before rest : List (Node ε)} {node : Node ε} {first : Handle}
    {more : List Handle} (hid : node.varId = some id) (hinputs : node.inputs = first :: more)
    (hothers : ∀ n ∈ before ++ rest, n.varId ≠ some id) (inputs : List Value) {vars : VariableValues}
    (hnone : vars id = none) :
    (before ++ node :: rest).foldl (g.withZeros inputs) vars id = g.initialValue inputs first := by
  obtain ⟨hbefore, hrest⟩ := List.forall_mem_append.mp hothers
  rw [List.foldl_append, List.foldl_cons, foldl_withZeros_of_ne hrest, withZeros_same hid hinputs,
    foldl_withZeros_of_ne hbefore, hnone, Option.none_or]

end Graph

namespace Executor

variable {e : Executor σ} {r : Ref Variables} {id : VariableId} {c : Context} {collect : Bool}
  {before nodes rest : List (Node (Evaluator σ))} {node : Node (Evaluator σ)} {f f' : Frame} {w w' w₀ : World σ}
  {slots inputs : List Tensor}

/-! ### Variables along a walk -/

/-- After some nodes, a variable is as it was in a world, and no slot that is still to be filled lies in its
buffer. -/
structure Reserved (r : Ref Variables) (id : VariableId) (w₀ : World σ) (before : List (Node (Evaluator σ)))
    (f : Frame) (w : World σ) : Prop where
  retains : w₀.Retains r id w
  slot_ne : ∀ t, (w₀.variables.get r).get? id = some t → ∀ (j : Nat) slot, f.slots[j]? = some slot →
    (before.filter (·.isResult)).length ≤ j → slot.buffer ≠ t.buffer

/-- A node that is no result fills no slot. -/
theorem Reserved.pass (h : Reserved r id w₀ before f w) (hresult : ¬ node.isResult = true)
    (hslots : f'.slots = f.slots) (hw : w.Retains r id w') : Reserved r id w₀ (before ++ [node]) f' w' := by
  refine ⟨h.retains.trans hw, ?_⟩
  rw [List.filter_append, List.filter_cons_of_neg hresult, List.filter_nil, List.append_nil, hslots]
  exact h.slot_ne

/-- A result writes into its slot only, which lies elsewhere. -/
theorem Reserved.deliver (h : Reserved r id w₀ before f w) (hw : w.Sound) (hresult : node.isResult = true)
    {source output : Handle} {t slot slot' : Tensor}
    (hdelivered : e.Delivered before node f w source output t slot slot' f' w') :
    Reserved r id w₀ (before ++ [node]) f' w' := by
  have hne (u : Tensor) (hu : (w.variables.get r).get? id = some u) : ¬ u.buffer = slot.buffer := fun hbuffer =>
    h.slot_ne u (h.retains.tensor.symm.trans hu) _ slot hdelivered.place (Nat.le_refl _) hbuffer.symm
  have hretains : w.Retains r id w' := .of_within (by rw [hdelivered.variables]) hdelivered.within fun u hu =>
    ⟨hw.values r id u hu, hne u hu⟩
  refine ⟨h.retains.trans hretains, fun u hu j slot hslot hj => ?_⟩
  rw [List.filter_append, List.filter_cons_of_pos hresult, List.filter_nil, List.length_append,
    List.length_singleton] at hj
  rw [hdelivered.frame, Frame.delivered, List.getElem?_set_ne (by omega)] at hslot
  exact h.slot_ne u hu j slot hslot (by omega)

/-- Evaluating a node leaves a variable alone if its evaluator does, since no output is allocated in the buffer of
a variable. -/
theorem retains_of_prepared {handed : Handed σ} {f₁ : Frame} {w₁ w₂ : World σ}
    {outcome : Except Error (List Tensor)} (hw : w.Sound)
    (hprepared : (e.prepare c node).eval f w = ((.ok handed, f₁), w₁))
    (houtcome : (handed.apply node.toOperation).outcome w₁ = (outcome, w₂))
    (hleaves : ∀ ev, e.evaluatorOf node = .ok ev → ev.Leaves node.toOperation r id) : w.Retains r id w₂ := by
  obtain ⟨hevaluator, -, -, hwithin, -, hapart⟩ := prepared_of_prepare hprepared
  obtain ⟨-, store, -, rfl⟩ := frame_of_prepare hprepared
  have hallocated : w.Retains r id { w with store := store } :=
    .of_within rfl hwithin fun t ht => ⟨hw.values r id t ht, not_false⟩
  have hsound : World.Sound { w with store := store } := (World.Reaches.of_store hwithin).sound hw
  have hevaluated := hleaves handed.evaluator hevaluator handed.outputs handed.inputs handed.context
    { w with store := store } hsound fun t ht =>
      hapart t (List.mem_append_right _ (mem_held_of_variable ht)) (hw.values r id t ht)
  refine hallocated.trans ?_
  rw [Handed.apply, Evaluator.apply, Run.outcome_bind] at houtcome
  rcases heval : (handed.evaluator.evaluate node.toOperation handed.outputs handed.inputs
    handed.context).outcome { w with store := store } with ⟨error | made, w₃⟩
  · rw [heval] at houtcome hevaluated
    cases houtcome
    exact hevaluated
  · rw [heval] at houtcome hevaluated
    cases houtcome
    exact hevaluated

theorem Reserved.step (hnodes : e.graph.nodes = before ++ node :: rest) (hfits : f.Fits e.graph) (hw : w.Sound)
    (hleaves : node.isOperator = true → ∀ ev, e.evaluatorOf node = .ok ev → ev.Leaves node.toOperation r id)
    (h : Reserved r id w₀ before f w)
    (hstep : (e.stepNode c collect node).eval f w = ((.ok false, f'), w')) :
    Reserved r id w₀ (before ++ [node]) f' w' := by
  by_cases hresult : node.isResult = true
  · obtain ⟨_, _, _, _, _, hdelivered⟩ := exists_delivered_stepNode hnodes hfits hresult hstep
    exact h.deliver hw hresult hdelivered
  · have hvisit := visit_stepNode hstep
    generalize e.stepEvent c node f w = event at hvisit
    generalize hr : (Except.ok false : Except Error Bool) = r' at hvisit
    cases hvisit with
    | parameter hcancel hparameter => exact h.pass hresult rfl ⟨rfl, rfl⟩
    | evaluated hcancel hoperator hprepared houtcome hbound =>
        have hretains := retains_of_prepared (w := e.polled w) (hw.congr rfl rfl fun _ _ ht => ht) hprepared
          houtcome (hleaves hoperator)
        obtain ⟨kept, store, rfl, -⟩ := frame_of_prepare hprepared
        exact h.pass hresult rfl ⟨hretains.tensor, hretains.value⟩
    | cancelled hcancel => cases hr
    | delivered hcancel hdelivers hevent => exact absurd hdelivers hresult
    | unread hcancel hunread hgathered => cases hr
    | unprepared hcancel hoperator hprepared => cases hr
    | failed hcancel hoperator hprepared houtcome => cases hr
    | refused hcancel hoperator hprepared houtcome hbound hrefused => cases hr

/-! ### Before the nodes -/

/-- Before the nodes are walked, the variable of one node only has the zeros of the node's input, if it had no
value. -/
theorem valuesOf_startedWorld (hcheck : checkOperands e.graph slots inputs = .ok ()) (hw : w.Sound)
    (hhas : w.variables.Has (c.variables.getD e.variables)) {first : Handle} {more : List Handle}
    (hnodes : e.graph.nodes = before ++ node :: rest) (hid : node.varId = some id)
    (hfirst : node.inputs = first :: more) (hothers : ∀ n ∈ before ++ rest, n.varId ≠ some id)
    (hnone : (w.variables.get (c.variables.getD e.variables)).get? id = none) :
    (e.startedWorld inputs c w).valuesOf (c.variables.getD e.variables) id
      = e.graph.initialValue (inputs.map (·.value w.store)) first := by
  obtain ⟨hlength, -, hinstances⟩ := (checkOperands_eq_ok w.store).mp hcheck
  obtain ⟨w', hinit, -, hvalues⟩ := exists_initVariables (V := fun _ => True) (w := e.polled w) w.store hlength
    hinstances (fun _ _ => hhas) (hw.congr rfl rfl fun _ _ ht => ht) (fun _ _ => rfl)
  have hstarted : e.startedWorld inputs c w = w' := congrArg Prod.snd hinit
  rw [hstarted, hvalues id trivial, hnodes]
  exact Graph.foldl_withZeros_of_only hid hfirst hothers _ (World.valuesOf_eq_none hnone)

/-- A variable that had no value lies in a new buffer, outside every slot. -/
theorem reserved_openedFrame (hslots : w.store.Holds slots) (hnone : (w.variables.get r).get? id = none) :
    Reserved r id (e.startedWorld inputs c w) [] (e.openedFrame slots inputs (e.startedWorld inputs c w))
      (e.openedWorld (e.startedWorld inputs c w)) := by
  have hstore := store_openedWorld (e := e) (e.startedWorld inputs c w)
  have hvariables := variables_openedWorld (e := e) (e.startedWorld inputs c w)
  refine ⟨⟨by rw [hvariables], congrFun (World.valuesOf_congr hstore hvariables r) id⟩, ?_⟩
  intro t ht j slot hslot _
  obtain hold | hnew := (reaches_startedWorld inputs c w).values r id t ht
  · exact absurd (hnone.symm.trans hold) nofun
  · exact (hnew.ne_buffer (hslots slot (List.mem_of_getElem? hslot))).symm

theorem reserved_walk (hkeeps : e.KeepsNodes) (hcheck : checkOperands e.graph slots inputs = .ok ())
    (hw : w.Sound) (hslots : w.store.Holds slots) (hinputs : w.store.Holds inputs)
    (hnodes : e.graph.nodes = before ++ rest) (hnone : (w.variables.get r).get? id = none)
    (hleaves : ∀ n ∈ before, n.isOperator = true →
      ∀ ev, e.evaluatorOf n = .ok ev → ev.Leaves n.toOperation r id)
    (hwalk : e.walk slots inputs c collect w before = ((.ok .completed, f), w')) :
    Reserved r id (e.startedWorld inputs c w) before f w' := by
  refine walk_induction (P := fun walked f w' => walked ⊆ before →
    Reserved r id (e.startedWorld inputs c w) walked f w') (fun _ => reserved_openedFrame hslots hnone) ?_ hnodes
    hwalk (List.Subset.refl before)
  intro walked node rest f₁ w₁ f₂ w₂ hsplit hwalked ih hstep hsub
  obtain ⟨hsound, -⟩ := sound_walk hkeeps hw hslots hinputs
    (hsplit ▸ List.subset_append_left walked (node :: rest)) hwalked
  have hnode : node ∈ before := hsub (List.mem_append_right walked (List.mem_singleton_self node))
  have hwalkedSub : walked ⊆ before := List.Subset.trans (List.subset_append_left walked [node]) hsub
  exact (ih hwalkedSub).step hsplit (fits_of_walk hcheck hwalked) hsound (hleaves node hnode) hstep

/-! ### The read -/

/-- A `ReadValue` that goes on binds a copy of its variable, or of its first input if that has no value. -/
theorem exists_read_stepNode [HalfConversion] {first : Handle} {more : List Handle}
    (hnodes : e.graph.nodes = before ++ node :: rest) (hfits : f.Fits e.graph)
    (hoperator : node.isOperator = true) (hevaluator : e.evaluatorOf node = .ok ReferenceOp.readValue.evaluator)
    (hid : node.varId = some id) (hfirst : node.inputs = first :: more) (hc : c.variables = some r)
    (hw : w.Sound) (hf : f.Sound w.store)
    (hstep : (e.stepNode c collect node).eval f w = ((.ok false, f'), w')) :
    ∃ x out t, f.bindings.get? first = some x ∧ node.outputs.head? = some out ∧
      f'.bindings.get? out = some t ∧ t.value w'.store = (w.valuesOf r id).getD (x.value w.store) := by
  have hmem : node ∈ e.graph.nodes := hnodes ▸ List.mem_append_right before List.mem_cons_self
  have hvisit := visit_stepNode hstep
  generalize e.stepEvent c node f w = event at hvisit
  generalize hr : (Except.ok false : Except Error Bool) = r' at hvisit
  cases hvisit with
  | @evaluated handed produced f₁ bindings memories w₁ w₂ hcancel _ hprepared houtcome hbound =>
      obtain ⟨hfound, hgathered, hcontext, hwithin, hlength, -⟩ := prepared_of_prepare hprepared
      obtain ⟨kept, store, rfl, rfl⟩ := frame_of_prepare hprepared
      rw [hfirst, List.mapM_cons] at hgathered
      obtain ⟨x, hx, hgathered⟩ := bind_eq_ok.mp hgathered
      obtain ⟨xs, -, hinputs⟩ := bind_eq_ok.mp hgathered
      have hhead : handed.inputs.head? = some x := by
        rw [← pure_eq_ok.mp hinputs]
        rfl
      have hvariables : handed.context.variables = some r := by
        rw [hcontext]
        exact hc
      rw [Handed.apply, Except.ok.inj (hfound.symm.trans hevaluator)] at houtcome
      obtain ⟨t, ht, hvalue⟩ := ReferenceOp.exists_read hvariables hid hhead houtcome
      have hcount : produced.length = node.outputs.length :=
        (Evaluator.length_apply houtcome).trans (hlength fun h => e.graph.output_lt hmem)
      obtain ⟨ts, rfl⟩ := List.head?_eq_some_iff.mp ht
      obtain ⟨out, outs, houtputs⟩ := List.exists_cons_of_length_eq_add_one hcount.symm
      have hzip : (out, t) ∈ node.outputs.zip (t :: ts) := by
        rw [houtputs]
        exact List.mem_cons_self
      refine ⟨x, out, t, Bindings.get_eq_ok.mp hx, by rw [houtputs]; rfl,
        get?_bindProduced hbound hmem hfits.bindings hcount hzip, hvalue.trans ?_⟩
      -- Allocating the outputs has left the variable and the input as they were.
      have hheld : x ∈ f.held := Simulates.mem_held_of_bound (Bindings.mem_tensors_of_get? (Bindings.get_eq_ok.mp hx))
      rw [Tensor.value_within hwithin (hf x hheld) not_false]
      exact congrArg (·.getD (x.value w.store))
        (World.valuesOf_store hwithin fun u hu => ⟨hw.values r id u hu, not_false⟩)
  | parameter hcancel hparameter => simp [Node.isOperator, hparameter] at hoperator
  | delivered hcancel hresult hevent => simp [Node.isOperator, hresult] at hoperator
  | cancelled hcancel => cases hr
  | unread hcancel hresult hgathered => cases hr
  | unprepared hcancel _ hprepared => cases hr
  | failed hcancel _ hprepared houtcome => cases hr
  | refused hcancel _ hprepared houtcome hbound hrefused => cases hr

/-- A node that reads a variable with `ReadValue` and has an input; no other node names the variable, and the
evaluators that are called before leave it alone. -/
structure SoleReader [HalfConversion] (e : Executor σ) (r : Ref Variables) (id : VariableId)
    (before : List (Node (Evaluator σ))) (node : Node (Evaluator σ)) (rest : List (Node (Evaluator σ)))
    (first : Handle) : Prop where
  nodes : e.graph.nodes = before ++ node :: rest
  operator : node.isOperator = true
  evaluator : e.evaluatorOf node = .ok ReferenceOp.readValue.evaluator
  varId : node.varId = some id
  input : ∃ more, node.inputs = first :: more
  others : ∀ n ∈ before ++ rest, n.varId ≠ some id
  leaves : ∀ n ∈ before, n.isOperator = true →
    ∀ ev, e.evaluatorOf n = .ok ev → ev.Leaves n.toOperation r id

/-- Among reference operators it is enough that no other node names the variable. -/
theorem IsReference.soleReader [HalfConversion] {kind : Node (Evaluator σ) → ReferenceOp} (h : e.IsReference kind)
    (hnodes : e.graph.nodes = before ++ node :: rest) (hoperator : node.isOperator = true)
    (hread : kind node = .readValue) (hid : node.varId = some id) {first : Handle}
    (hinput : ∃ more, node.inputs = first :: more) (hothers : ∀ n ∈ before ++ rest, n.varId ≠ some id)
    (r : Ref Variables) : e.SoleReader r id before node rest first := by
  have hevaluator (n : Node (Evaluator σ)) (hn : n ∈ e.graph.nodes) (hoperator : n.isOperator = true) :
      e.evaluatorOf n = .ok (kind n).evaluator := by
    simp only [Node.isOperator, Bool.and_eq_true, Bool.not_eq_true', ← Bool.not_eq_true] at hoperator
    exact (h n hn hoperator.1 hoperator.2).2
  refine ⟨hnodes, hoperator, ?_, hid, hinput, hothers, fun n hn hoperator ev hev => ?_⟩
  · rw [hevaluator node (hnodes ▸ List.mem_append_right before List.mem_cons_self) hoperator, hread]
  · rw [hevaluator n (hnodes ▸ List.mem_append_left _ hn) hoperator] at hev
    obtain rfl := Except.ok.inj hev
    exact (kind n).leaves (hothers n (List.mem_append_left rest hn)) r

/-- **What a `ReadValue` reads first.**  If a call completes, and a variable without a value is that of one node
only, a `ReadValue` with an input, then the node's output has the zeros that the variable was given before the
walk, or the value of the input if none were known: zeros of the type and shape of the input where that is a
parameter or has a static shape, and the value itself where the shape is dynamic. -/
theorem value_of_readValue [HalfConversion] {first : Handle} {slots' : List Tensor} (hkeeps : e.KeepsNodes)
    (hw : w.Sound) (hslots : w.store.Holds slots) (hinputs : w.store.Holds inputs)
    (hhas : w.variables.Has (c.variables.getD e.variables))
    (hreader : e.SoleReader (c.variables.getD e.variables) id before node rest first)
    (hnone : (w.variables.get (c.variables.getD e.variables)).get? id = none)
    (hcompleted : ((e.execute slots inputs c collect).outcome w).1 = .ok (.completed, slots')) :
    ∃ f₁ w₁ f₂ w₂ x out t, e.walk slots inputs c collect w before = ((.ok .completed, f₁), w₁) ∧
      e.walk slots inputs c collect w (before ++ [node]) = ((.ok .completed, f₂), w₂) ∧
      f₁.bindings.get? first = some x ∧ node.outputs.head? = some out ∧ f₂.bindings.get? out = some t ∧
      t.value w₂.store
        = (e.graph.initialValue (inputs.map (·.value w.store)) first).getD (x.value w₁.store) := by
  obtain ⟨hnodes, hoperator, hevaluator, hid, ⟨more, hfirst⟩, hothers, hleaves⟩ := hreader
  obtain ⟨-, hcheck, f', w', hwalk, -⟩ := exists_walk_of_completed hcompleted
  have hsplit : e.graph.nodes = (before ++ [node]) ++ rest := hnodes.trans (List.append_cons ..)
  obtain ⟨f₂, w₂, hwalk₂⟩ := exists_walked (hsplit ▸ hwalk)
  obtain ⟨f₁, w₁, hwalk₁, hstep⟩ := exists_last_step hwalk₂
  have hreserved := reserved_walk hkeeps hcheck hw hslots hinputs hnodes hnone hleaves hwalk₁
  obtain ⟨hsound, hframe⟩ := sound_walk hkeeps hw hslots hinputs
    (hnodes ▸ List.subset_append_left before (node :: rest)) hwalk₁
  obtain ⟨x, out, t, hx, hout, ht, hvalue⟩ := exists_read_stepNode hnodes (fits_of_walk hcheck hwalk₁)
    hoperator hevaluator hid hfirst rfl hsound hframe hstep
  refine ⟨f₁, w₁, f₂, w₂, x, out, t, hwalk₁, hwalk₂, hx, hout, ht, ?_⟩
  rw [hvalue, hreserved.retains.value, valuesOf_startedWorld hcheck hw hhas hnodes hid hfirst hothers hnone]

/-- A graph with two results: a variable read with the `Relu` of the parameter, whose shape is not known, and
another read with the parameter itself. -/
def reader : Graph (Evaluator Unit) where
  tensors := List.replicate 6 ⟨.u8, [.dynamic]⟩
  nodes := [⟨⟨0, .parameter, none, [], [0], none⟩, none⟩, ⟨⟨1, .relu, none, [0], [1], none⟩, none⟩,
    ⟨⟨2, .readValue, none, [1], [2], some ⟨"later"⟩⟩, none⟩,
    ⟨⟨3, .readValue, none, [0], [3], some ⟨"first"⟩⟩, none⟩, ⟨⟨4, .result, none, [2], [4], none⟩, none⟩,
    ⟨⟨5, .result, none, [3], [5], none⟩, none⟩]
  numbered := rfl
  checked := rfl

/-- An executor for it, and the world in which it is created. -/
def readerCreated : Executor Unit × World Unit :=
  create reader .reference ⟨none, 1, true⟩ (.empty ())

/-- The world in which the caller has made an input and two open slots. -/
def readerFilled : World Unit :=
  let store := ((readerCreated.2.store.alloc #[1, 2]).2.alloc #[]).2
  { readerCreated.2 with store := (store.alloc #[]).2 }

/-- A call with them. -/
def readerCalled : Except Error (Status × List Tensor) × World Unit :=
  (readerCreated.1.execute [⟨.u8, none, ⟨1⟩⟩, ⟨.u8, none, ⟨2⟩⟩] [⟨.u8, some [2], ⟨0⟩⟩] .empty false).outcome
    readerFilled

/-- Its walk over the first nodes. -/
def readerWalked (count : Nat) : (Except Error Status × Frame) × World Unit :=
  readerCreated.1.walk [⟨.u8, none, ⟨1⟩⟩, ⟨.u8, none, ⟨2⟩⟩] [⟨.u8, some [2], ⟨0⟩⟩] .empty false readerFilled
    (reader.nodes.take count)

theorem isReference_reader :
    readerCreated.1.IsReference fun n => if n.id = 1 then .relu else .readValue :=
  isReference_of_registry rfl (by decide)

theorem sound_readerFilled : readerFilled.Sound := by
  have hcreated : readerCreated.2.Sound :=
    (sound_create (e := readerCreated.1) (World.sound_empty ()) rfl).1
  have hinput := (elsewhere_alloc (e := readerCreated.1) hcreated #[1, 2]).sound
  have hslot := (elsewhere_alloc (e := readerCreated.1) hinput #[]).sound
  exact (elsewhere_alloc (e := readerCreated.1) hslot #[]).sound

/-- A variable that is read with an input of unknown shape has that input's value. -/
theorem value_of_readValue_dynamic : ∃ f w t, readerWalked 3 = ((.ok .completed, f), w) ∧
    f.bindings.get? 2 = some t ∧ t.value w.store = ⟨.u8, some [2], #[1, 2]⟩ := by
  have hreader : readerCreated.1.SoleReader readerCreated.1.variables ⟨"later"⟩ (reader.nodes.take 2)
      ⟨⟨2, .readValue, none, [1], [2], some ⟨"later"⟩⟩, none⟩ (reader.nodes.drop 3) 1 :=
    isReference_reader.soleReader rfl rfl rfl rfl ⟨[], rfl⟩ (by decide) _
  have hcompleted : readerCalled.1 = .ok (.completed, [⟨.u8, some [2], ⟨7⟩⟩, ⟨.u8, some [2], ⟨9⟩⟩]) := by
    decide +kernel
  have hread : ((readerWalked 2).1.2.bindings.get? 1).map (·.value (readerWalked 2).2.store)
      = some ⟨.u8, some [2], #[1, 2]⟩ := by decide +kernel
  obtain ⟨f₁, w₁, f₂, w₂, x, out, t, hwalk₁, hwalk₂, hx, hout, ht, hvalue⟩ :=
    value_of_readValue (c := .empty) isReference_reader.keepsNodes sound_readerFilled (by decide +kernel)
      (by decide +kernel) (by decide +kernel) hreader (by decide +kernel) hcompleted
  obtain rfl := Option.some.inj hout
  rw [show readerWalked 2 = ((.ok .completed, f₁), w₁) from hwalk₁, hx] at hread
  exact ⟨f₂, w₂, t, hwalk₂, ht, hvalue.trans (Option.some.inj hread)⟩

/-- A variable that is read with a parameter has zeros, not the parameter's value, although no other node names
it. -/
theorem read_parameter_zeros :
    readerCreated.1.SoleReader readerCreated.1.variables ⟨"first"⟩ (reader.nodes.take 3)
      ⟨⟨3, .readValue, none, [0], [3], some ⟨"first"⟩⟩, none⟩ (reader.nodes.drop 4) 0 ∧
    (readerFilled.variables.get readerCreated.1.variables).get? ⟨"first"⟩ = none ∧
    readerCalled.1 = .ok (.completed, [⟨.u8, some [2], ⟨7⟩⟩, ⟨.u8, some [2], ⟨9⟩⟩]) ∧
    ((readerWalked 4).1.2.bindings.get? 0).map (·.value (readerWalked 4).2.store)
      = some ⟨.u8, some [2], #[1, 2]⟩ ∧
    ((readerWalked 4).1.2.bindings.get? 3).map (·.value (readerWalked 4).2.store)
      = some ⟨.u8, some [2], #[0, 0]⟩ :=
  ⟨isReference_reader.soleReader rfl rfl rfl rfl ⟨[], rfl⟩ (by decide) _, by decide +kernel⟩

end Executor

end TensorGraph
