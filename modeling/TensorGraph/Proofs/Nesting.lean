import TensorGraph.Proofs.Evaluation
import TensorGraph.Proofs.Mirroring
import TensorGraph.Proofs.Tracing

/-! # Nested executors conform to what their graphs mean

A call of an executor whose evaluators conform returns what its graph means, or fails as is meant
(`Setting.Proper.makes_execute`): what it remembers of other calls, and which buffers it hands out again,
makes no difference.  A fused operator without a kernel therefore conforms in turn, and so, by induction on
the nesting, does every evaluator that follows a scheme (`Scheme.conforms`). -/

namespace TensorGraph

variable {σ : Type}

/-! ### Checks -/

/-- Operands are refused as their values are. -/
theorem Executor.checkOperands_eq (g : Graph (Evaluator σ)) (slots inputs : List Tensor) (s : Store) :
    checkOperands g slots inputs = g.checkValues slots.length (inputs.map (·.value s)) := by
  unfold checkOperands Graph.checkValues
  rw [List.length_map, List.zip_map_right, List.forM_eq_forM, List.forM_eq_forM, List.forM_map]
  rfl

/-! ### Calls -/

namespace Setting

variable {S : Setting σ} {flags : Ref CancelFlag → Prop} {run : Operation → List DType → Meaning}

/-- What a call needs: its operands lie in buffers of the store, and the slots are without shape or in buffers
of their own. -/
structure Proper (S : Setting σ) (flags : Ref CancelFlag → Prop) : Prop extends S.Fair flags where
  slots : S.start.store.Holds S.slots
  inputs : S.start.store.Holds S.inputs
  free : (∀ t ∈ S.slots, t.shape = none) ∨ S.start.Clear S.variables (S.inputs ++ S.context.held) S.slots

/-- The values of the inputs at the start of a call. -/
def values (S : Setting σ) : List Value := S.inputs.map (·.value S.start.store)

/-- The world in which the nodes of a call are walked. -/
def started (S : Setting σ) : World σ := S.executor.startedWorld S.inputs S.context S.start

theorem Fair.contextFor (hS : S.Fair flags) : S.executor.contextFor S.context = S.context := by
  obtain ⟨executor, slots, inputs, ⟨vars, entries, held⟩, r, start⟩ := S
  obtain rfl : vars = some r := hS.variables
  rfl

theorem Fair.cancelRequested (hS : S.Fair flags) : S.start.cancelRequested S.executor.cancel = false :=
  hS.idle _ hS.flag

/-- Before the nodes are walked nothing is written, and variables without a value get zeros. -/
theorem Proper.spares_started (hS : S.Proper flags)
    (hcheck : Executor.checkOperands S.executor.graph S.slots S.inputs = .ok ()) :
    S.start.Spares (S.inputs ++ S.context.held) S.variables S.started ∧
      S.started.valuesOf S.variables = S.executor.graph.nodes.foldl
        (S.executor.graph.withZeros S.values) (S.start.valuesOf S.variables) := by
  obtain ⟨hlength, -, hinstances⟩ := (Executor.checkOperands_eq_ok S.start.store).mp hcheck
  have hheld : S.start.store.Holds (S.inputs ++ S.context.held) :=
    List.forall_mem_append.mpr ⟨hS.inputs, hS.held⟩
  obtain ⟨w₁, htaken, hspares, hvars, -⟩ := S.executor.exists_taken hS.sound hS.cancelRequested
    (S.inputs ++ S.context.held) S.variables
  obtain ⟨w₂, hinit, hreaches, hvars₂⟩ := Executor.exists_initVariables (V := fun _ => True) S.start.store hlength
    hinstances (fun _ _ => hspares.continues.has _ hS.has) hspares.sound fun _ _ => congrFun hvars _
  have hstarted : S.started = w₂ := by
    rw [started, Executor.startedWorld, hS.variables, Option.getD_some, htaken, hinit]
  rw [hstarted]
  exact ⟨hspares.trans (hreaches.spares hspares.sound (hspares.continues.holds hheld) fun _ _ => not_false),
    funext fun id => hvars₂ id trivial⟩

/-- The nodes start from the values of the inputs. -/
theorem Proper.mirrors_opened (hS : S.Proper flags)
    (hcheck : Executor.checkOperands S.executor.graph S.slots S.inputs = .ok ()) :
    S.Mirrors (S.executor.openedFrame S.slots S.inputs S.started) (S.executor.openedWorld S.started)
      (S.executor.graph.initialValuation S.values (S.executor.graph.nodes.foldl
        (S.executor.graph.withZeros S.values) (S.start.valuesOf S.variables))) := by
  obtain ⟨hspares, hvars⟩ := hS.spares_started hcheck
  obtain ⟨-, hplaces, -⟩ := (Executor.checkOperands_eq_ok S.start.store).mp hcheck
  obtain ⟨hresults, hstate⟩ := S.executor.graph.results_initialValuation S.values (S.executor.graph.nodes.foldl
    (S.executor.graph.withZeros S.values) (S.start.valuesOf S.variables))
  have hstore := Executor.store_openedWorld (e := S.executor) S.started
  have hvariables := Executor.variables_openedWorld (e := S.executor) S.started
  have hvalues : S.inputs.map (·.value S.started.store) = S.values :=
    List.map_congr_left fun t ht => hspares.kept t (List.mem_append_left _ ht)
  have hopened : S.started.Spares (S.inputs ++ S.context.held) S.variables
      (S.executor.openedWorld S.started) :=
    (Executor.continues_openedWorld S.started).spares (Executor.sound_openedWorld hspares.sound) hstore hvariables
  refine ⟨(hspares.trans hopened).mono (List.subset_append_right _ _), ?_,
    Executor.length_bindInputs S.executor.graph S.inputs, hplaces, fun h => ?_, ?_, fun t ht => ?_,
    fun j t _ hj => ?_, fun _ _ => rfl, fun j t ht _ => ?_⟩
  · rw [hstore]
    exact Executor.sound_openedFrame hspares.sound (hspares.continues.holds hS.slots)
      (hspares.continues.holds hS.inputs)
  · rw [hstore, ← hvalues]
    exact Executor.get?_bindInputs (·.value S.started.store) _ h
  · rw [hstate, ← hvars]
    exact World.valuesOf_congr hstore hvariables S.variables
  · exact .inl ⟨t, Executor.tensors_bindInputs_subset S.executor.graph S.inputs ht, rfl⟩
  · rw [hresults] at hj
    exact absurd hj (Nat.not_lt_zero j)
  · have hslot : t ∈ S.slots := List.mem_of_getElem? ht
    refine hS.free.imp (fun hshape => hshape t hslot) fun hclear => ?_
    have hclear' := hclear.spared (hspares.trans hopened)
    refine ⟨fun u hu => ?_, fun u hu => hclear.held_ne t hslot u (List.mem_append_right _ hu),
      hclear'.variable_ne t hslot, fun k u hk hu =>
        Tensor.buffer_ne_of_nodup hclear.nodup hk ht hu⟩
    exact hclear.held_ne t hslot u
      (List.mem_append_left _ (Executor.tensors_bindInputs_subset S.executor.graph S.inputs hu))

/-- The walk of a call over all nodes ends as the walk on values does. -/
theorem Proper.meets_walk (hS : S.Proper flags)
    (hcheck : Executor.checkOperands S.executor.graph S.slots S.inputs = .ok ())
    (hrun : S.executor.Conforms flags run) (collect : Bool) :
    S.Meets (fun status _ _ _ => status = .completed)
      (S.executor.graph.walkValues run S.values (S.start.valuesOf S.variables))
      (S.executor.walk S.slots S.inputs S.context collect S.start S.executor.graph.nodes) := by
  have hmeets := (hS.mirrors_opened hcheck).meets_runNodes hS.toFair hrun collect (List.nil_append _).symm
    (by rw [(S.executor.graph.results_initialValuation _ _).1]; rfl)
  rw [Executor.walk, hS.contextFor]
  exact hmeets

/-- A call ends as the walk on values does, and then remembers what it bound, which concerns nothing else. -/
theorem Proper.exists_executed (hS : S.Proper flags)
    (hcheck : Executor.checkOperands S.executor.graph S.slots S.inputs = .ok ())
    (hrun : S.executor.Conforms flags run) (collect : Bool) :
    ∃ f w', (S.executor.execute S.slots S.inputs S.context collect).outcome S.start
        = ((S.executor.graph.walkValues run S.values (S.start.valuesOf S.variables)).1.map
            fun _ => (.completed, f.slots), w') ∧
      S.Mirrors f w' (S.executor.graph.walkValues run S.values (S.start.valuesOf S.variables)).2 ∧
      f = (S.executor.walk S.slots S.inputs S.context collect S.start S.executor.graph.nodes).1.2 := by
  obtain ⟨hmirrors, hresult⟩ := hS.meets_walk hcheck hrun collect
  rw [Executor.execute_eq, Executor.outcome_executeNodes hS.cancelRequested hcheck]
  rcases hwalk : S.executor.walk S.slots S.inputs S.context collect S.start S.executor.graph.nodes
    with ⟨⟨result, f⟩, w⟩
  rw [hwalk] at hmirrors hresult
  have heval : (S.executor.runNodes (S.executor.contextFor S.context) collect S.executor.graph.nodes).eval
      (S.executor.openedFrame S.slots S.inputs (S.executor.startedWorld S.inputs S.context S.start))
      (S.executor.openedWorld (S.executor.startedWorld S.inputs S.context S.start)) = ((result, f), w) := hwalk
  obtain ⟨w', hclosed, hstore, hvars⟩ := Executor.outcome_closeFrame (e := S.executor) f w
  obtain ⟨hsound, hcontinues, -⟩ := Executor.keeps_closeFrame (e := S.executor) f w hmirrors.spares.sound
    hmirrors.frame
  rw [hclosed] at hsound hcontinues
  have hmirrors' : S.Mirrors f w'
      (S.executor.graph.walkValues run S.values (S.start.valuesOf S.variables)).2 := by
    exact hmirrors.unchanged (hcontinues.spares hsound hstore hvars)
      (World.valuesOf_congr hstore hvars S.variables)
  rcases hexpected : S.executor.graph.walkValues run S.values (S.start.valuesOf S.variables)
    with ⟨expected, v⟩
  rw [hexpected] at hresult hmirrors'
  simp only [heval]
  obtain ⟨status, _, rfl, rfl, rfl⟩ | ⟨error, rfl, rfl⟩ := hresult.elim
  all_goals
    simp only [hclosed]
    exact ⟨f, w', rfl, hmirrors', rfl⟩

/-- Where all results are there, the slots have their values. -/
theorem Mirrors.hasValues {f : Frame} {w : World σ} {v : Valuation Value VariableValues}
    (h : S.Mirrors f w v) (hall : v.results.length = S.executor.graph.results.length) :
    Run.HasValues f.slots w v.results :=
  Tensor.map_value_eq (hall.trans h.places.symm) fun j t ht hj => (h.filled j t ht hj).1

/-- A call makes what its graph means, and if it does not fail, it completes. -/
theorem Proper.makes_execute (hS : S.Proper flags) (hrun : S.executor.Conforms flags run) (collect : Bool) :
    let o := (S.executor.execute S.slots S.inputs S.context collect).outcome S.start
    (∀ status ts, o.1 = .ok (status, ts) → status = .completed) ∧
      Run.Makes S.start S.variables S.context.held S.inputs S.slots.length
        ((S.executor.graph.meaning run S.slots.length S.values).outcome (S.start.valuesOf S.variables))
        (o.1.map (·.2), o.2) := by
  have hchecked : S.executor.graph.checkValues S.slots.length S.values
      = Executor.checkOperands S.executor.graph S.slots S.inputs :=
    (Executor.checkOperands_eq S.executor.graph S.slots S.inputs S.start.store).symm
  rw [Graph.outcome_meaning, hchecked]
  cases hcheck : Executor.checkOperands S.executor.graph S.slots S.inputs with
  | error error =>
      obtain ⟨w', htaken, hspares, hvars, -⟩ := S.executor.exists_taken hS.sound hS.cancelRequested
        S.context.held S.variables
      rw [Executor.outcome_execute_rejected hS.cancelRequested hcheck, Executor.polled, htaken]
      exact ⟨nofun, .error hspares hvars error⟩
  | ok _ =>
      obtain ⟨f, w', hexecute, hmirrors, -⟩ := hS.exists_executed hcheck hrun collect
      rw [hexecute]
      rcases hwalk : S.executor.graph.walkValues run S.values (S.start.valuesOf S.variables)
        with ⟨error | _, v⟩
      · rw [hwalk] at hmirrors
        exact ⟨nofun, .error hmirrors.spares hmirrors.state error⟩
      · have hall := S.executor.graph.length_results_of_walkValues run hwalk
        rw [hwalk] at hmirrors
        obtain ⟨-, hplaces, -⟩ := (Executor.checkOperands_eq_ok S.start.store).mp hcheck
        refine ⟨?_, hmirrors.spares, ⟨hmirrors.state, .ok (hmirrors.hasValues hall)⟩, ?_, ?_, ?_⟩
        · rintro _ _ ⟨⟩
          rfl
        · rintro _ ⟨⟩
          exact hmirrors.places.trans hplaces.symm
        · rintro _ ⟨⟩ t ht
          exact hmirrors.frame t (List.mem_append_right _ ht)
        · rintro _ ⟨⟩ t ht
          obtain ⟨j, hj, rfl⟩ := List.mem_iff_getElem.mp ht
          exact (hmirrors.filled j _ (List.getElem?_eq_getElem hj) (by rw [hall, ← hmirrors.places]; exact hj)).2

end Setting

/-! ### Fused operators -/

namespace FusedOperator

variable {f : FusedOperator σ} {flags : Ref CancelFlag → Prop} {run : Operation → List DType → Meaning}

theorem commonShape_value (ts : List Tensor) (s : Store) :
    Value.commonShape (ts.map (·.value s)) = commonShape ts := by
  unfold Value.commonShape commonShape
  rw [List.foldlM_map]
  simp only [Tensor.resolvedShape_value]

/-- Resizing clear outputs gives clear outputs. -/
theorem clear_resizeAll {w : World σ} {r : Ref Variables} {held outputs : List Tensor}
    (h : w.Clear r held outputs) (hw : w.Sound) (hheld : w.store.Holds held) (shape : Shape) :
    w.Spares held r { w with store := (resizeAll shape outputs w.store).2 } ∧
      World.Clear { w with store := (resizeAll shape outputs w.store).2 } r held
        (resizeAll shape outputs w.store).1 ∧
      (resizeAll shape outputs w.store).1.length = outputs.length := by
  obtain ⟨hwithin, hmade⟩ := resizeAll_spec shape h.allocated
  refine ⟨(World.Reaches.of_store hwithin).spares hw hheld fun _ _ => not_false,
    ⟨fun u hu => (mem_resizeAll shape h.allocated hu).1, nodup_resizeAll shape h.allocated h.nodup,
      fun u hu t ht => ?_, fun u hu id t ht => ?_⟩, hmade.length_eq.symm⟩
  · obtain ⟨-, hold | hnew⟩ := mem_resizeAll shape h.allocated hu
    · exact h.held_ne u hold t ht
    · exact (hnew.ne_buffer (hheld t ht)).symm
  · obtain ⟨-, hold | hnew⟩ := mem_resizeAll shape h.allocated hu
    · exact h.variable_ne u hold id t ht
    · exact (hnew.ne_buffer (hw.values r id t ht)).symm

/-- Without a kernel the operator keeps worlds sound if its interpreter does. -/
theorem keeps (hkernel : f.kernel = none) (hkeeps : f.interpreter.KeepsNodes) : f.evaluator.Keeps := by
  intro operation outputs inputs c
  have hresized (shape : Shape) : Run.Keeps (outputs ++ inputs) (Run.onStore (resizeAll shape outputs) : Run σ _)
      fun made => made := by
    intro w hw hheld
    have houtputs : w.store.Holds outputs := fun t ht => hheld t (List.mem_append_left _ ht)
    have hreaches := World.Reaches.of_store (resizeAll_spec shape houtputs).1
    refine ⟨hreaches.sound hw, hreaches.continues, ?_⟩
    rintro _ ⟨⟩ u hu
    exact (mem_resizeAll shape houtputs hu).1
  show Run.Keeps _ (f.evaluate operation outputs inputs c) _
  unfold evaluate
  rw [hkernel]
  refine Run.keeps_lift_bind fun _ _ => Run.keeps_lift_bind fun shape _ => (hresized shape).bind fun made => ?_
  have hexecute : Run.Keeps (made ++ (outputs ++ inputs)) (f.interpreter.execute made inputs c false) (·.2) :=
    Executor.keeps_executeNodes hkeeps (List.Subset.refl _) (List.subset_append_left _ _)
      (List.subset_append_of_subset_right _ (List.subset_append_right _ _)) c false
  refine hexecute.bind fun p => ?_
  obtain ⟨_ | _, slots⟩ := p
  · exact Run.keeps_pure (List.subset_append_left _ _)
  · exact Run.keeps_throw _

/-- Interpreting the body on clear outputs makes what the body means. -/
theorem makes_interpret (hflag : flags f.interpreter.cancel) (hrun : f.interpreter.Conforms flags run)
    {r : Ref Variables} {outputs inputs : List Tensor} {c : Context} {w : World σ}
    (h : w.Ready flags r outputs inputs c) :
    Run.Makes w r c.held inputs outputs.length
      ((f.interpreter.graph.meaning run outputs.length (inputs.map (·.value w.store))).outcome (w.valuesOf r))
      ((f.interpret outputs inputs c).outcome w) := by
  let S : Setting σ := ⟨f.interpreter, outputs, inputs, c, r, w⟩
  have hS : S.Proper flags :=
    { sound := h.sound, idle := h.idle, flag := hflag, has := h.has, «variables» := h.variables, held := h.held,
      slots := h.outputs.allocated, inputs := fun t ht => h.held t (h.inputs ht),
      free := .inr (h.outputs.mono (List.append_subset.mpr ⟨h.inputs, List.Subset.refl _⟩)) }
  obtain ⟨hcompleted, hmakes⟩ := hS.makes_execute hrun false
  have hinterpret : (f.interpret outputs inputs c).outcome w
      = (((S.executor.execute S.slots S.inputs S.context false).outcome S.start).1.map (·.2),
        ((S.executor.execute S.slots S.inputs S.context false).outcome S.start).2) := by
    rw [outcome_interpret]
    rcases hexecute : (f.interpreter.execute outputs inputs c false).outcome w with ⟨error | ⟨status, ts⟩, w'⟩
    all_goals
      have hstart : (S.executor.execute S.slots S.inputs S.context false).outcome S.start = _ := hexecute
      rw [hstart] at hcompleted
    · rfl
    · rw [hcompleted status ts rfl]
      rfl
  rw [hinterpret]
  exact hmakes

/-- An operator that interprets its body conforms to what the body means. -/
theorem conforms (hkernel : f.kernel = none) (hgraph : f.interpreter.graph = f.body) {body : Graph Unit}
    (hsame : f.body.Same body) (hflag : flags f.interpreter.cancel)
    (hrun : f.interpreter.Conforms flags run) (operation : Operation) (outs : List DType) :
    f.evaluator.Conforms flags operation outs (body.bodyMeaning run outs.length) := by
  intro r outputs inputs c w h houtputs
  have hplaces : outs.length = outputs.length := houtputs ▸ List.length_map _
  show Run.Makes _ _ _ _ _ _ ((f.evaluate operation outputs inputs c).outcome w)
  rw [hplaces, ← hsame.bodyMeaning, Graph.bodyMeaning, ← Executor.checkOperands_eq, commonShape_value]
  cases hcheck : Executor.checkOperands f.body outputs inputs with
  | error error =>
      rw [evaluate, hcheck]
      exact .error (.refl h.sound) rfl error
  | ok _ =>
      cases hshape : commonShape inputs with
      | error error =>
          rw [evaluate, hcheck, hshape]
          exact .error (.refl h.sound) rfl error
      | ok shape =>
          obtain ⟨hspares, hclear, hlength⟩ := clear_resizeAll h.outputs h.sound h.held shape
          have hready : World.Ready { w with store := (resizeAll shape outputs w.store).2 } flags r
              (resizeAll shape outputs w.store).1 inputs c :=
            ⟨hspares.sound, h.idle.continues hspares.continues, hspares.continues.has _ h.has, h.variables,
              hspares.continues.holds h.held, h.inputs, hclear⟩
          have hvalues : inputs.map (·.value (resizeAll shape outputs w.store).2) = inputs.map (·.value w.store) :=
            List.map_congr_left fun t ht => hspares.kept t (h.inputs ht)
          have hvars := h.sound.valuesOf_store (resizeAll_spec shape h.outputs.allocated).1 r
          have hmakes := makes_interpret hflag hrun hready
          simp only [hvalues, hvars, hgraph, hlength] at hmakes
          rw [evaluate_eq, outcome_evaluateAlong hcheck hshape operation c, hkernel]
          exact hmakes.of_later hspares

end FusedOperator

/-! ### Schemes -/

/-- An executor runs a graph: its own graph has the same operations, its nodes have evaluators as required, and
its requests to cancel are among the given ones. -/
structure Executor.Runs (e : Executor σ) (flags : Ref CancelFlag → Prop) (g : Graph Unit)
    (required : Operation → Evaluator σ → Prop) : Prop where
  flag : flags e.cancel
  same : e.graph.Same g
  evaluator : ∀ node ∈ e.graph.nodes, ¬ node.isParameter = true → ¬ node.isResult = true →
    ∃ ev, e.evaluatorOf node = .ok ev ∧ required node.toOperation ev

/-- An evaluator follows a scheme for an operation: it is the reference operator, for one output, or a fused
operator without a kernel whose interpreter runs the body, by evaluators that follow the inner schemes. -/
def Scheme.RunBy [HalfConversion] (flags : Ref CancelFlag → Prop) : Scheme → Operation → Evaluator σ → Prop
  | reference op, operation, ev => operation.outputs.length = 1 ∧ ev = op.evaluator
  | fused body inner, _, ev => ∃ f : FusedOperator σ, ev = f.evaluator ∧ f.kernel = none ∧
      f.interpreter.graph = f.body ∧
      f.interpreter.Runs flags body fun operation => (inner operation.id).RunBy flags operation

/-- What operations mean that are run by the schemes for their ids. -/
def Scheme.runs [HalfConversion] (inner : Nat → Scheme) (operation : Operation) : List DType → Meaning :=
  (inner operation.id).meaning operation

variable {flags : Ref CancelFlag → Prop} {e : Executor σ} {g : Graph Unit} {inner : Nat → Scheme}

theorem Graph.length_typesOf {ε : Type} (g : Graph ε) {n : Node ε} (hn : n ∈ g.nodes) :
    (g.typesOf n.outputs).length = n.outputs.length := by
  have hsome : ∀ h ∈ n.outputs, (g.tensors[h]?.map (·.dtype)).isSome = true := fun h hh => by
    rw [List.getElem?_eq_getElem (g.output_lt hn hh)]
    rfl
  rw [Graph.typesOf, List.length_filterMap_eq_countP]
  exact List.countP_eq_length.mpr hsome

/-- If all evaluators that follow the schemes conform, so does the executor. -/
theorem Executor.Runs.conforms_of [HalfConversion]
    (h : e.Runs flags g fun operation => (inner operation.id).RunBy flags operation)
    (hinner : ∀ id operation (ev : Evaluator σ) outs, (inner id).RunBy flags operation ev →
      outs.length = operation.outputs.length → ev.Conforms flags operation outs ((inner id).meaning operation outs)) :
    e.Conforms flags (Scheme.runs inner) := by
  intro node hnode hparameter hresult
  obtain ⟨ev, hev, hruns⟩ := h.evaluator node hnode hparameter hresult
  exact ⟨ev, hev, hinner node.id node.toOperation ev _ hruns (e.graph.length_typesOf hnode)⟩

/-- What follows a scheme conforms to what the scheme means, whatever the depth of nesting. -/
theorem Scheme.conforms [HalfConversion] (s : Scheme) (operation : Operation) (ev : Evaluator σ) (outs : List DType)
    (h : s.RunBy flags operation ev) (houts : outs.length = operation.outputs.length) :
    ev.Conforms flags operation outs (s.meaning operation outs) := by
  induction s generalizing operation ev outs with
  | reference op =>
      obtain ⟨hone, rfl⟩ := h
      obtain ⟨out, rfl⟩ := List.length_eq_one_iff.mp (houts.trans hone)
      exact op.conforms flags operation out
  | fused body inner ih =>
      obtain ⟨f, rfl, hkernel, hgraph, hruns⟩ := h
      exact FusedOperator.conforms hkernel hgraph (hgraph ▸ hruns.same) hruns.flag (hruns.conforms_of ih) operation
        outs

theorem Executor.Runs.conforms [HalfConversion]
    (h : e.Runs flags g fun operation => (inner operation.id).RunBy flags operation) :
    e.Conforms flags (Scheme.runs inner) :=
  h.conforms_of fun id => (inner id).conforms

/-- If all evaluators that are required keep worlds sound, so does the executor. -/
theorem Executor.Runs.keepsNodes_of {required : Operation → Evaluator σ → Prop} (h : e.Runs flags g required)
    (hkeeps : ∀ operation ev, required operation ev → ev.Keeps) : e.KeepsNodes := by
  intro node hnode hparameter hresult ev hev
  obtain ⟨ev', hev', hrequired⟩ := h.evaluator node hnode hparameter hresult
  obtain rfl := Except.ok.inj (hev.symm.trans hev')
  exact hkeeps _ ev hrequired

/-- What follows a scheme keeps worlds sound. -/
theorem Scheme.keeps [HalfConversion] (s : Scheme) (operation : Operation) (ev : Evaluator σ)
    (h : s.RunBy flags operation ev) : ev.Keeps := by
  induction s generalizing operation ev with
  | reference op =>
      obtain ⟨-, rfl⟩ := h
      exact op.keeps_evaluator
  | fused body inner ih =>
      obtain ⟨f, rfl, hkernel, -, hruns⟩ := h
      exact FusedOperator.keeps hkernel (hruns.keepsNodes_of fun operation => ih operation.id operation)

theorem Executor.Runs.keepsNodes [HalfConversion]
    (h : e.Runs flags g fun operation => (inner operation.id).RunBy flags operation) : e.KeepsNodes :=
  h.keepsNodes_of fun operation => (inner operation.id).keeps operation

end TensorGraph
