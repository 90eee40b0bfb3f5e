import TensorGraph.Proofs.Fusion
import TensorGraph.Proofs.Shaping

/-! # What the two ways of a fused operator accept, and the shapes they give

With a kernel or without, evaluating begins with the checks of the body and the common shape of the inputs
(`accepted_of_evaluated`).  After that the kernel needs a plan, and a plan needs a terminal, and a common
shape of bounded rank whose size fits a word (`exists_sweep_iff`).  The body of elementwise operators needs
nothing more (`exists_interpret`).  So the kernel accepts less than the body, and the difference is these three
conditions (`evaluated_with_kernel_iff`).

The outputs of a kernel have the common shape of all inputs, to which they were resized.  Without kernel they
have the shapes that the body gives to its results, which for elementwise operators are the common shapes of
those inputs from which a result is computed (`shape_of_evaluated`). -/

namespace TensorGraph

variable {σ : Type}

open Shape

namespace FusedOperator

variable {f : FusedOperator σ} {w : World σ} {dtype : DType} {s : Shape} {outputs inputs : List Tensor}
  {kind : Node (Evaluator σ) → ReferenceOp} {interleaving : List Task → List Nat} {operation : Operation}
  {c : Context} {produced : List Tensor}

/-! ### What both ways need -/

/-- Operands on which an evaluation succeeds have passed the checks of the body, and the inputs have a common
shape. -/
theorem accepted_of_evaluated
    (h : ((f.evaluateAlong interleaving operation outputs inputs c).outcome w).1 = .ok produced) :
    Executor.checkOperands f.body outputs inputs = .ok () ∧ ∃ s, commonShape inputs = .ok s := by
  unfold evaluateAlong at h
  cases hcheck : Executor.checkOperands f.body outputs inputs with
  | error error =>
      rw [hcheck] at h
      cases h
  | ok _ =>
      cases hcommon : commonShape inputs with
      | error error =>
          rw [hcheck, hcommon] at h
          cases h
      | ok s => exact ⟨rfl, s, rfl⟩

/-- Resizing the outputs changes nothing that is checked. -/
theorem checkOperands_resizeAll (hcheck : Executor.checkOperands f.body outputs inputs = .ok ()) (s : Shape)
    (st : Store) : Executor.checkOperands f.body (resizeAll s outputs st).1 inputs = .ok () := by
  obtain ⟨hparameters, hresults, hinstances⟩ := (Executor.checkOperands_eq_ok st).mp hcheck
  exact (Executor.checkOperands_eq_ok st).mpr
    ⟨hparameters, (length_resizeAll s outputs st).trans hresults, hinstances⟩

theorem append_resizeAll_eq_nil_iff (s : Shape) (st : Store) :
    inputs ++ (resizeAll s outputs st).1 = [] ↔ inputs ++ outputs = [] := by
  have hlength := length_resizeAll s outputs st
  simp only [← List.length_eq_zero_iff, List.length_append, hlength]

/-! ### What the kernel needs besides -/

/-- Planning for inputs and resized outputs and sweeping a kernel that never fails succeeds exactly if there
is a terminal, and the common shape has no too high a rank and a size that fits a word. -/
theorem exists_sweep_iff (hsteady : f.Steady w) {kernel : Kernel σ} (hkernel : kernel.NeverFails)
    (hcomplete : ∀ tasks, Sweep.Complete tasks (interleaving tasks)) (hcommon : commonShape inputs = .ok s)
    (houtputs : ∀ u ∈ outputs, u.shape = some s) :
    (∃ produced, ((do
        let plan ← f.planFor inputs outputs
        f.scheduler.runAlong interleaving kernel plan (inputs.map (some ·.buffer))
          (outputs.map (some ·.buffer))
        return outputs : Run σ (List Tensor)).outcome w).1 = .ok produced) ↔
      inputs ++ outputs ≠ [] ∧ s.length ≤ Planner.maxRank ∧ (Word.product? s).isSome = true := by
  obtain ⟨hshapes, hjoined⟩ := joined_of_commonShape hcommon
  have hextents : ∀ u ∈ outputs, u.extents = s := fun u hu => by
    rw [Tensor.extents, houtputs u hu, Option.getD_some]
  have hports : (interfaceOf outputs inputs).terminals ≠ [] ↔ inputs ++ outputs ≠ [] := by
    rw [Interface.terminals, interfaceOf, ← List.map_append, Ne, List.map_eq_nil_iff]
  have hfetched := hsteady.outcome_planFor inputs outputs
  rw [ofTensors_eq_ok hshapes fun u hu => (houtputs u hu).trans (congrArg some (hextents u hu).symm),
    ok_bind] at hfetched
  rw [← hports, ← Planner.exists_plan_iff f.planner order_of_mem_terminals (joined_interfaceOf hjoined hextents)]
  cases hplan : f.planner.plan (interfaceOf outputs inputs) with
  | error error =>
      rw [hplan] at hfetched
      rw [Run.outcome_bind, hfetched]
      constructor
      · rintro ⟨_, hproduced⟩
        cases hproduced
      · rintro ⟨_, hplanned⟩
        cases hplanned
  | ok plan =>
      rw [hplan] at hfetched
      obtain ⟨plans, _, hfetched⟩ := hfetched
      obtain ⟨hins, houts⟩ := Planner.length_accesses_of_plan hplan
      rw [interfaceOf, List.length_map] at hins houts
      have hrun := Scheduler.outcome_runAlong_of_neverFails hplan f.scheduler hkernel hcomplete
        ((List.length_map fun t : Tensor => some t.buffer).trans hins.symm)
        ((List.length_map fun t : Tensor => some t.buffer).trans houts.symm)
        { w with planCaches := w.planCaches.put f.plans plans }
      rw [Run.outcome_bind_ok hfetched, Run.outcome_bind_ok hrun]
      exact ⟨fun _ => ⟨plan, rfl⟩, fun _ => ⟨outputs, rfl⟩⟩

/-- What a kernel was swept over is returned. -/
theorem returned_of_sweep {kernel : Kernel σ} (h : ((do
      let plan ← f.planFor inputs outputs
      f.scheduler.runAlong interleaving kernel plan (inputs.map (some ·.buffer)) (outputs.map (some ·.buffer))
      return outputs : Run σ (List Tensor)).outcome w).1 = .ok produced) : outputs = produced := by
  rw [Run.outcome_bind] at h
  rcases hplan : (f.planFor inputs outputs).outcome w with ⟨error | plan, w₁⟩
  · rw [hplan] at h
    cases h
  · rw [hplan] at h
    dsimp only at h
    rw [Run.outcome_bind] at h
    rcases hrun : (f.scheduler.runAlong interleaving kernel plan (inputs.map (some ·.buffer))
      (outputs.map (some ·.buffer))).outcome w₁ with ⟨error | _, w₂⟩
    · rw [hrun] at h
      cases h
    · rw [hrun] at h
      exact Except.ok.inj h

/-! ### What the body does -/

/-- A body of elementwise operators makes something of all inputs with a common shape, and every result has
the common shape of the inputs from which it is computed. -/
theorem exists_interpret [HalfConversion] (hgraph : f.interpreter.graph = f.body)
    (hkind : f.interpreter.IsReference kind) (hbody : f.body.IsElementwise dtype kind)
    (hcheck : Executor.checkOperands f.body outputs inputs = .ok ()) (hcommon : commonShape inputs = .ok s)
    (hcancel : w.cancelRequested f.interpreter.cancel = false) (c : Context) :
    ∃ made sources, ((f.interpret outputs inputs c).outcome w).1 = .ok made ∧ f.body.sources = some sources ∧
      List.Forall₂ (fun (t : Tensor) places => t.shape = joinAt (inputs.map Tensor.extents) places) made
        sources := by
  obtain ⟨_, hjoined⟩ := joined_of_commonShape hcommon
  obtain ⟨hparameters, _, _⟩ := (Executor.checkOperands_eq_ok w.store).mp hcheck
  obtain ⟨shapes, sources, hshapes, hsources, _, hjoins⟩ := hbody.exists_onShapes
    ((List.length_map Tensor.extents).trans hparameters) (broadcastsTo_of_joined hjoined).2
  have hexecute := Executor.execute_shaped (e := f.interpreter) (hgraph ▸ hbody) hkind (hgraph ▸ hcheck)
    hcancel c false
  rw [hgraph, hshapes] at hexecute
  obtain ⟨made, w', houtcome, hmade⟩ := hexecute
  refine ⟨made, sources, ?_, hsources, List.forall₂_iff_get.mpr
    ⟨hmade.length_eq.trans hjoins.length_eq, fun i hi hi' => ?_⟩⟩
  · rw [outcome_interpret, houtcome]
  · have hi'' : i < shapes.length := hmade.length_eq ▸ hi
    exact (hmade.get hi hi'').2.trans (hjoins.get hi'' hi').symm

/-- What is interpreted is what a completed call of the interpreter leaves. -/
theorem completed_of_interpret (h : ((f.interpret outputs inputs c).outcome w).1 = .ok produced) :
    ((f.interpreter.execute outputs inputs c false).outcome w).1 = .ok (.completed, produced) := by
  rw [outcome_interpret] at h
  rcases hexecute : (f.interpreter.execute outputs inputs c false).outcome w with
    ⟨error | ⟨status | status, slots⟩, w'⟩
  · rw [hexecute] at h
    cases h
  · rw [hexecute] at h
    obtain rfl := Except.ok.inj h
    rfl
  · rw [hexecute] at h
    cases h

theorem not_cancelled_of_interpret (h : ((f.interpret outputs inputs c).outcome w).1 = .ok produced) :
    w.cancelRequested f.interpreter.cancel = false :=
  (Executor.exists_walk_of_completed (completed_of_interpret h)).1

/-! ### Which operands the two ways accept -/

/-- **A kernel accepts less than its body.**  From every world that an operator comes to, evaluating with a
kernel that never fails succeeds exactly if evaluating without kernel does, there is a terminal, and the common
shape of the inputs has no more dimensions than are planned for and a size that fits a word. -/
theorem evaluated_with_kernel_iff [HalfConversion] (hf : f.Reached w) (hkind : f.interpreter.IsReference kind)
    (hbody : f.body.IsElementwise dtype kind) {kernel : Kernel σ} (hkernel : kernel.NeverFails)
    (hcomplete : ∀ tasks, Sweep.Complete tasks (interleaving tasks)) (operation : Operation)
    (outputs inputs : List Tensor) (c : Context) :
    (∃ produced, (((f.withKernel (some kernel)).evaluateAlong interleaving operation outputs inputs
        c).outcome w).1 = .ok produced) ↔
      (∃ produced, (((f.withKernel none).evaluate operation outputs inputs c).outcome w).1 = .ok produced) ∧
        inputs ++ outputs ≠ [] ∧ ∃ s, commonShape inputs = .ok s ∧ s.length ≤ Planner.maxRank ∧
          (Word.product? s).isSome = true := by
  obtain ⟨hgraph, hsteady⟩ := hf.steady hkind.keepsNodes
  rw [evaluate_eq]
  constructor
  · rintro ⟨produced, hproduced⟩
    obtain ⟨hcheck, s, hcommon⟩ := accepted_of_evaluated hproduced
    rw [outcome_evaluateAlong hcheck hcommon] at hproduced
    obtain ⟨hports, hbounds⟩ := (exists_sweep_iff (hsteady.onResized s outputs) hkernel hcomplete hcommon
      fun u hu => shape_of_mem_resizeAll hu).mp ⟨produced, hproduced⟩
    obtain ⟨made, _, hmade, _⟩ := exists_interpret hgraph hkind hbody
      (checkOperands_resizeAll hcheck s w.store) hcommon (hsteady.onResized s outputs).idle c
    refine ⟨⟨made, ?_⟩, ?_, s, hcommon, hbounds⟩
    · rw [outcome_evaluateAlong (f := f.withKernel none) hcheck hcommon]
      exact hmade
    · exact fun hnone => hports ((append_resizeAll_eq_nil_iff s w.store).mpr hnone)
  · rintro ⟨⟨made, hmade⟩, hports, s, hcommon, hbounds⟩
    obtain ⟨hcheck, _⟩ := accepted_of_evaluated hmade
    rw [outcome_evaluateAlong (f := f.withKernel (some kernel)) hcheck hcommon]
    exact (exists_sweep_iff (hsteady.onResized s outputs) hkernel hcomplete hcommon
      fun u hu => shape_of_mem_resizeAll hu).mpr
        ⟨fun hnone => hports ((append_resizeAll_eq_nil_iff s w.store).mp hnone), hbounds⟩

/-- A scalar is added to a row on both ways. -/
theorem evaluated_with_kernel_iff_row :
    ∃ produced, (((adderCreated.1.withKernel (some adderKernel)).evaluateAlong Sweep.inOrder default
      [⟨.f32, some [2], ⟨3⟩⟩] [⟨.f32, some [1], ⟨1⟩⟩, ⟨.f32, some [3], ⟨4⟩⟩] .empty).outcome
        adderRefilled).1 = .ok produced := by
  refine (evaluated_with_kernel_iff reached_adderRefilled isReference_adder isElementwise_adder
    computes_adderKernel.neverFails Sweep.complete_inOrder default _ _ .empty).mpr ⟨?_, by decide, ?_⟩
  · exact ⟨[⟨.f32, some [3], ⟨5⟩⟩], by decide +kernel⟩
  · exact ⟨[3], rfl, by decide, by decide⟩

/-- A graph that rectifies an input of some rank. -/
def rectifier (rank : Nat) : Graph (Evaluator Unit) where
  tensors := List.replicate 3 ⟨.u8, List.replicate rank .dynamic⟩
  nodes := [⟨⟨0, .parameter, none, [], [0], none⟩, none⟩, ⟨⟨1, .relu, none, [0], [1], none⟩, none⟩,
    ⟨⟨2, .result, none, [1], [2], none⟩, none⟩]
  numbered := rfl
  checked := rfl

/-- The operator for rank 13, and the world in which it is created and an input of one element and an open
output are made. -/
def rectifierCreated : FusedOperator Unit × World Unit :=
  let (f, w) := create (rectifier 13) .reference (scheduled 1).1 1 none (scheduled 1).2
  (f, { w with store := ((w.store.alloc #[7]).2.alloc #[]).2 })

/-- An input of rank 13 is interpreted, but not planned for. -/
theorem evaluate_rank_differs :
    rectifierCreated.1.Reached rectifierCreated.2 ∧
      rectifierCreated.1.interpreter.IsReference (fun _ => .relu) ∧
      rectifierCreated.1.body.IsElementwise .u8 (fun _ => .relu) ∧ adderKernel.NeverFails ∧
      (let inputs : List Tensor := [⟨.u8, some (List.replicate 13 1), ⟨0⟩⟩]
       let outputs : List Tensor := [⟨.u8, none, ⟨1⟩⟩]
       (((rectifierCreated.1.withKernel (some adderKernel)).evaluate default outputs inputs .empty).outcome
          rectifierCreated.2).1 = .error (.unsupportedRank 13 12) ∧
        (((rectifierCreated.1.withKernel none).evaluate default outputs inputs .empty).outcome
          rectifierCreated.2).1 = .ok [⟨.u8, some (List.replicate 13 1), ⟨2⟩⟩]) := by
  have hcreated : rectifierCreated.1.Reached
      (create (rectifier 13) .reference (scheduled 1).1 1 none (scheduled 1).2).2 :=
    .created (sound_scheduled 1) none rfl
  have hsound := sound_create (sound_scheduled 1) (rectifier 13) .reference (scheduled 1).1 1 none
  refine ⟨?_, Executor.isReference_of_registry rfl (by decide), ⟨by decide, by decide⟩,
    computes_adderKernel.neverFails, by decide +kernel, by decide +kernel⟩
  exact (hcreated.elsewhere (elsewhere_alloc hsound #[7])).elsewhere
    (elsewhere_alloc ((World.Reaches.of_store (Store.within_alloc (fun _ => False) _ #[7])).sound hsound) #[])

/-! ### Which shapes the two ways give -/

/-- **Shapes of outputs.**  If an evaluation succeeds then the inputs have a common shape.  With a kernel every
output has this shape.  Without one the outputs have the types and the shapes of what the interpreter binds to
the results of the body, whatever its evaluators are; if these are elementwise reference operators then each
output has the common shape of the inputs from which it is computed, which is that of all inputs if these are
all of them. -/
theorem shape_of_evaluated [HalfConversion] (hgraph : f.interpreter.graph = f.body)
    (h : ((f.evaluateAlong interleaving operation outputs inputs c).outcome w).1 = .ok produced) :
    ∃ s, commonShape inputs = .ok s ∧
      (f.kernel.isSome = true → ∀ t ∈ produced, t.shape = some s) ∧
      (f.kernel = none →
        let resized := resizeAll s outputs w.store
        List.Forall₂ (fun k (t : Tensor) => ∃ bound,
            (f.interpreter.walk resized.1 inputs c false { w with store := resized.2 }
              f.body.nodes).1.2.bindings.get? k = some bound ∧
            t.dtype = bound.dtype ∧ t.shape = bound.shape) f.body.resultHandles produced ∧
        ∀ dtype kind, f.interpreter.IsReference kind → f.body.IsElementwise dtype kind →
          ∃ sources, f.body.sources = some sources ∧ List.Forall₂ (fun (t : Tensor) places =>
            t.shape = joinAt (inputs.map Tensor.extents) places ∧
            ((∀ i < inputs.length, i ∈ places) → t.shape = some s)) produced sources) := by
  obtain ⟨hcheck, s, hcommon⟩ := accepted_of_evaluated h
  rw [outcome_evaluateAlong hcheck hcommon] at h
  refine ⟨s, hcommon, fun hkernel t ht => ?_, fun hkernel => ?_⟩
  · obtain ⟨kernel, hkernel⟩ := Option.isSome_iff_exists.mp hkernel
    rw [hkernel] at h
    obtain rfl := returned_of_sweep h
    exact shape_of_mem_resizeAll ht
  · rw [hkernel] at h
    have hcheck' := checkOperands_resizeAll hcheck s w.store
    have hslots := Executor.forall₂_slots_of_completed (completed_of_interpret h)
    rw [hgraph] at hslots
    refine ⟨hslots, fun dtype kind hkind hbody => ?_⟩
    obtain ⟨made, sources, hmade, hsources, hshapes⟩ := exists_interpret hgraph hkind hbody hcheck' hcommon
      (not_cancelled_of_interpret h) c
    obtain rfl := Except.ok.inj (hmade.symm.trans h)
    refine ⟨sources, hsources, hshapes.imp fun t places ht => ⟨ht, fun hall => ?_⟩⟩
    exact ht.trans (joinAt_of_forall_mem (joined_of_commonShape hcommon).2
      (by rwa [List.length_map]))

/-- A graph of two parameters that rectifies the second one. -/
def secondRectifier : Graph (Evaluator Unit) where
  tensors := List.replicate 4 ⟨.u8, [.dynamic]⟩
  nodes := [⟨⟨0, .parameter, none, [], [0], none⟩, none⟩, ⟨⟨1, .parameter, none, [], [1], none⟩, none⟩,
    ⟨⟨2, .relu, none, [1], [2], none⟩, none⟩, ⟨⟨3, .result, none, [2], [3], none⟩, none⟩]
  numbered := rfl
  checked := rfl

/-- The operator for it, and the world in which it is created and inputs of two elements and of one and an
open output are made. -/
def secondCreated : FusedOperator Unit × World Unit :=
  let (f, w) := create secondRectifier .reference (scheduled 1).1 1 none (scheduled 1).2
  (f, { w with store := (((w.store.alloc #[1, 2]).2.alloc #[3]).2.alloc #[]).2 })

theorem isReference_secondCreated : secondCreated.1.interpreter.IsReference fun _ => .relu :=
  Executor.isReference_of_registry rfl (by decide)

/-- The output has the shape of the second input, from which alone it is computed. -/
theorem shape_of_evaluated_second : ∃ s sources,
    commonShape [⟨.u8, some [2], ⟨0⟩⟩, ⟨.u8, some [1], ⟨1⟩⟩] = .ok s ∧
      secondRectifier.sources = some sources ∧
      List.Forall₂ (fun (t : Tensor) places => t.shape = joinAt [[2], [1]] places) [⟨.u8, some [1], ⟨5⟩⟩]
        sources := by
  have hevaluated : ((secondCreated.1.evaluateAlong Sweep.inOrder default [⟨.u8, none, ⟨2⟩⟩]
      [⟨.u8, some [2], ⟨0⟩⟩, ⟨.u8, some [1], ⟨1⟩⟩] .empty).outcome secondCreated.2).1
        = .ok [⟨.u8, some [1], ⟨5⟩⟩] := by decide +kernel
  obtain ⟨s, hcommon, _, hbody⟩ := shape_of_evaluated rfl hevaluated
  obtain ⟨sources, hsources, hshapes⟩ :=
    (hbody rfl).2 .u8 _ isReference_secondCreated ⟨by decide, by decide⟩
  exact ⟨s, sources, hcommon, hsources, hshapes.imp fun _ _ h => h.1⟩

/-- Without kernel not every output has the common shape of all inputs. -/
theorem evaluated_shape_differs :
    secondCreated.1.interpreter.IsReference (fun _ => .relu) ∧ secondCreated.1.kernel = none ∧
      commonShape [⟨.u8, some [2], ⟨0⟩⟩, ⟨.u8, some [1], ⟨1⟩⟩] = .ok [2] ∧
      ((secondCreated.1.evaluate default [⟨.u8, none, ⟨2⟩⟩] [⟨.u8, some [2], ⟨0⟩⟩, ⟨.u8, some [1], ⟨1⟩⟩]
        .empty).outcome secondCreated.2).1 = .ok [⟨.u8, some [1], ⟨5⟩⟩] :=
  ⟨isReference_secondCreated, rfl, by decide, by decide +kernel⟩

end FusedOperator

end TensorGraph
