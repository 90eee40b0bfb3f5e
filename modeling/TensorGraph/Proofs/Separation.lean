import TensorGraph.Proofs.Resetting
import TensorGraph.Proofs.Sheltering

/-! # Evaluators do not disturb what is held

A fused operator interprets its body, so that it writes into what its own interpreter remembers, and not only
into its outputs.  The evaluators here are such operators, built from evaluators that write only into their
outputs (`Evaluator.Careful`); they leave what their callers hold as it was (`Evaluator.Careful.guards`).
`Execution.Inside` are the calls within a call, and `Execution.undisturbed` is what every dispatch in one of them
leaves as it was. -/

namespace TensorGraph

variable {σ : Type}

/-! ### Operators that interpret a body -/

namespace FusedOperator

variable {P : Holder → Prop} {g : FusedOperator σ} {outputs inputs : List Tensor} {c : Context} {w : World σ}

/-- The call by which an operator interprets its body: the slots are its outputs, resized to a shape. -/
def interpretation (g : FusedOperator σ) (shape : Shape) (outputs inputs : List Tensor) (c : Context)
    (w : World σ) : Execution σ :=
  ⟨g.interpreter, (resizeAll shape outputs w.store).1, inputs, c, false,
    { w with store := (resizeAll shape outputs w.store).2 }⟩

/-- An operator without a kernel refuses its operands, or interprets its body. -/
theorem evaluate_cases (hkernel : g.kernel = none) (operation : Operation) (outputs inputs : List Tensor)
    (c : Context) (w : World σ) :
    (∃ error, (g.evaluate operation outputs inputs c).outcome w = (.error error, w)) ∨
      ∃ shape, Executor.checkOperands g.body outputs inputs = .ok () ∧ commonShape inputs = .ok shape ∧
        (g.evaluate operation outputs inputs c).outcome w
          = match (g.interpretation shape outputs inputs c w).outcome with
            | (.ok (.completed, slots), w') => (.ok slots, w')
            | (.ok (.cancelled, _), w') => (.error (.internal "subgraph body was cancelled"), w')
            | (.error error, w') => (.error error, w') := by
  rcases hcheck : Executor.checkOperands g.body outputs inputs with error | ⟨⟩
  · left
    unfold evaluate
    rw [hcheck]
    exact ⟨error, rfl⟩
  · rcases hshape : commonShape inputs with error | shape
    · left
      unfold evaluate
      rw [hcheck, hshape]
      exact ⟨error, rfl⟩
    · right
      refine ⟨shape, rfl, rfl, ?_⟩
      rw [evaluate_eq, outcome_evaluateAlong hcheck hshape]
      simp only [hkernel]
      exact outcome_interpret g _ _ _ _

/-- The outputs that an operator has resized are its own or new. -/
theorem holds_interpretation (shape : Shape) (houtputs : w.store.Holds outputs) (hinputs : w.store.Holds inputs)
    (c : Context) : (g.interpretation shape outputs inputs c w).world.store.Holds
      ((g.interpretation shape outputs inputs c w).slots ++ inputs) := by
  refine List.forall_mem_append.mpr ⟨fun t ht => (mem_resizeAll shape houtputs ht).1, fun t ht => ?_⟩
  exact (within_resizeAll shape outputs w.store).grows _ (hinputs t ht)

/-- An operator that interprets its body guards what the evaluators of the body guard. -/
theorem guards_evaluator (hkernel : g.kernel = none) (hmemory : ¬ P (.memory g.interpreter.memory))
    (hguards : g.interpreter.GuardsNodes P) (operation : Operation) : g.evaluator.Guards P operation := by
  intro outputs inputs c w hw hheld
  obtain ⟨houtputs, hinputs⟩ := List.forall_mem_append.mp hheld
  rw [show g.evaluator.evaluate = g.evaluate from rfl]
  obtain ⟨error, hrefused⟩ | ⟨shape, -, -, hends⟩ := evaluate_cases hkernel operation outputs inputs c w
  · rw [hrefused]
    exact ⟨.refl hw P _ _, nofun⟩
  · have hwithin := within_resizeAll shape outputs w.store
    have hsound : (g.interpretation shape outputs inputs c w).world.Sound :=
      (World.Reaches.of_store hwithin).sound hw
    obtain ⟨hslots, hinputs'⟩ := List.forall_mem_append.mp
      (holds_interpretation (g := g) shape houtputs hinputs c)
    have hresized : w.Guards P (fun b => ∃ t ∈ outputs, t.buffer = b) (inputs ++ c.held)
        (g.interpretation shape outputs inputs c w).world :=
      .of_within hsound ⟨hwithin.grows, fun b hb _ => hwithin.keeps b hb not_false⟩
        (fun _ _ _ hx => hx.congr rfl fun _ => rfl) _
    obtain ⟨hcall, hreturned⟩ := Executor.guards_executeNodes hguards hmemory hsound hslots hinputs'
      (List.append_nil _).symm c false
    have hresizedApart (t : Tensor) (hallocated : w.store.Allocated t.buffer)
        (hapart : ¬ ∃ u ∈ outputs, u.buffer = t.buffer) :
        ¬ ∃ u ∈ (g.interpretation shape outputs inputs c w).slots, u.buffer = t.buffer := by
      rintro ⟨u, hu, hbuffer⟩
      rcases (mem_resizeAll shape houtputs hu).2 with hu | hnew
      · exact hapart ⟨u, hu, hbuffer⟩
      · exact hnew.1 (hbuffer ▸ hallocated)
    have hall := hresized.trans hcall (List.Subset.refl _) fun t ht hapart _ => hresizedApart t ht hapart
    change w.Guards P _ _ (g.interpretation shape outputs inputs c w).outcome.2 at hall
    change ∀ p, (g.interpretation shape outputs inputs c w).outcome.1 = .ok p →
      (g.interpretation shape outputs inputs c w).outcome.2.store.Holds p.2 at hreturned
    rw [hends]
    rcases houtcome : (g.interpretation shape outputs inputs c w).outcome with ⟨error | ⟨_ | _, slots⟩, w'⟩
    · rw [houtcome] at hall
      exact ⟨hall, nofun⟩
    · rw [houtcome] at hall hreturned
      refine ⟨hall, fun made hmade => ?_⟩
      obtain rfl := Except.ok.inj hmade
      exact hreturned _ rfl
    · rw [houtcome] at hall
      exact ⟨hall, nofun⟩

end FusedOperator

/-- Evaluators that write into their outputs, and operators that interpret a body by such evaluators.  The
memory of the interpreter is none of the holders to be left alone. -/
inductive Evaluator.Careful (P : Holder → Prop) : Operation → Evaluator σ → Prop
  | writes {operation : Operation} {ev : Evaluator σ} (h : ev.WritesOutputs P operation) : Careful P operation ev
  | interprets {operation : Operation} {f : FusedOperator σ} (hkernel : f.kernel = none)
    (hmemory : ¬ P (.memory f.interpreter.memory))
    (hnodes : ∀ node ∈ f.interpreter.graph.nodes, node.isOperator = true →
      ∀ ev, f.interpreter.evaluatorOf node = .ok ev → Careful P node.toOperation ev) :
    Careful P operation f.evaluator

/-- Careful evaluators guard what they are to leave alone. -/
theorem Evaluator.Careful.guards {P : Holder → Prop} {operation : Operation} {ev : Evaluator σ}
    (h : ev.Careful P operation) : ev.Guards P operation := by
  induction h with
  | writes h => exact h.guards
  | interprets hkernel hmemory _ ih => exact FusedOperator.guards_evaluator hkernel hmemory ih _

theorem Evaluator.WritesOutputs.mono {P P' : Holder → Prop} {operation : Operation} {ev : Evaluator σ}
    (h : ev.WritesOutputs P operation) (hP : ∀ x, P' x → P x) : ev.WritesOutputs P' operation := by
  intro outputs inputs c w hw hheld
  obtain ⟨hwithin, hsound, hmade, hholds⟩ := h outputs inputs c w hw hheld
  exact ⟨hwithin, hsound, hmade, fun x t hx => hholds x t (hP x hx)⟩

theorem Evaluator.Careful.mono {P P' : Holder → Prop} {operation : Operation} {ev : Evaluator σ}
    (h : ev.Careful P operation) (hP : ∀ x, P' x → P x) : ev.Careful P' operation := by
  induction h with
  | writes h => exact .writes (h.mono hP)
  | interprets hkernel hmemory _ ih => exact .interprets hkernel (fun hx => hmemory (hP _ hx)) ih

/-- The operators that come with the library are careful with what executors remember. -/
theorem ReferenceOp.writesOutputs [HalfConversion] {P : Holder → Prop} (hP : ∀ r id, ¬ P (.value r id))
    (op : ReferenceOp) (operation : Operation) : (op.evaluator : Evaluator σ).WritesOutputs P operation := by
  intro outputs inputs c w hw hheld
  obtain ⟨hreaches, hmade⟩ := op.contained_evaluate operation outputs inputs c w
  refine ⟨hreaches.store, hreaches.sound hw, fun made hok t ht => ?_, fun x t hx hholds => ?_⟩
  · rcases hmade made hok t ht with hold | hnew
    · exact hreaches.store.grows _ (hheld t (List.mem_append_left _ hold))
    · exact hnew.2
  · cases x with
    | value r id => exact absurd hx (hP r id)
    | memory r =>
        obtain ⟨store, vars, hsame⟩ := hreaches.same
        change some t ∈ (((op.evaluator.evaluate operation outputs inputs c).outcome w).2.memories.get
          r).intermediates
        rw [hsame]
        exact hholds

namespace Executor

variable {P : Holder → Prop} {e : Executor σ}

/-- The evaluators that an executor may hand its nodes to are careful. -/
def Careful (P : Holder → Prop) (e : Executor σ) : Prop :=
  ∀ node ∈ e.graph.nodes, node.isOperator = true →
    ∀ ev, e.evaluatorOf node = .ok ev → ev.Careful P node.toOperation

theorem Careful.guardsNodes (h : e.Careful P) : e.GuardsNodes P :=
  fun node hnode hoperator ev hev => (h node hnode hoperator ev hev).guards

theorem Careful.guardsNodes_false (h : e.Careful P) : e.GuardsNodes fun _ => False :=
  fun node hnode hoperator ev hev => ((h node hnode hoperator ev hev).mono fun _ => False.elim).guards

/-- An executor of careful evaluators comes to sound worlds only. -/
theorem Reached.sound_of_guards (hguards : e.GuardsNodes fun _ => False) {w : World σ} (h : e.Reached w) :
    w.Sound := by
  induction h with
  | created hw hcreate => exact (sound_create hw hcreate).1
  | called _ count hslots hinputs c collect ih =>
      exact (guards_executeNodes hguards not_false ih hslots hinputs
        (List.take_append_drop count e.graph.nodes).symm c collect).1.sound
  | reset _ ih => exact sound_resetState ih
  | requested _ ih => exact ih.congr rfl rfl fun _ _ h => h
  | elsewhere _ hw _ => exact hw.sound

end Executor

/-! ### Calls within calls -/

namespace Execution

variable {P : Holder → Prop} {p q : Execution σ} {node : Node (Evaluator σ)} {f : Frame} {w : World σ}
  {handed : Handed σ}

/-- The calls that a call makes: itself, and those by which the operators dispatched in them interpret bodies of
careful evaluators. -/
inductive Inside (P : Holder → Prop) (p : Execution σ) : Execution σ → Prop
  | itself : Inside P p p
  | interpretation {q : Execution σ} {node : Node (Evaluator σ)} {f : Frame} {w : World σ} {handed : Handed σ}
    {g : FusedOperator σ} {shape : Shape} (h : Inside P p q) (hdispatches : q.Dispatches node f w handed)
    (hevaluator : handed.evaluator = g.evaluator) (hkernel : g.kernel = none)
    (hcareful : g.interpreter.Careful P)
    (hcheck : Executor.checkOperands g.body handed.outputs handed.inputs = .ok ())
    (hshape : FusedOperator.commonShape handed.inputs = .ok shape) :
    Inside P p (g.interpretation shape handed.outputs handed.inputs handed.context w)

/-- A call as it may be made: the world is sound, and what the call is given and what its callers hold is
allocated. -/
structure Proper (q : Execution σ) : Prop where
  sound : q.world.Sound
  slots : q.world.store.Holds q.slots
  inputs : q.world.store.Holds q.inputs
  held : q.world.store.Holds q.context.held

/-- The world in which a proper call dispatches an operator is sound, and the operator is ready. -/
theorem Dispatches.ready (hdispatches : q.Dispatches node f w handed) (hq : q.Proper)
    (hguards : q.executor.GuardsNodes fun _ => False) :
    ∃ origin, Executor.Ready q.inputs q.context origin handed f w ∧
      ∀ b, q.world.store.Allocated b → origin.store.Allocated b := by
  obtain ⟨_, hcheck, hnodes, hwalk, _, _, hprepared⟩ := hdispatches
  have hsheltered := Executor.sheltered_walk hguards not_false hcheck hq.sound hq.slots hq.inputs hnodes hwalk
  exact ⟨_, Executor.ready_of_prepare hcheck hnodes hwalk hsheltered.guards.sound hsheltered.frame hprepared,
    hsheltered.guards.grows⟩

/-- The evaluator of a dispatched operator is one that the executor hands its nodes to. -/
theorem Dispatches.guards (hdispatches : q.Dispatches node f w handed) (hguards : q.executor.GuardsNodes P) :
    handed.evaluator.Guards P node.toOperation := by
  obtain ⟨_, _, hnodes, _, _, hoperator, hprepared⟩ := hdispatches
  have hmem : node ∈ q.executor.graph.nodes := hnodes ▸ List.mem_append_right _ List.mem_cons_self
  exact hguards node hmem hoperator _ (Executor.prepared_of_prepare hprepared).evaluator

/-- The calls within a proper call of careful evaluators are such calls, too. -/
theorem Inside.proper (hinside : Inside P p q) (hp : p.Proper) (hcareful : p.executor.Careful P) :
    q.Proper ∧ q.executor.Careful P := by
  induction hinside with
  | itself => exact ⟨hp, hcareful⟩
  | @interpretation q node f w handed g shape _ hdispatches _ _ hinner _ _ ih =>
      obtain ⟨hq, hq'⟩ := ih
      obtain ⟨origin, hready, hgrown⟩ := hdispatches.ready hq hq'.guardsNodes_false
      have hframe : w.store.Holds f.held := fun t ht => hready.within.grows _ (hready.frame t ht)
      have hwithin := FusedOperator.within_resizeAll shape handed.outputs w.store
      refine ⟨⟨(World.Reaches.of_store hwithin).sound hready.sound, ?_, ?_, ?_⟩, hinner⟩
      · intro t ht
        exact (FusedOperator.mem_resizeAll shape hready.outputs ht).1
      · intro t ht
        exact hwithin.grows _ (hframe t (hready.read ht))
      · intro t ht
        refine hwithin.grows _ ?_
        change t ∈ handed.context.held at ht
        rw [hready.context] at ht
        rcases List.mem_append.mp ht with ht | ht
        · exact hframe t ht
        · exact hready.within.grows _ (hgrown _ (hq.held t ht))

/-- What the evaluator of an operator leaves as it was handed it, from the world in which it starts to the one
after it. -/
structure Leaves (P : Holder → Prop) (q : Execution σ) (node : Node (Evaluator σ)) (f : Frame) (handed : Handed σ)
    (w after : World σ) : Prop where
  /-- What the operator reads, what the call was given, has bound or keeps, its slots, and what its callers hold. -/
  call : ∀ t ∈ handed.inputs ++ q.inputs ++ f.held ++ q.context.held, t.bytes after.store = t.bytes w.store
  /-- What is held by the variables and executors that the evaluators leave alone. -/
  guarded : ∀ x t, P x → x.Holds w t → t.bytes after.store = t.bytes w.store
  /-- What is held by others that this evaluator leaves alone, such as the interpreters of operators beside it. -/
  spared : ∀ P' : Holder → Prop, handed.evaluator.Careful P' node.toOperation →
    ∀ x t, P' x → x.Holds w t → t.bytes after.store = t.bytes w.store
  /-- What any variable and any executor holds, if the evaluator writes into its outputs only. -/
  holders : handed.evaluator.WritesOutputs (fun _ => False) node.toOperation →
    ∀ (x : Holder) t, x.Holds w t → t.bytes after.store = t.bytes w.store
  /-- Every output but those into which the evaluator writes. -/
  outputs : ∀ written : Nat → Prop, w.store.Within
      (fun b => ∃ (k : Nat) (t : Tensor), written k ∧ handed.outputs[k]? = some t ∧ t.buffer = b) after.store →
    ∀ k t, handed.outputs[k]? = some t → ¬ written k → t.bytes after.store = t.bytes w.store

/-- **Separation.**  Let an executor of careful evaluators have come to a world by any history, and be called there.
Whatever operator is then dispatched, in this call or in one within it, its evaluator leaves what is held as it
was. -/
theorem undisturbed (hcareful : p.executor.Careful P) (hreached : p.executor.Reached p.world)
    (hslots : p.world.store.Holds p.slots) (hinputs : p.world.store.Holds p.inputs)
    (hheld : p.world.store.Holds p.context.held) (hinside : Inside P p q)
    (hdispatches : q.Dispatches node f w handed) :
    q.Leaves P node f handed w ((handed.apply node.toOperation).outcome w).2 := by
  have hp : p.Proper := ⟨hreached.sound_of_guards hcareful.guardsNodes_false, hslots, hinputs, hheld⟩
  obtain ⟨hq, hcareful'⟩ := hinside.proper hp hcareful
  obtain ⟨origin, hready, hgrown⟩ := hdispatches.ready hq hcareful'.guardsNodes_false
  have hspared {P' : Holder → Prop} (hev : handed.evaluator.Guards P' node.toOperation) {x : Holder} {t : Tensor}
      (hP : P' x) (hx : x.Holds w t) :
      t.bytes ((handed.apply node.toOperation).outcome w).2.store = t.bytes w.store := by
    obtain ⟨hguards, -, -⟩ := hready.guards_apply hev
    have hallocated := hready.allocated hx
    have hbefore : x.Holds origin t := (hready.holds x t).mp hx
    exact (hguards.bytes t hallocated not_false (.inr ⟨x, hP, hbefore⟩)).trans (hready.bytes_eq hallocated).symm
  obtain ⟨hguards, -, -⟩ := hready.guards_apply (hdispatches.guards hcareful'.guardsNodes)
  refine ⟨fun t ht => ?_, fun x t hP hx => hspared (hdispatches.guards hcareful'.guardsNodes) hP hx,
    fun P' hev x t hP hx => hspared hev.guards hP hx, fun hwrites x t hx => ?_,
    fun written hwithin k t hget hnot => hready.bytes_of_output hwithin hget hnot⟩
  · have hmem : t ∈ f.held ++ q.context.held := by
      simp only [List.mem_append] at ht ⊢
      rcases ht with ((hread | hinput) | hframe) | hcaller
      · exact .inl (hready.read hread)
      · exact .inl (hready.given hinput)
      · exact .inl hframe
      · exact .inr hcaller
    have hallocated : origin.store.Allocated t.buffer := by
      rcases List.mem_append.mp hmem with hframe | hcaller
      · exact hready.frame t hframe
      · exact hgrown _ (hq.held t hcaller)
    exact (hguards.bytes t hallocated not_false (.inl hmem)).trans (hready.bytes_eq hallocated).symm
  · obtain ⟨hwithin, -⟩ :=
      hwrites handed.outputs handed.inputs handed.context w hready.sound hready.holds_operands
    rw [Handed.apply, Evaluator.world_apply]
    exact hready.bytes_of_holds hwithin hx

/-! ### A call within a call -/

/-- The second call of an executor around two operators, one inside the other. -/
def nestedAgain : Execution Unit :=
  ⟨(Executor.nested (.empty ())).1, [⟨.u8, none, ⟨1⟩⟩], [⟨.u8, some [2], ⟨0⟩⟩], .empty, false,
    Executor.nestedCalled⟩

/-- What the two operators do not touch: the memory of any executor but their interpreters. -/
def nestedGuarded (x : Holder) : Prop :=
  ∃ r, x = .memory r ∧ r ≠ (Executor.wrapped (.empty ())).1.interpreter.memory ∧
    r ≠ (Executor.delaying (.empty ())).1.interpreter.memory

/-- The node of an operator in the graph around it. -/
def fusedNode (ev : Evaluator Unit) : Node (Evaluator Unit) := ⟨⟨1, .fused, none, [0], [1], none⟩, some ev⟩

theorem evaluatorOf_fusedNode (e : Executor Unit) (ev : Evaluator Unit) :
    e.evaluatorOf (fusedNode ev) = .ok ev := rfl

theorem nodes_wrapping {e : Executor Unit} {ev : Evaluator Unit} (hgraph : e.graph = Executor.wrapping (some ev)) :
    e.graph.nodes = e.graph.nodes.take 1 ++ fusedNode ev :: e.graph.nodes.drop 2 := by
  rw [hgraph]
  rfl

theorem careful_wrapping {e : Executor Unit} {ev : Evaluator Unit} (hgraph : e.graph = Executor.wrapping (some ev))
    (hev : ∀ operation, ev.Careful P operation) : e.Careful P := by
  intro node hnode hoperator ev' hev'
  rw [hgraph] at hnode
  rcases List.mem_cons.mp hnode with rfl | hnode
  · cases hoperator
  · rcases List.mem_cons.mp hnode with rfl | hnode
    · cases hev'
      exact hev _
    · rcases List.mem_cons.mp hnode with rfl | hnode
      · cases hoperator
      · cases hnode

theorem careful_delaying (operation : Operation) :
    (Executor.delaying (.empty ())).1.evaluator.Careful nestedGuarded operation := by
  have hmemory : ¬ nestedGuarded (.memory (Executor.delaying (.empty ())).1.interpreter.memory) := by
    rintro ⟨r, hr, -, hne⟩
    exact hne (Holder.memory.inj hr).symm
  have hreference (op : ReferenceOp) (operation : Operation) :
      (op.evaluator : Evaluator Unit).Careful nestedGuarded operation :=
    .writes (op.writesOutputs (fun r id ⟨_, h, _⟩ => by cases h) operation)
  refine .interprets rfl hmemory fun node hnode hoperator ev hev => ?_
  rcases List.mem_cons.mp hnode with rfl | hnode
  · cases hoperator
  · rcases List.mem_cons.mp hnode with rfl | hnode
    · cases hev
      exact hreference .readValue _
    · rcases List.mem_cons.mp hnode with rfl | hnode
      · cases hev
        exact hreference .assign _
      · rcases List.mem_cons.mp hnode with rfl | hnode
        · cases hoperator
        · cases hnode

theorem careful_wrapped_interpreter :
    (Executor.wrapped (.empty ())).1.interpreter.Careful nestedGuarded :=
  careful_wrapping rfl careful_delaying

theorem careful_nestedAgain : nestedAgain.executor.Careful nestedGuarded := by
  refine careful_wrapping rfl fun operation => .interprets rfl ?_ careful_wrapped_interpreter
  rintro ⟨r, hr, hne, -⟩
  exact hne (Holder.memory.inj hr).symm

/-- The call within it by which the outer operator interprets its body. -/
def nestedInner : Option (Execution Unit) :=
  let g := (Executor.wrapped (.empty ())).1
  let e := nestedAgain.executor
  let start := nestedAgain.walk (e.graph.nodes.take 1)
  match (e.prepare (e.contextFor nestedAgain.context) (fusedNode g.evaluator)).eval start.1.2 (e.polled start.2) with
  | ((.ok handed, _), w) =>
    if Executor.checkOperands g.body handed.outputs handed.inputs = .ok () ∧
        FusedOperator.commonShape handed.inputs = .ok [2] then
      some (g.interpretation [2] handed.outputs handed.inputs handed.context w)
    else none
  | ((.error _, _), _) => none

theorem inside_nestedInner {q : Execution Unit} (h : nestedInner = some q) :
    Inside nestedGuarded nestedAgain q ∧ q.executor = (Executor.wrapped (.empty ())).1.interpreter := by
  obtain ⟨handed, f, w, hprepared, hdispatches⟩ := exists_dispatches (q := nestedAgain) (by decide +kernel)
    (by decide +kernel) (nodes_wrapping rfl) (by decide +kernel) (by decide +kernel) rfl
    (evaluatorOf_fusedNode _ _)
  have hevaluator := (Executor.prepared_of_prepare hprepared).evaluator
  unfold nestedInner at h
  simp only [hprepared] at h
  split at h
  · rename_i hchecks
    obtain rfl := Option.some.inj h
    refine ⟨.interpretation .itself hdispatches ?_ rfl careful_wrapped_interpreter hchecks.1 hchecks.2, rfl⟩
    exact (Except.ok.inj hevaluator).symm
  · cases h

/-- When the outer operator interprets its body in the second call, the inner one is dispatched and leaves what
is held. -/
theorem undisturbed_nested : ∃ q f w handed, Inside nestedGuarded nestedAgain q ∧
    q.Dispatches (fusedNode (Executor.delaying (.empty ())).1.evaluator) f w handed ∧
    q.Leaves nestedGuarded (fusedNode (Executor.delaying (.empty ())).1.evaluator) f handed w
      ((handed.apply (fusedNode (Executor.delaying (.empty ())).1.evaluator).toOperation).outcome w).2 := by
  have hsome : nestedInner.isSome = true := by decide +kernel
  obtain ⟨q, hq⟩ := Option.isSome_iff_exists.mp hsome
  obtain ⟨hinside, hexecutor⟩ := inside_nestedInner hq
  have hfacts : nestedInner.map (fun q => (q.world.cancelRequested q.executor.cancel,
      Executor.checkOperands q.executor.graph q.slots q.inputs, (q.walk (q.executor.graph.nodes.take 1)).1.1,
      (q.walk (q.executor.graph.nodes.take 1)).2.cancelRequested q.executor.cancel))
      = some (false, .ok (), .ok .completed, false) := by
    decide +kernel
  rw [hq] at hfacts
  obtain ⟨hcancel, hfacts⟩ := Prod.mk.inj (Option.some.inj hfacts)
  obtain ⟨hcheck, hfacts⟩ := Prod.mk.inj hfacts
  obtain ⟨hwalk, hpending⟩ := Prod.mk.inj hfacts
  have hgraph : q.executor.graph = Executor.wrapping (some (Executor.delaying (.empty ())).1.evaluator) := by
    rw [hexecutor]
    rfl
  obtain ⟨handed, f, w, -, hdispatches⟩ := exists_dispatches hcancel hcheck (nodes_wrapping hgraph) hwalk
    hpending rfl (evaluatorOf_fusedNode _ _)
  have hreached : nestedAgain.executor.Reached nestedAgain.world := by
    simpa only [nestedAgain] using Executor.reached_nestedCalled
  exact ⟨q, f, w, handed, hinside, hdispatches, undisturbed careful_nestedAgain hreached (by decide +kernel)
    (by decide +kernel) nofun hinside hdispatches⟩

end Execution

end TensorGraph
