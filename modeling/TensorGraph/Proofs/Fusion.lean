import TensorGraph.Proofs.Evaluation
import TensorGraph.Proofs.Joining
import TensorGraph.Proofs.Pointwise
import TensorGraph.Proofs.Running

/-! # Kernels and bodies compute the same

The body of a fused operator says what the operator computes, and its kernel computes it faster.  If the
body is a graph of elementwise operators and the kernel computes the function that the body makes of single
elements, then evaluating the operator with the kernel and evaluating it without end well on every machine that has
the room, and leave outputs of the same element types, shapes and bytes (`evaluate_kernel_eq_body`): on both ways
every output has, at each index of the common shape of all inputs, what the body makes of the elements at which
broadcasting reads the inputs (`Graph.pointwise`).  Without room for the common shape nothing is
evaluated (`evaluate_exhausted`).

On the way of the kernel this is the sum of its calls over the planned domain (`outcome_sweep`); on the way
of the body it is what the body denotes, whatever shapes the values in between have
(`outcome_interpret`). -/

namespace TensorGraph

variable {σ : Type}

/-! ### Tensors that stretch to a shape -/

namespace Tensor

variable {dtype : DType} {s t : Shape} {x : Tensor} {store : Store}

/-- The element of a tensor for an index of a shape is the one that a pointer into its buffer loads. -/
theorem elementAt_value (h : (x.value store).StretchesTo dtype s t) {k : Nat} (hk : k < s.size) :
    (x.value store).elementAt s k
      = Pointer.load ⟨some x.buffer, dtype.size * (Shape.elementFor s t k : Int)⟩ dtype store := by
  have hlt := Shape.elementFor_lt h.broadcasts (Shape.size_pos_iff.mp (Nat.zero_lt_of_lt hk)) k
  have helements : (x.value store).elements
      = (List.range t.size).map fun n : Nat => Pointer.load ⟨some x.buffer, dtype.size * n⟩ dtype store := by
    rw [Value.elements, h.dtype_eq]
    exact Pointer.elements_eq_map_load x.buffer h.size_eq
  rw [Value.elementAt, h.shape_eq, Option.getD_some, helements, List.getElem?_map, List.getElem?_range hlt]
  rfl

/-- The terminal that a tensor makes. -/
def terminal (x : Tensor) : Terminal := .dense x.dtype x.extents

theorem ofTensor_eq_ok (h : x.shape = some x.extents) : Terminal.ofTensor x = .ok x.terminal := by
  unfold Terminal.ofTensor resolvedShape
  rw [h]
  rfl

theorem mapM_ofTensor {xs : List Tensor} (h : ∀ x ∈ xs, x.shape = some x.extents) :
    xs.mapM Terminal.ofTensor = .ok (xs.map terminal) := by
  induction xs with
  | nil => rfl
  | cons x xs ih =>
      obtain ⟨hx, h⟩ := List.forall_mem_cons.mp h
      rw [List.mapM_cons, ofTensor_eq_ok hx, ih h]
      rfl

end Tensor

namespace FusedOperator

variable {f : FusedOperator σ} {w : World σ} {dtype : DType} {s : Shape} {outputs inputs : List Tensor}
  {kind : Node (Evaluator σ) → ReferenceOp} {a : Allocator}

/-- Operands that an operator accepts: they pass its checks, the inputs have a common shape whose elements can be
counted, and no output shares its buffer with an input or another output. -/
structure Accepts (f : FusedOperator σ) (dtype : DType) (s : Shape) (outputs inputs : List Tensor)
    (w : World σ) : Prop where
  checked : Executor.checkOperands f.body outputs inputs = .ok ()
  common : commonShape inputs = .ok s
  rank : ∀ t ∈ inputs, t.extents.length ≤ Planner.maxRank
  count : ∃ n, Word.product? s = some n
  dtypes : ∀ u ∈ outputs, u.dtype = dtype
  holds : w.store.Holds (outputs ++ inputs)
  complete : ∀ t ∈ outputs ++ inputs, t.Complete w.store
  unread : ∀ t ∈ inputs, ∀ u ∈ outputs, t.buffer ≠ u.buffer
  once : (outputs.map (·.buffer)).Nodup

/-- Operands over which an operator may work: all tensors are there, the inputs stretch to a shape, and the
outputs have the shape and lie in buffers of their own. -/
structure Ready (dtype : DType) (s : Shape) (outputs inputs : List Tensor) (w : World σ) : Prop where
  holds_inputs : w.store.Holds inputs
  holds_outputs : w.store.Holds outputs
  inputs_stretch : ∀ t ∈ inputs, (t.value w.store).StretchesTo dtype s t.extents
  outputs_stretch : ∀ u ∈ outputs, (u.value w.store).StretchesTo dtype s s
  unread : ∀ t ∈ inputs, ∀ u ∈ outputs, t.buffer ≠ u.buffer
  once : (outputs.map (·.buffer)).Nodup

theorem Accepts.joined (h : f.Accepts dtype s outputs inputs w) :
    (∀ t ∈ inputs, t.shape = some t.extents) ∧
      (inputs.map Tensor.extents).foldlM Shape.broadcast? [] = some s :=
  joined_of_commonShape h.common

theorem Accepts.size (h : f.Accepts dtype s outputs inputs w) : Word.product? s = some s.size := by
  obtain ⟨n, hproduct⟩ := h.count
  obtain ⟨rfl, _⟩ := Planner.product?_eq_some hproduct
  exact hproduct

/-- A shape for which zeros are granted has no more elements than a signed word can count. -/
theorem size_lt_of_grants (h : a.grants ⟨dtype, s⟩ = true) : s.size < 2 ^ 63 :=
  Nat.lt_of_le_of_lt (Nat.le_mul_of_pos_right s.size dtype.size_pos) (a.bounded _ h)

/-- Accepted inputs stretch to their common shape. -/
theorem Accepts.stretches (h : f.Accepts dtype s outputs inputs w) (hbody : f.body.IsElementwise dtype kind) :
    ∀ t ∈ inputs, (t.value w.store).StretchesTo dtype s t.extents := by
  intro t ht
  obtain ⟨hshapes, hjoined⟩ := h.joined
  obtain ⟨desc, hdesc, hinstance⟩ := Executor.exists_desc_of_checkOperands h.checked w.store ht
  have hdtype : t.dtype = dtype := hinstance.1.trans (hbody.dtypes desc hdesc)
  have hsize := h.complete _ (List.mem_append_right _ ht) _ (hshapes _ ht)
  rw [hdtype] at hsize
  exact ⟨hdtype, hshapes _ ht, (Shape.broadcastsTo_of_joined hjoined).2 _ (List.mem_map_of_mem ht), hsize⟩

/-- Resizing the outputs makes accepted operands ready, and changes no input. -/
theorem Accepts.ready (h : f.Accepts dtype s outputs inputs w) (hbody : f.body.IsElementwise dtype kind) :
    let w' : World σ := { w with store := (resizeAll s outputs w.store).2 }
    Ready dtype s (resizeAll s outputs w.store).1 inputs w' ∧
      inputs.map (·.value w'.store) = inputs.map (·.value w.store) ∧
      (resizeAll s outputs w.store).1.length = outputs.length := by
  have houtputs : w.store.Holds outputs := fun u hu => h.holds u (List.mem_append_left _ hu)
  have hinputs : w.store.Holds inputs := fun t ht => h.holds t (List.mem_append_right _ ht)
  obtain ⟨hwithin, hmade⟩ := resizeAll_spec s houtputs
  have hvalue : ∀ t ∈ inputs, t.value (resizeAll s outputs w.store).2 = t.value w.store := fun t ht =>
    Tensor.value_within hwithin (hinputs t ht) not_false
  have hsource : ∀ u ∈ (resizeAll s outputs w.store).1, ∃ t ∈ outputs, u.dtype = t.dtype ∧
      u.shape = some s ∧ (resizeAll s outputs w.store).2.Allocated u.buffer ∧
      (u = t ∨ w.store.IsNew (resizeAll s outputs w.store).2 u) ∧
      (t.Complete w.store → u.Complete (resizeAll s outputs w.store).2) := by
    intro u hu
    obtain ⟨n, hn, rfl⟩ := List.mem_iff_getElem.mp hu
    exact ⟨_, List.getElem_mem (hmade.length_eq ▸ hn), hmade.get (hmade.length_eq ▸ hn) hn⟩
  refine ⟨⟨fun t ht => hwithin.grows _ (hinputs t ht), fun u hu => ?_, fun t ht => ?_, fun u hu => ?_,
    fun t ht u hu => ?_, nodup_resizeAll s houtputs h.once⟩, List.map_congr_left hvalue,
    hmade.length_eq.symm⟩
  · obtain ⟨_, _, _, _, hallocated, _⟩ := hsource u hu
    exact hallocated
  · show (t.value (resizeAll s outputs w.store).2).StretchesTo dtype s t.extents
    rw [hvalue t ht]
    exact h.stretches hbody t ht
  · obtain ⟨t, ht, hdtype, hshape, _, _, hcomplete⟩ := hsource u hu
    have hu : u.dtype = dtype := hdtype.trans (h.dtypes t ht)
    have hsize := hcomplete (h.complete t (List.mem_append_left _ ht)) s hshape
    rw [hu] at hsize
    exact ⟨hu, hshape, Shape.broadcastsTo_refl s, hsize⟩
  · obtain ⟨u', hu', _, _, _, rfl | hnew, _⟩ := hsource u hu
    · exact h.unread t ht u hu'
    · exact Ne.symm (hnew.ne_buffer (hinputs t ht))

/-! ### The way of the kernel -/

/-- The interface of operands that are ready. -/
def interfaceOf (outputs inputs : List Tensor) : Interface :=
  ⟨inputs.map Tensor.terminal, outputs.map Tensor.terminal⟩

theorem ofTensors_eq_ok (hinputs : ∀ t ∈ inputs, t.shape = some t.extents)
    (houtputs : ∀ u ∈ outputs, u.shape = some u.extents) :
    Interface.ofTensors inputs outputs = .ok (interfaceOf outputs inputs) := by
  unfold Interface.ofTensors
  rw [Tensor.mapM_ofTensor hinputs, Tensor.mapM_ofTensor houtputs]
  rfl

theorem order_of_mem_terminals : ∀ t ∈ (interfaceOf outputs inputs).terminals, t.order = List.range t.rank := by
  intro t ht
  rcases List.mem_append.mp ht with ht | ht
  · obtain ⟨x, _, rfl⟩ := List.mem_map.mp ht
    rfl
  · obtain ⟨x, _, rfl⟩ := List.mem_map.mp ht
    rfl

/-- Outputs of the common shape of the inputs add nothing to it. -/
theorem joined_interfaceOf (hjoined : (inputs.map Tensor.extents).foldlM Shape.broadcast? [] = some s)
    (houtputs : ∀ u ∈ outputs, u.extents = s) :
    ((interfaceOf outputs inputs).terminals.map Terminal.extents).foldlM Shape.broadcast? [] = some s := by
  rw [Interface.terminals, interfaceOf, List.map_append, List.map_map, List.map_map, List.foldlM_append]
  show (inputs.map Tensor.extents).foldlM Shape.broadcast? [] >>= _ = _
  rw [hjoined]
  refine Shape.joined_of_all_eq fun t ht => ?_
  obtain ⟨u, hu, rfl⟩ := List.mem_map.mp ht
  exact houtputs u hu

theorem Ready.ofTensors (h : Ready dtype s outputs inputs w) :
    Interface.ofTensors inputs outputs = .ok (interfaceOf outputs inputs) := by
  refine ofTensors_eq_ok (fun t ht => (h.inputs_stretch t ht).shape_eq) fun u hu => ?_
  have hshape : u.shape = some s := (h.outputs_stretch u hu).shape_eq
  rw [Tensor.extents, hshape, Option.getD_some]

theorem Ready.mem_terminals (h : Ready dtype s outputs inputs w) {t : Terminal}
    (ht : t ∈ (interfaceOf outputs inputs).terminals) : t = .dense dtype t.extents := by
  rcases List.mem_append.mp ht with ht | ht
  · obtain ⟨x, hx, rfl⟩ := List.mem_map.mp ht
    have hdtype : x.dtype = dtype := (h.inputs_stretch x hx).dtype_eq
    exact hdtype ▸ rfl
  · obtain ⟨x, hx, rfl⟩ := List.mem_map.mp ht
    have hdtype : x.dtype = dtype := (h.outputs_stretch x hx).dtype_eq
    exact hdtype ▸ rfl

theorem Ready.extents_eq (h : Ready dtype s outputs inputs w) {u : Tensor} (hu : u ∈ outputs) :
    u.extents = s := by
  have hshape : u.shape = some s := (h.outputs_stretch u hu).shape_eq
  rw [Tensor.extents, hshape, Option.getD_some]

/-- Operands that are ready have a plan, which serves them. -/
theorem Ready.exists_serves (h : Ready dtype s outputs inputs w) (p : Planner) (hinputs : inputs ≠ [])
    (hjoined : (inputs.map Tensor.extents).foldlM Shape.broadcast? [] = some s)
    (hrank : ∀ t ∈ inputs, t.extents.length ≤ Planner.maxRank)
    (hsize : Word.product? s = some s.size) (hsmall : s.size < 2 ^ 63) :
    ∃ plan, p.plan (interfaceOf outputs inputs) = .ok plan ∧
      plan.Serves p (interfaceOf outputs inputs) dtype s (inputs.map (·.buffer))
        (outputs.map (·.buffer)) := by
  have hports : (interfaceOf outputs inputs).terminals ≠ [] := by
    obtain ⟨t, rest, rfl⟩ := List.exists_cons_of_ne_nil hinputs
    exact List.cons_ne_nil _ _
  have hall := joined_interfaceOf hjoined fun u hu => h.extents_eq hu
  have hlength : s.length ≤ Planner.maxRank :=
    Shape.length_le_of_joined hjoined (Nat.zero_le _) (List.forall_mem_map.mpr hrank)
  obtain ⟨plan, hplan, hmaster, hwork⟩ := Planner.exists_plan p hports
    order_of_mem_terminals hall hlength hsize
  refine ⟨plan, hplan, hplan, hmaster, hwork, hsmall, fun t ht => ?_, fun t ht => ?_, ?_, ?_,
    fun b hb hmem => ?_, h.once⟩
  · rw [h.mem_terminals ht]
    exact ⟨rfl, rfl⟩
  · obtain ⟨u, hu, rfl⟩ := List.mem_map.mp ht
    exact h.extents_eq hu
  · rw [interfaceOf, List.length_map, List.length_map]
  · rw [interfaceOf, List.length_map, List.length_map]
  · obtain ⟨t, ht, rfl⟩ := List.mem_map.mp hb
    obtain ⟨u, hu, hbuffer⟩ := List.mem_map.mp hmem
    exact h.unread t ht u hu hbuffer.symm

/-- Where a kernel reads the inputs are the elements that the body is given. -/
theorem Ready.map_load_ofTerminals (h : Ready dtype s outputs inputs w) {k : Nat} (hk : k < s.size) :
    (Pointer.ofTerminals dtype.size s k (inputs.map (·.buffer)) (interfaceOf outputs inputs).inputs).map
        (·.load dtype w.store)
      = (inputs.map (·.value w.store)).map (·.elementAt s k) := by
  rw [Pointer.ofTerminals, interfaceOf, List.zipWith_map, List.zipWith_self, List.map_map, List.map_map]
  refine List.map_congr_left fun t ht => ?_
  exact (Tensor.elementAt_value (h.inputs_stretch t ht) hk).symm

theorem Ready.forall₂_stretches (h : Ready dtype s outputs inputs w) :
    List.Forall₂ (Value.StretchesTo dtype s) (inputs.map (·.value w.store)) (inputs.map Tensor.extents) := by
  rw [List.forall₂_map_left_iff, List.forall₂_map_right_iff, List.forall₂_same]
  exact h.inputs_stretch

/-- Outputs that load at each index what the body makes of the inputs have the values that the body gives
to its results point by point. -/
theorem map_value_eq_pointwise [HalfConversion] {st : Store} (hlength : outputs.length = f.body.results.length)
    (houtputs : ∀ u ∈ outputs, (u.value st).StretchesTo dtype s s) {values : List Value}
    (hloads : ∀ k < s.size, ∃ ys, f.body.onElements dtype kind (values.map (·.elementAt s k)) = some ys ∧
      ys.length = f.body.results.length ∧ ∀ (j : Nat) (u : Tensor) (y : Nat), outputs[j]? = some u →
        ys[j]? = some y → Pointer.load ⟨some u.buffer, dtype.size * (k : Int)⟩ dtype st = y) :
    outputs.map (·.value st) = f.body.pointwise dtype kind s values := by
  refine List.ext_getElem? fun j => ?_
  rw [Graph.pointwise, List.getElem?_map, List.getElem?_map]
  by_cases hj : j < outputs.length
  · have hu := List.getElem?_eq_getElem hj
    have hstretches := houtputs _ (List.getElem_mem hj)
    rw [hu, List.getElem?_range (hlength ▸ hj), Option.map_some, Option.map_some]
    refine congrArg some (hstretches.eq_ofElements.trans (congrArg (Value.ofElements dtype s) ?_))
    refine List.map_congr_left fun k hk => ?_
    have hk := List.mem_range.mp hk
    obtain ⟨ys, hys, hcount, hload⟩ := hloads k hk
    have hy := List.getElem?_eq_getElem (show j < ys.length by rw [hcount, ← hlength]; exact hj)
    rw [Tensor.elementAt_value hstretches hk, Shape.elementFor_self, Nat.mod_eq_of_lt hk, hload j _ _ hu hy,
      hys, Option.getD_some, hy, Option.getD_some]
  · rw [List.getElem?_eq_none (Nat.not_lt.mp hj),
      List.getElem?_eq_none (by rw [List.length_range, ← hlength]; exact Nat.not_lt.mp hj)]
    rfl

/-- Planning for operands that are ready and sweeping a kernel over them ends well, with the outputs computed point
by point, if all that the kernel allocates is granted. -/
theorem Ready.outcome_sweep [HalfConversion] (h : Ready dtype s outputs inputs w) (hsteady : f.Steady w)
    (hbody : f.body.IsElementwise dtype kind) {kernel : Kernel σ}
    (hkernel : kernel.Computes dtype (f.body.onElements dtype kind)) {interleaving : List Task → List Nat}
    (hcomplete : ∀ tasks, Sweep.Complete tasks (interleaving tasks)) (hinputs : inputs ≠ [])
    (hparameters : inputs.length = f.body.parameters.length)
    (hresults : outputs.length = f.body.results.length)
    (hjoined : (inputs.map Tensor.extents).foldlM Shape.broadcast? [] = some s)
    (hrank : ∀ t ∈ inputs, t.extents.length ≤ Planner.maxRank)
    (hsize : Word.product? s = some s.size) (hsmall : s.size < 2 ^ 63) (hspares : kernel.GrantedOn a)
    (hgranted : w.store.Granted a) :
    ∃ w', (do
        let plan ← f.planFor inputs outputs
        f.scheduler.runAlong interleaving kernel plan (inputs.map (some ·.buffer))
          (outputs.map (some ·.buffer))
        return outputs : Run σ (List Tensor)).outcomeOn a w = some (.ok outputs, w') ∧
      outputs.map (·.value w'.store)
        = f.body.pointwise dtype kind s (inputs.map (·.value w.store)) := by
  obtain ⟨plan, hplan, hserves⟩ := h.exists_serves f.planner hinputs hjoined hrank hsize hsmall
  have hfetched := hsteady.outcome_planFor inputs outputs
  rw [h.ofTensors, ok_bind, hplan] at hfetched
  obtain ⟨plans, _, hfetched⟩ := hfetched
  obtain ⟨w', hrun, hlengths, hloads⟩ := hserves.run_computes hkernel f.scheduler hcomplete
    (w := { w with planCaches := w.planCaches.put f.plans plans })
    (List.forall_mem_map.mpr fun u hu => (h.outputs_stretch u hu).size_eq)
  rw [List.map_map, List.map_map] at hrun
  have hafter := f.scheduler.granted_runAlong hspares interleaving plan (inputs.map (some ∘ (·.buffer)))
    (outputs.map (some ∘ (·.buffer))) (w := { w with planCaches := w.planCaches.put f.plans plans }) hgranted
  rw [hrun] at hafter
  refine ⟨w', Run.outcomeOn_of_granted ?_ hafter, map_value_eq_pointwise hresults (fun u hu => ?_) fun k hk => ?_⟩
  · rw [Run.outcome_bind_ok hfetched]
    exact Run.outcome_bind_ok hrun _
  · have hbefore := h.outputs_stretch u hu
    exact ⟨hbefore.dtype_eq, hbefore.shape_eq, hbefore.broadcasts, hlengths _ (List.mem_map_of_mem hu)⟩
  · obtain ⟨ys, hys, hcount, hfits⟩ := hbody.exists_onElements hsmall
      ((List.length_map _).trans hparameters) h.forall₂_stretches hk
    refine ⟨ys, hys, hcount, fun j u y hu hy => ?_⟩
    have hread := congrArg (f.body.onElements dtype kind) (h.map_load_ofTerminals hk)
    refine hloads k hk ys (hread.trans hys) j u.buffer y ?_ hy (hfits y (List.mem_of_getElem? hy))
    rw [List.getElem?_map, hu]
    rfl

/-! ### The way of the body -/

/-- No operator of an elementwise graph touches a variable. -/
theorem tracks_of_isElementwise {e : Executor σ} (h : e.graph.IsElementwise dtype kind)
    (V : VariableId → Prop) : e.Tracks V kind := by
  intro node hnode hparameter hresult hstateful
  rcases (h.operands node hnode hparameter hresult).2 with ⟨hrelu, _⟩ | ⟨hbinary, _⟩
  · rw [hrelu] at hstateful
    cases hstateful
  · cases hop : kind node with
    | relu | add | subtract | multiply =>
        rw [hop] at hstateful
        cases hstateful
    | accumulate | readValue | assign =>
        rw [hop] at hbinary
        cases hbinary

/-- Interpreting the body on operands that are ready ends well, with the outputs computed point by point, if there is
room for the body. -/
theorem Ready.outcome_interpret [HalfConversion] (h : Ready dtype s outputs inputs w) (hsteady : f.Steady w)
    (hgraph : f.interpreter.graph = f.body) (hkind : f.interpreter.IsReference kind)
    (hbody : f.body.IsElementwise dtype kind)
    (hcheck : Executor.checkOperands f.body outputs inputs = .ok ()) (hsmall : s.size < 2 ^ 63)
    (hshapes : ∀ made, f.body.onShapes kind (inputs.map Tensor.extents) = some made → ∀ t ∈ made, t = s)
    (hgranted : w.store.Granted a)
    (hfits : f.body.FitsOn a kind (inputs.map (·.value w.store)) fun _ => none) (c : Context) :
    ∃ made w', (f.interpret outputs inputs c).outcomeOn a w = some (.ok made, w') ∧
      made.map (·.value w'.store)
        = f.body.pointwise dtype kind s (inputs.map (·.value w.store)) := by
  have hseparate : Executor.Separate (fun _ => False) (c.variables.getD f.interpreter.variables) outputs
      inputs w :=
    ⟨fun u hu t ht => h.unread t ht u hu, h.once, fun _ _ _ _ hfalse _ => hfalse.elim⟩
  have hvars : ∀ id, False → w.valuesOf (c.variables.getD f.interpreter.variables) id = none :=
    fun _ hfalse => hfalse.elim
  have htracks := tracks_of_isElementwise (e := f.interpreter) (hgraph ▸ hbody) fun _ => False
  have hfollows := Executor.execute_follows hkind htracks hsteady.sound (c := c)
    (fun _ hfalse => hfalse.elim) hsteady.idle h.holds_outputs h.holds_inputs hseparate hvars false
  have hafter := Executor.granted_execute hkind htracks hsteady.sound (c := c) (fun _ hfalse => hfalse.elim)
    hsteady.idle h.holds_outputs h.holds_inputs hseparate hvars hgranted (hgraph ▸ hfits) false
  obtain ⟨hlength, _, _⟩ := (Executor.checkOperands_eq_ok w.store).mp hcheck
  obtain ⟨v, hv, hresults⟩ := hbody.valuate_eq_pointwise hsmall ((List.length_map _).trans hlength)
    h.forall₂_stretches hshapes
    (f.body.nodes.foldl (f.body.withZeros (inputs.map (·.value w.store))) fun _ => none)
  rw [Executor.denote_eq, hgraph, hcheck] at hfollows
  rw [Graph.valuate] at hv
  simp only [hv, Option.map_some] at hfollows
  obtain ⟨made, w', houtcome, hvalues, _⟩ := hfollows
  rw [houtcome] at hafter
  refine ⟨made, w', Run.outcomeOn_of_granted ?_ hafter, hvalues.trans hresults⟩
  rw [FusedOperator.outcome_interpret, houtcome]

/-! ### Both ways -/

/-- **A kernel and the body it stands for compute the same.**  From every world that an operator comes to, on a
machine with room for the common shape, for the body and for what the kernel allocates, evaluating accepted operands
with a kernel that computes the function of the body, along any interleaving of its tasks, and evaluating them without
kernel both end well, and leave outputs of the same element types, shapes and bytes: those that the body gives to its
results point by point over the common shape.  A body that is built from parameters has some. -/
theorem evaluate_kernel_eq_body [HalfConversion] (hf : f.Reached w) (hkind : f.interpreter.IsReference kind)
    (hbody : f.body.IsElementwise dtype kind) (hparameters : f.body.parameters ≠ [])
    {kernel : Kernel σ} (hkernel : kernel.Computes dtype (f.body.onElements dtype kind))
    (hspares : kernel.GrantedOn a) {interleaving : List Task → List Nat}
    (hcomplete : ∀ tasks, Sweep.Complete tasks (interleaving tasks))
    (haccepts : f.Accepts dtype s outputs inputs w)
    (hshapes : ∀ made, f.body.onShapes kind (inputs.map Tensor.extents) = some made → ∀ t ∈ made, t = s)
    (hgranted : w.store.Granted a) (hroom : a.grants ⟨dtype, s⟩ = true)
    (hfits : f.body.FitsOn a kind (inputs.map (·.value w.store)) fun _ => none) (operation : Operation)
    (c : Context) :
    ∃ made w₁ made' w₂,
      ((f.withKernel (some kernel)).evaluateAlong interleaving operation outputs inputs c).outcomeOn a w
        = some (.ok made, w₁) ∧
      ((f.withKernel none).evaluate operation outputs inputs c).outcomeOn a w = some (.ok made', w₂) ∧
      made.map (·.value w₁.store) = made'.map (·.value w₂.store) ∧
      made.map (·.value w₁.store) = f.body.pointwise dtype kind s (inputs.map (·.value w.store)) := by
  obtain ⟨hgraph, hsteady⟩ := hf.steady hkind.keepsNodes
  obtain ⟨hready, hvalues, hcount⟩ := haccepts.ready hbody
  have hproduct := haccepts.size
  have hsmall := size_lt_of_grants hroom
  obtain ⟨hlength, hplaces, hinstances⟩ := (Executor.checkOperands_eq_ok w.store).mp haccepts.checked
  have hinputs : inputs ≠ [] := by
    rintro rfl
    exact hparameters (List.length_eq_zero_iff.mp hlength.symm)
  have hresized := hsteady.onResized s outputs
  have hcheck : Executor.checkOperands f.body (resizeAll s outputs w.store).1 inputs = .ok () :=
    (Executor.checkOperands_eq_ok w.store).mpr ⟨hlength, hcount.trans hplaces, hinstances⟩
  have hgranted' := granted_resizeAll hroom haccepts.dtypes hgranted
  obtain ⟨w₁, hkernelRun, hkernelValues⟩ := hready.outcome_sweep hresized hbody hkernel hcomplete hinputs
    hlength (hcount.trans hplaces) haccepts.joined.2 haccepts.rank hproduct hsmall hspares hgranted'
  obtain ⟨made', w₂, hbodyRun, hbodyValues⟩ := hready.outcome_interpret hresized hgraph hkind hbody hcheck
    hsmall hshapes hgranted' (hvalues.symm ▸ hfits) c
  rw [hvalues] at hkernelValues hbodyValues
  refine ⟨_, w₁, made', w₂, ?_, ?_, hkernelValues.trans hbodyValues.symm, hkernelValues⟩
  · exact (Run.outcomeOn_congr (outcome_evaluateAlong (f := f.withKernel (some kernel)) haccepts.checked
      haccepts.common operation c)).trans hkernelRun
  · rw [evaluate_eq]
    exact (Run.outcomeOn_congr (outcome_evaluateAlong (f := f.withKernel none) haccepts.checked haccepts.common
      operation c)).trans hbodyRun

/-- A graph that adds its two inputs. -/
def adder : Graph (Evaluator Unit) where
  tensors := List.replicate 4 ⟨.f32, [.dynamic]⟩
  nodes := [⟨⟨0, .parameter, none, [], [0], none⟩, none⟩, ⟨⟨1, .parameter, none, [], [1], none⟩, none⟩,
    ⟨⟨2, .add, none, [0, 1], [2], none⟩, none⟩, ⟨⟨3, .result, none, [2], [3], none⟩, none⟩]
  numbered := rfl
  checked := rfl

/-- The kernel that adds at every position of its tile. -/
def adderKernel : Kernel Unit := .ofFunction .f32 (adder.onElements .f32 fun _ => .add)

/-- A scheduler for some workers, and the world in which it is created. -/
def scheduled (workers : Nat) : Scheduler × World Unit :=
  Scheduler.create ⟨some workers, 1, true⟩ workers (.empty ())

theorem sound_scheduled (workers : Nat) : (scheduled workers).2.Sound :=
  (World.sound_empty ()).congr rfl rfl fun _ _ h => h

/-- The operator for it, with two workers, and the world in which it is created. -/
def adderCreated : FusedOperator Unit × World Unit :=
  create adder .reference (scheduled 2).1 2 none (scheduled 2).2

/-- The world in which the caller has made two inputs and an open output. -/
def adderFilled : World Unit :=
  { adderCreated.2 with
    store := (((adderCreated.2.store.alloc #[1, 2, 3, 4, 5, 6, 7, 8]).2.alloc #[9, 10, 11, 12]).2.alloc
      #[]).2 }

/-- The world after a first evaluation with the kernel. -/
def adderEvaluated : World Unit :=
  (((adderCreated.1.withKernel (some adderKernel)).evaluateAlong Sweep.inOrder default
    [⟨.f32, none, ⟨2⟩⟩] [⟨.f32, some [2], ⟨0⟩⟩, ⟨.f32, some [1], ⟨1⟩⟩] .empty).outcome adderFilled).2

/-- The caller then makes a longer input. -/
def adderRefilled : World Unit :=
  { adderEvaluated with store := (adderEvaluated.store.alloc (Array.replicate 12 1)).2 }

theorem isReference_adder : adderCreated.1.interpreter.IsReference fun _ => .add :=
  Executor.isReference_of_registry rfl (by decide)

theorem isElementwise_adder : adder.IsElementwise .f32 fun _ => .add :=
  ⟨by decide, by decide⟩

theorem computes_adderKernel : adderKernel.Computes .f32 (adder.onElements .f32 fun _ => .add) :=
  Kernel.computes_ofFunction .f32 _

theorem reached_adderRefilled : adderCreated.1.Reached adderRefilled := by
  have hkeeps := isReference_adder.keepsNodes
  have hcreated : adderCreated.1.Reached adderCreated.2 := .created (sound_scheduled 2) none rfl
  have hlong := hcreated.elsewhere (elsewhere_alloc (hcreated.steady hkeeps).2.sound #[1, 2, 3, 4, 5, 6, 7, 8])
  have hshort := hlong.elsewhere (elsewhere_alloc (hlong.steady hkeeps).2.sound #[9, 10, 11, 12])
  have hfilled : adderCreated.1.Reached adderFilled :=
    hshort.elsewhere (elsewhere_alloc (hshort.steady hkeeps).2.sound #[])
  have hevaluated : adderCreated.1.Reached adderEvaluated :=
    hfilled.evaluated (some adderKernel)
      (fun k hk => Option.some.inj hk ▸ computes_adderKernel.confined)
      Sweep.inOrder default (by decide +kernel) (by decide +kernel) .empty
  exact hevaluated.elsewhere (elsewhere_alloc (hevaluated.steady hkeeps).2.sound _)

theorem accepts_adderRefilled : adderCreated.1.Accepts .f32 [3] [⟨.f32, some [2], ⟨3⟩⟩]
    [⟨.f32, some [1], ⟨1⟩⟩, ⟨.f32, some [3], ⟨4⟩⟩] adderRefilled where
  checked := rfl
  common := rfl
  rank := by decide
  count := ⟨3, rfl⟩
  dtypes := by decide
  holds := by decide +kernel
  complete := by decide +kernel
  unread := by decide
  once := by decide

/-- The second evaluation is handed the output of the first one, and a longer input. -/
theorem evaluate_kernel_eq_body_longer : ∃ made w₁ made' w₂,
    ((adderCreated.1.withKernel (some adderKernel)).evaluateAlong Sweep.inOrder default
      [⟨.f32, some [2], ⟨3⟩⟩] [⟨.f32, some [1], ⟨1⟩⟩, ⟨.f32, some [3], ⟨4⟩⟩] .empty).outcomeOn .checked adderRefilled
        = some (.ok made, w₁) ∧
    ((adderCreated.1.withKernel none).evaluate default [⟨.f32, some [2], ⟨3⟩⟩]
      [⟨.f32, some [1], ⟨1⟩⟩, ⟨.f32, some [3], ⟨4⟩⟩] .empty).outcomeOn .checked adderRefilled
        = some (.ok made', w₂) ∧
    made.map (·.value w₁.store) = made'.map (·.value w₂.store) := by
  obtain ⟨made, w₁, made', w₂, hkernel, hbody, hvalues, _⟩ :=
    evaluate_kernel_eq_body reached_adderRefilled isReference_adder isElementwise_adder (by decide)
      computes_adderKernel ((Kernel.allocatesNothing_ofFunction .f32 _).grantedOn .checked) Sweep.complete_inOrder
      accepts_adderRefilled (by decide) (by decide +kernel) (by decide) (by decide +kernel) default .empty
  exact ⟨made, w₁, made', w₂, hkernel, hbody, hvalues⟩

/-! ### Room that is missing -/

/-- With a kernel that makes no tensors, evaluating operands that pass the checks allocates what resizing the outputs
does. -/
theorem allocations_evaluateAlong {kernel : Kernel σ} (hkernel : kernel.AllocatesNothing)
    (hcheck : Executor.checkOperands f.body outputs inputs = .ok ()) (hshape : commonShape inputs = .ok s)
    (interleaving : List Task → List Nat) (operation : Operation) (c : Context) :
    (((f.withKernel (some kernel)).evaluateAlong interleaving operation outputs inputs c).outcome w).2.store.allocations
      = (resizeAll s outputs w.store).2.allocations := by
  rw [outcome_evaluateAlong (f := f.withKernel (some kernel)) hcheck hshape]
  simp only [withKernel]
  rw [Run.outcome_bind]
  have hplanned := store_planFor (f.withKernel (some kernel)) inputs (resizeAll s outputs w.store).1
    { w with store := (resizeAll s outputs w.store).2 }
  simp only [withKernel] at hplanned
  generalize Run.outcome _ _ = o at hplanned ⊢
  obtain ⟨error | plan, w'⟩ := o
  · exact congrArg Store.allocations hplanned
  · have hswept := f.scheduler.allocations_runAlong hkernel interleaving plan (inputs.map (some ·.buffer))
      ((resizeAll s outputs w.store).1.map (some ·.buffer)) w'
    simp only
    rw [Run.outcome_bind]
    generalize Run.outcome _ _ = o at hswept ⊢
    obtain ⟨error | ⟨⟩, w''⟩ := o <;> exact hswept.trans (congrArg Store.allocations hplanned)

/-- A graph that adds its three inputs, of which each is to extend along a dimension of its own. -/
def boxer : Graph (Evaluator Unit) where
  tensors := List.replicate 6 ⟨.u8, [.dynamic, .dynamic, .dynamic]⟩
  nodes := [⟨⟨0, .parameter, none, [], [0], none⟩, none⟩, ⟨⟨1, .parameter, none, [], [1], none⟩, none⟩,
    ⟨⟨2, .parameter, none, [], [2], none⟩, none⟩, ⟨⟨3, .add, none, [0, 1], [3], none⟩, none⟩,
    ⟨⟨4, .add, none, [3, 2], [4], none⟩, none⟩, ⟨⟨5, .result, none, [4], [5], none⟩, none⟩]
  numbered := rfl
  checked := rfl

/-- The kernel that adds at every position of its tile. -/
def boxerKernel : Kernel Unit := .ofFunction .u8 (boxer.onElements .u8 fun _ => .add)

/-- The operator for it, and the world in which it is created. -/
def boxerCreated : FusedOperator Unit × World Unit :=
  create boxer .reference (scheduled 1).1 1 none (scheduled 1).2

/-- Three edges of a box, and how long they are. -/
def edges : List Tensor :=
  [⟨.u8, some [2 ^ 21, 1, 1], ⟨0⟩⟩, ⟨.u8, some [1, 2 ^ 21, 1], ⟨1⟩⟩, ⟨.u8, some [1, 1, 2 ^ 21], ⟨2⟩⟩]

/-- The world in which the caller has made the edges and an open output. -/
def boxerFilled : World Unit :=
  let s := (Tensor.zeros .u8 [2 ^ 21, 1, 1] boxerCreated.2.store).2
  let s := (Tensor.zeros .u8 [1, 2 ^ 21, 1] s).2
  let s := (Tensor.zeros .u8 [1, 1, 2 ^ 21] s).2
  { boxerCreated.2 with store := (Tensor.unshaped .u8 s).2 }

theorem reached_boxerFilled : boxerCreated.1.Reached boxerFilled := by
  have hreference : boxerCreated.1.interpreter.IsReference fun _ => .add :=
    Executor.isReference_of_registry rfl (by decide)
  have hkeeps := hreference.keepsNodes
  have hcreated : boxerCreated.1.Reached boxerCreated.2 := .created (sound_scheduled 1) none rfl
  have hfirst := hcreated.elsewhere (elsewhere_zeros (hcreated.steady hkeeps).2.sound .u8 [2 ^ 21, 1, 1])
  have hsecond := hfirst.elsewhere (elsewhere_zeros (hfirst.steady hkeeps).2.sound .u8 [1, 2 ^ 21, 1])
  have hthird := hsecond.elsewhere (elsewhere_zeros (hsecond.steady hkeeps).2.sound .u8 [1, 1, 2 ^ 21])
  exact hthird.elsewhere (elsewhere_alloc (hthird.steady hkeeps).2.sound #[])

theorem accepts_boxerFilled :
    boxerCreated.1.Accepts .u8 [2 ^ 21, 2 ^ 21, 2 ^ 21] [⟨.u8, none, ⟨3⟩⟩] edges boxerFilled where
  checked := rfl
  common := rfl
  rank := by decide
  count := ⟨2 ^ 63, by decide⟩
  dtypes := by decide
  holds := by decide +kernel
  complete := by
    have hzeros : (Array.replicate (2 ^ 21) (0 : UInt8)).size = 2 ^ 21 := Array.size_replicate
    simp only [edges, List.cons_append, List.nil_append, List.forall_mem_cons]
    refine ⟨nofun, ?_, ?_, ?_, nofun⟩
    all_goals
      rintro _ ⟨⟩
      exact hzeros
  unread := by decide
  once := by decide

/-- What evaluating the operator with its kernel allocates. -/
theorem mem_allocations_boxerFilled : (⟨.u8, [2 ^ 21, 2 ^ 21, 2 ^ 21]⟩ : Allocation) ∈
    (((boxerCreated.1.withKernel (some boxerKernel)).evaluate default [⟨.u8, none, ⟨3⟩⟩] edges .empty).outcome
      boxerFilled).2.store.allocations := by
  have hallocations := allocations_evaluateAlong (w := boxerFilled)
    (show boxerKernel.AllocatesNothing from Kernel.allocatesNothing_ofFunction .u8 _) accepts_boxerFilled.checked
    accepts_boxerFilled.common Sweep.inOrder default .empty
  rw [evaluate_eq, hallocations]
  exact List.mem_cons_self

/-- The edges are granted, and a word can count the elements of the box, but no machine evaluates the operator with
its kernel. -/
theorem evaluate_exhausted :
    boxer.IsElementwise .u8 (fun _ => .add) ∧
    boxerKernel.Computes .u8 (boxer.onElements .u8 fun _ => .add) ∧
    boxerCreated.1.Reached boxerFilled ∧
    boxerCreated.1.Accepts .u8 [2 ^ 21, 2 ^ 21, 2 ^ 21] [⟨.u8, none, ⟨3⟩⟩] edges boxerFilled ∧
    (∀ made, boxer.onShapes (fun _ => .add) (edges.map Tensor.extents) = some made →
      ∀ t ∈ made, t = [2 ^ 21, 2 ^ 21, 2 ^ 21]) ∧
    boxerFilled.store.Granted .checked ∧
    ∀ a, ((boxerCreated.1.withKernel (some boxerKernel)).evaluate default [⟨.u8, none, ⟨3⟩⟩] edges .empty).outcomeOn a
      boxerFilled = none := by
  have hlarge : 2 ^ 63 ≤ (⟨.u8, [2 ^ 21, 2 ^ 21, 2 ^ 21]⟩ : Allocation).byteCount := by decide
  exact ⟨⟨by decide, by decide⟩, Kernel.computes_ofFunction .u8 _, reached_boxerFilled, accepts_boxerFilled,
    by decide, by decide, fun a => Run.outcomeOn_eq_none (Store.not_granted mem_allocations_boxerFilled hlarge a)⟩

end FusedOperator

end TensorGraph
