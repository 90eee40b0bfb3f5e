import TensorGraph.Proofs.Evaluation
import TensorGraph.Proofs.Typing

/-! # What calls allocate

A machine carries out a call if its allocator grants all that the call allocates (`Store.Granted`).  A reference
operator allocates what its input is like, and a binary one what its result is like; a node of a graph also allocates
what its output is described to be, if the shape is known (`Executor.granted_evaluateNode`).  A run of a kernel
allocates only what the kernel does itself (`Scheduler.granted_runAlong`). -/

namespace TensorGraph

variable {σ : Type} {a : Allocator}

/-- An allocator grants zeros of a type and a shape, if the shape is known. -/
def Allocator.Admits (a : Allocator) (dtype : DType) (shape : Option Shape) : Prop :=
  ∀ s, shape = some s → a.grants ⟨dtype, s⟩ = true

/-! ### Stores -/

namespace Store.Granted

variable {s s' : Store} {t : Tensor} {dtype : DType} {shape : Shape}

theorem of_eq (h : s.Granted a) (heq : s'.allocations = s.allocations) : s'.Granted a :=
  fun r hr => h r (heq ▸ hr)

theorem zeros (h : s.Granted a) (hgrants : a.grants ⟨dtype, shape⟩ = true) :
    (Tensor.zeros dtype shape s).2.Granted a :=
  List.forall_mem_cons.mpr ⟨hgrants, h⟩

theorem resize (h : s.Granted a) (hgrants : a.grants ⟨t.dtype, shape⟩ = true) :
    (t.resize shape s).2.Granted a := by
  rcases t.resize_cases shape s with ⟨-, heq⟩ | heq
  · rw [heq]
    exact h
  · rw [heq]
    exact h.zeros hgrants

theorem fresh (h : s.Granted a) {desc : TensorDesc} (hdesc : a.Admits desc.dtype desc.shape.toShape?) :
    (Executor.fresh desc s).2.Granted a := by
  unfold Executor.fresh
  cases hshape : desc.shape.toShape? with
  | none => exact h
  | some shape => exact h.zeros (hdesc shape hshape)

theorem copyFrom (h : s.Granted a) {source : Tensor} (hcopy : t.copyFrom source s = .ok s') : s'.Granted a := by
  unfold Tensor.copyFrom at hcopy
  split at hcopy
  · cases hcopy
  · split at hcopy
    · cases hcopy
    · split at hcopy
      · exact Except.ok.inj hcopy ▸ h
      · exact Except.ok.inj hcopy ▸ h

end Store.Granted

/-- Nothing is granted that has too many bytes. -/
theorem Store.not_granted {s : Store} {r : Allocation} (hr : r ∈ s.allocations) (hlarge : 2 ^ 63 ≤ r.byteCount)
    (a : Allocator) : ¬ s.Granted a :=
  fun h => Nat.not_lt.mpr hlarge (a.bounded r (h r hr))

namespace Run

variable {α : Type} {m : Run σ α} {w w' : World σ} {r : Except Error α}

theorem outcomeOn_eq (a : Allocator) (m : Run σ α) (w : World σ) :
    m.outcomeOn a w = if (m.outcome w).2.store.Granted a then some (m.outcome w) else none := rfl

theorem outcomeOn_of_granted (h : m.outcome w = (r, w')) (hgranted : w'.store.Granted a) :
    m.outcomeOn a w = some (r, w') := by
  rw [outcomeOn_eq, h]
  exact if_pos hgranted

theorem outcomeOn_eq_none (h : ¬ (m.outcome w).2.store.Granted a) : m.outcomeOn a w = none :=
  (outcomeOn_eq a m w).trans (if_neg h)

theorem outcomeOn_congr {m' : Run σ α} (h : m.outcome w = m'.outcome w') : m.outcomeOn a w = m'.outcomeOn a w' := by
  rw [outcomeOn_eq, outcomeOn_eq, h]

/-- What a machine carries out is carried out as it is without limits. -/
theorem outcome_of_outcomeOn (h : m.outcomeOn a w = some (r, w')) : m.outcome w = (r, w') :=
  Option.some.inj (Option.ite_none_right_eq_some.mp ((outcomeOn_eq a m w).symm.trans h)).2

/-- Storing elements allocates what resizing does. -/
theorem exists_storeResized (out : Tensor) (shape : Shape) (xs : Store → List Nat) (w : World σ) :
    ∃ s, storeResized out shape xs w = (.ok [(out.resize shape w.store).1], { w with store := s }) ∧
      s.allocations = (out.resize shape w.store).2.allocations :=
  ⟨_, rfl, rfl⟩

end Run

/-! ### Operators -/

theorem World.granted_valueOrInit {w : World σ} (h : w.store.Granted a) {dtype : DType} {shape : Shape}
    (hgrants : a.grants ⟨dtype, shape⟩ = true) (r : Ref Variables) (id : VariableId) :
    (w.valueOrInit r id (Tensor.zeros dtype shape)).2.store.Granted a := by
  unfold valueOrInit
  cases (w.variables.get r).get? id with
  | some t => exact h
  | none => exact h.zeros hgrants

namespace ReferenceOp

variable {op : ReferenceOp} {operation : Operation} {inputs : List Tensor} {out : Tensor} {c : Context}
  {w : World σ}

theorem granted_relu [HalfConversion] (hw : w.store.Granted a) (hread : ∀ t ∈ inputs, a.Admits t.dtype t.shape)
    (outputs : List Tensor) :
    ((Elementwise.relu operation outputs inputs c).outcome w).2.store.Granted a := by
  rw [Elementwise.outcome_relu]
  rcases hoperands : Elementwise.reluOperands operation outputs inputs with error | ⟨x, shape, out⟩
  · exact hw
  · obtain ⟨rfl, hshape, rfl, hdtype⟩ := Elementwise.reluOperands_eq_ok.mp hoperands
    have hgrants : a.grants ⟨out.dtype, shape⟩ = true := hdtype ▸ hread x List.mem_cons_self shape hshape
    exact hw.resize hgrants

/-- A binary operator is granted its result, if that is admitted. -/
theorem granted_binary [HalfConversion] (hw : w.store.Granted a) (f : Float → Float → Float)
    (hmade : ∀ t w', (Elementwise.binary f operation [out] inputs c).outcome w = (.ok [t], w') →
      t.dtype = out.dtype → t.shape.isSome = true → a.Admits t.dtype t.shape) :
    ((Elementwise.binary f operation [out] inputs c).outcome w).2.store.Granted a := by
  rcases hoperands : Elementwise.binaryOperands operation [out] inputs
    with error | ⟨x, y, shape, leftView, rightView, out'⟩
  · rw [Elementwise.outcome_binary, hoperands]
    exact hw
  · obtain ⟨_, _, hout, _⟩ := Elementwise.binaryOperands_eq_ok.mp hoperands
    obtain rfl := List.singleton_inj.mp hout
    have houtcome := Elementwise.outcome_binary f operation [out] inputs c w
    rw [hoperands] at houtcome
    obtain ⟨s, hstored, hs⟩ := Run.exists_storeResized out shape (fun s => Elementwise.zipElements x.dtype f
      (Elementwise.gather (x.elements s) leftView) (Elementwise.gather (y.elements s) rightView)) w
    have houtcome := houtcome.trans hstored
    have hshape := out.shape_resize shape w.store
    have hdtype := out.dtype_resize shape w.store
    have hadmits := hmade _ _ houtcome hdtype (by rw [hshape]; rfl) shape hshape
    rw [hdtype] at hadmits
    rw [houtcome]
    exact (hw.resize hadmits).of_eq hs

theorem granted_accumulate [HalfConversion] (hw : w.store.Granted a) (hread : ∀ t ∈ inputs, a.Admits t.dtype t.shape)
    (outputs : List Tensor) :
    ((Stateful.accumulate operation outputs inputs c).outcome w).2.store.Granted a := by
  rw [Stateful.outcome_accumulate]
  rcases hoperands : Stateful.accumulateOperands operation inputs c with error | ⟨x, shape, r, id⟩
  · exact hw
  · obtain ⟨rfl, hshape, _, _⟩ := Stateful.accumulateOperands_eq_ok.mp hoperands
    have hgrants : a.grants ⟨x.dtype, shape⟩ = true := hread x List.mem_cons_self shape hshape
    have hinit := World.granted_valueOrInit hw hgrants r id
    simp only
    generalize w.valueOrInit r id (Tensor.zeros x.dtype shape) = p at hinit ⊢
    obtain ⟨sum, w₁⟩ := p
    rcases Stateful.checkSum sum x shape with error | ⟨⟩
    · exact hinit
    · have hgrown : (Stateful.grown w₁ x shape r id sum).2.store.Granted a := hinit.zeros hgrants
      generalize Stateful.grown w₁ x shape r id sum = p at hgrown ⊢
      obtain ⟨next, w₂⟩ := p
      simp only
      rcases Operand.output operation x.dtype outputs with error | out <;> exact hgrown

/-- Copies need no zeros. -/
theorem granted_readValue (hw : w.store.Granted a) (outputs : List Tensor) :
    ((Stateful.readValue operation outputs inputs c).outcome w).2.store.Granted a := by
  rw [Stateful.outcome_readValue]
  rcases Stateful.variableOperands operation c with error | ⟨r, id⟩
  · exact hw
  · dsimp only
    cases ((w.variables.get r).get? id).or inputs.head? with
    | none => exact hw
    | some source => cases outputs <;> exact hw

theorem granted_assign (hw : w.store.Granted a) (outputs : List Tensor) :
    ((Stateful.assign operation outputs inputs c).outcome w).2.store.Granted a := by
  rw [Stateful.outcome_assign]
  rcases Stateful.assignOperands operation inputs c with error | ⟨x, r, id⟩
  · exact hw
  · dsimp only
    rcases Operand.output operation x.dtype outputs with error | out <;> exact hw

/-- A reference operator is granted what it allocates if its inputs and what it makes are admitted. -/
theorem granted_apply [HalfConversion] (hw : w.store.Granted a) (hread : ∀ t ∈ inputs, a.Admits t.dtype t.shape)
    (hmade : ∀ t w', (op.evaluator.apply operation [out] inputs c).outcome w = (.ok [t], w') →
      t.dtype = out.dtype → t.shape.isSome = true → a.Admits t.dtype t.shape) :
    ((op.evaluator.apply operation [out] inputs c).outcome w).2.store.Granted a := by
  have happly (t : Tensor) (w' : World σ)
      (h : (op.evaluator.evaluate operation [out] inputs c).outcome w = (.ok [t], w')) :
      (op.evaluator.apply operation [out] inputs c).outcome w = (.ok [t], w') := by
    rw [Evaluator.apply, Run.outcome_bind, h]
    rfl
  have hevaluate : ((op.evaluator.evaluate operation [out] inputs c).outcome w).2.store.Granted a := by
    have hmade := fun t w' h => hmade t w' (happly t w' h)
    cases op with
    | relu => exact granted_relu hw hread [out] (c := c)
    | add | subtract | multiply => exact granted_binary hw _ hmade (c := c)
    | accumulate => exact granted_accumulate hw hread [out]
    | readValue => exact granted_readValue hw [out]
    | assign => exact granted_assign hw [out]
  rw [Evaluator.apply, Run.outcome_bind]
  generalize (op.evaluator.evaluate operation [out] inputs c).outcome w = p at hevaluate ⊢
  rcases p with ⟨error | made, w'⟩ <;> exact hevaluate

end ReferenceOp

/-! ### Nodes -/

namespace Executor

variable {e : Executor σ} {V : VariableId → Prop} {r : Ref Variables} {f : Frame} {w : World σ}
  {node : Node (Evaluator σ)} {kind : Node (Evaluator σ) → ReferenceOp}

/-- Binding what was produced allocates nothing. -/
theorem store_bindProduced (e : Executor σ) (collect : Bool) (node : Node (Evaluator σ)) (start : Nat)
    (produced : List Tensor) (f : Frame) (w : World σ) :
    ((e.bindProduced collect node start produced).eval f w).2.store = w.store := by
  have hbind : Call.Ensures (fun _ w' => w'.store = w.store)
      ((node.outputs.zip produced).zipIdx.forM (e.bindOutput node)) (fun _ _ w' => w'.store = w.store)
      fun _ _ w' => w'.store = w.store := by
    refine Call.ensures_forM fun entry _ f' w' hw' => ?_
    obtain ⟨⟨h, t⟩, position⟩ := entry
    rcases eval_bindOutput_cases (e := e) node h t position f' w' with ⟨_, heval⟩ | ⟨_, _, _, _, heval⟩ | ⟨_, _, heval⟩
    all_goals
      rw [heval]
      exact hw'
  have hends (w' : World σ) (hw' : w'.store = w.store) :
      (((node.outputs.zip produced).zipIdx.forM (e.bindOutput node)).eval f w').2.store = w.store := by
    have hends := hbind f w' hw'
    generalize ((node.outputs.zip produced).zipIdx.forM (e.bindOutput node)).eval f w' = o at hends ⊢
    obtain ⟨⟨error | ⟨⟩, f'⟩, w''⟩ := o <;> exact hends
  cases collect with
  | false => exact hends w rfl
  | true => exact hends _ rfl

/-- Evaluating a node is granted what it allocates if its output is admitted as described, and what it reads and
binds is admitted. -/
theorem granted_evaluateNode [HalfConversion] (c : Context) (collect : Bool) {k : Handle} {desc : TensorDesc}
    {op : ReferenceOp} (houtputs : node.outputs = [k]) (hdesc : e.graph.tensors[k]? = some desc)
    (hk : k < f.bindings.length) (hevaluator : e.evaluatorOf node = .ok op.evaluator) (hw : w.store.Granted a)
    (hadmits : a.Admits desc.dtype desc.shape.toShape?)
    (hread : ∀ ts, node.inputs.mapM f.bindings.get = .ok ts → ∀ t ∈ ts, a.Admits t.dtype t.shape)
    (hbound : ∀ f' w' t, (e.evaluateNode c collect node).eval f w = ((.ok (), f'), w') →
      f'.bindings.get? k = some t → a.Admits t.dtype t.shape) :
    ((e.evaluateNode c collect node).eval f w).2.store.Granted a := by
  rcases hts : node.inputs.mapM f.bindings.get with error | ts
  · rw [evaluateNode_eq, Call.eval_bind, eval_mapM_bound, hts]
    exact hw
  obtain ⟨out, f', s, hout, hbindings, _, hs, heval⟩ := exists_eval_evaluateNode c collect houtputs hdesc hts hevaluator w
  have hgranted : s.Granted a := by
    rcases hs with rfl | rfl
    · exact hw
    · exact hw.fresh hadmits
  have happly : ((op.evaluator.apply node.toOperation [out] ts (c.holding f'.held)).outcome
      { w with store := s }).2.store.Granted a :=
    ReferenceOp.granted_apply hgranted (hread ts hts) fun t w' houtcome hdtype hshape => by
      obtain ⟨shape, hshape⟩ := Option.isSome_iff_exists.mp hshape
      obtain ⟨w'', hbind, _⟩ := exists_bindProduced (e := e) houtputs hdesc (hdtype.trans hout) hshape collect w.clock
        f' w'
      rw [houtcome] at heval
      refine hbound _ _ t (heval.trans hbind) ?_
      exact Bindings.get?_bind_same t (hbindings ▸ hk)
  rw [heval]
  generalize (op.evaluator.apply node.toOperation [out] ts (c.holding f'.held)).outcome { w with store := s } = o
    at happly
  obtain ⟨error | produced, w'⟩ := o
  · exact happly
  · exact happly.of_eq (congrArg Store.allocations (store_bindProduced e collect node w.clock produced f' w'))

end Executor

/-! ### Kernels -/

namespace Kernel

variable {kernel : Kernel σ}

/-- All that a kernel allocates is granted. -/
def GrantedOn (kernel : Kernel σ) (a : Allocator) : Prop :=
  ∀ i w, w.store.Granted a → (kernel.call i w).2.store.Granted a

/-- A kernel makes no tensors. -/
def AllocatesNothing (kernel : Kernel σ) : Prop :=
  ∀ i w, (kernel.call i w).2.store.allocations = w.store.allocations

theorem AllocatesNothing.grantedOn (h : kernel.AllocatesNothing) (a : Allocator) : kernel.GrantedOn a :=
  fun i w hw => hw.of_eq (h i w)

theorem GrantedOn.after (h : kernel.GrantedOn a) (calls : List KernelCall) {w : World σ} (hw : w.store.Granted a) :
    (kernel.after calls w).store.Granted a := by
  induction calls generalizing w with
  | nil => exact hw
  | cons c calls ih => exact ih (h c.invocation w hw)

theorem AllocatesNothing.after (h : kernel.AllocatesNothing) (calls : List KernelCall) (w : World σ) :
    (kernel.after calls w).store.allocations = w.store.allocations := by
  induction calls generalizing w with
  | nil => rfl
  | cons c calls ih => exact (ih _).trans (h c.invocation w)

/-- Walking a tile row by row makes no tensors. -/
theorem allocatesNothing_ofFunction (dtype : DType) (f : List Nat → Option (List Nat)) :
    (ofFunction dtype f : Kernel σ).AllocatesNothing := by
  have hput (p : Pointer) (y : Nat) (s : Store) : (p.put dtype y s).allocations = s.allocations := by
    unfold Pointer.put
    split <;> rfl
  have hputs (ws : List (Pointer × Nat)) (s : Store) :
      (ws.foldl (fun s v => v.1.put dtype (v.2 % dtype.patterns) s) s).allocations = s.allocations := by
    induction ws generalizing s with
    | nil => rfl
    | cons w ws ih => exact (ih _).trans (hput w.1 _ s)
  exact fun i w => hputs _ _

end Kernel

namespace Scheduler

theorem granted_runAlong {kernel : Kernel σ} (h : kernel.GrantedOn a) (s : Scheduler)
    (interleaving : List Task → List Nat) (plan : Plan) (ins outs : List (Option BufferId)) {w : World σ}
    (hw : w.store.Granted a) :
    ((s.runAlong interleaving kernel plan ins outs).outcome w).2.store.Granted a := by
  obtain ⟨calls, pads, hworld⟩ := s.world_runAlong interleaving kernel plan ins outs w
  rw [hworld]
  exact h.after calls hw

theorem allocations_runAlong {kernel : Kernel σ} (h : kernel.AllocatesNothing) (s : Scheduler)
    (interleaving : List Task → List Nat) (plan : Plan) (ins outs : List (Option BufferId)) (w : World σ) :
    ((s.runAlong interleaving kernel plan ins outs).outcome w).2.store.allocations = w.store.allocations := by
  obtain ⟨calls, pads, hworld⟩ := s.world_runAlong interleaving kernel plan ins outs w
  rw [hworld]
  exact h.after calls _

end Scheduler

/-! ### Fused operators -/

namespace FusedOperator

/-- Resizing tensors of one element type to one shape allocates zeros of these only. -/
theorem granted_resizeAll {dtype : DType} {shape : Shape} (hgrants : a.grants ⟨dtype, shape⟩ = true)
    {ts : List Tensor} (hts : ∀ t ∈ ts, t.dtype = dtype) {s : Store} (hs : s.Granted a) :
    (resizeAll shape ts s).2.Granted a := by
  induction ts generalizing s with
  | nil => exact hs
  | cons t ts ih =>
      obtain ⟨ht, hts⟩ := List.forall_mem_cons.mp hts
      exact ih hts (hs.resize (ht.symm ▸ hgrants))

theorem store_planFor (f : FusedOperator σ) (inputs outputs : List Tensor) (w : World σ) :
    ((f.planFor inputs outputs).outcome w).2.store = w.store := by
  unfold planFor
  cases Interface.ofTensors inputs outputs with
  | error error => rfl
  | ok i =>
      rw [Run.outcome_bind_ok (Run.outcome_lift w _), Run.outcome_bind_ok (Run.outcome_get w)]
      rcases (w.planCaches.get f.plans).fetch f.planner i with error | ⟨entry, plans⟩ <;> rfl

end FusedOperator

end TensorGraph
