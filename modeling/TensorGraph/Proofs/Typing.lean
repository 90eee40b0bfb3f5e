import TensorGraph.Proofs.Gathering
import TensorGraph.Proofs.Inference
import TensorGraph.Proofs.Stepping

/-! # Graphs with inferred descriptions do not go wrong

A call of a graph whose descriptions have been inferred binds instances of the descriptions only
(`Executor.Typed`), whatever is bound to its parameters and whatever the executor remembers.  The one thing
that can go wrong is that shapes which were open when the graph was built turn out to have no common shape
(`execute_inferred`). -/

namespace TensorGraph

variable {σ : Type}

/-- Whether a tensor is an instance of a description. -/
def Tensor.IsInstance (desc : TensorDesc) (t : Tensor) : Prop :=
  t.dtype = desc.dtype ∧ ∃ shape, t.shape = some shape ∧ desc.shape.accepts shape = true

theorem Tensor.isInstance_of_value {desc : TensorDesc} {t : Tensor} {s : Store}
    (h : (t.value s).IsInstance desc) : t.IsInstance desc := by
  obtain ⟨hdtype, hshape⟩ := h
  refine ⟨hdtype, ?_⟩
  cases hs : t.shape with
  | none => simp [hs] at hshape
  | some shape => exact ⟨shape, rfl, by simpa [hs] using hshape⟩

/-! ### Elementwise operators -/

namespace Elementwise

/-- An elementwise operator makes a tensor of the common shape of its operands, or fails because there is
none. -/
def Makes (dtype : DType) (joined : Option Shape) (w : World σ)
    (o : Except Error (List Tensor) × World σ) : Prop :=
  match joined with
  | some shape => ∃ t s, o = (.ok [t], { w with store := s }) ∧ t.dtype = dtype ∧ t.shape = some shape
  | none => ∃ left right, o = (.error (.broadcast left right), w)

theorem makes_storeResized {dtype : DType} {out : Tensor} (hout : out.dtype = dtype) (shape : Shape)
    (xs : Store → List Nat) (w : World σ) :
    Makes dtype (some shape) w (Run.storeResized out shape xs w) := by
  refine ⟨(out.resize shape w.store).1, _, rfl, ?_, Tensor.shape_resize out shape w.store⟩
  rw [Tensor.dtype_resize, hout]

/-- `Relu` makes a tensor of the shape of its operand. -/
theorem makes_relu [HalfConversion] {dtype : DType} {x out : Tensor} {shape : Shape} (hx : x.dtype = dtype)
    (hshape : x.shape = some shape) (hout : out.dtype = dtype) (operation : Operation) (c : Context)
    (w : World σ) : Makes dtype (some shape) w ((relu operation [out] [x] c).outcome w) := by
  have hok : reluOperands operation [out] [x] = .ok (x, shape, out) :=
    reluOperands_eq_ok.mpr ⟨rfl, hshape, rfl, hout.trans hx.symm⟩
  rw [outcome_relu, hok]
  exact makes_storeResized hout shape _ w

theorem binaryOperands_eq_broadcast {operation : Operation} {outputs : List Tensor} {x y : Tensor}
    {left right : Shape} (hdtype : x.dtype = y.dtype) (hleft : x.shape = some left)
    (hright : y.shape = some right) (hnone : Shape.broadcast? left right = none) :
    binaryOperands operation outputs [x, y] = .error (.broadcast left right) := by
  have hx : x.resolvedShape = .ok left := Tensor.resolvedShape_eq_ok.mpr hleft
  have hy : y.resolvedShape = .ok right := Tensor.resolvedShape_eq_ok.mpr hright
  have hbroadcast : Shape.broadcast left right = .error (.broadcast left right) := by
    rw [Shape.broadcast, hnone]
  simp only [binaryOperands, Operand.two, ok_bind, hdtype, ne_eq, not_true_eq_false, if_false, hx, hy,
    hbroadcast]
  rfl

/-- A binary operator has views of both operands over their common shape whenever there is one. -/
theorem exists_binaryOperands {dtype : DType} {x y out : Tensor} {left right shape : Shape} (hx : x.dtype = dtype)
    (hy : y.dtype = dtype) (hleft : x.shape = some left) (hright : y.shape = some right) (hout : out.dtype = dtype)
    (hshape : Shape.broadcast? left right = some shape) (operation : Operation) : ∃ leftView rightView,
      binaryOperands operation [out] [x, y] = .ok (x, y, shape, leftView, rightView, out) := by
  obtain ⟨htoLeft, htoRight⟩ := Shape.broadcastsTo_of_broadcast? hshape
  obtain ⟨leftView, hleftView, _⟩ := Layout.exists_view htoLeft
  obtain ⟨rightView, hrightView, _⟩ := Layout.exists_view htoRight
  exact ⟨leftView, rightView, binaryOperands_eq_ok.mpr ⟨rfl, hx.trans hy.symm, rfl, hout.trans hx.symm, left, right,
    hleft, hright, hshape, hleftView, hrightView⟩⟩

/-- It makes a tensor of the common shape then, and fails otherwise. -/
theorem makes_binary [HalfConversion] (f : Float → Float → Float) {dtype : DType} {x y out : Tensor}
    {left right : Shape} (hx : x.dtype = dtype) (hy : y.dtype = dtype) (hleft : x.shape = some left)
    (hright : y.shape = some right) (hout : out.dtype = dtype) (operation : Operation) (c : Context)
    (w : World σ) :
    Makes dtype (Shape.broadcast? left right) w ((binary f operation [out] [x, y] c).outcome w) := by
  rw [outcome_binary]
  cases hshape : Shape.broadcast? left right with
  | none =>
      rw [binaryOperands_eq_broadcast (hx.trans hy.symm) hleft hright hshape]
      exact ⟨left, right, rfl⟩
  | some shape =>
      obtain ⟨leftView, rightView, hok⟩ := exists_binaryOperands hx hy hleft hright hout hshape operation
      rw [hok]
      exact makes_storeResized hout shape _ w

/-- A single output is what the evaluator has made of it. -/
theorem Makes.apply {dtype : DType} {joined : Option Shape} {w : World σ} {ev : Evaluator σ}
    {operation : Operation} {out : Tensor} {inputs : List Tensor} {c : Context}
    (h : Makes dtype joined w ((ev.evaluate operation [out] inputs c).outcome w)) :
    Makes dtype joined w ((ev.apply operation [out] inputs c).outcome w) := by
  unfold Evaluator.apply
  rw [Run.outcome_bind]
  cases joined with
  | none =>
      obtain ⟨left, right, houtcome⟩ := h
      rw [houtcome]
      exact ⟨left, right, rfl⟩
  | some shape =>
      obtain ⟨t, s, houtcome, hdtype, hshape⟩ := h
      rw [houtcome]
      exact ⟨t, s, rfl, hdtype, hshape⟩

end Elementwise

/-- An elementwise operator makes a tensor of the common shape of its operands, if they are as many as it
takes and have one element type. -/
theorem ReferenceOp.makes_apply [HalfConversion] {op : ReferenceOp} {dtype : DType} {inputs : List Tensor}
    {shapes : List Shape} {out : Tensor} (hcount : op.operands? = some inputs.length)
    (hdtype : ∀ t ∈ inputs, t.dtype = dtype)
    (hshapes : List.Forall₂ (fun t shape => t.shape = some shape) inputs shapes)
    (hout : out.dtype = dtype) (operation : Operation) (c : Context) (w : World σ) :
    Elementwise.Makes dtype (shapes.foldlM Shape.broadcast? []) w
      ((op.evaluator.apply operation [out] inputs c).outcome w) := by
  refine Elementwise.Makes.apply ?_
  have hbinary : ∀ f : Float → Float → Float, inputs.length = 2 →
      Elementwise.Makes dtype (shapes.foldlM Shape.broadcast? []) w
        ((Elementwise.binary f operation [out] inputs c).outcome w) := by
    intro f hlength
    obtain ⟨x, y, rfl⟩ := List.length_eq_two.mp hlength
    obtain ⟨left, _, hleft, hrest, rfl⟩ := List.forall₂_cons_left_iff.mp hshapes
    obtain ⟨right, _, hright, hnil, rfl⟩ := List.forall₂_cons_left_iff.mp hrest
    obtain rfl := List.forall₂_nil_left_iff.mp hnil
    have hjoined : [left, right].foldlM Shape.broadcast? [] = Shape.broadcast? left right := by
      simp [Shape.broadcast?_nil]
    rw [hjoined]
    exact Elementwise.makes_binary f (hdtype x (by simp)) (hdtype y (by simp)) hleft hright hout
      operation c w
  cases op with
  | relu =>
      obtain ⟨x, rfl⟩ := List.length_eq_one_iff.mp (Option.some.inj hcount).symm
      obtain ⟨shape, _, hshape, hnil, rfl⟩ := List.forall₂_cons_left_iff.mp hshapes
      obtain rfl := List.forall₂_nil_left_iff.mp hnil
      have hjoined : [shape].foldlM Shape.broadcast? [] = some shape := by
        simp [Shape.broadcast?_nil]
      rw [hjoined]
      exact Elementwise.makes_relu (hdtype x (by simp)) hshape hout operation c w
  | add => exact hbinary (· + ·) (Option.some.inj hcount).symm
  | subtract => exact hbinary (· - ·) (Option.some.inj hcount).symm
  | multiply => exact hbinary (· * ·) (Option.some.inj hcount).symm
  | accumulate => cases hcount
  | readValue => cases hcount
  | assign => cases hcount

/-! ### Frames -/

namespace Executor

variable {e : Executor σ} {dtype : DType} {before rest : List (Node (Evaluator σ))}
  {node : Node (Evaluator σ)} {f : Frame} {w : World σ}

/-- What is bound is an instance of its description, and so is the slot of every result that is bound. -/
structure Instances (e : Executor σ) (f : Frame) : Prop where
  bound : ∀ h t, f.bindings.get? h = some t →
    ∃ desc, e.graph.tensors[h]? = some desc ∧ t.IsInstance desc
  delivered : ∀ (j : Nat) h t slot, e.graph.resultHandles[j]? = some h →
    f.bindings.get? h = some t → f.slots[j]? = some slot →
    ∃ desc, e.graph.tensors[h]? = some desc ∧ slot.IsInstance desc

/-- After some nodes, what these nodes and the parameters produce is bound, to instances of the
descriptions. -/
structure Typed (e : Executor σ) (before : List (Node (Evaluator σ))) (f : Frame) (w : World σ) :
    Prop where
  length : f.bindings.length = e.graph.tensors.length
  places : f.slots.length = e.graph.results.length
  instances : e.Instances f
  bound : ∀ h ∈ e.graph.parameterHandles ++ Node.produced before, ∃ t, f.bindings.get? h = some t
  cancel : w.cancelRequested e.cancel = false

/-- What remains when a call fails: shapes that were open when the graph was built have no common shape. -/
def Mismatch (e : Executor σ) (error : Error) (f : Frame) (_ : World σ) : Prop :=
  (∃ left right, error = .broadcast left right) ∧
    ¬ (∀ desc ∈ e.graph.parameterDescs, desc.shape.isStatic = true) ∧ e.Instances f

namespace Typed

/-- Only what is bound, the slots and the request to cancel matter. -/
theorem congr (h : e.Typed before f w) {f' : Frame} {w' : World σ} (hbindings : f'.bindings = f.bindings)
    (hslots : f'.slots = f.slots) (hflags : w'.cancelFlags = w.cancelFlags) : e.Typed before f' w' where
  length := hbindings ▸ h.length
  places := hslots ▸ h.places
  instances := ⟨hbindings ▸ h.instances.bound, hbindings ▸ hslots ▸ h.instances.delivered⟩
  bound := hbindings ▸ h.bound
  cancel := by
    unfold World.cancelRequested
    rw [hflags]
    exact h.cancel

theorem instances_bind (h : e.Typed before f w) {k : Handle} {desc : TensorDesc} {t : Tensor}
    (hdesc : e.graph.tensors[k]? = some desc) (ht : t.IsInstance desc) :
    ∀ i u, (f.bindings.bind k t).get? i = some u →
      ∃ desc, e.graph.tensors[i]? = some desc ∧ u.IsInstance desc := by
  intro i u hu
  have hk : k < f.bindings.length := h.length ▸ (List.getElem?_eq_some_iff.mp hdesc).1
  rw [Bindings.get?_bind t hk] at hu
  split at hu
  · rename_i hik
    obtain rfl := Option.some.inj hu
    exact ⟨desc, hik ▸ hdesc, ht⟩
  · exact h.instances.bound i u hu

/-- What was bound stays bound, and so is what the next node produces. -/
theorem bound_bind (h : e.Typed before f w) {k : Handle} (hk : k < e.graph.tensors.length) (t : Tensor)
    (houtputs : node.outputs = [k]) :
    ∀ i ∈ e.graph.parameterHandles ++ Node.produced (before ++ [node]),
      ∃ u, (f.bindings.bind k t).get? i = some u := by
  intro i hi
  rw [Bindings.get?_bind t (h.length.symm ▸ hk)]
  by_cases hik : i = k
  · exact ⟨t, if_pos hik⟩
  · rw [if_neg hik]
    refine h.bound i ?_
    simpa [Node.produced, houtputs, hik] using hi

/-- A node that is no result binds its output. -/
theorem bind (h : e.Typed before f w) (hnode : node ∈ e.graph.nodes) (hresult : ¬ node.isResult = true)
    {k : Handle} {desc : TensorDesc} {t : Tensor} (houtputs : node.outputs = [k])
    (hdesc : e.graph.tensors[k]? = some desc) (ht : t.IsInstance desc) :
    e.Typed (before ++ [node]) { f with bindings := f.bindings.bind k t } w := by
  refine ⟨(List.length_set ..).trans h.length, h.places, ⟨h.instances_bind hdesc ht, ?_⟩,
    h.bound_bind (List.getElem?_eq_some_iff.mp hdesc).1 t houtputs, h.cancel⟩
  intro j i u slot hi hu hslot
  have hne : k ≠ i := by
    rintro rfl
    exact e.graph.not_mem_resultHandles hnode hresult (houtputs ▸ List.mem_singleton_self k)
      (List.mem_of_getElem? hi)
  rw [Bindings.get?_bind_ne _ t hne] at hu
  exact h.instances.delivered j i u slot hi hu hslot

/-- A result binds its value and fills the next slot. -/
theorem deliver (h : e.Typed before f w) (hnodes : e.graph.nodes = before ++ node :: rest)
    (hresult : node.isResult = true) {k : Handle} {desc : TensorDesc} {value slot : Tensor}
    (houtputs : node.outputs = [k]) (hdesc : e.graph.tensors[k]? = some desc)
    (hvalue : value.IsInstance desc) (hslot : slot.IsInstance desc) :
    e.Typed (before ++ [node]) (f.delivered k value (before.filter (·.isResult)).length slot) w := by
  refine ⟨(List.length_set ..).trans h.length, (List.length_set ..).trans h.places,
    ⟨h.instances_bind hdesc hvalue, ?_⟩,
    h.bound_bind (List.getElem?_eq_some_iff.mp hdesc).1 value houtputs, h.cancel⟩
  have hplace := e.graph.getElem?_resultHandles hnodes hresult houtputs
  intro j i u slot' hi hu hslot'
  by_cases hj : j = (before.filter (·.isResult)).length
  · subst hj
    obtain rfl := Option.some.inj (hplace.symm.trans hi)
    obtain rfl : slot = slot' := by
      have hlt := (List.getElem?_eq_some_iff.mp hslot').1
      rw [Frame.delivered, List.length_set] at hlt
      rw [Frame.delivered, List.getElem?_set_self hlt] at hslot'
      exact Option.some.inj hslot'
    exact ⟨desc, hdesc, hslot⟩
  · have hne : k ≠ i := by
      rintro rfl
      have hlt := (List.getElem?_eq_some_iff.mp hi).1
      exact hj ((List.getElem?_inj hlt e.graph.nodup_resultHandles).mp (hi.trans hplace.symm))
    rw [Frame.delivered, Bindings.get?_bind_ne _ value hne] at hu
    rw [Frame.delivered, List.getElem?_set_ne (Ne.symm hj)] at hslot'
    exact h.instances.delivered j i u slot' hi hu hslot'

/-- The operands of a node are bound, to instances of their descriptions. -/
theorem exists_operands (h : e.Typed before f w) {hs : List Handle} {descs : List TensorDesc}
    (hearlier : ∀ k ∈ hs, k ∈ Node.produced before)
    (hdescs : List.Forall₂ (fun k desc => e.graph.tensors[k]? = some desc) hs descs) :
    ∃ ts, hs.mapM f.bindings.get = .ok ts ∧
      List.Forall₂ (fun desc (t : Tensor) => t.IsInstance desc) descs ts := by
  induction hdescs with
  | nil => exact ⟨[], rfl, .nil⟩
  | @cons k desc hs descs hdesc _ ih =>
      obtain ⟨hk, hearlier⟩ := List.forall_mem_cons.mp hearlier
      obtain ⟨t, ht⟩ := h.bound k (List.mem_append_right _ hk)
      obtain ⟨desc', hdesc', hinstance⟩ := h.instances.bound k t ht
      obtain rfl := Option.some.inj (hdesc.symm.trans hdesc')
      obtain ⟨ts, hts, hinstances⟩ := ih hearlier
      refine ⟨t :: ts, ?_, .cons hinstance hinstances⟩
      rw [List.mapM_cons, Bindings.get_eq_ok.mpr ht, hts]
      rfl

end Typed

/-- Instances have shapes that their descriptions accept. -/
theorem exists_shapes {descs : List TensorDesc} {ts : List Tensor}
    (h : List.Forall₂ (fun desc (t : Tensor) => t.IsInstance desc) descs ts) :
    ∃ shapes, List.Forall₂ (fun (t : Tensor) shape => t.shape = some shape) ts shapes ∧
      List.Forall₂ (fun (desc : TensorDesc) t => desc.shape.accepts t = true) descs shapes := by
  induction h with
  | nil => exact ⟨[], .nil, .nil⟩
  | cons ht _ ih =>
      obtain ⟨_, shape, hshape, haccepts⟩ := ht
      obtain ⟨shapes, hshapes, hall⟩ := ih
      exact ⟨shape :: shapes, .cons hshape hshapes, .cons haccepts hall⟩

/-! ### Steps -/

/-- An output that has a shape and the described type is bound. -/
theorem exists_bindProduced {k : Handle} {desc : TensorDesc} {t : Tensor} {shape : Shape}
    (houtputs : node.outputs = [k]) (hdesc : e.graph.tensors[k]? = some desc) (hdtype : t.dtype = desc.dtype)
    (hshape : t.shape = some shape) (collect : Bool) (start : Nat) (f : Frame) (w : World σ) :
    ∃ w', (e.bindProduced collect node start [t]).eval f w
        = ((.ok (), { f with bindings := f.bindings.bind k t }), w') ∧
      w'.cancelFlags = w.cancelFlags := by
  have hbind : ∀ w : World σ, ((node.outputs.zip [t]).zipIdx.forM (e.bindOutput node)).eval f w
      = ((.ok (), { f with bindings := f.bindings.bind k t }), w) := by
    intro w
    rw [houtputs]
    show ((e.bindOutput node ((k, t), 0)) >>= fun _ => pure ()).eval f w = _
    rw [bind_pure]
    simp only [bindOutput, Tensor.hasShape, hshape, hdesc, hdtype, Option.isSome_some, Bool.not_true,
      Bool.false_eq_true, if_false, ne_eq, not_true_eq_false]
    rfl
  cases collect with
  | false => exact ⟨w, hbind w, rfl⟩
  | true => exact ⟨_, hbind _, rfl⟩

theorem evaluatorOf_reference [HalfConversion] (hregistry : e.registry = .reference) {kind : ReferenceOp}
    (hop : node.op = kind.opType) (hinline : node.inline = none) :
    e.evaluatorOf node = .ok kind.evaluator := by
  unfold evaluatorOf
  rw [hinline, hop, hregistry]
  cases kind <;> rfl

/-- A node that reads what is bound is evaluated into a tensor of the described type; what that gives is
bound. -/
theorem exists_eval_evaluateNode (c : Context) (collect : Bool) {k : Handle} {desc : TensorDesc}
    {ts : List Tensor} {ev : Evaluator σ} (houtputs : node.outputs = [k])
    (hdesc : e.graph.tensors[k]? = some desc) (hts : node.inputs.mapM f.bindings.get = .ok ts)
    (hevaluator : e.evaluatorOf node = .ok ev) (w : World σ) :
    ∃ out f' s, out.dtype = desc.dtype ∧ f'.bindings = f.bindings ∧ f'.slots = f.slots ∧
      (s = w.store ∨ s = (fresh desc w.store).2) ∧
      (e.evaluateNode c collect node).eval f w =
        match (ev.apply node.toOperation [out] ts (c.holding f'.held)).outcome { w with store := s } with
        | (.ok produced, w') => (e.bindProduced collect node w.clock produced).eval f' w'
        | (.error error, w') => ((.error error, f'), w') := by
  have houtput : ∃ out s, (e.allocate c [] k).eval f w
      = ((.ok [out], { f with kept := f.kept.set k none }), { w with store := s }) ∧
      out.dtype = desc.dtype ∧ (s = w.store ∨ s = (fresh desc w.store).2) := by
    rcases allocate_cases c [] hdesc f w with ⟨t, -, hfits, -, heval⟩ | heval
    · exact ⟨t, w.store, heval, dtype_of_fits hfits, .inl rfl⟩
    · exact ⟨_, _, heval, (fresh_spec desc w.store).2.2, .inr rfl⟩
  obtain ⟨out, s, hallocate, hout, hs⟩ := houtput
  have hread : (node.inputs.mapM bound : Call σ (List Tensor)).eval f w = ((.ok ts, f), w) := by
    rw [eval_mapM_bound, hts]
  have hallocateAll : (node.outputs.foldlM (e.allocate c) []).eval f w
      = ((.ok [out], { f with kept := f.kept.set k none }), { w with store := s }) := by
    rw [houtputs, List.foldlM_cons]
    exact Call.eval_bind_ok hallocate _
  refine ⟨out, { f with kept := f.kept.set k none, dispatched := node.id :: f.dispatched }, s, hout, rfl, rfl, hs, ?_⟩
  rw [evaluateNode_eq, Call.eval_bind_ok hread, Call.eval_bind_ok hallocateAll, hevaluator,
    Call.eval_bind_ok (Call.eval_lift _ _ _), Call.eval_bind_ok (Call.eval_modify _ _ _),
    Call.eval_bind_ok (Call.eval_get _ _), Call.eval_bind_ok (Call.eval_getWorld _ _), Call.eval_bind,
    Call.eval_ofRun]
  rcases (ev.apply _ _ _ _).outcome _ with ⟨error | produced, w'⟩ <;> rfl

/-- Operands that have passed inference have a common shape if every parameter is fully known. -/
theorem exists_common_of_static (htyped : ∀ node ∈ e.graph.nodes, node.Typed e.graph.tensors)
    {hs : List Handle} {descs : List TensorDesc} {inferred : GraphBuilder.Inferred} {shapes : List Shape}
    (hdescs : List.Forall₂ (fun k desc => e.graph.tensors[k]? = some desc) hs descs)
    (hinferred : descs.foldlM GraphBuilder.Inferred.join ⟨0, some []⟩ = .ok inferred)
    (haccepts : List.Forall₂ (fun (desc : TensorDesc) t => desc.shape.accepts t = true) descs shapes)
    (hstatic : ∀ desc ∈ e.graph.parameterDescs, desc.shape.isStatic = true) :
    ∃ shape, shapes.foldlM Shape.broadcast? [] = some shape := by
  have hall := Graph.isStatic_of_parameters htyped hstatic
  have hoperands : ∀ d ∈ descs, d.shape.isStatic = true := by
    intro d hd
    obtain ⟨_, _, hd⟩ := exists_mem_of_forall₂ hdescs hd
    exact hall d (List.mem_of_getElem? hd)
  obtain ⟨known, shape, hknown, hcommon, _⟩ :=
    GraphBuilder.Inferred.exists_joined rfl hinferred hoperands
  exact ⟨shape, GraphBuilder.Inferred.shapes_eq_known hknown haccepts ▸ hcommon⟩

/-- Evaluating a typed node binds an instance of what is described, or finds that its operands have no
common shape. -/
theorem ensures_evaluateNode_typed [HalfConversion] (htyped : GraphBuilder.Typed dtype e.graph.tensors e.graph.nodes)
    (hregistry : e.registry = .reference) (c : Context) (collect : Bool)
    (hnodes : e.graph.nodes = before ++ node :: rest) (hparameter : ¬ node.isParameter = true)
    (hresult : ¬ node.isResult = true) :
    Call.Ensures (e.Typed before) (e.evaluateNode c collect node)
      (fun _ => e.Typed (before ++ [node])) e.Mismatch := by
  have hnode : node ∈ e.graph.nodes := hnodes ▸ List.mem_append_right _ List.mem_cons_self
  intro f w h
  cases htyped.nodes node hnode with
  | parameter hop => exact absurd (beq_iff_eq.mpr hop) hparameter
  | result hop => exact absurd (beq_iff_eq.mpr hop) hresult
  | @operator kind descs inferred k desc hop hinline hcount hinputs hinferred houtputs hdesc hshape =>
      obtain ⟨ts, hts, hinstances⟩ :=
        h.exists_operands (fun i hi => e.graph.reads_earlier hnodes hi) hinputs
      obtain ⟨shapes, hshapes, haccepts⟩ := exists_shapes hinstances
      have hdtypes : ∀ t ∈ ts, t.dtype = dtype := by
        intro t ht
        obtain ⟨d, hd, hinstance⟩ := exists_mem_of_forall₂ hinstances ht
        obtain ⟨_, _, hd⟩ := exists_mem_of_forall₂ hinputs hd
        exact hinstance.1.trans (htyped.dtype d (List.mem_of_getElem? hd))
      have hdescDtype : desc.dtype = dtype := htyped.dtype desc (List.mem_of_getElem? hdesc)
      have hlength : node.inputs.length = ts.length :=
        hinputs.length_eq.trans hinstances.length_eq
      obtain ⟨out, f', s, hout, hbindings, hslots, _, heval⟩ := exists_eval_evaluateNode c collect
        houtputs hdesc hts (evaluatorOf_reference hregistry hop hinline) w
      have h' : e.Typed before f' w := h.congr hbindings hslots rfl
      have hmakes := ReferenceOp.makes_apply (hlength ▸ hcount) hdtypes hshapes
        (hout.trans hdescDtype) node.toOperation (c.holding f'.held) { w with store := s }
      rw [heval]
      cases hjoined : shapes.foldlM Shape.broadcast? [] with
      | some shape =>
          rw [hjoined] at hmakes
          obtain ⟨t, s', houtcome, htdtype, htshape⟩ := hmakes
          have hdescribes : inferred.Describes shape :=
            GraphBuilder.Inferred.Describes.joinAll ⟨rfl, fun t ht => (Option.some.inj ht).symm⟩ hinferred
              haccepts hjoined
          have hinstance : t.IsInstance desc :=
            ⟨htdtype.trans hdescDtype.symm, shape, htshape, hshape ▸ hdescribes.accepts⟩
          obtain ⟨w', hbind, hflags⟩ := exists_bindProduced (e := e) houtputs hdesc hinstance.1 htshape
            collect w.clock f' { w with store := s' }
          simp only [houtcome, hbind]
          exact (h'.bind hnode hresult houtputs hdesc hinstance).congr rfl rfl hflags
      | none =>
          rw [hjoined] at hmakes
          obtain ⟨left, right, houtcome⟩ := hmakes
          simp only [houtcome]
          refine ⟨⟨left, right, rfl⟩, fun hstatic => ?_, h'.instances⟩
          obtain ⟨shape, hcommon⟩ :=
            exists_common_of_static htyped.nodes hinputs hinferred haccepts hstatic
          cases hjoined.symm.trans hcommon

/-- A slot of the type and shape of a value takes it; any other becomes an alias of it. -/
theorem exists_deliver_instance {desc : TensorDesc} {value : Tensor} (hvalue : value.IsInstance desc)
    (slot : Tensor) (w : World σ) :
    ∃ slot' s, (deliver slot value : Run σ Tensor).outcome w = (.ok slot', { w with store := s }) ∧
      slot'.IsInstance desc := by
  rcases deliver_cases slot value w with ⟨-, houtcome⟩ | ⟨-, hshape, hdtype, s, -, houtcome⟩
  · exact ⟨value, w.store, houtcome, hvalue⟩
  · refine ⟨slot, s, houtcome, ?_⟩
    rw [Tensor.IsInstance, hdtype, hshape]
    exact hvalue

/-- Delivering a typed result never fails. -/
theorem ensures_deliverNode_typed (htyped : GraphBuilder.Typed dtype e.graph.tensors e.graph.nodes)
    (hnodes : e.graph.nodes = before ++ node :: rest) (hresult : node.isResult = true) :
    Call.Ensures (e.Typed before) (e.deliverNode node) (fun _ => e.Typed (before ++ [node]))
      e.Mismatch := by
  have hnode : node ∈ e.graph.nodes := hnodes ▸ List.mem_append_right _ List.mem_cons_self
  have hisResult : node.op = .result := beq_iff_eq.mp hresult
  intro f w h
  cases htyped.nodes node hnode with
  | parameter hop => exact absurd hresult (Node.not_isResult (beq_iff_eq.mpr hop))
  | @result input output desc _ hinputs houtputs hinput houtput =>
      obtain ⟨slot, hslot⟩ := exists_slot hnodes hresult h.places
      have hearlier := e.graph.reads_earlier hnodes (hinputs ▸ List.mem_singleton_self input)
      obtain ⟨value, hvalue⟩ := h.bound input (List.mem_append_right _ hearlier)
      obtain ⟨desc', hdesc', hinstance⟩ := h.instances.bound input value hvalue
      obtain rfl := Option.some.inj (hinput.symm.trans hdesc')
      obtain ⟨slot', s, hdeliver, hslot'⟩ := exists_deliver_instance hinstance slot w
      rw [eval_deliverNode hnodes hresult hinputs houtputs hslot, Bindings.get_eq_ok.mpr hvalue]
      simp only [hdeliver]
      exact (h.deliver hnodes hresult houtputs houtput hinstance hslot').congr rfl rfl rfl
  | @operator kind descs inferred k desc hop hinline hcount hinputs hinferred houtputs hdesc hshape =>
      have hother : kind.opType ≠ .result := by cases kind <;> decide
      exact absurd (hop.symm.trans hisResult) hother

/-- Every step of a call of a typed graph keeps the call typed. -/
theorem invariant_typed [HalfConversion] (htyped : GraphBuilder.Typed dtype e.graph.tensors e.graph.nodes)
    (hregistry : e.registry = .reference) (c : Context) (collect : Bool) :
    e.Invariant c collect e.Typed (fun _ _ => False) e.Mismatch where
  cancel before := by
    intro f w h
    show if w.cancelRequested e.cancel = true then _ else _
    rw [h.cancel]
    exact ⟨h.length, h.places, h.instances, h.bound, cancelRequested_taken w⟩
  parameter := by
    intro before rest node hnodes hparameter f w h
    have hnode : node ∈ e.graph.nodes := hnodes ▸ List.mem_append_right _ List.mem_cons_self
    refine ⟨h.length, h.places, h.instances, fun i hi => h.bound i ?_, h.cancel⟩
    rw [Node.produced_append, ← List.append_assoc, List.mem_append] at hi
    rcases hi with hi | hi
    · exact hi
    · refine List.mem_append_left _ (List.mem_flatMap.mpr ⟨node, ?_, ?_⟩)
      · exact List.mem_filter.mpr ⟨hnode, hparameter⟩
      · simpa [Node.produced] using hi
  result hnodes hresult := ensures_deliverNode_typed htyped hnodes hresult
  operator hnodes hparameter hresult :=
    ensures_evaluateNode_typed htyped hregistry c collect hnodes hparameter hresult

/-! ### Whole calls -/

/-- The frame of a call after its first nodes, or where it failed before. -/
def frameAfter (e : Executor σ) (count : Nat) (slots inputs : List Tensor) (c : Context)
    (collect : Bool) (w : World σ) : Frame :=
  let started := e.startedWorld inputs c w
  ((e.runNodes (e.contextFor c) collect (e.graph.nodes.take count)).eval
    (e.openedFrame slots inputs started) (e.openedWorld started)).1.2

theorem typed_openedFrame {slots inputs : List Tensor}
    (hcheck : checkOperands e.graph slots inputs = .ok ())
    (hcancel : w.cancelRequested e.cancel = false) :
    e.Typed [] (e.openedFrame slots inputs w) (e.openedWorld w) := by
  obtain ⟨hlength, hplaces, hinstances⟩ := (checkOperands_eq_ok w.store).mp hcheck
  have hsame : inputs.length = e.graph.parameterHandles.length :=
    hlength.trans e.graph.length_parameterHandles.symm
  refine ⟨length_bindInputs e.graph inputs, hplaces, ⟨fun h t hget => ?_, ?_⟩, fun h hh => ?_, ?_⟩
  · obtain ⟨i, hi⟩ := List.mem_iff_getElem?.mp (mem_zip_of_get?_bindInputs hget)
    obtain ⟨hhandle, hinput⟩ := List.getElem?_zip_eq_some.mp hi
    have hlt := e.graph.parameterHandles_lt (List.mem_of_getElem? hhandle)
    have hdesc : e.graph.tensors[h]? = some e.graph.tensors[h] := List.getElem?_eq_getElem hlt
    refine ⟨e.graph.tensors[h], hdesc, Tensor.isInstance_of_value (s := w.store) ?_⟩
    refine hinstances (e.graph.tensors[h], t.value w.store) (List.mem_iff_getElem?.mpr ⟨i, ?_⟩)
    rw [List.getElem?_zip_eq_some, e.graph.parameterDescs_getElem?, List.getElem?_map, hhandle, hinput]
    exact ⟨hdesc, rfl⟩
  · -- a result is no parameter, and nothing else is bound at the start
    intro j h t slot hh hget
    have hmem := (List.of_mem_zip (mem_zip_of_get?_bindInputs hget)).1
    obtain ⟨node, hnode, hh⟩ := List.mem_flatMap.mp (List.mem_of_getElem? hh)
    obtain ⟨hnode, hresult⟩ := List.mem_filter.mp hnode
    exact absurd hmem (e.graph.not_mem_parameterHandles hnode
      (fun hparameter => Node.not_isResult hparameter hresult) hh)
  · have hh : h ∈ e.graph.parameterHandles := by simpa [Node.produced] using hh
    obtain ⟨i, hi, rfl⟩ := List.mem_iff_getElem.mp hh
    have hi' : i < inputs.length := hsame ▸ hi
    exact ⟨inputs[i], get?_bindInputs_getElem hlength hi hi'⟩
  · unfold openedWorld
    split <;> exact hcancel

/-- Once every node has run, the slots are instances of the descriptions of the results. -/
theorem Typed.slots (h : e.Typed e.graph.nodes f w) :
    List.Forall₂ (fun desc (t : Tensor) => t.IsInstance desc) e.graph.resultDescs f.slots := by
  have hlength : e.graph.resultDescs.length = f.slots.length := by
    rw [Graph.length_resultDescs, Graph.length_resultHandles, h.places]
  refine List.forall₂_iff_get.mpr ⟨hlength, fun j hdesc hslot => ?_⟩
  have hget : e.graph.resultDescs[j]? = some e.graph.resultDescs[j] := List.getElem?_eq_getElem hdesc
  rw [Graph.resultDescs_getElem?] at hget
  obtain ⟨i, hi, hget⟩ := Option.bind_eq_some_iff.mp hget
  have hproduced : i ∈ Node.produced e.graph.nodes :=
    (e.graph.mem_produced i).mpr (e.graph.resultHandles_lt (List.mem_of_getElem? hi))
  obtain ⟨t, ht⟩ := h.bound i (List.mem_append_right _ hproduced)
  obtain ⟨desc, hdesc', hinstance⟩ :=
    h.instances.delivered j i t f.slots[j] hi ht (List.getElem?_eq_getElem hslot)
  obtain rfl := Option.some.inj (hget.symm.trans hdesc')
  exact hinstance

/-- A graph built by inference does not go wrong, whatever the executor remembers: a call that accepts its
operands binds instances of the descriptions only.  It completes, and then every slot is an instance of
the description of its result, or it fails because shapes have no common shape; the latter cannot happen
if every parameter is fully known. -/
theorem execute_inferred [HalfConversion] {b : GraphBuilder (Evaluator σ)} (hb : GraphBuilder.Inferring dtype b)
    (hbuild : b.build = .ok e.graph) (hregistry : e.registry = .reference) {slots inputs : List Tensor}
    (hcheck : checkOperands e.graph slots inputs = .ok ())
    (hcancel : w.cancelRequested e.cancel = false) (c : Context) (collect : Bool) :
    (∀ count, e.Instances (e.frameAfter count slots inputs c collect w)) ∧
    ((∃ slots' w', (e.execute slots inputs c collect).outcome w = (.ok (.completed, slots'), w') ∧
        List.Forall₂ (fun desc (t : Tensor) => t.IsInstance desc) e.graph.resultDescs slots') ∨
      (∃ left right w',
        (e.execute slots inputs c collect).outcome w = (.error (.broadcast left right), w')) ∧
        ¬ ∀ desc ∈ e.graph.parameterDescs, desc.shape.isStatic = true) := by
  have hinvariant := invariant_typed (hb.typed hbuild) hregistry (e.contextFor c) collect
  have hopened := typed_openedFrame hcheck (cancelRequested_startedWorld w inputs c)
  constructor
  · intro count
    have hwalk := hinvariant.ensures_take count
    unfold frameAfter
    simp only
    rcases heval : (e.runNodes (e.contextFor c) collect (e.graph.nodes.take count)).eval
        (e.openedFrame slots inputs (e.startedWorld inputs c w))
        (e.openedWorld (e.startedWorld inputs c w)) with ⟨⟨error | status, f⟩, w'⟩
    · exact (hwalk.of_error hopened heval).2.2
    · rcases hwalk.of_ok hopened heval with ⟨_, htyped⟩ | ⟨_, hfalse⟩
      · exact htyped.instances
      · exact hfalse.elim
  · have hnodes : e.graph.nodes = [] ++ e.graph.nodes ++ [] := (List.append_nil _).symm
    have hwalk := hinvariant.ensures_runNodes hnodes
    rw [execute_eq, outcome_executeNodes hcancel hcheck]
    simp only
    rcases heval : (e.runNodes (e.contextFor c) collect e.graph.nodes).eval
        (e.openedFrame slots inputs (e.startedWorld inputs c w))
        (e.openedWorld (e.startedWorld inputs c w)) with ⟨⟨error | status, f⟩, w'⟩
    · obtain ⟨⟨left, right, rfl⟩, hstatic, _⟩ := hwalk.of_error hopened heval
      exact .inr ⟨⟨left, right, _, rfl⟩, hstatic⟩
    · rcases hwalk.of_ok hopened heval with ⟨rfl, htyped⟩ | ⟨_, hfalse⟩
      · exact .inl ⟨f.slots, _, rfl, htyped.slots⟩
      · exact hfalse.elim

/-- A builder that has appended an open and a known parameter, the positive part of the first, the sum of
that and the second, and a result. -/
def mixedBuilder : GraphBuilder (Evaluator Unit) where
  tensors := [⟨.u8, [.dynamic]⟩, ⟨.u8, [.fixed 2]⟩, ⟨.u8, [.dynamic]⟩, ⟨.u8, [.dynamic]⟩,
    ⟨.u8, [.dynamic]⟩]
  nodes := [⟨⟨0, .parameter, none, [], [0], none⟩, none⟩,
    ⟨⟨1, .parameter, none, [], [1], none⟩, none⟩, ⟨⟨2, .relu, none, [0], [2], none⟩, none⟩,
    ⟨⟨3, .add, none, [2, 1], [3], none⟩, none⟩, ⟨⟨4, .result, none, [3], [4], none⟩, none⟩]

theorem inferring_mixedBuilder : GraphBuilder.Inferring .u8 mixedBuilder := by
  have hparameters : @GraphBuilder.Inferring (Evaluator Unit) .u8 _ :=
    (GraphBuilder.Inferring.empty.parameter [.dynamic]).parameter [.fixed 2]
  have hrelu : @GraphBuilder.Inferring (Evaluator Unit) .u8 _ :=
    .op hparameters (show ReferenceOp.relu.operands? = some [0].length from rfl) rfl
  have hadd : @GraphBuilder.Inferring (Evaluator Unit) .u8 _ :=
    .op hrelu (show ReferenceOp.add.operands? = some [2, 1].length from rfl) rfl
  exact .result hadd (show GraphBuilder.result _ 3 = _ from rfl)

/-- Its graph. -/
def mixed : Graph (Evaluator Unit) where
  tensors := mixedBuilder.tensors
  nodes := mixedBuilder.nodes
  numbered := rfl
  checked := rfl

/-- An executor for it, and the world in which it is created. -/
def mixedCreated : Executor Unit × World Unit :=
  create mixed .reference ⟨none, 1, true⟩ (.empty ())

/-- The world in which the caller has made an input of one element, one of two, and an open slot. -/
def mixedFilled : World Unit :=
  { mixedCreated.2 with
    store := (((mixedCreated.2.store.alloc #[5]).2.alloc #[1, 2]).2.alloc #[]).2 }

/-- A call with operands of one and two elements completes. -/
theorem execute_inferred_mixed : ∃ slots w,
    (mixedCreated.1.execute [⟨.f32, none, ⟨2⟩⟩] [⟨.u8, some [1], ⟨0⟩⟩, ⟨.u8, some [2], ⟨1⟩⟩] .empty
      false).outcome mixedFilled = (.ok (.completed, slots), w) ∧
    List.Forall₂ (fun desc (t : Tensor) => t.IsInstance desc) [⟨.u8, [.dynamic]⟩] slots := by
  have hcheck : checkOperands mixedCreated.1.graph [⟨.f32, none, ⟨2⟩⟩]
      [⟨.u8, some [1], ⟨0⟩⟩, ⟨.u8, some [2], ⟨1⟩⟩] = .ok () := by decide +kernel
  have hcompletes : ((mixedCreated.1.execute [⟨.f32, none, ⟨2⟩⟩]
      [⟨.u8, some [1], ⟨0⟩⟩, ⟨.u8, some [2], ⟨1⟩⟩] .empty false).outcome mixedFilled).1.isOk = true := by
    decide +kernel
  have hcancel : mixedFilled.cancelRequested mixedCreated.1.cancel = false := by decide +kernel
  rcases (execute_inferred inferring_mixedBuilder rfl rfl hcheck hcancel .empty false).2
    with ⟨slots, w, houtcome, hslots⟩ | ⟨⟨left, right, w, houtcome⟩, _⟩
  · exact ⟨slots, w, houtcome, hslots⟩
  · rw [houtcome] at hcompletes
    cases hcompletes

end Executor

end TensorGraph
