import TensorGraph.Proofs.Acceptance
import TensorGraph.Proofs.Inference

/-! # What builders build

A call of a builder edits it in place: it enters the tensors of a node, one after the other, and then the node
(`GraphBuilder.Edit`).  An edit that fails keeps what it has entered.  But every check of a call comes before the
first entry, so that a call is made all or not at all, and leaves the builder that the function of the same name
returns (`Call.outcome_edit`).

Whatever the calls were, a node reads what is there already and produces what is new, so that the parts are in
order (`Reached.ordered`).  Of the check that `build` makes, the forms of the nodes are left
(`Graph.Ordered.check_eq`), and the form can be wrong only in results that came in by `op` or `add`
(`build_after`). -/

namespace TensorGraph

variable {ε : Type}

namespace GraphBuilder

/-! ### Editing in place -/

/-- Computations that edit a builder in place.  What was done before an error stays done. -/
abbrev Edit (ε : Type) := ExceptT Error (StateM (GraphBuilder ε))

namespace Edit

/-- What an edit returns, and the builder after it. -/
def outcome {α : Type} (m : Edit ε α) (b : GraphBuilder ε) : Except Error α × GraphBuilder ε :=
  Id.run (StateT.run m.run b)

/-- The description of a tensor that the builder knows. -/
def desc (h : Handle) : Edit ε TensorDesc := do
  liftM ((← get).desc h)

/-- Enters one tensor. -/
def pushTensor (desc : TensorDesc) : Edit ε Handle := do
  let b ← get
  set { b with tensors := b.tensors ++ [desc] }
  return b.tensors.length

/-- Enters a node that produces some tensors. -/
def pushNode (spec : NodeSpec ε) (outputs : List Handle) : Edit ε Unit :=
  modify fun b =>
    { b with
      nodes := b.nodes ++
        [⟨⟨b.nodes.length, spec.op, spec.name, spec.inputs, outputs, spec.varId⟩, spec.inline⟩] }

/-- Enters an input of the graph. -/
def parameter (desc : TensorDesc) : Edit ε Handle := do
  let handle ← pushTensor desc
  pushNode ⟨.parameter, none, [], [], none, none⟩ [handle]
  return handle

/-- Enters a node: first its operands are checked, then its tensors are entered, then itself. -/
def add (spec : NodeSpec ε) : Edit ε (List Handle) := do
  if spec.op = .parameter then
    throw (.invalidGraph "parameters are added with GraphBuilder::parameter")
  spec.inputs.forM fun h => discard (desc h)
  let handles ← spec.outputs.mapM pushTensor
  pushNode spec handles
  return handles

/-- Enters a node with one output. -/
def addOne (op : OpType) (inputs : List Handle) (output : TensorDesc) : Edit ε Handle := do
  let outputs ← add ⟨op, none, inputs, [output], none, none⟩
  return outputs.headD 0

/-- Enters an output of the graph. -/
def result (value : Handle) : Edit ε Handle := do
  addOne .result [value] (← desc value)

/-- Enters an elementwise operator. -/
def op (op : OpType) (inputs : List Handle) : Edit ε Handle := do
  match inputs with
  | [] => throw (.invalidArgument "inputs" "at least one input is required")
  | first :: _ =>
    let dtype := (← desc first).dtype
    let shape ← liftM ((← get).inferShape inputs)
    addOne op inputs ⟨dtype, shape⟩

end Edit

/-- What is asked of a builder. -/
inductive Call (ε : Type) where
  | parameter (desc : TensorDesc)
  | result (value : Handle)
  | op (op : OpType) (inputs : List Handle)
  | add (spec : NodeSpec ε)

namespace Call

/-- The call as an edit in place. -/
def edit : Call ε → Edit ε (List Handle)
  | parameter desc => List.singleton <$> Edit.parameter desc
  | result value => List.singleton <$> Edit.result value
  | op operator inputs => List.singleton <$> Edit.op operator inputs
  | add spec => Edit.add spec

/-- The call as a function that returns the next builder. -/
def apply (b : GraphBuilder ε) : Call ε → Except Error (List Handle × GraphBuilder ε)
  | parameter desc => .ok (b.parameter desc |>.map List.singleton id)
  | result value => (b.result value).map (Prod.map List.singleton id)
  | op operator inputs => (b.op operator inputs).map (Prod.map List.singleton id)
  | add spec => b.add spec

/-- Whether the operator of the node is for the caller to say. -/
def isOpen : Call ε → Bool
  | op .. | add .. => true
  | parameter _ | result _ => false

end Call

/-- The builder after some calls, of which any may have failed. -/
def after (calls : List (Call ε)) : GraphBuilder ε :=
  calls.foldl (fun b call => (call.edit.outcome b).2) empty

/-! ### Calls are made all or not at all -/

/-- What is returned, and the builder that is left if nothing changes on failure. -/
def settle {α : Type} (b : GraphBuilder ε) : Except Error (α × GraphBuilder ε) → Except Error α × GraphBuilder ε
  | .ok (a, b') => (.ok a, b')
  | .error e => (.error e, b)

/-- A node is appended exactly if it is no input and all its operands are known. -/
theorem add_eq_ok {b : GraphBuilder ε} {spec : NodeSpec ε} {added : List Handle × GraphBuilder ε} :
    b.add spec = .ok added ↔
      spec.op ≠ .parameter ∧ (∀ h ∈ spec.inputs, h < b.tensors.length) ∧ added = b.append spec := by
  have hknown (h : Handle) : discard (b.desc h) = .ok () ↔ h < b.tensors.length := by
    unfold desc
    cases hdesc : b.tensors[h]? with
    | none => exact ⟨nofun, fun hlt => by simp [hlt] at hdesc⟩
    | some desc => exact ⟨fun _ => (List.getElem?_eq_some_iff.mp hdesc).1, fun _ => rfl⟩
  unfold add
  by_cases hop : spec.op = .parameter
  · simp only [hop, ↓reduceIte, ne_eq, not_true_eq_false, false_and, iff_false]
    exact nofun
  · simp only [hop, ↓reduceIte, ne_eq, not_false_eq_true, true_and, ← hknown]
    rw [← forM_eq_ok]
    cases spec.inputs.forM fun h => discard (b.desc h) with
    | error e => simp [bind, Except.bind]
    | ok _ => simp [eq_comm]

theorem addOne_cases {b : GraphBuilder ε} {op : OpType} {inputs : List Handle} {desc : TensorDesc}
    {added : Handle × GraphBuilder ε} (h : b.addOne op inputs desc = .ok added) :
    op ≠ .parameter ∧ (∀ h ∈ inputs, h < b.tensors.length) ∧
      added = (b.tensors.length, (b.append ⟨op, none, inputs, [desc], none, none⟩).2) := by
  obtain ⟨_, hadd, h⟩ := bind_eq_ok.mp h
  obtain ⟨hop, hinputs, rfl⟩ := add_eq_ok.mp hadd
  exact ⟨hop, hinputs, (pure_eq_ok.mp h).symm⟩

theorem op_cases {b : GraphBuilder ε} {op : OpType} {inputs : List Handle} {added : Handle × GraphBuilder ε}
    (h : b.op op inputs = .ok added) : ∃ desc, b.addOne op inputs desc = .ok added := by
  cases inputs with
  | nil => cases h
  | cons first rest =>
      obtain ⟨desc, _, h⟩ := bind_eq_ok.mp h
      obtain ⟨shape, _, h⟩ := bind_eq_ok.mp h
      exact ⟨_, h⟩

namespace Edit

variable {α β : Type} (b : GraphBuilder ε)

theorem outcome_bind (m : Edit ε α) (f : α → Edit ε β) :
    (m >>= f).outcome b = match m.outcome b with
      | (.ok a, b') => (f a).outcome b'
      | (.error e, b') => (.error e, b') := by
  simp only [outcome, ExceptT.run_bind, StateT.run_bind, Id.run_bind]
  rcases Id.run (StateT.run m.run b) with ⟨_ | _, _⟩ <;> rfl

@[simp] theorem outcome_lift (m : Except Error α) : (liftM m : Edit ε α).outcome b = (m, b) := rfl

@[simp] theorem outcome_desc (h : Handle) : (desc h).outcome b = (b.desc h, b) := rfl

@[simp] theorem outcome_pushTensor (desc : TensorDesc) :
    (pushTensor desc).outcome b = (.ok b.tensors.length, { b with tensors := b.tensors ++ [desc] }) := rfl

theorem outcome_pushTensors (descs : List TensorDesc) :
    (descs.mapM pushTensor : Edit ε (List Handle)).outcome b
      = (.ok (List.range' b.tensors.length descs.length), { b with tensors := b.tensors ++ descs }) := by
  induction descs generalizing b with
  | nil => simp; rfl
  | cons desc descs ih =>
      rw [List.mapM_cons, outcome_bind, outcome_pushTensor]
      dsimp only
      rw [outcome_bind, ih]
      simp [List.range'_succ]
      rfl

theorem outcome_knows (inputs : List Handle) :
    (inputs.forM fun h => discard (desc h) : Edit ε Unit).outcome b
      = (inputs.forM fun h => discard (b.desc h), b) := by
  induction inputs with
  | nil => rfl
  | cons h inputs ih =>
      have hedit : ((h :: inputs).forM fun h => discard (desc h) : Edit ε Unit)
          = discard (desc h) >>= fun _ => inputs.forM fun h => discard (desc h) := rfl
      have hcheck : (h :: inputs).forM (fun h => discard (b.desc h))
          = discard (b.desc h) >>= fun _ => inputs.forM fun h => discard (b.desc h) := rfl
      have hhead : (discard (desc h) : Edit ε Unit).outcome b = (discard (b.desc h), b) := by
        change (desc h >>= fun _ => pure ()).outcome b = _
        rw [outcome_bind, outcome_desc]
        cases b.desc h <;> rfl
      rw [hedit, hcheck, outcome_bind, hhead]
      cases discard (b.desc h) with
      | error e => rfl
      | ok _ => exact ih

theorem outcome_parameter (desc : TensorDesc) :
    (parameter desc).outcome b = (.ok (b.parameter desc).1, (b.parameter desc).2) := rfl

/-- All operands are checked before the first tensor is entered. -/
theorem outcome_add (spec : NodeSpec ε) : (add spec).outcome b = b.settle (b.add spec) := by
  unfold add GraphBuilder.add
  by_cases hop : spec.op = .parameter
  · simp only [hop, ↓reduceIte]
    rfl
  · simp only [hop, ↓reduceIte]
    rw [outcome_bind, outcome_knows]
    cases spec.inputs.forM fun h => discard (b.desc h) with
    | error e => rfl
    | ok _ =>
        dsimp only
        rw [outcome_bind, outcome_pushTensors]
        rfl

theorem outcome_addOne (op : OpType) (inputs : List Handle) (output : TensorDesc) :
    (addOne op inputs output).outcome b = b.settle (b.addOne op inputs output) := by
  unfold addOne GraphBuilder.addOne
  rw [outcome_bind, outcome_add]
  cases hadd : b.add ⟨op, none, inputs, [output], none, none⟩ with
  | error e => rfl
  | ok added =>
      obtain ⟨_, _, rfl⟩ := add_eq_ok.mp hadd
      rfl

theorem outcome_result (value : Handle) : (result value).outcome b = b.settle (b.result value) := by
  unfold result GraphBuilder.result
  rw [outcome_bind, outcome_desc]
  cases b.desc value with
  | error e => rfl
  | ok desc => exact outcome_addOne b .result [value] desc

theorem outcome_op (op : OpType) (inputs : List Handle) :
    (Edit.op op inputs).outcome b = b.settle (b.op op inputs) := by
  cases inputs with
  | nil => rfl
  | cons first rest =>
      unfold Edit.op GraphBuilder.op
      dsimp only
      rw [outcome_bind, outcome_desc]
      cases b.desc first with
      | error e => rfl
      | ok desc =>
          change (liftM (b.inferShape (first :: rest)) >>= fun shape =>
            addOne op (first :: rest) ⟨desc.dtype, shape⟩).outcome b = _
          rw [ok_bind, outcome_bind, outcome_lift]
          cases b.inferShape (first :: rest) with
          | error e => rfl
          | ok shape => exact outcome_addOne b op (first :: rest) ⟨desc.dtype, shape⟩

end Edit

/-- Every call is made all or not at all, and is what the function of its name says. -/
theorem Call.outcome_edit (call : Call ε) (b : GraphBuilder ε) :
    call.edit.outcome b = b.settle (call.apply b) := by
  have hmap {m : Edit ε Handle} {r : Except Error (Handle × GraphBuilder ε)}
      (h : m.outcome b = b.settle r) :
      (List.singleton <$> m).outcome b = b.settle (r.map (Prod.map List.singleton id)) := by
    rw [map_eq_pure_bind, Edit.outcome_bind, h]
    rcases r with e | ⟨handle, b'⟩ <;> rfl
  cases call with
  | parameter desc => exact hmap (r := .ok (b.parameter desc)) (Edit.outcome_parameter b desc)
  | result value => exact hmap (Edit.outcome_result b value)
  | op operator inputs => exact hmap (Edit.outcome_op b operator inputs)
  | add spec => exact Edit.outcome_add b spec

theorem Call.unchanged {call : Call ε} {b : GraphBuilder ε} {error : Error}
    (h : (call.edit.outcome b).1 = .error error) : (call.edit.outcome b).2 = b := by
  rw [call.outcome_edit] at h ⊢
  cases happly : call.apply b with
  | error e => rfl
  | ok added =>
      rw [happly] at h
      cases h

/-! ### What a call appends -/

/-- The builder after a call. -/
def next (b : GraphBuilder ε) (call : Call ε) : GraphBuilder ε := (call.edit.outcome b).2

/-- What a call says of the node that it appends, given what the builder knows. -/
inductive Call.Specifies (tensors : List TensorDesc) : Call ε → NodeSpec ε → Prop
  | parameter (desc : TensorDesc) :
      Specifies tensors (.parameter desc) ⟨.parameter, none, [], [desc], none, none⟩
  | result {value : Handle} {desc : TensorDesc} (h : tensors[value]? = some desc) :
      Specifies tensors (.result value) ⟨.result, none, [value], [desc], none, none⟩
  | op {operator : OpType} {inputs : List Handle} {desc : TensorDesc} (h : operator ≠ .parameter) :
      Specifies tensors (.op operator inputs) ⟨operator, none, inputs, [desc], none, none⟩
  | add {spec : NodeSpec ε} (h : spec.op ≠ .parameter) : Specifies tensors (.add spec) spec

/-- A call appends one node, which reads what the builder knows, or fails and changes nothing. -/
theorem next_cases (b : GraphBuilder ε) (call : Call ε) :
    (∃ spec, call.Specifies b.tensors spec ∧ (∀ h ∈ spec.inputs, h < b.tensors.length) ∧
      b.next call = (b.append spec).2) ∨ b.next call = b := by
  have hmap {r : Except Error (Handle × GraphBuilder ε)} {added : List Handle × GraphBuilder ε}
      (h : r.map (Prod.map List.singleton id) = .ok added) : ∃ one, r = .ok one ∧ added.2 = one.2 := by
    cases r with
    | error e => cases h
    | ok one => exact ⟨one, rfl, (congrArg Prod.snd (Except.ok.inj h)).symm⟩
  unfold next
  rw [call.outcome_edit]
  cases happly : call.apply b with
  | error e => exact .inr rfl
  | ok added =>
      left
      cases call with
      | parameter desc =>
          obtain rfl := Except.ok.inj happly
          exact ⟨_, .parameter desc, nofun, rfl⟩
      | result value =>
          obtain ⟨one, hone, hadded⟩ := hmap happly
          obtain ⟨desc, hdesc, hone⟩ := bind_eq_ok.mp hone
          obtain ⟨_, hinputs, rfl⟩ := addOne_cases hone
          exact ⟨_, .result (desc_eq_ok.mp hdesc), hinputs, hadded⟩
      | op operator inputs =>
          obtain ⟨one, hone, hadded⟩ := hmap happly
          obtain ⟨desc, hone⟩ := op_cases hone
          obtain ⟨hop, hinputs, rfl⟩ := addOne_cases hone
          exact ⟨_, .op hop, hinputs, hadded⟩
      | add spec =>
          obtain ⟨hop, hinputs, rfl⟩ := add_eq_ok.mp happly
          exact ⟨spec, .add hop, hinputs, rfl⟩

/-! ### Parts in order -/

/-- What holds of the parts of a builder, whatever it was asked for. -/
structure Reached (b : GraphBuilder ε) : Prop where
  numbered : Node.number b.nodes = b.nodes
  ordered : Graph.Ordered b.tensors b.nodes
  /-- Parameters have their form. -/
  parameters : ∀ node ∈ b.nodes, node.isParameter = true → node.inputs = [] ∧ node.outputs.length = 1

theorem reached_empty : Reached (empty : GraphBuilder ε) where
  numbered := rfl
  ordered := ⟨by simp [empty], by simp [empty, Node.produced], List.nodup_nil⟩
  parameters := nofun

/-- A node that reads what is known, and that is no input or has the form of one, keeps the parts in order. -/
theorem Reached.append {b : GraphBuilder ε} (h : b.Reached) {spec : NodeSpec ε}
    (hinputs : ∀ t ∈ spec.inputs, t < b.tensors.length)
    (hparameter : spec.op = .parameter → spec.inputs = [] ∧ spec.outputs.length = 1) :
    (b.append spec).2.Reached := by
  let node : Node ε := ⟨⟨b.nodes.length, spec.op, spec.name, spec.inputs,
    List.range' b.tensors.length spec.outputs.length, spec.varId⟩, spec.inline⟩
  have hnodes : (b.append spec).2.nodes = b.nodes ++ [node] := rfl
  have hproduced : Node.produced (b.append spec).2.nodes
      = Node.produced b.nodes ++ List.range' b.tensors.length spec.outputs.length := by
    rw [hnodes, Node.produced_append]
    simp [Node.produced, node]
  refine ⟨?_, ⟨fun before reader rest hsplit t ht => ?_, fun t => ?_, ?_⟩, fun reader hreader hisParameter => ?_⟩
  · have hnumbered := h.numbered
    rw [Node.number] at hnumbered
    rw [hnodes, Node.number, List.mapIdx_append, hnumbered]
    simp [node]
  · rw [hnodes] at hsplit
    rcases rest.eq_nil_or_concat with rfl | ⟨rest, last, rfl⟩
    · obtain ⟨rfl, hlast⟩ := List.append_inj' hsplit rfl
      obtain rfl := (List.cons.inj hlast).1
      exact (h.ordered.produced t).mpr (hinputs t ht)
    · rw [List.concat_eq_append, ← List.cons_append, ← List.append_assoc] at hsplit
      exact h.ordered.reads before reader rest (List.append_inj' hsplit rfl).1 t ht
  · have hrange (t n k : Nat) : t < n ∨ n ≤ t ∧ t < n + k ↔ t < n + k := by omega
    rw [hproduced, List.mem_append, h.ordered.produced, List.mem_range'_1, GraphBuilder.append,
      List.length_append]
    exact hrange ..
  · rw [hproduced]
    refine List.nodup_append.mpr ⟨h.ordered.once, List.nodup_range', fun s hs t ht hst => ?_⟩
    have hold := (h.ordered.produced s).mp hs
    exact absurd (List.mem_range'_1.mp ht).1 (Nat.not_le.mpr (hst ▸ hold))
  · rw [hnodes] at hreader
    rcases List.mem_append.mp hreader with hold | hnew
    · exact h.parameters reader hold hisParameter
    · obtain rfl := List.mem_singleton.mp hnew
      obtain ⟨hnone, hone⟩ := hparameter (beq_iff_eq.mp hisParameter)
      exact ⟨hnone, by rw [List.length_range', hone]⟩

theorem Call.Specifies.parameter_form {tensors : List TensorDesc} {call : Call ε} {spec : NodeSpec ε}
    (h : call.Specifies tensors spec) (hop : spec.op = .parameter) :
    spec.inputs = [] ∧ spec.outputs.length = 1 := by
  cases h with
  | parameter desc => exact ⟨rfl, rfl⟩
  | result _ => exact absurd (show OpType.result = .parameter from hop) (by decide)
  | op hne => exact absurd hop hne
  | add hne => exact absurd hop hne

theorem Reached.next {b : GraphBuilder ε} (h : b.Reached) (call : Call ε) : (b.next call).Reached := by
  rcases b.next_cases call with ⟨spec, hspec, hinputs, hnext⟩ | hnext
  · rw [hnext]
    exact h.append hinputs hspec.parameter_form
  · rwa [hnext]

theorem after_concat (calls : List (Call ε)) (call : Call ε) : after (calls ++ [call]) = (after calls).next call :=
  List.foldl_concat ..

/-- The parts of a builder are in order after any calls. -/
theorem reached_after (calls : List (Call ε)) : (after calls).Reached := by
  induction calls using List.reverseRecOn with
  | nil => exact reached_empty
  | append_singleton calls call ih =>
      rw [after_concat]
      exact ih.next call

/-! ### Who appended a node -/

theorem prefix_next (b : GraphBuilder ε) (call : Call ε) :
    b.tensors <+: (b.next call).tensors ∧ b.nodes <+: (b.next call).nodes := by
  rcases b.next_cases call with ⟨spec, _, _, hnext⟩ | hnext
  · rw [hnext]
    exact ⟨List.prefix_append .., List.prefix_append ..⟩
  · rw [hnext]
    exact ⟨List.prefix_rfl, List.prefix_rfl⟩

/-- Nothing that came in goes out again. -/
theorem prefix_after (before rest : List (Call ε)) :
    (after before).tensors <+: (after (before ++ rest)).tensors ∧
      (after before).nodes <+: (after (before ++ rest)).nodes := by
  induction rest using List.reverseRecOn with
  | nil => simp
  | append_singleton rest call ih =>
      rw [← List.append_assoc, after_concat]
      have hnext := prefix_next (after (before ++ rest)) call
      exact ⟨ih.1.trans hnext.1, ih.2.trans hnext.2⟩

end GraphBuilder

/-- A node that hands on one tensor as another one of the same element type. -/
def Node.HandsOn (tensors : List TensorDesc) (node : Node ε) : Prop :=
  ∃ input output source target, node.inputs = [input] ∧ node.outputs = [output] ∧
    tensors[input]? = some source ∧ tensors[output]? = some target ∧ source.dtype = target.dtype

theorem Node.HandsOn.mono {tensors tensors' : List TensorDesc} {node : Node ε} (h : node.HandsOn tensors)
    (hgrown : tensors <+: tensors') : node.HandsOn tensors' := by
  obtain ⟨more, rfl⟩ := hgrown
  have hkept {t : Handle} {desc : TensorDesc} (hdesc : tensors[t]? = some desc) :
      (tensors ++ more)[t]? = some desc := by
    rw [List.getElem?_append_left (List.getElem?_eq_some_iff.mp hdesc).1, hdesc]
  obtain ⟨input, output, source, target, hinputs, houtputs, hsource, htarget, hdtype⟩ := h
  exact ⟨input, output, source, target, hinputs, houtputs, hkept hsource, hkept htarget, hdtype⟩

/-- A defect of the form of a result. -/
def GraphDefect.OfResult (defect : GraphDefect) : Prop :=
  (∃ node, defect = .resultForm node) ∨ ∃ node input output, defect = .resultType node input output

namespace GraphBuilder

/-- A node came in by a call. -/
theorem exists_call {calls : List (Call ε)} {node : Node ε} (h : node ∈ (after calls).nodes) :
    ∃ before call rest spec, calls = before ++ call :: rest ∧
      call.Specifies (after before).tensors spec ∧
      after (before ++ [call]) = ((after before).append spec).2 ∧
      (after (before ++ [call])).nodes = (after before).nodes ++ [node] := by
  induction calls using List.reverseRecOn with
  | nil => exact absurd h List.not_mem_nil
  | append_singleton calls call ih =>
      rw [after_concat] at h
      rcases (after calls).next_cases call with ⟨spec, hspec, _, hnext⟩ | hnext
      · rw [hnext] at h
        rcases List.mem_append.mp h with hold | hnew
        · obtain ⟨before, earlier, rest, spec, rfl, hcall⟩ := ih hold
          exact ⟨before, earlier, rest ++ [call], spec, by simp, hcall⟩
        · obtain rfl := List.mem_singleton.mp hnew
          have hafter : after (calls ++ [call]) = ((after calls).append spec).2 :=
            (after_concat calls call).trans hnext
          exact ⟨calls, call, [], spec, rfl, hspec, hafter, by rw [hafter]; rfl⟩
      · rw [hnext] at h
        obtain ⟨before, earlier, rest, spec, rfl, hcall⟩ := ih h
        exact ⟨before, earlier, rest ++ [call], spec, by simp, hcall⟩

/-- A result that came in by `result` hands a tensor on. -/
theorem Call.Specifies.handsOn {b : GraphBuilder ε} {call : Call ε} {spec : NodeSpec ε} {node : Node ε}
    (h : call.Specifies b.tensors spec) (hnodes : (b.append spec).2.nodes = b.nodes ++ [node])
    (hclosed : call.isOpen = false) (hresult : node.isResult = true) :
    node.HandsOn (b.append spec).2.tensors := by
  obtain rfl := (List.cons.inj (List.append_cancel_left hnodes)).1
  cases h with
  | parameter desc => exact absurd (beq_iff_eq.mp hresult) (show ¬ OpType.parameter = .result by decide)
  | @result value desc hdesc =>
      refine ⟨value, b.tensors.length, desc, desc, rfl, rfl, ?_, List.getElem?_concat_length, rfl⟩
      exact (List.getElem?_append_left (List.getElem?_eq_some_iff.mp hdesc).1).trans hdesc
  | op _ => cases hclosed
  | add _ => cases hclosed

end GraphBuilder

/-! ### What is refused -/

theorem exists_of_forM_eq_error {α δ : Type} {f : α → Except δ Unit} {l : List α} {e : δ}
    (h : l.forM f = .error e) : ∃ a ∈ l, f a = .error e := by
  induction l with
  | nil => cases h
  | cons a l ih =>
      have hcons : (a :: l).forM f = f a >>= fun _ => l.forM f := rfl
      rw [hcons] at h
      cases hfa : f a with
      | error e' =>
          rw [hfa] at h
          obtain rfl := Except.error.inj h
          exact ⟨a, List.mem_cons_self, hfa⟩
      | ok _ =>
          rw [hfa] at h
          obtain ⟨a', ha', hfa'⟩ := ih h
          exact ⟨a', List.mem_cons_of_mem a ha', hfa'⟩

namespace Graph

variable {tensors : List TensorDesc} {nodes : List (Node ε)}

theorem ofParts_eq_error {error : Error} :
    ofParts tensors nodes = .error error ↔
      ∃ defect, check tensors (Node.number nodes) = .error defect ∧ error = .invalidGraph defect.message := by
  unfold ofParts
  split
  · rename_i hcheck
    simp [hcheck]
  · rename_i defect hcheck
    simp [hcheck, eq_comm]

/-- Apart from parameters, a node whose tensors are known is refused only if it is a result that does not hand
one tensor on. -/
theorem checkForm_cases {node : Node ε} (hinputs : ∀ t ∈ node.inputs, t < tensors.length)
    (houtputs : ∀ t ∈ node.outputs, t < tensors.length)
    (hparameter : node.isParameter = true → node.inputs = [] ∧ node.outputs.length = 1) :
    (checkForm tensors node = .ok () ∧ (node.isResult = true → node.HandsOn tensors)) ∨
    ∃ defect, checkForm tensors node = .error defect ∧ defect.OfResult ∧ node.isResult = true ∧
      ¬ node.HandsOn tensors := by
  by_cases hisParameter : node.isParameter = true
  · have hnoResult := Node.not_isResult hisParameter
    exact .inl ⟨(checkForm_eq_ok_iff hinputs houtputs).mpr ⟨hparameter, fun h => absurd h hnoResult⟩,
      fun h => absurd h hnoResult⟩
  · unfold checkForm
    rw [if_neg hisParameter]
    by_cases hresult : node.isResult = true
    · rw [if_pos hresult]
      split
      · rename_i input output hin hout
        have hsource := List.getElem?_eq_getElem (hinputs input (hin ▸ List.mem_singleton_self input))
        have htarget := List.getElem?_eq_getElem (houtputs output (hout ▸ List.mem_singleton_self output))
        rw [hsource, htarget]
        dsimp only
        split
        · exact .inl ⟨rfl, fun _ => ⟨input, output, _, _, hin, hout, hsource, htarget, ‹_›⟩⟩
        · rename_i hdtype
          refine .inr ⟨_, rfl, .inr ⟨_, _, _, rfl⟩, hresult, ?_⟩
          rintro ⟨input', output', source, target, hin', hout', hsource', htarget', hsame⟩
          obtain rfl : input = input' := (List.cons.inj (hin.symm.trans hin')).1
          obtain rfl : output = output' := (List.cons.inj (hout.symm.trans hout')).1
          obtain rfl := Option.some.inj (hsource.symm.trans hsource')
          obtain rfl := Option.some.inj (htarget.symm.trans htarget')
          exact hdtype hsame
      · rename_i hform
        refine .inr ⟨_, rfl, .inl ⟨_, rfl⟩, hresult, ?_⟩
        rintro ⟨input, output, _, _, hin, hout, _⟩
        exact hform input output hin hout
    · rw [if_neg hresult]
      exact .inl ⟨rfl, fun h => absurd h hresult⟩

end Graph

namespace GraphBuilder

/-- A node that a builder has is refused only if it is a result that does not hand one tensor on. -/
theorem Reached.checkForm_cases {b : GraphBuilder ε} (h : b.Reached) {node : Node ε} (hnode : node ∈ b.nodes) :
    (Graph.checkForm b.tensors node = .ok () ∧ (node.isResult = true → node.HandsOn b.tensors)) ∨
    ∃ defect, Graph.checkForm b.tensors node = .error defect ∧ defect.OfResult ∧ node.isResult = true ∧
      ¬ node.HandsOn b.tensors := by
  obtain ⟨before, rest, hsplit⟩ := List.append_of_mem hnode
  have hproduced {t : Handle} {nodes : List (Node ε)} (hnodes : nodes ⊆ b.nodes) (ht : t ∈ Node.produced nodes) :
      t < b.tensors.length := by
    obtain ⟨producer, hproducer, ht⟩ := List.mem_flatMap.mp ht
    exact (h.ordered.produced t).mp (List.mem_flatMap.mpr ⟨producer, hnodes hproducer, ht⟩)
  refine Graph.checkForm_cases (fun t ht => ?_) (fun t ht => ?_) (h.parameters node hnode)
  · exact hproduced (hsplit ▸ List.subset_append_left ..) (h.ordered.reads before node rest hsplit t ht)
  · exact (h.ordered.produced t).mp (List.mem_flatMap.mpr ⟨node, hnode, ht⟩)

/-- The check of a builder's parts is that of the forms of its nodes. -/
theorem Reached.build_eq_error {b : GraphBuilder ε} (h : b.Reached) {error : Error} (hbuild : b.build = .error error) :
    ∃ defect, Graph.check b.tensors b.nodes = .error defect ∧ defect.OfResult ∧
      error = .invalidGraph defect.message := by
  obtain ⟨defect, hcheck, rfl⟩ := Graph.ofParts_eq_error.mp hbuild
  rw [h.numbered] at hcheck
  refine ⟨defect, hcheck, ?_, rfl⟩
  rw [h.ordered.check_eq] at hcheck
  obtain ⟨node, hnode, hform⟩ := exists_of_forM_eq_error hcheck
  rcases h.checkForm_cases hnode with ⟨hok, _⟩ | ⟨defect', hdefect, hresult, _⟩
  · cases hok.symm.trans hform
  · exact Except.error.inj (hdefect.symm.trans hform) ▸ hresult

/-- The parts of a builder are refused exactly if some result does not hand one tensor on. -/
theorem Reached.exists_build_eq_error {b : GraphBuilder ε} (h : b.Reached) :
    (∃ error, b.build = .error error) ↔
      ∃ node ∈ b.nodes, node.isResult = true ∧ ¬ node.HandsOn b.tensors := by
  constructor
  · rintro ⟨error, hbuild⟩
    obtain ⟨defect, hcheck, _⟩ := h.build_eq_error hbuild
    rw [h.ordered.check_eq] at hcheck
    obtain ⟨node, hnode, hform⟩ := exists_of_forM_eq_error hcheck
    rcases h.checkForm_cases hnode with ⟨hok, _⟩ | ⟨_, _, _, hrefused⟩
    · cases hok.symm.trans hform
    · exact ⟨node, hnode, hrefused⟩
  · rintro ⟨node, hnode, hresult, hnot⟩
    cases hbuild : b.build with
    | error error => exact ⟨error, rfl⟩
    | ok g =>
        obtain ⟨htensors, hnodes⟩ := build_eq_ok hbuild
        rw [h.numbered] at hnodes
        have hform := g.checkForm_eq_ok (hnodes ▸ hnode)
        rw [htensors] at hform
        rcases h.checkForm_cases hnode with ⟨_, hhands⟩ | ⟨_, hdefect, _⟩
        · exact absurd (hhands hresult) hnot
        · cases hform.symm.trans hdefect

/-- **Builders build valid graphs, and their calls are made all or not at all.**  A call that fails leaves the
builder as it was.  After any calls, of which any may have failed, `build` fails exactly if a call of `op` or
`add` appended a result that has not one input and one output of one element type; and this is the only reason
that it ever names. -/
theorem build_after (calls : List (Call ε)) :
    (∀ (b : GraphBuilder ε) (call : Call ε) error, (call.edit.outcome b).1 = .error error →
      (call.edit.outcome b).2 = b) ∧
    ((∃ error, (after calls).build = .error error) ↔
      ∃ before call rest node, calls = before ++ call :: rest ∧ call.isOpen = true ∧
        (after (before ++ [call])).nodes = (after before).nodes ++ [node] ∧
        node.isResult = true ∧ ¬ node.HandsOn (after calls).tensors) ∧
    ∀ error, (after calls).build = .error error →
      ∃ defect, Graph.check (after calls).tensors (after calls).nodes = .error defect ∧ defect.OfResult ∧
        error = .invalidGraph defect.message := by
  refine ⟨fun b call error => call.unchanged, ?_, fun error => (reached_after calls).build_eq_error⟩
  · rw [(reached_after calls).exists_build_eq_error]
    constructor
    · rintro ⟨node, hnode, hresult, hnot⟩
      obtain ⟨before, call, rest, spec, rfl, hspec, hafter, hnodes⟩ := exists_call hnode
      refine ⟨before, call, rest, node, rfl, ?_, hnodes, hresult, hnot⟩
      by_contra hopen
      have hhands := hspec.handsOn (hafter ▸ hnodes) (Bool.not_eq_true _ ▸ hopen) hresult
      have hgrows := (prefix_after (before ++ [call]) rest).1
      rw [List.append_assoc, List.singleton_append] at hgrows
      exact hnot ((hafter ▸ hhands).mono hgrows)
    · rintro ⟨before, call, rest, node, rfl, _, hnodes, hresult, hnot⟩
      have hgrows := (prefix_after (before ++ [call]) rest).2
      rw [List.append_assoc, List.singleton_append] at hgrows
      refine ⟨node, hgrows.subset ?_, hresult, hnot⟩
      rw [hnodes]
      exact List.mem_append_right _ (List.mem_singleton_self node)

/-- A call that reads an unknown tensor, and later a result that changes the element type. -/
theorem build_after_mistyped_result :
    let parameter : Call Empty := .parameter ⟨.f32, [.fixed 2]⟩
    let unknown : Call Empty := .op .relu [7]
    let mistyped : Call Empty := .add ⟨.result, none, [0], [⟨.u8, [.fixed 2]⟩], none, none⟩
    (unknown.edit.outcome (after [parameter])).2 = after [parameter] ∧
      ∃ error, (after [parameter, unknown, mistyped, .result 0]).build = .error error := by
  intro parameter unknown mistyped
  obtain ⟨hunchanged, hbuild, _⟩ := build_after [parameter, unknown, mistyped, .result 0]
  refine ⟨hunchanged (after [parameter]) unknown _ rfl, hbuild.mpr
    ⟨[parameter, unknown], mistyped, [.result 0], ⟨⟨1, .result, none, [0], [1], none⟩, none⟩, rfl, rfl, rfl, rfl, ?_⟩⟩
  rintro ⟨input, output, source, target, hinputs, houtputs, hsource, htarget, hdtype⟩
  obtain rfl : 0 = input := (List.cons.inj hinputs).1
  obtain rfl : 1 = output := (List.cons.inj houtputs).1
  obtain rfl : ⟨.f32, [.fixed 2]⟩ = source := Option.some.inj hsource
  obtain rfl : ⟨.u8, [.fixed 2]⟩ = target := Option.some.inj htarget
  cases hdtype

end GraphBuilder

end TensorGraph
