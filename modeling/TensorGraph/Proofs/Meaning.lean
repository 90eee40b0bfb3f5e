import TensorGraph.Execution.Fused
import TensorGraph.Proofs.Valuation
import TensorGraph.Proofs.Wellformed

/-! # What nested graphs mean

`Graph.denote` tells what a graph of reference operators makes of values where it makes something.  Here the
operators may in turn be graphs, nested to any depth, and a failure has a meaning too: the error it is, and
what was done to the variables before.

A `Scheme` says what runs a node: a reference operator, or a body whose nodes are run by schemes of their own.
`Scheme.meaning` follows it as an evaluator would, on `Value`s: there are no buffers, nothing is remembered
from one call to the next, and the only state is that of the variables, which all bodies share. -/

namespace TensorGraph

variable {S α β δ ε : Type}

/-! ### Effects -/

/-- A computation on a state that may fail; what it did to the state before it failed stays done. -/
abbrev Effect (S α : Type) := ExceptT Error (StateM S) α

namespace Effect

/-- The outcome of a computation on a state, and the state after it. -/
def outcome (m : Effect S α) (s : S) : Except Error α × S := Id.run (StateT.run m.run s)

theorem outcome_bind (m : Effect S α) (k : α → Effect S β) (s : S) :
    (m >>= k).outcome s = match m.outcome s with
      | (.ok a, s') => (k a).outcome s'
      | (.error error, s') => (.error error, s') := by
  simp only [outcome, ExceptT.run_bind, StateT.run_bind, Id.run_bind]
  rcases Id.run (StateT.run m.run s) with ⟨_ | _, _⟩ <;> rfl

theorem outcome_bind_ok {m : Effect S α} {s s' : S} {a : α} (h : m.outcome s = (.ok a, s'))
    (k : α → Effect S β) : (m >>= k).outcome s = (k a).outcome s' := by
  rw [outcome_bind, h]

@[simp] theorem outcome_lift (m : Except Error α) (s : S) : (liftM m : Effect S α).outcome s = (m, s) :=
  rfl

@[simp] theorem outcome_get (s : S) : (get : Effect S S).outcome s = (.ok s, s) := rfl

@[simp] theorem outcome_modify (g : S → S) (s : S) : (modify g : Effect S Unit).outcome s = (.ok (), g s) :=
  rfl

end Effect

/-! ### Reference operators -/

/-- The shape of a value that must have one. -/
def Value.resolvedShape (v : Value) : Except Error Shape :=
  match v.shape with
  | some shape => .ok shape
  | none => .error (.internal "tensor shape is not resolved")

/-- What an operator makes of the values of its inputs and of the variables, or how it fails. -/
abbrev Meaning := List Value → Effect VariableValues (List Value)

namespace Meaning

/-- The only input. -/
def one (operation : Operation) : List Value → Except Error Value
  | [x] => .ok x
  | xs => .error ((OperatorFault.inputs 1 xs.length).toError operation)

/-- The two inputs. -/
def two (operation : Operation) : List Value → Except Error (Value × Value)
  | [x, y] => .ok (x, y)
  | xs => .error ((OperatorFault.inputs 2 xs.length).toError operation)

/-- Refuses any outputs but one of an element type. -/
def output (operation : Operation) (dtype : DType) : List DType → Except Error Unit
  | [out] => if out = dtype then .ok () else .error (.dtypeMismatch out dtype)
  | outs => .error ((OperatorFault.outputs outs.length).toError operation)

variable [HalfConversion]

/-- The positive parts of the elements. -/
def relu (operation : Operation) (outs : List DType) : Meaning := fun xs => do
  let x ← one operation xs
  let shape ← x.resolvedShape
  output operation x.dtype outs
  return [.ofElements x.dtype shape
    (Elementwise.mapElements x.dtype Elementwise.positivePart x.elements)]

/-- The elements of two values combined over their common shape. -/
def binary (f : Float → Float → Float) (operation : Operation) (outs : List DType) : Meaning := fun xs => do
  let (x, y) ← two operation xs
  if x.dtype ≠ y.dtype then
    throw (.dtypeMismatch x.dtype y.dtype)
  let left ← x.resolvedShape
  let right ← y.resolvedShape
  let shape ← Shape.broadcast left right
  let leftView ← (Layout.contiguous left).broadcastTo shape
  let rightView ← (Layout.contiguous right).broadcastTo shape
  output operation x.dtype outs
  return [.ofElements x.dtype shape (Elementwise.zipElements x.dtype f
    (Elementwise.gather x.elements leftView) (Elementwise.gather y.elements rightView))]

/-- Refuses a sum of another type or shape than the input. -/
def checkSum (sum x : Value) (shape : Shape) : Except Error Unit := do
  if sum.dtype ≠ x.dtype then
    throw (.dtypeMismatch sum.dtype x.dtype)
  if sum.shape ≠ some shape then
    throw (.shapeMismatch (sum.shape.getD []) shape)

/-- The variable, zero if it had no value, with the input added to it. -/
def accumulate (operation : Operation) (outs : List DType) : Meaning := fun xs => do
  let x ← one operation xs
  let shape ← x.resolvedShape
  let id ← Operand.variableId operation
  let sum := ((← get) id).getD (.zeros x.dtype shape)
  modify (Function.update · id (some sum))
  checkSum sum x shape
  let next := .ofElements x.dtype shape
    (Elementwise.zipElements x.dtype (· + ·) sum.elements x.elements)
  modify (Function.update · id (some next))
  output operation x.dtype outs
  return [next]

/-- The variable, or the first input as long as it has no value. -/
def readValue (operation : Operation) : Meaning := fun xs => do
  let id ← Operand.variableId operation
  match ((← get) id).or xs.head? with
  | some value => return [value]
  | none => throw ((OperatorFault.noValue id).toError operation)

/-- The input, which becomes the value of the variable. -/
def assign (operation : Operation) (outs : List DType) : Meaning := fun xs => do
  let x ← one operation xs
  let id ← Operand.variableId operation
  modify (Function.update · id (some x))
  output operation x.dtype outs
  return [x]

end Meaning

/-- What a reference operator means for one output, whose element type is given. -/
def ReferenceOp.meaning [HalfConversion] : ReferenceOp → Operation → List DType → Meaning
  | relu => Meaning.relu
  | add => Meaning.binary (· + ·)
  | subtract => Meaning.binary (· - ·)
  | multiply => Meaning.binary (· * ·)
  | accumulate => Meaning.accumulate
  | readValue => fun operation _ => Meaning.readValue operation
  | assign => Meaning.assign

/-! ### Graphs -/

/-- A walk over nodes on values. -/
abbrev Walk := Effect (Valuation Value VariableValues)

/-- The value of a tensor that must have one. -/
def Valuation.get (v : Valuation α S) (h : Handle) : Except Error α :=
  match v.env h with
  | some a => .ok a
  | none => .error (.unboundTensor h.describe)

/-- An effect on the variables, as part of a walk. -/
def Walk.onVariables (m : Effect VariableValues α) : Walk α := ExceptT.mk fun v =>
  ((m.outcome v.state).1, { v with state := (m.outcome v.state).2 })

namespace Graph

/-- Refuses an output of an operation that has no shape or not the described type. -/
def checkOutput (g : Graph ε) (op : OpType) (h : Handle) (a : Value) (position : Nat) : Except Error Unit :=
  if a.shape.isNone then .error (.unresolvedShape op.name position)
  else match g.tensors[h]? with
    | some desc => if a.dtype ≠ desc.dtype then .error (.dtypeMismatch desc.dtype a.dtype) else .ok ()
    | none => .ok ()

/-- Gives an output of an operation its value. -/
def bindValue (g : Graph ε) (op : OpType) (entry : (Handle × Value) × Nat) : Walk Unit := do
  g.checkOutput op entry.1.1 entry.1.2 entry.2
  modify fun v => v.bind [entry.1.1] entry.1.2

/-- The element types of tensors. -/
def typesOf (g : Graph ε) (hs : List Handle) : List DType :=
  hs.filterMap fun h => g.tensors[h]?.map (·.dtype)

/-- One node, where `run` says what the operators mean. -/
def stepValues (g : Graph ε) (run : Operation → List DType → Meaning) (n : Node ε) : Walk Unit := do
  if n.isParameter then
    return
  let v ← get
  let inputs ← (n.inputs.mapM v.get : Except Error (List Value))
  if n.isResult then
    match inputs with
    | [] => return
    | a :: _ => modify fun v => { v.bind n.outputs a with results := v.results ++ [a] }
  else
    let produced ← Walk.onVariables (run n.toOperation (g.typesOf n.outputs) inputs)
    (n.outputs.zip produced).zipIdx.forM (g.bindValue n.op)

theorem stepValues_parameter (g : Graph ε) (run : Operation → List DType → Meaning) {n : Node ε}
    (hparameter : n.isParameter = true) : g.stepValues run n = pure () :=
  if_pos hparameter

/-- A result passes on what it reads. -/
theorem outcome_stepValues_result (g : Graph ε) (run : Operation → List DType → Meaning) {n : Node ε}
    (hparameter : ¬ n.isParameter = true) (hresult : n.isResult = true) {input output : Handle}
    (hinput : n.inputs = [input]) (houtput : n.outputs = [output]) (v : Valuation Value VariableValues) :
    (g.stepValues run n).outcome v = match v.get input with
      | .ok a => (.ok (), { v.bind [output] a with results := v.results ++ [a] })
      | .error error => (.error error, v) := by
  rw [stepValues, if_neg hparameter, Effect.outcome_bind_ok (Effect.outcome_get v), hinput, List.mapM_cons,
    Effect.outcome_bind, Effect.outcome_lift]
  cases v.get input with
  | error error => rfl
  | ok a =>
      simp only [hresult, if_true, houtput]
      rfl

theorem stepValues_operator (g : Graph ε) (run : Operation → List DType → Meaning) {n : Node ε}
    (hparameter : ¬ n.isParameter = true) (hresult : ¬ n.isResult = true)
    (v : Valuation Value VariableValues) :
    (g.stepValues run n).outcome v
      = (do
        let inputs ← (n.inputs.mapM v.get : Except Error (List Value))
        let produced ← Walk.onVariables (run n.toOperation (g.typesOf n.outputs) inputs)
        (n.outputs.zip produced).zipIdx.forM (g.bindValue n.op) : Walk Unit).outcome v := by
  rw [stepValues, if_neg hparameter, Effect.outcome_bind_ok (Effect.outcome_get v)]
  simp only [hresult, if_false, Bool.false_eq_true]

theorem results_bindValue (g : Graph ε) (op : OpType) (entry : (Handle × Value) × Nat)
    (v : Valuation Value VariableValues) : ((g.bindValue op entry).outcome v).2.results = v.results := by
  rw [bindValue, Effect.outcome_bind, Effect.outcome_lift]
  cases g.checkOutput op entry.1.1 entry.1.2 entry.2 <;> rfl

theorem results_bindValues (g : Graph ε) (op : OpType) (entries : List ((Handle × Value) × Nat))
    (v : Valuation Value VariableValues) :
    ((entries.forM (g.bindValue op) : Walk Unit).outcome v).2.results = v.results := by
  induction entries generalizing v with
  | nil => rfl
  | cons entry entries ih =>
      show ((g.bindValue op entry >>= fun _ => entries.forM (g.bindValue op) : Walk Unit).outcome v).2.results = _
      have hentry := g.results_bindValue op entry v
      rw [Effect.outcome_bind]
      rcases houtcome : (g.bindValue op entry).outcome v with ⟨error | _, v'⟩
      · rw [houtcome] at hentry
        exact hentry
      · rw [houtcome] at hentry
        exact (ih v').trans hentry

/-- An operator adds nothing to the results. -/
theorem results_stepValues (g : Graph ε) (run : Operation → List DType → Meaning) {n : Node ε}
    (hparameter : ¬ n.isParameter = true) (hresult : ¬ n.isResult = true)
    (v : Valuation Value VariableValues) : ((g.stepValues run n).outcome v).2.results = v.results := by
  rw [stepValues_operator g run hparameter hresult, Effect.outcome_bind, Effect.outcome_lift]
  rcases n.inputs.mapM v.get with error | inputs
  · rfl
  simp only [Effect.outcome_bind]
  rcases hrun : (run n.toOperation (g.typesOf n.outputs) inputs).outcome v.state with ⟨error | produced, vars⟩
  · have houtcome : (Walk.onVariables (run n.toOperation (g.typesOf n.outputs) inputs)).outcome v
        = (.error error, { v with state := vars }) := by
      show (_, _) = _
      rw [hrun]
    rw [houtcome]
  · have houtcome : (Walk.onVariables (run n.toOperation (g.typesOf n.outputs) inputs)).outcome v
        = (.ok produced, { v with state := vars }) := by
      show (_, _) = _
      rw [hrun]
    rw [houtcome]
    exact g.results_bindValues n.op _ _

/-- A result adds one. -/
theorem length_results_of_result (g : Graph ε) (run : Operation → List DType → Meaning) {n : Node ε}
    (hnode : n ∈ g.nodes) (hparameter : ¬ n.isParameter = true) (hresult : n.isResult = true)
    {v v' : Valuation Value VariableValues} (h : (g.stepValues run n).outcome v = (.ok (), v')) :
    v'.results.length = v.results.length + 1 := by
  obtain ⟨input, output, hinput, houtput⟩ := g.result_form hnode hresult
  rw [outcome_stepValues_result g run hparameter hresult hinput houtput] at h
  cases hget : v.get input with
  | error error =>
      rw [hget] at h
      cases h
  | ok a =>
      rw [hget] at h
      obtain ⟨-, rfl⟩ := Prod.mk.inj h
      exact List.length_append

/-- A walk that completes has added as many as there are results among the nodes. -/
theorem length_results_of_forM (g : Graph ε) (run : Operation → List DType → Meaning) {nodes : List (Node ε)}
    (hnodes : nodes ⊆ g.nodes) {v v' : Valuation Value VariableValues}
    (h : (nodes.forM (g.stepValues run) : Walk Unit).outcome v = (.ok (), v')) :
    v'.results.length = v.results.length + (nodes.filter (·.isResult)).length := by
  induction nodes generalizing v with
  | nil =>
      obtain ⟨-, rfl⟩ := Prod.mk.inj h
      rfl
  | cons n nodes ih =>
      obtain ⟨hnode, hrest⟩ := List.cons_subset.mp hnodes
      replace h : (g.stepValues run n >>= fun _ => nodes.forM (g.stepValues run) : Walk Unit).outcome v
          = (.ok (), v') := h
      rw [Effect.outcome_bind] at h
      rcases hstep : (g.stepValues run n).outcome v with ⟨error | _, v₁⟩
      · rw [hstep] at h
        cases h
      rw [hstep] at h
      rw [ih hrest h]
      by_cases hparameter : n.isParameter = true
      · rw [stepValues_parameter g run hparameter] at hstep
        obtain ⟨-, rfl⟩ := Prod.mk.inj hstep
        rw [List.filter_cons_of_neg (Node.not_isResult hparameter)]
      · by_cases hresult : n.isResult = true
        · rw [length_results_of_result g run hnode hparameter hresult hstep,
            List.filter_cons_of_pos hresult, List.length_cons, Nat.add_assoc, Nat.add_comm 1]
        · have hresults := results_stepValues g run hparameter hresult v
          rw [hstep] at hresults
          rw [hresults, List.filter_cons_of_neg hresult]

/-- All nodes, from the values of the inputs and the variables at the start of a call. -/
def walkValues (g : Graph ε) (run : Operation → List DType → Meaning) (inputs : List Value)
    (vars : VariableValues) : Except Error Unit × Valuation Value VariableValues :=
  (g.nodes.forM (g.stepValues run) : Walk Unit).outcome
    (g.initialValuation inputs (g.nodes.foldl (g.withZeros inputs) vars))

/-- Where all nodes complete, there are all results. -/
theorem length_results_of_walkValues (g : Graph ε) (run : Operation → List DType → Meaning) {inputs : List Value}
    {vars : VariableValues} {v : Valuation Value VariableValues}
    (h : g.walkValues run inputs vars = (.ok (), v)) : v.results.length = g.results.length := by
  rw [length_results_of_forM g run (List.Subset.refl _) h, (g.results_initialValuation _ _).1, List.length_nil,
    Nat.zero_add]
  exact (List.length_map _).symm

/-- Refuses a value that is not an instance of its description. -/
def checkValue (desc : TensorDesc) (v : Value) : Except Error Unit :=
  if v.dtype ≠ desc.dtype then .error (.dtypeMismatch desc.dtype v.dtype)
  else if v.shape.isSome && desc.shape.accepts (v.shape.getD []) then .ok ()
  else .error (.shapeMismatch desc.shape.extentsOrZero (v.shape.getD []))

/-- Refuses a wrong number of inputs or of places for results, and inputs that are no instances of the
parameters. -/
def checkValues (g : Graph ε) (places : Nat) (inputs : List Value) : Except Error Unit := do
  if inputs.length ≠ g.parameters.length then
    throw (.inputCount g.parameters.length inputs.length)
  if places ≠ g.results.length then
    throw (.outputCount g.results.length places)
  (g.parameterDescs.zip inputs).forM fun (desc, v) => checkValue desc v

/-- What a graph means, with a number of places for its results. -/
def meaning (g : Graph ε) (run : Operation → List DType → Meaning) (places : Nat) : Meaning := fun inputs => do
  g.checkValues places inputs
  let (ending, v) := g.walkValues run inputs (← get)
  set v.state
  ending
  return v.results

theorem outcome_meaning (g : Graph ε) (run : Operation → List DType → Meaning) (places : Nat)
    (inputs : List Value) (vars : VariableValues) :
    (g.meaning run places inputs).outcome vars = match g.checkValues places inputs with
      | .ok () => ((g.walkValues run inputs vars).1.map fun _ => (g.walkValues run inputs vars).2.results,
          (g.walkValues run inputs vars).2.state)
      | .error error => (.error error, vars) := by
  rw [meaning, Effect.outcome_bind, Effect.outcome_lift]
  cases g.checkValues places inputs with
  | error error => rfl
  | ok _ =>
      simp only [Effect.outcome_bind_ok (Effect.outcome_get vars)]
      rcases g.walkValues run inputs vars with ⟨error | _, v⟩ <;> rfl

/-! ### Graphs of the same operations -/

/-- Two graphs have the same tensors and operations, whatever evaluators their nodes bring along. -/
structure Same (g : Graph ε) (g' : Graph δ) : Prop where
  tensors : g.tensors = g'.tensors
  operations : g.nodes.map (·.toOperation) = g'.nodes.map (·.toOperation)

namespace Same

variable {g : Graph ε} {g' : Graph δ}

/-- What is read off operations is the same. -/
theorem map_filter (h : g.Same g') (p : OpType → Bool) (f : Operation → β) :
    (g.nodes.filter (p ·.op)).map (f ·.toOperation) = (g'.nodes.filter (p ·.op)).map (f ·.toOperation) := by
  have hfilter {ζ : Type} (nodes : List (Node ζ)) : (nodes.filter (p ·.op)).map (f ·.toOperation)
      = ((nodes.map (·.toOperation)).filter (p ·.op)).map f := by
    rw [List.filter_map, List.map_map]
    rfl
  rw [hfilter, hfilter, h.operations]

theorem parameters (h : g.Same g') : g.parameters = g'.parameters := h.map_filter (· == .parameter) (·.id)

theorem results (h : g.Same g') : g.results = g'.results := h.map_filter (· == .result) (·.id)

theorem parameterHandles (h : g.Same g') : g.parameterHandles = g'.parameterHandles := by
  have houtputs := h.map_filter (· == .parameter) (·.outputs)
  unfold Graph.parameterHandles
  rw [List.flatMap_def, List.flatMap_def]
  exact congrArg List.flatten houtputs

theorem parameterDescs (h : g.Same g') : g.parameterDescs = g'.parameterDescs := by
  unfold Graph.parameterDescs
  rw [h.parameterHandles, h.tensors]

theorem typesOf (h : g.Same g') (hs : List Handle) : g.typesOf hs = g'.typesOf hs := by
  unfold Graph.typesOf
  rw [h.tensors]

theorem checkValues (h : g.Same g') (places : Nat) (inputs : List Value) :
    g.checkValues places inputs = g'.checkValues places inputs := by
  unfold Graph.checkValues
  rw [h.parameters, h.results, h.parameterDescs]

theorem initialValue (h : g.Same g') (inputs : List Value) (first : Handle) :
    g.initialValue inputs first = g'.initialValue inputs first := by
  unfold Graph.initialValue
  rw [h.parameterHandles, h.tensors]

/-- Both give the same variables zeros. -/
theorem foldl_withZeros (h : g.Same g') (inputs : List Value) (vars : VariableValues) :
    g.nodes.foldl (g.withZeros inputs) vars = g'.nodes.foldl (g'.withZeros inputs) vars := by
  have hfold : ∀ (nodes : List (Node ε)) (nodes' : List (Node δ)) (vars : VariableValues),
      nodes.map (·.toOperation) = nodes'.map (·.toOperation) →
      nodes.foldl (g.withZeros inputs) vars = nodes'.foldl (g'.withZeros inputs) vars := by
    intro nodes
    induction nodes with
    | nil =>
        intro nodes' vars hnodes
        rw [List.map_eq_nil_iff.mp hnodes.symm]
        rfl
    | cons n nodes ih =>
        intro nodes' vars hnodes
        obtain ⟨n', nodes', rfl, hn, hrest⟩ := List.map_eq_cons_iff.mp hnodes.symm
        have hzeros : g.withZeros inputs vars n = g'.withZeros inputs vars n' := by
          unfold Graph.withZeros
          rw [show n.varId = n'.varId from congrArg Operation.varId hn.symm,
            show n.inputs = n'.inputs from congrArg Operation.inputs hn.symm]
          simp only [h.initialValue]
        rw [List.foldl_cons, List.foldl_cons, hzeros]
        exact ih nodes' _ hrest.symm
  exact hfold g.nodes g'.nodes vars h.operations

theorem stepValues (h : g.Same g') (run : Operation → List DType → Meaning) {n : Node ε} {n' : Node δ}
    (hn : n.toOperation = n'.toOperation) : g.stepValues run n = g'.stepValues run n' := by
  obtain ⟨operation, inline⟩ := n
  obtain ⟨operation', inline'⟩ := n'
  obtain rfl : operation = operation' := hn
  have hbind : g.bindValue = g'.bindValue := by
    funext op entry
    unfold Graph.bindValue Graph.checkOutput
    rw [h.tensors]
  unfold Graph.stepValues
  rw [hbind, h.typesOf]
  rfl

/-- Both are walked alike. -/
theorem walkValues (h : g.Same g') (run : Operation → List DType → Meaning) (inputs : List Value)
    (vars : VariableValues) : g.walkValues run inputs vars = g'.walkValues run inputs vars := by
  have hforM : ∀ (nodes : List (Node ε)) (nodes' : List (Node δ)),
      nodes.map (·.toOperation) = nodes'.map (·.toOperation) →
      (nodes.forM (g.stepValues run) : Walk Unit) = nodes'.forM (g'.stepValues run) := by
    intro nodes
    induction nodes with
    | nil =>
        intro nodes' hnodes
        rw [List.map_eq_nil_iff.mp hnodes.symm]
        rfl
    | cons n nodes ih =>
        intro nodes' hnodes
        obtain ⟨n', nodes', rfl, hn, hrest⟩ := List.map_eq_cons_iff.mp hnodes.symm
        show (g.stepValues run n >>= fun _ => nodes.forM (g.stepValues run)) = _
        rw [h.stepValues run hn.symm, ih nodes' hrest.symm]
        rfl
  unfold Graph.walkValues Graph.initialValuation
  rw [hforM g.nodes g'.nodes h.operations, h.foldl_withZeros, h.parameterHandles]

/-- Both mean the same. -/
theorem meaning (h : g.Same g') (run : Operation → List DType → Meaning) (places : Nat) :
    g.meaning run places = g'.meaning run places := by
  funext inputs
  unfold Graph.meaning
  simp only [h.checkValues, h.walkValues]

end Same

end Graph

/-! ### Nesting -/

/-- The common shape of some values; the first without shape is refused when its turn comes. -/
def Value.commonShape (vs : List Value) : Except Error Shape :=
  vs.foldlM (fun shape v => do Shape.broadcast shape (← v.resolvedShape)) []

/-- What a graph means as the body of an operator, which looks at its operands before. -/
def Graph.bodyMeaning (body : Graph ε) (run : Operation → List DType → Meaning) (places : Nat) :
    Meaning := fun xs => do
  body.checkValues places xs
  discard (Value.commonShape xs : Effect VariableValues Shape)
  body.meaning run places xs

theorem Graph.Same.bodyMeaning {g : Graph ε} {g' : Graph δ} (h : g.Same g')
    (run : Operation → List DType → Meaning) (places : Nat) :
    g.bodyMeaning run places = g'.bodyMeaning run places := by
  funext xs
  unfold Graph.bodyMeaning
  rw [h.checkValues, h.meaning]

/-- What runs a node: a reference operator, or a body whose nodes are run, each by the scheme for its
id. -/
inductive Scheme where
  | reference (op : ReferenceOp)
  | fused (body : Graph Unit) (inner : Nat → Scheme)

/-- What an operation run by a scheme means.  A body sees the variables of its surroundings. -/
def Scheme.meaning [HalfConversion] : Scheme → Operation → List DType → Meaning
  | reference op, operation, outs => op.meaning operation outs
  | fused body inner, _, outs =>
    body.bodyMeaning (fun operation => (inner operation.id).meaning operation) outs.length

end TensorGraph
