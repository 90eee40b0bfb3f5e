import Mathlib.Data.Option.Basic
import Mathlib.Logic.Function.Basic
import TensorGraph.Graph.Basic
import TensorGraph.Operators.Reference

/-! # Graphs as functions of values

A `Value` is what can be seen of a tensor: its element type, its shape and its bytes, but not the buffer
in which these lie.  A valuation walks the nodes of a graph in order and gives each tensor a value
once; nothing is allocated, shared or used again.

`Graph.valuate` is the walk for values of any kind and any way to apply a node.  `Graph.denote` is the
walk with the reference operators on `Value`s: from the values of inputs and variables to the values of
the results and of the variables afterwards. -/

namespace TensorGraph

/-- What can be seen of a tensor. -/
structure Value where
  dtype : DType
  shape : Option Shape
  bytes : Bytes
deriving DecidableEq, Repr

/-- The value of a tensor. -/
def Tensor.value (t : Tensor) (s : Store) : Value := ⟨t.dtype, t.shape, t.bytes s⟩

/-- The values of variables, as far as they have one. -/
abbrev VariableValues := VariableId → Option Value

/-! ### Operators on values -/

namespace Value

/-- The bits of the elements. -/
def elements (v : Value) : List Nat := v.dtype.elements v.bytes

/-- The value that has the given elements. -/
def ofElements (dtype : DType) (shape : Shape) (xs : List Nat) : Value :=
  ⟨dtype, some shape, dtype.bytes xs⟩

/-- The value of which every byte is zero. -/
def zeros (dtype : DType) (shape : Shape) : Value :=
  ⟨dtype, some shape, Array.replicate (shape.size * dtype.size) 0⟩

/-- Whether a value is an instance of a description. -/
def IsInstance (desc : TensorDesc) (v : Value) : Prop :=
  v.dtype = desc.dtype ∧ v.shape.any desc.shape.accepts = true

instance (desc : TensorDesc) (v : Value) : Decidable (v.IsInstance desc) :=
  inferInstanceAs (Decidable (_ ∧ _))

variable [HalfConversion]

/-- The positive parts of the elements. -/
def relu (x : Value) : Option Value := do
  let shape ← x.shape
  return .ofElements x.dtype shape (Elementwise.mapElements x.dtype Elementwise.positivePart x.elements)

/-- The elements of two values of one element type, combined over their common shape. -/
def binary (f : Float → Float → Float) (x y : Value) : Option Value := do
  guard (x.dtype = y.dtype)
  let left ← x.shape
  let right ← y.shape
  let shape ← Shape.broadcast? left right
  let leftView ← (Layout.contiguous left).broadcastTo? shape
  let rightView ← (Layout.contiguous right).broadcastTo? shape
  return .ofElements x.dtype shape (Elementwise.zipElements x.dtype f
    (Elementwise.gather x.elements leftView) (Elementwise.gather y.elements rightView))

/-- Two operands combined; any other number of them gives no value. -/
def combine (f : Float → Float → Float) : List Value → Option Value
  | [x, y] => binary f x y
  | _ => none

/-- A running sum with one more value added to it; without a sum so far, to zero. -/
def accumulate (sum? : Option Value) (x : Value) : Option Value := do
  let shape ← x.shape
  let sum := sum?.getD (.zeros x.dtype shape)
  guard (sum.dtype = x.dtype ∧ sum.shape = some shape)
  return .ofElements x.dtype shape
    (Elementwise.zipElements x.dtype (· + ·) sum.elements x.elements)

theorem relu_eq_some {x v : Value} :
    x.relu = some v ↔ ∃ shape, x.shape = some shape ∧
      .ofElements x.dtype shape
        (Elementwise.mapElements x.dtype Elementwise.positivePart x.elements) = v := by
  simp [relu, Option.bind_eq_some_iff]

theorem binary_eq_some {f : Float → Float → Float} {x y v : Value} :
    binary f x y = some v ↔ x.dtype = y.dtype ∧ ∃ left right shape leftView rightView,
      x.shape = some left ∧ y.shape = some right ∧ Shape.broadcast? left right = some shape ∧
      (Layout.contiguous left).broadcastTo? shape = some leftView ∧
      (Layout.contiguous right).broadcastTo? shape = some rightView ∧
      .ofElements x.dtype shape (Elementwise.zipElements x.dtype f
        (Elementwise.gather x.elements leftView) (Elementwise.gather y.elements rightView)) = v := by
  simp [binary, Option.bind_eq_some_iff, Option.guard_eq_some']

theorem combine_eq_some {f : Float → Float → Float} {xs : List Value} {v : Value} :
    combine f xs = some v ↔ ∃ x y, xs = [x, y] ∧ binary f x y = some v := by
  unfold combine
  split
  · constructor
    · intro h
      exact ⟨_, _, rfl, h⟩
    · rintro ⟨x, y, hxs, h⟩
      cases hxs
      exact h
  · simp_all

theorem accumulate_eq_some {sum? : Option Value} {x v : Value} :
    accumulate sum? x = some v ↔ ∃ shape, x.shape = some shape ∧
      (sum?.getD (.zeros x.dtype shape)).dtype = x.dtype ∧
      (sum?.getD (.zeros x.dtype shape)).shape = some shape ∧
      .ofElements x.dtype shape (Elementwise.zipElements x.dtype (· + ·)
        (sum?.getD (.zeros x.dtype shape)).elements x.elements) = v := by
  simp [accumulate, Option.bind_eq_some_iff, Option.guard_eq_some', and_assoc]

end Value

namespace ReferenceOp

variable [HalfConversion]

/-- The value that a reference operator makes of its inputs, and the variables afterwards. -/
def denote (op : ReferenceOp) (varId : Option VariableId) (inputs : List Value)
    (vars : VariableValues) : Option (Value × VariableValues) :=
  match op, inputs with
  | relu, [x] => x.relu.map (·, vars)
  | add, inputs => (Value.combine (· + ·) inputs).map (·, vars)
  | subtract, inputs => (Value.combine (· - ·) inputs).map (·, vars)
  | multiply, inputs => (Value.combine (· * ·) inputs).map (·, vars)
  | accumulate, [x] => do
    let id ← varId
    let sum ← Value.accumulate (vars id) x
    return (sum, Function.update vars id (some sum))
  | readValue, inputs => do
    let id ← varId
    let value ← (vars id).or inputs.head?
    return (value, vars)
  | assign, [x] => do
    let id ← varId
    return (x, Function.update vars id (some x))
  | _, _ => none

theorem denote_accumulate_eq_some {varId : Option VariableId} {inputs : List Value}
    {vars vars' : VariableValues} {v : Value} :
    denote .accumulate varId inputs vars = some (v, vars') ↔
      ∃ x id, inputs = [x] ∧ varId = some id ∧ Value.accumulate (vars id) x = some v ∧
        vars' = Function.update vars id (some v) := by
  rcases inputs with _ | ⟨x, _ | ⟨y, inputs⟩⟩
  · simp [denote]
  · simp only [denote, Option.bind_eq_bind, Option.bind_eq_some_iff, Option.pure_def,
      Option.some.injEq, Prod.mk.injEq]
    constructor
    · rintro ⟨id, hid, sum, hsum, rfl, rfl⟩
      exact ⟨x, id, rfl, hid, hsum, rfl⟩
    · rintro ⟨_, id, hx, hid, hsum, rfl⟩
      obtain rfl := List.singleton_inj.mp hx
      exact ⟨id, hid, v, hsum, rfl, rfl⟩
  · simp [denote]

end ReferenceOp

/-! ### Valuations -/

/-- A walk over the nodes of a graph: the values given so far, a state that nodes may change, and the
results so far. -/
structure Valuation (α S : Type) where
  env : Handle → Option α
  state : S
  results : List α

namespace Valuation

variable {ε α S : Type}

/-- Some tensors are given one value. -/
def bind (v : Valuation α S) (hs : List Handle) (a : α) : Valuation α S :=
  { v with env := fun h => if h ∈ hs then some a else v.env h }

/-- One node: a parameter has its value already, a result passes its value on, and any other node is
applied to the values of what it reads. -/
def step (apply : Node ε → List α → S → Option (α × S)) (v : Valuation α S) (n : Node ε) :
    Option (Valuation α S) :=
  if n.isParameter then some v
  else do
    let inputs ← n.inputs.mapM v.env
    if n.isResult then
      match inputs with
      | [] => return v
      | a :: _ => return { v.bind n.outputs a with results := v.results ++ [a] }
    else
      let (a, state) ← apply n inputs v.state
      return { v.bind n.outputs a with state := state }

/-- Only a result adds to the results. -/
theorem results_step {apply : Node ε → List α → S → Option (α × S)} {v v' : Valuation α S}
    {n : Node ε} (hparameter : ¬ n.isParameter = true) (hresult : ¬ n.isResult = true)
    (h : v.step apply n = some v') : v'.results = v.results := by
  rw [step, if_neg hparameter] at h
  obtain ⟨inputs, _, h⟩ := Option.bind_eq_some_iff.mp h
  rw [if_neg hresult] at h
  obtain ⟨p, _, h⟩ := Option.bind_eq_some_iff.mp h
  exact (Option.some.inj h).symm ▸ rfl

end Valuation

namespace Graph

variable {ε α S : Type}

/-- The valuation before the first node: the parameters have the values of the inputs. -/
def initialValuation (g : Graph ε) (inputs : List α) (state : S) : Valuation α S :=
  (g.parameterHandles.zip inputs).foldl (fun v (h, a) => v.bind [h] a) ⟨fun _ => none, state, []⟩

/-- Before the first node there are no results. -/
theorem results_initialValuation (g : Graph ε) (inputs : List α) (state : S) :
    (g.initialValuation inputs state).results = [] ∧
      (g.initialValuation inputs state).state = state := by
  have hfold : ∀ (pairs : List (Handle × α)) (v : Valuation α S),
      (pairs.foldl (fun v (h, a) => v.bind [h] a) v).results = v.results ∧
      (pairs.foldl (fun v (h, a) => v.bind [h] a) v).state = v.state := by
    intro pairs
    induction pairs with
    | nil => exact fun _ => ⟨rfl, rfl⟩
    | cons p pairs ih => exact fun v => ih (v.bind [p.1] p.2)
  exact hfold _ _

/-- The valuation after the last node. -/
def valuate (g : Graph ε) (apply : Node ε → List α → S → Option (α × S)) (inputs : List α)
    (state : S) : Option (Valuation α S) :=
  g.nodes.foldlM (Valuation.step apply) (g.initialValuation inputs state)

/-- The zeros from which the variable of an operation starts, if their shape is known before the graph
runs: it is that of the operation's first input. -/
def initialValue (g : Graph ε) (inputs : List Value) (first : Handle) : Option Value :=
  match g.parameterHandles.idxOf? first with
  | some position => do
    let v ← inputs[position]?
    let shape ← v.shape
    return .zeros v.dtype shape
  | none => do
    let desc ← g.tensors[first]?
    let shape ← desc.shape.toShape?
    return .zeros desc.dtype shape

/-- The variables with zeros for the one of a node, if it has no value. -/
def withZeros (g : Graph ε) (inputs : List Value) (vars : VariableValues) (n : Node ε) :
    VariableValues :=
  match n.varId, n.inputs with
  | some id, first :: _ =>
    Function.update vars id ((vars id).or (g.initialValue inputs first))
  | _, _ => vars

variable [HalfConversion]

/-- A node applied by its reference operator; the value must be one that its output may have. -/
def applyReference (g : Graph ε) (kind : Node ε → ReferenceOp) (n : Node ε) (inputs : List Value)
    (vars : VariableValues) : Option (Value × VariableValues) := do
  let (value, vars) ← (kind n).denote n.varId inputs vars
  let desc ← n.outputs.head?.bind (g.tensors[·]?)
  guard (value.shape.isSome = true ∧ value.dtype = desc.dtype)
  return (value, vars)

/-- The results and the variables that a graph of reference operators makes of its inputs and of the
variables, for a number of places for results. -/
def denote (g : Graph ε) (kind : Node ε → ReferenceOp) (places : Nat) (inputs : List Value)
    (vars : VariableValues) : Option (List Value × VariableValues) := do
  guard (inputs.length = g.parameters.length ∧ places = g.results.length ∧
    ∀ p ∈ g.parameterDescs.zip inputs, p.2.IsInstance p.1)
  let v ← g.valuate (g.applyReference kind) inputs (g.nodes.foldl (g.withZeros inputs) vars)
  return (v.results, v.state)

end Graph

end TensorGraph
