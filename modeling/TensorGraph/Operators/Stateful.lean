import TensorGraph.Operators.Elementwise

/-!
# Stateful operators

`Accumulate` adds its input to a variable and gives the sum, `Assign` gives a variable the value of
its input, `ReadValue` gives the value of a variable, or of its input as long as there is none.
Values go into variables and come out of them as copies with buffers of their own.
-/

namespace TensorGraph.Stateful

variable {σ : Type} [HalfConversion]

/-- The value of a variable. -/
def value? (r : Ref Variables) (id : VariableId) : Run σ (Option Tensor) :=
  return ((← get).variables.get r).get? id

/-- Gives a variable a value. -/
def setValue (r : Ref Variables) (id : VariableId) (t : Tensor) : Run σ Unit :=
  modify fun w => w.putVariables r ((w.variables.get r).set id t)

/-- The value of a variable; a variable without one gets the value that `init` makes. -/
def valueOrInit (r : Ref Variables) (id : VariableId) (init : Store → Tensor × Store) :
    Run σ Tensor := do
  match ← value? r id with
  | some t => return t
  | none =>
    let t ← Run.onStore init
    setValue r id t
    return t

/-- A copy of a value, with a buffer of its own. -/
def copy (t : Tensor) : Run σ Tensor := Run.onStore t.deepCopy

/-- The variable, zero if it had no value, grows by the input; the output is a copy of it. -/
def accumulate (operation : Operation) (outputs inputs : List Tensor) (c : Context) :
    Run σ (List Tensor) := do
  let input ← Operand.one operation inputs
  let shape ← input.resolvedShape
  let vars ← Operand.variables operation c
  let id ← Operand.variableId operation
  let sum ← valueOrInit vars id (Tensor.zeros input.dtype shape)
  if sum.dtype ≠ input.dtype then
    throw (.dtypeMismatch sum.dtype input.dtype)
  if sum.shape ≠ some shape then
    throw (.shapeMismatch sum.extents shape)
  let xs ← Run.elements sum
  let ys ← Run.elements input
  let next ← Run.onStore (Tensor.zeros input.dtype shape)
  Run.setElements next (Elementwise.zipElements input.dtype (· + ·) xs ys)
  setValue vars id next
  discard (Operand.output operation input.dtype outputs)
  return [← copy next]

/-- The output is a copy of the variable, or of the first input if the variable has no value. -/
def readValue (operation : Operation) (outputs inputs : List Tensor) (c : Context) :
    Run σ (List Tensor) := do
  let vars ← Operand.variables operation c
  let id ← Operand.variableId operation
  let source ← match ← value? vars id, inputs with
    | some t, _ => pure t
    | none, init :: _ => pure init
    | none, [] => throw ((OperatorFault.noValue id).toError operation)
  let value ← copy source
  match outputs with
  | [] => throw (OperatorFault.noOutput.toError operation)
  | _ :: rest => return value :: rest

/-- The variable gets a copy of the input, and so does the output. -/
def assign (operation : Operation) (outputs inputs : List Tensor) (c : Context) :
    Run σ (List Tensor) := do
  let input ← Operand.one operation inputs
  let vars ← Operand.variables operation c
  let id ← Operand.variableId operation
  setValue vars id (← copy input)
  discard (Operand.output operation input.dtype outputs)
  return [← copy input]

end TensorGraph.Stateful
