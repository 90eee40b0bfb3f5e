import TensorGraph.Execution.Evaluator

/-!
# Operands of the reference operators

The checks that the reference operators share: how many operands they take, that their one output
has the element type of an operand, and that variables are at hand.
-/

namespace TensorGraph

/-- What the reference operators find wrong with the operation they are to evaluate. -/
inductive OperatorFault where
  | inputs (expected got : Nat)
  | outputs (got : Nat)
  | noOutput
  | noVariables
  | noVariable
  | noValue (id : VariableId)
deriving DecidableEq, Repr

namespace OperatorFault

/-- The wording of a fault. -/
def reason : OperatorFault → String
  | inputs expected got =>
    "expected " ++ toString expected ++ " inputs, got " ++ toString got
  | outputs got => "expected one output, got " ++ toString got
  | noOutput => "expected one output"
  | noVariables => "no variable context attached"
  | noVariable => "node has no variable"
  | noValue id => "variable " ++ id.describe ++ " has no value"

/-- The failure of an operation by a fault. -/
def toError (fault : OperatorFault) (operation : Operation) : Error :=
  .evaluationFailed operation.op.name fault.reason

end OperatorFault

namespace Operand

/-- The only input. -/
def one (operation : Operation) : List Tensor → Except Error Tensor
  | [input] => .ok input
  | inputs => .error ((OperatorFault.inputs 1 inputs.length).toError operation)

/-- The two inputs. -/
def two (operation : Operation) : List Tensor → Except Error (Tensor × Tensor)
  | [lhs, rhs] => .ok (lhs, rhs)
  | inputs => .error ((OperatorFault.inputs 2 inputs.length).toError operation)

/-- The only output, which must have the element type of an operand. -/
def output (operation : Operation) (dtype : DType) : List Tensor → Except Error Tensor
  | [out] => if out.dtype = dtype then .ok out else .error (.dtypeMismatch out.dtype dtype)
  | outputs => .error ((OperatorFault.outputs outputs.length).toError operation)

/-- The variables that the context supplies. -/
def «variables» (operation : Operation) (c : Context) : Except Error (Ref Variables) :=
  match c.variables with
  | some r => .ok r
  | none => .error (OperatorFault.noVariables.toError operation)

/-- The variable that the operation names. -/
def variableId (operation : Operation) : Except Error VariableId :=
  match operation.varId with
  | some id => .ok id
  | none => .error (OperatorFault.noVariable.toError operation)

end Operand

end TensorGraph
