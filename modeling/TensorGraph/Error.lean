import TensorGraph.DType
import TensorGraph.Text.Listing

/-!
# Errors

Everything that can go wrong while a graph is built, planned or run is one value of `Error`, named
for its cause and carrying what the message needs.  `Error.kind` is the name of the cause, and
`Error.message` is the wording.  Two classes of causes have a name: `Error.isConfiguration` (the
graph, the registry or the call is set up wrongly) and `Error.isShape` (shapes or element types do
not fit).
-/

namespace TensorGraph

/-- The causes of failure. -/
inductive Error where
  /-- A tensor has another shape than it must have; an open extent counts as 0. -/
  | shapeMismatch (expected got : List Nat)
  /-- Two shapes have no common broadcast shape. -/
  | broadcast (lhs rhs : List Nat)
  /-- An operation does not know the element type. -/
  | unsupportedDType (dtype : DType) (operation : String)
  /-- A tensor has another element type than it must have. -/
  | dtypeMismatch (expected got : DType)
  /-- Nothing evaluates the operator. -/
  | missingEvaluator (operator : String)
  /-- A fused operator has a boundary tensor of too high a rank. -/
  | unsupportedRank (rank max : Nat)
  /-- The number of inputs is not the number of parameters. -/
  | inputCount (expected got : Nat)
  /-- The number of output slots is not the number of results. -/
  | outputCount (expected got : Nat)
  /-- The boundary tensors of a fused operator disagree on memory order. -/
  | memoryOrder (position : Nat) (expected got : List Nat)
  /-- A graph violates a structural rule. -/
  | invalidGraph (reason : String)
  /-- An argument is not acceptable. -/
  | invalidArgument (argument reason : String)
  /-- A shape had to be known and is not. -/
  | dynamicShape (tensor : String)
  /-- An operator left an output without a shape. -/
  | unresolvedShape (operator : String) (output : Nat)
  /-- A tensor was read before a node produced it. -/
  | unboundTensor (tensor : String)
  /-- An index is not below the number of entries. -/
  | indexOutOfBounds (index size : Nat)
  /-- The evaluator of an operator failed. -/
  | evaluationFailed (operator reason : String)
  /-- A kernel reported a failure. -/
  | kernelFailed (reason : String)
  /-- Anything else. -/
  | internal (reason : String)
deriving DecidableEq, Repr

namespace Error

/-- The name of a cause, by which a program can tell it from others whatever the wording. -/
def kind : Error → String
  | shapeMismatch .. => "ShapeMismatch"
  | broadcast .. => "BroadcastError"
  | unsupportedDType .. => "UnsupportedDType"
  | dtypeMismatch .. => "DTypeMismatch"
  | missingEvaluator .. => "MissingEvaluator"
  | unsupportedRank .. => "UnsupportedRank"
  | inputCount .. => "InputCountMismatch"
  | outputCount .. => "OutputCountMismatch"
  | memoryOrder .. => "LayoutMismatch"
  | invalidGraph .. => "InvalidGraph"
  | invalidArgument .. => "InvalidArgument"
  | dynamicShape .. => "DynamicShape"
  | unresolvedShape .. => "UnresolvedShape"
  | unboundTensor .. => "UnboundTensor"
  | indexOutOfBounds .. => "IndexOutOfBounds"
  | evaluationFailed .. => "EvaluationFailed"
  | kernelFailed .. => "KernelFailed"
  | internal .. => "Internal"

open Text in
/-- The wording of a failure. -/
def message : Error → String
  | shapeMismatch expected got =>
    "Shape mismatch: expected " ++ numbers expected ++ ", got " ++ numbers got
  | broadcast lhs rhs => "Cannot broadcast shapes " ++ numbers lhs ++ " and " ++ numbers rhs
  | unsupportedDType dtype operation =>
    "Unsupported dtype " ++ dtype.tag ++ " for operation '" ++ operation ++ "'"
  | dtypeMismatch expected got =>
    "DType mismatch: expected " ++ expected.tag ++ ", got " ++ got.tag
  | missingEvaluator operator =>
    "No evaluator registered for operator type '" ++ operator ++ "'"
  | unsupportedRank rank max =>
    "Rank " ++ toString rank ++ " exceeds the supported maximum of " ++ toString max
  | inputCount expected got =>
    "Expected " ++ toString expected ++ " inputs, got " ++ toString got
  | outputCount expected got =>
    "Expected " ++ toString expected ++ " output slots, got " ++ toString got
  | memoryOrder position expected got =>
    "Memory order " ++ numbers got ++ " of port " ++ toString position
      ++ " is incompatible with " ++ numbers expected
  | invalidGraph reason => "Invalid graph: " ++ reason
  | invalidArgument argument reason => "Invalid argument '" ++ argument ++ "': " ++ reason
  | dynamicShape tensor => "Tensor " ++ tensor ++ " has a dynamic shape"
  | unresolvedShape operator output =>
    "Operator '" ++ operator ++ "' did not resolve the shape of output " ++ toString output
  | unboundTensor tensor => "Tensor " ++ tensor ++ " is not bound"
  | indexOutOfBounds index size =>
    "Index " ++ toString index ++ " out of bounds for " ++ toString size ++ " entries"
  | evaluationFailed operator reason =>
    "Evaluation of '" ++ operator ++ "' failed: " ++ reason
  | kernelFailed reason => "Kernel execution failed: " ++ reason
  | internal reason => "Internal error: " ++ reason

/-- Whether the graph, the registry or the call was set up wrongly. -/
def isConfiguration : Error → Bool
  | missingEvaluator .. | unsupportedRank .. | inputCount .. | outputCount .. | memoryOrder ..
  | invalidGraph .. | invalidArgument .. | dynamicShape .. => true
  | _ => false

/-- Whether shapes or element types do not fit. -/
def isShape : Error → Bool
  | shapeMismatch .. | broadcast .. | unresolvedShape .. | dtypeMismatch ..
  | unsupportedDType .. => true
  | _ => false

end Error

end TensorGraph
