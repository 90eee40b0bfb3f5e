import TensorGraph.Shape.Partial

/-!
# Nodes

A node applies an operator to tensors that earlier nodes produced.  Tensors are named by handles,
their positions in the graph's list of descriptions.  What a node is apart from how it is evaluated
is an `Operation`; a `Node` adds the evaluator that it may bring along, of a type that the graph
leaves open.
-/

namespace TensorGraph

/-- The position of a tensor in its graph. -/
abbrev Handle := Nat

/-- A handle as it is written in messages. -/
def Handle.describe (h : Handle) : String := "%" ++ toString h

/-- The name of an operator, by which its evaluator is found. -/
structure OpType where
  name : String
deriving DecidableEq, Repr, Inhabited

namespace OpType

/-- An input of the graph, bound to a tensor of the caller. -/
def parameter : OpType := ⟨"Parameter"⟩
/-- An output of the graph, handed to a slot of the caller. -/
def result : OpType := ⟨"Result"⟩
/-- The larger of each element and zero. -/
def relu : OpType := ⟨"Relu"⟩
/-- Sum of two broadcast operands. -/
def add : OpType := ⟨"Add"⟩
/-- Difference of two broadcast operands. -/
def subtract : OpType := ⟨"Subtract"⟩
/-- Product of two broadcast operands. -/
def multiply : OpType := ⟨"Multiply"⟩
/-- Running sum kept in a variable. -/
def accumulate : OpType := ⟨"Accumulate"⟩
/-- The value of a variable. -/
def readValue : OpType := ⟨"ReadValue"⟩
/-- New value of a variable. -/
def assign : OpType := ⟨"Assign"⟩
/-- Several operators run as one. -/
def fused : OpType := ⟨"Subgraph"⟩

end OpType

/-- The name of a variable that lives longer than a call. -/
structure VariableId where
  name : String
deriving DecidableEq, Repr, Inhabited

/-- A variable's name as it is written in messages. -/
def VariableId.describe (v : VariableId) : String := "$" ++ v.name

/-- What a node is, apart from how it is evaluated. -/
structure Operation where
  /-- Position in the order of execution. -/
  id : Nat
  op : OpType
  name : Option String
  inputs : List Handle
  outputs : List Handle
  varId : Option VariableId
deriving DecidableEq, Repr, Inhabited

/-- An operation together with the evaluator that it brings along, if any. -/
structure Node (ε : Type) extends Operation where
  inline : Option ε

namespace Node

variable {ε : Type}

/-- Whether the node binds an input of the caller. -/
def isParameter (n : Node ε) : Bool := n.op == OpType.parameter

/-- Whether the node hands a value to the caller. -/
def isResult (n : Node ε) : Bool := n.op == OpType.result

/-- The nodes with their positions as ids. -/
def number (nodes : List (Node ε)) : List (Node ε) :=
  nodes.mapIdx fun i n => { n with id := i }

@[simp] theorem length_number (nodes : List (Node ε)) : (number nodes).length = nodes.length := by
  simp [number]

theorem id_number {nodes : List (Node ε)} {i : Nat} {n : Node ε} (h : (number nodes)[i]? = some n) :
    n.id = i := by
  simp only [number, List.getElem?_mapIdx, Option.map_eq_some_iff] at h
  obtain ⟨_, _, rfl⟩ := h
  rfl

/-- The node as a record. -/
def describe (n : Node ε) : String :=
  let handles (hs : List Handle) : String :=
    Text.bracketed (hs.map fun h => "TensorHandle(" ++ toString h ++ ")")
  Text.record "Node" [("id", toString n.id), ("op_type", n.op.name), ("inputs", handles n.inputs),
    ("outputs", handles n.outputs), ("variable", Text.optional (n.varId.map (·.describe))),
    ("inline", toString n.inline.isSome)]

end Node

/-- What is said of a node that is to be appended to a graph: its operands are handles, its outputs
are descriptions of tensors that it will produce. -/
structure NodeSpec (ε : Type) where
  op : OpType
  name : Option String
  inputs : List Handle
  outputs : List TensorDesc
  varId : Option VariableId
  inline : Option ε

end TensorGraph
