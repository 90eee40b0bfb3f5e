import TensorGraph.Error
import TensorGraph.Graph.Node

/-!
# Graphs

A graph is a list of tensor descriptions and a list of nodes in order of execution.  It is checked
once, when it is put together: each node reads only what an earlier node produced, each tensor has
one producer, a parameter has no inputs and one output, and a result has one input and one output
of one element type.  `Graph` carries the outcome of that check, so that whoever runs a graph need
not check again.
-/

namespace TensorGraph

/-- The ways in which a list of nodes fails to be a graph. -/
inductive GraphDefect where
  | unknownInput (node : Nat) (op : OpType) (input : Handle)
  | readBeforeProduced (node : Nat) (op : OpType) (input : Handle)
  | unknownOutput (node : Nat) (output : Handle)
  | producedTwice (output : Handle) (first second : Nat)
  | parameterForm (node : Nat)
  | resultForm (node : Nat)
  | resultType (node : Nat) (input output : DType)
  | noProducer (tensor : Handle)
deriving DecidableEq, Repr

namespace GraphDefect

/-- The wording of a defect. -/
def message : GraphDefect → String
  | unknownInput node op input =>
    "node " ++ toString node ++ " (" ++ op.name ++ ") reads unknown tensor " ++ input.describe
  | readBeforeProduced node op input =>
    "node " ++ toString node ++ " (" ++ op.name ++ ") reads " ++ input.describe
      ++ " before it is produced"
  | unknownOutput node output =>
    "node " ++ toString node ++ " writes unknown tensor " ++ output.describe
  | producedTwice output first second =>
    "tensor " ++ output.describe ++ " produced by nodes " ++ toString first ++ " and "
      ++ toString second
  | parameterForm node =>
    "parameter node " ++ toString node ++ " must have no inputs and one output"
  | resultForm node => "result node " ++ toString node ++ " must have one input and one output"
  | resultType node input output =>
    "result node " ++ toString node ++ " changes dtype " ++ input.shortName ++ " to "
      ++ output.shortName
  | noProducer tensor => "tensor " ++ tensor.describe ++ " has no producer"

end GraphDefect

/-- For each tensor the node that produces it, as far as it is known. -/
abbrev Producers := List (Option Nat)

namespace Producers

variable {ε : Type}

/-- Refuses an input that is no tensor of the graph or that no earlier node produced. -/
def read (p : Producers) (node : Node ε) (input : Handle) : Except GraphDefect Unit :=
  match p[input]? with
  | none => .error (.unknownInput node.id node.op input)
  | some none => .error (.readBeforeProduced node.id node.op input)
  | some (some _) => .ok ()

/-- Enters a node as producer of a tensor that has none yet. -/
def produce (node : Node ε) (p : Producers) (output : Handle) : Except GraphDefect Producers :=
  match p[output]? with
  | none => .error (.unknownOutput node.id output)
  | some (some first) => .error (.producedTwice output first node.id)
  | some none => .ok (p.set output (some node.id))

end Producers

namespace Graph

variable {ε : Type}

/-- Checks the number of operands of parameters and results, and that a result keeps its type. -/
def checkForm (tensors : List TensorDesc) (node : Node ε) : Except GraphDefect Unit :=
  if node.isParameter then
    match node.inputs, node.outputs with
    | [], [_] => .ok ()
    | _, _ => .error (.parameterForm node.id)
  else if node.isResult then
    match node.inputs, node.outputs with
    | [input], [output] =>
      match tensors[input]?, tensors[output]? with
      | some source, some target =>
        if source.dtype = target.dtype then .ok ()
        else .error (.resultType node.id source.dtype target.dtype)
      | _, _ => .ok ()
    | _, _ => .error (.resultForm node.id)
  else .ok ()

/-- Checks one node against the producers so far and enters it. -/
def checkNode (tensors : List TensorDesc) (p : Producers) (node : Node ε) :
    Except GraphDefect Producers := do
  node.inputs.forM (p.read node)
  let p ← node.outputs.foldlM (Producers.produce node) p
  checkForm tensors node
  return p

/-- Checks that every tensor has a producer. -/
def checkProduced (p : Producers) : Except GraphDefect Unit :=
  match p.findIdx? Option.isNone with
  | some tensor => .error (.noProducer tensor)
  | none => .ok ()

/-- Checks a list of numbered nodes over a list of tensor descriptions; the first defect in order
of execution is reported. -/
def check (tensors : List TensorDesc) (nodes : List (Node ε)) : Except GraphDefect Unit := do
  let p ← nodes.foldlM (checkNode tensors) (List.replicate tensors.length none)
  checkProduced p

end Graph

/-- Tensor descriptions and nodes that passed the check, in order of execution. -/
structure Graph (ε : Type) where
  tensors : List TensorDesc
  nodes : List (Node ε)
  /-- Ids are positions. -/
  numbered : Node.number nodes = nodes
  checked : Graph.check tensors nodes = .ok ()

namespace Graph

variable {ε : Type}

theorem number_number (nodes : List (Node ε)) :
    Node.number (Node.number nodes) = Node.number nodes := by
  simp [Node.number, List.mapIdx_mapIdx, Function.comp_def]

/-- Puts a graph together; the nodes are numbered by their positions. -/
def ofParts (tensors : List TensorDesc) (nodes : List (Node ε)) : Except Error (Graph ε) :=
  match h : check tensors (Node.number nodes) with
  | .ok () => .ok ⟨tensors, Node.number nodes, number_number nodes, h⟩
  | .error defect => .error (.invalidGraph defect.message)

/-- The parameter nodes in order. -/
def parameterNodes (g : Graph ε) : List (Node ε) := g.nodes.filter (·.isParameter)

/-- The result nodes in order. -/
def resultNodes (g : Graph ε) : List (Node ε) := g.nodes.filter (·.isResult)

/-- The ids of the parameter nodes, which are the inputs in order. -/
def parameters (g : Graph ε) : List Nat := g.parameterNodes.map (·.id)

/-- The ids of the result nodes, which are the outputs in order. -/
def results (g : Graph ε) : List Nat := g.resultNodes.map (·.id)

/-- The tensors that the parameters produce. -/
def parameterHandles (g : Graph ε) : List Handle := g.parameterNodes.flatMap (·.outputs)

/-- The tensors that the results produce. -/
def resultHandles (g : Graph ε) : List Handle := g.resultNodes.flatMap (·.outputs)

/-- The descriptions of the inputs. -/
def parameterDescs (g : Graph ε) : List TensorDesc := g.parameterHandles.filterMap (g.tensors[·]?)

/-- The descriptions of the outputs. -/
def resultDescs (g : Graph ε) : List TensorDesc := g.resultHandles.filterMap (g.tensors[·]?)

/-- The description of an input. -/
def parameterDesc (g : Graph ε) (index : Nat) : Except Error TensorDesc :=
  match g.parameterDescs[index]? with
  | some desc => .ok desc
  | none => .error (.indexOutOfBounds index g.parameters.length)

/-- The description of an output. -/
def resultDesc (g : Graph ε) (index : Nat) : Except Error TensorDesc :=
  match g.resultDescs[index]? with
  | some desc => .ok desc
  | none => .error (.indexOutOfBounds index g.results.length)

/-- The evaluators that nodes bring along. -/
def inlineEvaluators (g : Graph ε) : List ε := g.nodes.filterMap (·.inline)

/-- The graph as a record. -/
def describe (g : Graph ε) : String :=
  let ids (is : List Nat) : String :=
    Text.bracketed (is.map fun i => "NodeId(" ++ toString i ++ ")")
  Text.record "Graph" [("tensors", Text.bracketed (g.tensors.map (·.describe))),
    ("nodes", Text.bracketed (g.nodes.map (·.describe))), ("parameters", ids g.parameters),
    ("results", ids g.results)]

end Graph

end TensorGraph
