import TensorGraph.Graph.Basic
import TensorGraph.Shape.Broadcast

/-!
# Building graphs

A `GraphBuilder` collects tensor descriptions and nodes in order of execution.  Every handle that it
gives out names a tensor that the appended node produces, so that a later node can only read what an
earlier one produces.  A call that fails changes nothing.
-/

namespace TensorGraph

/-- The parts of a graph that is being put together. -/
structure GraphBuilder (ε : Type) where
  tensors : List TensorDesc
  nodes : List (Node ε)

namespace GraphBuilder

variable {ε : Type}

/-- A builder without parts. -/
def empty : GraphBuilder ε := ⟨[], []⟩

/-- The description of a tensor that the builder knows. -/
def desc (b : GraphBuilder ε) (h : Handle) : Except Error TensorDesc :=
  match b.tensors[h]? with
  | some desc => .ok desc
  | none => .error (.invalidGraph ("tensor " ++ h.describe ++ " does not belong to this graph"))

/-- Appends a node, without any check, and gives the handles of its outputs. -/
def append (b : GraphBuilder ε) (spec : NodeSpec ε) : List Handle × GraphBuilder ε :=
  let handles := List.range' b.tensors.length spec.outputs.length
  (handles,
    { tensors := b.tensors ++ spec.outputs
      nodes := b.nodes ++ [⟨⟨b.nodes.length, spec.op, spec.name, spec.inputs, handles, spec.varId⟩,
        spec.inline⟩] })

/-- Appends an input of the graph. -/
def parameter (b : GraphBuilder ε) (desc : TensorDesc) : Handle × GraphBuilder ε :=
  (b.tensors.length, (b.append ⟨.parameter, none, [], [desc], none, none⟩).2)

/-- Appends a node whose operands the builder knows; inputs have their own way in. -/
def add (b : GraphBuilder ε) (spec : NodeSpec ε) : Except Error (List Handle × GraphBuilder ε) := do
  if spec.op = .parameter then
    throw (.invalidGraph "parameters are added with GraphBuilder::parameter")
  spec.inputs.forM fun h => discard (b.desc h)
  return b.append spec

/-- Appends a node with one output and gives its handle. -/
def addOne (b : GraphBuilder ε) (op : OpType) (inputs : List Handle) (output : TensorDesc) :
    Except Error (Handle × GraphBuilder ε) := do
  let (_, b') ← b.add ⟨op, none, inputs, [output], none, none⟩
  return (b.tensors.length, b')

/-- Appends an output of the graph, which has the description of the value that it hands on. -/
def result (b : GraphBuilder ε) (value : Handle) : Except Error (Handle × GraphBuilder ε) := do
  b.addOne .result [value] (← b.desc value)

/-- The description of what an elementwise operator makes of its operands, as far as it is known
after some of them: the highest rank, and the common shape while all shapes are known. -/
structure Inferred where
  rank : Nat
  shape : Option Shape

/-- Takes one more operand into account. -/
def Inferred.join (i : Inferred) (desc : TensorDesc) : Except Error Inferred := do
  let rank := max i.rank desc.shape.length
  match i.shape, desc.shape.toShape? with
  | some acc, some shape => return ⟨rank, some (← Shape.broadcast acc shape)⟩
  | _, _ => return ⟨rank, none⟩

/-- The common shape of the operands if all are known, else an open shape of the highest rank. -/
def inferShape (b : GraphBuilder ε) (inputs : List Handle) : Except Error PartialShape := do
  let inferred ← inputs.foldlM (fun i h => do i.join (← b.desc h)) (⟨0, some []⟩ : Inferred)
  return match inferred.shape with
    | some shape => .ofShape shape
    | none => .dynamic inferred.rank

/-- Appends an elementwise operator: one output, of the element type of the first operand and of
the inferred shape. -/
def op (b : GraphBuilder ε) (op : OpType) (inputs : List Handle) :
    Except Error (Handle × GraphBuilder ε) := do
  match inputs with
  | [] => throw (.invalidArgument "inputs" "at least one input is required")
  | first :: _ =>
    let dtype := (← b.desc first).dtype
    let shape ← b.inferShape inputs
    b.addOne op inputs ⟨dtype, shape⟩

/-- Checks the parts and makes them a graph. -/
def build (b : GraphBuilder ε) : Except Error (Graph ε) := Graph.ofParts b.tensors b.nodes

end GraphBuilder

end TensorGraph
