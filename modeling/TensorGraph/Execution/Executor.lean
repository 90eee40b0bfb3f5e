import TensorGraph.Execution.Bindings
import TensorGraph.Graph.Basic
import TensorGraph.Operators.Stateful

/-!
# Running graphs

An `Executor` runs one graph.  A call checks the tensors it is given, gives every variable without a
value zeros if it can, binds the inputs to the parameters, and walks the nodes in order: gather what
the node reads, allocate its outputs, evaluate, bind what was produced.  A result node hands its
value to the slot of the caller.

*Reuse.*  An executor that remembers intermediates hands the tensor of the last call out again
if it has the right type and shape and nobody else holds it.

*Cancelling.*  A request to cancel is looked for before and after every node, and obeyed once.
-/

namespace TensorGraph

/-- How a call ended that did not fail. -/
inductive Status where
  /-- Every node ran, and every slot holds its result. -/
  | completed
  /-- A request to cancel was obeyed. -/
  | cancelled
deriving DecidableEq, Repr

/-- A graph, what is needed to run it, and where its state is kept. -/
structure Executor (σ : Type) where
  graph : Graph (Evaluator σ)
  registry : Registry (Evaluator σ)
  config : Config
  «variables» : Ref Variables
  cancel : Ref CancelFlag
  memory : Ref Memory

/-- What a call in progress holds. -/
structure Frame where
  bindings : Bindings
  /-- Tensors of the last call that have not been used again yet. -/
  kept : List (Option Tensor)
  /-- The slots of the caller, as they are now. -/
  slots : List Tensor
  /-- The nodes that have been handed to an evaluator, the last one first. -/
  dispatched : List Nat
deriving DecidableEq, Repr

/-- The tensors that a call in progress holds. -/
def Frame.held (f : Frame) : List Tensor := f.bindings.tensors ++ f.kept.filterMap id ++ f.slots

/-- A computation within a call: it may fail, and what it did to the frame and to the world before
stays done. -/
abbrev Call (σ : Type) := ExceptT Error (StateT Frame (StateM (World σ)))

namespace Call

variable {σ α : Type}

/-- A computation in the world as part of a call. -/
def ofRun (m : Run σ α) : Call σ α := ExceptT.mk (StateT.lift m.run)

/-- The outcome of a computation that starts with a frame, and the frame after it. -/
def outcome (m : Call σ α) (frame : Frame) : Run σ (Except Error α × Frame) :=
  ExceptT.lift (StateT.run m.run frame)

end Call

namespace Executor

variable {σ : Type}

/-- A new executor, which remembers nothing. -/
def create (graph : Graph (Evaluator σ)) (registry : Registry (Evaluator σ)) (config : Config)
    (w : World σ) : Executor σ × World σ :=
  let (vars, w) := w.addVariables
  let (cancel, w) := w.addCancelFlag
  let (memory, w) := w.addMemory
  (⟨graph, registry, config, vars, cancel, memory⟩, w)

/-- Every evaluator that the executor may call. -/
def evaluators (e : Executor σ) : List (Evaluator σ) :=
  e.graph.inlineEvaluators ++ e.registry.evaluators

/-! ### Before the nodes -/

/-- Refuses a tensor that is not an instance of its description. -/
def checkTensor (desc : TensorDesc) (t : Tensor) : Except Error Unit :=
  if t.dtype ≠ desc.dtype then .error (.dtypeMismatch desc.dtype t.dtype)
  else if t.hasShape && desc.shape.accepts t.extents then .ok ()
  else .error (.shapeMismatch desc.shape.extentsOrZero t.extents)

/-- Refuses a wrong number of inputs or slots, and inputs that are no instances of the parameters;
slots are not looked at. -/
def checkOperands (g : Graph (Evaluator σ)) (slots inputs : List Tensor) : Except Error Unit := do
  if inputs.length ≠ g.parameters.length then
    throw (.inputCount g.parameters.length inputs.length)
  if slots.length ≠ g.results.length then
    throw (.outputCount g.results.length slots.length)
  (g.parameterDescs.zip inputs).forM fun (desc, t) => checkTensor desc t

/-- The shape and type from which the variable of an operation starts, if they are known before the
graph runs: those of its first input. -/
def initialDesc (g : Graph (Evaluator σ)) (inputs : List Tensor) (first : Handle) :
    Option TensorDesc :=
  match g.parameterHandles.idxOf? first with
  | some position => (refineDescs g.parameterDescs inputs)[position]?
  | none => g.tensors[first]?

/-- Gives the variable of a node zeros, if it has no value and its shape is known. -/
def initVariable (g : Graph (Evaluator σ)) (vars : Ref Variables) (inputs : List Tensor)
    (node : Node (Evaluator σ)) : Run σ Unit := do
  match node.varId, node.inputs with
  | some id, first :: _ =>
    match initialDesc g inputs first with
    | some desc =>
      match desc.shape.toShape? with
      | some shape => discard (Stateful.valueOrInit vars id (Tensor.zeros desc.dtype shape))
      | none => return
    | none => return
  | _, _ => return

/-- Gives zeros to the variables of all nodes, as far as their shapes are known. -/
def initVariables (g : Graph (Evaluator σ)) (vars : Ref Variables) (inputs : List Tensor) :
    Run σ Unit :=
  g.nodes.forM (initVariable g vars inputs)

/-- The bindings of the parameters. -/
def bindInputs (g : Graph (Evaluator σ)) (inputs : List Tensor) : Bindings :=
  (g.parameterHandles.zip inputs).foldl (fun b (h, t) => b.bind h t)
    (Bindings.empty g.tensors.length)

/-- One entry per handle, whatever the length was. -/
def fitLength (entries : List (Option Tensor)) (length : Nat) : List (Option Tensor) :=
  entries.take length ++ List.replicate (length - entries.length) none

/-- The frame with which a call starts.  An executor that reuses intermediates takes what it
remembers, and remembers nothing while it runs. -/
def openFrame (e : Executor σ) (slots inputs : List Tensor) : Run σ Frame := do
  let size := e.graph.tensors.length
  let remembered ←
    if e.config.reuseIntermediates then do
      let kept := ((← get).memories.get e.memory).intermediates
      Run.modifyMemory e.memory fun m => { m with intermediates := [] }
      pure kept
    else pure []
  return ⟨bindInputs e.graph inputs, fitLength remembered size, slots, []⟩

/-! ### The nodes -/

/-- Looks for a request to cancel and obeys it. -/
def takeCancel (e : Executor σ) : Call σ Bool := Call.ofRun (Run.takeCancel e.cancel)

/-- The tensor bound to a handle. -/
def bound (h : Handle) : Call σ Tensor := do
  (← get).bindings.get h

/-- Whether a tensor can be handed out for a description. -/
def fits (desc : TensorDesc) (t : Tensor) : Bool :=
  t.dtype == desc.dtype &&
    match desc.shape.toShape? with
    | some shape => t.shape == some shape
    | none => true

/-- A new tensor for a description: zeros if the shape is known. -/
def fresh (desc : TensorDesc) (s : Store) : Tensor × Store :=
  match desc.shape.toShape? with
  | some shape => Tensor.zeros desc.dtype shape s
  | none => Tensor.unshaped desc.dtype s

/-- One more output for a node: the tensor kept for its handle, if that fits and nobody else holds
it, and otherwise a new one. -/
def allocate (e : Executor σ) (c : Context) (outputs : List Tensor) (h : Handle) :
    Call σ (List Tensor) := do
  match e.graph.tensors[h]? with
  | none => return outputs
  | some desc =>
    let frame ← get
    let kept := (frame.kept[h]?).join
    let frame := { frame with kept := frame.kept.set h none }
    set frame
    let world ← getThe (World σ)
    match kept.filter fun t =>
        fits desc t && world.isExclusive (outputs ++ frame.held ++ c.held) t.buffer with
    | some t => return outputs ++ [t]
    | none => return outputs ++ [← Call.ofRun (Run.onStore (fresh desc))]

/-- The evaluator of a node: the one it brings along, or else the one registered. -/
def evaluatorOf (e : Executor σ) (node : Node (Evaluator σ)) : Except Error (Evaluator σ) :=
  match node.inline <|> e.registry.get? node.op with
  | some evaluator => .ok evaluator
  | none => .error (.missingEvaluator node.op.name)

/-- Binds an output of a node, which must have a shape and the described element type. -/
def bindOutput (e : Executor σ) (node : Node (Evaluator σ)) (entry : (Handle × Tensor) × Nat) :
    Call σ Unit := do
  let ((h, t), position) := entry
  if !t.hasShape then
    throw (.unresolvedShape node.op.name position)
  match e.graph.tensors[h]? with
  | some desc =>
    if t.dtype ≠ desc.dtype then
      throw (.dtypeMismatch desc.dtype t.dtype)
  | none => pure ()
  modify fun frame => { frame with bindings := frame.bindings.bind h t }

/-- Evaluates a node that is neither a parameter nor a result. -/
def evaluateNode (e : Executor σ) (c : Context) (collect : Bool) (node : Node (Evaluator σ)) :
    Call σ Unit := do
  let inputs ← node.inputs.mapM bound
  let outputs ← node.outputs.foldlM (e.allocate c) []
  let evaluator ← e.evaluatorOf node
  modify fun frame => { frame with dispatched := node.id :: frame.dispatched }
  let frame ← get
  let start := (← getThe (World σ)).clock
  let produced ←
    Call.ofRun (evaluator.apply node.toOperation outputs inputs (c.holding frame.held))
  if collect then
    let elapsed := (← getThe (World σ)).clock - start
    Call.ofRun (Run.modifyMemory e.memory fun m =>
      { m with statistics := m.statistics.record node.toOperation elapsed })
  (node.outputs.zip produced).zipIdx.forM (e.bindOutput node)

/-- The slot after a value was handed to it: a slot without shape, or of another shape or type,
becomes an alias of the value; any other keeps its buffer and gets a copy. -/
def deliver (slot value : Tensor) : Run σ Tensor := do
  if slot.shape.isNone ∨ slot.shape ≠ value.shape ∨ slot.dtype ≠ value.dtype then
    return value
  Run.tryStore fun s => return ((), ← slot.copyFrom value s)
  return slot

/-- Hands the value of a result node to its slot and binds it. -/
def deliverNode (e : Executor σ) (node : Node (Evaluator σ)) : Call σ Unit := do
  match ← node.inputs.mapM bound with
  | [] => return
  | value :: _ =>
    match e.graph.results.idxOf? node.id with
    | none => pure ()
    | some position =>
      match (← get).slots[position]? with
      | none => pure ()
      | some slot =>
        let slot ← Call.ofRun (deliver slot value)
        modify fun frame => { frame with slots := frame.slots.set position slot }
    node.outputs.forM fun h =>
      modify fun frame => { frame with bindings := frame.bindings.bind h value }

/-- Runs the nodes in order, looking for requests to cancel. -/
def runNodes (e : Executor σ) (c : Context) (collect : Bool) :
    List (Node (Evaluator σ)) → Call σ Status
  | [] => return .completed
  | node :: rest => do
    if ← e.takeCancel then
      return .cancelled
    if node.isParameter then
      runNodes e c collect rest
    else if node.isResult then
      e.deliverNode node
      runNodes e c collect rest
    else
      e.evaluateNode c collect node
      if ← e.takeCancel then
        return .cancelled
      runNodes e c collect rest

/-! ### After the nodes -/

/-- What is remembered of a call: what it bound, and what it did not use of what was kept, but no
inputs and no results, which belong to the caller. -/
def remembered (g : Graph (Evaluator σ)) (frame : Frame) : List (Option Tensor) :=
  (frame.kept.zip frame.bindings).mapIdx fun h (kept, bound) =>
    if g.resultHandles.contains h then none
    else if g.parameterHandles.contains h then kept
    else bound <|> kept

/-- Remembers the intermediates of a call, if the executor reuses them. -/
def closeFrame (e : Executor σ) (frame : Frame) : Run σ Unit := do
  if e.config.reuseIntermediates then
    Run.modifyMemory e.memory fun m => { m with intermediates := remembered e.graph frame }

/-! ### Calls -/

/-- The context of the nodes: without variables of the caller those of the executor are used. -/
def contextFor (e : Executor σ) (c : Context) : Context :=
  { c with «variables» := some (c.variables.getD e.variables) }

/-- Runs the graph on inputs, with slots for its results; gives the slots afterwards. -/
def execute (e : Executor σ) (slots inputs : List Tensor) (c : Context) (collect : Bool) :
    Run σ (Status × List Tensor) := do
  if ← Run.takeCancel e.cancel then
    return (.cancelled, slots)
  checkOperands e.graph slots inputs
  let c := e.contextFor c
  initVariables e.graph (c.variables.getD e.variables) inputs
  let frame ← e.openFrame slots inputs
  let (outcome, frame) ← (e.runNodes c collect e.graph.nodes).outcome frame
  e.closeFrame frame
  match outcome with
  | .ok status => return (status, frame.slots)
  | .error error => throw error

/-- Takes the values from all variables of the executor. -/
def resetState (e : Executor σ) (w : World σ) : World σ := w.putVariables e.variables .empty

/-- The statistics of the executor. -/
def statistics (e : Executor σ) (w : World σ) : Statistics := (w.memories.get e.memory).statistics

/-- Forgets the statistics. -/
def clearStatistics (e : Executor σ) (w : World σ) : World σ :=
  w.putMemory e.memory { w.memories.get e.memory with statistics := .empty }

/-- Zeros for a description whose shape must be known. -/
def zerosFor (desc : TensorDesc) (name : String) (s : Store) : Except Error (Tensor × Store) :=
  match desc.shape.toShape? with
  | some shape => .ok (Tensor.zeros desc.dtype shape s)
  | none => .error (.dynamicShape name)

/-- Zeros that can be bound to a parameter. -/
def createInput (e : Executor σ) (index : Nat) : Run σ Tensor := do
  let desc ← e.graph.parameterDesc index
  Run.tryStore (zerosFor desc ("parameter " ++ toString index))

/-- Zeros that can be a slot for a result. -/
def createOutput (e : Executor σ) (index : Nat) : Run σ Tensor := do
  let desc ← e.graph.resultDesc index
  Run.tryStore (zerosFor desc ("result " ++ toString index))

end Executor

end TensorGraph
