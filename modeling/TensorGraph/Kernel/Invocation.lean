import TensorGraph.Execution.World
import TensorGraph.Kernel.Share

/-!
# Kernels and their invocations

A kernel is the compiled body of a fused operator.  One invocation processes one tile: it is told
where the tile begins in the buffer of each terminal, how far apart its rows and columns lie, and
which part of the scratch memory is its own.
-/

namespace TensorGraph

/-- A place in a buffer, in bytes from its start; without a buffer it is a place in no memory. -/
structure Pointer where
  buffer : Option BufferId
  offset : Int
deriving DecidableEq, Repr

namespace Pointer

/-- The bits of the element at a pointer, 0 in no memory. -/
def load (p : Pointer) (dtype : DType) (s : Store) : Nat :=
  match p.buffer with
  | none => 0
  | some b => Bytes.toNat ((s.bytes b).slice p.offset.toNat dtype.size)

/-- The store with other bits for the element at a pointer; in no memory nothing changes. -/
def put (p : Pointer) (dtype : DType) (bits : Nat) (s : Store) : Store :=
  match p.buffer with
  | none => s
  | some b => s.update b (·.overwrite p.offset.toNat (Bytes.ofNat dtype.size bits))

end Pointer

/-- What one invocation of a kernel is told. -/
structure Invocation where
  /-- The first element of the tile in each input. -/
  inputs : List Pointer
  /-- The first element of the tile in each output. -/
  outputs : List Pointer
  /-- Bytes per row and per column of the tile, for each terminal, inputs first. -/
  tileStrides : List (Int × Int)
  /-- Rows and columns of the tile. -/
  tileExtents : Nat × Nat
  /-- Coordinates of the tile in the untiled dimensions. -/
  outerIndex : Index
  /-- Scratch memory of the task, if any was asked for. -/
  scratch : Option Region
deriving DecidableEq, Repr

namespace Invocation

/-- All pointers, inputs first. -/
def pointers (i : Invocation) : List Pointer := i.inputs ++ i.outputs

/-- The rows and columns of the tile, row by row. -/
def tilePositions (i : Invocation) : List (Nat × Nat) :=
  (List.range i.tileExtents.1).flatMap fun r => (List.range i.tileExtents.2).map fun c => (r, c)

/-- Where the element at a row and column of the tile lies, seen from a pointer. -/
def elementAt (start : Pointer) (strides : Int × Int) (position : Nat × Nat) : Pointer :=
  { start with offset := start.offset + position.1 * strides.1 + position.2 * strides.2 }

/-- The element of every terminal at a row and column of the tile, inputs first. -/
def elementsAt (i : Invocation) (position : Nat × Nat) : List Pointer :=
  List.zipWith (fun start strides => elementAt start strides position) i.pointers i.tileStrides

/-- The invocation as a record. -/
def describe (i : Invocation) : String :=
  Text.record "KernelArgs" [("inputs", toString i.inputs.length),
    ("outputs", toString i.outputs.length),
    ("tile_extents", Text.numbers [i.tileExtents.1, i.tileExtents.2]),
    ("outer_index", Text.numbers i.outerIndex),
    ("scratchpad_len", toString ((i.scratch.map Region.length).getD 0))]

end Invocation

/-- The compiled body of a fused operator. -/
structure Kernel (σ : Type) where
  /-- Bytes of scratch memory that a task needs. -/
  scratchSize : Nat
  /-- Processes one tile; a failure comes with its description. -/
  call : Invocation → World σ → Except String Unit × World σ

namespace Plan

/-- The invocation for an outer index: the start of its tile in each of the given buffers. -/
def invocation (p : Plan) (inputs outputs : List (Option BufferId)) (scratch : Option Region)
    (index : Index) : Invocation :=
  let pointer (buffer : Option BufferId) (access : Access) : Pointer :=
    ⟨buffer, access.byteOffset index⟩
  { inputs := List.zipWith pointer inputs p.inputs
    outputs := List.zipWith pointer outputs p.outputs
    tileStrides := p.accesses.map (·.tileStrides p.domain.tileRank)
    tileExtents := p.domain.tile
    outerIndex := index
    scratch := scratch }

end Plan

end TensorGraph
