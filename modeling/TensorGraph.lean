import TensorGraph.Config
import TensorGraph.DType
import TensorGraph.DType.Element
import TensorGraph.DType.Half
import TensorGraph.Domain.Interface
import TensorGraph.Domain.Plan
import TensorGraph.Domain.PlanCache
import TensorGraph.Domain.Planner
import TensorGraph.Error
import TensorGraph.Execution.Bindings
import TensorGraph.Execution.Evaluator
import TensorGraph.Execution.Executor
import TensorGraph.Execution.Fused
import TensorGraph.Execution.Statistics
import TensorGraph.Execution.Table
import TensorGraph.Execution.Variables
import TensorGraph.Execution.World
import TensorGraph.Graph.Basic
import TensorGraph.Graph.Builder
import TensorGraph.Graph.Node
import TensorGraph.Kernel.Invocation
import TensorGraph.Kernel.Scratchpad
import TensorGraph.Kernel.Share
import TensorGraph.Kernel.Sweep
import TensorGraph.Memory.Allocator
import TensorGraph.Memory.Store
import TensorGraph.Memory.Tensor
import TensorGraph.Number.Binary
import TensorGraph.Number.Word
import TensorGraph.Operators.Elementwise
import TensorGraph.Operators.Operand
import TensorGraph.Operators.Reference
import TensorGraph.Operators.Stateful
import TensorGraph.Proofs.Acceptance
import TensorGraph.Proofs.Addressing
import TensorGraph.Proofs.Agreement
import TensorGraph.Proofs.Allocating
import TensorGraph.Proofs.Atomicity
import TensorGraph.Proofs.Averaging
import TensorGraph.Proofs.Borrowing
import TensorGraph.Proofs.Broadcasting
import TensorGraph.Proofs.Building
import TensorGraph.Proofs.Caching
import TensorGraph.Proofs.Cancelling
import TensorGraph.Proofs.Collapsing
import TensorGraph.Proofs.Combining
import TensorGraph.Proofs.Computing
import TensorGraph.Proofs.Conforming
import TensorGraph.Proofs.Containment
import TensorGraph.Proofs.Coverage
import TensorGraph.Proofs.Cursors
import TensorGraph.Proofs.Effects
import TensorGraph.Proofs.Enumeration
import TensorGraph.Proofs.Evaluation
import TensorGraph.Proofs.Exits
import TensorGraph.Proofs.Fusion
import TensorGraph.Proofs.Gathering
import TensorGraph.Proofs.Handing
import TensorGraph.Proofs.Inference
import TensorGraph.Proofs.Joining
import TensorGraph.Proofs.Meaning
import TensorGraph.Proofs.Mirroring
import TensorGraph.Proofs.Nesting
import TensorGraph.Proofs.Operators
import TensorGraph.Proofs.Outcomes
import TensorGraph.Proofs.Overlap
import TensorGraph.Proofs.Planning
import TensorGraph.Proofs.Pointwise
import TensorGraph.Proofs.Projection
import TensorGraph.Proofs.Ranging
import TensorGraph.Proofs.Reading
import TensorGraph.Proofs.Refinement
import TensorGraph.Proofs.Relating
import TensorGraph.Proofs.Reporting
import TensorGraph.Proofs.Representing
import TensorGraph.Proofs.Requests
import TensorGraph.Proofs.Reserving
import TensorGraph.Proofs.Resetting
import TensorGraph.Proofs.Running
import TensorGraph.Proofs.Separation
import TensorGraph.Proofs.Sequencing
import TensorGraph.Proofs.Shaping
import TensorGraph.Proofs.Sharing
import TensorGraph.Proofs.Sheltering
import TensorGraph.Proofs.Signed
import TensorGraph.Proofs.Simulation
import TensorGraph.Proofs.Soundness
import TensorGraph.Proofs.Stepping
import TensorGraph.Proofs.Storing
import TensorGraph.Proofs.Stretching
import TensorGraph.Proofs.Sweeping
import TensorGraph.Proofs.Tiling
import TensorGraph.Proofs.Tracing
import TensorGraph.Proofs.Typing
import TensorGraph.Proofs.Using
import TensorGraph.Proofs.Valuation
import TensorGraph.Proofs.Walks
import TensorGraph.Proofs.Ways
import TensorGraph.Proofs.Wellformed
import TensorGraph.Shape.Basic
import TensorGraph.Shape.Broadcast
import TensorGraph.Shape.Layout
import TensorGraph.Shape.Partial
import TensorGraph.Text.Blank
import TensorGraph.Text.Hex
import TensorGraph.Text.Listing
import TensorGraph.Text.Printable
import TensorGraph.Text.Quoted
