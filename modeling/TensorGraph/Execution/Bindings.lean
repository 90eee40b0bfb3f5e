import TensorGraph.Graph.Node
import TensorGraph.Memory.Tensor

/-!
# Bindings

While a graph runs, each of its tensors is bound to a tensor with elements as soon as a node has
produced it.  `refineDescs` narrows the descriptions of inputs to the shapes of the tensors that are
bound to them.
-/

namespace TensorGraph

/-- The tensor bound to each handle, if there is one yet. -/
abbrev Bindings := List (Option Tensor)

namespace Bindings

/-- No bindings for a number of handles. -/
def empty (size : Nat) : Bindings := List.replicate size none

/-- The bindings with one more or another one; a handle beyond the last is not bound. -/
def bind (b : Bindings) (h : Handle) (t : Tensor) : Bindings := b.set h (some t)

/-- The tensor bound to a handle. -/
def get? (b : Bindings) (h : Handle) : Option Tensor := (b[h]?).join

/-- The tensor bound to a handle that must have been bound. -/
def get (b : Bindings) (h : Handle) : Except Error Tensor :=
  match b.get? h with
  | some t => .ok t
  | none => .error (.unboundTensor h.describe)

/-- Whether a handle is bound. -/
def contains (b : Bindings) (h : Handle) : Bool := (b.get? h).isSome

/-- The tensors that are bound. -/
def tensors (b : Bindings) : List Tensor := b.filterMap id

theorem get?_bind_same {b : Bindings} {h : Handle} (t : Tensor) (hb : h < b.length) :
    get? (b.bind h t) h = some t := by
  simp [get?, bind, hb]

theorem get?_bind_ne (b : Bindings) {h k : Handle} (t : Tensor) (hk : h ≠ k) :
    get? (b.bind h t) k = get? b k := by
  simp [get?, bind, hk]

end Bindings

/-- The descriptions with the shapes of the tensors at the same places; where a tensor has no shape
or there is none, the description stays. -/
def refineDescs : List TensorDesc → List Tensor → List TensorDesc
  | d :: descs, t :: tensors =>
    ((t.shape.map d.withShape).getD d) :: refineDescs descs tensors
  | descs, _ => descs

end TensorGraph
