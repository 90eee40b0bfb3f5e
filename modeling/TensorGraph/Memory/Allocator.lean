import TensorGraph.Memory.Store

/-!
# Allocators

A store allocates whatever is asked for; a machine does not.  An `Allocator` says what a machine
allocates, and `Store.Granted` that it would have allocated all that a store did.

Buffers are made of words of eight bytes, and no more bytes are allocated at once than a signed
word can count.  This is all that `wrapping` looks at, whose arithmetic drops what does not fit
into a word.  `checked` refuses also what overflows while it is counted, which may happen although
an extent is 0.
-/

namespace TensorGraph

/-- What a machine allocates. -/
structure Allocator where
  grants : Allocation → Bool
  /-- Nothing is allocated whose bytes a signed word cannot count. -/
  bounded : ∀ r, grants r = true → r.byteCount < 1 <<< 63

namespace Allocator

/-- Number of bytes in the words that hold some bytes. -/
def inWords (count : Nat) : Nat := 8 * ((count + 7) / 8)

theorem le_inWords (count : Nat) : count ≤ inWords count := by
  unfold inWords
  omega

/-- The allocator of a machine whose arithmetic wraps around. -/
def wrapping : Allocator where
  grants r := inWords r.byteCount < 1 <<< 63
  bounded _ h := Nat.lt_of_le_of_lt (le_inWords _) (of_decide_eq_true h)

/-- The allocator of a machine that refuses overflow: extents 0 do not make up for others. -/
def checked : Allocator where
  grants r := wrapping.grants r && wrapping.grants { r with shape := r.shape.map (max 1) }
  bounded r h := wrapping.bounded r (Bool.and_eq_true_iff.mp h).1

end Allocator

/-- An allocator grants everything that a store has allocated. -/
def Store.Granted (s : Store) (a : Allocator) : Prop := ∀ r ∈ s.allocations, a.grants r = true

instance (s : Store) (a : Allocator) : Decidable (s.Granted a) :=
  inferInstanceAs (Decidable (∀ r ∈ s.allocations, _))

end TensorGraph
