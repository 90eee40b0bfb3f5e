import TensorGraph.DType.Element
import TensorGraph.Shape.Basic

/-!
# The store of buffers

A `Store` holds the bytes of every buffer that was ever allocated, by number.  Two tensors share
their elements exactly when they name the same buffer.  A buffer never changes its length; `bytes`
is the view, and the laws below say what each operation does to it.

There is no limit to what a store holds.  It keeps a record of what zeros were allocated for, so
that it can be told afterwards whether a machine would have had the room (`Allocator`).
-/

namespace TensorGraph

/-- The number of a buffer. -/
structure BufferId where
  index : Nat
deriving DecidableEq, Repr, Inhabited

/-- What a buffer holds.  As long as it is not written it is a number of zeros. -/
inductive Buffer where
  | zeros (count : Nat)
  | filled (content : Bytes)
deriving DecidableEq, Repr, Inhabited

/-- The bytes in a buffer. -/
def Buffer.bytes : Buffer → Bytes
  | zeros count => Array.replicate count 0
  | filled content => content

@[simp] theorem Buffer.bytes_filled (content : Bytes) : (filled content).bytes = content := rfl

/-- What zeros are allocated for: an element type and a shape. -/
structure Allocation where
  dtype : DType
  shape : Shape
deriving DecidableEq, Repr

/-- Number of bytes that are allocated. -/
def Allocation.byteCount (r : Allocation) : Nat := r.shape.size * r.dtype.size

/-- The bytes of every buffer, and what zeros were allocated for, the latest first. -/
structure Store where
  buffers : Array Buffer
  allocations : List Allocation
deriving DecidableEq, Repr, Inhabited

namespace Store

/-- A store without buffers. -/
def empty : Store := ⟨#[], []⟩

/-- The bytes of a buffer. -/
def bytes (s : Store) (b : BufferId) : Bytes := (s.buffers[b.index]?.map Buffer.bytes).getD #[]

/-- Whether a buffer has been allocated. -/
def Allocated (s : Store) (b : BufferId) : Prop := b.index < s.buffers.size

instance (s : Store) (b : BufferId) : Decidable (s.Allocated b) :=
  inferInstanceAs (Decidable (_ < _))

/-- The buffer that is allocated next. -/
def fresh (s : Store) : BufferId := ⟨s.buffers.size⟩

/-- A new buffer with the given bytes. -/
def alloc (s : Store) (content : Bytes) : BufferId × Store :=
  (s.fresh, { s with buffers := s.buffers.push (.filled content) })

/-- A new buffer of zeros. -/
def allocZeros (s : Store) (r : Allocation) : BufferId × Store :=
  (s.fresh, ⟨s.buffers.push (.zeros r.byteCount), r :: s.allocations⟩)

/-- New bytes for a buffer; a buffer that was never allocated is left alone. -/
def write (s : Store) (b : BufferId) (content : Bytes) : Store :=
  { s with buffers := s.buffers.setIfInBounds b.index (.filled content) }

/-- The store with the bytes of one buffer changed. -/
def update (s : Store) (b : BufferId) (f : Bytes → Bytes) : Store :=
  { s with buffers := s.buffers.modify b.index fun buffer => .filled (f buffer.bytes) }

theorem fresh_not_allocated (s : Store) : ¬ s.Allocated s.fresh := by
  simp [Allocated, fresh]

@[simp] theorem bytes_alloc_fresh (s : Store) (content : Bytes) :
    (s.alloc content).2.bytes (s.alloc content).1 = content := by
  simp [alloc, bytes, fresh]

theorem bytes_alloc_of_allocated (s : Store) (content : Bytes) {b : BufferId}
    (h : s.Allocated b) : (s.alloc content).2.bytes b = s.bytes b := by
  simp only [Allocated] at h
  simp [alloc, bytes, Array.getElem?_push, Nat.ne_of_lt h]

theorem allocated_alloc (s : Store) (content : Bytes) (b : BufferId) :
    (s.alloc content).2.Allocated b ↔ s.Allocated b ∨ b = s.fresh := by
  cases b
  simp [alloc, Allocated, fresh]
  omega

theorem bytes_allocZeros (s : Store) (r : Allocation) (b : BufferId) :
    (s.allocZeros r).2.bytes b = (s.alloc (Array.replicate r.byteCount 0)).2.bytes b := by
  simp only [allocZeros, alloc, bytes, Array.getElem?_push]
  split <;> rfl

theorem allocated_allocZeros (s : Store) (r : Allocation) (b : BufferId) :
    (s.allocZeros r).2.Allocated b ↔ s.Allocated b ∨ b = s.fresh := by
  rw [← allocated_alloc s (Array.replicate r.byteCount 0)]
  simp [allocZeros, alloc, Allocated]

theorem bytes_write_same (s : Store) (content : Bytes) {b : BufferId} (h : s.Allocated b) :
    (s.write b content).bytes b = content := by
  simp only [Allocated] at h
  simp [write, bytes, h]

theorem bytes_write_ne (s : Store) (content : Bytes) {a b : BufferId} (h : a ≠ b) :
    (s.write a content).bytes b = s.bytes b := by
  have : a.index ≠ b.index := fun e => h (by cases a; cases b; simp_all)
  simp [write, bytes, this]

theorem update_eq_write (s : Store) (b : BufferId) (f : Bytes → Bytes) :
    s.update b f = s.write b (f (s.bytes b)) := by
  unfold update write bytes
  congr 1
  apply Array.ext_getElem?
  intro i
  rw [Array.getElem?_modify, Array.getElem?_setIfInBounds]
  split <;> rename_i h
  · subst h
    by_cases inside : b.index < s.buffers.size <;> simp [inside]
  · rfl

@[simp] theorem allocated_write (s : Store) (a b : BufferId) (content : Bytes) :
    (s.write a content).Allocated b ↔ s.Allocated b := by
  simp [write, Allocated]

end Store

end TensorGraph
