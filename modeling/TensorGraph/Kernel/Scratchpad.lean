/-!
# Scratch memory

Tasks that run a kernel at the same time need temporary memory of their own.  A `Scratchpad` is one
block of memory that grows on demand and never shrinks; `Scratchpad.reserve` makes room for one
region per task, each on a boundary of `alignment` bytes.
-/

namespace TensorGraph

/-- A part of a scratchpad. -/
structure Region where
  offset : Nat
  length : Nat
deriving DecidableEq, Repr

/-- Memory in words of 8 bytes. -/
structure Scratchpad where
  words : Nat
deriving DecidableEq, Repr, Inhabited

/-- The regions that were reserved: where the region of each task begins, how long it is, and for
how many tasks there is one. -/
structure Reservation where
  stride : Nat
  length : Nat
  tasks : Nat
deriving DecidableEq, Repr

namespace Scratchpad

/-- Regions begin at multiples of this many bytes. -/
def alignment : Nat := 64

/-- Bytes of a word. -/
def wordSize : Nat := 8

/-- A scratchpad without memory. -/
def empty : Scratchpad := ⟨0⟩

/-- Bytes that the scratchpad holds. -/
def capacity (p : Scratchpad) : Nat := p.words * wordSize

/-- Bytes from one region to the next. -/
def stride (perTask : Nat) : Nat := (perTask + alignment - 1) / alignment * alignment

/-- Makes room for a region of `perTask` bytes for each task, for at least one; a request for no
bytes reserves nothing. -/
def reserve (p : Scratchpad) (perTask tasks : Nat) : Reservation × Scratchpad :=
  if perTask = 0 then (⟨0, 0, 0⟩, p)
  else
    let tasks := max tasks 1
    let needed := stride perTask * tasks
    (⟨stride perTask, perTask, tasks⟩,
      if p.capacity < needed then ⟨(needed + wordSize - 1) / wordSize⟩ else p)

end Scratchpad

/-- The region of a task, if one was reserved. -/
def Reservation.region? (r : Reservation) (task : Nat) : Option Region :=
  if r.length = 0 ∨ r.tasks ≤ task then none else some ⟨task * r.stride, r.length⟩

end TensorGraph
