/-!
# Shapes and indices

A shape is the list of a tensor's extents, outermost first.  Its indices are counted in row-major
order: `unravel` gives the `k`-th index, `indices` lists them all, and `succ` steps from one index
to the next as an odometer does.  `unravel_eq_cons` and `length_indices` relate them to the size.
-/

namespace TensorGraph

/-- The extents of a tensor, outermost first. -/
abbrev Shape := List Nat

/-- One coordinate per dimension, outermost first. -/
abbrev Index := List Nat

namespace Shape

/-- Number of elements; a tensor without dimensions has one. -/
def size : Shape → Nat
  | [] => 1
  | n :: rest => n * size rest

/-- The shape with ones in front up to a rank; a shape of that rank or more stays as it is. -/
def leftPadded (s : Shape) (rank : Nat) : Shape := List.replicate (rank - s.length) 1 ++ s

/-- The row-major digits of a number over a shape, and what is left over in front. -/
def split : Shape → Nat → Index × Nat
  | [], k => ([], k)
  | n :: rest, k =>
    let (digits, quotient) := split rest k
    (quotient % n :: digits, quotient / n)

/-- The `k`-th index in row-major order. -/
def unravel (s : Shape) (k : Nat) : Index := (s.split k).1

/-- Every index in row-major order. -/
def indices : Shape → List Index
  | [] => [[]]
  | n :: rest => (List.range n).flatMap fun i => (indices rest).map (i :: ·)

/-- The next index in row-major order, and whether it wrapped around to the first. -/
def next : Shape → Index → Index × Bool
  | n :: rest, i :: index =>
    match next rest index with
    | (tail, false) => (i :: tail, false)
    | (tail, true) => if i + 1 < n then ((i + 1) :: tail, false) else (0 :: tail, true)
  | _, index => (index, true)

/-- The next index in row-major order; after the last comes the first. -/
def succ (s : Shape) (index : Index) : Index := (s.next index).1

@[simp] theorem size_nil : size [] = 1 := rfl
@[simp] theorem size_cons (n : Nat) (s : Shape) : size (n :: s) = n * size s := rfl

@[simp] theorem length_leftPadded (s : Shape) (rank : Nat) :
    (s.leftPadded rank).length = max rank s.length := by
  simp [leftPadded]
  omega

theorem split_snd (s : Shape) (k : Nat) : (s.split k).2 = k / s.size := by
  induction s with
  | nil => simp [split]
  | cons n rest ih =>
    show (split rest k).2 / n = k / (n * size rest)
    rw [ih, Nat.div_div_eq_div_mul, Nat.mul_comm]

@[simp] theorem unravel_nil (k : Nat) : unravel [] k = [] := rfl

/-- The outermost digit counts whole blocks of the inner dimensions. -/
theorem unravel_eq_cons (n : Nat) (s : Shape) (k : Nat) :
    unravel (n :: s) k = k / s.size % n :: s.unravel k := by
  show (s.split k).2 % n :: (s.split k).1 = _
  rw [split_snd]
  rfl

theorem length_indices (s : Shape) : s.indices.length = s.size := by
  induction s with
  | nil => rfl
  | cons n rest ih =>
    simp [indices, List.length_flatMap, ih, List.map_const']

end Shape

end TensorGraph
