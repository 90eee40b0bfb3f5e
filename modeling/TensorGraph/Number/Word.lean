/-!
# Machine words

Extents and counts are unsigned 64-bit words, strides and byte offsets are signed ones.  Inside the
library both are exact (`Nat` and `Int`).  A word's width shows in three places only: where an
unsigned word is read as a signed one (`signed`), where a signed value is reported as an unsigned
one (`unsigned`), and where a product is checked against the largest word (`product?`).
-/

namespace TensorGraph.Word

/-- One more than the largest unsigned word. -/
def size : Nat := 1 <<< 64

/-- The two's-complement reading of an unsigned word. -/
def signed (n : Nat) : Int := Int.bmod n size

/-- The unsigned word with the bits of a signed value. -/
def unsigned (i : Int) : Nat := (i % (size : Int)).toNat

/-- The product of two words, unless it needs more than one word. -/
def mul? (a b : Nat) : Option Nat := if a * b < size then some (a * b) else none

/-- The product of a list of words, from the left; any partial product that needs more than one
word refuses the whole, also when a later factor is zero. -/
def product? (ns : List Nat) : Option Nat := ns.foldlM mul? 1

/-- The value of a run of decimal digits, if it is not empty and fits a word.  One leading plus
sign is allowed. -/
def parse? (text : String) : Option Nat :=
  let digits := match text.toList with
    | '+' :: rest => rest
    | all => all
  if digits.isEmpty || !digits.all Char.isDigit then none
  else
    let n := digits.foldl (fun acc c => 10 * acc + (c.toNat - '0'.toNat)) 0
    if n < size then some n else none

theorem size_eq : size = 18446744073709551616 := rfl

theorem mul?_eq_some {a b n : Nat} : mul? a b = some n ↔ a * b < size ∧ a * b = n := by
  unfold mul?
  by_cases h : a * b < size
  · simp [h]
  · simp [h]

end TensorGraph.Word
