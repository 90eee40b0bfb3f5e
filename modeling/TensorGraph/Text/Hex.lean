/-!
# Base 16

Bit patterns and code points are written in base 16, with small letters.
-/

namespace TensorGraph.Text

/-- The digits in base 16, in order of value. -/
def hexAlphabet : List Char := "0123456789abcdef".toList

/-- A number in base 16. -/
def hexDigits (n : Nat) : String := String.ofList (Nat.toDigits 16 n)

/-- A number in base 16, with zeros in front up to a width. -/
def hexPadded (width n : Nat) : String :=
  let digits := hexDigits n
  String.ofList (List.replicate (width - digits.length) '0') ++ digits

/-- The number that digits in base 16 stand for; capitals count as small letters. -/
def hexValue? (digits : List Char) : Option Nat :=
  digits.foldlM (fun n c => (hexAlphabet.idxOf? c.toLower).map (16 * n + ·)) 0

end TensorGraph.Text
