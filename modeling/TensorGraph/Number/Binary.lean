/-!
# Binary floating formats

A `Format` is given by its exponent and fraction widths; binary16, bfloat16, binary32 and binary64
are four values of it.  `Format.decode` reads a bit pattern as the exact number it stands for, a
`Datum`; `Format.encode` rounds a `Datum` to the nearest number of the format, a tie going to the
even one.  Conversion between formats is decoding followed by encoding, so that every conversion
rounds once.
-/

namespace TensorGraph.Number

/-- What a floating bit pattern stands for; a finite one is `± mantissa · 2 ^ exponent`. -/
inductive Datum where
  | notANumber
  | infinite (negative : Bool)
  | finite (negative : Bool) (mantissa : Nat) (exponent : Int)
deriving DecidableEq, Repr

/-- The widths of a binary interchange format. -/
structure Format where
  exponentBits : Nat
  fractionBits : Nat
deriving DecidableEq, Repr

namespace Format

def binary16 : Format := ⟨5, 10⟩
def bfloat16 : Format := ⟨8, 7⟩
def binary32 : Format := ⟨8, 23⟩
def binary64 : Format := ⟨11, 52⟩

/-- What is added to an exponent before it is stored. -/
def bias (f : Format) : Nat := 1 <<< (f.exponentBits - 1) - 1

/-- The exponent of the last place of the smallest numbers of the format. -/
def minExponent (f : Format) : Int := 1 - (f.bias : Int) - (f.fractionBits : Int)

/-- The bits of positive infinity: all exponent bits and nothing else. -/
def infinityBits (f : Format) : Nat := (1 <<< f.exponentBits - 1) <<< f.fractionBits

/-- The sign bit, as a number. -/
def signBit (f : Format) : Nat := 1 <<< (f.exponentBits + f.fractionBits)

/-- The number that a bit pattern stands for. -/
def decode (f : Format) (bits : Nat) : Datum :=
  let negative := f.signBit ≤ bits
  let magnitude := bits % f.signBit
  let stored := magnitude >>> f.fractionBits
  let fraction := magnitude % 1 <<< f.fractionBits
  if magnitude = f.infinityBits then .infinite negative
  else if f.infinityBits < magnitude then .notANumber
  else if stored = 0 then .finite negative fraction f.minExponent
  else .finite negative (1 <<< f.fractionBits + fraction) (f.minExponent + (stored - 1 : Nat))

/-- `m / 2 ^ k` rounded to the nearest integer, a tie to the even one. -/
def roundShift (m k : Nat) : Nat :=
  let quotient := m >>> k
  let twice := 2 * (m % 1 <<< k)
  if twice < 1 <<< k then quotient
  else if 1 <<< k < twice then quotient + 1
  else quotient + quotient % 2

/-- The bits of the nearest number of the format to `m · 2 ^ x`; at or beyond the largest
representable magnitude's upper half-step they are those of infinity.

With `last` the exponent of the last place kept, the stored magnitude is `last - minExponent` steps
of the exponent field plus the rounded mantissa: the hidden bit supplies the missing step, and a
carry out of the rounding moves to the next exponent by itself. -/
def roundMagnitude (f : Format) (m : Nat) (x : Int) : Nat :=
  if m = 0 then 0
  else
    let last := max ((m.log2 : Int) + x - f.fractionBits) f.minExponent
    let rounded := if x ≤ last then roundShift m (last - x).toNat else m <<< (x - last).toNat
    min ((last - f.minExponent).toNat <<< f.fractionBits + rounded) f.infinityBits

/-- The bit pattern of the nearest number of the format. -/
def encode (f : Format) : Datum → Nat
  | .notANumber => f.infinityBits + 1 <<< (f.fractionBits - 1)
  | .infinite negative => (if negative then f.signBit else 0) + f.infinityBits
  | .finite negative m x => (if negative then f.signBit else 0) + f.roundMagnitude m x

end Format

namespace Datum

/-- The exact number of a binary64 value. -/
def ofFloat (x : Float) : Datum := Format.binary64.decode x.toBits.toNat

/-- The nearest binary64 value. -/
def toFloat (d : Datum) : Float := Float.ofBits (UInt64.ofNat (Format.binary64.encode d))

/-- An integer as an exact number. -/
def ofInt (i : Int) : Datum := .finite (i < 0) i.natAbs 0

/-- The integer part, toward zero, held within `[lo, hi]`; a value that is no number gives 0. -/
def truncate (lo hi : Int) : Datum → Int
  | .notANumber => 0
  | .infinite negative => if negative then lo else hi
  | .finite negative m x =>
    let magnitude : Nat := if 0 ≤ x then m <<< x.toNat else m >>> (-x).toNat
    let value : Int := if negative then -magnitude else magnitude
    max lo (min hi value)

end Datum

end TensorGraph.Number
