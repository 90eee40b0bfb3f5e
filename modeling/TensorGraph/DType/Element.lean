import TensorGraph.DType
import TensorGraph.Number.Binary

/-!
# Elements

An element is stored as `DType.size` bytes, least significant first.  All arithmetic on elements is
done in binary64: `DType.toFloat` reads the stored bits of an element as a binary64 value and
`DType.ofFloat` gives the bits of the nearest element, where integers truncate toward zero and stop
at the ends of their range.  Truth values compute as bytes.  The two floating formats of two bytes are
converted outside the library (`HalfConversion`).
-/

namespace TensorGraph

/-- The bytes of a buffer. -/
abbrev Bytes := Array UInt8

namespace Bytes

/-- The number whose base-256 digits are the bytes, least significant first. -/
def toNat : List UInt8 → Nat
  | [] => 0
  | b :: rest => b.toNat + 256 * toNat rest

/-- The `count` lowest base-256 digits of a number, least significant first. -/
def ofNat : Nat → Nat → List UInt8
  | 0, _ => []
  | count + 1, n => UInt8.ofNat n :: ofNat count (n / 256)

/-- The first `count` groups of `size` bytes. -/
def chunks (size : Nat) : Nat → List UInt8 → List (List UInt8)
  | 0, _ => []
  | count + 1, bytes => bytes.take size :: chunks size count (bytes.drop size)

/-- The bytes in groups of `size`; a last incomplete group is left out. -/
def groups (size : Nat) (bytes : Bytes) : List (List UInt8) :=
  chunks size (bytes.size / size) bytes.toList

/-- The `count` bytes from position `start`, fewer at the end of the buffer. -/
def slice (bytes : Bytes) (start count : Nat) : List UInt8 :=
  (bytes.extract start (start + count)).toList

/-- The given bytes written one after the other from a position; what does not fit is dropped. -/
def overwrite (bytes : Bytes) : Nat → List UInt8 → Bytes
  | _, [] => bytes
  | start, b :: rest => overwrite (bytes.setIfInBounds start b) (start + 1) rest

/-- `k` added to every byte, each one wrapping. -/
def bump (bytes : Bytes) (k : Nat) : Bytes := bytes.map (· + UInt8.ofNat k)

@[simp] theorem length_ofNat (count n : Nat) : (ofNat count n).length = count := by
  induction count generalizing n with
  | zero => rfl
  | succ count ih => simp [ofNat, ih]

@[simp] theorem length_chunks (size count : Nat) (bytes : List UInt8) :
    (chunks size count bytes).length = count := by
  induction count generalizing bytes with
  | zero => rfl
  | succ count ih => simp [chunks, ih]

/-- Group number `i` starts after `i` whole groups. -/
theorem getElem?_chunks (size count : Nat) (bytes : List UInt8) {i : Nat} (h : i < count) :
    (chunks size count bytes)[i]? = some ((bytes.drop (i * size)).take size) := by
  induction count generalizing bytes i with
  | zero => omega
  | succ count ih =>
    cases i with
    | zero => simp [chunks]
    | succ i => simp [chunks, ih (bytes.drop size) (by omega : i < count), Nat.add_mul, Nat.add_comm]

@[simp] theorem size_overwrite (bytes : Bytes) (start : Nat) (new : List UInt8) :
    (bytes.overwrite start new).size = bytes.size := by
  induction new generalizing bytes start with
  | nil => rfl
  | cons b rest ih => simp [overwrite, ih]

/-- The overwritten positions hold the new bytes, and the others what they held before. -/
theorem getElem?_overwrite (bytes : Bytes) (start : Nat) (new : List UInt8) {i : Nat}
    (h : i < bytes.size) :
    (bytes.overwrite start new)[i]? =
      if start ≤ i ∧ i < start + new.length then new[i - start]? else bytes[i]? := by
  induction new generalizing bytes start with
  | nil =>
    have : ¬ (start ≤ i ∧ i < start) := by omega
    simp [overwrite, this]
  | cons b rest ih =>
    rw [overwrite, ih _ _ (by simpa using h)]
    rcases Nat.lt_trichotomy i start with before | here | after
    · have early : ¬ start ≤ i := by omega
      have earlier : ¬ start + 1 ≤ i := by omega
      have other : start ≠ i := by omega
      simp [early, earlier, other]
    · subst here
      have : ¬ i + 1 ≤ i := by omega
      simp [h, this]
    · obtain ⟨k, rfl⟩ : ∃ k, i = start + 1 + k := ⟨i - (start + 1), by omega⟩
      have first : start + 1 + k - (start + 1) = k := by omega
      have second : start + 1 + k - start = k + 1 := by omega
      have inner : start + 1 + k < start + 1 + rest.length ↔ k < rest.length := by omega
      have outer : start + 1 + k < start + (rest.length + 1) ↔ k < rest.length := by omega
      have same : start ≠ start + 1 + k := by omega
      have reached : start ≤ start + 1 + k := by omega
      simp [first, second, inner, outer, same, reached]

end Bytes

/-- How elements of the floating formats of two bytes become binary64 values, and these become elements.
Nothing is assumed of it: a NaN may lose its sign and payload or keep them. -/
class HalfConversion where
  toFloat : Number.Format → UInt16 → Float
  ofFloat : Number.Format → Float → UInt16

namespace DType

/-- How an element's bits are to be read. -/
inductive Encoding where
  | floating (format : Number.Format)
  | signed
  | unsigned
deriving DecidableEq, Repr

/-- The encoding of each element type. -/
def encoding : DType → Encoding
  | f64 => .floating .binary64
  | f32 => .floating .binary32
  | f16 => .floating .binary16
  | bf16 => .floating .bfloat16
  | i64 | i32 | i16 | i8 => .signed
  | u64 | u32 | u16 | u8 | bool => .unsigned

/-- One more than the largest bit pattern of an element. -/
def patterns (t : DType) : Nat := 1 <<< (8 * t.size)

/-- The exact number that an element's bits stand for. -/
def datum (t : DType) (bits : Nat) : Number.Datum :=
  match t.encoding with
  | .floating format => format.decode bits
  | .signed => .ofInt (Int.bmod bits t.patterns)
  | .unsigned => .ofInt bits

/-- The bits of the nearest element to an exact number. -/
def ofDatum (t : DType) (d : Number.Datum) : Nat :=
  match t.encoding with
  | .floating format => format.encode d
  | .signed =>
    let half : Int := t.patterns / 2
    (d.truncate (-half) (half - 1) % (t.patterns : Int)).toNat
  | .unsigned => (d.truncate 0 (t.patterns - 1)).toNat

/-- An element's value in binary64. -/
def toFloat [HalfConversion] (t : DType) (bits : Nat) : Float :=
  match t with
  | f16 => HalfConversion.toFloat .binary16 (UInt16.ofNat bits)
  | bf16 => HalfConversion.toFloat .bfloat16 (UInt16.ofNat bits)
  | t => (t.datum bits).toFloat

/-- The bits of the element nearest to a binary64 value. -/
def ofFloat [HalfConversion] (t : DType) (x : Float) : Nat :=
  match t with
  | f16 => (HalfConversion.ofFloat .binary16 x).toNat
  | bf16 => (HalfConversion.ofFloat .bfloat16 x).toNat
  | t => t.ofDatum (.ofFloat x)

/-- The bits of the elements stored in a buffer. -/
def elements (t : DType) (bytes : Bytes) : List Nat := (bytes.groups t.size).map Bytes.toNat

/-- The bytes that store the given elements. -/
def bytes (t : DType) (elements : List Nat) : Bytes :=
  (elements.flatMap (Bytes.ofNat t.size)).toArray

@[simp] theorem size_bytes (t : DType) (xs : List Nat) :
    (t.bytes xs).size = xs.length * t.size := by
  induction xs with
  | nil => simp [bytes]
  | cons x xs ih => simp [bytes, Nat.add_mul] at ih ⊢; omega

end DType

end TensorGraph
