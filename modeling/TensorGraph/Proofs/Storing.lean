import Mathlib.Algebra.Group.Nat.Defs
import TensorGraph.Kernel.Invocation

/-! # Elements and their bytes

Bytes of the right number stand for elements and elements for bytes, and one leads back to the other
(`elements_bytes`, `bytes_elements`).  The bits that `DType.ofFloat` makes fit into an element
(`ofFloat_lt`).  What a pointer loads from the buffer of a tensor is an element of the tensor
(`elements_eq_map_load`), and it depends on no byte outside that element (`load_congr`). -/

namespace TensorGraph

/-! ### Digits -/

namespace Bytes

theorem toNat_lt (bytes : List UInt8) : toNat bytes < 256 ^ bytes.length := by
  induction bytes with
  | nil => exact Nat.one_pos
  | cons b bytes ih =>
      have hb : b.toNat < 256 := b.toNat_lt
      rw [toNat, List.length_cons, Nat.pow_succ]
      omega

theorem toNat_ofNat (count : Nat) {n : Nat} (h : n < 256 ^ count) : toNat (ofNat count n) = n := by
  induction count generalizing n with
  | zero =>
      rw [Nat.pow_zero] at h
      rw [ofNat, toNat]
      omega
  | succ count ih =>
      have hrest : n / 256 < 256 ^ count := by
        rw [Nat.pow_succ] at h
        omega
      have hb : (UInt8.ofNat n).toNat = n % 256 := UInt8.toNat_ofNat'
      rw [ofNat, toNat, ih hrest, hb]
      omega

theorem ofNat_toNat (bytes : List UInt8) : ofNat bytes.length (toNat bytes) = bytes := by
  induction bytes with
  | nil => rfl
  | cons b bytes ih =>
      have hb : b.toNat < 256 := b.toNat_lt
      have hrest : (b.toNat + 256 * toNat bytes) / 256 = toNat bytes := by omega
      have hdigit : UInt8.ofNat (b.toNat + 256 * toNat bytes) = b := by
        apply UInt8.toNat_inj.mp
        rw [UInt8.toNat_ofNat']
        omega
      rw [List.length_cons, toNat, ofNat, hrest, ih, hdigit]

/-! ### Groups -/

theorem chunks_flatMap_ofNat (size : Nat) (xs : List Nat) :
    chunks size xs.length (xs.flatMap (ofNat size)) = xs.map (ofNat size) := by
  induction xs with
  | nil => rfl
  | cons x xs ih =>
      have hx : (ofNat size x).length = size := length_ofNat size x
      rw [List.length_cons, chunks, List.flatMap_cons, List.take_left' hx, List.drop_left' hx, ih, List.map_cons]

theorem flatten_chunks {size count : Nat} {bytes : List UInt8} (h : bytes.length = count * size) :
    (chunks size count bytes).flatten = bytes := by
  induction count generalizing bytes with
  | zero =>
      rw [Nat.zero_mul] at h
      exact (List.length_eq_zero_iff.mp h).symm
  | succ count ih =>
      rw [Nat.succ_mul] at h
      have hdrop : (bytes.drop size).length = count * size := by
        rw [List.length_drop]
        omega
      rw [chunks, List.flatten_cons, ih hdrop, List.take_append_drop]

theorem slice_eq (bytes : Bytes) (start count : Nat) :
    bytes.slice start count = (bytes.toList.drop start).take count := by
  rw [slice, Array.toList_extract, List.extract_eq_take_drop, Nat.add_sub_cancel_left]

theorem getElem?_slice (bytes : Bytes) (start count i : Nat) :
    (bytes.slice start count)[i]? = if i < count then bytes[start + i]? else none := by
  rw [slice_eq, List.getElem?_take]
  split
  · rw [List.getElem?_drop, Array.getElem?_toList]
  · rfl

end Bytes

/-! ### Bits that fit -/

namespace Number

theorem roundMagnitude_le (f : Format) (m : Nat) (x : Int) : f.roundMagnitude m x ≤ f.infinityBits := by
  unfold Format.roundMagnitude
  split
  · exact Nat.zero_le _
  · exact Nat.min_le_right _ _

/-- The bits of a number of a format are below a bound that is above those of the largest infinity and
of what is no number. -/
theorem encode_lt {f : Format} {bound : Nat} (hinfinity : f.signBit + f.infinityBits < bound)
    (hnan : f.infinityBits + 1 <<< (f.fractionBits - 1) < bound) (d : Datum) : f.encode d < bound := by
  cases d with
  | notANumber => exact hnan
  | infinite negative =>
      show (if negative then f.signBit else 0) + f.infinityBits < bound
      split <;> omega
  | finite negative m x =>
      have hround := roundMagnitude_le f m x
      show (if negative then f.signBit else 0) + f.roundMagnitude m x < bound
      split <;> omega

theorem truncate_le {lo hi : Int} (hlo : lo ≤ hi) (hhi : 0 ≤ hi) (d : Datum) : d.truncate lo hi ≤ hi := by
  cases d with
  | notANumber => exact hhi
  | infinite negative =>
      show (if negative then lo else hi) ≤ hi
      split <;> omega
  | finite negative m x =>
      unfold Datum.truncate
      exact Int.max_le.mpr ⟨hlo, Int.min_le_left _ _⟩

end Number

namespace DType

theorem patterns_eq (t : DType) : t.patterns = 256 ^ t.size := by
  cases t <;> decide

theorem patterns_pos (t : DType) : 0 < t.patterns := by
  cases t <;> decide

/-- Every binary64 value has a nearest element, whose bits fit into it. -/
theorem ofFloat_lt [HalfConversion] (t : DType) (x : Float) : t.ofFloat x < t.patterns := by
  have hpos := t.patterns_pos
  have hsigned (i : Int) : (i % (t.patterns : Int)).toNat < t.patterns := by
    have hnonneg := Int.emod_nonneg i (show (t.patterns : Int) ≠ 0 by omega)
    have hlt := Int.emod_lt_of_pos i (show (0 : Int) < t.patterns by omega)
    omega
  have hunsigned (d : Number.Datum) : (d.truncate 0 (t.patterns - 1)).toNat < t.patterns := by
    have hle := Number.truncate_le (show (0 : Int) ≤ t.patterns - 1 by omega) (by omega) d
    omega
  unfold ofFloat ofDatum
  cases t with
  | f64 | f32 => exact Number.encode_lt (by decide) (by decide) _
  | f16 | bf16 => exact UInt16.toNat_lt _
  | i64 | i32 | i16 | i8 => exact hsigned _
  | u64 | u32 | u16 | u8 | bool => exact hunsigned _

/-! ### Elements and bytes -/

theorem toNat_lt_patterns (t : DType) {bytes : List UInt8} (h : bytes.length = t.size) :
    Bytes.toNat bytes < t.patterns := by
  rw [t.patterns_eq, ← h]
  exact Bytes.toNat_lt bytes

theorem elements_eq_chunks (t : DType) {bytes : Bytes} {n : Nat} (h : bytes.size = n * t.size) :
    t.elements bytes = (Bytes.chunks t.size n bytes.toList).map Bytes.toNat := by
  rw [elements, Bytes.groups, h, Nat.mul_div_cancel _ t.size_pos]

theorem length_elements (t : DType) {bytes : Bytes} {n : Nat} (h : bytes.size = n * t.size) :
    (t.elements bytes).length = n := by
  rw [t.elements_eq_chunks h, List.length_map, Bytes.length_chunks]

theorem getElem?_elements (t : DType) {bytes : Bytes} {n k : Nat} (h : bytes.size = n * t.size)
    (hk : k < n) : (t.elements bytes)[k]? = some (Bytes.toNat (bytes.slice (k * t.size) t.size)) := by
  rw [t.elements_eq_chunks h, List.getElem?_map, Bytes.getElem?_chunks _ _ _ hk, Bytes.slice_eq]
  rfl

/-- Elements fit into their type. -/
theorem lt_of_mem_elements (t : DType) {bytes : Bytes} {n x : Nat} (h : bytes.size = n * t.size)
    (hx : x ∈ t.elements bytes) : x < t.patterns := by
  obtain ⟨k, hk, rfl⟩ := List.mem_iff_getElem.mp hx
  have hkn : k < n := t.length_elements h ▸ hk
  have hread := t.getElem?_elements h hkn
  rw [List.getElem?_eq_getElem hk] at hread
  rw [Option.some.inj hread]
  refine t.toNat_lt_patterns ?_
  have hroom := Nat.mul_le_mul_right t.size hkn
  rw [Nat.succ_mul] at hroom
  rw [Bytes.slice, Array.length_toList, Array.size_extract]
  omega

/-- Elements that were stored are read again. -/
theorem elements_bytes (t : DType) {xs : List Nat} (h : ∀ x ∈ xs, x < t.patterns) :
    t.elements (t.bytes xs) = xs := by
  have hread : ∀ x ∈ xs, Bytes.toNat (Bytes.ofNat t.size x) = x := fun x hx =>
    Bytes.toNat_ofNat t.size (t.patterns_eq ▸ h x hx)
  rw [t.elements_eq_chunks (t.size_bytes xs), bytes, Bytes.chunks_flatMap_ofNat, List.map_map]
  exact (List.map_congr_left hread).trans (List.map_id' xs)

/-- Bytes for whole elements are those that store what is read from them. -/
theorem bytes_elements (t : DType) {bytes : Bytes} {n : Nat} (h : bytes.size = n * t.size) :
    t.bytes (t.elements bytes) = bytes := by
  have hlength : bytes.toList.length = n * t.size := h
  have hgroup : ∀ group ∈ Bytes.chunks t.size n bytes.toList,
      Bytes.ofNat t.size (Bytes.toNat group) = group := by
    intro group hgroup
    obtain ⟨k, hk⟩ := List.mem_iff_getElem?.mp hgroup
    have hkn : k < n := by
      have hlt := (List.getElem?_eq_some_iff.mp hk).1
      rwa [Bytes.length_chunks] at hlt
    have hlast : (k + 1) * t.size ≤ n * t.size := Nat.mul_le_mul_right _ hkn
    rw [Bytes.getElem?_chunks _ _ _ hkn] at hk
    obtain rfl := Option.some.inj hk
    have hsize : ((bytes.toList.drop (k * t.size)).take t.size).length = t.size := by
      rw [List.length_take, List.length_drop, hlength]
      rw [Nat.succ_mul] at hlast
      omega
    have hdigits := Bytes.ofNat_toNat ((bytes.toList.drop (k * t.size)).take t.size)
    rwa [hsize] at hdigits
  unfold DType.bytes
  rw [t.elements_eq_chunks h, List.flatMap_map, List.flatMap_def, List.map_congr_left hgroup, List.map_id',
    Bytes.flatten_chunks hlength, Array.toArray_toList]

end DType

/-! ### Loading -/

namespace Pointer

variable {dtype : DType} {s s' : Store}

/-- A byte lies in the element at a pointer. -/
def Covers (p : Pointer) (size : Nat) (b : BufferId) (offset : Nat) : Prop :=
  p.buffer = some b ∧ p.offset.toNat ≤ offset ∧ offset < p.offset.toNat + size

/-- What is loaded depends only on the bytes of the element. -/
theorem load_congr {p : Pointer}
    (h : ∀ b offset, p.Covers dtype.size b offset → (s'.bytes b)[offset]? = (s.bytes b)[offset]?) :
    p.load dtype s' = p.load dtype s := by
  unfold load
  cases hbuffer : p.buffer with
  | none => rfl
  | some b =>
      simp only
      refine congrArg Bytes.toNat (List.ext_getElem? fun i => ?_)
      rw [Bytes.getElem?_slice, Bytes.getElem?_slice]
      split
      · exact h b _ ⟨hbuffer, by omega, by omega⟩
      · rfl

/-- The elements of a buffer are what pointers to its multiples of the element size load. -/
theorem elements_eq_map_load (b : BufferId) {n : Nat} (h : (s.bytes b).size = n * dtype.size) :
    dtype.elements (s.bytes b)
      = (List.range n).map fun k : Nat => load ⟨some b, dtype.size * k⟩ dtype s := by
  refine List.ext_getElem? fun k => ?_
  rw [List.getElem?_map]
  by_cases hk : k < n
  · have hoffset : ((dtype.size : Int) * (k : Int)).toNat = k * dtype.size := by
      rw [← Int.natCast_mul, Int.toNat_natCast, Nat.mul_comm]
    rw [dtype.getElem?_elements h hk, List.getElem?_range hk, Option.map_some, load]
    simp only [hoffset]
  · rw [List.getElem?_eq_none (by rw [dtype.length_elements h]; omega),
      List.getElem?_eq_none (by rw [List.length_range]; omega)]
    rfl

end Pointer

end TensorGraph
