import TensorGraph.Proofs.Broadcasting
import TensorGraph.Proofs.Tiling

/-! # Addresses in signed words

Strides and offsets are computed in signed words.  Here they are computed once more, with every cast, product and
partial sum checked (`Strides.denseFrom?`, `Access.byteOffset?`, `Access.tileStrides?`); an access is in range if
nothing that is computed for it is refused and the results are those of the unchecked computation
(`Access.Ranged`).

Dense strides are in range exactly if the extents are and the product of those behind the last 0
(`Strides.denseFrom?_eq_some_iff`).  Since they are not negative, no partial sum passes the address of the last
element, and over a domain with elements this address decides for the whole access (`ranged_access_iff`). -/

namespace TensorGraph

/-! ### Computing in signed words -/

/-- A value, unless no signed word has it. -/
def Word.inSigned? (x : Int) : Option Int := if -2 ^ 63 ≤ x ∧ x < 2 ^ 63 then some x else none

theorem Word.inSigned?_eq_some {x y : Int} : inSigned? x = some y ↔ (-2 ^ 63 ≤ x ∧ x < 2 ^ 63) ∧ x = y := by
  unfold inSigned?
  split <;> simp_all

theorem Word.inSigned?_of_lt {x : Int} (hx : 0 ≤ x) (h : x < 2 ^ 63) : inSigned? x = some x :=
  inSigned?_eq_some.mpr ⟨⟨by omega, h⟩, rfl⟩

theorem Word.inSigned?_natCast {n : Nat} (h : n < 2 ^ 63) : inSigned? n = some (n : Int) :=
  inSigned?_of_lt (Int.natCast_nonneg n) (by exact_mod_cast h)

/-- The strides of a dense buffer, with every extent and every stride checked. -/
def Strides.denseFrom? : Shape → Option (Strides × Int)
  | [] => some ([], 1)
  | n :: rest => do
    let (strides, stride) ← denseFrom? rest
    let extent ← Word.inSigned? n
    let next ← Word.inSigned? (stride * extent)
    return (stride :: strides, next)

namespace Access

/-- The address of an element moved by one coordinate along a stride, with every value checked. -/
def move? (element : Int) (step : Nat × Int) : Option Int := do
  let coordinate ← Word.inSigned? step.1
  let distance ← Word.inSigned? (coordinate * step.2)
  Word.inSigned? (element + distance)

/-- The byte at which the element at an index of leading dimensions begins, with every value checked. -/
def byteOffset? (a : Access) (index : Index) : Option Int := do
  let offset ← Word.inSigned? a.offset
  let element ← (index.zip a.strides).foldlM move? offset
  let size ← Word.inSigned? a.elementSize
  Word.inSigned? (element * size)

/-- Bytes per step of the two tiled dimensions, with every value checked. -/
def tileStrides? (a : Access) (tileRank : Nat) : Option (Int × Int) := do
  let size ← Word.inSigned? a.elementSize
  let last ← Word.inSigned? (a.strides.getLast?.getD 0 * size)
  if tileRank = 2 then
    let first ← Word.inSigned? (a.strides.dropLast.getLast?.getD 0 * size)
    return (first, last)
  else return (0, last)

/-- Whatever is computed for an access over a domain, it stays in signed words: the dense strides of the terminal,
as it is spread over the domain, the steps inside a tile, and the address of every index in the domain and of its
leading coordinates. -/
structure Ranged (a : Access) (d : Domain) (spread : Shape) : Prop where
  dense : Strides.denseFrom? spread = some (Strides.denseFrom spread)
  tileStrides : a.tileStrides? d.tileRank = some (a.tileStrides d.tileRank)
  byteOffset : ∀ index, d.extents.InBounds index → ∀ n,
    a.byteOffset? (index.take n) = some (a.byteOffset (index.take n))

end Access

/-! ### Dense strides -/

namespace Shape

/-- The extents behind the last 0: all of them if there is none. -/
def trailing : Shape → Shape
  | [] => []
  | n :: rest => if 0 ∈ n :: rest then trailing rest else n :: rest

theorem trailing_of_not_mem {s : Shape} (h : 0 ∉ s) : s.trailing = s := by
  cases s with
  | nil => rfl
  | cons n s => exact if_neg h

theorem Positive.trailing_eq {s : Shape} (h : s.Positive) : s.trailing = s :=
  trailing_of_not_mem fun hzero => Nat.lt_irrefl 0 (h 0 hzero)

/-- One more extent is in range if it, the extents so far, and the product of both are. -/
theorem size_trailing_cons_lt {n bound : Nat} {s : Shape} (hbound : 0 < bound) :
    (trailing (n :: s)).size < bound ↔ s.trailing.size < bound ∧ s.size * n < bound := by
  by_cases hs : 0 ∈ s
  · rw [trailing, if_pos (List.mem_cons_of_mem n hs), Planner.size_eq_zero_of_mem hs, Nat.zero_mul]
    exact (and_iff_left hbound).symm
  · rw [trailing_of_not_mem hs]
    cases n with
    | zero =>
        rw [trailing, if_pos List.mem_cons_self, trailing_of_not_mem hs, Nat.mul_zero]
        exact (and_iff_left hbound).symm
    | succ n =>
        have hle : s.size ≤ s.size * (n + 1) := Nat.le_mul_of_pos_right _ n.succ_pos
        rw [trailing_of_not_mem (by simp [hs]), size_cons, Nat.mul_comm]
        omega

end Shape

namespace Strides

open Shape

/-- Extents that are signed words have dense strides that are not negative. -/
theorem dense_nonneg {s : Shape} (h : ∀ n ∈ s, n < 2 ^ 63) : ∀ stride ∈ dense s, 0 ≤ stride := by
  induction s with
  | nil => exact nofun
  | cons n s ih =>
      obtain ⟨_, h⟩ := List.forall_mem_cons.mp h
      have hdense : dense (n :: s) = (denseFrom s).2 :: dense s := rfl
      rw [hdense, List.forall_mem_cons, denseFrom_snd h]
      exact ⟨Int.natCast_nonneg _, ih h⟩

/-- Checked strides are the strides, and are made if every extent is in range and the product of those behind the
last 0. -/
theorem denseFrom?_eq_some {s : Shape} {r : Strides × Int} : denseFrom? s = some r ↔
    r = denseFrom s ∧ (∀ n ∈ s, n < 2 ^ 63) ∧ s.trailing.size < 2 ^ 63 := by
  induction s generalizing r with
  | nil =>
      have hone : trailing [] = [] := rfl
      rw [denseFrom?, denseFrom, hone, size_nil, Option.some.injEq, eq_comm]
      exact (and_iff_left ⟨List.forall_mem_nil _, by decide⟩).symm
  | cons n s ih =>
      rw [List.forall_mem_cons, size_trailing_cons_lt (by decide)]
      constructor
      · intro h
        obtain ⟨q, hq, h⟩ := Option.bind_eq_some_iff.mp h
        obtain ⟨extent, hextent, h⟩ := Option.bind_eq_some_iff.mp h
        obtain ⟨next, hnext, h⟩ := Option.bind_eq_some_iff.mp h
        obtain ⟨rfl, hs, htrailing⟩ := ih.mp hq
        obtain ⟨hn, rfl⟩ := Word.inSigned?_eq_some.mp hextent
        obtain ⟨hproduct, rfl⟩ := Word.inSigned?_eq_some.mp hnext
        have hn : n < 2 ^ 63 := by omega
        rw [denseFrom_snd hs] at hproduct
        refine ⟨?_, ⟨hn, hs⟩, htrailing, by exact_mod_cast hproduct.2⟩
        rw [denseFrom, Word.signed_of_lt hn]
        exact (Option.some.inj h).symm
      · rintro ⟨rfl, ⟨hn, hs⟩, htrailing, hproduct⟩
        have hproduct : (denseFrom s).2 * n < 2 ^ 63 := by
          rw [denseFrom_snd hs]
          exact_mod_cast hproduct
        have hnonneg : 0 ≤ (denseFrom s).2 * n := by
          rw [denseFrom_snd hs]
          exact_mod_cast Nat.zero_le _
        rw [denseFrom?, ih.mpr ⟨rfl, hs, htrailing⟩, denseFrom, Word.signed_of_lt hn]
        simp only [Option.bind_eq_bind, Option.bind_some, Word.inSigned?_natCast hn,
          Word.inSigned?_of_lt hnonneg hproduct]
        rfl

theorem denseFrom?_eq_some_iff {s : Shape} :
    denseFrom? s = some (denseFrom s) ↔ (∀ n ∈ s, n < 2 ^ 63) ∧ s.trailing.size < 2 ^ 63 :=
  denseFrom?_eq_some.trans (and_iff_right rfl)

/-! ### Addresses -/

theorem dot_nonneg {strides : Strides} (h : ∀ stride ∈ strides, 0 ≤ stride) (index : Index) :
    0 ≤ dot strides (index.map Int.ofNat) := by
  induction strides generalizing index with
  | nil => exact Int.le_refl 0
  | cons stride strides ih =>
      obtain ⟨hstride, h⟩ := List.forall_mem_cons.mp h
      cases index with
      | nil => exact Int.le_refl 0
      | cons i index => exact Int.add_nonneg (Int.mul_nonneg (Int.natCast_nonneg i) hstride) (ih h index)

/-- Leading coordinates lead no further than all of them. -/
theorem dot_take_le {strides : Strides} (h : ∀ stride ∈ strides, 0 ≤ stride) (index : Index) (n : Nat) :
    dot strides ((index.take n).map Int.ofNat) ≤ dot strides (index.map Int.ofNat) := by
  induction strides generalizing index n with
  | nil => exact Int.le_refl 0
  | cons stride strides ih =>
      cases n with
      | zero => exact dot_nonneg h index
      | succ n =>
          cases index with
          | nil => exact Int.le_refl 0
          | cons i index => exact Int.add_le_add_left (ih (List.forall_mem_cons.mp h).2 index n) _

end Strides

namespace Access

open Shape

/-- Where no step is refused, all steps together lead as far as the coordinates say. -/
theorem foldlM_move?_eq_some {strides : Strides} {index : Index} {element r : Int}
    (h : (index.zip strides).foldlM move? element = some r) :
    r = element + Strides.dot strides (index.map Int.ofNat) := by
  induction index generalizing strides element with
  | nil =>
      obtain rfl := Option.some.inj h
      rw [List.map_nil, Strides.dot_nil, Int.add_zero]
  | cons i index ih =>
      cases strides with
      | nil =>
          obtain rfl := Option.some.inj h
          exact (Int.add_zero _).symm
      | cons stride strides =>
          rw [List.zip_cons_cons, List.foldlM_cons] at h
          obtain ⟨next, hnext, h⟩ := Option.bind_eq_some_iff.mp h
          simp only [move?, Option.bind_eq_bind, Option.bind_eq_some_iff] at hnext
          obtain ⟨coordinate, hcoordinate, distance, hdistance, hnext⟩ := hnext
          obtain ⟨_, rfl⟩ := Word.inSigned?_eq_some.mp hcoordinate
          obtain ⟨_, rfl⟩ := Word.inSigned?_eq_some.mp hdistance
          obtain ⟨_, rfl⟩ := Word.inSigned?_eq_some.mp hnext
          rw [ih h, Int.add_assoc]
          rfl

/-- Steps along strides that are not negative are not refused if the last address is in range. -/
theorem foldlM_move? {strides : Strides} (hstrides : ∀ stride ∈ strides, 0 ≤ stride) {index : Index}
    (hindex : ∀ i ∈ index, i < 2 ^ 63) {element : Int} (helement : 0 ≤ element)
    (h : element + Strides.dot strides (index.map Int.ofNat) < 2 ^ 63) :
    (index.zip strides).foldlM move? element
      = some (element + Strides.dot strides (index.map Int.ofNat)) := by
  induction index generalizing strides element with
  | nil =>
      rw [List.map_nil, Strides.dot_nil, Int.add_zero]
      rfl
  | cons i index ih =>
      cases strides with
      | nil => exact congrArg some (Int.add_zero _).symm
      | cons stride strides =>
          obtain ⟨hstride, hstrides⟩ := List.forall_mem_cons.mp hstrides
          obtain ⟨hi, hindex⟩ := List.forall_mem_cons.mp hindex
          have hdot : Strides.dot (stride :: strides) ((i :: index).map Int.ofNat)
              = (i : Int) * stride + Strides.dot strides (index.map Int.ofNat) := rfl
          have hdistance : 0 ≤ (i : Int) * stride := Int.mul_nonneg (Int.natCast_nonneg i) hstride
          have hrest := Strides.dot_nonneg hstrides index
          rw [hdot] at h ⊢
          have hmove : move? element (i, stride) = some (element + i * stride) := by
            unfold move?
            simp only [Option.bind_eq_bind, Word.inSigned?_natCast hi, Option.bind_some,
              Word.inSigned?_of_lt hdistance (by omega)]
            exact Word.inSigned?_of_lt (by omega) (by omega)
          rw [List.zip_cons_cons, List.foldlM_cons, hmove, Option.bind_eq_bind, Option.bind_some,
            ih hstrides hindex (by omega) (by omega), Int.add_assoc]

theorem byteOffset?_eq_some {a : Access} {index : Index} {r : Int} (h : a.byteOffset? index = some r) :
    (a.offset + Strides.dot a.strides (index.map Int.ofNat)) * a.elementSize < 2 ^ 63 := by
  simp only [byteOffset?, Option.bind_eq_bind, Option.bind_eq_some_iff] at h
  obtain ⟨offset, hoffset, element, helement, size, hsize, h⟩ := h
  obtain ⟨_, rfl⟩ := Word.inSigned?_eq_some.mp hoffset
  obtain ⟨_, rfl⟩ := Word.inSigned?_eq_some.mp hsize
  obtain rfl := foldlM_move?_eq_some helement
  exact (Word.inSigned?_eq_some.mp h).1.2

/-- An address is in range if the byte it comes to is, since the strides are not negative. -/
theorem byteOffset?_of_lt {a : Access} (hstrides : ∀ stride ∈ a.strides, 0 ≤ stride) {index : Index}
    (hindex : ∀ i ∈ index, i < 2 ^ 63) (hsize : 0 < a.elementSize) (hsmall : a.elementSize < 2 ^ 63)
    (h : (a.offset + Strides.dot a.strides (index.map Int.ofNat)) * a.elementSize < 2 ^ 63) :
    a.byteOffset? index = some (a.byteOffset index) := by
  have hdot := Strides.dot_nonneg hstrides index
  have hnonneg : 0 ≤ a.offset + Strides.dot a.strides (index.map Int.ofNat) := by omega
  have helement : a.offset + Strides.dot a.strides (index.map Int.ofNat) < 2 ^ 63 := by
    have hscaled := Int.mul_le_mul_of_nonneg_left (show 1 ≤ (a.elementSize : Int) by omega) hnonneg
    rw [Int.mul_one] at hscaled
    exact Int.lt_of_le_of_lt hscaled h
  have hoffset : a.offset < 2 ^ 63 := by omega
  have hproduct : 0 ≤ (a.offset + Strides.dot a.strides (index.map Int.ofNat)) * a.elementSize :=
    Int.mul_nonneg hnonneg (Int.natCast_nonneg _)
  have hcoordinates : index.map Word.signed = index.map Int.ofNat :=
    List.map_congr_left fun i hi => Word.signed_of_lt (hindex i hi)
  rw [byteOffset, element, hcoordinates, Word.signed_of_lt hoffset]
  unfold byteOffset?
  simp only [Option.bind_eq_bind, Word.inSigned?_natCast hoffset, Option.bind_some,
    foldlM_move? hstrides hindex (Int.natCast_nonneg _) helement, Word.inSigned?_natCast hsmall]
  exact Word.inSigned?_of_lt hproduct h

/-- Steps inside a tile are in range if both products are; the first is left out where the tile has one
dimension. -/
theorem tileStrides?_eq_some_iff {a : Access} {front : Strides} {first last : Int} {tileRank : Nat}
    (hstrides : a.strides = front ++ [first, last]) (hsize : a.elementSize < 2 ^ 63)
    (hlast : Word.inSigned? (last * a.elementSize) = some (last * a.elementSize)) :
    a.tileStrides? tileRank = some (a.tileStrides tileRank) ↔
      (tileRank = 2 → Word.inSigned? (first * a.elementSize) = some (first * a.elementSize)) := by
  have hends : a.strides.getLast?.getD 0 = last ∧ a.strides.dropLast.getLast?.getD 0 = first := by
    rw [hstrides]
    simp
  unfold tileStrides? tileStrides
  simp only [hends, Word.inSigned?_natCast hsize, hlast, Option.bind_eq_bind, Option.bind_some]
  by_cases htile : tileRank = 2
  · simp only [htile, if_true, true_imp_iff]
    constructor
    · intro h
      obtain ⟨r, hr, _⟩ := Option.bind_eq_some_iff.mp h
      obtain ⟨_, rfl⟩ := Word.inSigned?_eq_some.mp hr
      exact hr
    · intro h
      rw [h]
      rfl
  · simp [htile]

end Access

theorem DType.size_le (t : DType) : t.size ≤ 8 := by cases t <;> decide

namespace Planner

open Shape

/-! ### One access -/

theorem accessStrides_nonneg {d t : Shape} (h : ∀ n ∈ t, n < 2 ^ 63) :
    ∀ stride ∈ accessStrides d t, 0 ≤ stride := by
  intro stride hstride
  obtain ⟨k, hk⟩ := List.mem_iff_getElem?.mp hstride
  rw [accessStrides, List.getElem?_zipWith_eq_some] at hk
  obtain ⟨_, dense, _, hdense, rfl⟩ := hk
  dsimp only
  split
  · exact Strides.dense_nonneg h dense (List.mem_of_getElem? hdense)
  · exact Int.le_refl 0

/-- The strides of the two inner dimensions. -/
theorem accessStrides_append_pair {front frontT : Shape} (h : frontT.length = front.length) (m j n i : Nat) :
    ∃ strides, accessStrides (front ++ [m, j]) (frontT ++ [n, i])
      = strides ++ [if n = m ∧ 1 < m then 1 * Word.signed i else 0, if i = j ∧ 1 < j then 1 else 0] := by
  induction frontT generalizing front with
  | nil =>
      obtain rfl := List.length_eq_zero_iff.mp h.symm
      exact ⟨[], rfl⟩
  | cons k frontT ih =>
      cases front with
      | nil => cases h
      | cons l front =>
          obtain ⟨strides, hstrides⟩ := ih (Nat.succ.inj h)
          exact ⟨(if k = l ∧ 1 < l then (Strides.denseFrom (frontT ++ [n, i])).2 else 0) :: strides,
            congrArg (_ :: ·) hstrides⟩

/-- The steps inside a tile are in range unless the tile has two dimensions, the terminal extends over the outer
one, and the bytes of its innermost dimension are no signed word. -/
theorem tileStrides?_access_iff {d spread : Shape} {t : Terminal} {tileRank : Nat}
    (hstretch : StretchesTo spread d) (hlength : 2 ≤ d.length) (hsmall : ∀ n ∈ spread, n < 2 ^ 63) :
    (access d t spread).tileStrides? tileRank = some ((access d t spread).tileStrides tileRank) ↔
      (tileRank = 2 → 1 < (innermost spread).2 → (innermost spread).1 * t.elementSize < 2 ^ 63) := by
  have hlen : spread.length = d.length := hstretch.length_eq
  obtain ⟨front, m, j, rfl⟩ := exists_eq_append_pair hlength
  obtain ⟨frontT, n, i, rfl⟩ := exists_eq_append_pair (hlen ▸ hlength)
  have hfront : frontT.length = front.length := by simpa using hlen
  have hinner : n = m ∨ n = 1 := by
    have hdrop := List.forall₂_drop frontT.length hstretch
    rw [List.drop_left, hfront, List.drop_left] at hdrop
    exact (List.forall₂_cons.mp hdrop).1
  have hi : i < 2 ^ 63 := hsmall i (by simp)
  have hbytes : t.elementSize ≤ 8 := t.dtype.size_le
  have hsize : t.elementSize < 2 ^ 63 := Nat.lt_of_le_of_lt hbytes (by decide)
  obtain ⟨strides, hstrides⟩ := accessStrides_append_pair hfront m j n i
  rw [Access.tileStrides?_eq_some_iff hstrides hsize ?_, innermost_append_pair]
  · refine imp_congr_right fun _ => ?_
    by_cases hextends : 1 < n
    · rw [if_pos (by omega), Word.signed_of_lt hi, Int.one_mul, forall_prop_of_true hextends]
      constructor
      · intro h
        have hlt := (Word.inSigned?_eq_some.mp h).1.2
        exact_mod_cast hlt
      · intro h
        exact_mod_cast Word.inSigned?_natCast h
    · rw [if_neg (by omega), Int.zero_mul]
      exact ⟨fun _ h => absurd h hextends, fun _ => rfl⟩
  · split
    · rw [Int.one_mul]
      exact Word.inSigned?_natCast hsize
    · rw [Int.zero_mul]
      rfl

/-- The last index of a domain is read at the last element. -/
theorem elementFor_last {d t : Shape} (h : t.StretchesTo d) (hd : d.Positive) :
    elementFor d t (d.size - 1) = t.size - 1 := by
  induction h with
  | nil => rfl
  | @cons n m t d hn ht ih =>
      obtain ⟨hm, hd'⟩ := positive_cons.mp hd
      have hsize : 0 < size d := size_pos_iff.mpr hd'
      have hsizeT : 0 < size t := size_pos_iff.mpr (positive_of_stretchesTo ht hd')
      have hlast : size (m :: d) - 1 = size d - 1 + (m - 1) * size d := by
        obtain ⟨m, rfl⟩ : ∃ k, m = k + 1 := ⟨m - 1, by omega⟩
        rw [size_cons, Nat.succ_mul, Nat.add_sub_cancel]
        omega
      have hdigit : (size d - 1 + (m - 1) * size d) / size d % m = m - 1 := by
        rw [Nat.add_mul_div_right _ _ hsize, Nat.div_eq_of_lt (by omega), Nat.zero_add]
        exact Nat.mod_eq_of_lt (by omega)
      have hround : elementFor d t (size d - 1 + (m - 1) * size d) = elementFor d t (size d - 1) := by
        rw [elementFor, unravel_add_mul, elementFor]
      rw [hlast, elementFor_cons ht.length_eq, hdigit, hround, ih hd', size_cons]
      by_cases hone : n = 1
      · rw [if_pos hone, hone, Nat.zero_mul, Nat.zero_add, Nat.one_mul]
      · obtain ⟨m, rfl⟩ : ∃ k, m = k + 1 := ⟨m - 1, by omega⟩
        obtain rfl : n = m + 1 := by omega
        rw [if_neg hone, Nat.succ_mul, Nat.add_sub_cancel]
        omega

/-- An extent next to another one that is no 1 is less than the size. -/
theorem innermost_fst_lt_size {s : Shape} (hpositive : s.Positive) (h : 1 < (innermost s).2) :
    (innermost s).1 < s.size := by
  rcases Nat.lt_or_ge s.length 2 with hlength | hlength
  · match s with
    | [] => exact absurd h (Nat.lt_irrefl 1)
    | [_] => exact absurd h (Nat.lt_irrefl 1)
  · obtain ⟨pre, n, i, rfl⟩ := exists_eq_append_pair hlength
    rw [innermost_append_pair] at h ⊢
    obtain ⟨hpre, hinner⟩ := positive_append.mp hpositive
    have hi : 0 < i := hinner i (by simp)
    have hdouble : 2 * i ≤ n * i := Nat.mul_le_mul_right i h
    have houter : n * i ≤ size pre * (n * i) := Nat.le_mul_of_pos_left _ (size_pos_iff.mpr hpre)
    rw [size_append, size_cons, size_cons, size_nil, Nat.mul_one]
    omega

/-- Over a domain with elements, an access is in range if the number of elements of its terminal is a signed word
and so is the byte at which the last of them begins. -/
theorem ranged_access_iff {d : Domain} {t : Terminal} {spread : Shape}
    (hstretch : StretchesTo spread d.extents) (hpositive : d.extents.Positive) (hlength : 2 ≤ d.rank)
    (hextents : ∀ m ∈ d.extents, m < 2 ^ 63) :
    (access d.extents t spread).Ranged d spread ↔
      spread.size < 2 ^ 63 ∧ (t.offset + spread.size - 1) * t.elementSize < 2 ^ 63 := by
  have hspread : spread.Positive := positive_of_stretchesTo hstretch hpositive
  have hpos : 0 < spread.size := size_pos_iff.mpr hspread
  have hbytes : t.elementSize ≤ 8 := t.dtype.size_le
  have hread (hsize : spread.size < 2 ^ 63) (k : Nat) :
      Strides.dot (accessStrides d.extents spread) ((d.extents.unravel k).map Int.ofNat)
        = elementFor d.extents spread k :=
    dot_accessStrides_of_size_lt hstretch hpositive (Nat.lt_trans hsize (by decide)) k
  constructor
  · intro h
    have hsize := (Strides.denseFrom?_eq_some_iff.mp h.dense).2
    rw [hspread.trailing_eq] at hsize
    refine ⟨hsize, ?_⟩
    have hlast := Access.byteOffset?_eq_some
      (h.byteOffset _ (unravel_inBounds hpositive (d.extents.size - 1)) d.extents.length)
    rw [List.take_of_length_le (Nat.le_of_eq (length_unravel ..)), access, hread hsize,
      elementFor_last hstretch hpositive] at hlast
    have hsum : t.offset + spread.size - 1 = t.offset + (spread.size - 1) := by omega
    rw [hsum]
    exact_mod_cast hlast
  · rintro ⟨hsize, hlast⟩
    have hsmall : ∀ n ∈ spread, n < 2 ^ 63 := fun n hn =>
      Nat.lt_of_le_of_lt (le_size_of_mem hspread hn) hsize
    have hnonneg := accessStrides_nonneg (d := d.extents) hsmall
    refine ⟨?_, ?_, fun index hindex n => ?_⟩
    · exact Strides.denseFrom?_eq_some_iff.mpr ⟨hsmall, by rwa [hspread.trailing_eq]⟩
    · refine (tileStrides?_access_iff hstretch hlength hsmall).mpr fun _ hextends => ?_
      have hle := innermost_fst_lt_size hspread hextends
      exact Nat.lt_of_le_of_lt (Nat.mul_le_mul_right _ (by omega)) hlast
    · have hcoordinates : ∀ i ∈ index.take n, i < 2 ^ 63 := fun i hi => by
        obtain ⟨k, hk, rfl⟩ := List.mem_iff_getElem.mp (List.mem_of_mem_take hi)
        have hbound := hindex.get hk (hindex.length_eq ▸ hk)
        exact Nat.lt_trans hbound (hextents _ (List.getElem_mem _))
      refine Access.byteOffset?_of_lt hnonneg hcoordinates t.dtype.size_pos
        (Nat.lt_of_le_of_lt hbytes (by decide)) ?_
      have hprefix := Strides.dot_take_le hnonneg index n
      have hwhole := hread hsize (d.extents.ravel index)
      have hlt := elementFor_lt (broadcastsTo_of_stretchesTo hstretch) hpositive (d.extents.ravel index)
      rw [unravel_ravel hindex] at hwhole
      have hsum : (t.offset : Int) + Strides.dot (accessStrides d.extents spread) ((index.take n).map Int.ofNat)
          ≤ (t.offset + spread.size - 1 : Nat) := by omega
      exact Int.lt_of_le_of_lt (Int.mul_le_mul_of_nonneg_right hsum (Int.natCast_nonneg _)) (by exact_mod_cast hlast)

end Planner

end TensorGraph
