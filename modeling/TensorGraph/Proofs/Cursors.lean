import TensorGraph.Proofs.Gathering
import TensorGraph.Proofs.Signed

/-! # Cursors in machine words

A cursor keeps its address by differences: a dimension that counts on adds its stride, and one that wraps takes the
whole row back.  In signed words each of these values may overflow.  `Cursor.takeWith` walks with a way to make every
value a signed word, which either drops what does not fit (`Word.wrap?`) or refuses it (`Word.inSigned?`); both give
values that differ by whole rounds of the word (`Word.Faithful`), so that as unsigned words the addresses are those
of the exact walk (`takeWith_eq_some`).  Wrapping never stops a walk, and checking does not stop one if the offset
and all rows together are in range (`exists_takeWith_inSigned?`).

Addresses are reported as unsigned words.  `Cursor.passes_in_order` says that where the exact addresses are such
words, each walk passes them in row-major order, one for every element, and always knows how many are left. -/

namespace TensorGraph

open Shape

/-! ### Making values signed words -/

namespace Word

/-- The signed word with the low bits of a value. -/
def wrap? (x : Int) : Option Int := some (Int.bmod x size)

/-- What a value becomes differs from it by whole rounds. -/
def Faithful (fit : Int → Option Int) : Prop := ∀ x y, fit x = some y → y ≡ x [ZMOD size]

theorem faithful_wrap? : Faithful wrap? := by
  rintro x y h
  obtain rfl := Option.some.inj h
  exact Int.bmod_emod

theorem faithful_inSigned? : Faithful inSigned? := by
  rintro x y h
  obtain ⟨_, rfl⟩ := inSigned?_eq_some.mp h
  exact .refl _

/-- Counting on by a stride. -/
theorem Faithful.add_stride {fit : Int → Option Int} (hfit : Faithful fit) {x y stride counted : Int}
    (h : x ≡ y [ZMOD size]) (hcounted : fit (x + stride) = some counted) : counted ≡ y + stride [ZMOD size] :=
  (hfit _ _ hcounted).trans (h.add_right stride)

/-- The way back over a row, whose extent is made a signed word first. -/
theorem Faithful.sub_row {fit : Int → Option Int} (hfit : Faithful fit) {x y stride row back : Int} {n : Nat}
    (h : x ≡ y [ZMOD size]) (hrow : fit (stride * signed n) = some row) (hback : fit (x - row) = some back) :
    back ≡ y - stride * n [ZMOD size] := by
  have hrow : row ≡ stride * n [ZMOD size] := (hfit _ _ hrow).trans ((signed_modEq n).mul_left stride)
  exact (hfit _ _ hback).trans (h.sub hrow)

theorem inSigned?_of_natAbs_lt {x : Int} (h : x.natAbs < 2 ^ 63) : inSigned? x = some x :=
  inSigned?_eq_some.mpr ⟨by omega, rfl⟩

/-- A stride is 0 where an extent is too large for a signed word, or their product is. -/
theorem mul_signed {stride : Int} {n : Nat} (h : n * stride.natAbs < 2 ^ 63) : stride * signed n = stride * n := by
  rcases eq_or_ne stride 0 with rfl | hstride
  · rw [Int.zero_mul, Int.zero_mul]
  · have hle : n ≤ n * stride.natAbs := Nat.le_mul_of_pos_right n (Int.natAbs_pos.mpr hstride)
    rw [signed_of_lt (by omega)]

/-- The unsigned word of a value that is one. -/
theorem natCast_unsigned {x : Int} (hx : 0 ≤ x) (h : x < size) : (unsigned x : Int) = x := by
  rw [unsigned, Int.emod_eq_of_lt hx h, Int.toNat_of_nonneg hx]

end Word

/-- How far the rows of a shape lead, all together and in either direction. -/
def Strides.reach : Shape → Strides → Nat
  | n :: s, stride :: strides => n * stride.natAbs + reach s strides
  | _, _ => 0

namespace Cursor

/-- One odometer step with the address itself: every dimension that counts on adds its stride, and one that wraps
takes back the row that it has walked. -/
def advanceWith (fit : Int → Option Int) : Shape → Strides → Index → Int → Option (Index × Int × Bool)
  | n :: shape, stride :: strides, i :: index, current => do
    match ← advanceWith fit shape strides index current with
    | (tail, current, false) => return (i :: tail, current, false)
    | (tail, current, true) =>
      let current ← fit (current + stride)
      if i + 1 < n then return ((i + 1) :: tail, current, false)
      else
        let row ← fit (stride * Word.signed (i + 1))
        let current ← fit (current - row)
        return (0 :: tail, current, true)
  | _, _, index, current => some (index, current, true)

/-- At most `n` further addresses as unsigned words, and the walk after them. -/
def takeWith (fit : Int → Option Int) : Nat → Cursor → Option (List Nat × Cursor)
  | 0, c => some ([], c)
  | n + 1, c =>
    match c.remaining with
    | 0 => some ([], c)
    | left + 1 => do
      let (index, current, _) ← advanceWith fit c.layout.shape c.layout.strides c.index c.current
      let (values, last) ← takeWith fit n { c with index := index, current := current, remaining := left }
      return (Word.unsigned c.current :: values, last)

/-- The start of a walk in words: the number of elements is an unsigned word. -/
def startInWords (l : Layout) : Cursor := { start l with remaining := l.size % Word.size }

/-- The start of a walk whose elements are counted with every product checked, from the outermost extent on. -/
def startChecked? (l : Layout) : Option Cursor :=
  (Word.product? l.shape).map fun n => { start l with remaining := n }

/-! ### The exact walk -/

/-- Two walks at the same index, with addresses that differ by whole rounds. -/
structure SameWord (c d : Cursor) : Prop where
  layout : d.layout = c.layout
  index : d.index = c.index
  current : d.current ≡ c.current [ZMOD Word.size]
  remaining : d.remaining = c.remaining

variable {fit : Int → Option Int}

/-- A step in words reaches the index and, up to whole rounds, the address of the exact step. -/
theorem advanceWith_eq_some (hfit : Word.Faithful fit) {s : Shape} {strides : Strides} {index next : Index}
    {current reached : Int} {wrapped : Bool}
    (h : advanceWith fit s strides index current = some (next, reached, wrapped)) :
    ∃ change, advance s strides index = (next, change, wrapped) ∧ reached ≡ current + change [ZMOD Word.size] := by
  have hstop {index next : Index} {reached : Int} {wrapped : Bool}
      (h : some (index, current, true) = some (next, reached, wrapped)) :
      ∃ change, (index, (0 : Int), true) = (next, change, wrapped) ∧ reached ≡ current + change [ZMOD Word.size] := by
    obtain ⟨rfl, rfl, rfl⟩ := Option.some.inj h
    exact ⟨0, rfl, by rw [Int.add_zero]⟩
  induction s generalizing strides index next reached wrapped with
  | nil => exact hstop h
  | cons n s ih =>
      cases strides with
      | nil => exact hstop h
      | cons stride strides =>
          cases index with
          | nil => exact hstop h
          | cons i index =>
              obtain ⟨⟨tail, inner, carried⟩, htail, h⟩ := Option.bind_eq_some_iff.mp h
              obtain ⟨change, hadvance, hinner⟩ := ih htail
              rw [advance, hadvance]
              cases carried with
              | false =>
                  cases Option.some.inj h
                  exact ⟨change, rfl, hinner⟩
              | true =>
                  obtain ⟨counted, hcounted, h⟩ := Option.bind_eq_some_iff.mp h
                  have hcounted := hfit.add_stride hinner hcounted
                  rw [Int.add_assoc] at hcounted
                  dsimp only at h ⊢
                  split at h
                  · rename_i hi
                    cases Option.some.inj h
                    exact ⟨_, if_pos hi, hcounted⟩
                  · rename_i hi
                    obtain ⟨row, hrow, h⟩ := Option.bind_eq_some_iff.mp h
                    obtain ⟨back, hback, h⟩ := Option.bind_eq_some_iff.mp h
                    cases Option.some.inj h
                    have hback := hfit.sub_row hcounted hrow hback
                    rw [Int.add_sub_assoc] at hback
                    exact ⟨_, if_neg hi, hback⟩

/-- What a walk in words passes is what the exact one passes, read as unsigned words. -/
theorem takeWith_eq_some (hfit : Word.Faithful fit) {m : Nat} {c d last : Cursor} {values : List Nat}
    (hsame : SameWord c d) (h : takeWith fit m d = some (values, last)) :
    values = (take m c).1.map Word.unsigned ∧ SameWord (take m c).2 last := by
  induction m generalizing c d values last with
  | zero =>
      obtain ⟨rfl, rfl⟩ := Option.some.inj h
      exact ⟨rfl, hsame⟩
  | succ m ih =>
      obtain ⟨_, _, current, _⟩ := c
      obtain ⟨layout, index, reached, remaining⟩ := d
      obtain ⟨hlayout, hindex, hcurrent, hremaining⟩ := hsame
      dsimp only at hlayout hindex hcurrent hremaining
      subst hlayout hindex hremaining
      cases remaining with
      | zero =>
          obtain ⟨rfl, rfl⟩ := Option.some.inj h
          exact ⟨rfl, rfl, rfl, hcurrent, rfl⟩
      | succ left =>
          obtain ⟨⟨next, reached', wrapped⟩, hadvance, h⟩ := Option.bind_eq_some_iff.mp h
          obtain ⟨⟨more, last⟩, hmore, h⟩ := Option.bind_eq_some_iff.mp h
          obtain ⟨rfl, rfl⟩ := Option.some.inj h
          obtain ⟨change, hexact, hreached⟩ := advanceWith_eq_some hfit hadvance
          have hstep : SameWord ⟨layout, next, current + change, left⟩ ⟨layout, next, reached', left⟩ :=
            ⟨rfl, rfl, hreached.trans (hcurrent.add_right change), rfl⟩
          obtain ⟨rfl, hlast⟩ := ih hstep hmore
          simp only [take, next?, hexact, List.map_cons, Word.unsigned_eq_of_modEq hcurrent, true_and]
          exact hlast

/-! ### Walks in words that are not stopped -/

theorem exists_advanceWith_wrap? (s : Shape) (strides : Strides) (index : Index) (current : Int) :
    ∃ r, advanceWith Word.wrap? s strides index current = some r := by
  induction s generalizing strides index with
  | nil => exact ⟨_, rfl⟩
  | cons n s ih =>
      cases strides with
      | nil => exact ⟨_, rfl⟩
      | cons stride strides =>
          cases index with
          | nil => exact ⟨_, rfl⟩
          | cons i index =>
              obtain ⟨⟨tail, reached, wrapped⟩, htail⟩ := ih strides index
              rw [advanceWith, htail]
              cases wrapped with
              | false => exact ⟨_, rfl⟩
              | true =>
                  simp only [Word.wrap?, Option.bind_eq_bind, Option.bind_some]
                  split <;> exact ⟨_, rfl⟩

/-- A walk is not stopped if no step is, from cursors of a kind that every step leads to again. -/
theorem exists_takeWith {P : Cursor → Prop} (hstep : ∀ c, P c → ∀ left, c.remaining = left + 1 → ∃ r,
      advanceWith fit c.layout.shape c.layout.strides c.index c.current = some r ∧
        P { c with index := r.1, current := r.2.1, remaining := left })
    (m : Nat) {c : Cursor} (hc : P c) : ∃ values last, takeWith fit m c = some (values, last) := by
  induction m generalizing c with
  | zero => exact ⟨_, _, rfl⟩
  | succ m ih =>
      rw [takeWith]
      cases hremaining : c.remaining with
      | zero => exact ⟨_, _, rfl⟩
      | succ left =>
          obtain ⟨r, hadvance, hnext⟩ := hstep c hc left hremaining
          obtain ⟨values, last, hrest⟩ := ih hnext
          simp only [hadvance, Option.bind_eq_bind, Option.bind_some, hrest]
          exact ⟨_, _, rfl⟩

theorem exists_takeWith_wrap? (m : Nat) (c : Cursor) :
    ∃ values last, takeWith Word.wrap? m c = some (values, last) := by
  refine exists_takeWith (P := fun _ => True) (fun c _ left _ => ?_) m trivial
  obtain ⟨r, hr⟩ := exists_advanceWith_wrap? c.layout.shape c.layout.strides c.index c.current
  exact ⟨r, hr, trivial⟩

end Cursor

namespace Shape

/-- When the odometer wraps it is at the first index again. -/
theorem next_of_wrapped {s : Shape} {index tail : Index} (hlength : index.length = s.length)
    (h : s.next index = (tail, true)) : tail = List.replicate s.length 0 := by
  induction s generalizing index tail with
  | nil =>
      obtain rfl := List.length_eq_zero_iff.mp hlength
      obtain ⟨rfl, _⟩ := Prod.mk.inj h
      rfl
  | cons n s ih =>
      cases index with
      | nil => cases hlength
      | cons i index =>
          rw [next] at h
          rcases hrest : Shape.next s index with ⟨rest, wrapped⟩
          rw [hrest] at h
          cases wrapped with
          | false => cases h
          | true =>
              dsimp only at h
              split at h
              · cases h
              · obtain ⟨rfl, _⟩ := Prod.mk.inj h
                rw [ih (Nat.succ.inj hlength) hrest]
                rfl

theorem next_inBounds {s : Shape} {index : Index} (h : s.InBounds index) : s.InBounds (s.next index).1 := by
  induction h with
  | nil => exact .nil
  | @cons i n index s hi _ ih =>
      rw [next]
      rcases hrest : Shape.next s index with ⟨rest, wrapped⟩
      rw [hrest] at ih
      cases wrapped with
      | false => exact .cons hi ih
      | true =>
          dsimp only
          split
          · exact .cons ‹_› ih
          · exact .cons (Nat.zero_lt_of_lt hi) ih

end Shape

/-- Along a row that is in range, so are the next address, the whole row up to there, and the way back. -/
theorem Word.inSigned?_row {base stride : Int} {i n : Nat} (hi : i < n)
    (h : base.natAbs + n * stride.natAbs < 2 ^ 63) :
    inSigned? (base + i * stride + stride) = some (base + (i + 1 : Nat) * stride) ∧
    inSigned? (stride * signed (i + 1)) = some (stride * (i + 1 : Nat)) ∧
    inSigned? (base + (i + 1 : Nat) * stride - stride * (i + 1 : Nat)) = some base := by
  have hrow : (i + 1) * stride.natAbs ≤ n * stride.natAbs := Nat.mul_le_mul_right _ hi
  have hsum := Int.natAbs_add_le base ((i + 1 : Nat) * stride)
  rw [Int.natAbs_mul, Int.natAbs_natCast] at hsum
  refine ⟨?_, ?_, ?_⟩
  · have hnext : base + i * stride + stride = base + (i + 1 : Nat) * stride := by
      push_cast
      ring
    rw [hnext]
    exact inSigned?_of_natAbs_lt (by omega)
  · rw [mul_signed (by omega)]
    refine inSigned?_of_natAbs_lt ?_
    rw [Int.natAbs_mul, Int.natAbs_natCast, Nat.mul_comm]
    omega
  · rw [Int.mul_comm, Int.add_sub_cancel]
    exact inSigned?_of_natAbs_lt (by omega)

namespace Cursor

/-- If the address and all rows together are in range, so is whatever a step computes. -/
theorem advanceWith_inSigned? {s : Shape} {strides : Strides} {index : Index} {base : Int}
    (hlength : strides.length = s.length) (hindex : s.InBounds index)
    (h : base.natAbs + Strides.reach s strides < 2 ^ 63) :
    advanceWith Word.inSigned? s strides index (base + Strides.dot strides (index.map Int.ofNat))
      = some ((s.next index).1, base + Strides.dot strides ((s.next index).1.map Int.ofNat),
        (s.next index).2) := by
  induction hindex generalizing strides base with
  | nil =>
      obtain rfl := List.length_eq_zero_iff.mp hlength
      rfl
  | @cons i n index s hi hindex ih =>
      cases strides with
      | nil => cases hlength
      | cons stride strides =>
          have hdot (j : Nat) (rest : Index) : Strides.dot (stride :: strides) ((j :: rest).map Int.ofNat)
              = j * stride + Strides.dot strides (rest.map Int.ofNat) := rfl
          rw [Strides.reach] at h
          -- The inner dimensions start from where the coordinate `i` leads.
          have hinner : (base + i * stride).natAbs + Strides.reach s strides < 2 ^ 63 := by
            have hle : i * stride.natAbs ≤ n * stride.natAbs := Nat.mul_le_mul_right _ hi.le
            have hadd := Int.natAbs_add_le base (i * stride)
            rw [Int.natAbs_mul, Int.natAbs_natCast] at hadd
            omega
          have hwalked : base.natAbs + n * stride.natAbs < 2 ^ 63 := by omega
          obtain ⟨hcounted, hrow, hback⟩ := Word.inSigned?_row hi hwalked
          rw [hdot, ← Int.add_assoc, advanceWith, ih (Nat.succ.inj hlength) hinner, Shape.next]
          rcases hrest : Shape.next s index with ⟨tail, wrapped⟩
          cases wrapped with
          | false =>
              simp only [Option.bind_eq_bind, Option.bind_some, hdot, Int.add_assoc]
              rfl
          | true =>
              obtain rfl := next_of_wrapped hindex.length_eq hrest
              simp only [Option.bind_eq_bind, Option.bind_some, Strides.dot_zeros, Int.add_zero, hcounted]
              split
              · simp only [hdot, Strides.dot_zeros, Int.add_zero]
                rfl
              · simp only [hrow, Option.bind_some, hback, hdot, Strides.dot_zeros]
                rw [Int.natCast_zero, Int.zero_mul, Int.zero_add, Int.add_zero]
                rfl

/-- Checking does not stop a walk whose offset and rows are in range. -/
theorem exists_takeWith_inSigned? {l : Layout} (hlength : l.strides.length = l.shape.length)
    (hreach : l.offset + Strides.reach l.shape l.strides < 2 ^ 63) (m : Nat) :
    ∃ values last, takeWith Word.inSigned? m (startInWords l) = some (values, last) := by
  rcases Nat.eq_zero_or_pos l.size with hzero | hpos
  · refine exists_takeWith (P := fun c => c.remaining = 0) (fun c hc left h => ?_) m ?_
    · rw [hc] at h
      cases h
    · rw [startInWords, hzero]
      rfl
  · have hpositive : l.shape.Positive := size_pos_iff.mp hpos
    refine exists_takeWith (P := fun c => c.layout = l ∧ l.shape.InBounds c.index ∧
      c.current = l.offset + Strides.dot l.strides (c.index.map Int.ofNat)) (fun c hc left _ => ?_) m ?_
    · obtain ⟨rfl, hindex, hcurrent⟩ := hc
      rw [hcurrent, advanceWith_inSigned? hlength hindex (by rwa [Int.natAbs_natCast])]
      exact ⟨_, rfl, rfl, next_inBounds hindex, rfl⟩
    · refine ⟨rfl, ?_, ?_⟩
      · rw [startInWords, start, Layout.rank, ← unravel_zero]
        exact unravel_inBounds hpositive 0
      · dsimp only [startInWords, start]
        rw [Strides.dot_zeros, Int.add_zero, Word.signed_of_lt (by omega)]

/-! ### What a walk passes -/

end Cursor

/-- What a walk over a layout has passed after a number of steps, and the walk after them: one address for each
element, as long as there are any, in row-major order; and it knows how many are left. -/
structure Layout.Passed (l : Layout) (m : Nat) (values : List Nat) (last : Cursor) : Prop where
  length : values.length = min m l.size
  address : ∀ k value : Nat, values[k]? = some value → (value : Int) = l.address (l.shape.unravel k)
  remaining : values.length + last.remaining = l.size

namespace Cursor

/-- The exact walk, read as unsigned words. -/
theorem passed_take {l : Layout} (hlength : l.strides.length = l.shape.length)
    (haddress : ∀ index, l.shape.InBounds index → 0 ≤ l.address index ∧ l.address index < Word.size) (m : Nat) :
    l.Passed m ((take m (start l)).1.map Word.unsigned) (take m (start l)).2 where
  length := by rw [List.length_map, length_take, start]
  remaining := by
    rw [List.length_map, length_take, remaining_take, start]
    dsimp only
    omega
  address k value h := by
    rw [take_start hlength, List.map_map, List.getElem?_map, Option.map_eq_some_iff] at h
    obtain ⟨number, hnumber, rfl⟩ := h
    obtain ⟨hk, hget⟩ := List.getElem?_eq_some_iff.mp hnumber
    rw [List.getElem_range] at hget
    rw [List.length_range] at hk
    subst hget
    have hpositive : l.shape.Positive := size_pos_iff.mp (Nat.zero_lt_of_lt (Nat.lt_of_lt_of_le hk (Nat.min_le_right ..)))
    have hsame : Word.signed l.offset + Strides.dot l.strides ((l.shape.unravel k).map Int.ofNat)
        ≡ l.address (l.shape.unravel k) [ZMOD Word.size] := (Word.signed_modEq l.offset).add_right _
    obtain ⟨hnonneg, hword⟩ := haddress _ (unravel_inBounds hpositive k)
    rw [Function.comp_apply, Word.unsigned_eq_of_modEq hsame, Word.natCast_unsigned hnonneg hword]

/-- What a walk in words passes, unless it is stopped. -/
theorem passed_takeWith {l : Layout} (hlength : l.strides.length = l.shape.length) (hsize : l.size < Word.size)
    (haddress : ∀ index, l.shape.InBounds index → 0 ≤ l.address index ∧ l.address index < Word.size)
    {fit : Int → Option Int} (hfit : Word.Faithful fit) {m : Nat} {values : List Nat} {last : Cursor}
    (h : takeWith fit m (startInWords l) = some (values, last)) : l.Passed m values last := by
  have hstart : SameWord (start l) (startInWords l) := by
    rw [startInWords, Nat.mod_eq_of_lt hsize]
    refine ⟨rfl, rfl, ?_, rfl⟩
    dsimp only
    exact .refl _
  obtain ⟨rfl, hlast⟩ := takeWith_eq_some hfit hstart h
  have hexact := passed_take hlength haddress m
  exact ⟨hexact.length, hexact.address, by rw [hlast.remaining]; exact hexact.remaining⟩

/-- Counting with every product checked gives the number of elements, unless the extents in front of the first 0
overflow. -/
theorem startChecked?_eq {l : Layout} (hsize : l.size < Word.size) :
    startChecked? l = if l.shape.leading.size < Word.size then some (startInWords l) else none := by
  rw [startChecked?, Planner.product?_eq, startInWords, Nat.mod_eq_of_lt hsize]
  split <;> rfl

/-- Where there are elements, counting them is not refused. -/
theorem startChecked?_of_pos {l : Layout} (hsize : l.size < Word.size) (hpos : 0 < l.size) :
    startChecked? l = some (startInWords l) := by
  have hzero : 0 ∉ l.shape := fun hmem => absurd (size_pos_iff.mp hpos 0 hmem) (Nat.lt_irrefl 0)
  rw [startChecked?_eq hsize, Planner.leading_of_not_mem hzero]
  exact if_pos hsize

/-- **A cursor passes the addresses in row-major order.**  Of a layout whose number of elements is an unsigned word,
and so is the exact address of every element, a cursor passes one address for each element, the `k`-th of which is
that of the `k`-th index, and after every step it reports how many are left.  The same holds of a walk in signed
words that wraps around what does not fit; and of one that refuses it, if the offset and all rows together are in
range, so that there is nothing to refuse.  The elements may be counted with every product checked, too: this is
refused only where the extents in front of the first 0 overflow, and then there are no elements. -/
theorem passes_in_order (l : Layout) (hlength : l.strides.length = l.shape.length) (hsize : l.size < Word.size)
    (haddress : ∀ index, l.shape.InBounds index → 0 ≤ l.address index ∧ l.address index < Word.size) (m : Nat) :
    l.Passed m ((take m (start l)).1.map Word.unsigned) (take m (start l)).2 ∧
    (∃ values last, takeWith Word.wrap? m (startInWords l) = some (values, last) ∧ l.Passed m values last) ∧
    (l.offset + Strides.reach l.shape l.strides < 2 ^ 63 →
      ∃ values last, takeWith Word.inSigned? m (startInWords l) = some (values, last) ∧ l.Passed m values last) ∧
    (startChecked? l = if l.shape.leading.size < Word.size then some (startInWords l) else none) ∧
    (0 < l.size → startChecked? l = some (startInWords l)) := by
  refine ⟨passed_take hlength haddress m, ?_, fun hreach => ?_, startChecked?_eq hsize, startChecked?_of_pos hsize⟩
  · obtain ⟨values, last, hwalk⟩ := exists_takeWith_wrap? m (startInWords l)
    exact ⟨values, last, hwalk, passed_takeWith hlength hsize haddress Word.faithful_wrap? hwalk⟩
  · obtain ⟨values, last, hwalk⟩ := exists_takeWith_inSigned? hlength hreach m
    exact ⟨values, last, hwalk, passed_takeWith hlength hsize haddress Word.faithful_inSigned? hwalk⟩

/-- Rows backwards, each passed three times: the first eight of twelve elements. -/
theorem passes_in_order_backwards :
    let l : Layout := ⟨[2, 3, 2], [-2, 0, 1], 2⟩
    (∀ index, l.shape.InBounds index → 0 ≤ l.address index ∧ l.address index < Word.size) ∧
    l.Passed 8 [2, 3, 2, 3, 2, 3, 0, 1] (take 8 (start l)).2 ∧ (take 8 (start l)).2.remaining = 4 ∧
    startChecked? l = some (startInWords l) ∧
    ∃ values last, takeWith Word.inSigned? 8 (startInWords l) = some (values, last) ∧ l.Passed 8 values last := by
  intro l
  have haddress : ∀ index, l.shape.InBounds index → 0 ≤ l.address index ∧ l.address index < Word.size :=
    fun index hindex => (show ∀ index ∈ l.shape.indices, 0 ≤ l.address index ∧ l.address index < Word.size by decide)
      index (mem_indices.mpr hindex)
  obtain ⟨hexact, _, hchecked, _, hcounted⟩ := passes_in_order l rfl (by decide) haddress 8
  have hvalues : (take 8 (start l)).1.map Word.unsigned = [2, 3, 2, 3, 2, 3, 0, 1] := by decide
  rw [hvalues] at hexact
  exact ⟨haddress, hexact, by decide, hcounted (by decide), hchecked (by decide)⟩

/-- An address that no word has is not passed: behind the last word comes the first one again.  And of 2⁶⁴ elements
that lie all at one address none is passed, because their number is no word. -/
theorem exists_not_passed :
    (¬ ∀ l : Layout, l.strides.length = l.shape.length → (∀ index, l.shape.InBounds index → 0 ≤ l.address index) →
      ∀ m, l.Passed m ((take m (start l)).1.map Word.unsigned) (take m (start l)).2) ∧
    ¬ ∀ l : Layout, l.strides.length = l.shape.length →
      (∀ index, l.shape.InBounds index → 0 ≤ l.address index ∧ l.address index < Word.size) →
      ∀ m values last, takeWith Word.wrap? m (startInWords l) = some (values, last) → l.Passed m values last := by
  refine ⟨fun h => ?_, fun h => ?_⟩
  · have hpassed := h ⟨[2], [1], 18446744073709551615⟩ rfl
      (fun index hindex => (show ∀ index ∈ Shape.indices [2],
        0 ≤ Layout.address ⟨[2], [1], 18446744073709551615⟩ index by decide) index (mem_indices.mpr hindex)) 2
    have hfirst := hpassed.address 1 0 (by decide)
    revert hfirst
    decide
  · let l : Layout := ⟨[4294967296, 4294967296], [0, 0], 0⟩
    have hzero (index : Index) : l.address index = 0 := by
      rw [Layout.address, show l.strides = List.replicate 2 0 from rfl, Strides.zeros_dot]
      rfl
    have hleft : (startInWords l).remaining = 0 := by decide
    have hwalk : takeWith Word.wrap? 1 (startInWords l) = some ([], startInWords l) := by rw [takeWith, hleft]
    have hpassed := h l rfl (fun index _ => by rw [hzero]; decide) 1 [] (startInWords l) hwalk
    exact absurd hpassed.length (by decide)

end Cursor

end TensorGraph
