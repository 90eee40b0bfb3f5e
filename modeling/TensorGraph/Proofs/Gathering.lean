import TensorGraph.Operators.Elementwise
import TensorGraph.Proofs.Joining
import TensorGraph.Proofs.Tiling

/-! # Reading through broadcast views

A cursor changes its address by differences, and reaches the address of every index in row-major order
(`addresses_eq`).  A dense layout stretched to a larger shape leads to the elements that broadcasting
reads (`dot_stretch`), so that gathering through the view reads the tensor through the large shape
(`getElem?_gather`).  Reading in two steps, first one shape through a second and then this one through a
third, reads the first through the third at once (`elementFor_trans`). -/

namespace TensorGraph

namespace Shape

/-! ### Reading in two steps -/

/-- Pinning to a shape and then to one that stretches to it is pinning to the second at once. -/
theorem pinned_pinned {a b : Shape} {index : Index} (h : a.StretchesTo b) :
    a.pinned (b.pinned index) = a.pinned index := by
  induction h generalizing index with
  | nil => rfl
  | @cons n m a b hn _ ih =>
      cases index with
      | nil => rfl
      | cons i index =>
          have hdigit : (if n = 1 then 0 else if m = 1 then 0 else i) = if n = 1 then 0 else i := by
            split
            · rfl
            · rw [if_neg (by omega)]
          show (if n = 1 then 0 else if m = 1 then 0 else i) :: pinned a (pinned b index) = _
          rw [hdigit, ih]
          rfl

theorem length_pinned {t : Shape} {index : Index} (h : index.length = t.length) :
    (t.pinned index).length = t.length := by
  rw [pinned, List.length_zipWith, h, Nat.min_self]

theorem pinned_drop {t : Shape} {index : Index} (m : Nat) :
    (t.pinned index).drop m = pinned (t.drop m) (index.drop m) := List.drop_zipWith

/-- A shape that broadcasts to another stretches to its innermost dimensions. -/
theorem BroadcastsTo.exists_append {t d : Shape} (h : t.BroadcastsTo d) :
    ∃ outer inner : Shape, d = outer ++ inner ∧ StretchesTo t inner :=
  ⟨_, _, (List.take_append_drop (d.length - t.length) d).symm, h.stretchesTo_drop⟩

/-- A shape that is read through one that is read through a third. -/
theorem elementFor_trans {a b c : Shape} (hab : a.BroadcastsTo b) (hbc : b.BroadcastsTo c)
    (hc : c.Positive) (k : Nat) : elementFor b a (elementFor c b k) = elementFor c a k := by
  have hindex := projected_inBounds hbc hc k
  rw [elementFor, elementFor, elementFor, unravel_ravel hindex]
  generalize hfull : c.unravel k = index
  have hlen : index.length = c.length := by rw [← hfull, length_unravel]
  have hinner : (index.drop (index.length - b.length)).length = b.length := by
    rw [List.length_drop, hlen]
    have := hbc.1
    omega
  have hab' := hab.1
  have hbc' := hbc.1
  rw [projected, projected, length_pinned hinner, pinned_drop, pinned_pinned hab.stretchesTo_drop,
    List.drop_drop, projected]
  congr 3
  omega

theorem size_le_of_broadcastsTo {t d : Shape} (h : t.BroadcastsTo d) (hd : d.Positive) : t.size ≤ d.size := by
  have hle := Planner.size_le_of_stretchesTo h.2 hd
  rwa [leftPadded, size_append, size_replicate_one, Nat.one_mul] at hle

theorem unravel_zero (s : Shape) : s.unravel 0 = List.replicate s.length 0 := by
  induction s with
  | nil => rfl
  | cons n s ih =>
      rw [unravel_eq_cons, ih, Nat.zero_div, Nat.zero_mod]
      rfl

end Shape

open Shape

/-! ### Cursors -/

namespace Strides

theorem dot_zeros (strides : Strides) (m : Nat) : dot strides ((List.replicate m 0).map Int.ofNat) = 0 := by
  induction m generalizing strides with
  | zero => exact dot_nil strides
  | succ m ih =>
      cases strides with
      | nil => rfl
      | cons stride strides =>
          show (0 : Int) * stride + dot strides _ = 0
          rw [ih, Int.zero_mul, Int.add_zero]

theorem zeros_dot (m : Nat) (index : List Int) : dot (List.replicate m 0) index = 0 := by
  induction m generalizing index with
  | zero => rfl
  | succ m ih =>
      cases index with
      | nil => exact dot_nil _
      | cons i index =>
          show i * 0 + dot (List.replicate m 0) index = 0
          rw [ih, Int.mul_zero, Int.add_zero]

end Strides

namespace Cursor

/-- A step of the cursor is one of the odometer, and the address changes by the difference. -/
theorem advance_eq {s : Shape} {strides : Strides} {index : Index} (hstrides : strides.length = s.length)
    (hindex : index.length = s.length) :
    advance s strides index = ((s.next index).1, Strides.dot strides ((s.next index).1.map Int.ofNat)
      - Strides.dot strides (index.map Int.ofNat), (s.next index).2) := by
  induction s generalizing strides index with
  | nil =>
      obtain rfl := List.length_eq_zero_iff.mp hindex
      simp [advance, Shape.next]
  | cons n s ih =>
      cases strides with
      | nil => cases hstrides
      | cons stride strides =>
          cases index with
          | nil => cases hindex
          | cons i index =>
              rw [advance, ih (Nat.succ.inj hstrides) (Nat.succ.inj hindex), Shape.next]
              rcases Shape.next s index with ⟨tail, wrapped⟩
              cases wrapped with
              | false =>
                  simp [Strides.dot]
              | true =>
                  simp only
                  split
                  · simp [Strides.dot]
                    ring
                  · simp [Strides.dot]
                    ring

theorem length_take (m : Nat) (c : Cursor) : (take m c).1.length = min m c.remaining := by
  induction m generalizing c with
  | zero => simp [take]
  | succ m ih =>
      cases hremaining : c.remaining with
      | zero => simp [take, next?, hremaining]
      | succ n =>
          simp only [take, next?, hremaining, List.length_cons, ih]
          omega

theorem remaining_take (m : Nat) (c : Cursor) : (take m c).2.remaining = c.remaining - m := by
  induction m generalizing c with
  | zero => rfl
  | succ m ih =>
      cases hremaining : c.remaining with
      | zero => simp [take, next?, hremaining]
      | succ n =>
          simp only [take, next?, hremaining, ih]
          omega

theorem take_min (m : Nat) (c : Cursor) : take (min m c.remaining) c = take m c := by
  induction m generalizing c with
  | zero => rw [Nat.zero_min]
  | succ m ih =>
      cases hremaining : c.remaining with
      | zero => simp [take, next?, hremaining]
      | succ left =>
          rw [Nat.succ_min_succ]
          simp only [take, next?, hremaining]
          rw [← ih]

/-- From the index of a number on, a cursor passes the addresses of the indices that follow. -/
theorem take_unravel {l : Layout} (hpositive : l.shape.Positive)
    (hstrides : l.strides.length = l.shape.length) (offset : Int) (m k remaining : Nat)
    (hm : m ≤ remaining) :
    (take m ⟨l, l.shape.unravel k,
        offset + Strides.dot l.strides ((l.shape.unravel k).map Int.ofNat), remaining⟩).1
      = (List.range' k m).map fun j =>
          offset + Strides.dot l.strides ((l.shape.unravel j).map Int.ofNat) := by
  induction m generalizing k remaining with
  | zero => rfl
  | succ m ih =>
      obtain ⟨remaining, rfl⟩ : ∃ n, remaining = n + 1 := ⟨remaining - 1, by omega⟩
      have hadvance := advance_eq hstrides (length_unravel l.shape k)
      rw [next_unravel hpositive] at hadvance
      simp only [take, next?, hadvance, List.range'_succ, List.map_cons]
      have haddress : offset + Strides.dot l.strides ((l.shape.unravel k).map Int.ofNat)
          + (Strides.dot l.strides ((l.shape.unravel (k + 1)).map Int.ofNat)
            - Strides.dot l.strides ((l.shape.unravel k).map Int.ofNat))
          = offset + Strides.dot l.strides ((l.shape.unravel (k + 1)).map Int.ofNat) := by ring
      rw [haddress, ih (k + 1) remaining (by omega)]

/-- An exact walk passes the addresses of the first numbers, up to whole rounds of the offset. -/
theorem take_start {l : Layout} (hlength : l.strides.length = l.shape.length) (m : Nat) :
    (take m (start l)).1 = (List.range (min m l.size)).map fun k =>
      Word.signed l.offset + Strides.dot l.strides ((l.shape.unravel k).map Int.ofNat) := by
  rcases Nat.eq_zero_or_pos l.size with hzero | hpos
  · have hnothing := length_take m (start l)
    rw [start, hzero, Nat.min_zero, List.length_eq_zero_iff] at hnothing
    rw [start, hzero, hnothing, Nat.min_zero, List.range_zero, List.map_nil]
  · have hwalk := take_unravel (size_pos_iff.mp hpos) hlength (Word.signed l.offset) (min m l.size) 0 l.size
      (Nat.min_le_right ..)
    rw [unravel_zero, Strides.dot_zeros, Int.add_zero, ← List.range_eq_range'] at hwalk
    exact (congrArg Prod.fst (take_min m (start l))).symm.trans hwalk

end Cursor

namespace Layout

theorem length_addresses (l : Layout) : l.addresses.length = l.size := by
  rw [addresses, Cursor.length_take]
  exact Nat.min_self _

/-- A cursor passes the address of every index, in row-major order. -/
theorem addresses_eq {l : Layout} (hstrides : l.strides.length = l.shape.length) :
    l.addresses = (List.range l.size).map fun k =>
      Word.signed l.offset + Strides.dot l.strides ((l.shape.unravel k).map Int.ofNat) := by
  rw [addresses, Cursor.take_start hstrides, Nat.min_self]

/-! ### Views -/

/-- Stretched dense strides lead where planned ones do. -/
theorem dot_stretch {t d : Shape} (h : t.StretchesTo d) :
    ∃ stretched, stretch t (Strides.dense t) d = some stretched ∧ stretched.length = t.length ∧
      ∀ index, d.InBounds index → Strides.dot stretched (index.map Int.ofNat)
        = Strides.dot (Planner.accessStrides d t) (index.map Int.ofNat) := by
  induction h with
  | nil => exact ⟨[], rfl, rfl, fun _ _ => rfl⟩
  | @cons n m t d hn _ ih =>
      obtain ⟨stretched, hstretch, hlen, hdot⟩ := ih
      generalize hstride : (Strides.denseFrom t).2 = stride
      have hdense : Strides.dense (n :: t) = stride :: Strides.dense t := hstride ▸ rfl
      have haccess : Planner.accessStrides (m :: d) (n :: t)
          = (if n = m ∧ 1 < m then stride else 0) :: Planner.accessStrides d t := hstride ▸ rfl
      rw [hdense, haccess]
      by_cases hsame : n = m
      · refine ⟨stride :: stretched, ?_, congrArg Nat.succ hlen, fun index hindex => ?_⟩
        · rw [stretch, if_pos hsame, hstretch]
          rfl
        · obtain _ | @⟨i, _, index, _, hi, hindex⟩ := hindex
          show Int.ofNat i * stride + _ = Int.ofNat i * (if n = m ∧ 1 < m then stride else 0) + _
          rw [hdot index hindex]
          split
          · rfl
          · obtain rfl : i = 0 := by omega
            exact congrArg (· + _) ((Int.zero_mul stride).trans (Int.zero_mul 0).symm)
      · refine ⟨0 :: stretched, ?_, congrArg Nat.succ hlen, fun index hindex => ?_⟩
        · rw [stretch, if_neg hsame, if_pos (by omega), hstretch]
          rfl
        · obtain _ | @⟨i, _, index, _, hi, hindex⟩ := hindex
          show Int.ofNat i * 0 + _ = Int.ofNat i * (if n = m ∧ 1 < m then stride else 0) + _
          rw [hdot index hindex, if_neg fun h => hsame h.1]

/-- A shape that broadcasts to another has a view of it, whose addresses are those of the elements that
broadcasting reads. -/
theorem exists_view {t d : Shape} (h : t.BroadcastsTo d) :
    ∃ view, (contiguous t).broadcastTo? d = some view ∧ view.size = d.size ∧
      (t.size < Word.size → view.addresses = (List.range d.size).map fun k => (elementFor d t k : Int)) := by
  obtain ⟨outer, inner, rfl, hinner⟩ := h.exists_append
  have hlength : t.length = inner.length := hinner.length_eq
  have hadded : (outer ++ inner).length - t.length = outer.length := by
    rw [List.length_append]
    omega
  obtain ⟨stretched, hstretch, hlen, hdot⟩ := dot_stretch hinner
  refine ⟨⟨outer ++ inner, List.replicate outer.length 0 ++ stretched, 0⟩, ?_, rfl, fun hsmall => ?_⟩
  · unfold broadcastTo?
    rw [if_neg (show ¬ (outer ++ inner).length < (contiguous t).rank from Nat.not_lt.mpr h.1)]
    simp only [contiguous, rank, hadded, List.drop_left, hstretch, Option.map_some]
  · rcases Nat.eq_zero_or_pos (Shape.size (outer ++ inner)) with hzero | hpos
    · have hnothing := length_addresses ⟨outer ++ inner, List.replicate outer.length 0 ++ stretched, 0⟩
      rw [hzero]
      exact List.length_eq_zero_iff.mp (hnothing.trans hzero)
    · have hpositive := size_pos_iff.mp hpos
      obtain ⟨houter, hpositiveInner⟩ := positive_append.mp hpositive
      have hstrides : (List.replicate outer.length (0 : Int) ++ stretched).length
          = (outer ++ inner).length := by
        rw [List.length_append, List.length_append, List.length_replicate, hlen, hlength]
      rw [addresses_eq hstrides]
      refine List.map_congr_left fun k _ => ?_
      have helement : elementFor (outer ++ inner) t k = elementFor inner t k := by
        rw [elementFor_of_le h.1, hadded, List.drop_left]
      have hzeros : Strides.dot (List.replicate outer.length 0)
          ((outer.unravel (k / inner.size)).map Int.ofNat) = 0 := Strides.zeros_dot _ _
      rw [unravel_append, List.map_append, Strides.dot_append (by simp), hzeros,
        hdot _ (unravel_inBounds hpositiveInner k), helement,
        ← Planner.dot_accessStrides_of_size_lt hinner hpositiveInner hsmall k]
      show Word.signed 0 + (0 + _) = _
      rw [Word.signed_of_lt (by decide), Int.zero_add]
      exact Int.zero_add _

end Layout

namespace Elementwise

/-- Gathering through a view reads a tensor through the shape of the view. -/
theorem getElem?_gather {t d : Shape} {view : Layout} (h : t.BroadcastsTo d)
    (hview : (Layout.contiguous t).broadcastTo? d = some view) (xs : List Nat) :
    (gather xs view).length = d.size ∧ (t.size < Word.size → ∀ k < d.size,
      (gather xs view)[k]? = some (xs[elementFor d t k]?.getD 0)) := by
  obtain ⟨view', hview', hsize, haddresses⟩ := Layout.exists_view h
  obtain rfl : view' = view := Option.some.inj (hview'.symm.trans hview)
  refine ⟨?_, fun hsmall k hk => ?_⟩
  · rw [gather, List.length_map, Layout.length_addresses, hsize]
  · have hpositive := size_pos_iff.mp (Nat.zero_lt_of_lt hk)
    have hword : Word.unsigned (elementFor d t k : Int) = elementFor d t k :=
      Word.unsigned_natCast (Nat.lt_trans (elementFor_lt h hpositive k) hsmall)
    rw [gather, haddresses hsmall, List.map_map, List.getElem?_map, List.getElem?_range hk]
    simp only [Option.map_some, Function.comp_apply, hword, List.getElem?_toArray]

end Elementwise

end TensorGraph
