import Mathlib.Algebra.Group.Nat.Defs
import TensorGraph.Domain.Planner
import TensorGraph.Proofs.Enumeration

/-! # Reading a small shape through a large one

A tensor that is broadcast over a domain is read at the trailing coordinates of the domain's index,
with every coordinate pinned to 0 where the tensor's own extent is 1 (`Shape.projected`).
`Shape.elementFor d t k` is the row-major number, inside a tensor of shape `t`, of the element that
is read for the `k`-th index of the domain `d`.

Three facts carry the theory.  Extents of 1 in front of a tensor change nothing
(`elementFor_leftPadded`).  Merging the two innermost dimensions of domain and tensor changes nothing
if the tensor extends over both or over neither (`elementFor_mergeInnermost`).  And the strides that a
planner gives to a tensor, summed over the digits of `k`, are `elementFor d t k`
(`dot_accessStrides`). -/

namespace TensorGraph.Shape

/-- The coordinates of an index, pinned to 0 where the extent is 1. -/
def pinned (t : Shape) (index : Index) : Index :=
  List.zipWith (fun n i => if n = 1 then 0 else i) t index

/-- The index at which a tensor is read for an index of the domain that it is broadcast over. -/
def projected (t : Shape) (index : Index) : Index := t.pinned (index.drop (index.length - t.length))

/-- The row-major number of the element that a tensor of shape `t` supplies for the `k`-th index of
the domain `d`. -/
def elementFor (d t : Shape) (k : Nat) : Nat := t.ravel (t.projected (d.unravel k))

/-- Of two shapes of one rank, the first stretches to the second: each extent is the same or 1. -/
abbrev StretchesTo (t d : Shape) : Prop := List.Forall₂ (fun n m => n = m ∨ n = 1) t d

/-- A shape of no higher rank stretches to another one after it was padded. -/
def BroadcastsTo (t d : Shape) : Prop :=
  t.length ≤ d.length ∧ StretchesTo (t.leftPadded d.length) d

theorem stretchesTo_refl (s : Shape) : s.StretchesTo s :=
  List.forall₂_same.mpr fun _ _ => .inl rfl

theorem stretchesTo_trans {a b c : Shape} (hab : a.StretchesTo b) (hbc : b.StretchesTo c) :
    a.StretchesTo c := by
  induction hab generalizing c with
  | nil => exact hbc
  | cons hn _ ih =>
      obtain _ | ⟨hm, hbc⟩ := hbc
      exact .cons (by omega) (ih hbc)

/-- Stretching to a shape of one rank needs no padding. -/
theorem broadcastsTo_of_stretchesTo {t d : Shape} (h : t.StretchesTo d) : t.BroadcastsTo d := by
  have hlength : t.length = d.length := h.length_eq
  have hpadded : t.leftPadded d.length = t := by
    rw [leftPadded, hlength, Nat.sub_self]
    rfl
  exact ⟨Nat.le_of_eq hlength, by rwa [hpadded]⟩

/-! ### Shapes of one rank -/

theorem projected_of_length_eq {t : Shape} {index : Index} (h : index.length = t.length) :
    t.projected index = t.pinned index := by
  rw [projected, h, Nat.sub_self, List.drop_zero]

theorem elementFor_nil (k : Nat) : elementFor [] [] k = 0 := rfl

theorem elementFor_cons {d t : Shape} (h : t.length = d.length) (m n k : Nat) :
    elementFor (m :: d) (n :: t) k
      = (if n = 1 then 0 else k / d.size % m) * t.size + elementFor d t k := by
  have hcons : (unravel (m :: d) k).length = (n :: t).length := by simp [h]
  have htail : (unravel d k).length = t.length := by simp [h]
  rw [elementFor, elementFor, projected_of_length_eq hcons, projected_of_length_eq htail,
    unravel_eq_cons]
  rfl

/-- The innermost dimensions are read as they are when outer ones are left out. -/
theorem elementFor_of_le {d t : Shape} (h : t.length ≤ d.length) (k : Nat) :
    elementFor d t k = elementFor (d.drop (d.length - t.length)) t k := by
  have hlen : (unravel (d.drop (d.length - t.length)) k).length = t.length := by
    simp only [length_unravel, List.length_drop]
    omega
  rw [elementFor, elementFor, projected_of_length_eq hlen, projected, unravel_drop, length_unravel]

theorem elementFor_drop {d t : Shape} {m : Nat} (h : m + t.length ≤ d.length) (k : Nat) :
    elementFor (d.drop m) t k = elementFor d t k := by
  have hdrop : m + ((d.drop m).length - t.length) = d.length - t.length := by
    rw [List.length_drop]
    omega
  rw [elementFor_of_le (by rw [List.length_drop]; omega), elementFor_of_le (d := d) (by omega),
    List.drop_drop, hdrop]

/-- A number is read at itself in the domain's own shape. -/
theorem elementFor_self (d : Shape) (k : Nat) : elementFor d d k = k % d.size := by
  induction d with
  | nil => rw [elementFor_nil, size_nil, Nat.mod_one]
  | cons n d ih =>
      have hdigit : (if n = 1 then 0 else k / size d % n) = k / size d % n := by
        split
        · rename_i h
          rw [h, Nat.mod_one]
        · rfl
      rw [elementFor_cons rfl, ih, hdigit, size_cons, Nat.mul_comm n, Nat.mod_mul, Nat.add_comm,
        Nat.mul_comm (size d)]

theorem elementFor_replicate_one {d t : Shape} {m : Nat} (h : d.length = m + t.length) (k : Nat) :
    elementFor d (List.replicate m 1 ++ t) k = elementFor d t k := by
  induction m generalizing d with
  | zero => rfl
  | succ m ih =>
      cases d with
      | nil =>
          rw [List.length_nil] at h
          omega
      | cons n d =>
          have hd : d.length = m + t.length := by simpa [Nat.succ_add] using h
          have hlen : (List.replicate m 1 ++ t).length = d.length := by simp [hd]
          have hdrop : (n :: d).length - t.length = (d.length - t.length) + 1 := by
            simp only [List.length_cons]
            omega
          rw [List.replicate_succ, List.cons_append, elementFor_cons hlen, if_pos rfl, ih hd,
            elementFor_of_le (by omega), elementFor_of_le (d := n :: d) (by omega), hdrop,
            List.drop_succ_cons]
          simp

/-- Extents of 1 in front of a tensor change nothing. -/
theorem elementFor_leftPadded {d t : Shape} (h : t.length ≤ d.length) (k : Nat) :
    elementFor d (t.leftPadded d.length) k = elementFor d t k :=
  elementFor_replicate_one (by omega) k

/-! ### Bounds -/

theorem pinned_inBounds {t d : Shape} {index : Index} (h : t.StretchesTo d)
    (hindex : d.InBounds index) : t.InBounds (t.pinned index) := by
  induction h generalizing index with
  | nil => exact .nil
  | @cons n m t d hn _ ih =>
      obtain _ | ⟨hi, hrest⟩ := hindex
      refine .cons ?_ (ih hrest)
      show (if n = 1 then 0 else _) < n
      split <;> omega

theorem BroadcastsTo.stretchesTo_drop {t d : Shape} (h : t.BroadcastsTo d) :
    StretchesTo t (d.drop (d.length - t.length)) := by
  have hdrop := List.forall₂_drop (d.length - t.length) h.2
  rwa [leftPadded, List.drop_left' (List.length_replicate ..)] at hdrop

/-- The index at which a tensor is read lies inside the tensor. -/
theorem projected_inBounds {t d : Shape} (h : t.BroadcastsTo d) (hd : d.Positive) (k : Nat) :
    t.InBounds (t.projected (d.unravel k)) := by
  rw [projected, unravel_drop, length_unravel]
  exact pinned_inBounds h.stretchesTo_drop (unravel_inBounds (hd.drop _) k)

/-- The element that is read lies inside the tensor. -/
theorem elementFor_lt {t d : Shape} (h : t.BroadcastsTo d) (hd : d.Positive) (k : Nat) :
    elementFor d t k < t.size :=
  ravel_lt (projected_inBounds h hd k)

/-! ### Merging the innermost dimensions -/

theorem exists_eq_append_pair {α : Type} {s : List α} (h : 2 ≤ s.length) :
    ∃ pre n i, s = pre ++ [n, i] := by
  obtain ⟨rest, i, rfl⟩ := List.eq_nil_or_concat s |>.resolve_left (by rintro rfl; simp at h)
  obtain ⟨pre, n, rfl⟩ := List.eq_nil_or_concat rest |>.resolve_left (by rintro rfl; simp at h)
  exact ⟨pre, n, i, by simp⟩

end TensorGraph.Shape

/-- A word below half the range reads as itself. -/
theorem TensorGraph.Word.signed_of_lt {n : Nat} (h : n < 2 ^ 63) : signed n = n := by
  simp only [signed, size_eq, Int.bmod]
  omega

/-- Over extents below half the range, the stride of one more outer dimension is the size. -/
theorem TensorGraph.Strides.denseFrom_snd {s : Shape} (h : ∀ n ∈ s, n < 2 ^ 63) :
    (denseFrom s).2 = s.size := by
  induction s with
  | nil => rfl
  | cons n s ih =>
      obtain ⟨hn, hs⟩ := List.forall_mem_cons.mp h
      have hstride : (denseFrom (n :: s)).2 = (denseFrom s).2 * Word.signed n := rfl
      rw [hstride, ih hs, Word.signed_of_lt hn, Shape.size_cons, Int.mul_comm]
      push_cast
      rfl

namespace TensorGraph.Planner

open Shape

@[simp] theorem innermost_append_pair (pre : Shape) (n i : Nat) :
    innermost (pre ++ [n, i]) = (i, n) := by
  simp [innermost]

@[simp] theorem mergeInnermost_append_pair (pre : Shape) (n i : Nat) :
    mergeInnermost (pre ++ [n, i]) = 1 :: pre ++ [i * n] := by
  simp [mergeInnermost]

theorem mergeInnermost_of_lt {s : Shape} (h : s.length < 2) : mergeInnermost s = s := by
  match s with
  | [] => rfl
  | [_] => rfl

theorem size_mergeInnermost (s : Shape) : size (mergeInnermost s) = s.size := by
  rcases Nat.lt_or_ge s.length 2 with h | h
  · rw [mergeInnermost_of_lt h]
  · obtain ⟨pre, n, i, rfl⟩ := exists_eq_append_pair h
    simp [Nat.mul_comm]

@[simp] theorem length_mergeInnermost (s : Shape) : (mergeInnermost s).length = s.length := by
  rcases Nat.lt_or_ge s.length 2 with h | h
  · rw [mergeInnermost_of_lt h]
  · obtain ⟨pre, n, i, rfl⟩ := exists_eq_append_pair h
    simp

/-- A tensor that extends over both inner dimensions, or over neither, is read at the same element
after they were merged. -/
theorem elementFor_append_merged {pre preT : Shape} (h : preT.length = pre.length) {n i tn ti : Nat}
    (hm : tn = n ∧ ti = i ∨ tn = 1 ∧ ti = 1) (k : Nat) :
    elementFor (pre ++ [i * n]) (preT ++ [ti * tn]) k
      = elementFor (pre ++ [n, i]) (preT ++ [tn, ti]) k := by
  induction preT generalizing pre with
  | nil =>
      obtain rfl := List.length_eq_zero_iff.mp h.symm
      rcases hm with ⟨rfl, rfl⟩ | ⟨rfl, rfl⟩
      · rw [List.nil_append, List.nil_append, elementFor_self, elementFor_self]
        simp [Nat.mul_comm]
      · simp [elementFor_cons, elementFor_nil]
  | cons t preT ih =>
      cases pre with
      | nil => simp at h
      | cons m pre =>
          have hlen : preT.length = pre.length := by simpa using h
          rw [List.cons_append, List.cons_append, List.cons_append, List.cons_append,
            elementFor_cons (by simp [hlen]), elementFor_cons (by simp [hlen]), ih hlen]
          simp [Nat.mul_comm]

/-- Merging the two innermost dimensions keeps what is read. -/
theorem elementFor_mergeInnermost {d t : Shape} (h : t.length = d.length)
    (hm : innermost t = innermost d ∨ innermost t = (1, 1)) (k : Nat) :
    elementFor (mergeInnermost d) (mergeInnermost t) k = elementFor d t k := by
  rcases Nat.lt_or_ge d.length 2 with hd | hd
  · rw [mergeInnermost_of_lt hd, mergeInnermost_of_lt (by omega)]
  · obtain ⟨pre, n, i, rfl⟩ := exists_eq_append_pair hd
    obtain ⟨preT, tn, ti, rfl⟩ := exists_eq_append_pair (h ▸ hd)
    have hlen : preT.length = pre.length := by simpa using h
    have hpair : tn = n ∧ ti = i ∨ tn = 1 ∧ ti = 1 := by
      simpa [and_comm] using hm
    rw [mergeInnermost_append_pair, mergeInnermost_append_pair, List.cons_append, List.cons_append,
      elementFor_cons (by simp [hlen]), if_pos rfl, Nat.zero_mul, Nat.zero_add,
      elementFor_append_merged hlen hpair]

/-- Merging keeps a tensor within the extents of the domain. -/
theorem stretchesTo_mergeInnermost {d t : Shape} (h : t.StretchesTo d)
    (hm : innermost t = innermost d ∨ innermost t = (1, 1)) :
    StretchesTo (mergeInnermost t) (mergeInnermost d) := by
  have hlen : t.length = d.length := h.length_eq
  rcases Nat.lt_or_ge d.length 2 with hd | hd
  · rwa [mergeInnermost_of_lt hd, mergeInnermost_of_lt (by omega)]
  · obtain ⟨pre, n, i, rfl⟩ := exists_eq_append_pair hd
    obtain ⟨preT, tn, ti, rfl⟩ := exists_eq_append_pair (hlen ▸ hd)
    have hpair : ti = i ∧ tn = n ∨ ti = 1 ∧ tn = 1 := by simpa using hm
    have hpre : preT.length = pre.length := by simpa using hlen
    rw [mergeInnermost_append_pair, mergeInnermost_append_pair]
    refine .cons (.inl rfl) (List.rel_append ?_ ?_)
    · have := List.forall₂_take preT.length h
      simpa [hpre] using this
    · refine .cons ?_ .nil
      rcases hpair with ⟨rfl, rfl⟩ | ⟨rfl, rfl⟩
      · exact .inl rfl
      · exact .inr rfl

/-! ### The strides of a terminal -/

theorem denseFrom_stride {s : Shape} (h : s.size < 2 ^ 63) (hpos : s.Positive) :
    (Strides.denseFrom s).2 = s.size :=
  Strides.denseFrom_snd fun _ hn => Nat.lt_of_le_of_lt (le_size_of_mem hpos hn) h

theorem size_le_of_stretchesTo {t d : Shape} (h : t.StretchesTo d) (hd : d.Positive) :
    t.size ≤ d.size := by
  induction h with
  | nil => exact Nat.le_refl _
  | @cons n m t d hn _ ih =>
      obtain ⟨hm, hd⟩ := positive_cons.mp hd
      have hle : n ≤ m := by omega
      exact Nat.mul_le_mul hle (ih hd)

theorem positive_of_stretchesTo {t d : Shape} (h : t.StretchesTo d) (hd : d.Positive) :
    t.Positive := by
  induction h with
  | nil => exact positive_nil
  | @cons n m t d hn _ ih =>
      obtain ⟨hm, hd⟩ := positive_cons.mp hd
      exact positive_cons.mpr ⟨by omega, ih hd⟩

/-- The planned strides lead to the element that is read: over the digits of `k` they add up to its
number.  An outer dimension that the tensor extends over doubles the number of its elements, so that
the number of those inside it is no large word. -/
theorem dot_accessStrides_of_size_lt {d t : Shape} (h : t.StretchesTo d) (hd : d.Positive)
    (hsize : t.size < Word.size) (k : Nat) :
    Strides.dot (accessStrides d t) ((d.unravel k).map Int.ofNat) = elementFor d t k := by
  induction h with
  | nil => rfl
  | @cons n m t d hn ht ih =>
      obtain ⟨hm, hd'⟩ := positive_cons.mp hd
      have hlen : t.length = d.length := ht.length_eq
      have hpos : 0 < n := by omega
      have hle : size t ≤ n * size t := Nat.le_mul_of_pos_left _ hpos
      have htail := ih hd' (by rw [size_cons] at hsize; omega)
      have hstride : accessStrides (m :: d) (n :: t)
          = (if n = m ∧ 1 < m then (Strides.denseFrom t).2 else 0) :: accessStrides d t := rfl
      rw [hstride, unravel_eq_cons, List.map_cons, Strides.dot, htail, elementFor_cons hlen]
      by_cases hwalked : n = m ∧ 1 < m
      · obtain ⟨rfl, hn1⟩ := hwalked
        have hdouble : 2 * size t ≤ n * size t := Nat.mul_le_mul_right _ hn1
        have hsmall : size t < 2 ^ 63 := by
          rw [size_cons, Word.size_eq] at hsize
          omega
        rw [if_pos ⟨rfl, hn1⟩, if_neg (by omega),
          denseFrom_stride hsmall (positive_of_stretchesTo ht hd')]
        push_cast
        rfl
      · have hone : n = 1 := by omega
        rw [if_neg hwalked, if_pos hone]
        simp

theorem dot_accessStrides {d t : Shape} (h : t.StretchesTo d) (hd : d.Positive)
    (hsize : d.size < Word.size) (k : Nat) :
    Strides.dot (accessStrides d t) ((d.unravel k).map Int.ofNat) = elementFor d t k :=
  dot_accessStrides_of_size_lt h hd (Nat.lt_of_le_of_lt (size_le_of_stretchesTo h hd) hsize) k

end TensorGraph.Planner
