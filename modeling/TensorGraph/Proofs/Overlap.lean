import Mathlib.Data.Set.Lattice
import Mathlib.Order.CompletePartialOrder
import TensorGraph.Proofs.Containment

/-! # Tiles that do not overlap

Kernels may run for several outer indices at the same time, which is safe for an output only if no two of
their tiles share a byte of it.  A planner treats outputs like inputs, so that this is not true of every
plan: the tiles of a terminal are apart just when the terminal is walked in every outer dimension that has
more than one index (`tiles_apart_iff`).  An output of extent 1 in an outer dimension over which the domain
extends is accepted and is no such terminal (`tiles_overlap_broadcast_output`). -/

namespace TensorGraph

namespace Shape

/-- Indices that are pinned to the same one agree where the tensor extends like the domain. -/
theorem take_eq_of_pinned {t d : Shape} {n : Nat} (hsame : t.take n = d.take n) {x y : Index}
    (hx : d.InBounds x) (hy : d.InBounds y) (h : t.pinned x = t.pinned y) : x.take n = y.take n := by
  induction n generalizing t d x y with
  | zero => rw [List.take_zero, List.take_zero]
  | succ n ih =>
      obtain _ | @⟨i, m, x, d, hi, hx⟩ := hx
      · obtain _ | _ := hy
        rfl
      · obtain _ | @⟨j, _, y, _, hj, hy⟩ := hy
        cases t with
        | nil => simp at hsame
        | cons tm t =>
            obtain ⟨rfl, htail⟩ := List.cons.inj hsame
            obtain ⟨hhead, hrest⟩ := List.cons.inj h
            have hij : i = j := by
              simp only at hhead
              split at hhead <;> omega
            rw [List.take_succ_cons, List.take_succ_cons, hij, ih htail hx hy hrest]

end Shape

namespace Strides

/-- A coordinate that meets the stride 0 may be changed. -/
theorem dot_set {strides : Strides} {m : Nat} (h : strides[m]? = some 0) (index : List Int) (j : Int) :
    dot strides (index.set m j) = dot strides index := by
  induction strides generalizing m index with
  | nil => simp at h
  | cons stride strides ih =>
      cases index with
      | nil => rfl
      | cons i index =>
          cases m with
          | zero =>
              obtain rfl : stride = 0 := by simpa using h
              simp [dot]
          | succ m =>
              have hrest := ih (by simpa using h) index
              simp [dot, hrest]

end Strides

/-- A terminal is walked in every dimension of more than one index: it has a stride there. -/
def Access.Walks (a : Access) (extents : Shape) : Prop :=
  ∀ (n : Nat) (extent : Nat), extents[n]? = some extent → 1 < extent → a.strides[n]? ≠ some 0

/-- The bytes of a terminal that an invocation may touch: those of the elements at all positions of its
tile, in exact arithmetic. -/
def Plan.tileBytes (plan : Plan) (a : Access) (index : Index) : Set Int :=
  {b | ∃ row < plan.domain.tile.1, ∃ column < plan.domain.tile.2,
    let element := a.exactElement (plan.domain.indexAt index (row, column))
    a.elementSize * element ≤ b ∧ b < a.elementSize * (element + 1)}

namespace Planner

open Shape

variable {p : Planner} {i : Interface} {plan : Plan}

/-! ### Terminals that are walked in some dimensions -/

/-- A terminal that is walked in the first dimensions extends like the domain there. -/
theorem take_eq_of_walked {d t : Shape} (h : t.StretchesTo d) (hd : d.Positive) {n : Nat}
    (hwalked : ∀ (m : Nat) (extent : Nat), (d.take n)[m]? = some extent → 1 < extent →
      (accessStrides d t)[m]? ≠ some 0) : t.take n = d.take n := by
  induction h generalizing n with
  | nil => rfl
  | @cons tn dn t d hn ht ih =>
      obtain ⟨hpositive, hd⟩ := positive_cons.mp hd
      cases n with
      | zero => rw [List.take_zero, List.take_zero]
      | succ n =>
          have hhead : tn = dn := by
            by_contra hne
            refine hwalked 0 dn (by simp) (by omega) ?_
            simp [accessStrides, hne]
          have htail := ih hd (n := n) fun m extent hm => hwalked (m + 1) extent hm
          rw [List.take_succ_cons, List.take_succ_cons, hhead, htail]

/-! ### Tiles -/

/-- A tile has a first position. -/
theorem tile_pos (h : p.plan i = .ok plan) (hwork : plan.domain.work ≠ 0) :
    0 < plan.domain.tile.1 ∧ 0 < plan.domain.tile.2 := by
  have htile := (domain_of_plan h).2.1
  obtain ⟨_, position, _, hrow, hcolumn, _⟩ :=
    Domain.exists_indexAt (two_le_rank_of_plan h) htile (positive_extents_of_plan h hwork) 0
  omega

/-- A terminal that is walked in all outer dimensions has different elements in different tiles. -/
theorem index_eq_of_exactElement (h : p.plan i = .ok plan) (hwork : plan.domain.work ≠ 0) {k : Nat}
    {t : Terminal} {a : Access} (ht : i.terminals[k]? = some t) (ha : plan.accesses[k]? = some a)
    (hwalks : a.Walks plan.domain.outer) {index index' : Index}
    (hindex : plan.domain.outer.InBounds index) (hindex' : plan.domain.outer.InBounds index')
    {position position' : Nat × Nat} (hrow : position.1 < plan.domain.tile.1)
    (hcolumn : position.2 < plan.domain.tile.2) (hrow' : position'.1 < plan.domain.tile.1)
    (hcolumn' : position'.2 < plan.domain.tile.2)
    (heq : a.exactElement (plan.domain.indexAt index position)
      = a.exactElement (plan.domain.indexAt index' position')) : index = index' := by
  obtain ⟨hsize, hlt⟩ := size_extents_of_plan h
  have hpositive := positive_extents_of_plan h hwork
  have htile := (domain_of_plan h).2.1
  have hinside := Domain.indexAt_inBounds (two_le_rank_of_plan h) htile hindex hrow hcolumn
  have hinside' := Domain.indexAt_inBounds (two_le_rank_of_plan h) htile hindex' hrow' hcolumn'
  obtain ⟨spread, rfl, hstretch, _⟩ := access_of_plan h ht ha
  have hlength : spread.length = plan.domain.extents.length := hstretch.length_eq
  -- In exact arithmetic an element is the number of the pinned index, which determines that index.
  have helement {index : Index} {position : Nat × Nat}
      (hbounds : plan.domain.extents.InBounds (plan.domain.indexAt index position)) :
      (access plan.domain.extents t spread).exactElement (plan.domain.indexAt index position)
        = t.offset + spread.ravel (spread.pinned (plan.domain.indexAt index position)) := by
    have hdot := dot_accessStrides hstretch hpositive (by omega)
      (plan.domain.extents.ravel (plan.domain.indexAt index position))
    rw [elementFor, unravel_ravel hbounds,
      projected_of_length_eq (hbounds.length_eq.trans hlength.symm)] at hdot
    exact congrArg ((t.offset : Int) + ·) hdot
  have hravel : spread.ravel (spread.pinned (plan.domain.indexAt index position))
      = spread.ravel (spread.pinned (plan.domain.indexAt index' position')) := by
    rw [helement hinside, helement hinside'] at heq
    omega
  have hpinned := congrArg spread.unravel hravel
  rw [unravel_ravel (pinned_inBounds hstretch hinside),
    unravel_ravel (pinned_inBounds hstretch hinside')] at hpinned
  have htake := take_eq_of_pinned (take_eq_of_walked hstretch hpositive hwalks) hinside hinside' hpinned
  have hcount : plan.domain.outer.length = plan.domain.rank - plan.domain.tileRank := by
    rw [Domain.outer, List.length_take]
    exact Nat.min_eq_left (Nat.sub_le _ _)
  rwa [Domain.indexAt, Domain.indexAt, List.take_left' (hindex.length_eq.trans hcount),
    List.take_left' (hindex'.length_eq.trans hcount)] at htake

/-- An outer dimension that is not walked has two indices with the same first element. -/
theorem exists_same_element (h : p.plan i = .ok plan) (hwork : plan.domain.work ≠ 0) {a : Access}
    (hwalks : ¬ a.Walks plan.domain.outer) :
    ∃ index ∈ plan.domain.outer.indices, ∃ index' ∈ plan.domain.outer.indices, index ≠ index' ∧
      a.exactElement (plan.domain.indexAt index (0, 0))
        = a.exactElement (plan.domain.indexAt index' (0, 0)) := by
  simp only [Access.Walks, not_forall, not_not] at hwalks
  obtain ⟨n, extent, hn, hextent, hstride⟩ := hwalks
  have hpositive := positive_outer h hwork
  have hlt : n < plan.domain.outer.length := (List.getElem?_eq_some_iff.mp hn).1
  have hzeros : plan.domain.outer.InBounds (plan.domain.outer.map fun _ => 0) := by
    rw [InBounds, List.forall₂_map_left_iff, List.forall₂_same]
    exact hpositive
  refine ⟨_, mem_indices.mpr hzeros, (plan.domain.outer.map fun _ => 0).set n 1, mem_indices.mpr ?_, ?_, ?_⟩
  · refine List.forall₂_iff_get.mpr ⟨by rw [List.length_set, List.length_map], fun m hm hm' => ?_⟩
    show ((plan.domain.outer.map fun _ => 0).set n 1)[m] < plan.domain.outer[m]
    rw [List.getElem_set, List.getElem_map]
    split
    · rename_i hnm
      subst hnm
      rwa [(List.getElem?_eq_some_iff.mp hn).2]
    · exact hpositive _ (List.getElem_mem hm')
  · intro hsame
    have hdigit := congrArg (·[n]?) hsame
    simp [hlt] at hdigit
  · have hset : ((plan.domain.outer.map fun _ => 0).set n 1) ++ plan.domain.tileIndex (0, 0)
        = ((plan.domain.outer.map fun _ => 0) ++ plan.domain.tileIndex (0, 0)).set n 1 :=
      (List.set_append_left _ _ (by rwa [List.length_map])).symm
    rw [Access.exactElement, Access.exactElement, Domain.indexAt, Domain.indexAt, hset, List.map_set,
      Strides.dot_set hstride]

/-- Elements have bytes. -/
theorem elementSize_pos (h : p.plan i = .ok plan) {k : Nat} {t : Terminal} {a : Access}
    (ht : i.terminals[k]? = some t) (ha : plan.accesses[k]? = some a) : 0 < a.elementSize := by
  obtain ⟨spread, rfl, _⟩ := access_of_plan h ht ha
  exact t.dtype.size_pos

/-- The tiles of a terminal that is walked in all outer dimensions share no byte. -/
theorem disjoint_tileBytes (h : p.plan i = .ok plan) (hwork : plan.domain.work ≠ 0) {k : Nat}
    {t : Terminal} {a : Access} (ht : i.terminals[k]? = some t) (ha : plan.accesses[k]? = some a)
    (hwalks : a.Walks plan.domain.outer) {index index' : Index} (hindex : index ∈ plan.domain.outer.indices)
    (hindex' : index' ∈ plan.domain.outer.indices) (hne : index ≠ index') :
    Disjoint (plan.tileBytes a index) (plan.tileBytes a index') := by
  have hsize : (0 : Int) ≤ a.elementSize := Int.natCast_nonneg _
  rw [Set.disjoint_left]
  rintro b ⟨row, hrow, column, hcolumn, hfrom, hto⟩ ⟨row', hrow', column', hcolumn', hfrom', hto'⟩
  have hle := Int.lt_of_mul_lt_mul_left (Int.lt_of_le_of_lt hfrom hto') hsize
  have hge := Int.lt_of_mul_lt_mul_left (Int.lt_of_le_of_lt hfrom' hto) hsize
  have hsame : a.exactElement (plan.domain.indexAt index (row, column))
      = a.exactElement (plan.domain.indexAt index' (row', column')) := by omega
  exact hne (index_eq_of_exactElement h hwork ht ha hwalks (mem_indices.mp hindex)
    (mem_indices.mp hindex') hrow hcolumn hrow' hcolumn' hsame)

/-- **When tiles are apart.**  Over a domain that is not empty, the tiles of a terminal for different outer
indices share no byte just when the terminal is walked in every outer dimension of more than one index. -/
theorem tiles_apart_iff (h : p.plan i = .ok plan) (hempty : plan.domain.isEmpty = false) {k : Nat}
    {t : Terminal} {a : Access} (ht : i.terminals[k]? = some t) (ha : plan.accesses[k]? = some a) :
    (∀ index ∈ plan.domain.outer.indices, ∀ index' ∈ plan.domain.outer.indices, index ≠ index' →
      Disjoint (plan.tileBytes a index) (plan.tileBytes a index')) ↔ a.Walks plan.domain.outer := by
  have hwork : plan.domain.work ≠ 0 := by simpa [Domain.isEmpty] using hempty
  constructor
  · intro hdisjoint
    by_contra hwalks
    obtain ⟨index, hindex, index', hindex', hne, hsame⟩ := exists_same_element h hwork hwalks
    obtain ⟨hrow, hcolumn⟩ := tile_pos h hwork
    have hsize := elementSize_pos h ht ha
    have hfirst {index : Index} : a.elementSize * a.exactElement (plan.domain.indexAt index (0, 0))
        ∈ plan.tileBytes a index := by
      refine ⟨0, hrow, 0, hcolumn, Int.le_refl _, ?_⟩
      rw [Int.mul_add]
      omega
    exact Set.disjoint_left.mp (hdisjoint index hindex index' hindex' hne) hfirst (hsame ▸ hfirst)
  · intro hwalks index hindex index' hindex'
    exact disjoint_tileBytes h hwork ht ha hwalks hindex hindex'

/-- The tiles of four matrices in an output of four matrices. -/
theorem tiles_apart_iff_matrices :
    let i : Interface := ⟨[.dense .f32 [1, 2, 3]], [.dense .f32 [4, 2, 3]]⟩
    let output : Access := ⟨0, [0, 0, 0, 6, 3, 1], 4⟩
    let plan : Plan := ⟨⟨[4, 2, 3], [1, 1, 1, 4, 2, 3], 2, 24, 4⟩, [⟨0, [0, 0, 0, 0, 3, 1], 4⟩], [output]⟩
    Planner.plan ⟨1, 2⟩ i = .ok plan ∧ plan.domain.outer.indices.length = 4 ∧
      ∀ index ∈ plan.domain.outer.indices, ∀ index' ∈ plan.domain.outer.indices, index ≠ index' →
        Disjoint (plan.tileBytes output index) (plan.tileBytes output index') := by
  intro i output plan
  have hplan : Planner.plan ⟨1, 2⟩ i = .ok plan := by decide +kernel
  have hwalks : output.Walks plan.domain.outer := by
    rintro (_ | _ | _ | _ | n) extent hn hextent <;> simp_all [plan, output, Domain.outer, Domain.rank]
  exact ⟨hplan, by decide, (tiles_apart_iff hplan rfl (k := 1) rfl rfl).mpr hwalks⟩

/-- The tiles of four matrices in an output of one matrix: those for the first two are the same bytes. -/
theorem tiles_overlap_broadcast_output :
    let i : Interface := ⟨[.dense .f32 [4, 2, 3]], [.dense .f32 [1, 2, 3]]⟩
    let output : Access := ⟨0, [0, 0, 0, 0, 3, 1], 4⟩
    let plan : Plan := ⟨⟨[4, 2, 3], [1, 1, 1, 4, 2, 3], 2, 24, 4⟩, [⟨0, [0, 0, 0, 6, 3, 1], 4⟩], [output]⟩
    Planner.plan ⟨1, 2⟩ i = .ok plan ∧ [0, 0, 0, 0] ∈ plan.domain.outer.indices ∧
      [0, 0, 0, 1] ∈ plan.domain.outer.indices ∧
      ¬ Disjoint (plan.tileBytes output [0, 0, 0, 0]) (plan.tileBytes output [0, 0, 0, 1]) := by
  intro i output plan
  refine ⟨by decide +kernel, by decide, by decide, fun hdisjoint => ?_⟩
  refine Set.disjoint_left.mp hdisjoint (show (0 : Int) ∈ _ from ?_) ?_
  · exact ⟨0, by decide, 0, by decide, by decide, by decide⟩
  · exact ⟨0, by decide, 0, by decide, by decide, by decide⟩

end Planner

end TensorGraph
