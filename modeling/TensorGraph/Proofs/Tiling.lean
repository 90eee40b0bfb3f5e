import Mathlib.Data.Int.ModEq
import Mathlib.Tactic.Ring
import TensorGraph.Kernel.Invocation
import TensorGraph.Proofs.Addressing

/-! # Tiles and their addresses

An invocation is told where its tile begins and how far apart rows and columns lie.  Together these
lead to the element of every terminal whose index in the whole domain is the outer index followed by
the position in the tile (`Domain.indexAt`): always to the same machine address
(`sameAddress_elementsAt`), and to the same exact offset where no word that enters the sum has its
highest bit set (`elementsAt_eq`). -/

namespace TensorGraph

open Shape

/-! ### Sums over split indices -/

namespace Strides

theorem dot_append {strides : Strides} {index : List Int} (h : strides.length = index.length)
    (strides' : Strides) (index' : List Int) :
    dot (strides ++ strides') (index ++ index') = dot strides index + dot strides' index' := by
  induction strides generalizing index with
  | nil =>
      obtain rfl := List.length_eq_zero_iff.mp h.symm
      simp [dot]
  | cons stride strides ih =>
      cases index with
      | nil => simp at h
      | cons i index =>
          simp only [List.cons_append, dot, ih (Nat.succ.inj h)]
          omega

theorem dot_nil (strides : Strides) : dot strides [] = 0 := by
  cases strides <;> rfl

theorem dot_modEq {n : Int} {index index' : List Int} (h : List.Forall₂ (· ≡ · [ZMOD n]) index index')
    (strides : Strides) : dot strides index ≡ dot strides index' [ZMOD n] := by
  induction h generalizing strides with
  | nil => exact .refl _
  | @cons i i' index index' hi _ ih =>
      cases strides with
      | nil => exact .refl _
      | cons stride strides => exact (hi.mul_right stride).add (ih strides)

end Strides

namespace Word

theorem signed_modEq (n : Nat) : signed n ≡ n [ZMOD size] := Int.bmod_emod

theorem unsigned_natCast {n : Nat} (h : n < size) : unsigned (n : Int) = n := by
  simp only [unsigned, size_eq] at h ⊢
  omega

theorem unsigned_eq_of_modEq {i j : Int} (h : i ≡ j [ZMOD size]) : unsigned i = unsigned j := by
  unfold unsigned
  rw [h]

end Word

/-! ### Domains and their tiles -/

namespace Domain

/-- The inner coordinates of a row and column of a tile. -/
def tileIndex (d : Domain) (position : Nat × Nat) : Index :=
  if d.tileRank = 2 then [position.1, position.2] else [position.2]

/-- The index in the whole domain of a row and column in the tile of an outer index. -/
def indexAt (d : Domain) (outer : Index) (position : Nat × Nat) : Index :=
  outer ++ d.tileIndex position

/-- A tile has one row if only one dimension is tiled. -/
theorem exists_inner {d : Domain} (hrank : 2 ≤ d.rank) (htile : d.tileRank = 1 ∨ d.tileRank = 2) :
    (d.tileRank = 1 ∧ ∃ columns, d.extents = d.outer ++ [columns] ∧ d.tile = (1, columns)) ∨
      d.tileRank = 2 ∧ ∃ rows columns, d.extents = d.outer ++ [rows, columns] ∧
        d.tile = (rows, columns) := by
  obtain ⟨pre, rows, columns, hextents⟩ := exists_eq_append_pair hrank
  have hlen : d.rank = pre.length + 2 := by rw [rank, hextents, List.length_append]; rfl
  rcases htile with htile | htile
  · refine .inl ⟨htile, columns, ?_, ?_⟩
    · have houter : d.outer = pre ++ [rows] := by
        rw [outer, htile, hlen, hextents, ← List.singleton_append, ← List.append_assoc]
        exact List.take_left' (by simp)
      rw [houter, hextents, List.append_assoc, List.singleton_append]
    · simp [tile, htile, hextents]
  · refine .inr ⟨htile, rows, columns, ?_, ?_⟩
    · have houter : d.outer = pre := by
        rw [outer, htile, hlen, hextents]
        exact List.take_left' rfl
      rw [houter, hextents]
    · simp [tile, htile, hextents]

/-- Every index of the domain is that of a position in the tile of an outer index. -/
theorem exists_indexAt {d : Domain} (hrank : 2 ≤ d.rank) (htile : d.tileRank = 1 ∨ d.tileRank = 2)
    (hpositive : d.extents.Positive) (k : Nat) :
    ∃ index position, d.outer.InBounds index ∧ position.1 < d.tile.1 ∧ position.2 < d.tile.2 ∧
      d.indexAt index position = d.extents.unravel k := by
  rcases exists_inner hrank htile with ⟨htile, columns, hextents, htiles⟩ | ⟨htile, rows, columns, hextents, htiles⟩
  · rw [hextents] at hpositive ⊢
    obtain ⟨houter, hinner⟩ := positive_append.mp hpositive
    refine ⟨d.outer.unravel (k / size [columns]), (0, k % columns), unravel_inBounds houter _, ?_, ?_, ?_⟩
    · rw [htiles]
      exact Nat.one_pos
    · rw [htiles]
      exact Nat.mod_lt _ (positive_cons.mp hinner).1
    · rw [indexAt, tileIndex, htile, if_neg (by decide), unravel_append, unravel_eq_cons, size_nil,
        Nat.div_one, unravel_nil]
  · rw [hextents] at hpositive ⊢
    obtain ⟨houter, hinner⟩ := positive_append.mp hpositive
    obtain ⟨hrows, hinner⟩ := positive_cons.mp hinner
    refine ⟨d.outer.unravel (k / size [rows, columns]), (k / columns % rows, k % columns),
      unravel_inBounds houter _, ?_, ?_, ?_⟩
    · rw [htiles]
      exact Nat.mod_lt _ hrows
    · rw [htiles]
      exact Nat.mod_lt _ (positive_cons.mp hinner).1
    · have hcolumns : size [columns] = columns := Nat.mul_one columns
      rw [indexAt, tileIndex, htile, if_pos rfl, unravel_append, unravel_eq_cons, unravel_eq_cons, hcolumns,
        size_nil, Nat.div_one, unravel_nil]

/-- The index of a position in the tile of an outer index lies in the domain. -/
theorem indexAt_inBounds {d : Domain} (hrank : 2 ≤ d.rank) (htile : d.tileRank = 1 ∨ d.tileRank = 2)
    {index : Index} (hindex : d.outer.InBounds index) {position : Nat × Nat}
    (hrow : position.1 < d.tile.1) (hcolumn : position.2 < d.tile.2) :
    d.extents.InBounds (d.indexAt index position) := by
  rcases exists_inner hrank htile with ⟨htile, columns, hextents, htiles⟩ | ⟨htile, rows, columns, hextents, htiles⟩
  · rw [htiles] at hcolumn
    rw [hextents, indexAt, tileIndex, htile, if_neg (by decide)]
    exact List.rel_append hindex (.cons hcolumn .nil)
  · rw [htiles] at hrow hcolumn
    rw [hextents, indexAt, tileIndex, htile, if_pos rfl]
    exact List.rel_append hindex (.cons hrow (.cons hcolumn .nil))

/-- Different outer indices, or different positions in a tile, have different indices. -/
theorem indexAt_inj {d : Domain} (hrank : 2 ≤ d.rank) (htile : d.tileRank = 1 ∨ d.tileRank = 2)
    {index index' : Index} (hlength : index.length = index'.length) {position position' : Nat × Nat}
    (hrow : position.1 < d.tile.1) (hrow' : position'.1 < d.tile.1)
    (h : d.indexAt index position = d.indexAt index' position') :
    index = index' ∧ position = position' := by
  obtain ⟨hindex, hinner⟩ := List.append_inj h hlength
  refine ⟨hindex, ?_⟩
  rcases exists_inner hrank htile with ⟨htile, columns, _, htiles⟩ | ⟨htile, rows, columns, _, htiles⟩
  · rw [htiles] at hrow hrow'
    rw [tileIndex, tileIndex, htile, if_neg (by decide), if_neg (by decide)] at hinner
    exact Prod.ext (by omega) (List.cons.inj hinner).1
  · rw [tileIndex, tileIndex, htile, if_pos rfl, if_pos rfl] at hinner
    obtain ⟨hfirst, hinner⟩ := List.cons.inj hinner
    exact Prod.ext hfirst (List.cons.inj hinner).1

end Domain

namespace Planner

variable {p : Planner} {i : Interface} {plan : Plan}

theorem tileRank_eq (i : Interface) (s : Spread) : tileRank i s = 1 ∨ tileRank i s = 2 := by
  unfold tileRank
  dsimp only
  split
  · exact .inr rfl
  · exact .inl rfl

/-- What a plan says about the number of its dimensions and invocations. -/
theorem domain_of_plan (h : p.plan i = .ok plan) :
    leastRank ≤ plan.domain.rank ∧ (plan.domain.tileRank = 1 ∨ plan.domain.tileRank = 2) ∧
      plan.domain.invocations = if plan.domain.work = 0 then 0 else plan.domain.outer.size := by
  obtain ⟨extents, work, hjoin, _, rfl⟩ := exists_assembled h
  have hrank : (p.finalSpread i extents work).extents.length = commonRank i :=
    (equivalent_finalSpread p work hjoin).2.rank.trans (joinTerminals_eq_ok hjoin).1
  refine ⟨?_, tileRank_eq _ _, ?_⟩
  · calc leastRank ≤ commonRank i := Nat.le_max_right _ _
      _ = (p.finalSpread i extents work).extents.length := hrank.symm
  · simp only [assemble, Domain.outer, Domain.rank, hrank]

theorem two_le_rank_of_plan (h : p.plan i = .ok plan) : 2 ≤ plan.domain.rank :=
  Nat.le_trans (by decide) (domain_of_plan h).1

theorem length_strides_of_plan (h : p.plan i = .ok plan) {a : Access} (ha : a ∈ plan.accesses) :
    a.strides.length = plan.domain.rank := by
  obtain ⟨k, ha⟩ := List.mem_iff_getElem?.mp ha
  have hk : k < i.terminals.length := by
    obtain ⟨hinputs, houtputs⟩ := length_accesses_of_plan h
    have hlt := (List.getElem?_eq_some_iff.mp ha).1
    simp only [Plan.accesses, Interface.terminals, List.length_append] at hlt ⊢
    omega
  obtain ⟨spread, rfl, hstretch, _⟩ := access_of_plan h (List.getElem?_eq_getElem hk) ha
  simp [access, accessStrides, Domain.rank, hstretch.length_eq]

theorem positive_outer (h : p.plan i = .ok plan) (hwork : plan.domain.work ≠ 0) :
    plan.domain.outer.Positive := by
  have hsize := (size_extents_of_plan h).1
  exact (size_pos_iff.mp (by omega)).take _

end Planner

/-! ### Addresses -/

/-- Two pointers that are one address for the machine. -/
def Pointer.SameAddress (a b : Pointer) : Prop :=
  a.buffer = b.buffer ∧ Word.unsigned a.offset = Word.unsigned b.offset

/-- The element of each terminal at an index of the whole domain, inputs first. -/
def Plan.elementPointers (p : Plan) (buffers : List (Option BufferId)) (index : Index) :
    List Pointer :=
  List.zipWith (fun buffer a =>
    ⟨buffer, a.elementSize * (a.offset + Strides.dot a.strides (index.map Int.ofNat))⟩)
    buffers p.accesses

namespace Access

/-- The start of a tile and the distances inside it lead to a sum over the whole index, into which the
offset and the outer coordinates enter as signed words. -/
theorem elementAt_offset (a : Access) (d : Domain) (hrank : 2 ≤ d.rank)
    (htile : d.tileRank = 1 ∨ d.tileRank = 2) (hstrides : a.strides.length = d.rank)
    {outer : Index} (houter : outer.length = d.rank - d.tileRank) (buffer : Option BufferId)
    (position : Nat × Nat) :
    (Invocation.elementAt ⟨buffer, a.byteOffset outer⟩ (a.tileStrides d.tileRank) position).offset
      = a.elementSize * (Word.signed a.offset + Strides.dot a.strides
          (outer.map Word.signed ++ (d.tileIndex position).map Int.ofNat)) := by
  have hsplit (front back : Strides) (hfront : front.length = outer.length) (index : List Int) :
      Strides.dot (front ++ back) (outer.map Word.signed ++ index)
        = Strides.dot (front ++ back) (outer.map Word.signed) + Strides.dot back index := by
    have hlen : front.length = (outer.map Word.signed).length := by rw [hfront, List.length_map]
    have hleft := Strides.dot_append hlen back []
    rw [List.append_nil, Strides.dot_nil, add_zero] at hleft
    rw [Strides.dot_append hlen, hleft]
  have hoffset : a.byteOffset outer
      = (Word.signed a.offset + Strides.dot a.strides (outer.map Word.signed)) * a.elementSize := rfl
  rcases htile with htile | htile
  · obtain ⟨front, column, hfront⟩ : ∃ front column, a.strides = front ++ [column] :=
      ⟨_, _, (List.dropLast_concat_getLast (List.ne_nil_of_length_pos (by omega))).symm⟩
    have hlen : front.length = outer.length := by
      have hsum := congrArg List.length hfront
      simp only [List.length_append, List.length_cons, List.length_nil] at hsum
      omega
    rw [Domain.tileIndex, htile, if_neg (by decide), Invocation.elementAt, hoffset, hfront, hsplit _ _ hlen]
    simp [Access.tileStrides, hfront, Strides.dot]
    ring
  · obtain ⟨front, row, column, hfront⟩ := exists_eq_append_pair (s := a.strides) (by omega)
    have hlen : front.length = outer.length := by
      have hsum := congrArg List.length hfront
      simp only [List.length_append, List.length_cons, List.length_nil] at hsum
      omega
    rw [Domain.tileIndex, htile, if_pos rfl, Invocation.elementAt, hoffset, hfront, hsplit _ _ hlen]
    simp [Access.tileStrides, hfront, Strides.dot]
    ring

end Access

namespace Plan

/-- What an invocation reaches at a position, terminal by terminal. -/
theorem elementsAt_invocation (plan : Plan) {inputs outputs : List (Option BufferId)}
    (hinputs : inputs.length = plan.inputs.length) (scratch : Option Region) (index : Index)
    (position : Nat × Nat) :
    (plan.invocation inputs outputs scratch index).elementsAt position
      = List.zipWith (fun buffer a => Invocation.elementAt ⟨buffer, a.byteOffset index⟩
          (a.tileStrides plan.domain.tileRank) position) (inputs ++ outputs) plan.accesses := by
  have hpointers : (plan.invocation inputs outputs scratch index).pointers
      = List.zipWith (fun buffer a => ⟨buffer, a.byteOffset index⟩) (inputs ++ outputs)
          plan.accesses := by
    rw [accesses, List.zipWith_append hinputs]
    rfl
  have hstrides : (plan.invocation inputs outputs scratch index).tileStrides
      = plan.accesses.map (·.tileStrides plan.domain.tileRank) := rfl
  rw [Invocation.elementsAt, hpointers, hstrides]
  generalize inputs ++ outputs = buffers
  induction plan.accesses generalizing buffers with
  | nil => simp
  | cons a as ih =>
      cases buffers with
      | nil => rfl
      | cons buffer buffers => simp [ih]

theorem forall₂_zipWith {α β γ : Type} {r : γ → γ → Prop} {f g : α → β → γ} {as : List α}
    {bs : List β} (h : ∀ b ∈ bs, ∀ a, r (f a b) (g a b)) :
    List.Forall₂ r (List.zipWith f as bs) (List.zipWith g as bs) := by
  induction bs generalizing as with
  | nil => simp
  | cons b bs ih =>
      cases as with
      | nil => exact .nil
      | cons a as =>
          exact .cons (h b List.mem_cons_self a) (ih fun b hb => h b (List.mem_cons_of_mem _ hb))

end Plan

namespace Planner

variable {p : Planner} {i : Interface} {plan : Plan}

/-- What a plan's invocation reaches in one terminal. -/
theorem elementAt_of_plan (h : p.plan i = .ok plan) {a : Access} (ha : a ∈ plan.accesses)
    {index : Index} (hindex : plan.domain.outer.InBounds index) (buffer : Option BufferId)
    (position : Nat × Nat) :
    (Invocation.elementAt ⟨buffer, a.byteOffset index⟩ (a.tileStrides plan.domain.tileRank)
        position).offset
      = a.elementSize * (Word.signed a.offset + Strides.dot a.strides (index.map Word.signed
          ++ (plan.domain.tileIndex position).map Int.ofNat)) := by
  have hrank := two_le_rank_of_plan h
  have htile := (domain_of_plan h).2.1
  have hlen : index.length = plan.domain.rank - plan.domain.tileRank := by
    rw [hindex.length_eq, Domain.outer, List.length_take]
    exact Nat.min_eq_left (Nat.sub_le _ _)
  exact a.elementAt_offset _ hrank htile (length_strides_of_plan h ha) hlen buffer position

/-- The tile position of an outer index is the machine address of the element with the index in the
whole domain. -/
theorem sameAddress_elementAt (h : p.plan i = .ok plan) {a : Access} (ha : a ∈ plan.accesses)
    {index : Index} (hindex : plan.domain.outer.InBounds index) (buffer : Option BufferId)
    (position : Nat × Nat) :
    Pointer.SameAddress
      (Invocation.elementAt ⟨buffer, a.byteOffset index⟩ (a.tileStrides plan.domain.tileRank) position)
      ⟨buffer, a.elementSize * (a.offset + Strides.dot a.strides
        ((plan.domain.indexAt index position).map Int.ofNat))⟩ := by
  refine ⟨rfl, Word.unsigned_eq_of_modEq ?_⟩
  rw [elementAt_of_plan h ha hindex, Domain.indexAt, List.map_append]
  have houter : List.Forall₂ (· ≡ · [ZMOD Word.size]) (index.map Word.signed)
      (index.map Int.ofNat) := by
    rw [List.forall₂_map_left_iff, List.forall₂_map_right_iff, List.forall₂_same]
    exact fun n _ => Word.signed_modEq n
  have htile : List.Forall₂ (· ≡ · [ZMOD Word.size])
      ((plan.domain.tileIndex position).map Int.ofNat)
      ((plan.domain.tileIndex position).map Int.ofNat) :=
    List.forall₂_same.mpr fun n _ => .refl n
  have hdot := Strides.dot_modEq (List.rel_append houter htile) a.strides
  exact ((Word.signed_modEq a.offset).add hdot).mul_left _

/-- In every terminal, the tile position of an outer index is the machine address of the element with
the index in the whole domain. -/
theorem sameAddress_elementsAt (h : p.plan i = .ok plan) {inputs outputs : List (Option BufferId)}
    (hinputs : inputs.length = plan.inputs.length) (scratch : Option Region) {index : Index}
    (hindex : plan.domain.outer.InBounds index) (position : Nat × Nat) :
    List.Forall₂ Pointer.SameAddress
      ((plan.invocation inputs outputs scratch index).elementsAt position)
      (plan.elementPointers (inputs ++ outputs) (plan.domain.indexAt index position)) := by
  rw [Plan.elementsAt_invocation plan hinputs, Plan.elementPointers]
  exact Plan.forall₂_zipWith fun a ha buffer => sameAddress_elementAt h ha hindex buffer position

/-- The offsets are the same exactly where no word that enters a sum has its highest bit set. -/
theorem elementsAt_eq (h : p.plan i = .ok plan) {inputs : List (Option BufferId)}
    (outputs : List (Option BufferId))
    (hinputs : inputs.length = plan.inputs.length) (hoffset : ∀ a ∈ plan.accesses, a.offset < 2 ^ 63)
    (hwork : plan.domain.work ≤ 2 ^ 63) (hpos : 0 < plan.domain.work) (scratch : Option Region)
    {index : Index} (hindex : plan.domain.outer.InBounds index) (position : Nat × Nat) :
    (plan.invocation inputs outputs scratch index).elementsAt position
      = plan.elementPointers (inputs ++ outputs) (plan.domain.indexAt index position) := by
  rw [Plan.elementsAt_invocation plan hinputs, Plan.elementPointers, ← List.forall₂_eq_eq_eq]
  have hsize : plan.domain.outer.size ≤ plan.domain.work := by
    have hsplit := size_append plan.domain.outer
      (plan.domain.extents.drop (plan.domain.rank - plan.domain.tileRank))
    rw [Domain.outer, List.take_append_drop, (size_extents_of_plan h).1] at hsplit
    exact Nat.le_of_dvd hpos ⟨_, hsplit⟩
  have hcoordinates : index.map Word.signed = index.map Int.ofNat :=
    List.map_congr_left fun i hi => Word.signed_of_lt (by have := hindex.lt_size i hi; omega)
  refine Plan.forall₂_zipWith fun a ha buffer => ?_
  have helement := elementAt_of_plan h ha hindex buffer position
  rw [hcoordinates, Word.signed_of_lt (hoffset a ha), ← List.map_append] at helement
  exact congrArg (Pointer.mk buffer) helement

end Planner

end TensorGraph
