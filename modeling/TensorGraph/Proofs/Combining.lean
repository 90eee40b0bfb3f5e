import TensorGraph.Proofs.Allocating
import TensorGraph.Proofs.Pointwise

/-! # Combining two tensors

A binary operator walks two views by two cursors and combines what they pass in turn.  Both views are of one
shape, so that the cursors pass the elements which broadcasting reads for one index together, and neither leaves
its tensor (`Layout.address_lt`).  `combines_over_common_shape` says what comes of this for any two tensors, if there
is room for a tensor of their common shape: that is the shape of the result, and at each index it combines the two
elements that are read there; tensors without a common shape are refused before anything is touched.  The common shape
may be much larger than both operands, so that there may be room for these only (`combines_exhausted`). -/

namespace TensorGraph

variable {σ : Type} {a : Allocator}

open Shape

/-- A view passes only addresses of elements. -/
theorem Layout.address_lt {t d : Shape} {view : Layout} (h : t.BroadcastsTo d)
    (hview : (contiguous t).broadcastTo? d = some view) (hsize : t.size < Word.size) :
    ∀ address ∈ view.addresses, 0 ≤ address ∧ address < t.size := by
  obtain ⟨view', hview', _, haddresses⟩ := exists_view h
  obtain rfl : view' = view := Option.some.inj (hview'.symm.trans hview)
  rw [haddresses hsize]
  intro address haddress
  obtain ⟨k, hk, rfl⟩ := List.mem_map.mp haddress
  have hpositive : d.Positive := size_pos_iff.mp (Nat.zero_lt_of_lt (List.mem_range.mp hk))
  exact ⟨Int.natCast_nonneg _, by exact_mod_cast elementFor_lt h hpositive k⟩

/-- A tensor of an element type and a shape lies in a buffer of the bytes that it needs, which are as many as a
word can count. -/
structure Tensor.Stored (t : Tensor) (dtype : DType) (shape : Shape) (s : Store) : Prop where
  dtype_eq : t.dtype = dtype
  shape_eq : t.shape = some shape
  allocated : s.Allocated t.buffer
  size_eq : (t.bytes s).size = shape.size * dtype.size
  counted : (t.bytes s).size < Word.size

instance (t : Tensor) (dtype : DType) (shape : Shape) (s : Store) : Decidable (t.Stored dtype shape s) :=
  decidable_of_iff (t.dtype = dtype ∧ t.shape = some shape ∧ s.Allocated t.buffer ∧
      (t.bytes s).size = shape.size * dtype.size ∧ (t.bytes s).size < Word.size)
    ⟨fun ⟨hdtype, hshape, hallocated, hsize, hcounted⟩ => ⟨hdtype, hshape, hallocated, hsize, hcounted⟩,
      fun ⟨hdtype, hshape, hallocated, hsize, hcounted⟩ => ⟨hdtype, hshape, hallocated, hsize, hcounted⟩⟩

namespace Tensor.Stored

variable {t : Tensor} {dtype : DType} {shape : Shape} {s : Store}

theorem stretchesTo (h : t.Stored dtype shape s) {d : Shape} (hd : shape.BroadcastsTo d) :
    (t.value s).StretchesTo dtype d shape := ⟨h.dtype_eq, h.shape_eq, hd, h.size_eq⟩

theorem size_lt (h : t.Stored dtype shape s) : shape.size < Word.size := by
  have hle := Nat.le_mul_of_pos_right shape.size dtype.size_pos
  exact Nat.lt_of_le_of_lt (h.size_eq ▸ hle) h.counted

theorem length_elements (h : t.Stored dtype shape s) : (t.elements s).length = shape.size := by
  rw [elements, h.dtype_eq]
  exact dtype.length_elements h.size_eq

/-- The element that is read for an index of a shape that the tensor is broadcast to. -/
theorem exists_element (h : t.Stored dtype shape s) {d : Shape} (hd : shape.BroadcastsTo d) {index : Index}
    (hindex : d.InBounds index) :
    ∃ a, (t.elements s)[shape.ravel (shape.projected index)]? = some a ∧
      (t.value s).ReadsAt dtype d (d.ravel index) a := by
  obtain ⟨t', ht', hread⟩ := (h.stretchesTo hd).readsAt (d.ravel index)
  obtain rfl := Option.some.inj (ht'.shape_eq.symm.trans h.shape_eq)
  refine ⟨_, ?_, (h.stretchesTo hd).readsAt (d.ravel index)⟩
  rw [elements_eq_value, ← hread (ravel_lt hindex), elementFor, unravel_ravel hindex]

end Tensor.Stored

namespace ReferenceOp

variable {op : ReferenceOp} {f : Float → Float → Float} {dtype : DType} {left right : Shape}
  {x y out : Tensor} {w : World σ}

theorem evaluate_of_combiner [HalfConversion] (h : op.combiner? = some f) :
    (op.evaluator (σ := σ)).evaluate = Elementwise.binary f := by
  cases op with
  | add | subtract | multiply =>
      obtain rfl := Option.some.inj h
      rfl
  | relu | accumulate | readValue | assign => cases h

/-- A binary operator stores the value that combines the values of its operands, where there is room for it. -/
theorem exists_combined [HalfConversion] (hop : op.combiner? = some f) (hx : x.Stored dtype left w.store)
    (hy : y.Stored dtype right w.store) (hout : out.dtype = dtype) (hallocated : w.store.Allocated out.buffer)
    (hapart : x.buffer ≠ out.buffer ∧ y.buffer ≠ out.buffer) (hgranted : w.store.Granted a) {shape : Shape}
    (hshape : broadcast? left right = some shape) (hgrants : a.grants ⟨dtype, shape⟩ = true) (operation : Operation)
    (c : Context) :
    ∃ t s, (op.evaluator.evaluate operation [out] [x, y] c).outcomeOn a w = some (.ok [t], { w with store := s }) ∧
      t.dtype = dtype ∧ t.shape = some shape ∧
      Value.binary f (x.value w.store) (y.value w.store) = some (t.value s) := by
  have hmakes := Elementwise.makes_binary f hx.dtype_eq hy.dtype_eq hx.shape_eq hy.shape_eq hout operation c w
  rw [hshape] at hmakes
  obtain ⟨t, s, houtcome, hdtype, htshape⟩ := hmakes
  have happart : w.Apart (fun _ => False) ⟨0⟩ out [x, y] (w.valuesOf ⟨0⟩) :=
    ⟨hallocated, by simp [hx.allocated, hy.allocated, hapart], fun _ _ hid => hid.elim, fun _ hid => hid.elim⟩
  have hagrees := Run.agrees_binary happart f operation c
  rw [houtcome] at hagrees
  obtain ⟨t', vars, ht', hdenoted, _⟩ := hagrees
  obtain rfl := List.singleton_inj.mp ht'
  obtain ⟨v, hcombine, hv⟩ := Option.map_eq_some_iff.mp hdenoted
  obtain ⟨rfl, _⟩ := Prod.mk.inj hv
  have hafter : ((Elementwise.binary f operation [out] [x, y] c).outcome w).2.store.Granted a :=
    granted_binary hgranted f fun t' w' houtcome' _ _ shape' hshape' => by
      rw [houtcome] at houtcome'
      obtain ⟨hmade, -⟩ := Prod.mk.inj houtcome'
      obtain rfl : t = t' := List.singleton_inj.mp (Except.ok.inj hmade)
      obtain rfl := Option.some.inj (htshape.symm.trans hshape')
      rwa [hdtype]
  rw [houtcome] at hafter
  rw [evaluate_of_combiner hop]
  exact ⟨t, s, Run.outcomeOn_of_granted houtcome hafter, hdtype, htshape, hcombine⟩

/-- **Binary operators combine over the common shape.**  Of two tensors of one element type, in buffers other than
that of the output, a binary operator makes a tensor of their common shape, if the machine has the room for one,
whatever shape and content the output had.  Both views pass addresses of elements only, and at each index the result
is what the operator makes, in binary64, of the elements at the trailing coordinates of the index, with 0 where an
operand has extent 1.  Tensors without a common shape are refused, and the world stays as it was. -/
theorem combines_over_common_shape [HalfConversion] (hop : op.combiner? = some f) (hx : x.Stored dtype left w.store)
    (hy : y.Stored dtype right w.store) (hout : out.dtype = dtype) (hallocated : w.store.Allocated out.buffer)
    (hapart : x.buffer ≠ out.buffer ∧ y.buffer ≠ out.buffer) (hgranted : w.store.Granted a) (operation : Operation)
    (c : Context) :
    (∀ shape, broadcast left right = .ok shape → a.grants ⟨dtype, shape⟩ = true → ∃ t s leftView rightView,
      (op.evaluator.evaluate operation [out] [x, y] c).outcomeOn a w = some (.ok [t], { w with store := s }) ∧
      t.dtype = dtype ∧ t.shape = some shape ∧ (t.elements s).length = shape.size ∧
      (Layout.contiguous left).broadcastTo shape = .ok leftView ∧
      (∀ address ∈ leftView.addresses, 0 ≤ address ∧ address < (x.elements w.store).length) ∧
      (Layout.contiguous right).broadcastTo shape = .ok rightView ∧
      (∀ address ∈ rightView.addresses, 0 ≤ address ∧ address < (y.elements w.store).length) ∧
      ∀ index, shape.InBounds index → ∃ u v,
        (x.elements w.store)[left.ravel (left.projected index)]? = some u ∧
        (y.elements w.store)[right.ravel (right.projected index)]? = some v ∧
        (t.elements s)[shape.ravel index]? = some (dtype.ofFloat (f (dtype.toFloat u) (dtype.toFloat v)))) ∧
    ∀ error, broadcast left right = .error error →
      (op.evaluator.evaluate operation [out] [x, y] c).outcomeOn a w = some (.error (.broadcast left right), w) := by
  refine ⟨fun shape hshape hgrants => ?_, fun error hshape => ?_⟩
  · have hshape := broadcast_eq_ok.mp hshape
    obtain ⟨htoLeft, htoRight⟩ := broadcastsTo_of_broadcast? hshape
    obtain ⟨t, s, houtcome, hdtype, htshape, hbinary⟩ :=
      exists_combined hop hx hy hout hallocated hapart hgranted hshape hgrants operation c
    obtain ⟨leftView, hleftView, _⟩ := Layout.exists_view htoLeft
    obtain ⟨rightView, hrightView, _⟩ := Layout.exists_view htoRight
    have hleftAddress := Layout.address_lt htoLeft hleftView hx.size_lt
    have hrightAddress := Layout.address_lt htoRight hrightView hy.size_lt
    obtain ⟨shape', v, hshape', hv, hstretches, hreads⟩ :=
      Value.exists_binary f (hx.stretchesTo htoLeft) (hy.stretchesTo htoRight) fun _ => ⟨hx.size_lt, hy.size_lt⟩
    obtain rfl := Option.some.inj (hshape'.symm.trans hshape)
    obtain rfl := Option.some.inj (hv.symm.trans hbinary)
    refine ⟨t, s, leftView, rightView, houtcome, hdtype, htshape, hstretches.length_elements,
      Layout.broadcastTo_eq_ok.mpr hleftView, by rwa [hx.length_elements],
      Layout.broadcastTo_eq_ok.mpr hrightView, by rwa [hy.length_elements], fun index hindex => ?_⟩
    obtain ⟨u, hu, hreadsLeft⟩ := hx.exists_element htoLeft hindex
    obtain ⟨v, hv, hreadsRight⟩ := hy.exists_element htoRight hindex
    obtain ⟨z, hz, hread⟩ := hreads _ u v hreadsLeft hreadsRight
    obtain rfl := Option.some.inj (hz.shape_eq.symm.trans hstretches.shape_eq)
    refine ⟨u, v, hu, hv, ?_⟩
    have hlt := ravel_lt hindex
    rw [Tensor.elements_eq_value, ← hread hlt, elementFor_self, Nat.mod_eq_of_lt hlt]
  · have hnone : broadcast? left right = none := by
      unfold broadcast at hshape
      split at hshape
      · cases hshape
      · assumption
    refine Run.outcomeOn_of_granted ?_ hgranted
    rw [evaluate_of_combiner hop, Elementwise.outcome_binary,
      Elementwise.binaryOperands_eq_broadcast (hx.dtype_eq.trans hy.dtype_eq.symm) hx.shape_eq hy.shape_eq hnone]

/-- A column of two elements, a row of three, and an output that has no shape yet. -/
def columnRow : World Unit :=
  { World.empty () with store := ⟨#[.filled #[1, 2], .filled #[10, 20, 30], .filled #[]], []⟩ }

/-- A column and a row are added to a table, at whose last index the last elements of both are read; as two rows
they are refused. -/
theorem combines_column_row :
    let operation : Operation := ⟨0, .add, none, [0, 1], [2], none⟩
    let column : Tensor := ⟨.u8, some [2, 1], ⟨0⟩⟩
    let row : Tensor := ⟨.u8, some [3], ⟨1⟩⟩
    let out : Tensor := ⟨.u8, none, ⟨2⟩⟩
    (∃ t s, (add.evaluator.evaluate operation [out] [column, row] .empty).outcomeOn .checked columnRow
        = some (.ok [t], { columnRow with store := s }) ∧
      t.shape = some [2, 3] ∧
      (t.elements s)[5]? = some (DType.u8.ofFloat (DType.u8.toFloat 2 + DType.u8.toFloat 30))) ∧
    (add.evaluator.evaluate operation [out] [⟨.u8, some [2], ⟨0⟩⟩, row] .empty).outcomeOn .checked columnRow
      = some (.error (.broadcast [2] [3]), columnRow) := by
  intro operation column row out
  have hadd : add.combiner? = some (· + ·) := rfl
  have hrow : row.Stored .u8 [3] columnRow.store := by decide
  have hgranted : columnRow.store.Granted .checked := by decide
  constructor
  · obtain ⟨t, s, _, _, houtcome, _, hshape, _, _, _, _, _, helements⟩ :=
      (combines_over_common_shape hadd (show column.Stored .u8 [2, 1] columnRow.store by decide) hrow
        (show out.dtype = .u8 from rfl) (by decide) (by decide) hgranted operation .empty).1 [2, 3] rfl (by decide)
    obtain ⟨u, v, hu, hv, hsum⟩ := helements [1, 2] (by decide)
    obtain rfl : u = 2 := by
      have hread : (column.elements columnRow.store)[1]? = some 2 := by decide
      exact Option.some.inj (hu.symm.trans hread)
    obtain rfl : v = 30 := by
      have hread : (row.elements columnRow.store)[2]? = some 30 := by decide
      exact Option.some.inj (hv.symm.trans hread)
    exact ⟨t, s, houtcome, hshape, hsum⟩
  · exact (combines_over_common_shape hadd
      (show Tensor.Stored ⟨.u8, some [2], ⟨0⟩⟩ .u8 [2] columnRow.store by decide) hrow
      (show out.dtype = .u8 from rfl) (by decide) (by decide) hgranted operation .empty).2 _ rfl

/-! ### Room that is missing -/

/-- What a binary operator allocates if its output has another shape than the result. -/
theorem allocations_combined [HalfConversion] (hop : op.combiner? = some f) (hx : x.dtype = dtype)
    (hy : y.dtype = dtype) (hleft : x.shape = some left) (hright : y.shape = some right) (hout : out.dtype = dtype)
    {shape : Shape} (hshape : broadcast? left right = some shape) (hnew : out.shape ≠ some shape)
    (operation : Operation) (c : Context) (w : World σ) :
    ((op.evaluator.evaluate operation [out] [x, y] c).outcome w).2.store.allocations
      = ⟨dtype, shape⟩ :: w.store.allocations := by
  obtain ⟨leftView, rightView, hoperands⟩ :=
    Elementwise.exists_binaryOperands hx hy hleft hright hout hshape operation
  obtain ⟨s, hstored, hs⟩ := Run.exists_storeResized out shape (fun s => Elementwise.zipElements x.dtype f
    (Elementwise.gather (x.elements s) leftView) (Elementwise.gather (y.elements s) rightView)) w
  rw [evaluate_of_combiner hop, Elementwise.outcome_binary, hoperands]
  simp only [hstored, hs]
  rw [Tensor.resize, if_neg hnew, hout]
  rfl

/-- A column and a row that are both as long as a machine may well hold, and an output that has no shape yet. -/
def longEdges : World Unit :=
  let s := (Tensor.zeros .u8 [3037000500, 1] .empty).2
  let s := (Tensor.zeros .u8 [1, 3037000500] s).2
  { World.empty () with store := (Tensor.unshaped .u8 s).2 }

/-- A column and a row that are granted have a common shape, but no machine makes a table of them. -/
theorem combines_exhausted :
    let operation : Operation := ⟨0, .add, none, [0, 1], [2], none⟩
    let column : Tensor := ⟨.u8, some [3037000500, 1], ⟨0⟩⟩
    let row : Tensor := ⟨.u8, some [1, 3037000500], ⟨1⟩⟩
    let out : Tensor := ⟨.u8, none, ⟨2⟩⟩
    longEdges.store.Granted .checked ∧ column.Stored .u8 [3037000500, 1] longEdges.store ∧
    row.Stored .u8 [1, 3037000500] longEdges.store ∧ longEdges.store.Allocated out.buffer ∧
    broadcast [3037000500, 1] [1, 3037000500] = .ok [3037000500, 3037000500] ∧
    ∀ a, (add.evaluator.evaluate operation [out] [column, row] .empty).outcomeOn a longEdges = none := by
  intro operation column row out
  have hzeros : (Array.replicate 3037000500 (0 : UInt8)).size = 3037000500 := Array.size_replicate
  refine ⟨by decide, ⟨rfl, rfl, by decide, hzeros, ?_⟩, ⟨rfl, rfl, by decide, hzeros, ?_⟩, by decide, rfl,
    fun a => ?_⟩
  · exact hzeros.trans_lt (by decide)
  · exact hzeros.trans_lt (by decide)
  · have hallocations := allocations_combined (show add.combiner? = some (· + ·) from rfl)
      (show column.dtype = .u8 from rfl) (show row.dtype = .u8 from rfl) rfl rfl (show out.dtype = .u8 from rfl)
      (show broadcast? [3037000500, 1] [1, 3037000500] = some [3037000500, 3037000500] from rfl) nofun operation .empty
      longEdges
    exact Run.outcomeOn_eq_none (Store.not_granted (hallocations ▸ List.mem_cons_self) (by decide) a)

end ReferenceOp

end TensorGraph
