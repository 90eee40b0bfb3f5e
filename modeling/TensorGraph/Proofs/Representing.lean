import TensorGraph.Proofs.Gathering
import TensorGraph.Proofs.Simulation
import TensorGraph.Proofs.Storing

/-! # Tensors and the sizes of their buffers

A store represents some tensors (`Store.Represents`) if each lies in a buffer of exactly the bytes that its
elements take, none as long as its shape is not known, and if those that share a buffer have one type and one
shape.  Whatever makes tensors makes them in new buffers of the right size, and whatever writes keeps the sizes of
all buffers (`Store.KeepsSizes`), so that no tensor that was represented before is lost.

For a world this is asked of the tensors in hand and of those that the world keeps (`World.Represents`).  The
reference operators preserve it (`ReferenceOp.represents`).  They would do the same if every store looked first
whether the elements fit (`World.Represents.outcome_evaluateBy`): they always do. -/

namespace TensorGraph

variable {σ α β : Type}

/-! ### Tables of variables and of memories -/

theorem Table.mem_toList_put {t : Table α} {r : Ref α} {a x : α} (h : x ∈ (t.put r a).toList) :
    x = a ∨ x ∈ t.toList := by
  have hmem : x ∈ t.entries.toList.set r.index a := by
    rw [← Array.toList_setIfInBounds]
    exact h
  exact (List.mem_or_eq_of_mem_set hmem).symm

/-- What is read from a table is an object of it, or a blank. -/
theorem Table.get_mem_toList [Inhabited α] (t : Table α) (r : Ref α) :
    t.get r ∈ t.toList ∨ t.get r = default := by
  unfold get
  cases hget : t.entries[r.index]? with
  | none => exact .inr rfl
  | some a => exact .inl (Array.mem_toList_iff.mpr (Array.mem_of_getElem? hget))

theorem Variables.values_set_subset (v : Variables) (id : VariableId) (t : Tensor) :
    (v.set id t).values ⊆ t :: v.values := by
  obtain ⟨entries⟩ := v
  show (setIn id t entries).map (·.2) ⊆ t :: entries.map (·.2)
  induction entries with
  | nil => exact List.Subset.refl _
  | cons p entries ih =>
      unfold setIn
      split
      · exact List.cons_subset_cons _ (List.subset_cons_self _ _)
      · refine List.cons_subset.mpr ⟨List.mem_cons_of_mem _ List.mem_cons_self, fun u hu => ?_⟩
        rcases List.mem_cons.mp (ih hu) with rfl | hu
        · exact List.mem_cons_self
        · exact List.mem_cons_of_mem _ (List.mem_cons_of_mem _ hu)

namespace World

variable {w : World σ}

theorem held_setVariable_subset (w : World σ) (r : Ref Variables) (id : VariableId) (t : Tensor) :
    (w.setVariable r id t).held ⊆ t :: w.held := by
  intro u hu
  rcases List.mem_append.mp hu with hvalue | hmemory
  · obtain ⟨vars, hvars, hu⟩ := List.mem_flatMap.mp hvalue
    have hheld (vars : Variables) (hvars : vars ∈ w.variables.toList) (hu : u ∈ vars.values) : u ∈ t :: w.held :=
      List.mem_cons_of_mem _ (List.mem_append_left _ (List.mem_flatMap.mpr ⟨vars, hvars, hu⟩))
    rcases Table.mem_toList_put hvars with rfl | hvars
    · rcases List.mem_cons.mp (Variables.values_set_subset _ id t hu) with rfl | hu
      · exact List.mem_cons_self
      · rcases w.variables.get_mem_toList r with hmem | hblank
        · exact hheld _ hmem hu
        · rw [hblank] at hu
          cases hu
    · exact hheld vars hvars hu
  · exact List.mem_cons_of_mem _ (List.mem_append_right _ hmemory)

theorem held_putMemory_subset (w : World σ) (r : Ref Memory) (m : Memory) :
    (w.putMemory r m).held ⊆ m.intermediates.filterMap id ++ w.held := by
  intro u hu
  rcases List.mem_append.mp hu with hvalue | hmemory
  · exact List.mem_append_right _ (List.mem_append_left _ hvalue)
  · obtain ⟨m', hm', hmade⟩ := List.mem_flatMap.mp hmemory
    rcases Table.mem_toList_put hm' with rfl | hm'
    · exact List.mem_append_left _ hmade
    · exact List.mem_append_right _ (List.mem_append_right _ (List.mem_flatMap.mpr ⟨m', hm', hmade⟩))

end World

/-! ### Stores -/

/-- The number of bytes that the elements of a tensor take. -/
def Tensor.room (t : Tensor) : Nat := t.size * t.dtype.size

namespace Store

/-- The store represents some tensors: each lies in a buffer of the bytes that its elements take, and those
that share a buffer have one type and one shape. -/
structure Represents (s : Store) (ts : List Tensor) : Prop where
  allocated : ∀ t ∈ ts, s.Allocated t.buffer
  size_bytes : ∀ t ∈ ts, (t.bytes s).size = t.room
  alike : ∀ t ∈ ts, ∀ u ∈ ts, t.SharesBuffer u → t.dtype = u.dtype ∧ t.shape = u.shape

/-- The second store has every buffer of the first, and each has the size that it had. -/
def KeepsSizes (s s' : Store) : Prop :=
  ∀ b, s.Allocated b → s'.Allocated b ∧ (s'.bytes b).size = (s.bytes b).size

variable {s s' : Store} {ts us : List Tensor} {t : Tensor}

theorem Within.keepsSizes (h : s.Within (fun _ => False) s') : s.KeepsSizes s' :=
  fun b hb => ⟨h.grows b hb, congrArg Array.size (h.keeps b hb not_false)⟩

/-- Writing as many bytes as there were. -/
theorem keepsSizes_write {b : BufferId} {content : Bytes} (h : content.size = (s.bytes b).size) :
    s.KeepsSizes (s.write b content) := by
  intro c hc
  refine ⟨(allocated_write s b c content).mpr hc, ?_⟩
  by_cases heq : b = c
  · rw [← heq, bytes_write_same s content (heq ▸ hc), h]
  · rw [bytes_write_ne s content heq]

theorem represents_nil (s : Store) : s.Represents [] := ⟨nofun, nofun, nofun⟩

namespace Represents

theorem mono (h : s.Represents ts) (hsub : us ⊆ ts) : s.Represents us where
  allocated t ht := h.allocated t (hsub ht)
  size_bytes t ht := h.size_bytes t (hsub ht)
  alike t ht u hu := h.alike t (hsub ht) u (hsub hu)

theorem of_keepsSizes (h : s.Represents ts) (hs : s.KeepsSizes s') : s'.Represents ts where
  allocated t ht := (hs _ (h.allocated t ht)).1
  size_bytes t ht := (hs _ (h.allocated t ht)).2.trans (h.size_bytes t ht)
  alike := h.alike

/-- One more tensor, in a new buffer of the right size. -/
theorem cons_new (h : s.Represents ts) (hs : s.Within (fun _ => False) s') (hnew : s.IsNew s' t)
    (hsize : (t.bytes s').size = t.room) : s'.Represents (t :: ts) := by
  have hold := h.of_keepsSizes hs.keepsSizes
  have hne (u : Tensor) (hu : u ∈ ts) : t.buffer ≠ u.buffer := hnew.ne_buffer (h.allocated u hu)
  refine ⟨List.forall_mem_cons.mpr ⟨hnew.2, hold.allocated⟩, List.forall_mem_cons.mpr ⟨hsize, hold.size_bytes⟩,
    fun u hu v hv hshared => ?_⟩
  rcases List.mem_cons.mp hu with hu | hu <;> rcases List.mem_cons.mp hv with hv | hv
  · exact hu ▸ hv ▸ ⟨rfl, rfl⟩
  · exact absurd (hu ▸ hshared) (hne v hv)
  · exact absurd (hv ▸ hshared).symm (hne u hu)
  · exact h.alike u hu v hv hshared

/-- The elements of a tensor are as many as its size says, and all of its bytes are read. -/
theorem length_elements (h : s.Represents ts) (ht : t ∈ ts) : (t.elements s).length = t.size :=
  t.dtype.length_elements (h.size_bytes t ht)

theorem bytes_elements (h : s.Represents ts) (ht : t ∈ ts) : t.dtype.bytes (t.elements s) = t.bytes s :=
  t.dtype.bytes_elements (h.size_bytes t ht)

/-! ### Operations on tensors -/

theorem alloc (h : s.Represents ts) {content : Bytes} {dtype : DType} {shape : Option Shape}
    (hsize : content.size = Tensor.room ⟨dtype, shape, (s.alloc content).1⟩) :
    (s.alloc content).2.Represents (⟨dtype, shape, (s.alloc content).1⟩ :: ts) :=
  h.cons_new (within_alloc _ s content) (isNew_alloc s content dtype shape)
    (by rw [Tensor.bytes, bytes_alloc_fresh, hsize])

theorem unshaped (h : s.Represents ts) (dtype : DType) :
    (Tensor.unshaped dtype s).2.Represents ((Tensor.unshaped dtype s).1 :: ts) :=
  h.alloc (Nat.zero_mul _).symm

theorem zeros (h : s.Represents ts) (dtype : DType) (shape : Shape) :
    (Tensor.zeros dtype shape s).2.Represents ((Tensor.zeros dtype shape s).1 :: ts) :=
  h.cons_new (Tensor.within_zeros _ dtype shape s) (Tensor.isNew_zeros dtype shape s)
    (by rw [Tensor.bytes_zeros]; exact Array.size_replicate)

theorem ofBytes (h : s.Represents ts) {dtype : DType} {shape : Shape} {content : Bytes}
    (hmade : Tensor.ofBytes dtype shape content s = .ok (t, s')) : s'.Represents (t :: ts) := by
  unfold Tensor.ofBytes at hmade
  split at hmade
  · rename_i hsize
    obtain ⟨rfl, rfl⟩ := Prod.mk.inj (Except.ok.inj hmade)
    exact h.alloc hsize
  · cases hmade

theorem deepCopy (h : s.Represents ts) (ht : t ∈ ts) : (t.deepCopy s).2.Represents ((t.deepCopy s).1 :: ts) :=
  h.alloc (h.size_bytes t ht)

theorem resize (h : s.Represents ts) (ht : t ∈ ts) (shape : Shape) :
    (t.resize shape s).2.Represents ((t.resize shape s).1 :: ts) := by
  rcases t.resize_cases shape s with ⟨-, heq⟩ | heq
  · rw [heq]
    exact h.mono (List.cons_subset.mpr ⟨ht, List.Subset.refl ts⟩)
  · rw [heq]
    exact h.zeros t.dtype shape

/-- Writing the bytes of a tensor. -/
theorem write (h : s.Represents ts) (ht : t ∈ ts) {content : Bytes} (hsize : content.size = t.room) :
    (s.write t.buffer content).Represents ts :=
  h.of_keepsSizes (keepsSizes_write (hsize.trans (h.size_bytes t ht).symm))

/-- Storing as many elements as the tensor has. -/
theorem store (h : s.Represents ts) (ht : t ∈ ts) {xs : List Nat} (hlength : xs.length = t.size) :
    (t.store xs s).Represents ts :=
  h.write ht (by rw [DType.size_bytes, hlength, Tensor.room])

/-- What is copied has as many bytes as there is room for. -/
theorem size_copied (h : s.Represents ts) (ht : t ∈ ts) {source : Tensor} (hsource : source ∈ ts)
    (hcopy : t.copyFrom source s = .ok s') : (source.bytes s).size = (t.bytes s).size := by
  have hsame : source.dtype = t.dtype ∧ source.shape = t.shape := by
    unfold Tensor.copyFrom at hcopy
    split at hcopy
    · cases hcopy
    · split at hcopy
      · cases hcopy
      · exact ⟨not_not.mp ‹_›, not_not.mp ‹_›⟩
  rw [h.size_bytes source hsource, h.size_bytes t ht, Tensor.room, Tensor.room, Tensor.size, Tensor.size,
    hsame.1, hsame.2]

theorem copyFrom (h : s.Represents ts) (ht : t ∈ ts) {source : Tensor} (hsource : source ∈ ts)
    (hcopy : t.copyFrom source s = .ok s') : s'.Represents ts := by
  have hsize := h.size_copied ht hsource hcopy
  unfold Tensor.copyFrom at hcopy
  split at hcopy
  · cases hcopy
  · split at hcopy
    · cases hcopy
    · split at hcopy
      · exact Except.ok.inj hcopy ▸ h
      · exact Except.ok.inj hcopy ▸ h.of_keepsSizes (keepsSizes_write hsize)

end Represents

end Store

/-! ### Worlds -/

namespace World

/-- The tensors that a world keeps: those that it holds, and those that the evaluators of a user keep for
themselves. -/
def tensors (own : σ → List Tensor) (w : World σ) : List Tensor := w.held ++ own w.user

/-- The store represents some tensors in hand and those that the world keeps. -/
def Represents (own : σ → List Tensor) (w : World σ) (us : List Tensor) : Prop :=
  w.store.Represents (us ++ w.tensors own)

variable {own : σ → List Tensor} {w w' : World σ} {us vs : List Tensor} {t : Tensor}

namespace Represents

/-- Another world with the same buffers, in which no tensor is in hand or kept that was not. -/
theorem of_subset (h : w.Represents own us) (hstore : w'.store = w.store)
    (hsub : vs ++ w'.tensors own ⊆ us ++ w.tensors own) : w'.Represents own vs := by
  unfold World.Represents
  rw [hstore]
  exact Store.Represents.mono h hsub

/-- Tensors that the world keeps may be taken in hand. -/
theorem take (h : w.Represents own us) (hsub : vs ⊆ us ++ w.tensors own) : w.Represents own vs :=
  h.of_subset rfl (List.append_subset.mpr ⟨hsub, List.subset_append_right _ _⟩)

theorem mono (h : w.Represents own us) (hsub : vs ⊆ us) : w.Represents own vs :=
  h.take (List.subset_append_of_subset_left _ hsub)

/-- A tensor in hand becomes the value of a variable. -/
theorem setVariable (h : w.Represents own us) (r : Ref Variables) (id : VariableId) (ht : t ∈ us) :
    (w.setVariable r id t).Represents own us := by
  refine h.of_subset rfl (List.append_subset.mpr ⟨List.subset_append_left _ _, fun u hu => ?_⟩)
  rcases List.mem_append.mp hu with hheld | hown
  · rcases List.mem_cons.mp (w.held_setVariable_subset r id t hheld) with rfl | hheld
    · exact List.mem_append_left _ ht
    · exact List.mem_append_right _ (List.mem_append_left _ hheld)
  · exact List.mem_append_right _ (List.mem_append_right _ hown)

/-- An executor remembers tensors in hand. -/
theorem putMemory (h : w.Represents own us) (r : Ref Memory) {m : Memory}
    (hm : m.intermediates.filterMap id ⊆ us ++ w.tensors own) : (w.putMemory r m).Represents own us := by
  refine h.of_subset rfl (List.append_subset.mpr ⟨List.subset_append_left _ _, fun u hu => ?_⟩)
  rcases List.mem_append.mp hu with hheld | hown
  · rcases List.mem_append.mp (w.held_putMemory_subset r m hheld) with hmade | hheld
    · exact hm hmade
    · exact List.mem_append_right _ (List.mem_append_left _ hheld)
  · exact List.mem_append_right _ (List.mem_append_right _ hown)

/-- What is in hand is represented. -/
theorem hand (h : w.Represents own us) : w.store.Represents us :=
  Store.Represents.mono h (List.subset_append_left _ _)

theorem zeros (h : w.Represents own us) (dtype : DType) (shape : Shape) :
    let made := Tensor.zeros dtype shape w.store
    Represents own { w with store := made.2 } (made.1 :: us) :=
  Store.Represents.zeros h dtype shape

theorem resized (h : w.Represents own us) (ht : t ∈ us) (shape : Shape) :
    let made := t.resize shape w.store
    Represents own { w with store := made.2 } (made.1 :: us) :=
  Store.Represents.resize h (List.mem_append_left _ ht) shape

theorem store (h : w.Represents own us) (ht : t ∈ us) {xs : List Nat} (hlength : xs.length = t.size) :
    Represents own { w with store := t.store xs w.store } us :=
  Store.Represents.store h (List.mem_append_left _ ht) hlength

theorem copied (h : w.Represents own us) (ht : t ∈ us ++ w.tensors own) :
    (w.copied t).2.Represents own ((w.copied t).1 :: us) :=
  Store.Represents.deepCopy h ht

theorem valueOrInit (h : w.Represents own us) (r : Ref Variables) (id : VariableId) (dtype : DType)
    (shape : Shape) :
    let made := w.valueOrInit r id (Tensor.zeros dtype shape)
    made.2.Represents own (made.1 :: us) := by
  unfold World.valueOrInit
  cases hvalue : (w.variables.get r).get? id with
  | some t =>
      refine h.take (List.cons_subset.mpr ⟨?_, List.subset_append_left _ _⟩)
      exact List.mem_append_right _ (List.mem_append_left _ (Executor.mem_held_of_variable hvalue))
  | none => exact (h.zeros dtype shape).setVariable r id List.mem_cons_self

end Represents

end World

/-! ### The reference operators -/

theorem Tensor.size_of_shape {t : Tensor} {shape : Shape} (h : t.shape = some shape) : t.size = shape.size := by
  rw [size, h]
  rfl

/-- The tensors that an evaluation gives back, none if it fails. -/
def Evaluator.made : Except Error (List Tensor) → List Tensor
  | .ok ts => ts
  | .error _ => []

/-- An evaluator that leaves everything represented: what it is handed and what else is in hand, what the world
keeps, and what it gives back. -/
def Evaluator.Represents (own : σ → List Tensor) (ev : Evaluator σ) : Prop :=
  ∀ (operation : Operation) (outputs inputs : List Tensor) (c : Context) (w : World σ) (us : List Tensor),
    w.Represents own us → outputs ⊆ us → inputs ⊆ us →
      let ends := (ev.evaluate operation outputs inputs c).outcome w
      ends.2.Represents own (made ends.1 ++ us)

namespace Elementwise

variable {s : Store} {us : List Tensor} {x y : Tensor} {shape left right : Shape} {leftView rightView : Layout}
  [HalfConversion]

theorem length_mapElements (hs : s.Represents us) (hx : x ∈ us) (hshape : x.shape = some shape) (dtype : DType)
    (f : Float → Float) : (mapElements dtype f (x.elements s)).length = shape.size := by
  rw [mapElements, List.length_map, hs.length_elements hx, Tensor.size_of_shape hshape]

theorem length_zipElements (hs : s.Represents us) (hx : x ∈ us) (hy : y ∈ us) (hxshape : x.shape = some shape)
    (hyshape : y.shape = some shape) (dtype : DType) (f : Float → Float → Float) :
    (zipElements dtype f (x.elements s) (y.elements s)).length = shape.size := by
  rw [zipElements, List.length_zipWith, hs.length_elements hx, hs.length_elements hy,
    Tensor.size_of_shape hxshape, Tensor.size_of_shape hyshape, Nat.min_self]

/-- Views of a common shape pass as many elements as that has, whatever they are views of. -/
theorem length_zipElements_gather (hshape : Shape.broadcast? left right = some shape)
    (hleft : (Layout.contiguous left).broadcastTo? shape = some leftView)
    (hright : (Layout.contiguous right).broadcastTo? shape = some rightView) (dtype : DType)
    (f : Float → Float → Float) (xs ys : List Nat) :
    (zipElements dtype f (gather xs leftView) (gather ys rightView)).length = shape.size := by
  obtain ⟨hl, hr⟩ := Shape.broadcastsTo_of_broadcast? hshape
  rw [zipElements, List.length_zipWith, (getElem?_gather hl hleft xs).1, (getElem?_gather hr hright ys).1,
    Nat.min_self]

end Elementwise

namespace World.Represents

variable {own : σ → List Tensor} {w : World σ} {us outputs inputs : List Tensor}

/-- Elements that a resized output takes. -/
theorem storeResized (h : w.Represents own us) {out : Tensor} (hout : out ∈ us) {shape : Shape}
    {xs : Store → List Nat} (hlength : ∀ s, s.Represents us → (xs s).length = shape.size) :
    let ends := Run.storeResized out shape xs w
    ends.2.Represents own (Evaluator.made ends.1 ++ us) := by
  have hresized := h.resized hout shape
  have hfits := hlength _ (hresized.hand.mono (List.subset_cons_self _ us))
  exact hresized.store List.mem_cons_self (hfits.trans (Tensor.size_of_shape (out.shape_resize shape w.store)).symm)

theorem relu [HalfConversion] (h : w.Represents own us) (houtputs : outputs ⊆ us) (hinputs : inputs ⊆ us)
    (operation : Operation) (c : Context) :
    let ends := (Elementwise.relu operation outputs inputs c).outcome w
    ends.2.Represents own (Evaluator.made ends.1 ++ us) := by
  rw [Elementwise.outcome_relu]
  rcases hoperands : Elementwise.reluOperands operation outputs inputs with error | ⟨x, shape, out⟩
  · exact h
  · obtain ⟨rfl, hshape, rfl, -⟩ := Elementwise.reluOperands_eq_ok.mp hoperands
    exact h.storeResized (houtputs (List.mem_singleton_self out)) fun s hs =>
      Elementwise.length_mapElements hs (hinputs (List.mem_singleton_self x)) hshape _ _

theorem binary [HalfConversion] (h : w.Represents own us) (houtputs : outputs ⊆ us) (f : Float → Float → Float)
    (operation : Operation) (c : Context) :
    let ends := (Elementwise.binary f operation outputs inputs c).outcome w
    ends.2.Represents own (Evaluator.made ends.1 ++ us) := by
  rw [Elementwise.outcome_binary]
  rcases hoperands : Elementwise.binaryOperands operation outputs inputs
    with error | ⟨x, y, shape, leftView, rightView, out⟩
  · exact h
  · obtain ⟨-, -, rfl, -, left, right, -, -, hshape, hleft, hright⟩ :=
      Elementwise.binaryOperands_eq_ok.mp hoperands
    exact h.storeResized (houtputs (List.mem_singleton_self out)) fun s _ =>
      Elementwise.length_zipElements_gather hshape hleft hright _ f _ _

theorem grown [HalfConversion] (h : w.Represents own us) {x sum : Tensor} (hx : x ∈ us) (hsum : sum ∈ us)
    {shape : Shape} (hxshape : x.shape = some shape) (hchecked : Stateful.checkSum sum x shape = .ok ())
    (r : Ref Variables) (id : VariableId) :
    let next := Stateful.grown w x shape r id sum
    next.2.Represents own (next.1 :: us) := by
  have hfits := Elementwise.length_zipElements h.hand hsum hx (Stateful.checkSum_eq_ok.mp hchecked).2 hxshape
    x.dtype (· + ·)
  exact ((h.zeros x.dtype shape).store List.mem_cons_self hfits).setVariable r id List.mem_cons_self

theorem accumulate [HalfConversion] (h : w.Represents own us) (hinputs : inputs ⊆ us) (operation : Operation)
    (c : Context) :
    let ends := (Stateful.accumulate operation outputs inputs c).outcome w
    ends.2.Represents own (Evaluator.made ends.1 ++ us) := by
  rw [Stateful.outcome_accumulate]
  rcases hoperands : Stateful.accumulateOperands operation inputs c with error | ⟨x, shape, r, id⟩
  · exact h
  · obtain ⟨rfl, hshape, -, -⟩ := Stateful.accumulateOperands_eq_ok.mp hoperands
    have hx := hinputs (List.mem_singleton_self x)
    have hinit := h.valueOrInit r id x.dtype shape
    simp only
    generalize w.valueOrInit r id (Tensor.zeros x.dtype shape) = p at hinit ⊢
    obtain ⟨sum, w₁⟩ := p
    rcases hchecked : Stateful.checkSum sum x shape with error | ⟨⟩
    · exact hinit.mono (List.subset_cons_self _ _)
    · have hgrown := hinit.grown (List.mem_cons_of_mem _ hx) List.mem_cons_self hshape hchecked r id
      generalize Stateful.grown w₁ x shape r id sum = p at hgrown ⊢
      obtain ⟨next, w₂⟩ := p
      have hkept : us ⊆ next :: sum :: us := fun u hu => List.mem_cons_of_mem _ (List.mem_cons_of_mem _ hu)
      simp only
      rcases Operand.output operation x.dtype outputs with error | out
      · exact hgrown.mono hkept
      · exact (hgrown.copied List.mem_cons_self).mono (List.cons_subset_cons _ hkept)

theorem readValue (h : w.Represents own us) (houtputs : outputs ⊆ us) (hinputs : inputs ⊆ us)
    (operation : Operation) (c : Context) :
    let ends := (Stateful.readValue operation outputs inputs c).outcome w
    ends.2.Represents own (Evaluator.made ends.1 ++ us) := by
  rw [Stateful.outcome_readValue]
  rcases Stateful.variableOperands operation c with error | ⟨r, id⟩
  · exact h
  simp only
  cases hsource : ((w.variables.get r).get? id).or inputs.head? with
  | none => exact h
  | some source =>
      have hmem : source ∈ us ++ w.tensors own := by
        rcases Option.or_eq_some_iff.mp hsource with hvalue | ⟨-, hfirst⟩
        · exact List.mem_append_right _ (List.mem_append_left _ (Executor.mem_held_of_variable hvalue))
        · exact List.mem_append_left _ (hinputs (List.mem_of_head? hfirst))
      have hcopied := h.copied hmem
      cases outputs with
      | nil => exact hcopied.mono (List.subset_cons_self _ _)
      | cons out rest =>
          refine hcopied.mono (List.cons_subset_cons _ (List.append_subset.mpr ⟨?_, List.Subset.refl us⟩))
          exact fun t ht => houtputs (List.mem_cons_of_mem _ ht)

theorem assign (h : w.Represents own us) (hinputs : inputs ⊆ us) (operation : Operation) (c : Context) :
    let ends := (Stateful.assign operation outputs inputs c).outcome w
    ends.2.Represents own (Evaluator.made ends.1 ++ us) := by
  rw [Stateful.outcome_assign]
  rcases hoperands : Stateful.assignOperands operation inputs c with error | ⟨x, r, id⟩
  · exact h
  · obtain ⟨rfl, -, -⟩ := Stateful.assignOperands_eq_ok.mp hoperands
    have hx := hinputs (List.mem_singleton_self x)
    have hset := (h.copied (List.mem_append_left _ hx)).setVariable r id List.mem_cons_self
    simp only
    rcases Operand.output operation x.dtype outputs with error | out
    · exact hset.mono (List.subset_cons_self _ _)
    · refine (hset.copied (List.mem_append_left _ (List.mem_cons_of_mem _ hx))).mono ?_
      exact List.cons_subset_cons _ (List.subset_cons_self _ _)

end World.Represents

/-- The reference operators leave everything represented, whether they fail or not. -/
theorem ReferenceOp.represents [HalfConversion] (own : σ → List Tensor) (op : ReferenceOp) :
    Evaluator.Represents own (op.evaluator : Evaluator σ) := by
  intro operation outputs inputs c w us h houtputs hinputs
  cases op with
  | relu => exact h.relu houtputs hinputs operation c
  | add => exact h.binary houtputs (· + ·) operation c
  | subtract => exact h.binary houtputs (· - ·) operation c
  | multiply => exact h.binary houtputs (· * ·) operation c
  | accumulate => exact h.accumulate hinputs operation c
  | readValue => exact h.readValue houtputs hinputs operation c
  | assign => exact h.assign hinputs operation c

/-! ### Looking first whether elements fit -/

/-- Replaces the elements of a tensor, and refuses elements that do not fill its buffer exactly. -/
def Run.setFitting (t : Tensor) (xs : List Nat) : Run σ Unit := do
  if (t.dtype.bytes xs).size ≠ (t.bytes (← get).store).size then
    throw (.internal "elements do not fill the buffer")
  Run.setElements t xs

theorem Run.outcome_setFitting {t : Tensor} {xs : List Nat} {w : World σ}
    (h : (t.dtype.bytes xs).size = (t.bytes w.store).size) :
    (setFitting t xs).outcome w = (setElements t xs).outcome w := by
  rw [setFitting, outcome_bind_ok (outcome_get w), if_neg (not_not.mpr h)]

/-- Computations that go on alike from what was returned end alike. -/
theorem Run.outcome_bind_congr {m m' : Run σ α} {k k' : α → Run σ β} {w : World σ}
    (hm : m.outcome w = m'.outcome w)
    (hk : ∀ a w', m.outcome w = (.ok a, w') → (k a).outcome w' = (k' a).outcome w') :
    (m >>= k).outcome w = (m' >>= k').outcome w := by
  rw [outcome_bind, outcome_bind, ← hm]
  rcases houtcome : m.outcome w with ⟨error | a, w'⟩
  · rfl
  · exact hk a w' houtcome

/-- The same after a check, which changes nothing. -/
theorem Run.outcome_lift_bind_congr {m : Except Error α} {k k' : α → Run σ β} {w : World σ}
    (h : ∀ a, m = .ok a → (k a).outcome w = (k' a).outcome w) :
    (liftM m >>= k).outcome w = (liftM m >>= k').outcome w := by
  cases m with
  | error error => rfl
  | ok a => exact h a rfl

namespace Elementwise

variable [HalfConversion]

/-- `relu`, by any way to put elements into a tensor. -/
def reluBy (put : Tensor → List Nat → Run σ Unit) (operation : Operation) (outputs inputs : List Tensor)
    (_ : Context) : Run σ (List Tensor) := do
  let input ← Operand.one operation inputs
  let shape ← input.resolvedShape
  let out ← Operand.output operation input.dtype outputs
  let out ← Run.onStore (out.resize shape)
  let xs ← Run.elements input
  put out (mapElements input.dtype positivePart xs)
  return [out]

/-- `binary`, by any way to put elements into a tensor. -/
def binaryBy (put : Tensor → List Nat → Run σ Unit) (f : Float → Float → Float) (operation : Operation)
    (outputs inputs : List Tensor) (_ : Context) : Run σ (List Tensor) := do
  let (lhs, rhs) ← Operand.two operation inputs
  if lhs.dtype ≠ rhs.dtype then
    throw (.dtypeMismatch lhs.dtype rhs.dtype)
  let left ← lhs.resolvedShape
  let right ← rhs.resolvedShape
  let shape ← Shape.broadcast left right
  let leftView ← (Layout.contiguous left).broadcastTo shape
  let rightView ← (Layout.contiguous right).broadcastTo shape
  let out ← Operand.output operation lhs.dtype outputs
  let out ← Run.onStore (out.resize shape)
  let xs ← Run.elements lhs
  let ys ← Run.elements rhs
  put out (zipElements lhs.dtype f (gather xs leftView) (gather ys rightView))
  return [out]

end Elementwise

/-- `accumulate`, by any way to put elements into a tensor. -/
def Stateful.accumulateBy [HalfConversion] (put : Tensor → List Nat → Run σ Unit) (operation : Operation)
    (outputs inputs : List Tensor) (c : Context) : Run σ (List Tensor) := do
  let input ← Operand.one operation inputs
  let shape ← input.resolvedShape
  let vars ← Operand.variables operation c
  let id ← Operand.variableId operation
  let sum ← valueOrInit vars id (Tensor.zeros input.dtype shape)
  if sum.dtype ≠ input.dtype then
    throw (.dtypeMismatch sum.dtype input.dtype)
  if sum.shape ≠ some shape then
    throw (.shapeMismatch sum.extents shape)
  let xs ← Run.elements sum
  let ys ← Run.elements input
  let next ← Run.onStore (Tensor.zeros input.dtype shape)
  put next (Elementwise.zipElements input.dtype (· + ·) xs ys)
  setValue vars id next
  discard (Operand.output operation input.dtype outputs)
  return [← copy next]

namespace ReferenceOp

variable [HalfConversion]

/-- How a reference operator is evaluated, by any way to put elements into a tensor. -/
def evaluateBy (put : Tensor → List Nat → Run σ Unit) :
    ReferenceOp → Operation → List Tensor → List Tensor → Context → Run σ (List Tensor)
  | relu => Elementwise.reluBy put
  | add => Elementwise.binaryBy put (· + ·)
  | subtract => Elementwise.binaryBy put (· - ·)
  | multiply => Elementwise.binaryBy put (· * ·)
  | accumulate => Stateful.accumulateBy put
  | readValue => Stateful.readValue
  | assign => Stateful.assign

/-- The evaluators put elements into tensors without looking whether they fit. -/
theorem evaluateBy_setElements (op : ReferenceOp) :
    op.evaluateBy Run.setElements = (op.evaluator : Evaluator σ).evaluate := by
  cases op <;> rfl

end ReferenceOp

namespace World.Represents

variable {own : σ → List Tensor} {w : World σ} {us outputs inputs : List Tensor}

/-- Elements fit if they are as many as the tensor has. -/
theorem outcome_setFitting (h : w.Represents own us) {t : Tensor} (ht : t ∈ us) {xs : List Nat}
    (hlength : xs.length = t.size) : (Run.setFitting t xs).outcome w = (Run.setElements t xs).outcome w :=
  Run.outcome_setFitting (by
    rw [DType.size_bytes, hlength, Store.Represents.size_bytes h t (List.mem_append_left _ ht), Tensor.room])

/-- The same where a tensor is first given a shape. -/
theorem outcome_putResized (h : w.Represents own us) {out : Tensor} (hout : out ∈ us) {shape : Shape}
    {xs : Store → List Nat} (hlength : ∀ s, s.Represents us → (xs s).length = shape.size) :
    let made := out.resize shape w.store
    (Run.setFitting made.1 (xs made.2)).outcome { w with store := made.2 }
      = (Run.setElements made.1 (xs made.2)).outcome { w with store := made.2 } := by
  have hresized := h.resized hout shape
  have hfits := hlength _ (hresized.hand.mono (List.subset_cons_self _ us))
  exact hresized.outcome_setFitting List.mem_cons_self
    (hfits.trans (Tensor.size_of_shape (out.shape_resize shape w.store)).symm)

variable [HalfConversion]

theorem outcome_reluBy (h : w.Represents own us) (houtputs : outputs ⊆ us) (hinputs : inputs ⊆ us)
    (operation : Operation) (c : Context) :
    (Elementwise.reluBy Run.setFitting operation outputs inputs c).outcome w
      = (Elementwise.reluBy Run.setElements operation outputs inputs c).outcome w := by
  refine Run.outcome_lift_bind_congr fun x hx => Run.outcome_lift_bind_congr fun shape hshape => ?_
  refine Run.outcome_lift_bind_congr fun out hout => ?_
  obtain rfl := Operand.one_eq_ok.mp hx
  obtain ⟨rfl, -⟩ := Operand.output_eq_ok.mp hout
  have hput := h.outcome_putResized (houtputs (List.mem_singleton_self out)) fun s hs =>
    Elementwise.length_mapElements hs (hinputs (List.mem_singleton_self x)) (Tensor.resolvedShape_eq_ok.mp hshape)
      x.dtype Elementwise.positivePart
  refine Run.outcome_bind_congr rfl fun made w' hmade => ?_
  cases hmade
  refine Run.outcome_bind_congr rfl fun xs w' hxs => ?_
  cases hxs
  exact Run.outcome_bind_congr hput fun _ _ _ => rfl

theorem outcome_binaryBy (h : w.Represents own us) (houtputs : outputs ⊆ us) (f : Float → Float → Float)
    (operation : Operation) (c : Context) :
    (Elementwise.binaryBy Run.setFitting f operation outputs inputs c).outcome w
      = (Elementwise.binaryBy Run.setElements f operation outputs inputs c).outcome w := by
  refine Run.outcome_lift_bind_congr fun ⟨x, y⟩ _ => ?_
  simp only
  split
  · exact Run.outcome_bind_congr rfl nofun
  refine Run.outcome_lift_bind_congr fun left _ => Run.outcome_lift_bind_congr fun right _ => ?_
  refine Run.outcome_lift_bind_congr fun shape hshape => ?_
  refine Run.outcome_lift_bind_congr fun leftView hleft => Run.outcome_lift_bind_congr fun rightView hright => ?_
  refine Run.outcome_lift_bind_congr fun out hout => ?_
  obtain ⟨rfl, -⟩ := Operand.output_eq_ok.mp hout
  have hput := h.outcome_putResized (houtputs (List.mem_singleton_self out)) fun s _ =>
    Elementwise.length_zipElements_gather (Shape.broadcast_eq_ok.mp hshape) (Layout.broadcastTo_eq_ok.mp hleft)
      (Layout.broadcastTo_eq_ok.mp hright) x.dtype f (x.elements s) (y.elements s)
  refine Run.outcome_bind_congr rfl fun made w' hmade => ?_
  cases hmade
  refine Run.outcome_bind_congr rfl fun xs w' hxs => ?_
  cases hxs
  refine Run.outcome_bind_congr rfl fun ys w' hys => ?_
  cases hys
  exact Run.outcome_bind_congr hput fun _ _ _ => rfl

theorem outcome_accumulateBy (h : w.Represents own us) (hinputs : inputs ⊆ us) (operation : Operation)
    (c : Context) :
    (Stateful.accumulateBy Run.setFitting operation outputs inputs c).outcome w
      = (Stateful.accumulateBy Run.setElements operation outputs inputs c).outcome w := by
  refine Run.outcome_lift_bind_congr fun x hx => Run.outcome_lift_bind_congr fun shape hshape => ?_
  refine Run.outcome_lift_bind_congr fun r _ => Run.outcome_lift_bind_congr fun id _ => ?_
  refine Run.outcome_bind_congr rfl fun sum w' hsum => ?_
  rw [Stateful.outcome_valueOrInit] at hsum
  cases hsum
  simp only
  split
  · exact Run.outcome_bind_congr rfl nofun
  split
  · exact Run.outcome_bind_congr rfl nofun
  rename_i hsum
  obtain rfl := Operand.one_eq_ok.mp hx
  have hinit := h.valueOrInit r id x.dtype shape
  have hfits := Elementwise.length_zipElements hinit.hand List.mem_cons_self
    (List.mem_cons_of_mem _ (hinputs (List.mem_singleton_self x))) (not_not.mp hsum)
    (Tensor.resolvedShape_eq_ok.mp hshape) x.dtype (· + ·)
  have hput := (hinit.zeros x.dtype shape).outcome_setFitting List.mem_cons_self hfits
  refine Run.outcome_bind_congr rfl fun xs w' hxs => ?_
  cases hxs
  refine Run.outcome_bind_congr rfl fun ys w' hys => ?_
  cases hys
  refine Run.outcome_bind_congr rfl fun made w' hmade => ?_
  cases hmade
  exact Run.outcome_bind_congr hput fun _ _ _ => rfl

/-- A reference operator ends as it would if every store looked first whether the elements fit. -/
theorem outcome_evaluateBy (h : w.Represents own us) (houtputs : outputs ⊆ us) (hinputs : inputs ⊆ us)
    (op : ReferenceOp) (operation : Operation) (c : Context) :
    (op.evaluateBy Run.setFitting operation outputs inputs c).outcome w
      = (op.evaluator.evaluate operation outputs inputs c).outcome w := by
  rw [← op.evaluateBy_setElements]
  cases op with
  | relu => exact h.outcome_reluBy houtputs hinputs operation c
  | add => exact h.outcome_binaryBy houtputs (· + ·) operation c
  | subtract => exact h.outcome_binaryBy houtputs (· - ·) operation c
  | multiply => exact h.outcome_binaryBy houtputs (· * ·) operation c
  | accumulate => exact h.outcome_accumulateBy hinputs operation c
  | readValue => rfl
  | assign => rfl

end World.Represents

end TensorGraph
