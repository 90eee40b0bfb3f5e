import TensorGraph.Proofs.Outcomes
import TensorGraph.Proofs.Valuation

/-! # What tensors and reference operators change

`Store.Within W` says that a store has grown and that, of the buffers there were, only those in `W` have
other bytes.  `World.Reaches W` says the same of worlds, and that a variable has the tensor it had or a
new one.  The operations on tensors are described by what they reach and by the value that they make
(`value_zeros`, `value_deepCopy`, `value_store`). -/

namespace TensorGraph

/-! ### Tables -/

/-- What is read from a table after an object was put in it; a reference to nothing puts nothing. -/
theorem Table.get_put {α : Type} [Inhabited α] [DecidableEq α] (t : Table α) (r r' : Ref α) (a : α) :
    (t.put r a).get r' = if r' = r ∧ t.Has r then a else t.get r' := by
  by_cases hr : r' = r
  · subst hr
    by_cases hhas : t.Has r'
    · rw [if_pos ⟨rfl, hhas⟩, get_put_same hhas]
    · rw [if_neg fun h => hhas h.2]
      have hsize : t.entries.size ≤ r'.index := Nat.not_lt.mp hhas
      simp [put, get, Array.setIfInBounds, Nat.not_lt.mpr hsize]
  · rw [if_neg fun h => hr h.1, get_put_ne t (Ne.symm hr)]

/-- What is read from a table after an object was added to it. -/
theorem Table.get_added {α : Type} [Inhabited α] [DecidableEq α] (t : Table α) (a : α) (r : Ref α) :
    (t.add a).2.get r = if r = (t.add a).1 then a else t.get r := by
  by_cases hr : r = (t.add a).1
  · rw [if_pos hr, hr, get_add]
  · have hindex : r.index ≠ t.entries.size := fun h => hr (congrArg Ref.mk h)
    rw [if_neg hr]
    simp [add, get, Array.getElem?_push, hindex]

theorem Table.has_add {α : Type} (t : Table α) (a : α) (r : Ref α) :
    (t.add a).2.Has r ↔ t.Has r ∨ r = (t.add a).1 := by
  cases r
  simp [add, Has]
  omega

/-! ### Stores -/

namespace Store

/-- The second store has grown from the first; of the buffers there were, only those in `W` may hold
other bytes. -/
structure Within (W : BufferId → Prop) (s s' : Store) : Prop where
  grows : ∀ b, s.Allocated b → s'.Allocated b
  keeps : ∀ b, s.Allocated b → ¬ W b → s'.bytes b = s.bytes b

/-- A tensor lies in a buffer that was allocated in between. -/
def IsNew (s s' : Store) (t : Tensor) : Prop := ¬ s.Allocated t.buffer ∧ s'.Allocated t.buffer

variable {W W' : BufferId → Prop} {s s' s'' : Store}

theorem Within.refl (W : BufferId → Prop) (s : Store) : s.Within W s :=
  ⟨fun _ h => h, fun _ _ _ => rfl⟩

theorem Within.trans (h : s.Within W s') (h' : s'.Within W' s'')
    (hW : ∀ b, s.Allocated b → W' b → W b) : s.Within W s'' where
  grows b hb := h'.grows b (h.grows b hb)
  keeps b hb hne := by
    rw [h'.keeps b (h.grows b hb) (fun hw => hne (hW b hb hw)), h.keeps b hb hne]

theorem within_alloc (W : BufferId → Prop) (s : Store) (content : Bytes) :
    s.Within W (s.alloc content).2 where
  grows b hb := (allocated_alloc s content b).mpr (.inl hb)
  keeps _ hb _ := bytes_alloc_of_allocated s content hb

theorem within_allocZeros (W : BufferId → Prop) (s : Store) (r : Allocation) :
    s.Within W (s.allocZeros r).2 where
  grows b hb := (allocated_allocZeros s r b).mpr (.inl hb)
  keeps _ hb _ := (bytes_allocZeros s r _).trans (bytes_alloc_of_allocated s _ hb)

theorem within_write (s : Store) {b : BufferId} (hb : W b) (content : Bytes) :
    s.Within W (s.write b content) where
  grows _ hc := (allocated_write s b _ content).mpr hc
  keeps _ _ hne := bytes_write_ne s content fun h => hne (h ▸ hb)

theorem IsNew.of_later {t : Tensor} (h : s.Within W s') (hnew : s'.IsNew s'' t) : s.IsNew s'' t :=
  ⟨fun ht => hnew.1 (h.grows _ ht), hnew.2⟩

theorem IsNew.of_earlier {t : Tensor} (hnew : s.IsNew s' t) (h : s'.Within W s'') : s.IsNew s'' t :=
  ⟨hnew.1, h.grows _ hnew.2⟩

theorem IsNew.ne_buffer {t u : Tensor} (h : s.IsNew s' t) (hu : s.Allocated u.buffer) :
    t.buffer ≠ u.buffer :=
  fun heq => h.1 (heq ▸ hu)

theorem isNew_alloc (s : Store) (content : Bytes) (dtype : DType) (shape : Option Shape) :
    s.IsNew (s.alloc content).2 ⟨dtype, shape, (s.alloc content).1⟩ :=
  ⟨s.fresh_not_allocated, (allocated_alloc s content _).mpr (.inr rfl)⟩

end Store

/-! ### Tensors -/

namespace Tensor

variable {W : BufferId → Prop} {s s' : Store} {t : Tensor}

@[simp] theorem dtype_value (t : Tensor) (s : Store) : (t.value s).dtype = t.dtype := rfl

@[simp] theorem shape_value (t : Tensor) (s : Store) : (t.value s).shape = t.shape := rfl

/-- A tensor whose buffer is not written keeps its value. -/
theorem value_within (h : s.Within W s') (ht : s.Allocated t.buffer) (hW : ¬ W t.buffer) :
    t.value s' = t.value s := by
  rw [value, value, bytes, bytes, h.keeps _ ht hW]

/-- Of tensors in buffers of their own any two have different ones. -/
theorem buffer_ne_of_nodup {ts : List Tensor} (h : (ts.map (·.buffer)).Nodup) {j k : Nat} {t u : Tensor} (hk : k ≠ j)
    (ht : ts[j]? = some t) (hu : ts[k]? = some u) : u.buffer ≠ t.buffer := by
  intro hbuffer
  have hj : (ts.map (·.buffer))[j]? = some t.buffer := by rw [List.getElem?_map, ht, Option.map_some]
  have hk' : (ts.map (·.buffer))[k]? = some t.buffer := by rw [List.getElem?_map, hu, Option.map_some, hbuffer]
  exact hk ((List.getElem?_inj (List.getElem?_eq_some_iff.mp hk').1 h).mp (hk'.trans hj.symm))

/-- Tensors have some values if each has its own. -/
theorem map_value_eq {ts : List Tensor} {vs : List Value} {s : Store} (hlength : vs.length = ts.length)
    (h : ∀ (j : Nat) t, ts[j]? = some t → j < vs.length → vs[j]? = some (t.value s)) :
    ts.map (·.value s) = vs := by
  refine List.ext_getElem ((List.length_map _).trans hlength.symm) fun j hj hj' => ?_
  have ht : ts[j]? = some ts[j] := List.getElem?_eq_getElem (hlength ▸ hj')
  rw [List.getElem_map, ← Option.some.injEq, ← h j _ ht hj', List.getElem?_eq_getElem hj']

theorem elements_eq_value (t : Tensor) (s : Store) : t.elements s = (t.value s).elements := rfl

theorem within_zeros (W : BufferId → Prop) (dtype : DType) (shape : Shape) (s : Store) :
    s.Within W (zeros dtype shape s).2 :=
  Store.within_allocZeros W s ⟨dtype, shape⟩

theorem isNew_zeros (dtype : DType) (shape : Shape) (s : Store) :
    s.IsNew (zeros dtype shape s).2 (zeros dtype shape s).1 :=
  ⟨s.fresh_not_allocated, (Store.allocated_allocZeros s ⟨dtype, shape⟩ _).mpr (.inr rfl)⟩

theorem bytes_zeros (dtype : DType) (shape : Shape) (s : Store) :
    (zeros dtype shape s).1.bytes (zeros dtype shape s).2 = Array.replicate (shape.size * dtype.size) 0 :=
  (Store.bytes_allocZeros s ⟨dtype, shape⟩ _).trans (s.bytes_alloc_fresh _)

theorem value_zeros (dtype : DType) (shape : Shape) (s : Store) :
    (zeros dtype shape s).1.value (zeros dtype shape s).2 = .zeros dtype shape :=
  congrArg (Value.mk dtype (some shape)) (bytes_zeros dtype shape s)

theorem within_deepCopy (W : BufferId → Prop) (t : Tensor) (s : Store) :
    s.Within W (t.deepCopy s).2 :=
  Store.within_alloc W s _

theorem isNew_deepCopy (t : Tensor) (s : Store) : s.IsNew (t.deepCopy s).2 (t.deepCopy s).1 :=
  Store.isNew_alloc s _ t.dtype t.shape

theorem value_deepCopy (t : Tensor) (s : Store) :
    (t.deepCopy s).1.value (t.deepCopy s).2 = t.value s := by
  simp only [value, deepCopy, bytes, Store.bytes_alloc_fresh]

theorem within_store (t : Tensor) (xs : List Nat) (s : Store) :
    s.Within (· = t.buffer) (t.store xs s) :=
  Store.within_write (W := (· = t.buffer)) s rfl _

/-- A tensor has the elements that were stored in it. -/
theorem value_store (xs : List Nat) {shape : Shape} (ht : s.Allocated t.buffer)
    (hshape : t.shape = some shape) : t.value (t.store xs s) = .ofElements t.dtype shape xs := by
  rw [value, store, bytes, Store.bytes_write_same s _ ht, hshape, Value.ofElements]

theorem resize_cases (t : Tensor) (shape : Shape) (s : Store) :
    t.shape = some shape ∧ t.resize shape s = (t, s) ∨ t.resize shape s = zeros t.dtype shape s := by
  unfold resize
  split
  · exact .inl ⟨‹_›, rfl⟩
  · exact .inr rfl

theorem shape_resize (t : Tensor) (shape : Shape) (s : Store) :
    (t.resize shape s).1.shape = some shape := by
  rcases t.resize_cases shape s with ⟨hshape, h⟩ | h
  · rw [h, hshape]
  · rw [h]
    rfl

theorem dtype_resize (t : Tensor) (shape : Shape) (s : Store) :
    (t.resize shape s).1.dtype = t.dtype := by
  rcases t.resize_cases shape s with ⟨_, h⟩ | h
  · rw [h]
  · rw [h]
    rfl

theorem within_resize (W : BufferId → Prop) (t : Tensor) (shape : Shape) (s : Store) :
    s.Within W (t.resize shape s).2 := by
  rcases t.resize_cases shape s with ⟨_, h⟩ | h
  · rw [h]
    exact .refl W s
  · rw [h]
    exact within_zeros W t.dtype shape s

/-- A resized tensor is the tensor itself or a new one. -/
theorem resize_eq_or_isNew (t : Tensor) (shape : Shape) (s : Store) :
    (t.resize shape s).1 = t ∨ s.IsNew (t.resize shape s).2 (t.resize shape s).1 := by
  rcases t.resize_cases shape s with ⟨_, h⟩ | h
  · exact .inl (by rw [h])
  · rw [h]
    exact .inr (isNew_zeros t.dtype shape s)

end Tensor

/-! ### Worlds -/

namespace World

variable {σ : Type} {W W' : BufferId → Prop} {w w' w'' : World σ}

/-- The second world differs from the first in its buffers and variables only: its store has grown
within `W`, and a variable has the tensor it had or a new one. -/
structure Reaches (W : BufferId → Prop) (w w' : World σ) : Prop where
  store : w.store.Within W w'.store
  same : ∃ store vars, w' = { w with store := store, «variables» := vars }
  has : ∀ r, w.variables.Has r → w'.variables.Has r
  values : ∀ r id t, (w'.variables.get r).get? id = some t →
    (w.variables.get r).get? id = some t ∨ w.store.IsNew w'.store t

theorem Reaches.refl (W : BufferId → Prop) (w : World σ) : w.Reaches W w :=
  ⟨.refl W w.store, ⟨_, _, rfl⟩, fun _ h => h, fun _ _ _ h => .inl h⟩

theorem Reaches.trans (h : w.Reaches W w') (h' : w'.Reaches W' w'')
    (hW : ∀ b, w.store.Allocated b → W' b → W b) : w.Reaches W w'' where
  store := h.store.trans h'.store hW
  same := by
    obtain ⟨_, _, rfl⟩ := h.same
    obtain ⟨_, _, rfl⟩ := h'.same
    exact ⟨_, _, rfl⟩
  has r hr := h'.has r (h.has r hr)
  values r id t ht := by
    rcases h'.values r id t ht with ht | hnew
    · rcases h.values r id t ht with ht | hnew
      · exact .inl ht
      · exact .inr (hnew.of_earlier h'.store)
    · exact .inr (hnew.of_later h.store)

theorem Reaches.of_store {s : Store} (h : w.store.Within W s) :
    w.Reaches W { w with store := s } :=
  ⟨h, ⟨_, _, rfl⟩, fun _ hr => hr, fun _ _ _ ht => .inl ht⟩

end World

end TensorGraph
