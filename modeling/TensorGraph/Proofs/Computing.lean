import TensorGraph.Proofs.Coverage
import TensorGraph.Proofs.Storing

/-! # Kernels that compute a function

A kernel computes a function if in each invocation, at every position of the tile, it stores in the outputs
what the function makes of the elements that the inputs had there, and changes no other byte
(`Kernel.Computes`); it need do so only where the elements that it is to write overlap neither each other
nor those that it is to read.  Walking the tile row by row is such a kernel (`computes_ofFunction`).

Over a planned domain such calls add up (`Computed`): what one call stores, no later call for another outer
index changes, so that after a run every element of every output holds the value of the function for the
elements at which broadcasting reads the inputs (`run_computes`). -/

namespace TensorGraph

variable {σ : Type}

/-! ### Stores that differ in some elements -/

/-- The second store has the buffers of the first, of the same lengths, and differs from it only in bytes
of the elements at some pointers. -/
structure Store.ChangesOnly (size : Nat) (ps : List Pointer) (s s' : Store) : Prop where
  allocated : ∀ b, s'.Allocated b ↔ s.Allocated b
  length : ∀ b, (s'.bytes b).size = (s.bytes b).size
  kept : ∀ b offset, (∀ p ∈ ps, ¬ p.Covers size b offset) →
    (s'.bytes b)[offset]? = (s.bytes b)[offset]?

namespace Pointer

/-- The elements at two pointers do not overlap. -/
def Apart (size : Nat) (p q : Pointer) : Prop :=
  p.buffer ≠ q.buffer ∨ p.offset.toNat + size ≤ q.offset.toNat ∨ q.offset.toNat + size ≤ p.offset.toNat

/-- The element at a pointer lies in a buffer. -/
def Inside (size : Nat) (s : Store) (p : Pointer) : Prop :=
  ∃ b, p.buffer = some b ∧ p.offset.toNat + size ≤ (s.bytes b).size

variable {size : Nat} {p q : Pointer} {dtype : DType} {s s' : Store}

theorem Apart.not_covers (h : p.Apart size q) {b : BufferId} {offset : Nat} (hp : p.Covers size b offset) :
    ¬ q.Covers size b offset := by
  rintro ⟨hbuffer, hfrom, hto⟩
  obtain ⟨hbuffer', hfrom', hto'⟩ := hp
  rcases h with h | h | h
  · exact h (hbuffer'.trans hbuffer.symm)
  · omega
  · omega

end Pointer

namespace Store.ChangesOnly

variable {size : Nat} {ps qs : List Pointer} {dtype : DType} {s s' s'' : Store}

theorem refl (size : Nat) (s : Store) : s.ChangesOnly size [] s := ⟨fun _ => .rfl, fun _ => rfl, fun _ _ _ => rfl⟩

theorem trans (h : s.ChangesOnly size ps s') (h' : s'.ChangesOnly size qs s'') :
    s.ChangesOnly size (ps ++ qs) s'' where
  allocated b := (h'.allocated b).trans (h.allocated b)
  length b := (h'.length b).trans (h.length b)
  kept b offset hnone := by
    rw [h'.kept b offset fun p hp => hnone p (List.mem_append_right _ hp),
      h.kept b offset fun p hp => hnone p (List.mem_append_left _ hp)]

/-- An element apart from those that may change loads as before. -/
theorem load (h : s.ChangesOnly dtype.size ps s') {p : Pointer} (hp : ∀ q ∈ ps, p.Apart dtype.size q) :
    p.load dtype s' = p.load dtype s :=
  Pointer.load_congr fun b offset hcovers =>
    h.kept b offset fun q hq => (hp q hq).not_covers hcovers

theorem inside (h : s.ChangesOnly size ps s') {p : Pointer} (hp : p.Inside size s) : p.Inside size s' := by
  obtain ⟨b, hb, hlength⟩ := hp
  exact ⟨b, hb, by rwa [h.length b]⟩

end Store.ChangesOnly

namespace Pointer

variable {dtype : DType} {s : Store} {p : Pointer}

theorem allocated_put {x : Nat} {b : BufferId} : (p.put dtype x s).Allocated b ↔ s.Allocated b := by
  unfold put
  split
  · exact .rfl
  · rw [Store.update_eq_write, Store.allocated_write]

/-- Storing an element changes this element only, and it is loaded again. -/
theorem changesOnly_put (hp : p.Inside dtype.size s) {x : Nat} (hx : x < dtype.patterns) :
    s.ChangesOnly dtype.size [p] (p.put dtype x s) ∧ p.load dtype (p.put dtype x s) = x := by
  obtain ⟨b, hb, hinside⟩ := hp
  have hput : p.put dtype x s
      = s.write b ((s.bytes b).overwrite p.offset.toNat (Bytes.ofNat dtype.size x)) := by
    rw [put, hb]
    exact Store.update_eq_write _ _ _
  have hallocated : s.Allocated b := by
    by_contra hnot
    have hempty : s.bytes b = #[] := by
      rw [Store.bytes, Array.getElem?_eq_none (Nat.not_lt.mp hnot)]
      rfl
    have hpos := dtype.size_pos
    rw [hempty] at hinside
    simp only [List.size_toArray, List.length_nil] at hinside
    omega
  have hbytes (offset : Nat) (hoffset : offset < (s.bytes b).size) :
      ((s.write b ((s.bytes b).overwrite p.offset.toNat (Bytes.ofNat dtype.size x))).bytes b)[offset]?
        = if p.offset.toNat ≤ offset ∧ offset < p.offset.toNat + dtype.size then
            (Bytes.ofNat dtype.size x)[offset - p.offset.toNat]?
          else (s.bytes b)[offset]? := by
    rw [Store.bytes_write_same s _ hallocated, Bytes.getElem?_overwrite _ _ _ hoffset, Bytes.length_ofNat]
  rw [hput]
  refine ⟨⟨fun c => s.allocated_write b c _, fun c => ?_, fun c offset hnone => ?_⟩, ?_⟩
  · by_cases hc : b = c
    · rw [← hc, Store.bytes_write_same s _ hallocated, Bytes.size_overwrite]
    · rw [Store.bytes_write_ne s _ hc]
  · by_cases hc : b = c
    · subst hc
      by_cases hoffset : offset < (s.bytes b).size
      · rw [hbytes offset hoffset, if_neg fun h => hnone p (List.mem_singleton_self p) ⟨hb, h.1, h.2⟩]
      · rw [Array.getElem?_eq_none (by
          rw [Store.bytes_write_same s _ hallocated, Bytes.size_overwrite]; omega),
          Array.getElem?_eq_none (by omega)]
    · rw [Store.bytes_write_ne s _ hc]
  · have hslice : Bytes.slice ((s.write b
        ((s.bytes b).overwrite p.offset.toNat (Bytes.ofNat dtype.size x))).bytes b) p.offset.toNat dtype.size
          = Bytes.ofNat dtype.size x := by
      refine List.ext_getElem? fun i => ?_
      rw [Bytes.getElem?_slice]
      split
      · rw [hbytes _ (by omega), if_pos (by omega), Nat.add_sub_cancel_left]
      · rw [List.getElem?_eq_none (by rw [Bytes.length_ofNat]; omega)]
    rw [load, hb]
    simp only [hslice]
    exact Bytes.toNat_ofNat _ (dtype.patterns_eq ▸ hx)

end Pointer

/-! ### Kernels -/

namespace Invocation

/-- The elements that an invocation is to read at a position of its tile. -/
def inputsAt (i : Invocation) (position : Nat × Nat) : List Pointer :=
  (i.elementsAt position).take i.inputs.length

/-- The elements that an invocation is to write at a position of its tile. -/
def outputsAt (i : Invocation) (position : Nat × Nat) : List Pointer :=
  (i.elementsAt position).drop i.inputs.length

/-- All elements that an invocation is to write. -/
def written (i : Invocation) : List Pointer := i.tilePositions.flatMap i.outputsAt

/-- What is to be written lies in buffers, and overlaps neither itself nor what is to be read. -/
structure Apart (i : Invocation) (size : Nat) (s : Store) : Prop where
  inside : ∀ p ∈ i.written, p.Inside size s
  once : i.written.Pairwise (Pointer.Apart size)
  unread : ∀ position ∈ i.tilePositions, ∀ p ∈ i.inputsAt position, ∀ q ∈ i.written, p.Apart size q

/-- The second store holds in the outputs what a function makes of the elements that the inputs have in the
first one, position by position, and is the same elsewhere.  Nothing is said of bits that do not fit into
an element. -/
structure Stores (i : Invocation) (dtype : DType) (f : List Nat → Option (List Nat)) (s s' : Store) :
    Prop where
  changes : s.ChangesOnly dtype.size i.written s'
  results : ∀ position ∈ i.tilePositions, ∀ ys,
    f ((i.inputsAt position).map (·.load dtype s)) = some ys → ∀ (j : Nat) (p : Pointer) (y : Nat),
      (i.outputsAt position)[j]? = some p → ys[j]? = some y → y < dtype.patterns → p.load dtype s' = y

theorem mem_tilePositions {i : Invocation} {position : Nat × Nat} : position ∈ i.tilePositions ↔
    position.1 < i.tileExtents.1 ∧ position.2 < i.tileExtents.2 := by
  obtain ⟨row, column⟩ := position
  simp [tilePositions]

theorem nodup_tilePositions (i : Invocation) : i.tilePositions.Nodup :=
  List.nodup_range.product List.nodup_range

end Invocation

namespace Kernel

/-- A kernel changes no more of the world than buffers and what a user keeps, and drops no buffer. -/
def Confined (kernel : Kernel σ) : Prop :=
  ∀ i w, ∃ s user, (kernel.call i w).2 = { w with store := s, user := user } ∧
    ∀ b, w.store.Allocated b → s.Allocated b

/-- A kernel never fails, keeps to itself, and stores what a function makes of the elements it is given. -/
structure Computes (kernel : Kernel σ) (dtype : DType) (f : List Nat → Option (List Nat)) : Prop where
  neverFails : kernel.NeverFails
  confined : kernel.Confined
  stores : ∀ (i : Invocation) (w : World σ), i.Apart dtype.size w.store → i.Stores dtype f w.store (kernel.call i w).2.store

theorem Confined.after {kernel : Kernel σ} (h : kernel.Confined) (calls : List KernelCall) (w : World σ) :
    ∃ s user, kernel.after calls w = { w with store := s, user := user } ∧
      ∀ b, w.store.Allocated b → s.Allocated b := by
  induction calls generalizing w with
  | nil => exact ⟨w.store, w.user, rfl, fun _ hb => hb⟩
  | cons c calls ih =>
      obtain ⟨s, user, hcall, hgrows⟩ := h c.invocation w
      obtain ⟨s', user', hafter, hgrows'⟩ := ih (kernel.call c.invocation w).2
      rw [hcall] at hafter hgrows'
      exact ⟨s', user', (congrArg (kernel.after calls) hcall).trans hafter, fun b hb => hgrows' b (hgrows b hb)⟩

/-- What is to be written at each place for a function. -/
def writes (dtype : DType) (f : List Nat → Option (List Nat)) (i : Invocation) (s : Store) :
    List (Pointer × Nat) :=
  i.tilePositions.flatMap fun position =>
    let ys := (f ((i.inputsAt position).map (·.load dtype s))).getD []
    (i.outputsAt position).zipIdx.map fun (p, j) => (p, (ys[j]?).getD 0)

/-- The kernel that walks its tile row by row. -/
def ofFunction (dtype : DType) (f : List Nat → Option (List Nat)) : Kernel σ where
  scratchSize := 0
  call i w := (.ok (), { w with
    store := (writes dtype f i w.store).foldl (fun s (p, y) => p.put dtype (y % dtype.patterns) s) w.store })

theorem map_fst_writes (dtype : DType) (f : List Nat → Option (List Nat)) (i : Invocation) (s : Store) :
    (writes dtype f i s).map (·.1) = i.written := by
  unfold writes Invocation.written
  rw [List.map_flatMap]
  refine List.flatMap_congr fun position _ => ?_
  rw [List.map_map]
  exact List.zipIdx_map_fst 0 _

/-- Elements that are apart are stored one after the other. -/
theorem changesOnly_foldl_put (dtype : DType) (ws : List (Pointer × Nat)) {s : Store}
    (hinside : ∀ w ∈ ws, w.1.Inside dtype.size s)
    (honce : ws.Pairwise fun a b => a.1.Apart dtype.size b.1) :
    let s' := ws.foldl (fun s (p, y) => p.put dtype (y % dtype.patterns) s) s
    s.ChangesOnly dtype.size (ws.map (·.1)) s' ∧ ∀ w ∈ ws, w.1.load dtype s' = w.2 % dtype.patterns := by
  induction ws generalizing s with
  | nil => exact ⟨.refl _ s, fun w hw => (List.not_mem_nil hw).elim⟩
  | cons w ws ih =>
      obtain ⟨hw, hinside⟩ := List.forall_mem_cons.mp hinside
      obtain ⟨happart, honce⟩ := List.pairwise_cons.mp honce
      obtain ⟨hput, hload⟩ := Pointer.changesOnly_put hw (Nat.mod_lt w.2 dtype.patterns_pos)
      obtain ⟨hrest, hloads⟩ := ih (fun v hv => hput.inside (hinside v hv)) honce
      refine ⟨hput.trans hrest, fun v hv => ?_⟩
      rcases List.mem_cons.mp hv with rfl | hv
      · rw [← hload]
        refine hrest.load fun q hq => ?_
        obtain ⟨u, hu, rfl⟩ := List.mem_map.mp hq
        exact happart u hu
      · exact hloads v hv

/-- Walking a tile row by row computes a function. -/
theorem computes_ofFunction (dtype : DType) (f : List Nat → Option (List Nat)) :
    (ofFunction dtype f : Kernel σ).Computes dtype f := by
  have hwrites (i : Invocation) (s : Store) (h : i.Apart dtype.size s) :
      i.Stores dtype f s
        ((writes dtype f i s).foldl (fun s (p, y) => p.put dtype (y % dtype.patterns) s) s) := by
    have hfst := map_fst_writes dtype f i s
    obtain ⟨hchanges, hloads⟩ := changesOnly_foldl_put dtype (writes dtype f i s) (s := s)
      (fun w hw => h.inside _ (hfst ▸ List.mem_map_of_mem hw))
      (List.pairwise_map.mp (hfst.symm ▸ h.once))
    refine ⟨hfst ▸ hchanges, fun position hposition ys hys j p y hp hy hfits => ?_⟩
    have hmem : (p, y) ∈ writes dtype f i s := by
      refine List.mem_flatMap.mpr ⟨position, hposition, List.mem_map.mpr ⟨(p, j), ?_, ?_⟩⟩
      · exact List.mk_mem_zipIdx_iff_getElem?.mpr hp
      · simp only [hys, Option.getD_some, hy]
    rw [hloads _ hmem]
    exact Nat.mod_eq_of_lt hfits
  have hallocated (ws : List (Pointer × Nat)) (b : BufferId) (s : Store) (hb : s.Allocated b) :
      (ws.foldl (fun s (p, y) => p.put dtype (y % dtype.patterns) s) s).Allocated b := by
    induction ws generalizing s with
    | nil => exact hb
    | cons w ws ih => exact ih _ (w.1.allocated_put.mpr hb)
  exact ⟨fun _ _ => rfl, fun i w => ⟨_, w.user, rfl, fun b hb => hallocated _ b w.store hb⟩,
    fun i w => hwrites i w.store⟩

end Kernel

/-! ### Planned domains -/

namespace Domain

/-- The number in the whole domain of a position in the tile of an outer index. -/
def numberAt (d : Domain) (index : Index) (position : Nat × Nat) : Nat :=
  d.extents.ravel (d.indexAt index position)

end Domain

/-- A position in the tile of an outer index has a number below the work, and its index is that of the
number. -/
theorem Planner.numberAt_lt_work {p : Planner} {i : Interface} {plan : Plan} (h : p.plan i = .ok plan)
    {index : Index} (hindex : plan.domain.outer.InBounds index) {position : Nat × Nat}
    (hrow : position.1 < plan.domain.tile.1) (hcolumn : position.2 < plan.domain.tile.2) :
    plan.domain.numberAt index position < plan.domain.work ∧
      plan.domain.extents.unravel (plan.domain.numberAt index position)
        = plan.domain.indexAt index position := by
  have htile := (domain_of_plan h).2.1
  have hinside := Domain.indexAt_inBounds (two_le_rank_of_plan h) htile hindex hrow hcolumn
  refine ⟨?_, Shape.unravel_ravel hinside⟩
  rw [← (size_extents_of_plan h).1]
  exact Shape.ravel_lt hinside

/-- Where the terminals, dense in some buffers, are read for the `k`-th index of a shape. -/
def Pointer.ofTerminals (size : Nat) (s : Shape) (k : Nat) (buffers : List BufferId) (ts : List Terminal) :
    List Pointer :=
  List.zipWith (fun b t => ⟨some b, size * Shape.elementFor s t.extents k⟩) buffers ts

/-- A terminal that has the shape itself is read at the number. -/
theorem Pointer.ofTerminals_full (size : Nat) {s : Shape} {k : Nat} (hk : k < s.size)
    {buffers : List BufferId} {ts : List Terminal} (hlength : buffers.length = ts.length)
    (hfull : ∀ t ∈ ts, t.extents = s) :
    ofTerminals size s k buffers ts = buffers.map fun b => ⟨some b, size * (k : Int)⟩ := by
  induction ts generalizing buffers with
  | nil =>
      obtain rfl := List.length_eq_zero_iff.mp hlength
      rfl
  | cons t ts ih =>
      cases buffers with
      | nil => cases hlength
      | cons b buffers =>
          obtain ⟨ht, hfull⟩ := List.forall_mem_cons.mp hfull
          have hrest := ih (Nat.succ.inj hlength) hfull
          unfold ofTerminals at hrest ⊢
          rw [List.zipWith_cons_cons, hrest, ht, Shape.elementFor_self, Nat.mod_eq_of_lt hk, List.map_cons]

/-- A plan over a shape, for dense terminals of one element type in buffers of their own: the outputs have
the shape themselves, and no output shares a buffer with an input or another output. -/
structure Plan.Serves (plan : Plan) (p : Planner) (i : Interface) (dtype : DType) (s : Shape)
    (ins outs : List BufferId) : Prop where
  planned : p.plan i = .ok plan
  master : plan.domain.master = s
  work : plan.domain.work = s.size
  small : s.size < 2 ^ 63
  dense : ∀ t ∈ i.terminals, t.offset = 0 ∧ t.dtype = dtype
  full : ∀ t ∈ i.outputs, t.extents = s
  ins_length : ins.length = i.inputs.length
  outs_length : outs.length = i.outputs.length
  unread : ∀ b ∈ ins, b ∉ outs
  once : outs.Nodup

namespace Plan.Serves

open Shape

variable {plan : Plan} {p : Planner} {i : Interface} {dtype : DType} {s : Shape}
  {ins outs : List BufferId} {kernel : Kernel σ} {f : List Nat → Option (List Nat)}

theorem rank_tile (h : plan.Serves p i dtype s ins outs) :
    2 ≤ plan.domain.rank ∧ (plan.domain.tileRank = 1 ∨ plan.domain.tileRank = 2) := by
  obtain ⟨hrank, htile, _⟩ := Planner.domain_of_plan h.planned
  exact ⟨Nat.le_trans (by decide) hrank, htile⟩

theorem numberAt_lt (h : plan.Serves p i dtype s ins outs) {index : Index}
    (hindex : plan.domain.outer.InBounds index) {position : Nat × Nat}
    (hrow : position.1 < plan.domain.tile.1) (hcolumn : position.2 < plan.domain.tile.2) :
    plan.domain.numberAt index position < s.size ∧
      plan.domain.extents.unravel (plan.domain.numberAt index position)
        = plan.domain.indexAt index position := by
  rw [← h.work]
  exact Planner.numberAt_lt_work h.planned hindex hrow hcolumn

theorem length_accesses (h : plan.Serves p i dtype s ins outs) :
    plan.accesses.length = i.terminals.length := by
  obtain ⟨hinputs, houtputs⟩ := Planner.length_accesses_of_plan h.planned
  rw [Plan.accesses, Interface.terminals, List.length_append, List.length_append, hinputs, houtputs]

theorem access_eq (h : plan.Serves p i dtype s ins outs) {m : Nat} {t : Terminal} {a : Access}
    (ht : i.terminals[m]? = some t) (ha : plan.accesses[m]? = some a) :
    a.offset = 0 ∧ a.elementSize = dtype.size := by
  obtain ⟨spread, rfl, _⟩ := Planner.access_of_plan h.planned ht ha
  obtain ⟨hoffset, hdtype⟩ := h.dense t (List.mem_of_getElem? ht)
  exact ⟨hoffset, congrArg DType.size hdtype⟩

/-- The elements of all terminals for a number below the work. -/
theorem elementPointers_eq (h : plan.Serves p i dtype s ins outs) {k : Nat} (hk : k < s.size) :
    plan.elementPointers ((ins ++ outs).map some) (plan.domain.extents.unravel k)
      = Pointer.ofTerminals dtype.size s k (ins ++ outs) i.terminals := by
  unfold Plan.elementPointers Pointer.ofTerminals
  refine List.ext_getElem? fun m => ?_
  rw [List.getElem?_zipWith, List.getElem?_zipWith, List.getElem?_map]
  by_cases hm : m < i.terminals.length
  · have ht := List.getElem?_eq_getElem hm
    have ha := List.getElem?_eq_getElem (h.length_accesses.symm ▸ hm)
    have hdot := Planner.dot_strides_of_plan h.planned ht ha (h.work.symm ▸ hk)
    obtain ⟨hoffset, hsize⟩ := h.access_eq ht ha
    rw [ht, ha]
    cases (ins ++ outs)[m]? with
    | none => rfl
    | some b => simp only [Option.map_some, hoffset, hsize, hdot, h.master, Nat.cast_zero, Int.zero_add]
  · rw [List.getElem?_eq_none (Nat.not_lt.mp hm),
      List.getElem?_eq_none (l := plan.accesses) (by rw [h.length_accesses]; exact Nat.not_lt.mp hm)]
    cases (ins ++ outs)[m]? <;> rfl

/-- What an invocation is to read and write at a position of its tile. -/
theorem reached (h : plan.Serves p i dtype s ins outs) (scratch : Option Region) {index : Index}
    (hindex : plan.domain.outer.InBounds index) {position : Nat × Nat}
    (hrow : position.1 < plan.domain.tile.1) (hcolumn : position.2 < plan.domain.tile.2) :
    let k := plan.domain.numberAt index position
    let call := plan.invocation (ins.map some) (outs.map some) scratch index
    call.inputsAt position = Pointer.ofTerminals dtype.size s k ins i.inputs ∧
      call.outputsAt position = outs.map fun b => ⟨some b, dtype.size * (k : Int)⟩ := by
  intro k call
  obtain ⟨hk, hunravel⟩ := h.numberAt_lt hindex hrow hcolumn
  obtain ⟨hinputs, houtputs⟩ := Planner.length_accesses_of_plan h.planned
  have hins : (ins.map some).length = plan.inputs.length := by rw [List.length_map, hinputs, h.ins_length]
  have hoffset : ∀ a ∈ plan.accesses, a.offset < 2 ^ 63 := by
    intro a ha
    obtain ⟨m, ha⟩ := List.mem_iff_getElem?.mp ha
    have hm : m < i.terminals.length := h.length_accesses ▸ (List.getElem?_eq_some_iff.mp ha).1
    rw [(h.access_eq (List.getElem?_eq_getElem hm) ha).1]
    decide
  have hsplit : call.elementsAt position = Pointer.ofTerminals dtype.size s k ins i.inputs
      ++ Pointer.ofTerminals dtype.size s k outs i.outputs := by
    have helements := Planner.elementsAt_eq h.planned (outs.map some) hins hoffset
      (Nat.le_of_lt (h.work.symm ▸ h.small)) (by rw [h.work]; omega) scratch hindex position
    rw [← hunravel, ← List.map_append, h.elementPointers_eq hk] at helements
    rw [helements, Pointer.ofTerminals, Interface.terminals, List.zipWith_append h.ins_length]
    rfl
  have hlength : (Pointer.ofTerminals dtype.size s k ins i.inputs).length = call.inputs.length := by
    simp [Pointer.ofTerminals, call, Plan.invocation, hinputs]
  have hfull := Pointer.ofTerminals_full dtype.size hk h.outs_length h.full
  unfold Invocation.inputsAt Invocation.outputsAt
  rw [hsplit, List.take_left' hlength, List.drop_left' hlength]
  exact ⟨rfl, hfull⟩

/-! ### One call after another -/

/-- In the second store, the elements of the outputs for some outer indices hold what a function makes of
the elements of the inputs in the first store; other buffers are the same. -/
structure Computed (plan : Plan) (i : Interface) (dtype : DType) (s : Shape) (ins outs : List BufferId)
    (f : List Nat → Option (List Nat)) (done : List Index) (s₀ s₁ : Store) : Prop where
  allocated : ∀ b, s₁.Allocated b ↔ s₀.Allocated b
  length : ∀ b, (s₁.bytes b).size = (s₀.bytes b).size
  kept : ∀ b, b ∉ outs → s₁.bytes b = s₀.bytes b
  results : ∀ index ∈ done, plan.domain.outer.InBounds index → ∀ position : Nat × Nat,
    position.1 < plan.domain.tile.1 → position.2 < plan.domain.tile.2 →
    ∀ ys, f ((Pointer.ofTerminals dtype.size s (plan.domain.numberAt index position) ins i.inputs).map
      (·.load dtype s₀)) = some ys →
    ∀ (j : Nat) (b : BufferId) (y : Nat), outs[j]? = some b → ys[j]? = some y → y < dtype.patterns →
      Pointer.load ⟨some b, dtype.size * (plan.domain.numberAt index position : Int)⟩ dtype s₁ = y

theorem buffer_ofTerminals {size k : Nat} {q : Pointer} (hq : q ∈ Pointer.ofTerminals size s k ins i.inputs) :
    ∃ b ∈ ins, q.buffer = some b := by
  obtain ⟨m, hm⟩ := List.mem_iff_getElem?.mp hq
  obtain ⟨b, _, hb, _, rfl⟩ := List.getElem?_zipWith_eq_some.mp hm
  exact ⟨b, List.mem_of_getElem? hb, rfl⟩

/-- What an invocation is to write. -/
theorem mem_written (h : plan.Serves p i dtype s ins outs) (scratch : Option Region) {index : Index}
    (hindex : plan.domain.outer.InBounds index) {q : Pointer}
    (hq : q ∈ (plan.invocation (ins.map some) (outs.map some) scratch index).written) :
    ∃ position : Nat × Nat, position.1 < plan.domain.tile.1 ∧ position.2 < plan.domain.tile.2 ∧
      ∃ b ∈ outs, q = ⟨some b, dtype.size * (plan.domain.numberAt index position : Int)⟩ := by
  obtain ⟨position, hposition, hq⟩ := List.mem_flatMap.mp hq
  obtain ⟨hrow, hcolumn⟩ := Invocation.mem_tilePositions.mp hposition
  rw [(h.reached scratch hindex hrow hcolumn).2] at hq
  obtain ⟨b, hb, rfl⟩ := List.mem_map.mp hq
  exact ⟨position, hrow, hcolumn, b, hb, rfl⟩

/-- Elements of different numbers are apart. -/
theorem apart_of_ne (size : Nat) {k k' : Nat} (hk : k ≠ k') (b b' : Option BufferId) :
    Pointer.Apart size ⟨b, size * (k : Int)⟩ ⟨b', size * (k' : Int)⟩ := by
  have hoffset (n : Nat) : ((size : Int) * (n : Int)).toNat = size * n := by
    rw [← Int.natCast_mul, Int.toNat_natCast]
  refine .inr ?_
  simp only [hoffset]
  rcases Nat.lt_or_gt_of_ne hk with hlt | hlt
  · have hmul := Nat.mul_le_mul_left size hlt
    rw [Nat.mul_succ] at hmul
    exact .inl hmul
  · have hmul := Nat.mul_le_mul_left size hlt
    rw [Nat.mul_succ] at hmul
    exact .inr hmul

theorem numberAt_inj (h : plan.Serves p i dtype s ins outs) {index index' : Index}
    (hindex : plan.domain.outer.InBounds index) (hindex' : plan.domain.outer.InBounds index')
    {position position' : Nat × Nat} (hrow : position.1 < plan.domain.tile.1)
    (hcolumn : position.2 < plan.domain.tile.2) (hrow' : position'.1 < plan.domain.tile.1)
    (hcolumn' : position'.2 < plan.domain.tile.2)
    (heq : plan.domain.numberAt index position = plan.domain.numberAt index' position') :
    index = index' ∧ position = position' := by
  obtain ⟨hrank, htile⟩ := h.rank_tile
  have hleft := (h.numberAt_lt hindex hrow hcolumn).2
  rw [heq, (h.numberAt_lt hindex' hrow' hcolumn').2] at hleft
  exact Domain.indexAt_inj hrank htile (hindex.length_eq.trans hindex'.length_eq.symm) hrow hrow' hleft.symm

/-- The invocations of a plan may write what they are to write. -/
theorem apart_invocation (h : plan.Serves p i dtype s ins outs) (scratch : Option Region) {index : Index}
    (hindex : plan.domain.outer.InBounds index) {s₁ : Store}
    (hlength : ∀ b ∈ outs, (s₁.bytes b).size = s.size * dtype.size) :
    (plan.invocation (ins.map some) (outs.map some) scratch index).Apart dtype.size s₁ where
  inside q hq := by
    obtain ⟨position, hrow, hcolumn, b, hb, rfl⟩ := h.mem_written scratch hindex hq
    have hk := (h.numberAt_lt hindex hrow hcolumn).1
    refine ⟨b, rfl, ?_⟩
    have hmul := Nat.mul_le_mul_right dtype.size hk
    rw [Nat.succ_mul, Nat.mul_comm _ dtype.size] at hmul
    rw [hlength b hb]
    simpa only [← Int.natCast_mul, Int.toNat_natCast] using hmul
  once := by
    refine List.pairwise_flatMap.mpr ⟨fun position hposition => ?_, ?_⟩
    · obtain ⟨hrow, hcolumn⟩ := Invocation.mem_tilePositions.mp hposition
      rw [(h.reached scratch hindex hrow hcolumn).2, List.pairwise_map]
      exact h.once.imp fun hne => .inl fun heq => hne (Option.some.inj heq)
    · refine (Invocation.nodup_tilePositions _).imp_of_mem fun {position position'} hmem hmem' hne => ?_
      obtain ⟨hrow, hcolumn⟩ := Invocation.mem_tilePositions.mp hmem
      obtain ⟨hrow', hcolumn'⟩ := Invocation.mem_tilePositions.mp hmem'
      rw [(h.reached scratch hindex hrow hcolumn).2, (h.reached scratch hindex hrow' hcolumn').2]
      intro q hq q' hq'
      obtain ⟨b, _, rfl⟩ := List.mem_map.mp hq
      obtain ⟨b', _, rfl⟩ := List.mem_map.mp hq'
      exact apart_of_ne dtype.size
        (fun heq => hne (h.numberAt_inj hindex hindex hrow hcolumn hrow' hcolumn' heq).2) _ _
  unread position hposition q hq q' hq' := by
    obtain ⟨hrow, hcolumn⟩ := Invocation.mem_tilePositions.mp hposition
    rw [(h.reached scratch hindex hrow hcolumn).1] at hq
    obtain ⟨b, hb, hbuffer⟩ := buffer_ofTerminals hq
    obtain ⟨_, _, _, b', hb', rfl⟩ := h.mem_written scratch hindex hq'
    refine .inl fun heq => h.unread b hb ?_
    rwa [Option.some.inj (hbuffer.symm.trans heq)]

/-- One more call computes the elements for its outer index. -/
theorem computed_call (h : plan.Serves p i dtype s ins outs) {done : List Index} {s₀ s₁ s₂ : Store}
    (hcomputed : Computed plan i dtype s ins outs f done s₀ s₁) (scratch : Option Region) {index : Index}
    (hindex : plan.domain.outer.InBounds index)
    (hstores : (plan.invocation (ins.map some) (outs.map some) scratch index).Stores dtype f s₁ s₂) :
    Computed plan i dtype s ins outs f (done ++ [index]) s₀ s₂ where
  allocated b := (hstores.changes.allocated b).trans (hcomputed.allocated b)
  length b := (hstores.changes.length b).trans (hcomputed.length b)
  kept b hb := by
    rw [← hcomputed.kept b hb]
    refine Array.ext_getElem? fun offset => hstores.changes.kept b offset fun q hq hcovers => ?_
    obtain ⟨_, _, _, b', hb', rfl⟩ := h.mem_written scratch hindex hq
    exact hb (Option.some.inj hcovers.1 ▸ hb')
  results index' hindex' hbounds position hrow hcolumn ys hys j b y hb hy hfits := by
    by_cases hsame : index' = index
    · subst hsame
      obtain ⟨hinputs, houtputs⟩ := h.reached scratch hbounds hrow hcolumn
      have hread : ((plan.invocation (ins.map some) (outs.map some) scratch index').inputsAt position).map
            (·.load dtype s₁)
          = (Pointer.ofTerminals dtype.size s (plan.domain.numberAt index' position) ins i.inputs).map
            (·.load dtype s₀) := by
        rw [hinputs]
        refine List.map_congr_left fun q hq => Pointer.load_congr fun b' offset hcovers => ?_
        obtain ⟨b'', hb'', hbuffer⟩ := buffer_ofTerminals hq
        rw [hcomputed.kept b' fun hmem => h.unread b'' hb'' ?_]
        rwa [Option.some.inj (hbuffer.symm.trans hcovers.1)]
      refine hstores.results position (Invocation.mem_tilePositions.mpr ⟨hrow, hcolumn⟩) ys
        (hread ▸ hys) j _ y ?_ hy hfits
      rw [houtputs, List.getElem?_map, hb]
      rfl
    · have hdone : index' ∈ done := by
        rcases List.mem_append.mp hindex' with hmem | hmem
        · exact hmem
        · exact absurd (List.mem_singleton.mp hmem) hsame
      rw [← hcomputed.results index' hdone hbounds position hrow hcolumn ys hys j b y hb hy hfits]
      refine hstores.changes.load fun q hq => ?_
      obtain ⟨position', hrow', hcolumn', b', _, rfl⟩ := h.mem_written scratch hindex hq
      exact apart_of_ne dtype.size
        (fun heq => hsame (h.numberAt_inj hbounds hindex hrow hcolumn hrow' hcolumn' heq).1) _ _

theorem computed_after (h : plan.Serves p i dtype s ins outs) (hkernel : kernel.Computes dtype f)
    {calls : List KernelCall} (hcalls : ∀ c ∈ calls, plan.domain.outer.InBounds c.index ∧
      ∃ scratch, c.invocation = plan.invocation (ins.map some) (outs.map some) scratch c.index)
    {s₀ : Store} (hlength : ∀ b ∈ outs, (s₀.bytes b).size = s.size * dtype.size) {done : List Index}
    {w : World σ} (hcomputed : Computed plan i dtype s ins outs f done s₀ w.store) :
    Computed plan i dtype s ins outs f (done ++ calls.map (·.index)) s₀ (kernel.after calls w).store := by
  induction calls generalizing done w with
  | nil => exact (List.append_nil done).symm ▸ hcomputed
  | cons c calls ih =>
      obtain ⟨⟨hindex, scratch, hinvocation⟩, hcalls⟩ := List.forall_mem_cons.mp hcalls
      have happart : (plan.invocation (ins.map some) (outs.map some) scratch c.index).Apart dtype.size w.store :=
        h.apart_invocation scratch hindex fun b hb => (hcomputed.length b).trans (hlength b hb)
      have hcall := h.computed_call hcomputed scratch hindex (hkernel.stores _ w happart)
      rw [← hinvocation] at hcall
      have hrest := ih hcalls hcall
      rwa [List.append_assoc, List.singleton_append] at hrest

/-- A run of a kernel that computes a function stores in every element of every output what the function
makes of the elements at which the inputs are read. -/
theorem run_computes (h : plan.Serves p i dtype s ins outs) (hkernel : kernel.Computes dtype f)
    (scheduler : Scheduler) {interleaving : List Task → List Nat}
    (hcomplete : ∀ tasks, Sweep.Complete tasks (interleaving tasks)) {w : World σ}
    (hlength : ∀ b ∈ outs, (w.store.bytes b).size = s.size * dtype.size) :
    ∃ w', (scheduler.runAlong interleaving kernel plan (ins.map some) (outs.map some)).outcome w
        = (.ok (), w') ∧ (∀ b ∈ outs, (w'.store.bytes b).size = s.size * dtype.size) ∧
      ∀ k < s.size, ∀ ys, f ((Pointer.ofTerminals dtype.size s k ins i.inputs).map
          (·.load dtype w.store)) = some ys →
        ∀ (j : Nat) (b : BufferId) (y : Nat), outs[j]? = some b → ys[j]? = some y → y < dtype.patterns →
          Pointer.load ⟨some b, dtype.size * (k : Int)⟩ dtype w'.store = y := by
  obtain ⟨hinputs, houtputs⟩ := Planner.length_accesses_of_plan h.planned
  have hins : (ins.map some).length = plan.inputs.length := by rw [List.length_map, hinputs, h.ins_length]
  have houts : (outs.map some).length = plan.outputs.length := by
    rw [List.length_map, houtputs, h.outs_length]
  have houtcome := Scheduler.outcome_runAlong_of_neverFails h.planned scheduler hkernel.neverFails hcomplete
    hins houts w
  have hstart : Computed plan i dtype s ins outs f [] w.store w.store :=
    ⟨fun _ => .rfl, fun _ => rfl, fun _ _ => rfl, fun _ hmem => (List.not_mem_nil hmem).elim⟩
  cases hempty : plan.domain.isEmpty with
  | true =>
      rw [scheduler.calls_of_isEmpty interleaving kernel hempty, if_pos hempty] at houtcome
      refine ⟨w, houtcome, hlength, fun k hk => ?_⟩
      have hwork : plan.domain.work = 0 := by simpa [Domain.isEmpty] using hempty
      rw [← h.work, hwork] at hk
      exact absurd hk (Nat.not_lt_zero k)
  | false =>
      have hindices {index : Index} : index ∈ (scheduler.calls interleaving kernel plan (ins.map some)
          (outs.map some) w).map (·.index) ↔ index ∈ plan.domain.outer.indices :=
        Scheduler.mem_map_index_calls h.planned scheduler hkernel.neverFails hcomplete (ins.map some)
          (outs.map some) w hempty
      have hcalls : ∀ c ∈ scheduler.calls interleaving kernel plan (ins.map some) (outs.map some) w,
          plan.domain.outer.InBounds c.index ∧
            ∃ scratch, c.invocation = plan.invocation (ins.map some) (outs.map some) scratch c.index :=
        fun c hc => ⟨mem_indices.mp (hindices.mp (List.mem_map_of_mem hc)),
          (Scheduler.invocation_of_mem_calls hc).2.2⟩
      have hcomputed := h.computed_after hkernel hcalls hlength
        (w := (scheduler.opening kernel plan w).world) hstart
      rw [if_neg (by rw [hempty]; exact Bool.false_ne_true)] at houtcome
      refine ⟨_, houtcome, fun b hb => (hcomputed.length b).trans (hlength b hb), ?_⟩
      intro k hk ys hys j b y hb hy hfits
      obtain ⟨hrank, htile⟩ := h.rank_tile
      have hsize := (Planner.size_extents_of_plan h.planned).1
      have hpositive := Planner.positive_extents_of_plan h.planned
        (by rw [h.work]; exact Nat.ne_zero_of_lt hk)
      obtain ⟨index, position, hindex, hrow, hcolumn, hat⟩ := Domain.exists_indexAt hrank htile hpositive k
      have hnumber : plan.domain.numberAt index position = k := by
        rw [Domain.numberAt, hat, ravel_unravel (by rw [hsize, h.work]; exact hk)]
      have hdone : index ∈ [] ++ (scheduler.calls interleaving kernel plan (ins.map some)
          (outs.map some) w).map (·.index) := hindices.mpr (mem_indices.mpr hindex)
      have hresult := hcomputed.results index hdone hindex position hrow hcolumn ys
        (hnumber.symm ▸ hys) j b y hb hy hfits
      rwa [hnumber] at hresult

end Plan.Serves

end TensorGraph
