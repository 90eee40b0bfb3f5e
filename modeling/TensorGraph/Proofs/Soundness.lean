import TensorGraph.Proofs.Operators

/-! # Everything held is allocated

A world is sound if the tensors that variables and executors hold lie in buffers of the store, so that a
new buffer is never one of theirs.  `Run.Keeps ts m made` says that `m`, started in a sound world whose
store holds the tensors `ts`, ends in a sound world that goes on from it (`World.Continues`), however it
ends, and that the store then holds the tensors `made` of what is returned; `Call.Keeps` says the same
within a call.  Both pass through binds.

Executing a graph keeps worlds sound if its evaluators do (`keeps_executeNodes`), and the reference operators
do (`keeps_evaluator`).  A world that an executor reaches, by calls with any outcome and whatever happens
elsewhere in between, is therefore sound (`Reached.sound`). -/

namespace TensorGraph

variable {σ α β : Type}

/-- The buffers of some tensors are allocated. -/
def Store.Holds (s : Store) (ts : List Tensor) : Prop := ∀ t ∈ ts, s.Allocated t.buffer

instance (s : Store) (ts : List Tensor) : Decidable (s.Holds ts) :=
  inferInstanceAs (Decidable (∀ t ∈ ts, _))

/-- The tensors that a call in progress holds lie in buffers of the store. -/
abbrev Frame.Sound (f : Frame) (s : Store) : Prop := s.Holds f.held

namespace World

/-- What variables and executors hold lies in buffers of the store. -/
structure Sound (w : World σ) : Prop where
  values : ∀ r id t, (w.variables.get r).get? id = some t → w.store.Allocated t.buffer
  memories : ∀ r t, some t ∈ (w.memories.get r).intermediates → w.store.Allocated t.buffer

/-- Buffers and variables that there were are still there. -/
structure Grows (w w' : World σ) : Prop where
  store : ∀ b, w.store.Allocated b → w'.store.Allocated b
  has : ∀ r, w.variables.Has r → w'.variables.Has r

variable {w w' w'' : World σ} {W : BufferId → Prop}

theorem Grows.refl (w : World σ) : w.Grows w := ⟨fun _ h => h, fun _ h => h⟩

theorem Grows.trans (h : w.Grows w') (h' : w'.Grows w'') : w.Grows w'' :=
  ⟨fun b hb => h'.store b (h.store b hb), fun r hr => h'.has r (h.has r hr)⟩

theorem Grows.holds (h : w.Grows w') {ts : List Tensor} (hts : w.store.Holds ts) :
    w'.store.Holds ts :=
  fun t ht => h.store _ (hts t ht)

theorem Reaches.grows (h : w.Reaches W w') : w.Grows w' := ⟨h.store.grows, h.has⟩

/-- The second world goes on from the first: it has grown, every plan is kept as it was, and nobody else
is asked to cancel. -/
structure Continues (w w' : World σ) : Prop extends w.Grows w' where
  plans : w'.planCaches = w.planCaches
  requests : ∀ r, w'.cancelRequested r = true → w.cancelRequested r = true

theorem Continues.refl (w : World σ) : w.Continues w := ⟨.refl w, rfl, fun _ h => h⟩

theorem Continues.trans (h : w.Continues w') (h' : w'.Continues w'') : w.Continues w'' :=
  ⟨h.toGrows.trans h'.toGrows, h'.plans.trans h.plans, fun r hr => h.requests r (h'.requests r hr)⟩

theorem Reaches.continues (h : w.Reaches W w') : w.Continues w' := by
  refine ⟨h.grows, ?_, ?_⟩
  · obtain ⟨_, _, rfl⟩ := h.same
    rfl
  · obtain ⟨_, _, rfl⟩ := h.same
    exact fun _ hr => hr

theorem Reaches.sound (h : w.Reaches W w') (hw : w.Sound) : w'.Sound where
  values r id t ht := by
    rcases h.values r id t ht with ht | hnew
    · exact h.store.grows _ (hw.values r id t ht)
    · exact hnew.2
  memories r t ht := by
    have hgrows := h.store.grows t.buffer
    obtain ⟨_, _, rfl⟩ := h.same
    exact hgrows (hw.memories r t ht)

/-- Taking back a request to cancel. -/
theorem continues_takenRequest (w : World σ) (r : Ref CancelFlag) :
    w.Continues { w with cancelFlags := w.cancelFlags.put r ⟨false⟩ } := by
  refine ⟨⟨fun _ h => h, fun _ h => h⟩, rfl, fun r' hr' => ?_⟩
  change ((w.cancelFlags.put r ⟨false⟩).get r').requested = true at hr'
  rw [Table.get_put] at hr'
  split at hr'
  · cases hr'
  · exact hr'

theorem continues_putMemory (w : World σ) (r : Ref Memory) (m : Memory) : w.Continues (w.putMemory r m) :=
  ⟨⟨fun _ h => h, fun _ h => h⟩, rfl, fun _ h => h⟩

theorem sound_empty (user : σ) : (World.empty user).Sound where
  values _ _ _ ht := by cases ht
  memories _ _ ht := by cases ht

/-- A world that differs in neither buffers, variables nor intermediates. -/
theorem Sound.congr (hw : w.Sound) (hstore : w'.store = w.store) (hvars : w'.variables = w.variables)
    (hmem : ∀ r t, some t ∈ (w'.memories.get r).intermediates →
      some t ∈ (w.memories.get r).intermediates) : w'.Sound where
  values r id t ht := by
    rw [hstore]
    rw [hvars] at ht
    exact hw.values r id t ht
  memories r t ht := by
    rw [hstore]
    exact hw.memories r t (hmem r t ht)

end World

/-! ### Computations in the world -/

namespace Run

/-- From a sound world that holds `ts`, a computation leads to a sound world that holds what is made. -/
def Keeps (ts : List Tensor) (m : Run σ α) (made : α → List Tensor) : Prop :=
  ∀ w : World σ, w.Sound → w.store.Holds ts →
    (m.outcome w).2.Sound ∧ w.Continues (m.outcome w).2 ∧
      ∀ a, (m.outcome w).1 = .ok a → (m.outcome w).2.store.Holds (made a)

variable {ts : List Tensor}

theorem keeps_pure {made : α → List Tensor} {a : α} (h : made a ⊆ ts) :
    Keeps ts (pure a : Run σ α) made := by
  intro w hw hts
  refine ⟨hw, .refl w, fun b hb t ht => ?_⟩
  obtain rfl : a = b := Except.ok.inj hb
  exact hts t (h ht)

theorem keeps_throw {made : α → List Tensor} (e : Error) : Keeps ts (throw e : Run σ α) made :=
  fun w hw _ => ⟨hw, .refl w, nofun⟩

theorem keeps_lift_bind {made : β → List Tensor} {m : Except Error α} {k : α → Run σ β}
    (h : ∀ a, m = .ok a → Keeps ts (k a) made) : Keeps ts (liftM m >>= k) made := by
  cases m with
  | error e => exact keeps_throw e
  | ok a => exact h a rfl

theorem Keeps.bind {m : Run σ α} {k : α → Run σ β} {made : α → List Tensor}
    {made' : β → List Tensor} (hm : Keeps ts m made)
    (hk : ∀ a, Keeps (made a ++ ts) (k a) made') : Keeps ts (m >>= k) made' := by
  intro w hw hts
  obtain ⟨hsound, hgrows, hmade⟩ := hm w hw hts
  rw [outcome_bind]
  rcases houtcome : m.outcome w with ⟨error | a, w'⟩
  · rw [houtcome] at hsound hgrows
    exact ⟨hsound, hgrows, nofun⟩
  · rw [houtcome] at hsound hgrows hmade
    have hall : w'.store.Holds (made a ++ ts) := fun t ht =>
      (List.mem_append.mp ht).elim (hmade a rfl t) (hgrows.holds hts t)
    obtain ⟨hsound', hgrows', hmade'⟩ := hk a w' hsound hall
    exact ⟨hsound', hgrows.trans hgrows', hmade'⟩

theorem Keeps.mono {m : Run σ α} {made : α → List Tensor} {ts' : List Tensor}
    (h : Keeps ts m made) (hsub : ts ⊆ ts') : Keeps ts' m made :=
  fun w hw hts => h w hw fun t ht => hts t (hsub ht)

/-- What only reaches within some buffers and returns old and new tensors keeps worlds sound. -/
theorem keeps_of_reaches {m : Run σ α} {made : α → List Tensor}
    (h : ∀ w : World σ, ∃ W, w.Reaches W (m.outcome w).2 ∧ ∀ a, (m.outcome w).1 = .ok a →
      ∀ t ∈ made a, t ∈ ts ∨ w.store.IsNew (m.outcome w).2.store t) : Keeps ts m made := by
  intro w hw hts
  obtain ⟨W, hreaches, hmade⟩ := h w
  refine ⟨hreaches.sound hw, hreaches.continues, fun a ha t ht => ?_⟩
  rcases hmade a ha t ht with hold | hnew
  · exact hreaches.store.grows _ (hts t hold)
  · exact hnew.2

end Run

/-! ### Computations within a call -/

namespace Call

/-- From a sound frame and world that hold `ts`, a computation within a call leads to a sound frame and
world that hold what is made. -/
def Keeps (ts : List Tensor) (m : Call σ α) (made : α → List Tensor) : Prop :=
  ∀ (f : Frame) (w : World σ), f.Sound w.store → w.Sound → w.store.Holds ts →
    (m.eval f w).1.2.Sound (m.eval f w).2.store ∧ (m.eval f w).2.Sound ∧
      w.Continues (m.eval f w).2 ∧
      ∀ a, (m.eval f w).1.1 = .ok a → (m.eval f w).2.store.Holds (made a)

variable {ts : List Tensor}

theorem keeps_pure {made : α → List Tensor} {a : α} (h : made a ⊆ ts) :
    Keeps ts (pure a : Call σ α) made := by
  intro f w hf hw hts
  refine ⟨hf, hw, .refl w, fun b hb t ht => ?_⟩
  obtain rfl : a = b := Except.ok.inj hb
  exact hts t (h ht)

theorem keeps_lift_bind {made : β → List Tensor} {m : Except Error α} {k : α → Call σ β}
    (h : ∀ a, m = .ok a → Keeps ts (k a) made) : Keeps ts (liftM m >>= k) made := by
  cases m with
  | error e => exact fun _ w hf hw _ => ⟨hf, hw, .refl w, nofun⟩
  | ok a => exact fun f w => h a rfl f w

/-- The tensors that the frame holds are at hand once it is read. -/
theorem keeps_get_bind {made : β → List Tensor} {k : Frame → Call σ β}
    (h : ∀ f, Keeps (f.held ++ ts) (k f) made) : Keeps ts (get >>= k) made :=
  fun f w hf hw hts => h f f w hf hw fun t ht => (List.mem_append.mp ht).elim (hf t) (hts t)

theorem keeps_getWorld_bind {made : β → List Tensor} {k : World σ → Call σ β}
    (h : ∀ w, Keeps ts (k w) made) : Keeps ts (getThe (World σ) >>= k) made :=
  fun f w => h w f w

theorem Keeps.bind {m : Call σ α} {k : α → Call σ β} {made : α → List Tensor}
    {made' : β → List Tensor} (hm : Keeps ts m made)
    (hk : ∀ a, Keeps (made a ++ ts) (k a) made') : Keeps ts (m >>= k) made' := by
  intro f w hf hw hts
  obtain ⟨hframe, hsound, hgrows, hmade⟩ := hm f w hf hw hts
  rw [eval_bind]
  rcases heval : m.eval f w with ⟨⟨error | a, f'⟩, w'⟩
  · rw [heval] at hframe hsound hgrows
    exact ⟨hframe, hsound, hgrows, nofun⟩
  · rw [heval] at hframe hsound hgrows hmade
    have hall : w'.store.Holds (made a ++ ts) := fun t ht =>
      (List.mem_append.mp ht).elim (hmade a rfl t) (hgrows.holds hts t)
    obtain ⟨hframe', hsound', hgrows', hmade'⟩ := hk a f' w' hframe hsound hall
    exact ⟨hframe', hsound', hgrows.trans hgrows', hmade'⟩

/-- One computation after another that returns no tensors. -/
theorem Keeps.seq {m : Call σ α} {k : α → Call σ β} {made : β → List Tensor}
    (hm : Keeps ts m fun _ => []) (hk : ∀ a, Keeps ts (k a) made) : Keeps ts (m >>= k) made :=
  hm.bind hk

theorem Keeps.mono {m : Call σ α} {made : α → List Tensor} {ts' : List Tensor}
    (h : Keeps ts m made) (hsub : ts ⊆ ts') : Keeps ts' m made :=
  fun f w hf hw hts => h f w hf hw fun t ht => hts t (hsub ht)

theorem keeps_ofRun {m : Run σ α} {made : α → List Tensor} (h : Run.Keeps ts m made) :
    Keeps ts (ofRun m) made := by
  intro f w hf hw hts
  obtain ⟨hsound, hgrows, hmade⟩ := h w hw hts
  exact ⟨hgrows.holds hf, hsound, hgrows, hmade⟩

/-- The outcome of a computation that starts with a frame whose tensors are at hand. -/
theorem Keeps.outcome {m : Call σ α} {made : α → List Tensor} (h : Keeps ts m made) {f : Frame}
    (hf : f.held ⊆ ts) : Run.Keeps ts (m.outcome f) fun p => p.2.held := by
  intro w hw hts
  obtain ⟨hframe, hsound, hgrows, _⟩ := h f w (fun t ht => hts t (hf ht)) hw hts
  refine ⟨hsound, hgrows, fun p hp => ?_⟩
  obtain rfl := Except.ok.inj hp
  exact hframe

/-- A change of the frame that brings in none but the given tensors. -/
theorem keeps_modify {g : Frame → Frame} (h : ∀ f, (g f).held ⊆ ts ++ f.held) :
    Keeps ts (modify g : Call σ Unit) fun _ => [] := by
  intro f w hf hw hts
  refine ⟨fun t ht => ?_, hw, .refl w, fun _ _ _ ht => nomatch ht⟩
  rcases List.mem_append.mp (h f ht) with ht | ht
  · exact hts t ht
  · exact hf t ht

theorem keeps_mapM {ι : Type} {k : ι → Call σ Tensor} (h : ∀ i, Keeps ts (k i) fun t => [t])
    (is : List ι) : Keeps ts (is.mapM k) fun made => made := by
  induction is generalizing ts with
  | nil => exact keeps_pure (List.nil_subset _)
  | cons i is ih =>
      rw [List.mapM_cons]
      refine (h i).bind fun t => Keeps.bind (ih fun j => (h j).mono (List.subset_append_right _ _))
        fun made => keeps_pure ?_
      intro u hu
      rcases List.mem_cons.mp hu with rfl | hu
      · exact List.mem_append_right _ (List.mem_append_left _ (List.mem_singleton_self u))
      · exact List.mem_append_left _ hu

theorem keeps_forM {ι : Type} {k : ι → Call σ Unit} {is : List ι}
    (h : ∀ i ∈ is, Keeps ts (k i) fun _ => []) : Keeps ts (is.forM k) fun _ => [] := by
  induction is with
  | nil => exact keeps_pure (List.nil_subset _)
  | cons i is ih =>
      show Keeps ts (k i >>= fun _ => is.forM k) fun _ => []
      exact (h i List.mem_cons_self).bind fun _ =>
        (ih fun j hj => h j (List.mem_cons_of_mem _ hj)).mono (List.subset_append_right _ _)

end Call

/-! ### Evaluators -/

/-- An evaluator that keeps worlds sound, and makes outputs that the store holds. -/
def Evaluator.Keeps (ev : Evaluator σ) : Prop :=
  ∀ operation outputs inputs c, Run.Keeps (outputs ++ inputs)
    (ev.evaluate operation outputs inputs c) fun made => made

theorem Evaluator.Keeps.apply {ev : Evaluator σ} (h : ev.Keeps) (operation : Operation)
    (outputs inputs : List Tensor) (c : Context) :
    Run.Keeps (outputs ++ inputs) (ev.apply operation outputs inputs c) fun made => made := by
  refine (h operation outputs inputs c).bind fun produced => Run.keeps_pure fun t ht => ?_
  rcases List.mem_append.mp ht with ht | ht
  · exact List.mem_append_left _ (List.mem_of_mem_take ht)
  · exact List.mem_append_right _ (List.mem_append_left _ (List.mem_of_mem_drop ht))

theorem ReferenceOp.keeps_evaluator [HalfConversion] (op : ReferenceOp) : (op.evaluator : Evaluator σ).Keeps := by
  intro operation outputs inputs c
  refine Run.keeps_of_reaches fun w => ?_
  obtain ⟨hreaches, hmade⟩ := op.contained_evaluate operation outputs inputs c w
  refine ⟨_, hreaches, fun made hok t ht => ?_⟩
  rcases hmade made hok t ht with hold | hnew
  · exact .inl (List.mem_append_left _ hold)
  · exact .inr hnew

/-! ### Executing a graph -/

namespace Bindings

theorem mem_tensors {b : Bindings} {t : Tensor} : t ∈ b.tensors ↔ some t ∈ b := by
  simp [tensors]

theorem mem_tensors_of_get {b : Bindings} {h : Handle} {t : Tensor} (hget : b.get h = .ok t) :
    t ∈ b.tensors := by
  unfold get get? at hget
  rw [mem_tensors]
  cases hb : b[h]? with
  | none => simp [hb] at hget
  | some entry =>
      cases entry with
      | none => simp [hb] at hget
      | some u =>
          obtain rfl : u = t := by simpa [hb] using hget
          exact List.mem_of_getElem? hb

theorem tensors_bind_subset (b : Bindings) (h : Handle) (t : Tensor) :
    (b.bind h t).tensors ⊆ t :: b.tensors := by
  intro u hu
  rcases List.mem_or_eq_of_mem_set (mem_tensors.mp hu) with hu | hu
  · exact List.mem_cons_of_mem _ (mem_tensors.mpr hu)
  · exact List.mem_cons.mpr (.inl (Option.some.inj hu))

end Bindings

namespace Executor

variable {e : Executor σ} {ts : List Tensor}

theorem keeps_takeRequest (e : Executor σ) :
    Run.Keeps ts (Run.takeCancel e.cancel : Run σ Bool) fun _ => [] := fun w hw _ =>
  ⟨hw.congr rfl rfl fun _ _ h => h, w.continues_takenRequest e.cancel, fun _ _ _ ht => nomatch ht⟩

theorem keeps_takeCancel (e : Executor σ) : Call.Keeps ts e.takeCancel fun _ => [] :=
  Call.keeps_ofRun (keeps_takeRequest e)

theorem keeps_bound (h : Handle) : Call.Keeps ts (bound h : Call σ Tensor) fun t => [t] := by
  intro f w hf hw _
  refine ⟨hf, hw, .refl w, fun t ht u hu => ?_⟩
  obtain rfl := List.mem_singleton.mp hu
  exact hf u (List.mem_append_left _ (List.mem_append_left _ (Bindings.mem_tensors_of_get ht)))

theorem fresh_spec (desc : TensorDesc) (s : Store) :
    s.Within (fun _ => False) (fresh desc s).2 ∧ s.IsNew (fresh desc s).2 (fresh desc s).1 ∧
      (fresh desc s).1.dtype = desc.dtype := by
  unfold fresh
  cases desc.shape.toShape? with
  | some shape =>
      exact ⟨Tensor.within_zeros _ desc.dtype shape s, Tensor.isNew_zeros desc.dtype shape s, rfl⟩
  | none => exact ⟨Store.within_alloc _ s #[], Store.isNew_alloc s #[] desc.dtype none, rfl⟩

/-- An output is the tensor kept for its handle, if that may be handed out, and a new one otherwise. -/
theorem eval_allocate (c : Context) (outputs : List Tensor) {h : Handle} {desc : TensorDesc}
    (hdesc : e.graph.tensors[h]? = some desc) (f : Frame) (w : World σ) :
    (e.allocate c outputs h).eval f w
      = let f' := { f with kept := f.kept.set h none }
        match ((f.kept[h]?).join).filter fun t =>
            fits desc t && w.isExclusive (outputs ++ f'.held ++ c.held) t.buffer with
        | some t => ((.ok (outputs ++ [t]), f'), w)
        | none => ((.ok (outputs ++ [(fresh desc w.store).1]), f'),
            { w with store := (fresh desc w.store).2 }) := by
  unfold allocate
  simp only [hdesc, Call.eval_bind, Call.eval_get, Call.eval_set, Call.eval_getWorld]
  generalize Option.filter (fun t => fits desc t && w.isExclusive (outputs
    ++ Frame.held { f with kept := f.kept.set h none } ++ c.held) t.buffer) (f.kept[h]?).join = kept
  cases kept with
  | some t => rfl
  | none =>
      simp only [Call.eval_bind, Call.eval_ofRun, Run.outcome_onStore]
      rfl

theorem kept_subset (f : Frame) (h : Handle) :
    Frame.held { f with kept := f.kept.set h none } ⊆ f.held := by
  intro t ht
  simp only [Frame.held, List.mem_append, List.mem_filterMap, id] at ht ⊢
  rcases ht with (ht | ⟨entry, hentry, rfl⟩) | ht
  · exact .inl (.inl ht)
  · rcases List.mem_or_eq_of_mem_set hentry with hentry | hentry
    · exact .inl (.inr ⟨_, hentry, rfl⟩)
    · cases hentry
  · exact .inr ht

theorem mem_held_of_kept {f : Frame} {t : Tensor} (h : some t ∈ f.kept) : t ∈ f.held :=
  List.mem_append_left _ (List.mem_append_right _ (List.mem_filterMap.mpr ⟨some t, h, rfl⟩))

theorem dtype_of_fits {desc : TensorDesc} {t : Tensor} (h : fits desc t = true) : t.dtype = desc.dtype :=
  beq_iff_eq.mp (Bool.and_eq_true_iff.mp h).1

/-- A tensor that is given out again was kept for the handle, fits the description, and lies in a buffer in which
nothing else does that is held; otherwise a new one is made. -/
theorem allocate_cases (c : Context) (outputs : List Tensor) {h : Handle} {desc : TensorDesc}
    (hdesc : e.graph.tensors[h]? = some desc) (f : Frame) (w : World σ) :
    let f' := { f with kept := f.kept.set h none }
    (∃ t, f.kept[h]? = some (some t) ∧ fits desc t = true ∧
        (∀ u ∈ outputs ++ f'.held ++ c.held ++ w.held, u.buffer ≠ t.buffer) ∧
        (e.allocate c outputs h).eval f w = ((.ok (outputs ++ [t]), f'), w)) ∨
      (e.allocate c outputs h).eval f w
        = ((.ok (outputs ++ [(fresh desc w.store).1]), f'), { w with store := (fresh desc w.store).2 }) := by
  rw [eval_allocate c outputs hdesc]
  simp only
  split
  · rename_i t ht
    obtain ⟨hjoin, hpass⟩ := Option.filter_eq_some_iff.mp ht
    obtain ⟨hfits, hexclusive⟩ := Bool.and_eq_true_iff.mp hpass
    exact .inl ⟨t, Option.join_eq_some_iff.mp hjoin, hfits,
      fun u hu => of_decide_eq_true (List.all_eq_true.mp hexclusive u hu), rfl⟩
  · exact .inr rfl

theorem keeps_allocate (c : Context) {outputs : List Tensor} (h : Handle) (houtputs : outputs ⊆ ts) :
    Call.Keeps ts (e.allocate c outputs h) fun made => made := by
  cases hdesc : e.graph.tensors[h]? with
  | none =>
      unfold allocate
      rw [hdesc]
      exact Call.keeps_pure houtputs
  | some desc =>
      intro f w hf hw hts
      have hframe : Frame.Sound { f with kept := f.kept.set h none } w.store :=
        fun t ht => hf t (kept_subset f h ht)
      rcases allocate_cases c outputs hdesc f w with ⟨t, hkept, -, -, heval⟩ | heval
      · rw [heval]
        refine ⟨hframe, hw, .refl w, fun made hmade u hu => ?_⟩
        obtain rfl := Except.ok.inj hmade
        rcases List.mem_append.mp hu with hu | hu
        · exact hts u (houtputs hu)
        · obtain rfl := List.mem_singleton.mp hu
          exact hf u (mem_held_of_kept (List.mem_of_getElem? hkept))
      · rw [heval]
        obtain ⟨hwithin, hnew, _⟩ := fresh_spec desc w.store
        have hreaches := World.Reaches.of_store hwithin
        refine ⟨hreaches.grows.holds hframe, hreaches.sound hw, hreaches.continues, fun made hmade u hu => ?_⟩
        obtain rfl := Except.ok.inj hmade
        rcases List.mem_append.mp hu with hu | hu
        · exact hreaches.store.grows _ (hts u (houtputs hu))
        · obtain rfl := List.mem_singleton.mp hu
          exact hnew.2

theorem keeps_allocateAll (c : Context) (hs : List Handle) {outputs : List Tensor} (houtputs : outputs ⊆ ts) :
    Call.Keeps ts (hs.foldlM (e.allocate c) outputs) fun made => made := by
  induction hs generalizing outputs ts with
  | nil => exact Call.keeps_pure houtputs
  | cons h hs ih =>
      rw [List.foldlM_cons]
      exact (keeps_allocate c h houtputs).bind fun made => ih (List.subset_append_left _ _)

/-- Binding a tensor brings in no other. -/
theorem bound_subset {t : Tensor} (ht : t ∈ ts) (h : Handle) (f : Frame) :
    Frame.held { f with bindings := f.bindings.bind h t } ⊆ ts ++ f.held := by
  intro u hu
  simp only [Frame.held, List.mem_append] at hu ⊢
  rcases hu with (hu | hu) | hu
  · rcases List.mem_cons.mp (Bindings.tensors_bind_subset _ h t hu) with rfl | hu
    · exact .inl ht
    · exact .inr (.inl (.inl hu))
  · exact .inr (.inl (.inr hu))
  · exact .inr (.inr hu)

/-- Filling a slot brings in no other tensor. -/
theorem filled_subset {slot : Tensor} (hslot : slot ∈ ts) (position : Nat) (f : Frame) :
    Frame.held { f with slots := f.slots.set position slot } ⊆ ts ++ f.held := by
  intro u hu
  simp only [Frame.held, List.mem_append] at hu ⊢
  rcases hu with hu | hu
  · exact .inr (.inl hu)
  · rcases List.mem_or_eq_of_mem_set hu with hu | rfl
    · exact .inr (.inr hu)
    · exact .inl hslot

theorem keeps_bindValue {value : Tensor} (hvalue : value ∈ ts) (h : Handle) :
    Call.Keeps ts (modify fun f => { f with bindings := f.bindings.bind h value } : Call σ Unit)
      fun _ => [] :=
  Call.keeps_modify (bound_subset hvalue h)

/-- An output without a shape is refused, and so is one of another type than described; any other is bound. -/
theorem eval_bindOutput_cases (node : Node (Evaluator σ)) (h : Handle) (t : Tensor) (position : Nat) (f : Frame)
    (w : World σ) :
    (t.hasShape = false ∧ (e.bindOutput node ((h, t), position)).eval f w
        = ((.error (.unresolvedShape node.op.name position), f), w)) ∨
      (t.hasShape = true ∧ ∃ desc, e.graph.tensors[h]? = some desc ∧ t.dtype ≠ desc.dtype ∧
        (e.bindOutput node ((h, t), position)).eval f w
          = ((.error (.dtypeMismatch desc.dtype t.dtype), f), w)) ∨
      t.hasShape = true ∧ (∀ desc, e.graph.tensors[h]? = some desc → t.dtype = desc.dtype) ∧
        (e.bindOutput node ((h, t), position)).eval f w
          = ((.ok (), { f with bindings := f.bindings.bind h t }), w) := by
  unfold bindOutput
  cases hshape : t.hasShape with
  | false =>
      left
      simp only [hshape, Bool.not_false, if_true]
      exact ⟨trivial, rfl⟩
  | true =>
      right
      simp only [hshape, Bool.not_true, Bool.false_eq_true, if_false]
      cases hdesc : e.graph.tensors[h]? with
      | none => exact .inr ⟨trivial, nofun, rfl⟩
      | some desc =>
          by_cases hdtype : t.dtype = desc.dtype
          · refine .inr ⟨trivial, fun _ hsame => Option.some.inj hsame ▸ hdtype, ?_⟩
            simp only [if_neg (not_not.mpr hdtype)]
            rfl
          · refine .inl ⟨trivial, desc, rfl, hdtype, ?_⟩
            simp only [if_pos hdtype]
            rfl

theorem keeps_bindOutput (node : Node (Evaluator σ)) {entry : (Handle × Tensor) × Nat}
    (ht : entry.1.2 ∈ ts) : Call.Keeps ts (e.bindOutput node entry) fun _ => [] := by
  obtain ⟨⟨h, t⟩, position⟩ := entry
  intro f w hf hw hts
  rcases eval_bindOutput_cases (e := e) node h t position f w with ⟨-, heval⟩ | ⟨-, _, -, -, heval⟩ | ⟨-, -, heval⟩
  · rw [heval]
    exact ⟨hf, hw, .refl w, nofun⟩
  · rw [heval]
    exact ⟨hf, hw, .refl w, nofun⟩
  · rw [heval]
    exact keeps_bindValue ht h f w hf hw hts

/-- The evaluators that an executor may hand its nodes to keep worlds sound. -/
def KeepsNodes (e : Executor σ) : Prop :=
  ∀ node ∈ e.graph.nodes, ¬ node.isParameter → ¬ node.isResult →
    ∀ ev, e.evaluatorOf node = .ok ev → ev.Keeps

/-- Changing what an executor remembers, but none of its intermediates. -/
theorem keeps_modifyMemory (r : Ref Memory) {g : Memory → Memory}
    (h : ∀ m, (g m).intermediates = m.intermediates) :
    Run.Keeps ts (Run.modifyMemory r g : Run σ Unit) fun _ => [] := by
  intro w hw _
  refine ⟨hw.congr rfl rfl fun r' t ht => ?_, w.continues_putMemory r _, fun _ _ _ ht => nomatch ht⟩
  have hget : (w.memories.put r (g (w.memories.get r))).get r' = _ := Table.get_put _ r r' _
  rw [show ((Run.modifyMemory r g).outcome w).2.memories.get r' = _ from hget] at ht
  split at ht
  · rename_i hr
    rw [h, ← hr.1] at ht
    exact ht
  · exact ht

theorem keeps_record (operation : Operation) (elapsed : Nat) :
    Call.Keeps ts (Call.ofRun (Run.modifyMemory e.memory fun m =>
      { m with statistics := m.statistics.record operation elapsed }) : Call σ Unit) fun _ => [] :=
  Call.keeps_ofRun (keeps_modifyMemory e.memory fun _ => rfl)

theorem keeps_evaluateNode (hkeeps : e.KeepsNodes) (c : Context) (collect : Bool)
    {node : Node (Evaluator σ)} (hnode : node ∈ e.graph.nodes) (hparameter : ¬ node.isParameter)
    (hresult : ¬ node.isResult) : Call.Keeps ts (e.evaluateNode c collect node) fun _ => [] := by
  unfold evaluateNode
  refine (Call.keeps_mapM keeps_bound node.inputs).bind fun inputs => ?_
  refine (keeps_allocateAll c node.outputs (List.nil_subset _)).bind fun outputs => ?_
  refine Call.keeps_lift_bind fun ev hev => ?_
  have hdispatched : Call.Keeps (outputs ++ (inputs ++ ts))
      (modify fun f => { f with dispatched := node.id :: f.dispatched } : Call σ Unit) fun _ => [] :=
    Call.keeps_modify fun f t ht => List.mem_append_right _ ht
  refine hdispatched.seq fun _ => Call.keeps_get_bind fun f => Call.keeps_getWorld_bind fun w => ?_
  have happly := (hkeeps node hnode hparameter hresult ev hev).apply node.toOperation outputs inputs
    (c.holding f.held)
  have hproduced : Call.Keeps (f.held ++ (outputs ++ (inputs ++ ts)))
      (Call.ofRun (ev.apply node.toOperation outputs inputs (c.holding f.held))) fun made => made := by
    refine (Call.keeps_ofRun happly).mono fun t ht => List.mem_append_right _ ?_
    rw [← List.append_assoc]
    exact List.mem_append_left _ ht
  refine hproduced.bind fun produced => ?_
  have hbind : Call.Keeps (produced ++ (f.held ++ (outputs ++ (inputs ++ ts))))
      ((node.outputs.zip produced).zipIdx.forM (e.bindOutput node)) fun _ => [] := by
    refine Call.keeps_forM fun entry hentry => keeps_bindOutput node ?_
    exact List.mem_append_left _ (List.of_mem_zip (List.fst_mem_of_mem_zipIdx hentry)).2
  dsimp only
  split
  · refine Call.keeps_getWorld_bind fun w' => ?_
    exact (keeps_record node.toOperation (w'.clock - w.clock)).seq fun _ => hbind
  · exact hbind

theorem copyFrom_within {slot value : Tensor} {s s' : Store} (h : slot.copyFrom value s = .ok s') :
    s.Within (· = slot.buffer) s' := by
  unfold Tensor.copyFrom at h
  split at h
  · cases h
  · split at h
    · cases h
    · split at h
      · exact Except.ok.inj h ▸ .refl _ s
      · exact Except.ok.inj h ▸ Store.within_write (W := (· = slot.buffer)) s rfl _

/-- What is copied into another buffer is written there. -/
theorem eq_write_of_copyFrom {slot value : Tensor} {s s' : Store} (h : slot.copyFrom value s = .ok s')
    (hne : ¬ slot.SharesBuffer value) : s' = s.write slot.buffer (value.bytes s) := by
  unfold Tensor.copyFrom at h
  split at h
  · cases h
  · split at h
    · cases h
    · exact (Except.ok.inj h).symm

/-- A slot that has no shape, or another shape or type than a value, becomes an alias of it; any other takes a copy
of its elements.  Neither ever fails. -/
theorem deliver_cases (slot value : Tensor) (w : World σ) :
    ((slot.shape.isNone = true ∨ slot.shape ≠ value.shape ∨ slot.dtype ≠ value.dtype) ∧
        (deliver slot value : Run σ Tensor).outcome w = (.ok value, w)) ∨
      ¬ slot.shape.isNone = true ∧ slot.shape = value.shape ∧ slot.dtype = value.dtype ∧
        ∃ s, slot.copyFrom value w.store = .ok s ∧
          (deliver slot value : Run σ Tensor).outcome w = (.ok slot, { w with store := s }) := by
  unfold deliver
  split
  · rename_i hdiffers
    exact .inl ⟨hdiffers, rfl⟩
  · rename_i hsame
    simp only [not_or, not_not] at hsame
    obtain ⟨hknown, hshape, hdtype⟩ := hsame
    obtain ⟨s, hcopy⟩ : ∃ s, slot.copyFrom value w.store = .ok s := by
      unfold Tensor.copyFrom
      rw [if_neg (not_not.mpr hdtype.symm), if_neg (not_not.mpr hshape.symm)]
      split
      · exact ⟨_, rfl⟩
      · exact ⟨_, rfl⟩
    refine .inr ⟨hknown, hshape, hdtype, s, hcopy, ?_⟩
    rw [Run.outcome_bind, Run.outcome_tryStore, hcopy]
    rfl

theorem keeps_deliver {slot value : Tensor} (hslot : slot ∈ ts) (hvalue : value ∈ ts) :
    Run.Keeps ts (deliver slot value : Run σ Tensor) fun t => [t] := by
  refine Run.keeps_of_reaches fun w => ?_
  rcases deliver_cases slot value w with ⟨-, houtcome⟩ | ⟨-, -, -, s, hcopy, houtcome⟩
  · rw [houtcome]
    refine ⟨(· = slot.buffer), .refl _ w, fun t ht u hu => .inl ?_⟩
    obtain rfl := Except.ok.inj ht
    exact List.mem_singleton.mp hu ▸ hvalue
  · rw [houtcome]
    refine ⟨_, .of_store (copyFrom_within hcopy), fun t ht u hu => .inl ?_⟩
    obtain rfl := Except.ok.inj ht
    exact List.mem_singleton.mp hu ▸ hslot

theorem keeps_fillSlot {slot : Tensor} (hslot : slot ∈ ts) (position : Nat) :
    Call.Keeps ts (modify fun f => { f with slots := f.slots.set position slot } : Call σ Unit)
      fun _ => [] :=
  Call.keeps_modify (filled_subset hslot position)

theorem keeps_deliverNode (node : Node (Evaluator σ)) :
    Call.Keeps ts (e.deliverNode node) fun _ => [] := by
  unfold deliverNode
  refine (Call.keeps_mapM keeps_bound node.inputs).bind fun inputs => ?_
  cases inputs with
  | nil => exact Call.keeps_pure (List.nil_subset _)
  | cons value rest =>
      have hvalue : value ∈ value :: rest ++ ts := List.mem_append_left _ List.mem_cons_self
      have hbind : Call.Keeps (value :: rest ++ ts) (node.outputs.forM fun h =>
          (modify fun f => { f with bindings := f.bindings.bind h value } : Call σ Unit))
          fun _ => [] :=
        Call.keeps_forM fun h _ => keeps_bindValue hvalue h
      dsimp only
      split
      · exact hbind
      · rename_i position _
        refine Call.keeps_get_bind fun f => ?_
        split
        · exact hbind.mono (List.subset_append_right _ _)
        · rename_i slot hslot
          have hslot : slot ∈ f.held ++ (value :: rest ++ ts) :=
            List.mem_append_left _ (List.mem_append_right _ (List.mem_of_getElem? hslot))
          refine (Call.keeps_ofRun (keeps_deliver hslot (List.mem_append_right _ hvalue))).bind fun slot' => ?_
          refine (keeps_fillSlot (List.mem_append_left _ (List.mem_singleton_self slot')) position).seq
            fun _ => ?_
          exact (hbind.mono (List.subset_append_right _ _)).mono (List.subset_append_right _ _)

theorem keeps_runNodes (hkeeps : e.KeepsNodes) (c : Context) (collect : Bool)
    {nodes : List (Node (Evaluator σ))} (hnodes : nodes ⊆ e.graph.nodes) :
    Call.Keeps ts (e.runNodes c collect nodes) fun _ => [] := by
  induction nodes generalizing ts with
  | nil => exact Call.keeps_pure (List.nil_subset _)
  | cons node rest ih =>
      have hrest : rest ⊆ e.graph.nodes := fun n hn => hnodes (List.mem_cons_of_mem _ hn)
      have hnode : node ∈ e.graph.nodes := hnodes List.mem_cons_self
      unfold runNodes
      refine (keeps_takeCancel e).seq fun cancelled => ?_
      split
      · exact Call.keeps_pure (List.nil_subset _)
      · split
        · exact ih hrest
        · split
          · exact (keeps_deliverNode node).seq fun _ => ih hrest
          · rename_i hparameter hresult
            refine (keeps_evaluateNode hkeeps c collect hnode hparameter hresult).seq fun _ => ?_
            refine (keeps_takeCancel e).seq fun cancelled => ?_
            split
            · exact Call.keeps_pure (List.nil_subset _)
            · exact ih hrest

/-! ### Whole calls -/

/-- Zeros of a type and a shape are those from which the variable of some operation starts. -/
def StartsFrom (g : Graph (Evaluator σ)) (inputs : List Tensor) (dtype : DType) (shape : Shape) : Prop :=
  ∃ first desc, initialDesc g inputs first = some desc ∧ desc.dtype = dtype ∧ desc.shape.toShape? = some shape

/-- A node gives zeros to its variable, or does nothing. -/
theorem initVariable_cases (g : Graph (Evaluator σ)) (r : Ref Variables) (inputs : List Tensor)
    (node : Node (Evaluator σ)) (w : World σ) :
    (initVariable g r inputs node).outcome w = (.ok (), w) ∨ ∃ id dtype shape,
      StartsFrom g inputs dtype shape ∧ (initVariable g r inputs node).outcome w
        = (.ok (), (w.valueOrInit r id (Tensor.zeros dtype shape)).2) := by
  unfold initVariable
  split
  · rename_i id first rest _ _
    split
    · rename_i desc hdesc
      split
      · rename_i shape hshape
        refine .inr ⟨id, desc.dtype, shape, ⟨first, desc, hdesc, rfl, hshape⟩, ?_⟩
        rw [Run.outcome_discard, Stateful.outcome_valueOrInit]
        rfl
      · exact .inl rfl
    · exact .inl rfl
  · exact .inl rfl

/-- Giving zeros to variables never fails, and keeps what giving zeros to one variable keeps. -/
theorem initVariables_induction {P : World σ → Prop} {r : Ref Variables} (g : Graph (Evaluator σ))
    (inputs : List Tensor) (hvalue : ∀ w id dtype shape, StartsFrom g inputs dtype shape → P w →
      P (w.valueOrInit r id (Tensor.zeros dtype shape)).2) {w : World σ} (hw : P w) :
    ∃ w', (initVariables g r inputs).outcome w = (.ok (), w') ∧ P w' := by
  unfold initVariables
  generalize g.nodes = nodes
  induction nodes generalizing w with
  | nil => exact ⟨w, rfl, hw⟩
  | cons node nodes ih =>
      rcases initVariable_cases g r inputs node w with hnode | ⟨id, dtype, shape, hstarts, hnode⟩
      · obtain ⟨w', houtcome, hkept⟩ := ih hw
        exact ⟨w', (Run.outcome_bind_ok hnode _).trans houtcome, hkept⟩
      · obtain ⟨w', houtcome, hkept⟩ := ih (hvalue w id dtype shape hstarts hw)
        exact ⟨w', (Run.outcome_bind_ok hnode _).trans houtcome, hkept⟩

/-- Giving zeros to variables changes no buffer that there was. -/
theorem exists_reaches_initVariables (g : Graph (Evaluator σ)) (r : Ref Variables)
    (inputs : List Tensor) (w : World σ) : ∃ w', (initVariables g r inputs).outcome w = (.ok (), w') ∧
      w.Reaches (fun _ => False) w' :=
  initVariables_induction g inputs (fun _ id dtype shape _ h => h.valueOrInit r id dtype shape) (.refl _ w)

theorem keeps_initVariables (g : Graph (Evaluator σ)) (r : Ref Variables) (inputs : List Tensor) :
    Run.Keeps ts (initVariables g r inputs) fun _ => [] := by
  refine Run.keeps_of_reaches fun w => ⟨fun _ => False, ?_, fun _ _ _ ht => nomatch ht⟩
  obtain ⟨w', houtcome, hreaches⟩ := exists_reaches_initVariables g r inputs w
  rw [houtcome]
  exact hreaches

theorem tensors_foldl_bind_subset (pairs : List (Handle × Tensor)) (b : Bindings) :
    (pairs.foldl (fun b (h, t) => b.bind h t) b).tensors ⊆ pairs.map (·.2) ++ b.tensors := by
  induction pairs generalizing b with
  | nil => exact List.Subset.refl _
  | cons p pairs ih =>
      intro t ht
      rcases List.mem_append.mp (ih _ ht) with ht | ht
      · exact List.mem_append_left _ (List.mem_cons_of_mem _ ht)
      · rcases List.mem_cons.mp (Bindings.tensors_bind_subset b p.1 p.2 ht) with rfl | ht
        · exact List.mem_append_left _ List.mem_cons_self
        · exact List.mem_append_right _ ht

theorem tensors_bindInputs_subset (g : Graph (Evaluator σ)) (inputs : List Tensor) :
    (bindInputs g inputs).tensors ⊆ inputs := by
  intro t ht
  rcases List.mem_append.mp (tensors_foldl_bind_subset _ _ ht) with ht | ht
  · obtain ⟨p, hp, rfl⟩ := List.mem_map.mp ht
    exact (List.of_mem_zip hp).2
  · simp [Bindings.tensors, Bindings.empty] at ht

theorem mem_fitLength {entries : List (Option Tensor)} {length : Nat} {t : Tensor}
    (h : some t ∈ fitLength entries length) : some t ∈ entries := by
  rcases List.mem_append.mp h with h | h
  · exact List.mem_of_mem_take h
  · cases (List.mem_replicate.mp h).2

/-- The frame with which a call starts. -/
def openedFrame (e : Executor σ) (slots inputs : List Tensor) (w : World σ) : Frame :=
  ⟨bindInputs e.graph inputs,
    fitLength (if e.config.reuseIntermediates then (w.memories.get e.memory).intermediates else [])
      e.graph.tensors.length, slots, []⟩

/-- The world in which it starts: what the executor takes out of its memory is no longer there. -/
def openedWorld (e : Executor σ) (w : World σ) : World σ :=
  if e.config.reuseIntermediates then
    w.putMemory e.memory { w.memories.get e.memory with intermediates := [] }
  else w

theorem outcome_openFrame (slots inputs : List Tensor) (w : World σ) :
    (e.openFrame slots inputs).outcome w = (.ok (e.openedFrame slots inputs w), e.openedWorld w) := by
  unfold openFrame openedFrame openedWorld
  by_cases hreuse : e.config.reuseIntermediates
  · simp only [hreuse, if_true]
    rfl
  · simp only [hreuse]
    rfl

theorem get_putMemory (w : World σ) (r r' : Ref Memory) (m : Memory) :
    (w.putMemory r m).memories.get r'
      = if r' = r ∧ w.memories.Has r then m else w.memories.get r' :=
  Table.get_put _ r r' m

theorem sound_openedWorld {w : World σ} (hw : w.Sound) : (e.openedWorld w).Sound := by
  unfold openedWorld
  split
  · refine hw.congr rfl rfl fun r t ht => ?_
    rw [get_putMemory] at ht
    split at ht
    · cases ht
    · exact ht
  · exact hw

theorem store_openedWorld (w : World σ) : (e.openedWorld w).store = w.store := by
  unfold openedWorld
  split <;> rfl

theorem variables_openedWorld (w : World σ) : (e.openedWorld w).variables = w.variables := by
  unfold openedWorld
  split <;> rfl

theorem continues_openedWorld (w : World σ) : w.Continues (e.openedWorld w) := by
  unfold openedWorld
  split
  · exact w.continues_putMemory _ _
  · exact .refl w

theorem sound_openedFrame {w : World σ} (hw : w.Sound) {slots inputs : List Tensor}
    (hslots : w.store.Holds slots) (hinputs : w.store.Holds inputs) :
    (e.openedFrame slots inputs w).Sound w.store := by
  intro t ht
  simp only [openedFrame, Frame.held, List.mem_append, List.mem_filterMap, id] at ht
  rcases ht with (ht | ⟨_, hkept, rfl⟩) | ht
  · exact hinputs t (tensors_bindInputs_subset e.graph inputs ht)
  · have hmem := mem_fitLength hkept
    split at hmem
    · exact hw.memories _ t hmem
    · cases hmem
  · exact hslots t ht

/-- What is remembered of a call is what was still kept, or what was bound. -/
theorem kept_or_bound_of_remembered {g : Graph (Evaluator σ)} {f : Frame} {t : Tensor}
    (h : some t ∈ remembered g f) : some t ∈ f.kept ∨ t ∈ f.bindings.tensors := by
  obtain ⟨i, hi, heq⟩ := List.mem_mapIdx.mp h
  have hpair := List.of_mem_zip (List.getElem_mem hi)
  simp only at heq
  split at heq
  · cases heq
  · split at heq
    · exact .inl (heq ▸ hpair.1)
    · cases hbound : (f.kept.zip f.bindings)[i].2 with
      | none =>
          rw [hbound] at heq
          exact .inl (heq ▸ hpair.1)
      | some u =>
          rw [hbound] at heq
          obtain rfl : u = t := Option.some.inj heq
          exact .inr (Bindings.mem_tensors.mpr (hbound ▸ hpair.2))

theorem mem_remembered {g : Graph (Evaluator σ)} {f : Frame} {t : Tensor}
    (h : some t ∈ remembered g f) : t ∈ f.held := by
  rcases kept_or_bound_of_remembered h with hkept | hbound
  · exact List.mem_append_left _ (List.mem_append_right _ (List.mem_filterMap.mpr ⟨some t, hkept, rfl⟩))
  · exact List.mem_append_left _ (List.mem_append_left _ hbound)

theorem keeps_closeFrame (f : Frame) :
    Run.Keeps f.held (e.closeFrame f : Run σ Unit) fun _ => [] := by
  intro w hw hf
  unfold closeFrame
  split
  · refine ⟨?_, w.continues_putMemory e.memory _, fun _ _ _ ht => nomatch ht⟩
    refine ⟨hw.values, fun r t ht => ?_⟩
    rw [show ((Run.modifyMemory e.memory _).outcome w).2.memories.get r = _ from get_putMemory _ _ _ _]
      at ht
    split at ht
    · exact hf t (mem_remembered ht)
    · exact hw.memories r t ht
  · exact ⟨hw, .refl w, fun _ _ _ ht => nomatch ht⟩

theorem keeps_openFrame {slots inputs : List Tensor} (hslots : slots ⊆ ts) (hinputs : inputs ⊆ ts) :
    Run.Keeps ts (e.openFrame slots inputs) Frame.held := by
  intro w hw hts
  rw [outcome_openFrame]
  refine ⟨sound_openedWorld hw, continues_openedWorld w, fun f hf => ?_⟩
  obtain rfl := Except.ok.inj hf
  rw [store_openedWorld]
  exact sound_openedFrame hw (fun t ht => hts t (hslots ht)) fun t ht => hts t (hinputs ht)

/-- A call that walks over the given nodes only: those that come before a request to cancel. -/
def executeNodes (e : Executor σ) (nodes : List (Node (Evaluator σ))) (slots inputs : List Tensor)
    (c : Context) (collect : Bool) : Run σ (Status × List Tensor) := do
  if ← Run.takeCancel e.cancel then
    return (.cancelled, slots)
  checkOperands e.graph slots inputs
  let c := e.contextFor c
  initVariables e.graph (c.variables.getD e.variables) inputs
  let frame ← e.openFrame slots inputs
  let (outcome, frame) ← (e.runNodes c collect nodes).outcome frame
  e.closeFrame frame
  match outcome with
  | .ok status => return (status, frame.slots)
  | .error error => throw error

theorem execute_eq (slots inputs : List Tensor) (c : Context) (collect : Bool) :
    e.execute slots inputs c collect = e.executeNodes e.graph.nodes slots inputs c collect := rfl

theorem keeps_executeNodes (hkeeps : e.KeepsNodes) {nodes : List (Node (Evaluator σ))}
    (hnodes : nodes ⊆ e.graph.nodes) {slots inputs : List Tensor} (hslots : slots ⊆ ts)
    (hinputs : inputs ⊆ ts) (c : Context) (collect : Bool) :
    Run.Keeps ts (e.executeNodes nodes slots inputs c collect) (·.2) := by
  unfold executeNodes
  refine (keeps_takeRequest e).bind fun cancelled => ?_
  split
  · exact Run.keeps_pure hslots
  · refine Run.keeps_lift_bind fun _ _ => ?_
    refine (keeps_initVariables e.graph _ inputs).bind fun _ => ?_
    refine (keeps_openFrame hslots hinputs).bind fun frame => ?_
    have hrun : Run.Keeps (frame.held ++ ts) ((e.runNodes (e.contextFor c) collect nodes).outcome frame)
        fun p => p.2.held :=
      (keeps_runNodes hkeeps (e.contextFor c) collect hnodes).outcome (List.subset_append_left frame.held ts)
    refine hrun.bind fun p => ?_
    obtain ⟨outcome, frame'⟩ := p
    refine ((keeps_closeFrame frame').mono (List.subset_append_left _ _)).bind fun _ => ?_
    cases outcome with
    | error error => exact Run.keeps_throw error
    | ok status =>
        exact Run.keeps_pure fun t ht =>
          List.mem_append_right _ (List.mem_append_left _ (List.mem_append_right _ ht))

/-! ### Histories -/

/-- What may happen to the world apart from the calls of an executor: the caller makes tensors, writes
into them and drops them, and other executors are called. -/
structure Elsewhere (e : Executor σ) (w w' : World σ) : Prop where
  sound : w'.Sound
  grows : w.Grows w'
  memory : (w'.memories.get e.memory).intermediates = (w.memories.get e.memory).intermediates

/-- Making a tensor, or writing into one. -/
theorem elsewhere_of_store {w : World σ} (hw : w.Sound) {W : BufferId → Prop} {s : Store}
    (hs : w.store.Within W s) : e.Elsewhere w { w with store := s } :=
  ⟨(World.Reaches.of_store hs).sound hw, (World.Reaches.of_store hs).grows, rfl⟩

theorem elsewhere_alloc {w : World σ} (hw : w.Sound) (content : Bytes) :
    e.Elsewhere w { w with store := (w.store.alloc content).2 } :=
  elsewhere_of_store hw (Store.within_alloc (fun _ => False) w.store content)

theorem elsewhere_write {w : World σ} (hw : w.Sound) (b : BufferId) (content : Bytes) :
    e.Elsewhere w { w with store := w.store.write b content } :=
  elsewhere_of_store hw (Store.within_write (W := (· = b)) w.store rfl content)

/-- The worlds to which an executor comes: it is created, it is called, where a call may complete, fail,
or be cancelled before any of its nodes, its state is reset, it is asked to cancel, and whatever else
happens in between. -/
inductive Reached (e : Executor σ) : World σ → Prop
  | created {w w' : World σ} (hw : w.Sound)
      (hcreate : create e.graph e.registry e.config w = (e, w')) : e.Reached w'
  | called {w : World σ} (h : e.Reached w) (count : Nat) {slots inputs : List Tensor}
      (hslots : w.store.Holds slots) (hinputs : w.store.Holds inputs) (c : Context)
      (collect : Bool) : e.Reached
        ((e.executeNodes (e.graph.nodes.take count) slots inputs c collect).outcome w).2
  | reset {w : World σ} (h : e.Reached w) : e.Reached (e.resetState w)
  | requested {w : World σ} (h : e.Reached w) : e.Reached (w.requestCancel e.cancel)
  | elsewhere {w w' : World σ} (h : e.Reached w) (hw : e.Elsewhere w w') : e.Reached w'

theorem grows_resetState (e : Executor σ) (w : World σ) : w.Grows (e.resetState w) :=
  ⟨fun _ h => h, fun r h => (Table.has_put _ e.variables r .empty).mpr h⟩

theorem sound_resetState {w : World σ} (hw : w.Sound) : (e.resetState w).Sound := by
  refine ⟨fun r id t ht => ?_, hw.memories⟩
  have hget : (e.resetState w).variables.get r
      = if r = e.variables ∧ w.variables.Has e.variables then .empty else w.variables.get r :=
    Table.get_put _ e.variables r .empty
  rw [hget] at ht
  split at ht
  · cases ht
  · exact hw.values r id t ht

theorem sound_create {w w' : World σ} (hw : w.Sound)
    (hcreate : create e.graph e.registry e.config w = (e, w')) :
    w'.Sound ∧ w'.variables.Has e.variables := by
  obtain ⟨hexecutor, rfl⟩ := Prod.mk.inj hcreate
  have hvariables : e.variables = (w.variables.add .empty).1 := congrArg Executor.variables hexecutor.symm
  refine ⟨⟨fun r id t ht => ?_, fun r t ht => ?_⟩, ?_⟩
  · change ((w.variables.add .empty).2.get r).get? id = some t at ht
    rw [Table.get_added] at ht
    split at ht
    · cases ht
    · exact hw.values r id t ht
  · change some t ∈ ((w.memories.add .empty).2.get r).intermediates at ht
    rw [Table.get_added] at ht
    split at ht
    · cases ht
    · exact hw.memories r t ht
  · exact (Table.has_add w.variables .empty e.variables).mpr (.inr hvariables)

/-- A world that an executor comes to is sound, and the executor's variables are still there. -/
theorem Reached.sound (hkeeps : e.KeepsNodes) {w : World σ} (h : e.Reached w) :
    w.Sound ∧ w.variables.Has e.variables := by
  induction h with
  | created hw hcreate => exact sound_create hw hcreate
  | @called w _ count slots inputs hslots hinputs c collect ih =>
      have hholds : w.store.Holds (slots ++ inputs) := fun t ht =>
        (List.mem_append.mp ht).elim (hslots t) (hinputs t)
      have hkept := keeps_executeNodes hkeeps (List.take_subset count e.graph.nodes)
        (List.subset_append_left slots inputs) (List.subset_append_right slots inputs) c collect w
        ih.1 hholds
      exact ⟨hkept.1, hkept.2.1.has _ ih.2⟩
  | @reset w _ ih => exact ⟨sound_resetState ih.1, (grows_resetState e w).has _ ih.2⟩
  | requested _ ih => exact ⟨ih.1.congr rfl rfl fun _ _ h => h, ih.2⟩
  | elsewhere _ hw ih => exact ⟨hw.sound, hw.grows.has _ ih.2⟩

end Executor

end TensorGraph
