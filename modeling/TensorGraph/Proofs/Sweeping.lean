import TensorGraph.Kernel.Sweep

/-! # Sweeps along interleavings

A sweep changes the world only through calls of its kernel, so that the calls along an interleaving
(`Sweep.calls`) say what it does: the world after it is the world after these calls, one after the
other (`world_run`).  If the kernel never fails, each task calls for its pending indices in order
(`indicesOf_calls`), whatever the other tasks do in between.

Each turn brings a task closer to its end (`left_step`).  An interleaving in which every task has
enough turns is therefore followed to the end of all tasks (`isDone_of_complete`); the tasks one after
the other are such an interleaving (`complete_inOrder`). -/

namespace TensorGraph

variable {σ : Type}

/-- A call that a task makes of the kernel: for which index, with which invocation, and how it ends. -/
structure KernelCall where
  task : Nat
  index : Index
  invocation : Invocation
  outcome : Except String Unit

/-- The indices for which one task calls the kernel, in the order of its calls. -/
def KernelCall.indicesOf (calls : List KernelCall) (task : Nat) : List Index :=
  (calls.filter (·.task = task)).map KernelCall.index

namespace Kernel

/-- No call of the kernel fails. -/
def NeverFails (kernel : Kernel σ) : Prop := ∀ invocation w, (kernel.call invocation w).1 = .ok ()

/-- The world after some calls, one after the other. -/
def after (kernel : Kernel σ) (calls : List KernelCall) (w : World σ) : World σ :=
  calls.foldl (fun w c => (kernel.call c.invocation w).2) w

theorem call_eq {kernel : Kernel σ} (h : kernel.NeverFails) (invocation : Invocation) (w : World σ) :
    kernel.call invocation w = (.ok (), (kernel.call invocation w).2) :=
  Prod.ext (h invocation w) rfl

end Kernel

/-! ### Turns -/

namespace Task

/-- How many turns a task still takes at most. -/
def left (t : Task) : Nat :=
  match t.phase, t.pending with
  | .looking, [] => 0
  | .looking, pending => 2 * pending.length + 2
  | .calling, pending => 2 * pending.length + 1
  | .failing _, _ => 2
  | .aborting, _ => 1

theorem left_ready_le (pending : List Index) (scratch : Option Region) :
    (ready pending scratch).left ≤ (ready pending scratch).turns := by
  cases pending <;> simp [ready, left, turns]

/-- A task with no turns left has ended. -/
theorem isDone_of_left {t : Task} (h : t.left = 0) : t.isDone = true := by
  obtain ⟨pending, scratch, phase⟩ := t
  cases phase <;> cases pending <;> simp_all [left, isDone]

theorem pending_of_isDone {t : Task} (h : t.isDone = true) : t.pending = [] := by
  simp only [isDone, Bool.and_eq_true, List.isEmpty_iff] at h
  exact h.1

end Task

namespace Sweep

variable {kernel : Kernel σ} {invoke : Option Region → Index → Invocation}

/-- An interleaving in which each task has at least as many turns as it may take; a turn that comes when
the task has ended is ignored. -/
def Complete (tasks : List Task) (interleaving : List Nat) : Prop :=
  ∀ n t, tasks[n]? = some t → t.turns ≤ interleaving.count n

theorem step_of_none {s : Sweep σ} {turn : Nat} (h : s.tasks[turn]? = none) :
    s.step kernel invoke turn = s := by
  unfold step
  rw [h]

/-- A turn changes one task, which gets nothing new to do, and brings it closer to its end. -/
theorem tasks_step {s : Sweep σ} {turn : Nat} {t : Task} (h : s.tasks[turn]? = some t) :
    ∃ t', (s.step kernel invoke turn).tasks = s.tasks.set turn t' ∧ t'.scratch = t.scratch ∧
      t'.pending ⊆ t.pending ∧ t'.left ≤ t.left - 1 := by
  obtain ⟨pending, scratch, phase⟩ := t
  unfold step
  rw [h]
  cases phase with
  | looking =>
      cases pending with
      | nil =>
          obtain ⟨hlt, hget⟩ := List.getElem?_eq_some_iff.mp h
          exact ⟨_, (List.set_getElem_self hlt).symm, by rw [hget], by simp [hget],
            by simp [hget, Task.left]⟩
      | cons index rest =>
          simp only
          split
          · exact ⟨_, rfl, rfl, List.nil_subset _, by simp [Task.left]⟩
          · exact ⟨_, rfl, rfl, List.Subset.refl _, by simp [Task.left]⟩
  | calling =>
      cases pending with
      | nil => exact ⟨_, rfl, rfl, List.Subset.refl _, by simp [Task.left]⟩
      | cons index rest =>
          simp only
          split
          · refine ⟨_, rfl, rfl, List.subset_cons_self _ _, ?_⟩
            cases rest with
            | nil => simp [Task.left]
            | cons index rest =>
                simp only [Task.left, List.length_cons]
                omega
          · refine ⟨_, rfl, rfl, List.Subset.refl _, ?_⟩
            simp only [Task.left, List.length_cons]
            omega
  | failing reason => exact ⟨_, rfl, rfl, List.Subset.refl _, by simp [Task.left]⟩
  | aborting => exact ⟨_, rfl, rfl, List.nil_subset _, by simp [Task.left]⟩

/-- A turn leaves the other tasks as they are. -/
theorem left_step (s : Sweep σ) (turn : Nat) {n : Nat} {t : Task} (h : s.tasks[n]? = some t) :
    ∃ t', (s.step kernel invoke turn).tasks[n]? = some t' ∧
      t'.left ≤ t.left - if turn = n then 1 else 0 := by
  by_cases hturn : turn = n
  · subst hturn
    obtain ⟨t', htasks, _, _, hle⟩ := tasks_step h
    refine ⟨t', ?_, by rwa [if_pos rfl]⟩
    rw [htasks]
    exact List.getElem?_set_self (List.getElem?_eq_some_iff.mp h).1
  · refine ⟨t, ?_, by rw [if_neg hturn]; exact Nat.le_refl _⟩
    cases hget : s.tasks[turn]? with
    | none => rw [step_of_none hget, h]
    | some u =>
        obtain ⟨u', htasks, _⟩ := tasks_step hget
        rw [htasks, List.getElem?_set_ne hturn, h]

/-- A task keeps its scratch memory, and gets nothing new to do. -/
theorem task_of_step {s : Sweep σ} {turn n : Nat} {t' : Task}
    (h : (s.step kernel invoke turn).tasks[n]? = some t') :
    ∃ t, s.tasks[n]? = some t ∧ t'.scratch = t.scratch ∧ t'.pending ⊆ t.pending := by
  cases hget : s.tasks[turn]? with
  | none =>
      rw [step_of_none hget] at h
      exact ⟨t', h, rfl, List.Subset.refl _⟩
  | some u =>
      obtain ⟨u', htasks, hscratch, hpending, _⟩ := tasks_step hget
      rw [htasks] at h
      by_cases hturn : turn = n
      · subst hturn
        rw [List.getElem?_set_self (List.getElem?_eq_some_iff.mp hget).1] at h
        obtain rfl := Option.some.inj h
        exact ⟨u, hget, hscratch, hpending⟩
      · rw [List.getElem?_set_ne hturn] at h
        exact ⟨t', h, rfl, List.Subset.refl _⟩

/-- Along an interleaving each turn of a task counts. -/
theorem left_run (s : Sweep σ) (interleaving : List Nat) {n : Nat} {t : Task}
    (h : s.tasks[n]? = some t) :
    ∃ t', (s.run kernel invoke interleaving).tasks[n]? = some t' ∧
      t'.left ≤ t.left - interleaving.count n := by
  induction interleaving generalizing s t with
  | nil => exact ⟨t, h, Nat.le_refl _⟩
  | cons turn rest ih =>
      obtain ⟨t', ht', hle⟩ := left_step s turn h
      obtain ⟨t'', ht'', hle'⟩ := ih _ ht'
      refine ⟨t'', ht'', ?_⟩
      rw [List.count_cons]
      by_cases hturn : turn = n
      · simp only [hturn, ↓reduceIte, beq_self_eq_true] at hle ⊢
        omega
      · simp only [hturn, ↓reduceIte, beq_iff_eq] at hle ⊢
        omega

theorem length_tasks_step (s : Sweep σ) (turn : Nat) :
    (s.step kernel invoke turn).tasks.length = s.tasks.length := by
  cases hget : s.tasks[turn]? with
  | none => rw [step_of_none hget]
  | some t =>
      obtain ⟨t', htasks, _⟩ := tasks_step hget
      rw [htasks, List.length_set]

theorem length_tasks_run (s : Sweep σ) (interleaving : List Nat) :
    (s.run kernel invoke interleaving).tasks.length = s.tasks.length := by
  induction interleaving generalizing s with
  | nil => rfl
  | cons turn rest ih =>
      show (run kernel invoke (s.step kernel invoke turn) rest).tasks.length = _
      rw [ih, length_tasks_step]

/-- An interleaving in which every task has enough turns is followed to the end of all tasks. -/
theorem isDone_of_complete {s : Sweep σ} {interleaving : List Nat}
    (hready : ∀ t ∈ s.tasks, t.left ≤ t.turns) (h : Complete s.tasks interleaving) :
    ∀ t ∈ (s.run kernel invoke interleaving).tasks, t.isDone = true := by
  intro t' ht'
  obtain ⟨n, hn⟩ := List.mem_iff_getElem?.mp ht'
  have hlt : n < s.tasks.length := by
    rw [← length_tasks_run s interleaving]
    exact (List.getElem?_eq_some_iff.mp hn).1
  have hget : s.tasks[n]? = some s.tasks[n] := List.getElem?_eq_getElem hlt
  obtain ⟨t'', ht'', hle⟩ := left_run s interleaving hget
  obtain rfl : t' = t'' := Option.some.inj (hn.symm.trans ht'')
  have hturns := h n _ hget
  have hleft := hready _ (List.getElem_mem hlt)
  exact Task.isDone_of_left (by omega)

theorem complete_inOrder (tasks : List Task) : Complete tasks (inOrder tasks) := by
  intro n t h
  have hturns : (List.replicate t.turns n).Sublist (inOrder tasks) :=
    List.sublist_flatten_of_mem (List.mem_map.mpr ⟨(t, n), List.mem_zipIdx_iff_getElem?.mpr h, rfl⟩)
  calc t.turns = (List.replicate t.turns n).count n := List.count_replicate_self.symm
    _ ≤ (inOrder tasks).count n := hturns.count_le n

/-! ### Calls -/

/-- The call that a turn makes, if it makes one. -/
def call? (kernel : Kernel σ) (invoke : Option Region → Index → Invocation) (s : Sweep σ)
    (turn : Nat) : Option KernelCall :=
  s.tasks[turn]?.bind fun task =>
    match task.phase, task.pending with
    | .calling, index :: _ =>
      let invocation := invoke task.scratch index
      some ⟨turn, index, invocation, (kernel.call invocation s.world).1⟩
    | _, _ => none

/-- The calls that a sweep makes along an interleaving. -/
def calls (kernel : Kernel σ) (invoke : Option Region → Index → Invocation) :
    Sweep σ → List Nat → List KernelCall
  | _, [] => []
  | s, turn :: rest =>
    (s.call? kernel invoke turn).toList ++ calls kernel invoke (s.step kernel invoke turn) rest

/-- A turn changes the world through its call only. -/
theorem world_step (s : Sweep σ) (turn : Nat) :
    (s.step kernel invoke turn).world
      = kernel.after (s.call? kernel invoke turn).toList s.world := by
  unfold step call?
  cases s.tasks[turn]? with
  | none => rfl
  | some t =>
      obtain ⟨pending, scratch, phase⟩ := t
      cases pending with
      | nil => cases phase <;> rfl
      | cons index rest =>
          cases phase with
          | looking =>
              simp only
              split <;> rfl
          | calling =>
              simp only [Kernel.after, Option.bind_some, Option.toList_some, List.foldl_cons,
                List.foldl_nil]
              split <;> simp [*]
          | failing reason => rfl
          | aborting => rfl

/-- A sweep changes the world through its calls only. -/
theorem world_run (s : Sweep σ) (interleaving : List Nat) :
    (s.run kernel invoke interleaving).world
      = kernel.after (s.calls kernel invoke interleaving) s.world := by
  induction interleaving generalizing s with
  | nil => rfl
  | cons turn rest ih =>
      have hafter (first last : List KernelCall) (w : World σ) :
          kernel.after (first ++ last) w = kernel.after last (kernel.after first w) :=
        List.foldl_append
      rw [calls, hafter, ← world_step, ← ih]
      rfl

theorem call?_eq_some {s : Sweep σ} {turn : Nat} {c : KernelCall}
    (h : s.call? kernel invoke turn = some c) :
    c.task = turn ∧ ∃ t, s.tasks[turn]? = some t ∧ c.index ∈ t.pending ∧
      c.invocation = invoke t.scratch c.index := by
  unfold call? at h
  obtain ⟨t, ht, h⟩ := Option.bind_eq_some_iff.mp h
  split at h
  · rename_i hpending
    cases h
    exact ⟨rfl, t, ht, hpending ▸ List.mem_cons_self, rfl⟩
  · cases h

/-- Every call is made by a task of the sweep, for an index that the task had to call for and with the
scratch memory of that task. -/
theorem invocation_of_mem_calls {s : Sweep σ} {interleaving : List Nat} {c : KernelCall}
    (h : c ∈ s.calls kernel invoke interleaving) :
    ∃ t, s.tasks[c.task]? = some t ∧ c.index ∈ t.pending ∧
      c.invocation = invoke t.scratch c.index := by
  induction interleaving generalizing s with
  | nil => cases h
  | cons turn rest ih =>
      rcases List.mem_append.mp h with h | h
      · obtain ⟨rfl, ht⟩ := call?_eq_some (Option.mem_toList.mp h)
        exact ht
      · obtain ⟨t', ht', hindex, hinvocation⟩ := ih h
        obtain ⟨t, ht, hscratch, hpending⟩ := task_of_step ht'
        exact ⟨t, ht, hpending hindex, by rw [← hscratch, hinvocation]⟩

/-! ### Kernels that never fail -/

/-- Nothing has failed, and a task that is about to call has something to call for. -/
structure Healthy (s : Sweep σ) : Prop where
  aborted : s.aborted = false
  failure : s.failure = none
  tasks : ∀ t ∈ s.tasks, t.phase = .looking ∨ t.phase = .calling ∧ t.pending ≠ []

/-- What a task still has to call for. -/
def pendingOf (s : Sweep σ) (n : Nat) : List Index := ((s.tasks[n]?).map Task.pending).getD []

theorem pendingOf_set {s : Sweep σ} {turn : Nat} {t t' : Task} (h : s.tasks[turn]? = some t)
    (aborted : Bool) (failure : Option String) (w : World σ) (n : Nat) :
    pendingOf ⟨s.tasks.set turn t', aborted, failure, w⟩ n
      = if turn = n then t'.pending else s.pendingOf n := by
  have hlt : turn < s.tasks.length := (List.getElem?_eq_some_iff.mp h).1
  unfold pendingOf
  rw [List.getElem?_set]
  split <;> simp_all

/-- A turn keeps a sweep healthy, and its task has no longer to call for what it called for. -/
theorem healthy_step (hkernel : kernel.NeverFails) {s : Sweep σ} (hs : s.Healthy) (turn : Nat) :
    (s.step kernel invoke turn).Healthy ∧
      ∀ n, s.pendingOf n = KernelCall.indicesOf (s.call? kernel invoke turn).toList n
        ++ (s.step kernel invoke turn).pendingOf n := by
  obtain ⟨haborted, hfailure, htasks⟩ := hs
  cases hget : s.tasks[turn]? with
  | none =>
      refine ⟨by rw [step_of_none hget]; exact ⟨haborted, hfailure, htasks⟩, fun n => ?_⟩
      rw [step_of_none hget, call?, hget]
      rfl
  | some t =>
      have ht := htasks t (List.mem_of_getElem? hget)
      have hset {t' : Task} (ht' : t'.phase = .looking ∨ t'.phase = .calling ∧ t'.pending ≠ []) :
          ∀ u ∈ s.tasks.set turn t', u.phase = .looking ∨ u.phase = .calling ∧ u.pending ≠ [] :=
        fun u hu => (List.mem_or_eq_of_mem_set hu).elim (htasks u) fun h => h ▸ ht'
      obtain ⟨pending, scratch, phase⟩ := t
      unfold step call?
      rw [hget]
      cases phase with
      | looking =>
          cases pending with
          | nil => exact ⟨⟨haborted, hfailure, htasks⟩, fun n => rfl⟩
          | cons index rest =>
              simp only [haborted, Bool.false_eq_true, ↓reduceIte]
              refine ⟨⟨rfl, hfailure, hset (.inr ⟨rfl, List.cons_ne_nil _ _⟩)⟩, fun n => ?_⟩
              refine Eq.trans ?_ (pendingOf_set hget _ _ _ n).symm
              split
              · rename_i hturn
                rw [← hturn, pendingOf, hget]
                rfl
              · rfl
      | calling =>
          cases pending with
          | nil => simp at ht
          | cons index rest =>
              have hcall := Kernel.call_eq hkernel (invoke scratch index) s.world
              generalize (kernel.call (invoke scratch index) s.world).2 = w at hcall
              simp only [hcall, Option.bind_some, Option.toList_some]
              refine ⟨⟨haborted, hfailure, hset (.inl rfl)⟩, fun n => ?_⟩
              rw [pendingOf_set hget]
              by_cases hturn : turn = n
              · rw [if_pos hturn, ← hturn, pendingOf, hget]
                simp [KernelCall.indicesOf]
              · simp [KernelCall.indicesOf, hturn]
      | failing reason => simp at ht
      | aborting => simp at ht

/-- Along an interleaving each task calls for what it has to call for, in order. -/
theorem healthy_run (hkernel : kernel.NeverFails) {s : Sweep σ} (hs : s.Healthy)
    (interleaving : List Nat) :
    (s.run kernel invoke interleaving).Healthy ∧
      ∀ n, s.pendingOf n = KernelCall.indicesOf (s.calls kernel invoke interleaving) n
        ++ (s.run kernel invoke interleaving).pendingOf n := by
  induction interleaving generalizing s with
  | nil => exact ⟨hs, fun n => rfl⟩
  | cons turn rest ih =>
      obtain ⟨hstep, hpending⟩ := healthy_step hkernel hs turn
      obtain ⟨hrun, hrest⟩ := ih hstep
      refine ⟨hrun, fun n => ?_⟩
      have hcalls (first last : List KernelCall) : KernelCall.indicesOf (first ++ last) n
          = KernelCall.indicesOf first n ++ KernelCall.indicesOf last n := by
        simp [KernelCall.indicesOf]
      rw [hpending n, hrest n, calls, hcalls, List.append_assoc]
      rfl

/-- Followed to its end, a sweep of tasks that were ready makes for each task the calls that it had to
make, and notes no failure. -/
theorem indicesOf_calls (hkernel : kernel.NeverFails) {s : Sweep σ} (hs : s.Healthy)
    (hready : ∀ t ∈ s.tasks, t.left ≤ t.turns) {interleaving : List Nat}
    (hcomplete : Complete s.tasks interleaving) :
    (s.run kernel invoke interleaving).failure = none ∧
      ∀ n, KernelCall.indicesOf (s.calls kernel invoke interleaving) n = s.pendingOf n := by
  obtain ⟨hrun, hpending⟩ := healthy_run hkernel hs interleaving
  refine ⟨hrun.failure, fun n => ?_⟩
  have hend : (s.run kernel invoke interleaving).pendingOf n = [] := by
    unfold pendingOf
    cases hget : (s.run kernel invoke interleaving).tasks[n]? with
    | none => rfl
    | some t =>
        exact Task.pending_of_isDone
          (isDone_of_complete hready hcomplete t (List.mem_of_getElem? hget))
  rw [hpending n, hend, List.append_nil]

end Sweep

namespace KernelCall

/-- The calls of all tasks together are all calls. -/
theorem flatMap_indicesOf_perm {calls : List KernelCall} {n : Nat} (h : ∀ c ∈ calls, c.task < n) :
    ((List.range n).flatMap (indicesOf calls)).Perm (calls.map (·.index)) := by
  have hfirst (m : Nat) : ((List.range m).flatMap (indicesOf calls)).Perm
      ((calls.filter (·.task < m)).map (·.index)) := by
    induction m with
    | zero => simp
    | succ m ih =>
        have hsplit := List.filter_append_perm (·.task < m) (calls.filter (·.task < m + 1))
        have hbefore : (calls.filter (·.task < m + 1)).filter (·.task < m) = calls.filter (·.task < m) := by
          rw [List.filter_filter]
          exact List.filter_congr fun c _ => by rw [Bool.eq_iff_iff]; simp; omega
        have hlast : (calls.filter (·.task < m + 1)).filter (fun c => !decide (c.task < m))
            = calls.filter (·.task = m) := by
          rw [List.filter_filter]
          exact List.filter_congr fun c _ => by rw [Bool.eq_iff_iff]; simp; omega
        rw [hbefore, hlast] at hsplit
        rw [List.range_succ, List.flatMap_append, List.flatMap_singleton]
        refine (ih.append_right _).trans ?_
        rw [indicesOf, ← List.map_append]
        exact hsplit.map _
  have hall : calls.filter (·.task < n) = calls :=
    List.filter_eq_self.mpr fun c hc => decide_eq_true (h c hc)
  have hperm := hfirst n
  rwa [hall] at hperm

theorem length_flatMap_indicesOf {calls : List KernelCall} {n : Nat}
    (h : ∀ c ∈ calls, c.task < n) : ((List.range n).flatMap (indicesOf calls)).length = calls.length := by
  rw [(flatMap_indicesOf_perm h).length_eq, List.length_map]

end KernelCall

end TensorGraph
