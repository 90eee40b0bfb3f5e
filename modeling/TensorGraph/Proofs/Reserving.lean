import TensorGraph.Proofs.Coverage

/-! # Scratch memory over a history of requests

A scratchpad answers one request after the other, and nothing says that a later one asks for more than an
earlier one.  It grows only if it has to, so it never holds less than before (`Scratchpad.capacity_le_after`);
and because a region never reaches beyond the next boundary, the regions of one request lie apart and, up to
the last of them, within what the scratchpad holds then (`Scratchpad.serves_reserve`).
`Scratchpad.serves_over_history` says both for any history, and that the tasks of a run have such regions. -/

namespace TensorGraph

/-- The first byte after a region. -/
def Region.finish (r : Region) : Nat := r.offset + r.length

/-- Two regions without a common byte. -/
def Region.Disjoint (a b : Region) : Prop := a.finish ≤ b.offset ∨ b.finish ≤ a.offset

/-- A reservation in `capacity` bytes that has `length` bytes for each of `tasks` tasks alone. -/
structure Reservation.Serves (r : Reservation) (length tasks capacity : Nat) : Prop where
  /-- The region of a task has the length, begins on a boundary of 64 bytes and ends within the capacity. -/
  within : ∀ task < tasks, ∃ region, r.region? task = some region ∧
    region.length = length ∧ 64 ∣ region.offset ∧ region.finish ≤ capacity
  /-- The regions of two tasks have no byte in common. -/
  apart : ∀ task < tasks, ∀ other < tasks, task ≠ other → ∀ a b,
    r.region? task = some a → r.region? other = some b → a.Disjoint b

namespace Scratchpad

/-- The scratchpad after requests for that many bytes for each of that many tasks, in sequence. -/
def after (p : Scratchpad) (requests : List (Nat × Nat)) : Scratchpad :=
  requests.foldl (fun p request => (p.reserve request.1 request.2).2) p

/-! ### Capacity -/

theorem capacity_le_reserve (p : Scratchpad) (perTask tasks : Nat) :
    p.capacity ≤ (p.reserve perTask tasks).2.capacity := by
  unfold reserve
  split
  · exact Nat.le_refl _
  · dsimp only
    split
    · rename_i hgrows
      simp only [capacity, wordSize] at hgrows ⊢
      omega
    · exact Nat.le_refl _

theorem capacity_le_after (p : Scratchpad) (requests : List (Nat × Nat)) :
    p.capacity ≤ (p.after requests).capacity := by
  induction requests generalizing p with
  | nil => exact Nat.le_refl _
  | cons request rest ih => exact (p.capacity_le_reserve request.1 request.2).trans (ih _)

theorem after_append (p : Scratchpad) (before later : List (Nat × Nat)) :
    p.after (before ++ later) = (p.after before).after later :=
  List.foldl_append

/-- What was asked for fits, in whole words. -/
theorem stride_mul_le_capacity (p : Scratchpad) {perTask : Nat} (h : 0 < perTask) (tasks : Nat) :
    stride perTask * max tasks 1 ≤ (p.reserve perTask tasks).2.capacity := by
  rw [reserve, if_neg h.ne']
  dsimp only
  split
  · simp only [capacity, wordSize]
    omega
  · exact Nat.le_of_not_lt ‹_›

/-! ### Regions -/

theorem le_stride (perTask : Nat) : perTask ≤ stride perTask := by
  unfold stride alignment
  omega

theorem dvd_stride (perTask : Nat) : 64 ∣ stride perTask := Nat.dvd_mul_left 64 _

theorem region?_reserve (p : Scratchpad) {perTask tasks task : Nat} (h : 0 < perTask)
    (htask : task < max tasks 1) :
    (p.reserve perTask tasks).1.region? task = some ⟨task * stride perTask, perTask⟩ := by
  rw [reserve, if_neg h.ne', Reservation.region?, if_neg]
  exact not_or.mpr ⟨h.ne', Nat.not_le.mpr htask⟩

/-- The region of a task ends where the one of the next task begins, or before. -/
theorem finish_le {perTask task other : Nat} (h : task < other) :
    Region.finish ⟨task * stride perTask, perTask⟩ ≤ other * stride perTask :=
  calc task * stride perTask + perTask ≤ task * stride perTask + stride perTask :=
        Nat.add_le_add_left (le_stride perTask) _
    _ = (task + 1) * stride perTask := (Nat.succ_mul _ _).symm
    _ ≤ other * stride perTask := Nat.mul_le_mul_right _ h

/-- Whatever a scratchpad held before, a request is served from what it holds then. -/
theorem serves_reserve (p : Scratchpad) {perTask : Nat} (h : 0 < perTask) (tasks : Nat) :
    (p.reserve perTask tasks).1.Serves perTask (max tasks 1) (p.reserve perTask tasks).2.capacity where
  within task htask := by
    refine ⟨_, p.region?_reserve h htask, rfl, (dvd_stride perTask).mul_left task, ?_⟩
    calc Region.finish ⟨task * stride perTask, perTask⟩ ≤ max tasks 1 * stride perTask := finish_le htask
      _ = stride perTask * max tasks 1 := Nat.mul_comm _ _
      _ ≤ _ := p.stride_mul_le_capacity h tasks
  apart task htask other hother hne a b ha hb := by
    obtain rfl := Option.some.inj ((p.region?_reserve h htask).symm.trans ha)
    obtain rfl := Option.some.inj ((p.region?_reserve h hother).symm.trans hb)
    exact (Nat.lt_or_gt_of_ne hne).imp finish_le finish_le

end Scratchpad

/-! ### The tasks of a run -/

namespace Scheduler

variable {σ : Type}

/-- What a run reserves of the scratchpad that its scheduler shares among its runs. -/
def reservation (s : Scheduler) (kernel : Kernel σ) (plan : Plan) (w : World σ) : Reservation :=
  ((w.scratchpads.get s.scratchpad).reserve kernel.scratchSize (s.taskCount plan.domain)).1

theorem length_tasks_opening (s : Scheduler) (kernel : Kernel σ) (plan : Plan) (w : World σ) :
    (s.opening kernel plan w).tasks.length = s.taskCount plan.domain := by
  simp [opening, tasks]

/-- The scratch memory of a task is the region with its number. -/
theorem scratch_opening (s : Scheduler) (kernel : Kernel σ) (plan : Plan) (w : World σ) {n : Nat} {t : Task}
    (h : (s.opening kernel plan w).tasks[n]? = some t) :
    t.scratch = (s.reservation kernel plan w).region? n := by
  simp only [opening, tasks, List.getElem?_map, Option.map_eq_some_iff] at h
  obtain ⟨m, hm, rfl⟩ := h
  obtain ⟨_, rfl⟩ := List.getElem?_eq_some_iff.mp hm
  rw [List.getElem_range]
  rfl

/-- A kernel that asks for scratch memory has it for every task of a run. -/
theorem serves_opening (s : Scheduler) (kernel : Kernel σ) (plan : Plan) {w : World σ}
    (hw : w.scratchpads.Has s.scratchpad) (h : 0 < kernel.scratchSize) :
    (s.reservation kernel plan w).Serves kernel.scratchSize (s.taskCount plan.domain)
      (s.scratchCapacity (s.opening kernel plan w).world) := by
  have hserves := (w.scratchpads.get s.scratchpad).serves_reserve h (s.taskCount plan.domain)
  rw [Nat.max_eq_left (s.taskCount_pos plan.domain)] at hserves
  have hput : s.scratchCapacity (s.opening kernel plan w).world
      = ((w.scratchpads.get s.scratchpad).reserve kernel.scratchSize
          (s.taskCount plan.domain)).2.capacity :=
    congrArg Scratchpad.capacity (Table.get_put_same hw _)
  rw [hput]
  exact hserves

/-- Every call is told the region of the task that makes it. -/
theorem scratch_of_mem_calls {s : Scheduler} {interleaving : List Task → List Nat} {kernel : Kernel σ}
    {plan : Plan} {inputs outputs : List (Option BufferId)} {w : World σ} {c : KernelCall}
    (hc : c ∈ s.calls interleaving kernel plan inputs outputs w) :
    c.invocation.scratch = (s.reservation kernel plan w).region? c.task := by
  obtain ⟨hempty, _⟩ := invocation_of_mem_calls hc
  rw [s.calls_of_not_isEmpty interleaving kernel hempty] at hc
  obtain ⟨t, ht, _, hinvocation⟩ := Sweep.invocation_of_mem_calls hc
  rw [hinvocation, ← s.scratch_opening kernel plan w ht]
  rfl

end Scheduler

/-- **Scratch memory is apart and within bounds, over any history.**  Requests never take capacity away.  After
any requests, the next one gives the tasks below its number, and task 0 always, regions of the length asked for,
on boundaries of 64 bytes, without common bytes and within the capacity that there is then.  And each task of a
run has such a region, which all kernel calls of the task are told, in whatever sequence the tasks take their
steps. -/
theorem Scratchpad.serves_over_history (p : Scratchpad) :
    (∀ before later, (p.after before).capacity ≤ (p.after (before ++ later)).capacity) ∧
    (∀ before perTask tasks, 0 < perTask →
      ((p.after before).reserve perTask tasks).1.Serves perTask (max tasks 1)
        (p.after (before ++ [(perTask, tasks)])).capacity) ∧
    ∀ {σ : Type} (s : Scheduler) (kernel : Kernel σ) (plan : Plan) (w : World σ),
      w.scratchpads.Has s.scratchpad → 0 < kernel.scratchSize →
      let start := s.opening kernel plan w
      ∃ r : Reservation,
        r.Serves kernel.scratchSize start.tasks.length (s.scratchCapacity start.world) ∧
        (∀ n t, start.tasks[n]? = some t → t.scratch = r.region? n) ∧
        ∀ interleaving inputs outputs, ∀ c ∈ s.calls interleaving kernel plan inputs outputs w,
          c.task < start.tasks.length ∧ c.invocation.scratch = r.region? c.task := by
  refine ⟨fun before later => ?_, fun before perTask tasks h => ?_, fun s kernel plan w hw h => ?_⟩
  · rw [after_append]
    exact capacity_le_after _ later
  · rw [after_append]
    exact (p.after before).serves_reserve h tasks
  · simp only [Scheduler.length_tasks_opening]
    exact ⟨s.reservation kernel plan w, s.serves_opening kernel plan hw h,
      fun n t ht => s.scratch_opening kernel plan w ht, fun interleaving inputs outputs c hc =>
        ⟨(Scheduler.invocation_of_mem_calls hc).2.1, Scheduler.scratch_of_mem_calls hc⟩⟩

/-- A request for one small region after one for four larger ones, then five regions for which the scratchpad
grows; and the two tasks of a run. -/
theorem Scratchpad.serves_over_three_requests :
    let s : Scheduler := ⟨.withThreads .standard 2, 2, ⟨0⟩⟩
    let kernel : Kernel Nat := ⟨8, fun _ w => (.ok (), w)⟩
    let plan : Plan := ⟨⟨[2, 3], [1, 1, 1, 1, 2, 3], 1, 6, 2⟩, [], [⟨0, [0, 0, 0, 0, 3, 1], 4⟩]⟩
    let w : World Nat := (World.addScratchpad (.empty 0)).2
    (empty.after [(100, 4)]).capacity ≤ (empty.after [(100, 4), (16, 1)]).capacity ∧
    ((empty.after [(100, 4), (16, 1)]).reserve 70 5).1.Serves 70 5 640 ∧
    ∃ r : Reservation, r.Serves 8 2 128 ∧
      ∀ c ∈ s.calls Sweep.inOrder kernel plan [] [some ⟨0⟩] w,
        c.task < 2 ∧ c.invocation.scratch = r.region? c.task := by
  intro s kernel plan w
  refine ⟨(serves_over_history empty).1 [(100, 4)] [(16, 1)],
    (serves_over_history empty).2.1 [(100, 4), (16, 1)] 70 5 (by decide), ?_⟩
  obtain ⟨r, hserves, _, hcalls⟩ :=
    (serves_over_history empty).2.2 s kernel plan w (by decide) (by decide)
  have htasks : (s.opening kernel plan w).tasks.length = 2 := s.length_tasks_opening kernel plan w
  have hcapacity : s.scratchCapacity (s.opening kernel plan w).world = 128 := by decide
  rw [htasks, hcapacity] at hserves
  rw [htasks] at hcalls
  exact ⟨r, hserves, hcalls Sweep.inOrder [] [some ⟨0⟩]⟩

end TensorGraph
