import TensorGraph.Proofs.Outcomes
import TensorGraph.Proofs.Sweeping
import TensorGraph.Proofs.Tiling
import TensorGraph.Proofs.Walks

/-! # A run covers the domain

A scheduler splits the outer indices of a plan among its tasks and lets them call the kernel in any
order.  `run_covers_domain` puts together what the shares, the walks, the sweep and the tiles say: for
a kernel that never fails, the calls of the tasks, one task after the other, are for all outer indices
in row-major order, and each call is told the machine addresses of its tile. -/

namespace TensorGraph

variable {σ : Type}

namespace Scheduler

/-- The sweep over a plan's domain before its first turn. -/
def opening (s : Scheduler) (kernel : Kernel σ) (plan : Plan) (w : World σ) : Sweep σ :=
  let (reservation, scratchpad) :=
    (w.scratchpads.get s.scratchpad).reserve kernel.scratchSize (s.taskCount plan.domain)
  ⟨s.tasks plan.domain reservation, false, none,
    { w with scratchpads := w.scratchpads.put s.scratchpad scratchpad }⟩

/-- The calls of the kernel that a run makes along an interleaving. -/
def calls (s : Scheduler) (interleaving : List Task → List Nat) (kernel : Kernel σ) (plan : Plan)
    (inputs outputs : List (Option BufferId)) (w : World σ) : List KernelCall :=
  if plan.domain.isEmpty then []
  else
    let sweep := s.opening kernel plan w
    sweep.calls kernel (plan.invocation inputs outputs) (interleaving sweep.tasks)

theorem taskCount_pos (s : Scheduler) (d : Domain) : 0 < s.taskCount d :=
  Nat.lt_of_lt_of_le Nat.one_pos (Nat.le_max_left _ _)

theorem outcome_report (failure : Option String) (w : World σ) :
    Run.outcome (match failure with
      | some reason => throw (.kernelFailed reason)
      | none => pure ()) w
      = ((failure.map Error.kernelFailed).elim (.ok ()) .error, w) := by
  cases failure <;> rfl

/-- With the right numbers of buffers, a run over a domain that is not empty is a sweep. -/
theorem outcome_runAlong (s : Scheduler) (interleaving : List Task → List Nat) (kernel : Kernel σ)
    {plan : Plan} {inputs outputs : List (Option BufferId)}
    (hinputs : inputs.length = plan.inputs.length)
    (houtputs : outputs.length = plan.outputs.length) (w : World σ) :
    (s.runAlong interleaving kernel plan inputs outputs).outcome w
      = if plan.domain.isEmpty then (.ok (), w)
        else
          let start := s.opening kernel plan w
          let sweep := start.run kernel (plan.invocation inputs outputs) (interleaving start.tasks)
          ((sweep.failure.map Error.kernelFailed).elim (.ok ()) .error, sweep.world) := by
  unfold runAlong
  simp only [hinputs, houtputs, ne_eq, not_true_eq_false, ↓reduceIte]
  cases plan.domain.isEmpty with
  | true => rfl
  | false =>
      simp only [Bool.false_eq_true, ↓reduceIte, Run.outcome_bind, Run.outcome_get, Run.outcome_set]
      exact outcome_report _ _

/-! ### The sweep over a domain -/

theorem tasks_opening (s : Scheduler) (kernel : Kernel σ) (plan : Plan) (w : World σ) {n : Nat}
    {t : Task} (h : (s.opening kernel plan w).tasks[n]? = some t) :
    n < s.taskCount plan.domain ∧
      ∃ scratch, t = .ready (plan.domain.taskIndices (s.taskCount plan.domain) n) scratch := by
  simp only [opening, tasks, List.getElem?_map, Option.map_eq_some_iff] at h
  obtain ⟨m, hm, rfl⟩ := h
  obtain ⟨hlt, rfl⟩ := List.getElem?_eq_some_iff.mp hm
  rw [List.length_range] at hlt
  exact ⟨hlt, _, by rw [List.getElem_range]⟩

theorem healthy_opening (s : Scheduler) (kernel : Kernel σ) (plan : Plan) (w : World σ) :
    (s.opening kernel plan w).Healthy ∧ ∀ t ∈ (s.opening kernel plan w).tasks, t.left ≤ t.turns := by
  refine ⟨⟨rfl, rfl, fun t ht => ?_⟩, fun t ht => ?_⟩
  · obtain ⟨n, hn⟩ := List.mem_iff_getElem?.mp ht
    obtain ⟨_, scratch, rfl⟩ := s.tasks_opening kernel plan w hn
    exact .inl rfl
  · obtain ⟨n, hn⟩ := List.mem_iff_getElem?.mp ht
    obtain ⟨_, scratch, rfl⟩ := s.tasks_opening kernel plan w hn
    exact Task.left_ready_le _ _

theorem pendingOf_opening (s : Scheduler) (kernel : Kernel σ) (plan : Plan) (w : World σ) {n : Nat}
    (hn : n < s.taskCount plan.domain) :
    (s.opening kernel plan w).pendingOf n
      = plan.domain.taskIndices (s.taskCount plan.domain) n := by
  have hlen : n < (s.opening kernel plan w).tasks.length := by
    simpa [opening, tasks] using hn
  obtain ⟨_, scratch, ht⟩ := s.tasks_opening kernel plan w (List.getElem?_eq_getElem hlen)
  rw [Sweep.pendingOf, List.getElem?_eq_getElem hlen, ht]
  rfl

/-- The walks of the tasks over a planned domain that is not empty are all outer indices. -/
theorem flatMap_taskIndices_of_plan {p : Planner} {i : Interface} {plan : Plan}
    (h : p.plan i = .ok plan) (hempty : plan.domain.isEmpty = false) (s : Scheduler) :
    (List.range (s.taskCount plan.domain)).flatMap
        (plan.domain.taskIndices (s.taskCount plan.domain))
      = plan.domain.outer.indices := by
  have hwork : plan.domain.work ≠ 0 := by
    simpa [Domain.isEmpty] using hempty
  have hinvocations := (Planner.domain_of_plan h).2.2
  rw [if_neg hwork] at hinvocations
  exact Domain.flatMap_taskIndices (Planner.positive_outer h hwork) hinvocations (s.taskCount_pos _)

/-- On a planned domain, odometer and numbers visit the same indices, also if there are none. -/
theorem walks_agree {p : Planner} {i : Interface} {plan : Plan} (h : p.plan i = .ok plan)
    (tasks task : Nat) :
    plan.domain.steppedWalk (.ofTask plan.domain.invocations tasks task)
      = plan.domain.flatWalk (.ofTask plan.domain.invocations tasks task) := by
  by_cases hwork : plan.domain.work = 0
  · have hinvocations := (Planner.domain_of_plan h).2.2
    rw [if_pos hwork] at hinvocations
    have hnothing : Share.ofTask 0 tasks task = ⟨0, 0⟩ := by simp [Share.ofTask]
    rw [hinvocations, hnothing]
    rfl
  · exact Domain.steppedWalk_eq_flatWalk (Planner.positive_outer h hwork) _

/-! ### Coverage -/

theorem calls_of_isEmpty (s : Scheduler) (interleaving : List Task → List Nat) (kernel : Kernel σ)
    {plan : Plan} (h : plan.domain.isEmpty = true) (inputs outputs : List (Option BufferId))
    (w : World σ) : s.calls interleaving kernel plan inputs outputs w = [] :=
  if_pos h

theorem calls_of_not_isEmpty (s : Scheduler) (interleaving : List Task → List Nat)
    (kernel : Kernel σ) {plan : Plan} (h : plan.domain.isEmpty = false)
    (inputs outputs : List (Option BufferId)) (w : World σ) :
    s.calls interleaving kernel plan inputs outputs w
      = (s.opening kernel plan w).calls kernel (plan.invocation inputs outputs)
          (interleaving (s.opening kernel plan w).tasks) :=
  if_neg (by rw [h]; exact Bool.false_ne_true)

/-- A kernel that never fails is called for all outer indices, and no failure is noted. -/
theorem flatMap_indicesOf_calls {p : Planner} {i : Interface} {plan : Plan} (h : p.plan i = .ok plan)
    (s : Scheduler) {kernel : Kernel σ} (hkernel : kernel.NeverFails)
    {interleaving : List Task → List Nat}
    (hcomplete : ∀ tasks, Sweep.Complete tasks (interleaving tasks))
    (inputs outputs : List (Option BufferId)) (w : World σ)
    (hempty : plan.domain.isEmpty = false) :
    ((s.opening kernel plan w).run kernel (plan.invocation inputs outputs)
        (interleaving (s.opening kernel plan w).tasks)).failure = none ∧
      (List.range (s.taskCount plan.domain)).flatMap
          (KernelCall.indicesOf (s.calls interleaving kernel plan inputs outputs w))
        = plan.domain.outer.indices := by
  obtain ⟨hhealthy, hready⟩ := s.healthy_opening kernel plan w
  obtain ⟨hfailure, hindices⟩ := Sweep.indicesOf_calls hkernel hhealthy hready
    (hcomplete (s.opening kernel plan w).tasks)
  refine ⟨hfailure, ?_⟩
  rw [← s.flatMap_taskIndices_of_plan h hempty, s.calls_of_not_isEmpty interleaving kernel hempty]
  refine List.flatMap_congr fun n hn => ?_
  rw [hindices n, s.pendingOf_opening kernel plan w (List.mem_range.mp hn)]

/-- Every call is made by a task of the run and is told its tile. -/
theorem invocation_of_mem_calls {s : Scheduler} {interleaving : List Task → List Nat}
    {kernel : Kernel σ} {plan : Plan} {inputs outputs : List (Option BufferId)} {w : World σ}
    {c : KernelCall} (hc : c ∈ s.calls interleaving kernel plan inputs outputs w) :
    plan.domain.isEmpty = false ∧ c.task < s.taskCount plan.domain ∧
      ∃ scratch, c.invocation = plan.invocation inputs outputs scratch c.index := by
  cases hempty : plan.domain.isEmpty with
  | true =>
      rw [s.calls_of_isEmpty interleaving kernel hempty] at hc
      cases hc
  | false =>
      rw [s.calls_of_not_isEmpty interleaving kernel hempty] at hc
      obtain ⟨t, ht, _, hinvocation⟩ := Sweep.invocation_of_mem_calls hc
      exact ⟨rfl, (s.tasks_opening kernel plan w ht).1, _, hinvocation⟩

/-- Every call is for an outer index, also if others fail. -/
theorem index_of_mem_calls {p : Planner} {i : Interface} {plan : Plan} (h : p.plan i = .ok plan)
    {s : Scheduler} {interleaving : List Task → List Nat} {kernel : Kernel σ}
    {inputs outputs : List (Option BufferId)} {w : World σ} {c : KernelCall}
    (hc : c ∈ s.calls interleaving kernel plan inputs outputs w) :
    plan.domain.outer.InBounds c.index := by
  obtain ⟨hempty, htask, _⟩ := invocation_of_mem_calls hc
  rw [s.calls_of_not_isEmpty interleaving kernel hempty] at hc
  obtain ⟨t, ht, hindex, _⟩ := Sweep.invocation_of_mem_calls hc
  obtain ⟨_, _, rfl⟩ := s.tasks_opening kernel plan w ht
  refine Shape.mem_indices.mp ?_
  rw [← s.flatMap_taskIndices_of_plan h hempty]
  exact List.mem_flatMap.mpr ⟨c.task, List.mem_range.mpr htask, hindex⟩

/-- The indices for which a kernel that never fails is called are the outer ones. -/
theorem mem_map_index_calls {p : Planner} {i : Interface} {plan : Plan} (h : p.plan i = .ok plan)
    (s : Scheduler) {kernel : Kernel σ} (hkernel : kernel.NeverFails)
    {interleaving : List Task → List Nat}
    (hcomplete : ∀ tasks, Sweep.Complete tasks (interleaving tasks))
    (inputs outputs : List (Option BufferId)) (w : World σ)
    (hempty : plan.domain.isEmpty = false) {index : Index} :
    index ∈ (s.calls interleaving kernel plan inputs outputs w).map (·.index)
      ↔ index ∈ plan.domain.outer.indices := by
  rw [← (flatMap_indicesOf_calls h s hkernel hcomplete inputs outputs w hempty).2]
  constructor
  · intro hindex
    obtain ⟨c, hc, rfl⟩ := List.mem_map.mp hindex
    refine List.mem_flatMap.mpr ⟨c.task, ?_, List.mem_map_of_mem (List.mem_filter.mpr ⟨hc, ?_⟩)⟩
    · exact List.mem_range.mpr (invocation_of_mem_calls hc).2.1
    · exact decide_eq_true rfl
  · intro hindex
    obtain ⟨task, _, hindex⟩ := List.mem_flatMap.mp hindex
    obtain ⟨c, hc, rfl⟩ := List.mem_map.mp hindex
    exact List.mem_map_of_mem (List.mem_filter.mp hc).1

/-- With the right numbers of buffers, a run does to the world what its calls of the kernel do. -/
theorem world_runAlong_eq (s : Scheduler) (interleaving : List Task → List Nat) (kernel : Kernel σ)
    {plan : Plan} {inputs outputs : List (Option BufferId)} (hinputs : inputs.length = plan.inputs.length)
    (houtputs : outputs.length = plan.outputs.length) (w : World σ) :
    ((s.runAlong interleaving kernel plan inputs outputs).outcome w).2
      = kernel.after (s.calls interleaving kernel plan inputs outputs w)
          (if plan.domain.isEmpty then w else (s.opening kernel plan w).world) := by
  rw [s.outcome_runAlong interleaving kernel hinputs houtputs]
  cases hempty : plan.domain.isEmpty with
  | true =>
      rw [s.calls_of_isEmpty interleaving kernel hempty]
      rfl
  | false =>
      rw [s.calls_of_not_isEmpty interleaving kernel hempty]
      exact Sweep.world_run _ _

/-- A run changes scratch memory, and otherwise what its calls of the kernel change. -/
theorem world_runAlong (s : Scheduler) (interleaving : List Task → List Nat) (kernel : Kernel σ)
    (plan : Plan) (ins outs : List (Option BufferId)) (w : World σ) :
    ∃ calls pads, ((s.runAlong interleaving kernel plan ins outs).outcome w).2
      = kernel.after calls { w with scratchpads := pads } := by
  by_cases hins : ins.length = plan.inputs.length
  · by_cases houts : outs.length = plan.outputs.length
    · rw [s.world_runAlong_eq interleaving kernel hins houts]
      split
      · exact ⟨_, w.scratchpads, rfl⟩
      · exact ⟨_, _, rfl⟩
    · unfold runAlong
      rw [if_neg (not_not.mpr hins), if_pos houts]
      exact ⟨[], w.scratchpads, rfl⟩
  · unfold runAlong
    rw [if_pos hins]
    exact ⟨[], w.scratchpads, rfl⟩

/-- With a kernel that never fails, a run succeeds and does to the world what its calls do. -/
theorem outcome_runAlong_of_neverFails {p : Planner} {i : Interface} {plan : Plan}
    (h : p.plan i = .ok plan) (s : Scheduler) {kernel : Kernel σ} (hkernel : kernel.NeverFails)
    {interleaving : List Task → List Nat}
    (hcomplete : ∀ tasks, Sweep.Complete tasks (interleaving tasks))
    {inputs outputs : List (Option BufferId)} (hinputs : inputs.length = plan.inputs.length)
    (houtputs : outputs.length = plan.outputs.length) (w : World σ) :
    (s.runAlong interleaving kernel plan inputs outputs).outcome w
      = (.ok (), kernel.after (s.calls interleaving kernel plan inputs outputs w)
          (if plan.domain.isEmpty then w else (s.opening kernel plan w).world)) := by
  rw [s.outcome_runAlong interleaving kernel hinputs houtputs w]
  cases hempty : plan.domain.isEmpty with
  | true =>
      rw [s.calls_of_isEmpty interleaving kernel hempty]
      rfl
  | false =>
      obtain ⟨hfailure, _⟩ := flatMap_indicesOf_calls h s hkernel hcomplete inputs outputs w hempty
      rw [if_neg Bool.false_ne_true, if_neg Bool.false_ne_true]
      dsimp only
      rw [hfailure, Sweep.world_run, ← s.calls_of_not_isEmpty interleaving kernel hempty]
      rfl

/-- **A run covers the domain.**  Along every interleaving that gives each task enough turns, a kernel
that never fails is called as often as there are invocations, and the run does to the world what these
calls do.  Task after task, the calls are for all outer indices in row-major order, each once; over an
empty domain there is no call.  Odometer and numbers visit the same indices in each task.  In each call
the start of the tile and the distances between its rows and columns lead, in every terminal and at
every position of the tile, to the machine address of the element with the index in the whole domain;
the exact offsets agree too where no word in them has its highest bit set. -/
theorem run_covers_domain (p : Planner) (i : Interface) (plan : Plan) (h : p.plan i = .ok plan)
    (s : Scheduler) (kernel : Kernel σ) (hkernel : kernel.NeverFails)
    (interleaving : List Task → List Nat)
    (hcomplete : ∀ tasks, Sweep.Complete tasks (interleaving tasks))
    (inputs outputs : List (Option BufferId)) (hinputs : inputs.length = plan.inputs.length)
    (houtputs : outputs.length = plan.outputs.length) (w : World σ) :
    let d := plan.domain
    let n := s.taskCount d
    let calls := s.calls interleaving kernel plan inputs outputs w
    (s.runAlong interleaving kernel plan inputs outputs).outcome w
        = (.ok (), kernel.after calls (if d.isEmpty then w else (s.opening kernel plan w).world)) ∧
      calls.length = d.invocations ∧
      (d.isEmpty = true → calls = []) ∧
      (d.isEmpty = false → (List.range n).flatMap (KernelCall.indicesOf calls) = d.outer.indices ∧
        d.outer.indices.Nodup) ∧
      (∀ task < n, d.steppedWalk (.ofTask d.invocations n task)
        = d.flatWalk (.ofTask d.invocations n task)) ∧
      ∀ c ∈ calls, c.task < n ∧ c.index ∈ d.outer.indices ∧
        (∃ scratch, c.invocation = plan.invocation inputs outputs scratch c.index) ∧
        ∀ row < d.tile.1, ∀ column < d.tile.2,
          let reached := c.invocation.elementsAt (row, column)
          let meant := plan.elementPointers (inputs ++ outputs) (d.indexAt c.index (row, column))
          List.Forall₂ Pointer.SameAddress reached meant ∧
            ((∀ a ∈ plan.accesses, a.offset < 2 ^ 63) → d.work ≤ 2 ^ 63 → reached = meant) := by
  intro d n calls
  have hrun := outcome_runAlong_of_neverFails h s hkernel hcomplete hinputs houtputs w
  have hinvocations : d.invocations = if d.work = 0 then 0 else d.outer.size :=
    (Planner.domain_of_plan h).2.2
  cases hempty : d.isEmpty with
  | true =>
      have hwork : d.work = 0 := by simpa [Domain.isEmpty] using hempty
      have hcalls : calls = [] := s.calls_of_isEmpty interleaving kernel hempty _ _ _
      refine ⟨?_, ?_, fun _ => hcalls, nofun, fun task _ => walks_agree h n task, ?_⟩
      · rw [hrun, hempty]
      · rw [hcalls, hinvocations, if_pos hwork]
        rfl
      · rw [hcalls]
        exact nofun
  | false =>
      have hwork : d.work ≠ 0 := by simpa [Domain.isEmpty] using hempty
      have hall := (flatMap_indicesOf_calls h s hkernel hcomplete inputs outputs w hempty).2
      refine ⟨?_, ?_, nofun, fun _ => ⟨hall, Shape.nodup_indices _⟩,
        fun task _ => walks_agree h n task, fun c hc => ?_⟩
      · rw [hrun, hempty]
      · have hlength := KernelCall.length_flatMap_indicesOf fun c (hc : c ∈ calls) =>
          (invocation_of_mem_calls hc).2.1
        rw [← hlength, hall, Shape.length_indices, hinvocations, if_neg hwork]
      · obtain ⟨_, htask, scratch, hinvocation⟩ := invocation_of_mem_calls hc
        have hmem : c.index ∈ d.outer.indices :=
          (mem_map_index_calls h s hkernel hcomplete inputs outputs w hempty).mp (List.mem_map_of_mem hc)
        have hindex : d.outer.InBounds c.index := Shape.mem_indices.mp hmem
        refine ⟨htask, hmem, ⟨scratch, hinvocation⟩, fun row _ column _ => ?_⟩
        rw [hinvocation]
        exact ⟨Planner.sameAddress_elementsAt h hinputs scratch hindex _, fun hoffset hsmall =>
          Planner.elementsAt_eq h outputs hinputs hoffset hsmall (Nat.pos_of_ne_zero hwork) scratch hindex _⟩

/-- Two tasks with one outer index each, of which the second goes first. -/
theorem run_covers_domain_two_tasks :
    let p : Planner := ⟨1, 2⟩
    let i : Interface := ⟨[.dense .f32 [3], .dense .u8 [2, 1]], [.dense .f32 [2, 3]]⟩
    let plan : Plan :=
      { domain := ⟨[2, 3], [1, 1, 1, 1, 2, 3], 1, 6, 2⟩
        inputs := [⟨0, [0, 0, 0, 0, 0, 1], 4⟩, ⟨0, [0, 0, 0, 0, 1, 0], 1⟩]
        outputs := [⟨0, [0, 0, 0, 0, 3, 1], 4⟩] }
    let s : Scheduler := ⟨.withThreads .standard 2, 2, ⟨0⟩⟩
    let kernel : Kernel Nat := ⟨8, fun _ w => (.ok (), { w with user := w.user + 1 })⟩
    p.plan i = .ok plan ∧ kernel.NeverFails ∧
      (∀ tasks, Sweep.Complete tasks (Sweep.inOrder tasks).reverse) ∧
      (s.calls (fun tasks => (Sweep.inOrder tasks).reverse) kernel plan [none, some ⟨0⟩] [some ⟨1⟩]
        (World.addScratchpad (.empty 0)).2).length = 2 := by
  intro p i plan s kernel
  have hplan : p.plan i = .ok plan := by decide +kernel
  have hkernel : kernel.NeverFails := fun _ _ => rfl
  have hcomplete (tasks : List Task) : Sweep.Complete tasks (Sweep.inOrder tasks).reverse :=
    fun n t h => by rw [List.count_reverse]; exact Sweep.complete_inOrder tasks n t h
  refine ⟨hplan, hkernel, hcomplete, ?_⟩
  exact (run_covers_domain p i plan hplan s kernel hkernel _ hcomplete [none, some ⟨0⟩] [some ⟨1⟩] rfl rfl
    (World.addScratchpad (.empty 0)).2).2.1

end Scheduler

end TensorGraph
