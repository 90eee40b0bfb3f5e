import TensorGraph.Proofs.Coverage

/-! # What a run reports

A task stops at its first call that fails, or when it sees that the sweep was aborted.  A failure is noted
before the sweep is aborted, so that no task stops early without a noted failure: `Sweep.Accounts` ties the
calls made so far to where each task stands (`Task.Follows`), every turn keeps it (`accounts_step`), and at
the end either every task has made all its calls with success or the failure of some call is noted.

`run_reports_failures` says what that means for a run: it succeeds exactly when every outer index was
invoked once and every invocation succeeded. -/

namespace TensorGraph

variable {σ : Type}

/-! ### Tasks -/

namespace KernelCall

/-- The call succeeded. -/
def Succeeds (c : KernelCall) : Prop := c.outcome = .ok ()

/-- Calls for the first of some indices, in order, of which none but the last has failed. -/
structure Leads (calls : List KernelCall) (todo : List Index) : Prop where
  indices : calls.map (·.index) <+: todo
  succeed : ∀ c ∈ calls.dropLast, c.Succeeds

/-- Calls that succeed may be followed by one more call, for the next index, however it ends. -/
theorem leads_append {calls : List KernelCall} {c : KernelCall} {rest todo : List Index}
    (hall : ∀ d ∈ calls, d.Succeeds) (htodo : calls.map (·.index) ++ c.index :: rest = todo) :
    Leads (calls ++ [c]) todo where
  indices := by
    refine ⟨rest, ?_⟩
    rw [List.map_append, List.append_assoc]
    exact htodo
  succeed := by
    rw [List.dropLast_concat]
    exact hall

/-- Of such calls, the one that fails is the last. -/
theorem Leads.eq_append {calls : List KernelCall} {todo : List Index} (h : Leads calls todo)
    {c : KernelCall} (hc : c ∈ calls) {reason : String} (hfails : c.outcome = .error reason) :
    ∃ before, calls = before ++ [c] ∧ ∀ d ∈ before, d.Succeeds := by
  rcases List.eq_nil_or_concat' calls with rfl | ⟨before, last, rfl⟩
  · cases hc
  · have hbefore := h.succeed
    rw [List.dropLast_concat] at hbefore
    rcases List.mem_append.mp hc with hc | hc
    · cases (hbefore c hc).symm.trans hfails
    · exact ⟨before, by rw [List.mem_singleton.mp hc], hbefore⟩

end KernelCall

namespace Task

/-- Where a task stands that had to call for the indices `todo` and has made some calls.  As long as it goes
on, its calls have succeeded and are for all indices but those that are pending; it stops early only when a
failure has been noted. -/
structure Follows (todo : List Index) (calls : List KernelCall) (failure : Option String) (t : Task) :
    Prop where
  leads : KernelCall.Leads calls todo
  stands : match t.phase with
    | .looking | .calling =>
      (∀ c ∈ calls, c.Succeeds) ∧ calls.map (·.index) ++ t.pending = todo ∨
        t.pending = [] ∧ failure.isSome = true
    | .failing reason => ∃ c ∈ calls, c.outcome = .error reason
    | .aborting => failure.isSome = true

/-- Once a failure has been noted, one stays noted. -/
theorem Follows.mono {todo : List Index} {calls : List KernelCall} {failure failure' : Option String}
    {t : Task} (h : t.Follows todo calls failure) (hfailure : failure.isSome = true → failure'.isSome = true) :
    t.Follows todo calls failure' := by
  obtain ⟨pending, scratch, phase⟩ := t
  obtain ⟨hleads, hstands⟩ := h
  refine ⟨hleads, ?_⟩
  cases phase with
  | looking => exact hstands.imp_right (And.imp_right hfailure)
  | calling => exact hstands.imp_right (And.imp_right hfailure)
  | failing reason => exact hstands
  | aborting => exact hfailure hstands

theorem follows_ready (todo : List Index) (scratch : Option Region) (failure : Option String) :
    (ready todo scratch).Follows todo [] failure :=
  ⟨⟨List.nil_prefix, nofun⟩, .inl ⟨nofun, rfl⟩⟩

/-- A task with something pending that goes on has made its other calls, with success. -/
theorem Follows.underway {todo : List Index} {calls : List KernelCall} {failure : Option String}
    {index : Index} {rest : List Index} {scratch : Option Region} {phase : TaskPhase}
    (h : (⟨index :: rest, scratch, phase⟩ : Task).Follows todo calls failure)
    (hphase : phase = .looking ∨ phase = .calling) :
    (∀ c ∈ calls, c.Succeeds) ∧ calls.map (·.index) ++ index :: rest = todo := by
  have hstands := h.stands
  rcases hphase with rfl | rfl
  · exact hstands.resolve_right fun hstopped => List.cons_ne_nil _ _ hstopped.1
  · exact hstands.resolve_right fun hstopped => List.cons_ne_nil _ _ hstopped.1

/-- A task that has ended has made all its calls, with success, or a failure has been noted. -/
theorem Follows.ended {todo : List Index} {calls : List KernelCall} {failure : Option String} {t : Task}
    (h : t.Follows todo calls failure) (hdone : t.isDone = true) :
    (∀ c ∈ calls, c.Succeeds) ∧ calls.map (·.index) = todo ∨ failure.isSome = true := by
  obtain ⟨pending, scratch, phase⟩ := t
  obtain rfl := pending_of_isDone hdone
  have hstands := h.stands
  obtain rfl : phase = .looking := by simpa [isDone] using hdone
  rcases hstands with ⟨hall, htodo⟩ | ⟨_, hnoted⟩
  · rw [List.append_nil] at htodo
    exact .inl ⟨hall, htodo⟩
  · exact .inr hnoted

end Task

/-! ### Sweeps -/

namespace Sweep

variable {kernel : Kernel σ} {invoke : Option Region → Index → Invocation} {todo : Nat → List Index}
  {calls : List KernelCall}

/-- The calls made so far account for a sweep whose tasks had to call for the indices `todo`: nobody has
aborted it without noting a failure, what is noted is the failure of a call, and each task follows its
calls. -/
structure Accounts (todo : Nat → List Index) (calls : List KernelCall) (s : Sweep σ) : Prop where
  aborted : s.aborted = true → s.failure.isSome = true
  noted : ∀ reason, s.failure = some reason → ∃ c ∈ calls, c.outcome = .error reason
  tasks : ∀ n (t : Task), s.tasks[n]? = some t →
    t.Follows (todo n) (calls.filter (·.task = n)) s.failure

namespace Accounts

variable {s : Sweep σ} {turn : Nat} {t t' : Task}

/-- A turn without a call changes a task, and perhaps notes a failure or aborts the sweep. -/
theorem of_turn (h : s.Accounts todo calls) (hget : s.tasks[turn]? = some t) {aborted : Bool}
    {failure : Option String} (hfailure : s.failure.isSome = true → failure.isSome = true)
    (haborted : aborted = true → failure.isSome = true)
    (hnoted : ∀ reason, failure = some reason → ∃ c ∈ calls, c.outcome = .error reason)
    (ht' : t'.Follows (todo turn) (calls.filter (·.task = turn)) failure) :
    Accounts todo calls { s with tasks := s.tasks.set turn t', aborted := aborted, failure := failure } := by
  refine ⟨haborted, hnoted, fun n u hu => ?_⟩
  by_cases hn : turn = n
  · subst hn
    rw [List.getElem?_set_self (List.getElem?_eq_some_iff.mp hget).1] at hu
    exact Option.some.inj hu ▸ ht'
  · rw [List.getElem?_set_ne hn] at hu
    exact (h.tasks n u hu).mono hfailure

/-- A turn with a call changes a task and the world. -/
theorem of_call (h : s.Accounts todo calls) (hget : s.tasks[turn]? = some t) {c : KernelCall}
    (hc : c.task = turn)
    (ht' : t'.Follows (todo turn) (calls.filter (·.task = turn) ++ [c]) s.failure) (w : World σ) :
    Accounts todo (calls ++ [c]) { s with tasks := s.tasks.set turn t', world := w } := by
  refine ⟨h.aborted, fun reason hreason => ?_, fun n u hu => ?_⟩
  · obtain ⟨d, hd, hfails⟩ := h.noted reason hreason
    exact ⟨d, List.mem_append_left _ hd, hfails⟩
  · rw [List.filter_append]
    by_cases hn : turn = n
    · subst hn
      have hown : [c].filter (fun d => decide (d.task = turn)) = [c] := by simp [hc]
      rw [List.getElem?_set_self (List.getElem?_eq_some_iff.mp hget).1] at hu
      rw [hown]
      exact Option.some.inj hu ▸ ht'
    · have hother : [c].filter (fun d => decide (d.task = n)) = [] := by simp [hc, hn]
      rw [List.getElem?_set_ne hn] at hu
      rw [hother, List.append_nil]
      exact h.tasks n u hu

end Accounts

/-- Every turn leaves a sweep accounted for, by the calls before and its own. -/
theorem accounts_step {s : Sweep σ} (h : s.Accounts todo calls) (turn : Nat) :
    (s.step kernel invoke turn).Accounts todo (calls ++ (s.call? kernel invoke turn).toList) := by
  cases hget : s.tasks[turn]? with
  | none =>
      rw [step_of_none hget, call?, hget, Option.bind_none, Option.toList_none, List.append_nil]
      exact h
  | some t =>
      have ht := h.tasks turn t hget
      obtain ⟨pending, scratch, phase⟩ := t
      unfold step call?
      rw [hget, Option.bind_some]
      cases phase with
      | looking =>
          cases pending with
          | nil => simpa using h
          | cons index rest =>
              have hunderway := ht.underway (.inl rfl)
              simp only [Option.toList_none, List.append_nil]
              split
              · rename_i haborted
                have hnoted := h.aborted haborted
                exact h.of_turn hget id h.aborted h.noted ⟨ht.leads, .inr ⟨rfl, hnoted⟩⟩
              · exact h.of_turn hget id h.aborted h.noted ⟨ht.leads, .inl hunderway⟩
      | calling =>
          cases pending with
          | nil =>
              simp only [Option.toList_none, List.append_nil]
              exact h.of_turn hget id h.aborted h.noted ⟨ht.leads, ht.stands⟩
          | cons index rest =>
              obtain ⟨hall, htodo⟩ := ht.underway (.inr rfl)
              simp only [Option.toList_some]
              rcases hcall : kernel.call (invoke scratch index) s.world with ⟨reason | ⟨⟩, w⟩
              · let c : KernelCall := ⟨turn, index, invoke scratch index, .error reason⟩
                have hfollows : Task.Follows (todo turn) (calls.filter (·.task = turn) ++ [c]) s.failure
                    ⟨index :: rest, scratch, .failing reason⟩ :=
                  ⟨KernelCall.leads_append hall htodo, c, List.mem_append_right _ List.mem_cons_self, rfl⟩
                exact h.of_call hget rfl hfollows w
              · let c : KernelCall := ⟨turn, index, invoke scratch index, .ok ()⟩
                have hsucceed : ∀ d ∈ calls.filter (·.task = turn) ++ [c], d.Succeeds := by
                  intro d hd
                  rcases List.mem_append.mp hd with hd | hd
                  · exact hall d hd
                  · exact List.mem_singleton.mp hd ▸ rfl
                have hindices : (calls.filter (·.task = turn) ++ [c]).map (·.index) ++ rest = todo turn := by
                  rw [List.map_append, List.append_assoc]
                  exact htodo
                have hfollows : Task.Follows (todo turn) (calls.filter (·.task = turn) ++ [c]) s.failure
                    ⟨rest, scratch, .looking⟩ :=
                  ⟨KernelCall.leads_append hall htodo, .inl ⟨hsucceed, hindices⟩⟩
                exact h.of_call hget rfl hfollows w
      | failing reason =>
          -- The failure of the task's call is noted unless another one was, so that one is noted now.
          have hsome : (s.failure <|> some reason).isSome = true := by
            cases s.failure <;> rfl
          simp only [Option.toList_none, List.append_nil]
          refine h.of_turn hget (fun _ => hsome) (fun _ => hsome) (fun noted hnoted => ?_)
            ⟨ht.leads, hsome⟩
          cases hfailure : s.failure with
          | some old =>
              rw [hfailure] at hnoted
              exact h.noted noted (hfailure.trans hnoted)
          | none =>
              rw [hfailure] at hnoted
              obtain rfl : reason = noted := Option.some.inj hnoted
              obtain ⟨c, hc, hfails⟩ := ht.stands
              exact ⟨c, (List.mem_filter.mp hc).1, hfails⟩
      | aborting =>
          simp only [Option.toList_none, List.append_nil]
          exact h.of_turn hget id (fun _ => ht.stands) h.noted ⟨ht.leads, .inr ⟨rfl, ht.stands⟩⟩

/-- Along an interleaving, the calls account for the sweep. -/
theorem accounts_run {s : Sweep σ} (h : s.Accounts todo calls) (interleaving : List Nat) :
    (s.run kernel invoke interleaving).Accounts todo
      (calls ++ s.calls kernel invoke interleaving) := by
  induction interleaving generalizing s calls with
  | nil =>
      rw [Sweep.calls, List.append_nil]
      exact h
  | cons turn rest ih =>
      rw [Sweep.calls, ← List.append_assoc]
      exact ih (accounts_step h turn)

/-- When all tasks have ended and no failure is noted, each task has made all its calls, with success. -/
theorem Accounts.of_isDone {s : Sweep σ} (h : s.Accounts todo calls)
    (hdone : ∀ t ∈ s.tasks, t.isDone = true) (hnone : s.failure = none) {n : Nat}
    (hn : n < s.tasks.length) :
    (∀ c ∈ calls.filter (·.task = n), c.Succeeds) ∧ KernelCall.indicesOf calls n = todo n := by
  have hfollows := h.tasks n s.tasks[n] (List.getElem?_eq_getElem hn)
  refine (hfollows.ended (hdone _ (List.getElem_mem hn))).resolve_right ?_
  rw [hnone]
  exact Bool.false_ne_true

end Sweep

/-! ### Runs -/

namespace Domain

/-- The outer indices in the order of their numbers, one for each invocation. -/
def outerIndices (d : Domain) : List Index := (List.range d.invocations).map (Shape.unravel d.outer)

/-- A planned domain has its outer indices in row-major order, and none if it has no elements. -/
theorem outerIndices_of_plan {p : Planner} {i : Interface} {plan : Plan} (h : p.plan i = .ok plan) :
    plan.domain.outerIndices = if plan.domain.isEmpty then [] else plan.domain.outer.indices := by
  have hinvocations := (Planner.domain_of_plan h).2.2
  cases hempty : plan.domain.isEmpty with
  | true =>
      have hwork : plan.domain.work = 0 := by simpa [Domain.isEmpty] using hempty
      rw [outerIndices, hinvocations, if_pos hwork, if_pos rfl]
      rfl
  | false =>
      have hwork : plan.domain.work ≠ 0 := by simpa [Domain.isEmpty] using hempty
      rw [outerIndices, hinvocations, if_neg hwork, if_neg Bool.false_ne_true, Shape.indices_eq_map_unravel]

theorem nodup_outerIndices_of_plan {p : Planner} {i : Interface} {plan : Plan} (h : p.plan i = .ok plan) :
    plan.domain.outerIndices.Nodup := by
  rw [outerIndices_of_plan h]
  split
  · exact List.nodup_nil
  · exact Shape.nodup_indices _

end Domain

namespace Scheduler

variable {p : Planner} {i : Interface} {plan : Plan}

/-- The sweep of a run at its end. -/
def closing (s : Scheduler) (interleaving : List Task → List Nat) (kernel : Kernel σ) (plan : Plan)
    (inputs outputs : List (Option BufferId)) (w : World σ) : Sweep σ :=
  (s.opening kernel plan w).run kernel (plan.invocation inputs outputs)
    (interleaving (s.opening kernel plan w).tasks)

theorem length_tasks_closing (s : Scheduler) (interleaving : List Task → List Nat) (kernel : Kernel σ)
    (plan : Plan) (inputs outputs : List (Option BufferId)) (w : World σ) :
    (s.closing interleaving kernel plan inputs outputs w).tasks.length = s.taskCount plan.domain := by
  rw [closing, Sweep.length_tasks_run]
  simp [opening, tasks]

theorem isDone_closing (s : Scheduler) {interleaving : List Task → List Nat}
    (hcomplete : ∀ tasks, Sweep.Complete tasks (interleaving tasks)) (kernel : Kernel σ) (plan : Plan)
    (inputs outputs : List (Option BufferId)) (w : World σ) :
    ∀ t ∈ (s.closing interleaving kernel plan inputs outputs w).tasks, t.isDone = true :=
  Sweep.isDone_of_complete (s.healthy_opening kernel plan w).2 (hcomplete _)

/-- At the end of a run, its calls account for what is noted. -/
theorem accounts_closing (s : Scheduler) (interleaving : List Task → List Nat) (kernel : Kernel σ)
    (inputs outputs : List (Option BufferId)) (w : World σ) (hempty : plan.domain.isEmpty = false) :
    (s.closing interleaving kernel plan inputs outputs w).Accounts
      (plan.domain.taskIndices (s.taskCount plan.domain))
      (s.calls interleaving kernel plan inputs outputs w) := by
  have hopening : (s.opening kernel plan w).Accounts
      (plan.domain.taskIndices (s.taskCount plan.domain)) [] := by
    refine ⟨nofun, nofun, fun n t ht => ?_⟩
    obtain ⟨_, scratch, rfl⟩ := s.tasks_opening kernel plan w ht
    exact Task.follows_ready _ _ _
  rw [s.calls_of_not_isEmpty interleaving kernel hempty, ← List.nil_append (Sweep.calls _ _ _ _)]
  exact Sweep.accounts_run hopening _

/-- With the right numbers of buffers, a run over a domain with elements reports what its sweep has noted. -/
theorem outcome_runAlong_closing (s : Scheduler) (interleaving : List Task → List Nat) (kernel : Kernel σ)
    {inputs outputs : List (Option BufferId)} (hinputs : inputs.length = plan.inputs.length)
    (houtputs : outputs.length = plan.outputs.length) (w : World σ) (hempty : plan.domain.isEmpty = false) :
    ((s.runAlong interleaving kernel plan inputs outputs).outcome w).1
      = ((s.closing interleaving kernel plan inputs outputs w).failure.map Error.kernelFailed).elim
          (.ok ()) .error := by
  rw [s.outcome_runAlong interleaving kernel hinputs houtputs, hempty]
  rfl

/-- A run has invoked the kernel for all outer indices, with success, or it reports the failure of one of
its invocations. -/
theorem outcome_cases (h : p.plan i = .ok plan) (s : Scheduler) (kernel : Kernel σ)
    {interleaving : List Task → List Nat}
    (hcomplete : ∀ tasks, Sweep.Complete tasks (interleaving tasks))
    {inputs outputs : List (Option BufferId)} (hinputs : inputs.length = plan.inputs.length)
    (houtputs : outputs.length = plan.outputs.length) (w : World σ) :
    let calls := s.calls interleaving kernel plan inputs outputs w
    let outcome := ((s.runAlong interleaving kernel plan inputs outputs).outcome w).1
    outcome = .ok () ∧ (calls.map (·.index)).Perm plan.domain.outerIndices ∧ (∀ c ∈ calls, c.Succeeds) ∨
      ∃ c ∈ calls, ∃ reason, c.outcome = .error reason ∧ outcome = .error (.kernelFailed reason) := by
  intro calls outcome
  rw [Domain.outerIndices_of_plan h]
  cases hempty : plan.domain.isEmpty with
  | true =>
      have hcalls : calls = [] := s.calls_of_isEmpty interleaving kernel hempty _ _ _
      have hok : outcome = .ok () := by
        show ((s.runAlong interleaving kernel plan inputs outputs).outcome w).1 = _
        rw [s.outcome_runAlong interleaving kernel hinputs houtputs, if_pos hempty]
      rw [hcalls]
      exact .inl ⟨hok, .refl _, nofun⟩
  | false =>
      have houtcome : outcome = _ := s.outcome_runAlong_closing interleaving kernel hinputs houtputs w hempty
      have hlength := s.length_tasks_closing interleaving kernel plan inputs outputs w
      have htask : ∀ c ∈ calls, c.task < s.taskCount plan.domain :=
        fun c hc => (invocation_of_mem_calls hc).2.1
      have haccounts := s.accounts_closing interleaving kernel inputs outputs w hempty
      cases hfailure : (s.closing interleaving kernel plan inputs outputs w).failure with
      | none =>
          have hmade (n : Nat) (hn : n < s.taskCount plan.domain) :=
            haccounts.of_isDone (s.isDone_closing hcomplete kernel plan inputs outputs w) hfailure
              (hlength ▸ hn)
          have hall : (List.range (s.taskCount plan.domain)).flatMap (KernelCall.indicesOf calls)
              = plan.domain.outer.indices := by
            rw [← s.flatMap_taskIndices_of_plan h hempty]
            exact List.flatMap_congr fun n hn => (hmade n (List.mem_range.mp hn)).2
          have hok : outcome = .ok () := by
            rw [houtcome, hfailure]
            rfl
          refine .inl ⟨hok, hall ▸ (KernelCall.flatMap_indicesOf_perm htask).symm, fun c hc => ?_⟩
          exact (hmade c.task (htask c hc)).1 c (List.mem_filter.mpr ⟨hc, decide_eq_true rfl⟩)
      | some reason =>
          have herror : outcome = .error (.kernelFailed reason) := by
            rw [houtcome, hfailure]
            rfl
          obtain ⟨c, hc, hfails⟩ := haccounts.noted reason hfailure
          exact .inr ⟨c, hc, reason, hfails, herror⟩

/-- A single task makes its calls in row-major order and stops after the first one that fails. -/
theorem leads_of_single (h : p.plan i = .ok plan) (s : Scheduler) (interleaving : List Task → List Nat)
    (kernel : Kernel σ) (inputs outputs : List (Option BufferId)) (w : World σ)
    (hsingle : s.taskCount plan.domain = 1) :
    KernelCall.Leads (s.calls interleaving kernel plan inputs outputs w) plan.domain.outerIndices := by
  rw [Domain.outerIndices_of_plan h]
  cases hempty : plan.domain.isEmpty with
  | true =>
      rw [s.calls_of_isEmpty interleaving kernel hempty]
      exact ⟨List.nil_prefix, nofun⟩
  | false =>
      have hlength := s.length_tasks_closing interleaving kernel plan inputs outputs w
      have haccounts := s.accounts_closing interleaving kernel inputs outputs w hempty
      have hfollows := haccounts.tasks 0 _ (List.getElem?_eq_getElem (by omega))
      have hcalls : (s.calls interleaving kernel plan inputs outputs w).filter (·.task = 0)
          = s.calls interleaving kernel plan inputs outputs w := by
        refine List.filter_eq_self.mpr fun c hc => decide_eq_true ?_
        have htask := (invocation_of_mem_calls hc).2.1
        omega
      have htodo := s.flatMap_taskIndices_of_plan h hempty
      rw [hsingle, List.range_one, List.flatMap_singleton] at htodo
      have hleads := hfollows.leads
      rwa [hcalls, hsingle, htodo] at hleads

/-- Every call is for one of the outer indices. -/
theorem map_index_calls_subset (h : p.plan i = .ok plan) (s : Scheduler)
    (interleaving : List Task → List Nat) (kernel : Kernel σ) (inputs outputs : List (Option BufferId))
    (w : World σ) : (s.calls interleaving kernel plan inputs outputs w).map (·.index)
      ⊆ plan.domain.outerIndices := by
  intro index hindex
  obtain ⟨c, hc, rfl⟩ := List.mem_map.mp hindex
  rw [Domain.outerIndices_of_plan h, if_neg (by simp [(invocation_of_mem_calls hc).1])]
  exact Shape.mem_indices.mpr (index_of_mem_calls h hc)

/-- **A run reports failures.**  Along every interleaving that gives each task enough turns, a run
succeeds exactly if every outer index was invoked once and every invocation succeeded; otherwise it
reports the failure of one of its invocations.  The invocations of a single task are for the outer
indices in row-major order, all of them or those up to the first one whose invocation failed, and then
this failure is reported.  A domain without elements has no outer indices. -/
theorem run_reports_failures (p : Planner) (i : Interface) (plan : Plan) (h : p.plan i = .ok plan)
    (s : Scheduler) (kernel : Kernel σ) (interleaving : List Task → List Nat)
    (hcomplete : ∀ tasks, Sweep.Complete tasks (interleaving tasks))
    (inputs outputs : List (Option BufferId)) (hinputs : inputs.length = plan.inputs.length)
    (houtputs : outputs.length = plan.outputs.length) (w : World σ) :
    let d := plan.domain
    let calls := s.calls interleaving kernel plan inputs outputs w
    let invoked := calls.map (·.index)
    let outcome := ((s.runAlong interleaving kernel plan inputs outputs).outcome w).1
    d.outerIndices = (if d.isEmpty then [] else d.outer.indices) ∧ invoked ⊆ d.outerIndices ∧
      (outcome = .ok () ↔
        (∀ index ∈ d.outerIndices, invoked.count index = 1) ∧ ∀ c ∈ calls, c.Succeeds) ∧
      (outcome ≠ .ok () →
        ∃ c ∈ calls, ∃ reason, c.outcome = .error reason ∧ outcome = .error (.kernelFailed reason)) ∧
      (s.taskCount d = 1 →
        outcome = .ok () ∧ invoked = d.outerIndices ∧ (∀ c ∈ calls, c.Succeeds) ∨
          ∃ before last reason, calls = before ++ [last] ∧ invoked <+: d.outerIndices ∧
            (∀ c ∈ before, c.Succeeds) ∧ last.outcome = .error reason ∧
            outcome = .error (.kernelFailed reason)) := by
  intro d calls invoked outcome
  refine ⟨Domain.outerIndices_of_plan h, map_index_calls_subset h s interleaving kernel inputs outputs w, ?_⟩
  have hleads := fun hsingle => s.leads_of_single h interleaving kernel inputs outputs w hsingle
  rcases outcome_cases h s kernel hcomplete hinputs houtputs w with
    ⟨hok, hinvoked, hcalls⟩ | ⟨c, hc, reason, hfails, herror⟩
  · refine ⟨⟨fun _ => ⟨fun index hindex => ?_, hcalls⟩, fun _ => hok⟩, fun hne => absurd hok hne,
      fun hsingle => .inl ⟨hok, ?_, hcalls⟩⟩
    · exact (hinvoked.count_eq index).trans
        (List.count_eq_one_of_mem (Domain.nodup_outerIndices_of_plan h) hindex)
    · exact (hleads hsingle).indices.eq_of_length hinvoked.length_eq
  · refine ⟨⟨fun hok => ?_, fun hsound => ?_⟩, fun _ => ⟨c, hc, reason, hfails, herror⟩,
      fun hsingle => .inr ?_⟩
    · cases herror.symm.trans hok
    · cases (hsound.2 c hc).symm.trans hfails
    · obtain ⟨before, hbefore, hsucceed⟩ := (hleads hsingle).eq_append hc hfails
      exact ⟨before, c, reason, hbefore, (hleads hsingle).indices, hsucceed, hfails, herror⟩

/-- Two tasks that take turns, of which the second fails at its only call. -/
theorem run_reports_failures_second_task :
    let p : Planner := ⟨1, 2⟩
    let i : Interface := ⟨[.dense .f32 [3], .dense .u8 [2, 1]], [.dense .f32 [2, 3]]⟩
    let plan : Plan :=
      { domain := ⟨[2, 3], [1, 1, 1, 1, 2, 3], 1, 6, 2⟩
        inputs := [⟨0, [0, 0, 0, 0, 0, 1], 4⟩, ⟨0, [0, 0, 0, 0, 1, 0], 1⟩]
        outputs := [⟨0, [0, 0, 0, 0, 3, 1], 4⟩] }
    let s : Scheduler := ⟨.withThreads .standard 2, 2, ⟨0⟩⟩
    let kernel : Kernel Nat := ⟨8, fun invocation w =>
      (if invocation.outerIndex = [0, 0, 0, 0, 1] then .error "odd" else .ok (), w)⟩
    let w : World Nat := (World.addScratchpad (.empty 0)).2
    let interleaving (tasks : List Task) := (Sweep.inOrder tasks).reverse
    p.plan i = .ok plan ∧ (∀ tasks, Sweep.Complete tasks (interleaving tasks)) ∧
      ((s.runAlong interleaving kernel plan [none, some ⟨0⟩] [some ⟨1⟩]).outcome w).1
        = .error (.kernelFailed "odd") ∧
      ∃ c ∈ s.calls interleaving kernel plan [none, some ⟨0⟩] [some ⟨1⟩] w, c.outcome = .error "odd" := by
  intro p i plan s kernel w interleaving
  have hplan : p.plan i = .ok plan := by decide +kernel
  have hcomplete (tasks : List Task) : Sweep.Complete tasks (interleaving tasks) :=
    fun n t h => by rw [List.count_reverse]; exact Sweep.complete_inOrder tasks n t h
  have hfails : ((s.runAlong interleaving kernel plan [none, some ⟨0⟩] [some ⟨1⟩]).outcome w).1
      = .error (.kernelFailed "odd") := by decide +kernel
  obtain ⟨c, hc, reason, hreason, heq⟩ := (run_reports_failures p i plan hplan s kernel interleaving
    hcomplete [none, some ⟨0⟩] [some ⟨1⟩] rfl rfl w).2.2.2.1 (by rw [hfails]; nofun)
  cases hfails.symm.trans heq
  exact ⟨hplan, hcomplete, hfails, c, hc, hreason⟩

end Scheduler

end TensorGraph
