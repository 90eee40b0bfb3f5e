import TensorGraph.Execution.Fused
import TensorGraph.Proofs.Computing
import TensorGraph.Proofs.Refinement

/-! # What fused operators come to

A fused operator that has been evaluated any number of times, with any kernels or none and with whatever
outcome, is steady (`Reached.steady`): the tensors that are held are allocated, nobody has asked its
interpreter to cancel, and the plan that it keeps is the one that its planner makes for the interface it
is kept for.  A kept plan can therefore not be told from a new one (`outcome_planFor`), and the operator
does in every call what it would do in its first.

The tasks of a kernel may take turns in any order, along an interleaving (`evaluateAlong`); evaluating runs
one task after the other (`evaluate_eq`). -/

namespace TensorGraph

variable {σ : Type}

/-! ### Kept plans -/

namespace PlanCache

variable {c : PlanCache} {p : Planner} {i : Interface}

/-- The kept plan is the one that a planner makes. -/
def Valid (c : PlanCache) (p : Planner) : Prop :=
  ∀ entry, c.entry = some entry → p.plan entry.interface = .ok entry.plan

theorem valid_empty (p : Planner) : empty.Valid p := nofun

/-- What is fetched from a valid cache is what the planner makes, and the cache stays valid. -/
theorem Valid.fetch (h : c.Valid p) (i : Interface) :
    match p.plan i with
    | .ok plan => ∃ entry c', c.fetch p i = .ok (entry, c') ∧ entry.plan = plan ∧ c'.Valid p
    | .error error => c.fetch p i = .error error := by
  unfold PlanCache.fetch
  cases hfind : c.find? i with
  | some entry =>
      obtain ⟨hentry, hinterface⟩ := Option.filter_eq_some_iff.mp hfind
      have hplan := h entry hentry
      rw [of_decide_eq_true hinterface] at hplan
      rw [hplan]
      exact ⟨entry, c, rfl, rfl, h⟩
  | none =>
      cases hplan : p.plan i with
      | error error => rfl
      | ok plan =>
          refine ⟨_, _, rfl, rfl, fun entry hentry => ?_⟩
          obtain rfl := Option.some.inj hentry
          exact hplan

end PlanCache

/-! ### Resized outputs -/

/-- A tensor of known shape has the bytes that it needs. -/
def Tensor.Complete (t : Tensor) (s : Store) : Prop :=
  ∀ shape, t.shape = some shape → (t.bytes s).size = shape.size * t.dtype.size

instance (t : Tensor) (s : Store) : Decidable (t.Complete s) :=
  inferInstanceAs (Decidable (∀ shape ∈ t.shape, (t.bytes s).size = shape.size * t.dtype.size))

theorem Tensor.complete_resize {t : Tensor} {s : Store} (h : t.Complete s) (shape : Shape) :
    (t.resize shape s).1.Complete (t.resize shape s).2 := by
  rcases t.resize_cases shape s with ⟨_, hresize⟩ | hresize
  · rw [hresize]
    exact h
  · rw [hresize]
    rintro _ hshape
    obtain rfl := Option.some.inj hshape
    rw [bytes_zeros, Array.size_replicate]
    rfl

/-- A tensor whose buffer is not written stays complete. -/
theorem Tensor.Complete.within {t : Tensor} {s s' : Store} (h : t.Complete s)
    (hs : s.Within (fun _ => False) s') (ht : s.Allocated t.buffer) : t.Complete s' := by
  intro shape hshape
  rw [Tensor.bytes, hs.keeps _ ht not_false]
  exact h shape hshape

namespace FusedOperator

theorem resizeAll_cons (shape : Shape) (t : Tensor) (ts : List Tensor) (s : Store) :
    resizeAll shape (t :: ts) s = ((t.resize shape s).1 :: (resizeAll shape ts (t.resize shape s).2).1,
      (resizeAll shape ts (t.resize shape s).2).2) := rfl

theorem length_resizeAll (shape : Shape) (ts : List Tensor) (s : Store) :
    (resizeAll shape ts s).1.length = ts.length := by
  induction ts generalizing s with
  | nil => rfl
  | cons t ts ih => rw [resizeAll_cons, List.length_cons, List.length_cons, ih]

theorem shape_of_mem_resizeAll {shape : Shape} {ts : List Tensor} {s : Store} {u : Tensor}
    (hu : u ∈ (resizeAll shape ts s).1) : u.shape = some shape := by
  induction ts generalizing s with
  | nil => exact (List.not_mem_nil hu).elim
  | cons t ts ih =>
      rcases List.mem_cons.mp hu with rfl | hu
      · exact t.shape_resize shape s
      · exact ih hu

/-- Resizing writes into no buffer that there was. -/
theorem within_resizeAll (shape : Shape) (ts : List Tensor) (s : Store) :
    s.Within (fun _ => False) (resizeAll shape ts s).2 := by
  induction ts generalizing s with
  | nil => exact .refl _ s
  | cons t ts ih => exact (t.within_resize _ shape s).trans (ih _) fun _ _ => id

/-- Resizing writes into no buffer that there was, and makes for each tensor one of the same element type
with the shape: the tensor itself, or a new one. -/
theorem resizeAll_spec (shape : Shape) {ts : List Tensor} {s : Store} (hts : s.Holds ts) :
    s.Within (fun _ => False) (resizeAll shape ts s).2 ∧
      List.Forall₂ (fun t u => u.dtype = t.dtype ∧ u.shape = some shape ∧
          (resizeAll shape ts s).2.Allocated u.buffer ∧
          (u = t ∨ s.IsNew (resizeAll shape ts s).2 u) ∧
          (t.Complete s → u.Complete (resizeAll shape ts s).2)) ts (resizeAll shape ts s).1 := by
  induction ts generalizing s with
  | nil => exact ⟨.refl _ s, .nil⟩
  | cons t ts ih =>
      obtain ⟨ht, hts⟩ := List.forall_mem_cons.mp hts
      have hfirst := t.within_resize (fun _ => False) shape s
      have hallocated : (t.resize shape s).2.Allocated (t.resize shape s).1.buffer := by
        rcases t.resize_eq_or_isNew shape s with hsame | hnew
        · rw [hsame]
          exact hfirst.grows _ ht
        · exact hnew.2
      obtain ⟨hrest, hmade⟩ := ih (s := (t.resize shape s).2) fun u hu => hfirst.grows _ (hts u hu)
      refine ⟨within_resizeAll shape (t :: ts) s, .cons ⟨t.dtype_resize shape s, t.shape_resize shape s,
        hrest.grows _ hallocated, ?_, fun hcomplete => ?_⟩ ?_⟩
      · exact (t.resize_eq_or_isNew shape s).imp id fun hnew => hnew.of_earlier hrest
      · exact (t.complete_resize hcomplete shape).within hrest hallocated
      · refine (List.forall₂_iff_get.mpr ⟨hmade.length_eq, fun n hn hn' => ?_⟩)
        have hold : s.Allocated (ts.get ⟨n, hn⟩).buffer := hts _ (List.get_mem ts ⟨n, hn⟩)
        obtain ⟨hdtype, hshape, halloc, hsource, hcomplete⟩ := hmade.get hn hn'
        exact ⟨hdtype, hshape, halloc, hsource.imp id fun hnew => hnew.of_later hfirst,
          fun h => hcomplete (h.within hfirst hold)⟩

/-- What resizing makes is allocated, and each is one of the tensors themselves or new. -/
theorem mem_resizeAll (shape : Shape) {ts : List Tensor} {s : Store} (hts : s.Holds ts) {u : Tensor}
    (hu : u ∈ (resizeAll shape ts s).1) : (resizeAll shape ts s).2.Allocated u.buffer ∧
      (u ∈ ts ∨ s.IsNew (resizeAll shape ts s).2 u) := by
  obtain ⟨-, hmade⟩ := resizeAll_spec shape hts
  obtain ⟨n, hn, rfl⟩ := List.mem_iff_getElem.mp hu
  obtain ⟨-, -, hallocated, hsource, -⟩ := hmade.get (hmade.length_eq ▸ hn) hn
  exact ⟨hallocated, hsource.imp (fun hsame => List.mem_of_getElem hsame.symm) id⟩

/-- Tensors in buffers of their own are in buffers of their own after they were resized. -/
theorem nodup_resizeAll (shape : Shape) {ts : List Tensor} {s : Store} (hts : s.Holds ts)
    (honce : (ts.map (·.buffer)).Nodup) : ((resizeAll shape ts s).1.map (·.buffer)).Nodup := by
  induction ts generalizing s with
  | nil => exact List.nodup_nil
  | cons t ts ih =>
      obtain ⟨ht, hts⟩ := List.forall_mem_cons.mp hts
      obtain ⟨hne, honce⟩ := List.nodup_cons.mp honce
      have hfirst := t.within_resize (fun _ => False) shape s
      have hheld : (t.resize shape s).2.Holds ts := fun u hu => hfirst.grows _ (hts u hu)
      have hmade := (resizeAll_spec shape hheld).2
      rw [resizeAll_cons, List.map_cons]
      refine List.nodup_cons.mpr ⟨fun hmem => ?_, ih hheld honce⟩
      obtain ⟨u, hu, hbuffer⟩ := List.mem_map.mp hmem
      obtain ⟨n, hn, rfl⟩ := List.mem_iff_getElem.mp hu
      have hn' : n < ts.length := hmade.length_eq ▸ hn
      have hsource := (hmade.get hn' hn).2.2.2.1
      simp only [List.get_eq_getElem] at hsource
      have hold := hts _ (List.getElem_mem hn')
      -- Of the two buffers at most one was there before, and if both were they differ.
      rcases hsource with hsame | hnew
      · rw [hsame] at hbuffer
        rcases t.resize_eq_or_isNew shape s with hfirst' | hfirst'
        · rw [hfirst'] at hbuffer
          exact hne (List.mem_map.mpr ⟨_, List.getElem_mem hn', hbuffer⟩)
        · exact hfirst'.1 (hbuffer ▸ hold)
      · refine hnew.1 (hbuffer ▸ ?_)
        rcases t.resize_eq_or_isNew shape s with hfirst' | hfirst'
        · rw [hfirst']
          exact hfirst.grows _ ht
        · exact hfirst'.2

/-! ### Evaluating along an interleaving -/

/-- Evaluates the operator as `evaluate` does, but with the tasks of its kernel taking turns along an
interleaving. -/
def evaluateAlong (f : FusedOperator σ) (interleaving : List Task → List Nat) (_ : Operation)
    (outputs inputs : List Tensor) (c : Context) : Run σ (List Tensor) := do
  Executor.checkOperands f.body outputs inputs
  let shape ← commonShape inputs
  let outputs ← Run.onStore (resizeAll shape outputs)
  match f.kernel with
  | some kernel =>
    let sweep : Run σ Unit := do
      let plan ← f.planFor inputs outputs
      let buffers (tensors : List Tensor) : List (Option BufferId) := tensors.map (some ·.buffer)
      f.scheduler.runAlong interleaving kernel plan (buffers inputs) (buffers outputs)
    sweep
    return outputs
  | none => f.interpret outputs inputs c

variable {f : FusedOperator σ} {w w' : World σ} {outputs inputs : List Tensor}
  {interleaving : List Task → List Nat}

theorem evaluate_eq (f : FusedOperator σ) : f.evaluate = f.evaluateAlong Sweep.inOrder := rfl

/-- What is interpreted is what the interpreter leaves in its slots. -/
theorem outcome_interpret (f : FusedOperator σ) (outputs inputs : List Tensor) (c : Context) (w : World σ) :
    (f.interpret outputs inputs c).outcome w = match (f.interpreter.execute outputs inputs c false).outcome w with
      | (.ok (.completed, slots), w') => (.ok slots, w')
      | (.ok (.cancelled, _), w') => (.error (.internal "subgraph body was cancelled"), w')
      | (.error error, w') => (.error error, w') := by
  unfold interpret
  rw [Run.outcome_bind]
  rcases (f.interpreter.execute outputs inputs c false).outcome w with ⟨_ | ⟨_ | _, _⟩, _⟩ <;> rfl

/-- Operands that pass the checks are planned for, or handed to the body, with resized outputs. -/
theorem outcome_evaluateAlong (hcheck : Executor.checkOperands f.body outputs inputs = .ok ())
    {shape : Shape} (hshape : commonShape inputs = .ok shape) (operation : Operation) (c : Context) :
    (f.evaluateAlong interleaving operation outputs inputs c).outcome w =
      let (made, s) := resizeAll shape outputs w.store
      (match f.kernel with
        | some kernel => do
          let plan ← f.planFor inputs made
          f.scheduler.runAlong interleaving kernel plan (inputs.map (some ·.buffer))
            (made.map (some ·.buffer))
          return made
        | none => f.interpret made inputs c : Run σ (List Tensor)).outcome { w with store := s } := by
  unfold evaluateAlong
  rw [hcheck, hshape]
  cases f.kernel with
  | none => rfl
  | some kernel =>
      simp only [bind_assoc]
      rfl

/-! ### Histories -/

/-- What is the same in every call: what is held is allocated, nobody has asked the interpreter to cancel,
and the kept plan is the one that the planner makes. -/
structure Steady (f : FusedOperator σ) (w : World σ) : Prop where
  sound : w.Sound
  idle : w.cancelRequested f.interpreter.cancel = false
  planned : (w.planCaches.get f.plans).Valid f.planner

/-- What may happen to the world apart from the evaluations of an operator: the caller makes tensors, writes
into them and drops them, and other operators and executors are called. -/
structure Elsewhere (f : FusedOperator σ) (w w' : World σ) : Prop where
  sound : w'.Sound
  requests : w'.cancelRequested f.interpreter.cancel = true →
    w.cancelRequested f.interpreter.cancel = true
  plans : w'.planCaches.get f.plans = w.planCaches.get f.plans

theorem Steady.elsewhere (h : f.Steady w) (hw : f.Elsewhere w w') : f.Steady w' where
  sound := hw.sound
  idle := Bool.eq_false_iff.mpr fun hrequested => Bool.eq_false_iff.mp h.idle (hw.requests hrequested)
  planned := hw.plans.symm ▸ h.planned

/-- Making tensors. -/
theorem elsewhere_of_within (hw : w.Sound) {s : Store} (h : w.store.Within (fun _ => False) s) :
    f.Elsewhere w { w with store := s } :=
  ⟨(World.Reaches.of_store h).sound hw, id, rfl⟩

theorem elsewhere_alloc (hw : w.Sound) (content : Bytes) :
    f.Elsewhere w { w with store := (w.store.alloc content).2 } :=
  elsewhere_of_within hw (Store.within_alloc _ w.store content)

theorem elsewhere_zeros (hw : w.Sound) (dtype : DType) (shape : Shape) :
    f.Elsewhere w { w with store := (Tensor.zeros dtype shape w.store).2 } :=
  elsewhere_of_within hw (Tensor.within_zeros _ dtype shape w.store)

/-- The operator with another kernel, or with none. -/
def withKernel (f : FusedOperator σ) (kernel : Option (Kernel σ)) : FusedOperator σ :=
  { f with kernel := kernel }

theorem Steady.withKernel (h : f.Steady w) (kernel : Option (Kernel σ)) : (f.withKernel kernel).Steady w :=
  ⟨h.sound, h.idle, h.planned⟩

/-- In a steady world the plan for some tensors is what the planner makes for their interface, whether it
was kept or not. -/
theorem Steady.outcome_planFor (h : f.Steady w) (inputs outputs : List Tensor) :
    match Interface.ofTensors inputs outputs >>= f.planner.plan with
    | .ok plan => ∃ plans, plans.Valid f.planner ∧ (f.planFor inputs outputs).outcome w
        = (.ok plan, { w with planCaches := w.planCaches.put f.plans plans })
    | .error error => (f.planFor inputs outputs).outcome w = (.error error, w) := by
  unfold planFor
  cases hinterface : Interface.ofTensors inputs outputs with
  | error error => rfl
  | ok i =>
      have hfetch := h.planned.fetch i
      rw [ok_bind, Run.outcome_bind_ok (Run.outcome_lift w _),
        Run.outcome_bind_ok (Run.outcome_get w)]
      cases hplan : f.planner.plan i with
      | error error =>
          simp only [hplan] at hfetch
          rw [hfetch]
          rfl
      | ok plan =>
          simp only [hplan] at hfetch
          obtain ⟨entry, plans, hfetch, rfl, hvalid⟩ := hfetch
          rw [hfetch]
          exact ⟨plans, hvalid, rfl⟩

theorem Steady.congr (h : f.Steady w) (hgrows : ∀ b, w.store.Allocated b → w'.store.Allocated b)
    (hvariables : w'.variables = w.variables) (hmemories : w'.memories = w.memories)
    (hcancel : w'.cancelFlags = w.cancelFlags)
    (hplanned : (w'.planCaches.get f.plans).Valid f.planner) : f.Steady w' where
  sound := by
    refine ⟨fun r id t ht => ?_, fun r t ht => ?_⟩
    · rw [hvariables] at ht
      exact hgrows _ (h.sound.values r id t ht)
    · rw [hmemories] at ht
      exact hgrows _ (h.sound.memories r t ht)
  idle := by
    rw [World.cancelRequested, hcancel]
    exact h.idle
  planned := hplanned

theorem Steady.onResized (h : f.Steady w) (shape : Shape) (ts : List Tensor) :
    f.Steady { w with store := (resizeAll shape ts w.store).2 } :=
  h.congr (within_resizeAll shape ts w.store).grows rfl rfl rfl h.planned

/-- A run of a kernel leaves the world steady. -/
theorem Steady.runAlong (h : f.Steady w) {kernel : Kernel σ} (hkernel : kernel.Confined) (plan : Plan)
    (ins outs : List (Option BufferId)) :
    f.Steady ((f.scheduler.runAlong interleaving kernel plan ins outs).outcome w).2 := by
  obtain ⟨calls, pads, hworld⟩ := f.scheduler.world_runAlong interleaving kernel plan ins outs w
  obtain ⟨s, user, hafter, hgrows⟩ := hkernel.after calls { w with scratchpads := pads }
  rw [hworld, hafter]
  exact h.congr hgrows rfl rfl rfl h.planned

theorem Steady.planFor (h : f.Steady w) (inputs outputs : List Tensor) :
    f.Steady ((f.planFor inputs outputs).outcome w).2 := by
  have hplan := h.outcome_planFor inputs outputs
  split at hplan
  · obtain ⟨plans, hvalid, houtcome⟩ := hplan
    rw [houtcome]
    refine h.congr (fun _ hb => hb) rfl rfl rfl ?_
    show ((w.planCaches.put f.plans plans).get f.plans).Valid f.planner
    rw [Table.get_put]
    split
    · exact hvalid
    · exact h.planned
  · rw [hplan]
    exact h

theorem Steady.interpret (h : f.Steady w) (hkeeps : f.interpreter.KeepsNodes)
    (houtputs : w.store.Holds outputs) (hinputs : w.store.Holds inputs) (c : Context) :
    f.Steady ((f.interpret outputs inputs c).outcome w).2 := by
  have hexecute := Executor.keeps_executeNodes hkeeps (List.Subset.refl _)
    (List.subset_append_left outputs inputs) (List.subset_append_right outputs inputs) c false w h.sound
    fun t ht => (List.mem_append.mp ht).elim (houtputs t) (hinputs t)
  have hworld : ((f.interpret outputs inputs c).outcome w).2
      = ((f.interpreter.execute outputs inputs c false).outcome w).2 := by
    rw [outcome_interpret]
    rcases (f.interpreter.execute outputs inputs c false).outcome w with ⟨_ | ⟨_ | _, _⟩, _⟩ <;> rfl
  rw [hworld, Executor.execute_eq]
  obtain ⟨hsound, hcontinues, _⟩ := hexecute
  exact h.elsewhere ⟨hsound, hcontinues.requests _, congrArg (·.get f.plans) hcontinues.plans⟩

theorem steady_bind {α β : Type} {m : Run σ α} {k : α → Run σ β} (hm : f.Steady (m.outcome w).2)
    (hk : ∀ a w', m.outcome w = (.ok a, w') → f.Steady w' → f.Steady ((k a).outcome w').2) :
    f.Steady ((m >>= k).outcome w).2 := by
  rw [Run.outcome_bind]
  rcases houtcome : m.outcome w with ⟨error | a, w'⟩
  · rw [houtcome] at hm
    exact hm
  · rw [houtcome] at hm
    exact hk a w' houtcome hm

/-- An evaluation leaves the world steady, however it ends. -/
theorem Steady.evaluateAlong (h : f.Steady w) (hkeeps : f.interpreter.KeepsNodes)
    (hkernel : ∀ kernel, f.kernel = some kernel → kernel.Confined) (interleaving : List Task → List Nat)
    (operation : Operation) (houtputs : w.store.Holds outputs) (hinputs : w.store.Holds inputs)
    (c : Context) :
    f.Steady ((f.evaluateAlong interleaving operation outputs inputs c).outcome w).2 := by
  unfold FusedOperator.evaluateAlong
  refine steady_bind h fun _ w₀ hcheck _ => ?_
  obtain rfl : w = w₀ := (Prod.mk.inj hcheck).2
  refine steady_bind h fun shape w₀ hshape _ => ?_
  obtain rfl : w = w₀ := (Prod.mk.inj hshape).2
  have hresized := h.onResized shape outputs
  refine steady_bind hresized fun made w₁ hresize _ => ?_
  obtain ⟨hmadeEq, rfl⟩ := Prod.mk.inj hresize
  obtain rfl := Except.ok.inj hmadeEq
  cases hf : f.kernel with
  | none =>
      exact hresized.interpret hkeeps (fun u hu => (mem_resizeAll shape houtputs hu).1)
        (fun t ht => (within_resizeAll shape outputs w.store).grows _ (hinputs t ht)) c
  | some kernel =>
      refine steady_bind (steady_bind (hresized.planFor inputs _) fun plan w₂ _ hplanned => ?_)
        fun _ _ _ hrun => hrun
      exact hplanned.runAlong (hkernel kernel hf) plan _ _

/-- The worlds to which an operator comes: it is created, with a kernel or without; it is evaluated, with
any kernel or none, where an evaluation may succeed or fail; and whatever else happens in between. -/
inductive Reached (f : FusedOperator σ) : World σ → Prop
  | created {w w' : World σ} (hw : w.Sound) {available : Nat} (kernel : Option (Kernel σ))
      (hcreate : create f.body f.interpreter.registry f.scheduler available kernel w = (f.withKernel kernel, w')) :
      f.Reached w'
  | evaluated {w : World σ} (h : f.Reached w) (kernel : Option (Kernel σ))
      (hkernel : ∀ k, kernel = some k → k.Confined) (interleaving : List Task → List Nat)
      (operation : Operation) {outputs inputs : List Tensor} (houtputs : w.store.Holds outputs)
      (hinputs : w.store.Holds inputs) (c : Context) : f.Reached
        (((f.withKernel kernel).evaluateAlong interleaving operation outputs inputs c).outcome w).2
  | elsewhere {w w' : World σ} (h : f.Reached w) (hw : f.Elsewhere w w') : f.Reached w'

/-- Creating an operator keeps the world sound. -/
theorem sound_create (hw : w.Sound) (body : Graph (Evaluator σ)) (registry : Registry (Evaluator σ))
    (scheduler : Scheduler) (available : Nat) (kernel : Option (Kernel σ)) :
    (create body registry scheduler available kernel w).2.Sound := by
  have hbefore : w.addPlanCache.2.Sound := ⟨hw.values, hw.memories⟩
  exact (Executor.sound_create (e := (Executor.create body registry scheduler.config w.addPlanCache.2).1)
    hbefore rfl).1

theorem steady_create {w w' : World σ} (hw : w.Sound) {available : Nat} {kernel : Option (Kernel σ)}
    (hcreate : create f.body f.interpreter.registry f.scheduler available kernel w = (f.withKernel kernel, w')) :
    f.interpreter.graph = f.body ∧ f.Steady w' := by
  obtain ⟨hoperator, rfl⟩ := Prod.mk.inj hcreate
  have hplans : (w.planCaches.add .empty).1 = f.plans := congrArg FusedOperator.plans hoperator
  have hinterpreter := congrArg FusedOperator.interpreter hoperator
  have hcancel : (w.cancelFlags.add ⟨false⟩).1 = f.interpreter.cancel :=
    congrArg Executor.cancel hinterpreter
  refine ⟨(congrArg Executor.graph hinterpreter).symm, ?_, ?_, ?_⟩
  · exact sound_create hw f.body f.interpreter.registry f.scheduler available kernel
  · show ((w.cancelFlags.add ⟨false⟩).2.get f.interpreter.cancel).requested = false
    rw [← hcancel, Table.get_add]
  · show ((w.planCaches.add .empty).2.get f.plans).Valid f.planner
    rw [← hplans, Table.get_add]
    exact PlanCache.valid_empty _

/-- An operator comes to steady worlds only, and its interpreter runs its body. -/
theorem Reached.steady (hkeeps : f.interpreter.KeepsNodes) (h : f.Reached w) :
    f.interpreter.graph = f.body ∧ f.Steady w := by
  induction h with
  | created hw kernel hcreate => exact steady_create hw hcreate
  | evaluated _ kernel hkernel interleaving operation houtputs hinputs c ih =>
      obtain ⟨hgraph, hsteady⟩ := ih
      obtain ⟨hsound, hidle, hplanned⟩ := (hsteady.withKernel kernel).evaluateAlong hkeeps hkernel
        interleaving operation houtputs hinputs c
      exact ⟨hgraph, hsound, hidle, hplanned⟩
  | elsewhere _ hw ih => exact ⟨ih.1, ih.2.elsewhere hw⟩

end FusedOperator

end TensorGraph
