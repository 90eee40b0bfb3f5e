import TensorGraph.Proofs.Fusion

/-! # Addresses stay inside the buffers

Over a planned domain every terminal is reached at elements of its own only (`Plan.Bounded`): at the exact
element offset for an outer index and a position in its tile, no element before the first one of the
terminal and none after its last one is addressed.  A terminal of no more elements than a signed word counts
is reached at that offset itself, whatever the extents of the others (`elementAt_eq`).

A kernel of a fused operator is called for outer indices only, also after another call has failed, so that
each address it is told, at every position of its tile, is that of an element in the buffer of a tensor
(`addresses_inside_buffers`).  The lengths of buffers are those that they have when the first call is
made. -/

namespace TensorGraph

variable {σ : Type}

/-! ### The elements that a plan addresses -/

/-- The element of a terminal at an index of the whole domain, in exact arithmetic. -/
def Access.exactElement (a : Access) (index : Index) : Int :=
  a.offset + Strides.dot a.strides (index.map Int.ofNat)

/-- Where an invocation for an outer index is led in one terminal at a position of its tile. -/
def Plan.reachedAt (plan : Plan) (a : Access) (buffer : Option BufferId) (index : Index)
    (position : Nat × Nat) : Pointer :=
  Invocation.elementAt ⟨buffer, a.byteOffset index⟩ (a.tileStrides plan.domain.tileRank) position

/-- Each terminal has its access, and over the whole domain is reached at elements of its own only. -/
def Plan.Bounded (plan : Plan) (i : Interface) : Prop :=
  plan.accesses.length = i.terminals.length ∧
    ∀ (k : Nat) (t : Terminal) (a : Access), i.terminals[k]? = some t → plan.accesses[k]? = some a →
      ∀ index ∈ plan.domain.outer.indices, ∀ row < plan.domain.tile.1, ∀ column < plan.domain.tile.2,
        let element := a.exactElement (plan.domain.indexAt index (row, column))
        t.offset ≤ element ∧ element < t.offset + t.extents.size ∧ ∀ buffer,
          let reached := plan.reachedAt a buffer index (row, column)
          reached.SameAddress ⟨buffer, t.elementSize * element⟩ ∧
            (t.offset < 2 ^ 63 → t.extents.size ≤ 2 ^ 63 →
              reached = ⟨buffer, t.elementSize * element⟩)

namespace Planner

open Shape

variable {p : Planner} {i : Interface} {plan : Plan}

/-- A coordinate that meets a stride other than 0 lies below an extent of the terminal, so that it reads
as itself if the terminal is small. -/
theorem dot_accessStrides_signed {d t : Shape} (h : t.StretchesTo d) (hpos : t.Positive)
    (hsize : t.size ≤ 2 ^ 63) {n : Nat} {index : Index} (hindex : InBounds (d.take n) index)
    (inner : List Int) :
    Strides.dot (accessStrides d t) (index.map Word.signed ++ inner)
      = Strides.dot (accessStrides d t) (index.map Int.ofNat ++ inner) := by
  induction h generalizing n index with
  | nil => simp [accessStrides, Strides.dot]
  | @cons tn dn t d hn ht ih =>
      cases index with
      | nil => rw [List.map_nil, List.map_nil]
      | cons j index =>
          cases n with
          | zero => cases hindex
          | succ n =>
              obtain ⟨hpositive, hrest⟩ := positive_cons.mp hpos
              obtain _ | ⟨hj, hindex⟩ := hindex
              have hinner : size t ≤ tn * size t := Nat.le_mul_of_pos_left _ hpositive
              have houter : tn ≤ tn * size t := Nat.le_mul_of_pos_right _ (size_pos_iff.mpr hrest)
              rw [size_cons] at hsize
              have htail := ih hrest (by omega) hindex
              have hstrides : accessStrides (dn :: d) (tn :: t)
                  = (if tn = dn ∧ 1 < dn then (Strides.denseFrom t).2 else 0) :: accessStrides d t := rfl
              rw [hstrides, List.map_cons, List.map_cons, List.cons_append, List.cons_append, Strides.dot,
                Strides.dot, htail]
              by_cases hwalked : tn = dn ∧ 1 < dn
              · rw [Word.signed_of_lt (show j < 2 ^ 63 by omega)]
                rfl
              · rw [if_neg hwalked, Int.mul_zero, Int.mul_zero]

/-- In exact arithmetic, every terminal is reached at elements of its own only. -/
theorem exactElement_inside (h : p.plan i = .ok plan) (hwork : plan.domain.work ≠ 0) {k : Nat}
    {t : Terminal} {a : Access} (ht : i.terminals[k]? = some t) (ha : plan.accesses[k]? = some a)
    {index : Index} (hindex : plan.domain.outer.InBounds index) {position : Nat × Nat}
    (hrow : position.1 < plan.domain.tile.1) (hcolumn : position.2 < plan.domain.tile.2) :
    ∃ element < t.extents.size,
      a.exactElement (plan.domain.indexAt index position) = (t.offset + element : Nat) := by
  obtain ⟨hnumber, hunravel⟩ := numberAt_lt_work h hindex hrow hcolumn
  have hdot := dot_strides_of_plan h ht ha hnumber
  obtain ⟨spread, rfl, _⟩ := access_of_plan h ht ha
  refine ⟨_, elementFor_lt (broadcastsTo_master h (List.mem_of_getElem? ht))
    (positive_master h (Nat.pos_of_ne_zero hwork)) (plan.domain.numberAt index position), ?_⟩
  rw [Access.exactElement, ← hunravel, hdot, Nat.cast_add]
  rfl

/-- A small terminal is reached at the exact offset. -/
theorem elementAt_eq (h : p.plan i = .ok plan) (hwork : plan.domain.work ≠ 0) {k : Nat} {t : Terminal}
    {a : Access} (ht : i.terminals[k]? = some t) (ha : plan.accesses[k]? = some a)
    (hoffset : t.offset < 2 ^ 63) (hsize : t.extents.size ≤ 2 ^ 63) {index : Index}
    (hindex : plan.domain.outer.InBounds index) (buffer : Option BufferId) (position : Nat × Nat) :
    plan.reachedAt a buffer index position
      = ⟨buffer, t.elementSize * a.exactElement (plan.domain.indexAt index position)⟩ := by
  have hreached := elementAt_of_plan h (List.mem_of_getElem? ha) hindex buffer position
  obtain ⟨spread, rfl, hstretch, hspread, _⟩ := access_of_plan h ht ha
  have hpositive := positive_extents_of_plan h hwork
  have hsigned := dot_accessStrides_signed hstretch (positive_of_stretchesTo hstretch hpositive)
    (hspread ▸ hsize) hindex ((plan.domain.tileIndex position).map Int.ofNat)
  refine congrArg (Pointer.mk buffer) (hreached.trans ?_)
  rw [Access.exactElement, Domain.indexAt, List.map_append]
  show ((access plan.domain.extents t spread).elementSize : Int)
      * (Word.signed t.offset + Strides.dot (accessStrides plan.domain.extents spread) _) = _
  rw [hsigned, Word.signed_of_lt hoffset]
  rfl

/-- Every plan over a domain that is not empty stays inside its terminals. -/
theorem bounded_of_plan (h : p.plan i = .ok plan) (hempty : plan.domain.isEmpty = false) :
    plan.Bounded i := by
  have hwork : plan.domain.work ≠ 0 := by simpa [Domain.isEmpty] using hempty
  obtain ⟨hinputs, houtputs⟩ := length_accesses_of_plan h
  refine ⟨?_, fun k t a ht ha index hindex row hrow column hcolumn => ?_⟩
  · rw [Plan.accesses, Interface.terminals, List.length_append, List.length_append, hinputs, houtputs]
  · have hindex := mem_indices.mp hindex
    have hsize : a.elementSize = t.elementSize := by
      obtain ⟨spread, rfl, _⟩ := access_of_plan h ht ha
      rfl
    obtain ⟨element, hlt, helement⟩ := exactElement_inside h hwork ht ha hindex
      (show (row, column).1 < plan.domain.tile.1 from hrow) hcolumn
    refine ⟨by omega, by omega, fun buffer => ⟨?_, fun hoffset hsmall => ?_⟩⟩
    · rw [← hsize]
      exact sameAddress_elementAt h (List.mem_of_getElem? ha) hindex buffer (row, column)
    · exact elementAt_eq h hwork ht ha hoffset hsmall hindex buffer (row, column)

end Planner

/-! ### The calls of a fused operator -/

/-- A pointer leads into a tensor: it is the machine address of an element that lies in the tensor's
buffer with all its bytes, and this very place if the buffer is no longer than a signed word counts. -/
def Pointer.LeadsInto (q : Pointer) (t : Tensor) (s : Store) : Prop :=
  ∃ offset : Nat, offset + t.dtype.size ≤ (t.bytes s).size ∧ q.SameAddress ⟨some t.buffer, offset⟩ ∧
    ((t.bytes s).size < 2 ^ 63 → q = ⟨some t.buffer, offset⟩)

theorem Tensor.forall₂_terminals {xs : List Tensor} {ts : List Terminal}
    (h : xs.mapM Terminal.ofTensor = .ok ts) :
    List.Forall₂ (fun x t => x.shape = some t.extents ∧ t = .dense x.dtype t.extents) xs ts := by
  induction xs generalizing ts with
  | nil =>
      obtain rfl := Except.ok.inj h
      exact .nil
  | cons x xs ih =>
      rw [List.mapM_cons] at h
      obtain ⟨t, ht, h⟩ := bind_eq_ok.mp h
      obtain ⟨ts, hts, h⟩ := bind_eq_ok.mp h
      obtain rfl := pure_eq_ok.mp h
      obtain ⟨shape, hshape, ht⟩ := bind_eq_ok.mp ht
      obtain rfl := pure_eq_ok.mp ht
      exact .cons ⟨resolvedShape_eq_ok.mp hshape, rfl⟩ (ih hts)

/-- An element of the terminal that a complete tensor makes lies in the tensor's buffer. -/
theorem Pointer.leadsInto_of_terminal {x : Tensor} {t : Terminal} {s : Store}
    (hshape : x.shape = some t.extents) (hdense : t = .dense x.dtype t.extents) (hcomplete : x.Complete s)
    {element : Int} (hfrom : t.offset ≤ element) (hto : element < t.offset + t.extents.size) {q : Pointer}
    (hsame : q.SameAddress ⟨some x.buffer, t.elementSize * element⟩)
    (hexact : t.offset < 2 ^ 63 → t.extents.size ≤ 2 ^ 63 → q = ⟨some x.buffer, t.elementSize * element⟩) :
    q.LeadsInto x s := by
  have hoffset : t.offset = 0 := by rw [hdense]; rfl
  have helementSize : t.elementSize = x.dtype.size := by rw [hdense]; rfl
  have hsize : (x.bytes s).size = t.extents.size * x.dtype.size := hcomplete _ hshape
  rw [hoffset] at hfrom hto hexact
  obtain ⟨n, rfl⟩ : ∃ n : Nat, element = n := ⟨element.toNat, by omega⟩
  have hlt : n + 1 ≤ t.extents.size := by omega
  rw [helementSize] at hsame hexact
  refine ⟨x.dtype.size * n, ?_, by rwa [Nat.cast_mul], fun hbuffer => ?_⟩
  · calc x.dtype.size * n + x.dtype.size = (n + 1) * x.dtype.size := by ring
      _ ≤ (x.bytes s).size := hsize ▸ Nat.mul_le_mul_right _ hlt
  · have hcount : t.extents.size ≤ t.extents.size * x.dtype.size :=
      Nat.le_mul_of_pos_right _ x.dtype.size_pos
    rw [Nat.cast_mul]
    exact hexact (by decide) (by omega)

namespace FusedOperator

/-- The outputs of an evaluation as they are before anything is computed, and the store then. -/
def resized (outputs inputs : List Tensor) (s : Store) : List Tensor × Store :=
  match commonShape inputs with
  | .ok shape => resizeAll shape outputs s
  | .error _ => (outputs, s)

/-- The calls of its kernel that an evaluation makes along an interleaving. -/
def calls (f : FusedOperator σ) (interleaving : List Task → List Nat) (outputs inputs : List Tensor)
    (w : World σ) : List KernelCall :=
  match f.kernel, Executor.checkOperands f.body outputs inputs, commonShape inputs with
  | some kernel, .ok (), .ok _ =>
    let (made, s) := resized outputs inputs w.store
    match (f.planFor inputs made).outcome { w with store := s } with
    | (.ok plan, w) => f.scheduler.calls interleaving kernel plan (inputs.map (some ·.buffer))
        (made.map (some ·.buffer)) w
    | (.error _, _) => []
  | _, _, _ => []

variable {f : FusedOperator σ} {w : World σ} {outputs inputs : List Tensor}
  {interleaving : List Task → List Nat}

theorem Steady.plan_of_planFor (h : f.Steady w) {plan : Plan} {w' : World σ}
    (hplan : (f.planFor inputs outputs).outcome w = (.ok plan, w')) :
    w'.store = w.store ∧
      ∃ i, Interface.ofTensors inputs outputs = .ok i ∧ f.planner.plan i = .ok plan := by
  have hplanned := h.outcome_planFor inputs outputs
  cases hmade : Interface.ofTensors inputs outputs >>= f.planner.plan with
  | error error =>
      rw [hmade, hplan] at hplanned
      cases hplanned
  | ok made =>
      rw [hmade, hplan] at hplanned
      obtain ⟨plans, _, hplanned⟩ := hplanned
      cases hplanned
      exact ⟨rfl, bind_eq_ok.mp hmade⟩

theorem forall₂_of_ofTensors {i : Interface} (h : Interface.ofTensors inputs outputs = .ok i) :
    inputs.length = i.inputs.length ∧ outputs.length = i.outputs.length ∧
      List.Forall₂ (fun x t => x.shape = some t.extents ∧ t = .dense x.dtype t.extents)
        (inputs ++ outputs) i.terminals := by
  obtain ⟨ins, hins, h⟩ := bind_eq_ok.mp h
  obtain ⟨outs, houts, h⟩ := bind_eq_ok.mp h
  obtain rfl := pure_eq_ok.mp h
  have hins := Tensor.forall₂_terminals hins
  have houts := Tensor.forall₂_terminals houts
  exact ⟨hins.length_eq, houts.length_eq, List.rel_append hins houts⟩

/-- A sweep over the plan for some complete tensors is led into these tensors. -/
theorem leadsInto_of_plan {plan : Plan} {i : Interface} (hplan : f.planner.plan i = .ok plan)
    (hi : Interface.ofTensors inputs outputs = .ok i) {s : Store}
    (hcomplete : ∀ t ∈ inputs ++ outputs, t.Complete s) {kernel : Kernel σ} {call : KernelCall}
    (hcall : call ∈ f.scheduler.calls interleaving kernel plan (inputs.map (some ·.buffer))
      (outputs.map (some ·.buffer)) w) {position : Nat × Nat}
    (hposition : position ∈ call.invocation.tilePositions) :
    List.Forall₂ (fun t q => Pointer.LeadsInto q t s) (inputs ++ outputs)
      (call.invocation.elementsAt position) := by
  obtain ⟨hempty, _, scratch, hinvocation⟩ := Scheduler.invocation_of_mem_calls hcall
  have hindex := Shape.mem_indices.mpr (Scheduler.index_of_mem_calls hplan hcall)
  obtain ⟨hlength, hbounded⟩ := Planner.bounded_of_plan hplan hempty
  obtain ⟨hins, _, hterminals⟩ := forall₂_of_ofTensors hi
  have hinputs : (inputs.map fun t : Tensor => some t.buffer).length = plan.inputs.length := by
    rw [List.length_map, hins, (Planner.length_accesses_of_plan hplan).1]
  have hcount := hterminals.length_eq
  rw [hinvocation] at hposition ⊢
  obtain ⟨hrow, hcolumn⟩ := Invocation.mem_tilePositions.mp hposition
  rw [plan.elementsAt_invocation hinputs, ← List.map_append, List.zipWith_map_left]
  refine List.forall₂_iff_get.mpr ⟨by rw [List.length_zipWith]; omega, fun n hn hn' => ?_⟩
  have hterminal : n < i.terminals.length := hcount ▸ hn
  have hmem : (inputs ++ outputs).get ⟨n, hn⟩ ∈ inputs ++ outputs := List.get_mem _ _
  obtain ⟨hshape, hdense⟩ := hterminals.get hn hterminal
  obtain ⟨hfrom, hto, hreached⟩ := hbounded n _ _ (List.getElem?_eq_getElem hterminal)
    (List.getElem?_eq_getElem (hlength ▸ hterminal)) call.index hindex position.1 hrow position.2 hcolumn
  obtain ⟨hsame, hexact⟩ := hreached (some ((inputs ++ outputs).get ⟨n, hn⟩).buffer)
  show Pointer.LeadsInto (List.zipWith _ _ _)[n] _ s
  rw [List.getElem_zipWith]
  exact Pointer.leadsInto_of_terminal hshape hdense (hcomplete _ hmem) hfrom hto hsame hexact

/-- Complete operands stay complete when the outputs are resized. -/
theorem complete_resized (hholds : w.store.Holds (outputs ++ inputs))
    (hcomplete : ∀ t ∈ outputs ++ inputs, t.Complete w.store) :
    ∀ t ∈ inputs ++ (resized outputs inputs w.store).1, t.Complete (resized outputs inputs w.store).2 := by
  unfold resized
  split
  · rename_i shape _
    obtain ⟨hwithin, hmade⟩ := resizeAll_spec shape fun u hu => hholds u (List.mem_append_left _ hu)
    intro t ht
    rcases List.mem_append.mp ht with ht | ht
    · exact (hcomplete t (List.mem_append_right _ ht)).within hwithin (hholds t (List.mem_append_right _ ht))
    · obtain ⟨n, hn, rfl⟩ := List.mem_iff_getElem.mp ht
      have hn' : n < outputs.length := hmade.length_eq ▸ hn
      obtain ⟨_, _, _, _, hkept⟩ := hmade.get hn' hn
      exact hkept (hcomplete _ (List.mem_append_left _ (List.getElem_mem hn')))
  · intro t ht
    exact hcomplete t (List.mem_append.mpr (List.mem_append.mp ht).symm)

/-- An evaluation with a kernel does to the world what its calls do, from a world in which the outputs were
resized if there are any calls. -/
theorem Steady.world_evaluateAlong (h : f.Steady w) {kernel : Kernel σ} (hkernel : f.kernel = some kernel)
    (operation : Operation) (c : Context) :
    ∃ start : World σ, ((f.evaluateAlong interleaving operation outputs inputs c).outcome w).2
        = kernel.after (f.calls interleaving outputs inputs w) start ∧
      (f.calls interleaving outputs inputs w ≠ [] →
        start.store = (resized outputs inputs w.store).2) := by
  unfold calls
  rw [hkernel]
  cases hcheck : Executor.checkOperands f.body outputs inputs with
  | error error =>
      unfold FusedOperator.evaluateAlong
      rw [hcheck]
      exact ⟨w, rfl, nofun⟩
  | ok checked =>
      cases hshape : commonShape inputs with
      | error error =>
          unfold FusedOperator.evaluateAlong
          rw [hcheck, hshape]
          exact ⟨w, rfl, nofun⟩
      | ok shape =>
          have hsteady := h.onResized shape outputs
          rw [outcome_evaluateAlong hcheck hshape, hkernel]
          simp only [resized, hshape]
          rcases hplan : (f.planFor inputs (resizeAll shape outputs w.store).1).outcome
            { w with store := (resizeAll shape outputs w.store).2 } with ⟨error | plan, w'⟩
          · rw [Run.outcome_bind, hplan]
            exact ⟨w', rfl, nofun⟩
          · obtain ⟨hstore, i, hi, hmade⟩ := hsteady.plan_of_planFor hplan
            obtain ⟨hins, houts, _⟩ := forall₂_of_ofTensors hi
            obtain ⟨haccessIns, haccessOuts⟩ := Planner.length_accesses_of_plan hmade
            have hworld := f.scheduler.world_runAlong_eq interleaving kernel
              ((List.length_map fun t : Tensor => some t.buffer).trans (hins.trans haccessIns.symm))
              ((List.length_map fun t : Tensor => some t.buffer).trans (houts.trans haccessOuts.symm)) w'
            dsimp only
            refine ⟨if plan.domain.isEmpty then w' else (f.scheduler.opening kernel plan w').world, ?_,
              fun _ => ?_⟩
            · rw [Run.outcome_bind_ok hplan, Run.outcome_bind, ← hworld]
              rcases (f.scheduler.runAlong interleaving kernel plan _ _).outcome w' with ⟨_ | _, _⟩ <;> rfl
            · refine Eq.trans ?_ hstore
              split <;> rfl

/-- Whatever call a kernel gets, it is led into the tensors of the evaluation. -/
theorem Steady.leadsInto_of_mem_calls (h : f.Steady w) (hholds : w.store.Holds (outputs ++ inputs))
    (hcomplete : ∀ t ∈ outputs ++ inputs, t.Complete w.store) {call : KernelCall}
    (hcall : call ∈ f.calls interleaving outputs inputs w) {position : Nat × Nat}
    (hposition : position ∈ call.invocation.tilePositions) :
    List.Forall₂ (fun t q => Pointer.LeadsInto q t (resized outputs inputs w.store).2)
      (inputs ++ (resized outputs inputs w.store).1) (call.invocation.elementsAt position) := by
  have hmade := complete_resized hholds hcomplete
  unfold calls at hcall
  split at hcall
  · rename_i kernel _ shape _ _ hshape
    have hsteady := h.onResized shape outputs
    simp only [resized, hshape] at hcall hmade ⊢
    split at hcall
    · rename_i hplan
      obtain ⟨_, i, hi, hplanned⟩ := hsteady.plan_of_planFor hplan
      exact leadsInto_of_plan hplanned hi hmade hcall hposition
    · cases hcall
  · cases hcall

/-- **Addresses stay inside the buffers.**  Every plan over a domain that is not empty reaches each terminal,
for every outer index and every position of the tile, at an element not before its first one and not after
its last one.  An operator with any kernel, from every world that it comes to and on operands whose buffers
hold all of their elements, does to the world what its calls of the kernel do; and every call leads, for
every tensor and at every position of its tile, to an element inside that tensor's buffer. -/
theorem addresses_inside_buffers (σ : Type) :
    (∀ (p : Planner) (i : Interface) (plan : Plan), p.plan i = .ok plan → plan.domain.isEmpty = false →
      plan.Bounded i) ∧
    ∀ (f : FusedOperator σ) (w : World σ), f.interpreter.KeepsNodes → f.Reached w →
      ∀ (kernel : Kernel σ) (interleaving : List Task → List Nat) (operation : Operation)
        (outputs inputs : List Tensor) (c : Context), w.store.Holds (outputs ++ inputs) →
        (∀ t ∈ outputs ++ inputs, t.Complete w.store) →
        let g := f.withKernel (some kernel)
        let calls := g.calls interleaving outputs inputs w
        let made := resized outputs inputs w.store
        (∃ start : World σ, ((g.evaluateAlong interleaving operation outputs inputs c).outcome w).2
            = kernel.after calls start ∧ (calls ≠ [] → start.store = made.2)) ∧
          ∀ call ∈ calls, ∀ position ∈ call.invocation.tilePositions,
            List.Forall₂ (fun t q => Pointer.LeadsInto q t made.2) (inputs ++ made.1)
              (call.invocation.elementsAt position) := by
  refine ⟨fun p i plan => Planner.bounded_of_plan, ?_⟩
  intro f w hkeeps hf kernel interleaving operation outputs inputs c hholds hcomplete g calls made
  have hsteady : g.Steady w := (hf.steady hkeeps).2.withKernel (some kernel)
  refine ⟨hsteady.world_evaluateAlong rfl operation c, ?_⟩
  intro call hcall position hposition
  exact hsteady.leadsInto_of_mem_calls hholds hcomplete hcall hposition

/-- A plan for terminals of which two begin inside their buffers; and an operator that is called once, with
one input of one element and one of three. -/
theorem addresses_inside_buffers_longer :
    let column : Terminal := ⟨[2, 3, 1, 1], [0, 1, 2, 3], .f32, 5⟩
    let i : Interface := ⟨[⟨[4, 5], [0, 1], .f32, 7⟩, column], [.dense .f32 [2, 3, 4, 5]]⟩
    let plan : Plan :=
      { domain := ⟨[2, 3, 4, 5], [1, 1, 1, 2, 3, 20], 1, 120, 6⟩
        inputs := [⟨7, [0, 0, 0, 0, 0, 1], 4⟩, ⟨5, [0, 0, 0, 3, 1, 0], 4⟩]
        outputs := [⟨0, [0, 0, 0, 60, 20, 1], 4⟩] }
    let operator := adderCreated.1.withKernel (some adderKernel)
    let inputs : List Tensor := [⟨.f32, some [1], ⟨1⟩⟩, ⟨.f32, some [3], ⟨4⟩⟩]
    let calls := operator.calls Sweep.inOrder [⟨.f32, some [2], ⟨3⟩⟩] inputs adderRefilled
    let made := resized [⟨.f32, some [2], ⟨3⟩⟩] inputs adderRefilled.store
    (Planner.plan ⟨256, 1⟩ i = .ok plan ∧ plan.Bounded i) ∧ calls.length = 1 ∧
      ∀ call ∈ calls, ∀ position ∈ call.invocation.tilePositions,
        List.Forall₂ (fun t q => Pointer.LeadsInto q t made.2) (inputs ++ made.1)
          (call.invocation.elementsAt position) := by
  intro column i plan operator inputs calls made
  obtain ⟨hplans, hcalls⟩ := addresses_inside_buffers Unit
  have hplan : Planner.plan ⟨256, 1⟩ i = .ok plan := by decide +kernel
  refine ⟨⟨hplan, hplans _ i plan hplan rfl⟩, by decide +kernel, ?_⟩
  exact (hcalls adderCreated.1 adderRefilled isReference_adder.keepsNodes reached_adderRefilled adderKernel
    Sweep.inOrder default _ _ .empty accepts_adderRefilled.holds accepts_adderRefilled.complete).2

end FusedOperator

end TensorGraph
