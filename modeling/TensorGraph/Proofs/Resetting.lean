import TensorGraph.Proofs.Nesting

/-! # What a reset leaves behind

What can be seen of a call is how it ends, what it delivers to the slots and which values the variables have
afterwards (`Executor.seen`).  If the slots are without shape, and the nodes are run by reference operators
or by fused operators that interpret their bodies, however deep, then all of it is determined by the graph,
the schemes, and the values of the inputs and of the variables at the start (`Executor.OpenCall.seen_eq`).

A reset takes the values from the variables, of which a new executor has none either.  What the executor,
and each interpreter inside it, remembers of earlier calls makes no difference, so after a reset the executor
cannot be told from a new one (`Executor.seen_resetState`). -/

namespace TensorGraph

variable {σ ε δ : Type}

/-! ### What can be seen of a call -/

/-- What can be seen of a call: how it ended, what was delivered to each slot, and the values of the variables
afterwards. -/
structure Seen where
  ending : Except Error Status
  delivered : List (Option Value)
  «variables» : VariableValues

/-- A value that has a shape. -/
def Value.shaped? (v : Value) : Option Value := if v.shape.isSome then some v else none

namespace Executor

/-- The slots after a call, also if it failed. -/
def slotsAfter (e : Executor σ) (slots inputs : List Tensor) (c : Context) (collect : Bool) (w : World σ) :
    List Tensor :=
  (e.trace slots inputs c collect w).foldl Event.fill slots

/-- What can be seen of a call. -/
def seen (e : Executor σ) (slots inputs : List Tensor) (c : Context) (collect : Bool) (w : World σ) : Seen :=
  let o := (e.execute slots inputs c collect).outcome w
  { ending := o.1.map (·.1)
    delivered := (e.slotsAfter slots inputs c collect w).map fun t => (t.value o.2.store).shaped?
    «variables» := o.2.valuesOf (c.variables.getD e.variables) }

variable {e : Executor σ} {slots inputs : List Tensor} {c : Context} {collect : Bool} {w : World σ}

theorem slotsAfter_rejected {error : Error} (hcancel : w.cancelRequested e.cancel = false)
    (hcheck : checkOperands e.graph slots inputs = .error error) :
    e.slotsAfter slots inputs c collect w = slots := by
  rw [slotsAfter, trace, hcancel, if_neg Bool.false_ne_true, hcheck]
  rfl

/-- The slots are those of the frame after the walk over the nodes. -/
theorem slotsAfter_walked (hcancel : w.cancelRequested e.cancel = false)
    (hcheck : checkOperands e.graph slots inputs = .ok ()) :
    e.slotsAfter slots inputs c collect w = (e.walk slots inputs c collect w e.graph.nodes).1.2.slots := by
  rw [slotsAfter, trace_walked hcancel hcheck, walk, slots_events]
  rfl

/-- Where a call returns slots, these are they. -/
theorem slotsAfter_of_ok {status : Status} {ts : List Tensor}
    (h : ((e.execute slots inputs c collect).outcome w).1 = .ok (status, ts)) :
    e.slotsAfter slots inputs c collect w = ts := by
  cases hcancel : w.cancelRequested e.cancel with
  | true =>
      rw [outcome_execute_pending hcancel] at h
      obtain ⟨-, rfl⟩ := Prod.mk.inj (Except.ok.inj h)
      rw [slotsAfter, trace, hcancel, if_pos rfl]
      rfl
  | false =>
      cases hcheck : checkOperands e.graph slots inputs with
      | error error =>
          rw [outcome_execute_rejected hcancel hcheck] at h
          cases h
      | ok _ =>
          obtain ⟨memories, houtcome⟩ := outcome_execute_walked c collect hcancel hcheck
          rw [slotsAfter_walked hcancel hcheck]
          rw [houtcome] at h
          rcases hwalk : (e.walk slots inputs c collect w e.graph.nodes).1.1 with error | status'
          all_goals rw [hwalk] at h
          · cases h
          · exact (Prod.mk.inj (Except.ok.inj h)).2

end Executor

namespace Graph

/-- What is seen of a call according to what the nodes mean, if the places for results are open. -/
def seen (g : Graph ε) (run : Operation → List DType → Meaning) (inputs : List Value) (places : Nat)
    (vars : VariableValues) : Seen :=
  match g.checkValues places inputs with
  | .error error => ⟨.error error, List.replicate places none, vars⟩
  | .ok () =>
    let (ending, v) := g.walkValues run inputs vars
    { ending := ending.map fun _ => .completed
      delivered := (List.range places).map fun j => v.results[j]?.bind Value.shaped?
      «variables» := v.state }

theorem Same.seen {g : Graph ε} {g' : Graph δ} (h : g.Same g') (run : Operation → List DType → Meaning)
    (inputs : List Value) (places : Nat) (vars : VariableValues) :
    g.seen run inputs places vars = g'.seen run inputs places vars := by
  unfold Graph.seen
  rw [h.checkValues, h.walkValues]

end Graph

/-! ### Calls with open slots -/

namespace Setting

variable {S : Setting σ} {flags : Ref CancelFlag → Prop} {run : Operation → List DType → Meaning}

/-- What was delivered to a slot is its result, if the walk came that far. -/
theorem Mirrors.delivered {f : Frame} {w : World σ} {v : Valuation Value VariableValues} (h : S.Mirrors f w v)
    (hopen : ∀ t ∈ S.slots, t.shape = none) :
    f.slots.map (fun t => (t.value w.store).shaped?)
      = (List.range f.slots.length).map fun j => v.results[j]?.bind Value.shaped? := by
  refine List.ext_getElem (by simp) fun j hj _ => ?_
  rw [List.length_map] at hj
  rw [List.getElem_map, List.getElem_map, List.getElem_range]
  have hslot : f.slots[j]? = some f.slots[j] := List.getElem?_eq_getElem hj
  by_cases hfilled : j < v.results.length
  · rw [(h.filled j _ hslot hfilled).1]
    rfl
  · have hnone : f.slots[j].shape = none := by
      refine hopen _ (List.mem_of_getElem? (i := j) ?_)
      rw [← h.unfilled j (Nat.not_lt.mp hfilled), hslot]
    rw [List.getElem?_eq_none (Nat.not_lt.mp hfilled), Option.bind_none, Value.shaped?, Tensor.shape_value, hnone]
    rfl

/-- What is seen of a call with open slots is what the nodes mean. -/
theorem Proper.seen_eq (hS : S.Proper flags) (hrun : S.executor.Conforms flags run)
    (hopen : ∀ t ∈ S.slots, t.shape = none) (collect : Bool) :
    S.executor.seen S.slots S.inputs S.context collect S.start
      = S.executor.graph.seen run S.values S.slots.length (S.start.valuesOf S.variables) := by
  have hchecked : S.executor.graph.checkValues S.slots.length S.values
      = Executor.checkOperands S.executor.graph S.slots S.inputs :=
    (Executor.checkOperands_eq S.executor.graph S.slots S.inputs S.start.store).symm
  have hvariables : S.context.variables.getD S.executor.variables = S.variables := by
    rw [hS.variables, Option.getD_some]
  unfold Executor.seen Graph.seen
  rw [hchecked, hvariables]
  cases hcheck : Executor.checkOperands S.executor.graph S.slots S.inputs with
  | error error =>
      obtain ⟨w', htaken, -, hvars, -⟩ := S.executor.exists_taken hS.sound hS.cancelRequested [] S.variables
      have hnone : S.slots.map (fun t => (t.value w'.store).shaped?) = List.replicate S.slots.length none := by
        refine List.eq_replicate_iff.mpr ⟨List.length_map _, fun a ha => ?_⟩
        obtain ⟨t, ht, rfl⟩ := List.mem_map.mp ha
        rw [Value.shaped?, Tensor.shape_value, hopen t ht]
        rfl
      rw [Executor.outcome_execute_rejected hS.cancelRequested hcheck,
        Executor.slotsAfter_rejected hS.cancelRequested hcheck, Executor.polled, htaken]
      simp only [hvars, hnone]
      rfl
  | ok _ =>
      obtain ⟨f, w', hexecute, hmirrors, hf⟩ := hS.exists_executed hcheck hrun collect
      obtain ⟨-, hplaces, -⟩ := (Executor.checkOperands_eq_ok S.start.store).mp hcheck
      rw [Executor.slotsAfter_walked hS.cancelRequested hcheck, hexecute, ← hf]
      simp only [hmirrors.delivered hopen, hmirrors.state, hmirrors.places, hplaces]
      cases (S.executor.graph.walkValues run S.values (S.start.valuesOf S.variables)).1 <;> rfl

end Setting

namespace Executor

variable {e e' : Executor σ} {flags flags' : Ref CancelFlag → Prop} {g : Graph Unit} {inner : Nat → Scheme}
  {slots inputs slots' inputs' : List Tensor} {c c' : Context} {w w₀ w' : World σ}

/-- A call with the variables of the executor and with slots that have no shape. -/
structure OpenCall (e : Executor σ) (slots inputs : List Tensor) (c : Context) (w : World σ) : Prop where
  own : c.variables.getD e.variables = e.variables
  unshaped : ∀ t ∈ slots, t.shape = none
  held : w.store.Holds c.held
  slots : w.store.Holds slots
  inputs : w.store.Holds inputs

/-- What is seen of a call depends only on values. -/
theorem OpenCall.seen_eq [HalfConversion] (h : e.OpenCall slots inputs c w)
    (hruns : e.Runs flags g fun operation => (inner operation.id).RunBy flags operation) (hsound : w.Sound)
    (hhas : w.variables.Has e.variables) (hidle : w.Idle flags) (collect : Bool) :
    e.seen slots inputs c collect w
      = g.seen (Scheme.runs inner) (inputs.map (·.value w.store)) slots.length (w.valuesOf e.variables) := by
  let S : Setting σ := ⟨e, slots, inputs, e.contextFor c, e.variables, w⟩
  have hS : S.Proper flags :=
    { sound := hsound, idle := hidle, flag := hruns.flag, has := hhas, «variables» := congrArg some h.own,
      held := h.held, slots := h.slots, inputs := h.inputs, free := .inl h.unshaped }
  rw [← hruns.same.seen]
  exact hS.seen_eq hruns.conforms h.unshaped collect

/-! ### After a reset -/

theorem valuesOf_resetState (h : w.variables.Has e.variables) :
    (e.resetState w).valuesOf e.variables = fun _ => none := by
  have hget : (e.resetState w).variables.get e.variables = .empty := by
    show (w.variables.put e.variables .empty).get e.variables = .empty
    rw [Table.get_put, if_pos ⟨rfl, h⟩]
  funext id
  refine World.valuesOf_eq_none ?_
  rw [hget]
  rfl

/-- The variables of a new executor have no values. -/
theorem valuesOf_created (h : create e.graph e.registry e.config w₀ = (e, w)) :
    w.valuesOf e.variables = fun _ => none := by
  obtain ⟨hexecutor, rfl⟩ := Prod.mk.inj h
  have hvariables : e.variables = (w₀.variables.add .empty).1 := congrArg Executor.variables hexecutor.symm
  have hget : (w₀.variables.add .empty).2.get e.variables = .empty := by
    rw [Table.get_added, if_pos hvariables]
  funext id
  refine World.valuesOf_eq_none ?_
  show ((w₀.variables.add .empty).2.get e.variables).get? id = none
  rw [hget]
  rfl

/-- **Resets.**  After a reset an executor cannot be told from a new one, whatever calls came before.  Two
executors run one graph by the same schemes: reference operators for one output, and fused operators that
interpret bodies, nested to any depth, with variables anywhere.  The first has come to some world by any
history, and is reset; the second is created just now, whether or not the operators inside it are new.  If no
request to cancel is pending, calls with inputs of the same values and with slots that have no shape end
alike, deliver the same and leave the variables with the same values. -/
theorem seen_resetState [HalfConversion]
    (hruns : e.Runs flags g fun operation => (inner operation.id).RunBy flags operation)
    (hruns' : e'.Runs flags' g fun operation => (inner operation.id).RunBy flags' operation) (hreached : e.Reached w)
    (hw₀ : w₀.Sound) (hcreate : create e'.graph e'.registry e'.config w₀ = (e', w')) (hidle : w.Idle flags)
    (hidle' : w'.Idle flags') (hcall : e.OpenCall slots inputs c w) (hcall' : e'.OpenCall slots' inputs' c' w')
    (hslots : slots.length = slots'.length) (hinputs : inputs.map (·.value w.store) = inputs'.map (·.value w'.store))
    (collect : Bool) :
    e.seen slots inputs c collect (e.resetState w) = e'.seen slots' inputs' c' collect w' := by
  obtain ⟨hsound, hhas⟩ := hreached.sound hruns.keepsNodes
  obtain ⟨hsound', hhas'⟩ := sound_create hw₀ hcreate
  have hreset : e.OpenCall slots inputs c (e.resetState w) :=
    ⟨hcall.own, hcall.unshaped, hcall.held, hcall.slots, hcall.inputs⟩
  calc
    e.seen slots inputs c collect (e.resetState w)
      = g.seen (Scheme.runs inner) (inputs.map (·.value w.store)) slots.length fun _ => none := by
        rw [← valuesOf_resetState hhas]
        exact hreset.seen_eq hruns (sound_resetState hsound) ((grows_resetState e w).has _ hhas) hidle collect
    _ = g.seen (Scheme.runs inner) (inputs'.map (·.value w'.store)) slots'.length fun _ => none := by
        rw [hinputs, hslots]
    _ = e'.seen slots' inputs' c' collect w' := by
        rw [← valuesOf_created hcreate]
        exact (hcall'.seen_eq hruns' hsound' hhas' hidle' collect).symm

/-! ### A delay inside two fused operators -/

/-- A graph that hands on what it was given in the call before, and zeros at first. -/
def delay (ε : Type) : Graph ε where
  tensors := List.replicate 4 ⟨.u8, [.fixed 2]⟩
  nodes := [⟨⟨0, .parameter, none, [], [0], none⟩, none⟩,
    ⟨⟨1, .readValue, none, [0], [1], some ⟨"last"⟩⟩, none⟩, ⟨⟨2, .assign, none, [0], [2], some ⟨"last"⟩⟩, none⟩,
    ⟨⟨3, .result, none, [1], [3], none⟩, none⟩]
  numbered := rfl
  checked := rfl

/-- A graph of one fused operator. -/
def wrapping (inline : Option ε) : Graph ε where
  tensors := List.replicate 3 ⟨.u8, [.fixed 2]⟩
  nodes := [⟨⟨0, .parameter, none, [], [0], none⟩, none⟩, ⟨⟨1, .fused, none, [0], [1], none⟩, inline⟩,
    ⟨⟨2, .result, none, [1], [2], none⟩, none⟩]
  numbered := rfl
  checked := rfl

/-- The operator that delays, as a new one. -/
def delaying (w : World Unit) : FusedOperator Unit × World Unit :=
  FusedOperator.create (delay _) .reference ⟨⟨some 1, 1, true⟩, 1, ⟨0⟩⟩ 1 none w

/-- An operator around it, as a new one. -/
def wrapped (w : World Unit) : FusedOperator Unit × World Unit :=
  FusedOperator.create (wrapping (some (delaying w).1.evaluator)) .reference ⟨⟨some 1, 1, true⟩, 1, ⟨0⟩⟩ 1 none
    (delaying w).2

/-- A new executor for that. -/
def nested (w : World Unit) : Executor Unit × World Unit :=
  create (wrapping (some (wrapped w).1.evaluator)) .reference ⟨none, 1, true⟩ (wrapped w).2

/-- The requests to cancel that it and the interpreters inside it look for. -/
def nestedFlags (w : World Unit) : List (Ref CancelFlag) :=
  [(nested w).1.cancel, (wrapped w).1.interpreter.cancel, (delaying w).1.interpreter.cancel]

/-- How its nodes are run. -/
def nestedScheme : Nat → Scheme := fun _ => .fused (wrapping none) fun _ => .fused (delay Unit) fun
  | 1 => .reference .readValue
  | _ => .reference .assign

theorem runs_wrapping {ev : Evaluator Unit} {e : Executor Unit} (hgraph : e.graph = wrapping (some ev))
    (hflag : flags e.cancel) {required : Operation → Evaluator Unit → Prop}
    (hrequired : ∀ operation, required operation ev) : e.Runs flags (wrapping none) required := by
  refine ⟨hflag, hgraph ▸ ⟨rfl, rfl⟩, fun node hnode hparameter hresult => ?_⟩
  rw [hgraph] at hnode
  rcases List.mem_cons.mp hnode with rfl | hnode
  · exact absurd rfl hparameter
  · rcases List.mem_cons.mp hnode with rfl | hnode
    · exact ⟨ev, rfl, hrequired _⟩
    · rcases List.mem_cons.mp hnode with rfl | hnode
      · exact absurd rfl hresult
      · exact (List.not_mem_nil hnode).elim

theorem runs_nested (w : World Unit) : (nested w).1.Runs (· ∈ nestedFlags w) (wrapping none)
    fun operation => (nestedScheme operation.id).RunBy (· ∈ nestedFlags w) operation := by
  have hdelaying : (delaying w).1.interpreter.Runs (· ∈ nestedFlags w) (delay Unit) fun operation =>
      Scheme.RunBy (· ∈ nestedFlags w)
        (match operation.id with | 1 => .reference .readValue | _ => .reference .assign) operation := by
    refine ⟨by simp [nestedFlags], ⟨rfl, rfl⟩, fun node hnode hparameter hresult => ?_⟩
    rcases List.mem_cons.mp hnode with rfl | hnode
    · exact absurd rfl hparameter
    · rcases List.mem_cons.mp hnode with rfl | hnode
      · exact ⟨_, rfl, rfl, rfl⟩
      · rcases List.mem_cons.mp hnode with rfl | hnode
        · exact ⟨_, rfl, rfl, rfl⟩
        · rcases List.mem_cons.mp hnode with rfl | hnode
          · exact absurd rfl hresult
          · exact (List.not_mem_nil hnode).elim
  exact runs_wrapping rfl (by simp [nestedFlags]) fun _ => ⟨(wrapped w).1, rfl, rfl, rfl,
    runs_wrapping rfl (by simp [nestedFlags]) fun _ => ⟨(delaying w).1, rfl, rfl, rfl, hdelaying⟩⟩

theorem sound_wrapped {w : World Unit} (hw : w.Sound) : (wrapped w).2.Sound :=
  FusedOperator.sound_create (FusedOperator.sound_create hw _ _ _ _ _) _ _ _ _ _

/-- The world in which the caller has made an input and an open slot. -/
def nestedFilled : World Unit :=
  let w := (nested (.empty ())).2
  { w with store := ((w.store.alloc #[1, 2]).2.alloc #[]).2 }

/-- The world after a first call. -/
def nestedCalled : World Unit :=
  (((nested (.empty ())).1.execute [⟨.u8, none, ⟨1⟩⟩] [⟨.u8, some [2], ⟨0⟩⟩] .empty false).outcome nestedFilled).2

theorem reached_nestedCalled : (nested (.empty ())).1.Reached nestedCalled := by
  have hkeeps := (runs_nested (.empty ())).keepsNodes
  have hcreated : (nested (.empty ())).1.Reached (nested (.empty ())).2 :=
    .created (sound_wrapped (World.sound_empty ())) rfl
  have hinput := hcreated.elsewhere (elsewhere_alloc (hcreated.sound hkeeps).1 #[1, 2])
  have hfilled : (nested (.empty ())).1.Reached nestedFilled :=
    hinput.elsewhere (elsewhere_alloc (hinput.sound hkeeps).1 #[])
  exact hfilled.called 3 (by decide +kernel) (by decide +kernel) .empty false

/-- A second call would deliver the input of the first one.  After a reset it delivers zeros, as a new executor
with new operators inside it does. -/
theorem seen_resetState_nested :
    let e := (nested (.empty ())).1
    let e' := (nested nestedCalled).1
    let slots : List Tensor := [⟨.u8, none, ⟨1⟩⟩]
    let inputs : List Tensor := [⟨.u8, some [2], ⟨0⟩⟩]
    (e.seen slots inputs .empty false nestedCalled).delivered = [some ⟨.u8, some [2], #[1, 2]⟩] ∧
      (e.seen slots inputs .empty false (e.resetState nestedCalled)).delivered
        = [some ⟨.u8, some [2], #[0, 0]⟩] ∧
      e.seen slots inputs .empty false (e.resetState nestedCalled)
        = e'.seen slots inputs .empty false (nested nestedCalled).2 := by
  refine ⟨by decide +kernel, by decide +kernel, ?_⟩
  have hsound : nestedCalled.Sound := (reached_nestedCalled.sound (runs_nested (.empty ())).keepsNodes).1
  refine seen_resetState (runs_nested (.empty ())) (runs_nested nestedCalled) reached_nestedCalled
    (sound_wrapped hsound) rfl ?_ ?_ ?_ ?_ rfl ?_ false
  · unfold World.Idle
    decide +kernel
  · unfold World.Idle
    decide +kernel
  · exact ⟨rfl, by decide, nofun, by decide +kernel, by decide +kernel⟩
  · exact ⟨rfl, by decide, nofun, by decide +kernel, by decide +kernel⟩
  · decide +kernel

end Executor

end TensorGraph
