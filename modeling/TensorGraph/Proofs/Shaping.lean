import TensorGraph.Proofs.Joining
import TensorGraph.Proofs.Pointwise
import TensorGraph.Proofs.Sequencing
import TensorGraph.Proofs.Typing

/-! # Which shapes a call makes

The shapes of what an executor of elementwise operators binds depend on the shapes of its inputs only: not
on bytes, on which tensors share a buffer, or on what the executor remembers.  `Executor.Shaped` relates a
call in progress to the walk of its graph with shapes (`Graph.onShapes`), and every step keeps them
together.  So a call that is not cancelled completes exactly if the walk ends, with results of the shapes
that are walked (`execute_shaped`).

Whatever the evaluators are, a call that completes leaves every slot with the type and the shape of what is
bound to its result (`forall₂_slots_of_completed`), whatever the slot was before. -/

namespace TensorGraph

variable {σ : Type}

open Shape

/-! ### Shapes of elementwise operators -/

namespace Shape

/-- The common shape of those that stand at some places in a list. -/
def joinAt (shapes : List Shape) (places : List Nat) : Option Shape :=
  (places.filterMap (shapes[·]?)).foldlM broadcast? []

theorem joinAt_flatten {shapes ts : List Shape} {groups : List (List Nat)} {t : Shape}
    (hgroups : List.Forall₂ (fun t places => joinAt shapes places = some t) ts groups)
    (h : ts.foldlM broadcast? [] = some t) : joinAt shapes groups.flatten = some t := by
  rw [joinAt, List.filterMap_flatten]
  exact joined_flatten (List.forall₂_map_right_iff.mpr hgroups) h

/-- All places together have the common shape of the whole list. -/
theorem joinAt_of_forall_mem {shapes : List Shape} {places : List Nat} {s : Shape}
    (h : shapes.foldlM broadcast? [] = some s) (hall : ∀ i < shapes.length, i ∈ places) :
    joinAt shapes places = some s := by
  refine joined_congr h fun t => ?_
  rw [List.mem_filterMap]
  constructor
  · rintro ⟨i, _, hi⟩
    exact List.mem_of_getElem? hi
  · intro ht
    obtain ⟨i, hi, rfl⟩ := List.mem_iff_getElem.mp ht
    exact ⟨i, hall i hi, List.getElem?_eq_getElem hi⟩

end Shape

/-- A tensor has an element type and a shape. -/
def Tensor.HasShape (dtype : DType) (t : Tensor) (s : Shape) : Prop := t.dtype = dtype ∧ t.shape = some s

namespace ReferenceOp

theorem operands?_of_takesOperands {op : ReferenceOp} {count : Nat} (h : op.TakesOperands count) :
    op.operands? = some count := by
  rcases h with ⟨rfl, rfl⟩ | ⟨hbinary, rfl⟩
  · rfl
  · cases op with
    | add | subtract | multiply => rfl
    | relu | accumulate | readValue | assign => cases hbinary

/-- The shape of what an elementwise operator makes is the common one of its operands. -/
theorem onShapes_eq {op : ReferenceOp} {shapes : List Shape} (h : op.TakesOperands shapes.length) :
    op.onShapes shapes = shapes.foldlM broadcast? [] := by
  rcases h with ⟨rfl, hcount⟩ | ⟨hbinary, hcount⟩
  · obtain ⟨s, rfl⟩ := List.length_eq_one_iff.mp hcount
    simp [onShapes, broadcast?_nil]
  · obtain ⟨s, t, rfl⟩ := List.length_eq_two.mp hcount
    obtain ⟨f, hf⟩ := Option.isSome_iff_exists.mp hbinary
    rw [onShapes_of_combiner hf]
    simp [broadcast?_nil]

end ReferenceOp

namespace Graph

variable {ε : Type} {g : Graph ε} {dtype : DType} {kind : Node ε → ReferenceOp}

/-- An elementwise operator as it is walked with shapes. -/
def applyShapes (kind : Node ε → ReferenceOp) (n : Node ε) (shapes : List Shape) (_ : Unit) :
    Option (Shape × Unit) :=
  ((kind n).onShapes shapes).map (·, ())

theorem onShapes_eq (g : Graph ε) (kind : Node ε → ReferenceOp) (shapes : List Shape) :
    g.onShapes kind shapes = (g.valuate (applyShapes kind) shapes ()).map (·.results) := rfl

/-- For every result the places of the parameters from which it is computed, as often as they are used. -/
def sources (g : Graph ε) : Option (List (List Nat)) :=
  (g.valuate (fun _ places _ => some (places.flatten, ()))
    ((List.range g.parameters.length).map ([·])) ()).map (·.results)

/-- Where all inputs stretch to one shape, the walk with shapes ends, and gives every result the common
shape of the inputs from which it is computed. -/
theorem IsElementwise.exists_onShapes (hg : g.IsElementwise dtype kind) {shapes : List Shape} {s : Shape}
    (hlength : shapes.length = g.parameters.length) (hshapes : ∀ t ∈ shapes, t.BroadcastsTo s) :
    ∃ made sources, g.onShapes kind shapes = some made ∧ g.sources = some sources ∧
      made.length = g.results.length ∧
      List.Forall₂ (fun t places => joinAt shapes places = some t) made sources := by
  -- A shape and the places that it comes from; it stretches to the common shape as all inputs do.
  let Joins (t : Shape) (places : List Nat) : Prop := t.BroadcastsTo s ∧ joinAt shapes places = some t
  have hnodes : ∀ n ∈ g.nodes, ¬ n.isParameter = true → ¬ n.isResult = true →
      n.Relates Joins (applyShapes kind) fun _ places (_ : Unit) => some (places.flatten, ()) := by
    intro n hn hparameter hresult ts groups _ _ hcount hjoins
    have hall : ∀ t ∈ ts, t.BroadcastsTo s := by
      intro t ht
      obtain ⟨i, hi, rfl⟩ := List.mem_iff_getElem.mp ht
      exact (hjoins.get hi (hjoins.length_eq ▸ hi)).1
    obtain ⟨t, ht, hstretches⟩ := exists_joined (broadcastsTo_nil s) hall
    have htakes := (hg.operands n hn hparameter hresult).2
    rw [← hcount] at htakes
    refine ⟨t, (), groups.flatten, (), ?_, rfl, hstretches, joinAt_flatten (hjoins.imp fun _ _ h => h.2) ht⟩
    rw [applyShapes, ReferenceOp.onShapes_eq htakes, ht]
    rfl
  have hinputs : List.Forall₂ Joins shapes ((List.range g.parameters.length).map ([·])) := by
    refine List.forall₂_iff_get.mpr ⟨by simp [hlength], fun i hi hi' => ?_⟩
    refine ⟨hshapes _ (List.getElem_mem hi), ?_⟩
    simp [joinAt, List.getElem?_eq_getElem hi, broadcast?_nil]
  obtain ⟨v, v', hv, hv', hjoins, hcount⟩ := g.exists_valuate hnodes hlength hinputs () ()
  refine ⟨v.results, v'.results, ?_, ?_, hcount, hjoins.imp fun _ _ h => h.2⟩
  · rw [onShapes_eq, hv]
    rfl
  · rw [sources, hv']
    rfl

end Graph

namespace Executor

variable {e : Executor σ} {dtype : DType} {kind : Node (Evaluator σ) → ReferenceOp} {f f' : Frame}
  {w w' : World σ} {v : Valuation Shape Unit} {before rest : List (Node (Evaluator σ))}
  {node : Node (Evaluator σ)} {slots inputs : List Tensor}

/-! ### Calls and walks with shapes -/

/-- A call in progress and a walk with shapes that has come as far: what is bound, and the slots that are
filled, have the shapes of the walk. -/
structure Shaped (e : Executor σ) (dtype : DType) (f : Frame) (w : World σ) (v : Valuation Shape Unit) :
    Prop where
  length : f.bindings.length = e.graph.tensors.length
  places : f.slots.length = e.graph.results.length
  bound : ∀ h, Option.Rel (Tensor.HasShape dtype) (f.bindings.get? h) (v.env h)
  filled : ∀ (j : Nat) s, v.results[j]? = some s → ∃ t, f.slots[j]? = some t ∧ t.HasShape dtype s
  cancel : w.cancelRequested e.cancel = false

namespace Shaped

theorem congr (h : e.Shaped dtype f w v) (hbindings : f'.bindings = f.bindings) (hslots : f'.slots = f.slots)
    (hcancel : w'.cancelRequested e.cancel = false) : e.Shaped dtype f' w' v :=
  ⟨hbindings ▸ h.length, hslots ▸ h.places, hbindings ▸ h.bound, hslots ▸ h.filled, hcancel⟩

/-- Binding a tensor is giving its shape. -/
theorem bind (h : e.Shaped dtype f w v) {k : Handle} (hk : k < e.graph.tensors.length) {t : Tensor} {s : Shape}
    (ht : t.HasShape dtype s) :
    e.Shaped dtype { f with bindings := f.bindings.bind k t } w (v.bind [k] s) := by
  refine ⟨(List.length_set ..).trans h.length, h.places, fun i => ?_, h.filled, h.cancel⟩
  show Option.Rel _ ((f.bindings.bind k t).get? i) (if i ∈ [k] then some s else v.env i)
  rw [Bindings.get?_bind t (h.length.symm ▸ hk)]
  by_cases hik : i = k
  · rw [if_pos hik, if_pos (hik ▸ List.mem_singleton_self i)]
    exact .some ht
  · rw [if_neg hik, if_neg (fun hmem => hik (List.mem_singleton.mp hmem))]
    exact h.bound i

/-- What a node reads has the shapes that the walk reads, or neither can be read. -/
theorem exists_operands (h : e.Shaped dtype f w v) (hs : List Handle) :
    match hs.mapM v.env with
    | some shapes => shapes.length = hs.length ∧
      ∃ ts, hs.mapM f.bindings.get = .ok ts ∧ List.Forall₂ (Tensor.HasShape dtype) ts shapes
    | none => ∃ error, hs.mapM f.bindings.get = .error error := by
  induction hs with
  | nil => exact ⟨rfl, [], rfl, .nil⟩
  | cons k hs ih =>
      have hk := h.bound k
      rw [List.mapM_cons, List.mapM_cons]
      cases hget : f.bindings.get? k with
      | none =>
          rw [hget] at hk
          cases hv : v.env k with
          | none => exact ⟨.unboundTensor k.describe, by rw [Bindings.get, hget]; rfl⟩
          | some s =>
              rw [hv] at hk
              cases hk
      | some t =>
          rw [hget] at hk
          cases hv : v.env k with
          | none =>
              rw [hv] at hk
              cases hk
          | some s =>
              rw [hv] at hk
              obtain ht | _ := hk
              rw [Bindings.get_eq_ok.mpr hget]
              simp only [Option.bind_eq_bind, Option.bind_some, ok_bind]
              cases hrest : hs.mapM v.env with
              | none =>
                  rw [hrest] at ih
                  obtain ⟨error, herror⟩ := ih
                  exact ⟨error, by rw [herror]; rfl⟩
              | some shapes =>
                  rw [hrest] at ih
                  obtain ⟨hlength, ts, hts, hall⟩ := ih
                  exact ⟨congrArg Nat.succ hlength, t :: ts, by rw [hts]; rfl, .cons ht hall⟩

end Shaped

/-- An elementwise operator is evaluated where it can be walked. -/
theorem follows_evaluateNode_shaped [HalfConversion] (hg : e.graph.IsElementwise dtype kind)
    (hkind : e.IsReference kind) (c : Context) (collect : Bool) (hnode : node ∈ e.graph.nodes)
    (hparameter : ¬ node.isParameter = true) (hresult : ¬ node.isResult = true) (h : e.Shaped dtype f w v) :
    Call.Follows (fun _ f' w' v' => e.Shaped dtype f' w' v') (v.step (Graph.applyShapes kind) node)
      ((e.evaluateNode c collect node).eval f w) := by
  obtain ⟨hone, hevaluator⟩ := hkind node hnode hparameter hresult
  obtain ⟨_, htakes⟩ := hg.operands node hnode hparameter hresult
  obtain ⟨k, houtputs⟩ := List.length_eq_one_iff.mp hone
  have hk : k < e.graph.tensors.length := e.graph.output_lt hnode (houtputs ▸ List.mem_singleton_self k)
  have hdesc : e.graph.tensors[k]? = some e.graph.tensors[k] := List.getElem?_eq_getElem hk
  have hdtype : (e.graph.tensors[k]).dtype = dtype := hg.dtypes _ (List.getElem_mem hk)
  have hread := h.exists_operands node.inputs
  rw [Valuation.step, if_neg hparameter]
  cases hshapes : node.inputs.mapM v.env with
  | none =>
      rw [hshapes] at hread
      obtain ⟨error, herror⟩ := hread
      have hfails : (e.evaluateNode c collect node).eval f w = ((.error error, f), w) := by
        rw [evaluateNode_eq, Call.eval_bind, eval_mapM_bound, herror]
      rw [hfails]
      exact Call.follows_error _
  | some shapes =>
      rw [hshapes] at hread
      obtain ⟨hlength, ts, hts, hall⟩ := hread
      obtain ⟨out, f', s, hout, hbindings, hslots, _, heval⟩ :=
        exists_eval_evaluateNode c collect houtputs hdesc hts hevaluator w
      have h' : e.Shaped dtype f' w v := h.congr hbindings hslots h.cancel
      have hcount : (kind node).operands? = some ts.length := by
        rw [hall.length_eq, hlength]
        exact ReferenceOp.operands?_of_takesOperands htakes
      have hmakes := ReferenceOp.makes_apply hcount
        (fun t ht => by
          obtain ⟨i, hi, rfl⟩ := List.mem_iff_getElem.mp ht
          exact (hall.get hi (hall.length_eq ▸ hi)).1)
        (hall.imp fun _ _ ht => ht.2) (hout.trans hdtype) node.toOperation (c.holding f'.held)
        { w with store := s }
      rw [heval, Option.bind_eq_bind, Option.bind_some, if_neg hresult, Graph.applyShapes,
        ReferenceOp.onShapes_eq (hlength.symm ▸ htakes)]
      cases hjoined : shapes.foldlM broadcast? [] with
      | none =>
          rw [hjoined] at hmakes
          obtain ⟨left, right, houtcome⟩ := hmakes
          simp only [houtcome]
          exact Call.follows_error _
      | some shape =>
          rw [hjoined] at hmakes
          obtain ⟨t, s', houtcome, htdtype, htshape⟩ := hmakes
          obtain ⟨w', hbind, hflags⟩ := exists_bindProduced (e := e) houtputs hdesc
            (htdtype.trans hdtype.symm) htshape collect w.clock f' { w with store := s' }
          simp only [houtcome, hbind, houtputs]
          refine Call.follows_ok ((h'.bind hk ⟨htdtype, htshape⟩).congr rfl rfl ?_)
          rw [World.cancelRequested, hflags]
          exact h.cancel

/-- A result is delivered where it can be walked. -/
theorem follows_deliverNode_shaped (hnodes : e.graph.nodes = before ++ node :: rest)
    (hparameter : ¬ node.isParameter = true) (hresult : node.isResult = true) (h : e.Shaped dtype f w v)
    (hcount : v.results.length = (before.filter (·.isResult)).length) :
    Call.Follows (fun _ f' w' v' => e.Shaped dtype f' w' v' ∧ v'.results.length = v.results.length + 1)
      (v.step (Graph.applyShapes kind) node) ((e.deliverNode node).eval f w) := by
  have hnode : node ∈ e.graph.nodes := hnodes ▸ List.mem_append_right _ List.mem_cons_self
  obtain ⟨input, output, hinput, houtput⟩ := e.graph.result_form hnode hresult
  have hlt := e.graph.output_lt hnode (houtput ▸ List.mem_singleton_self output)
  obtain ⟨slot, hslot⟩ := exists_slot hnodes hresult h.places
  rw [eval_deliverNode hnodes hresult hinput houtput hslot, Valuation.step, if_neg hparameter, hinput,
    List.mapM_cons, List.mapM_nil]
  have hbound := h.bound input
  cases hget : f.bindings.get? input with
  | none =>
      rw [hget] at hbound
      have hnone : v.env input = none := by
        cases hv : v.env input with
        | none => rfl
        | some s =>
            rw [hv] at hbound
            cases hbound
      have herror : f.bindings.get input = .error (.unboundTensor input.describe) := by
        rw [Bindings.get, hget]
      rw [hnone, herror]
      exact Call.follows_error _
  | some value =>
      rw [hget] at hbound
      cases hv : v.env input with
      | none =>
          rw [hv] at hbound
          cases hbound
      | some s =>
          rw [hv] at hbound
          obtain hvalue | _ := hbound
          obtain ⟨slot', store, hdelivered⟩ := exists_delivered slot value w
          rw [Bindings.get_eq_ok.mpr hget]
          simp only [hdelivered, Option.bind_eq_bind, Option.bind_some, Option.pure_def, if_pos hresult, houtput,
            ← hcount]
          have hbind := h.bind hlt hvalue
          have hplace := (List.getElem?_eq_some_iff.mp hslot).1
          rw [← hcount] at hplace
          refine Call.follows_ok ⟨⟨hbind.length, (List.length_set ..).trans h.places, hbind.bound, ?_,
            h.cancel⟩, List.length_append⟩
          intro j t ht
          by_cases hj : j = v.results.length
          · subst hj
            obtain rfl : s = t := by simpa using ht
            obtain ⟨hdtype, hshape⟩ := described_of_delivered hdelivered
            exact ⟨slot', List.getElem?_set_self hplace, hdtype.trans hvalue.1, hshape.trans hvalue.2⟩
          · have hlt : j < v.results.length := by
              have := (List.getElem?_eq_some_iff.mp ht).1
              rw [List.length_append, List.length_singleton] at this
              omega
            rw [List.getElem?_append_left hlt] at ht
            obtain ⟨u, hu, hshape⟩ := h.filled j t ht
            exact ⟨u, (List.getElem?_set_ne (Ne.symm hj)).trans hu, hshape⟩

/-- Every step does what the walk with shapes does. -/
theorem follower_shaped [HalfConversion] (hg : e.graph.IsElementwise dtype kind) (hkind : e.IsReference kind)
    (c : Context) (collect : Bool) : e.Follower c collect (Graph.applyShapes kind) (e.Shaped dtype) where
  cancel {f w v} h := by
    refine ⟨e.polled w, ?_, h.congr rfl rfl (cancelRequested_taken w)⟩
    rw [eval_takeCancel_eq, h.cancel]
  result hnodes hparameter hresult h hcount :=
    follows_deliverNode_shaped hnodes hparameter hresult h hcount
  operator hnode hparameter hresult h :=
    follows_evaluateNode_shaped hg hkind c collect hnode hparameter hresult h

/-! ### Whole calls -/

theorem hasShape_of_checkOperands (hg : e.graph.IsElementwise dtype kind)
    (hcheck : checkOperands e.graph slots inputs = .ok ()) {t : Tensor} (ht : t ∈ inputs) :
    t.HasShape dtype t.extents := by
  obtain ⟨desc, hdesc, hinstance⟩ := exists_desc_of_checkOperands hcheck Store.empty ht
  obtain ⟨hdtype, shape, hshape, _⟩ := Tensor.isInstance_of_value hinstance
  refine ⟨hdtype.trans (hg.dtypes desc hdesc), ?_⟩
  rw [Tensor.extents, hshape, Option.getD_some]

theorem shaped_openedFrame (hg : e.graph.IsElementwise dtype kind)
    (hcheck : checkOperands e.graph slots inputs = .ok ()) (hcancel : w.cancelRequested e.cancel = false) :
    e.Shaped dtype (e.openedFrame slots inputs w) (e.openedWorld w)
      (e.graph.initialValuation (inputs.map Tensor.extents) ()) := by
  have hfits := fits_openedFrame hcheck w
  refine ⟨hfits.bindings, hfits.slots, fun h => ?_, fun j s hs => ?_, ?_⟩
  · rw [← get?_bindInputs Tensor.extents () h]
    show Option.Rel _ ((bindInputs e.graph inputs).get? h) _
    cases hget : (bindInputs e.graph inputs).get? h with
    | none => exact .none
    | some t =>
        have ht := (List.of_mem_zip (mem_zip_of_get?_bindInputs hget)).2
        exact .some (hasShape_of_checkOperands hg hcheck ht)
  · rw [(e.graph.results_initialValuation (inputs.map Tensor.extents) ()).1] at hs
    cases hs
  · unfold openedWorld
    split <;> exact hcancel

/-- Once all results are walked, every slot has the shape of its result. -/
theorem Shaped.forall₂_slots (h : e.Shaped dtype f w v) (hcount : v.results.length = e.graph.results.length) :
    List.Forall₂ (Tensor.HasShape dtype) f.slots v.results := by
  have hlength : f.slots.length = v.results.length := h.places.trans hcount.symm
  refine List.forall₂_iff_get.mpr ⟨hlength, fun j hj hj' => ?_⟩
  obtain ⟨t, ht, hshape⟩ := h.filled j _ (List.getElem?_eq_getElem hj')
  rw [List.getElem?_eq_getElem hj] at ht
  obtain rfl := Option.some.inj ht
  exact hshape

/-- **Shapes.**  A call of a graph of elementwise operators that accepts its operands and is not asked to
cancel completes exactly if the walk with the shapes of the inputs ends, and every slot then has the shape of
its result.  Nothing else matters: not which operands share buffers, nor what the executor remembers. -/
theorem execute_shaped [HalfConversion] (hg : e.graph.IsElementwise dtype kind) (hkind : e.IsReference kind)
    (hcheck : checkOperands e.graph slots inputs = .ok ()) (hcancel : w.cancelRequested e.cancel = false)
    (c : Context) (collect : Bool) :
    match e.graph.onShapes kind (inputs.map Tensor.extents) with
    | some made => ∃ slots' w', (e.execute slots inputs c collect).outcome w = (.ok (.completed, slots'), w') ∧
        List.Forall₂ (Tensor.HasShape dtype) slots' made
    | none => ∃ error w', (e.execute slots inputs c collect).outcome w = (.error error, w') := by
  have hopened := shaped_openedFrame hg hcheck (cancelRequested_startedWorld w inputs c)
  have hempty := (e.graph.results_initialValuation (inputs.map Tensor.extents) ()).1
  have hwalk := (follower_shaped hg hkind (e.contextFor c) collect).runNodes
    (show e.graph.nodes = [] ++ e.graph.nodes from rfl) hopened (by rw [hempty]; rfl)
  rw [execute_eq, outcome_executeNodes hcancel hcheck, Graph.onShapes_eq, Graph.valuate]
  rcases heval : (e.runNodes (e.contextFor c) collect e.graph.nodes).eval
      (e.openedFrame slots inputs (e.startedWorld inputs c w))
      (e.openedWorld (e.startedWorld inputs c w)) with ⟨⟨result, f⟩, w'⟩
  rw [heval] at hwalk
  cases hwalked : e.graph.nodes.foldlM (Valuation.step (Graph.applyShapes kind))
      (e.graph.initialValuation (inputs.map Tensor.extents) ()) with
  | none =>
      rw [hwalked] at hwalk
      obtain ⟨error, rfl⟩ := hwalk
      simp only [heval]
      exact ⟨error, _, rfl⟩
  | some v =>
      rw [hwalked] at hwalk
      obtain ⟨status, rfl, rfl, hfinal, hcount⟩ := hwalk
      simp only [heval]
      exact ⟨f.slots, _, rfl, hfinal.forall₂_slots hcount⟩

/-! ### Slots and results -/

/-- The slots of the first results have the types and the shapes of what is bound to these. -/
def Delivers (e : Executor σ) (count : Nat) (f : Frame) : Prop :=
  ∀ (j : Nat) h, j < count → e.graph.resultHandles[j]? = some h →
    ∃ t slot, f.bindings.get? h = some t ∧ f.slots[j]? = some slot ∧ slot.dtype = t.dtype ∧ slot.shape = t.shape

/-- Only a result fills a slot. -/
theorem slots_stepNode {c : Context} {collect : Bool} (hresult : ¬ node.isResult = true)
    (hstep : (e.stepNode c collect node).eval f w = ((.ok false, f'), w')) : f'.slots = f.slots := by
  have hvisit := visit_stepNode hstep
  generalize e.stepEvent c node f w = event at hvisit
  generalize hr : (Except.ok false : Except Error Bool) = r at hvisit
  cases hvisit with
  | parameter hcancel hparameter => rfl
  | delivered hcancel hdelivers hevent => exact absurd hdelivers hresult
  | evaluated hcancel hoperator hprepared houtcome hbound =>
      obtain ⟨kept, store, rfl, _⟩ := frame_of_prepare hprepared
      rfl
  | cancelled hcancel => rfl
  | unread hcancel hunread hgathered => cases hr
  | unprepared hcancel hoperator hprepared => cases hr
  | failed hcancel hoperator hprepared houtcome => cases hr
  | refused hcancel hoperator hprepared houtcome hbound hrefused => cases hr

theorem Delivers.step {c : Context} {collect : Bool} (hnodes : e.graph.nodes = before ++ node :: rest)
    (hfits : f.Fits e.graph) (h : e.Delivers (before.filter (·.isResult)).length f)
    (hstep : (e.stepNode c collect node).eval f w = ((.ok false, f'), w')) :
    e.Delivers ((before ++ [node]).filter (·.isResult)).length f' := by
  have hmem : node ∈ e.graph.nodes := hnodes ▸ List.mem_append_right before List.mem_cons_self
  by_cases hresult : node.isResult = true
  · obtain ⟨source, output, t, old, slot, -, houtput, -, hold, hdtype, hshape, rfl, -, -⟩ :=
      exists_delivered_stepNode hnodes hfits hresult hstep
    have hplace := e.graph.getElem?_resultHandles hnodes hresult houtput
    have hlt := e.graph.output_lt hmem (houtput ▸ List.mem_singleton_self output)
    intro j k hj hk
    by_cases hlast : j = (before.filter (·.isResult)).length
    · subst hlast
      obtain rfl := Option.some.inj (hplace.symm.trans hk)
      refine ⟨t, slot, Bindings.get?_bind_same t (hfits.bindings.symm ▸ hlt), ?_, hdtype, hshape⟩
      exact List.getElem?_set_self (List.getElem?_eq_some_iff.mp hold).1
    · have hne : output ≠ k := by
        rintro rfl
        have hjlt := (List.getElem?_eq_some_iff.mp hk).1
        exact hlast ((List.getElem?_inj hjlt e.graph.nodup_resultHandles).mp (hk.trans hplace.symm))
      rw [List.filter_append, List.filter_cons_of_pos hresult, List.filter_nil, List.length_append,
        List.length_singleton] at hj
      obtain ⟨u, slot', hu, hslot', hsame⟩ := h j k (by omega) hk
      exact ⟨u, slot', (Bindings.get?_bind_ne _ t hne).trans hu,
        (List.getElem?_set_ne (Ne.symm hlast)).trans hslot', hsame⟩
  · obtain ⟨pairs, hbindings, hfst, _⟩ := exists_pairs hnodes hfits hstep
    rw [List.filter_append, List.filter_cons_of_neg hresult, List.filter_nil, List.append_nil]
    intro j k hj hk
    obtain ⟨t, slot, ht, hslot, hsame⟩ := h j k hj hk
    refine ⟨t, slot, ?_, (slots_stepNode hresult hstep).symm ▸ hslot, hsame⟩
    rw [hbindings, get?_foldl_bind_of_not_mem pairs _ ?_]
    · exact ht
    · rw [hfst]
      split
      · exact List.not_mem_nil
      · exact fun hout => e.graph.not_mem_resultHandles hmem hresult hout (List.mem_of_getElem? hk)

theorem delivers_walk {c : Context} {collect : Bool} (hcheck : checkOperands e.graph slots inputs = .ok ())
    (hnodes : e.graph.nodes = before ++ rest)
    (hwalk : e.walk slots inputs c collect w before = ((.ok .completed, f), w')) :
    e.Delivers (before.filter (·.isResult)).length f :=
  walk_induction (P := fun walked f _ => e.Delivers (walked.filter (·.isResult)).length f)
    (fun _ _ hj => absurd hj (Nat.not_lt_zero _))
    (fun hsplit hwalked hdelivers hstep => hdelivers.step hsplit (fits_of_walk hcheck hwalked) hstep) hnodes hwalk

/-- A call that completes leaves every slot with the type and the shape of what is bound to its result,
whatever the evaluators are. -/
theorem forall₂_slots_of_completed {c : Context} {collect : Bool} {slots' : List Tensor}
    (h : ((e.execute slots inputs c collect).outcome w).1 = .ok (.completed, slots')) :
    List.Forall₂ (fun k (slot : Tensor) => ∃ t,
        (e.walk slots inputs c collect w e.graph.nodes).1.2.bindings.get? k = some t ∧
        slot.dtype = t.dtype ∧ slot.shape = t.shape) e.graph.resultHandles slots' := by
  obtain ⟨-, hcheck, f, w', hwalk, rfl⟩ := exists_walk_of_completed h
  have hdelivers := delivers_walk hcheck (List.append_nil e.graph.nodes).symm hwalk
  have hfits := fits_of_walk hcheck hwalk
  rw [hwalk]
  refine List.forall₂_iff_get.mpr ⟨e.graph.length_resultHandles.trans hfits.slots.symm, fun j hj hj' => ?_⟩
  have hcount : j < (e.graph.nodes.filter (·.isResult)).length := by
    rw [e.graph.length_resultHandles, Graph.results, List.length_map] at hj
    exact hj
  obtain ⟨t, slot, ht, hslot, hsame⟩ := hdelivers j _ hcount (List.getElem?_eq_getElem hj)
  rw [List.getElem?_eq_getElem hj'] at hslot
  obtain rfl := Option.some.inj hslot
  exact ⟨t, ht, hsame⟩

end Executor

end TensorGraph
