import Mathlib.Data.List.Forall2
import Mathlib.Data.List.Induction
import TensorGraph.Graph.Builder
import TensorGraph.Operators.Reference
import TensorGraph.Proofs.Joining
import TensorGraph.Proofs.Wellformed

/-! # Descriptions that are inferred

A builder that appends parameters of one element type, elementwise operators and results infers the
description of every other tensor (`GraphBuilder.Inferring`).  Its graph is typed: what a node produces is
described as follows from the descriptions of what it reads (`Node.Typed`, `Inferring.typed`).

`Inferred` keeps track of what is known while the operands are gone through.  It describes the common
shape of all shapes that the operands can have (`Inferred.Describes`), and if every operand is fully known,
there is a common shape (`Inferred.exists_joined`). -/

namespace TensorGraph

variable {ε : Type}

theorem exists_mem_of_forall₂ {α β : Type} {R : α → β → Prop} {as : List α} {bs : List β}
    (h : List.Forall₂ R as bs) {b : β} (hb : b ∈ bs) : ∃ a ∈ as, R a b := by
  induction h with
  | nil => exact (List.not_mem_nil hb).elim
  | cons hab _ ih =>
      rcases List.mem_cons.mp hb with rfl | hb
      · exact ⟨_, List.mem_cons_self, hab⟩
      · obtain ⟨a, ha, hab⟩ := ih hb
        exact ⟨a, List.mem_cons_of_mem _ ha, hab⟩

/-! ### Partially known shapes -/

namespace PartialShape

variable {p : PartialShape} {s : Shape}

theorem length_of_accepts (h : p.accepts s = true) : p.length = s.length := by
  induction p generalizing s with
  | nil => cases s <;> simp_all [accepts]
  | cons d p ih =>
      cases s with
      | nil => simp [accepts] at h
      | cons n s =>
          rw [accepts, Bool.and_eq_true] at h
          simp [ih h.2]

/-- A fully known shape accepts itself only. -/
theorem eq_of_toShape? {t : Shape} (h : p.accepts s = true) (ht : p.toShape? = some t) : s = t := by
  induction p generalizing s t with
  | nil =>
      cases s with
      | nil => simpa [toShape?] using ht
      | cons n s => simp [accepts] at h
  | cons d p ih =>
      cases s with
      | nil => simp [accepts] at h
      | cons n s =>
          rw [accepts, Bool.and_eq_true] at h
          simp only [toShape?, List.mapM_cons, Option.bind_eq_bind, Option.bind_eq_some_iff,
            Option.pure_def, Option.some.injEq] at ht
          obtain ⟨m, hm, t, ht, rfl⟩ := ht
          cases d with
          | dynamic => simp [Dim.extent?] at hm
          | fixed k =>
              have hk : k = n := by simpa [Dim.accepts] using h.1
              have hkm : k = m := by simpa [Dim.extent?] using hm
              rw [ih h.2 ht, ← hk, hkm]

theorem isStatic_iff : p.isStatic = true ↔ ∃ t, p.toShape? = some t := by
  induction p with
  | nil => simp [isStatic, toShape?]
  | cons d p ih =>
      simp only [isStatic, toShape?, List.all_cons, Bool.and_eq_true, List.mapM_cons,
        Option.bind_eq_bind, Option.bind_eq_some_iff, Option.pure_def, Option.some.injEq] at ih ⊢
      rw [ih, Option.isSome_iff_exists]
      constructor
      · rintro ⟨⟨n, hn⟩, t, ht⟩
        exact ⟨n :: t, n, hn, t, ht, rfl⟩
      · rintro ⟨_, n, hn, t, ht, rfl⟩
        exact ⟨⟨n, hn⟩, t, ht⟩

theorem accepts_dynamic (s : Shape) : (dynamic s.length).accepts s = true := by
  induction s with
  | nil => rfl
  | cons n s ih => simpa [dynamic, List.replicate_succ, accepts, Dim.accepts] using ih

end PartialShape

/-! ### Going through the operands -/

namespace GraphBuilder

namespace Inferred

/-- The shape that is inferred after all operands. -/
def partialShape (i : Inferred) : PartialShape :=
  match i.shape with
  | some shape => .ofShape shape
  | none => .dynamic i.rank

/-- What is inferred describes a shape: it has its rank, and is the shape itself if that is known. -/
structure Describes (i : Inferred) (s : Shape) : Prop where
  rank : i.rank = s.length
  shape : ∀ t, i.shape = some t → t = s

variable {i j : Inferred} {desc : TensorDesc} {descs : List TensorDesc} {s t c : Shape}
  {shapes : List Shape}

theorem Describes.accepts (h : i.Describes s) : i.partialShape.accepts s = true := by
  unfold partialShape
  cases hshape : i.shape with
  | some t => exact (PartialShape.accepts_ofShape t s).mpr (h.shape t hshape)
  | none =>
      simp only [h.rank]
      exact PartialShape.accepts_dynamic s

/-- One more operand: the common shape with any shape that it accepts is described. -/
theorem Describes.join (h : i.Describes s) (hjoin : i.join desc = .ok j)
    (ht : desc.shape.accepts t = true) (hc : Shape.broadcast? s t = some c) : j.Describes c := by
  have hrank : max i.rank desc.shape.length = c.length := by
    rw [h.rank, PartialShape.length_of_accepts ht, Shape.length_broadcast? hc]
  unfold Inferred.join at hjoin
  split at hjoin
  · rename_i acc known hacc hknown
    obtain ⟨d, hd, hj⟩ := bind_eq_ok.mp hjoin
    obtain rfl := pure_eq_ok.mp hj
    refine ⟨hrank, fun u hu => ?_⟩
    rw [Shape.broadcast_eq_ok, h.shape acc hacc, ← PartialShape.eq_of_toShape? ht hknown, hc] at hd
    simp_all
  · obtain rfl := pure_eq_ok.mp hjoin
    exact ⟨hrank, nofun⟩

/-- After all operands, the common shape of any shapes that they accept is described. -/
theorem Describes.joinAll (h : i.Describes s) (hjoin : descs.foldlM Inferred.join i = .ok j)
    (hshapes : List.Forall₂ (fun desc t => desc.shape.accepts t = true) descs shapes)
    (hc : shapes.foldlM Shape.broadcast? s = some c) : j.Describes c := by
  induction hshapes generalizing i s with
  | nil =>
      obtain rfl := Except.ok.inj hjoin
      obtain rfl := Option.some.inj hc
      exact h
  | cons ht _ ih =>
      rw [List.foldlM_cons, bind_eq_ok] at hjoin
      obtain ⟨k, hk, hjoin⟩ := hjoin
      rw [List.foldlM_cons] at hc
      obtain ⟨d, hd, hc⟩ := Option.bind_eq_some_iff.mp hc
      exact ih (h.join hk ht hd) hjoin hc

/-- Operands that are fully known have a common shape if they have passed, and what is inferred of them is
that shape. -/
theorem exists_joined (hi : i.shape = some s) (hjoin : descs.foldlM Inferred.join i = .ok j)
    (hstatic : ∀ desc ∈ descs, desc.shape.isStatic = true) :
    ∃ known c, List.Forall₂ (fun desc t => desc.shape.toShape? = some t) descs known ∧
      known.foldlM Shape.broadcast? s = some c ∧ j.shape = some c := by
  induction descs generalizing i s with
  | nil =>
      obtain rfl := Except.ok.inj hjoin
      exact ⟨[], s, .nil, rfl, hi⟩
  | cons desc descs ih =>
      obtain ⟨hdesc, hstatic⟩ := List.forall_mem_cons.mp hstatic
      obtain ⟨t, ht⟩ := PartialShape.isStatic_iff.mp hdesc
      rw [List.foldlM_cons, bind_eq_ok] at hjoin
      obtain ⟨k, hk, hjoin⟩ := hjoin
      unfold Inferred.join at hk
      simp only [hi, ht] at hk
      obtain ⟨d, hd, hk⟩ := bind_eq_ok.mp hk
      obtain rfl := pure_eq_ok.mp hk
      obtain ⟨known, c, hknown, hc, hj⟩ := ih rfl hjoin hstatic
      refine ⟨t :: known, c, .cons ht hknown, ?_, hj⟩
      rw [List.foldlM_cons, Shape.broadcast_eq_ok.mp hd]
      exact hc

/-- Shapes that are fully known are the only ones that are accepted. -/
theorem shapes_eq_known {known : List Shape}
    (hknown : List.Forall₂ (fun desc t => desc.shape.toShape? = some t) descs known)
    (hshapes : List.Forall₂ (fun desc t => desc.shape.accepts t = true) descs shapes) :
    shapes = known := by
  induction hknown generalizing shapes with
  | nil => exact List.forall₂_nil_left_iff.mp hshapes
  | cons ht _ ih =>
      obtain ⟨_, _, hhead, htail, rfl⟩ := List.forall₂_cons_left_iff.mp hshapes
      rw [PartialShape.eq_of_toShape? hhead ht, ih htail]

theorem isStatic_partialShape (hshape : i.shape = some s) : i.partialShape.isStatic = true := by
  rw [partialShape, hshape]
  exact PartialShape.isStatic_iff.mpr ⟨s, PartialShape.toShape?_ofShape s⟩

end Inferred

end GraphBuilder

/-! ### Typed nodes -/

/-- The number of operands of an elementwise operator. -/
def ReferenceOp.operands? : ReferenceOp → Option Nat
  | relu => some 1
  | add | subtract | multiply => some 2
  | accumulate | readValue | assign => none

/-- What a node produces is described as the descriptions of what it reads say: a result has the
description of its value, and an elementwise operator the inferred one. -/
inductive Node.Typed (tensors : List TensorDesc) (node : Node ε) : Prop
  | parameter (hop : node.op = .parameter)
  | result {value output : Handle} {desc : TensorDesc} (hop : node.op = .result)
      (hinputs : node.inputs = [value]) (houtputs : node.outputs = [output])
      (hvalue : tensors[value]? = some desc) (houtput : tensors[output]? = some desc)
  | operator {kind : ReferenceOp} {descs : List TensorDesc} {inferred : GraphBuilder.Inferred}
      {output : Handle} {desc : TensorDesc} (hop : node.op = kind.opType) (hinline : node.inline = none)
      (hcount : kind.operands? = some node.inputs.length)
      (hinputs : List.Forall₂ (fun h desc => tensors[h]? = some desc) node.inputs descs)
      (hinferred : descs.foldlM GraphBuilder.Inferred.join ⟨0, some []⟩ = .ok inferred)
      (houtputs : node.outputs = [output]) (houtput : tensors[output]? = some desc)
      (hshape : desc.shape = inferred.partialShape)

/-- More descriptions behind the others make no difference. -/
theorem Node.Typed.append {tensors : List TensorDesc} {node : Node ε} (h : node.Typed tensors)
    (more : List TensorDesc) : node.Typed (tensors ++ more) := by
  have hkept : ∀ {h : Handle} {desc : TensorDesc}, tensors[h]? = some desc →
      (tensors ++ more)[h]? = some desc := by
    intro h desc hdesc
    rw [List.getElem?_append_left (List.getElem?_eq_some_iff.mp hdesc).1, hdesc]
  cases h with
  | parameter hop => exact .parameter hop
  | result hop hinputs houtputs hvalue houtput =>
      exact .result hop hinputs houtputs (hkept hvalue) (hkept houtput)
  | operator hop hinline hcount hinputs hinferred houtputs houtput hshape =>
      exact .operator hop hinline hcount (hinputs.imp fun _ _ => hkept) hinferred houtputs
        (hkept houtput) hshape

/-- The number of a node makes no difference. -/
theorem Node.Typed.withId {tensors : List TensorDesc} {node : Node ε} (h : node.Typed tensors)
    (id : Nat) : Node.Typed tensors { node with id := id } := by
  cases h with
  | parameter hop => exact .parameter hop
  | result hop hinputs houtputs hvalue houtput => exact .result hop hinputs houtputs hvalue houtput
  | operator hop hinline hcount hinputs hinferred houtputs houtput hshape =>
      exact .operator hop hinline hcount hinputs hinferred houtputs houtput hshape

/-- A typed node that reads fully known tensors produces fully known tensors. -/
theorem Node.Typed.isStatic_outputs {tensors : List TensorDesc} {node : Node ε}
    (htyped : node.Typed tensors)
    (hinputs : ∀ i ∈ node.inputs, ∀ desc, tensors[i]? = some desc → desc.shape.isStatic = true)
    (hparameter : node.isParameter = true →
      ∀ h ∈ node.outputs, ∀ desc, tensors[h]? = some desc → desc.shape.isStatic = true) :
    ∀ h ∈ node.outputs, ∀ desc, tensors[h]? = some desc → desc.shape.isStatic = true := by
  intro h hh desc hdesc
  cases htyped with
  | parameter hop => exact hparameter (beq_iff_eq.mpr hop) h hh desc hdesc
  | @result value output desc' hop hreads houtputs hvalue houtput =>
      obtain rfl : h = output := by simpa [houtputs] using hh
      obtain rfl := Option.some.inj (hdesc.symm.trans houtput)
      exact hinputs value (by simp [hreads]) desc hvalue
  | @operator kind descs inferred output desc' hop hinline hcount hreads hinferred houtputs houtput
      hshape =>
      obtain rfl : h = output := by simpa [houtputs] using hh
      obtain rfl := Option.some.inj (hdesc.symm.trans houtput)
      have hstatic : ∀ d ∈ descs, d.shape.isStatic = true := by
        intro d hd
        obtain ⟨i, hi, hdesc⟩ := exists_mem_of_forall₂ hreads hd
        exact hinputs i hi d hdesc
      obtain ⟨_, _, _, _, hknown⟩ := GraphBuilder.Inferred.exists_joined rfl hinferred hstatic
      rw [hshape]
      exact GraphBuilder.Inferred.isStatic_partialShape hknown

/-- If the parameters of a typed graph are fully known, so is every tensor. -/
theorem Graph.isStatic_of_parameters {g : Graph ε} (htyped : ∀ node ∈ g.nodes, node.Typed g.tensors)
    (hparameters : ∀ desc ∈ g.parameterDescs, desc.shape.isStatic = true) :
    ∀ desc ∈ g.tensors, desc.shape.isStatic = true := by
  -- by induction on the nodes so far, since a node reads only what they produce
  have hproduced : ∀ before rest, g.nodes = before ++ rest → ∀ h ∈ Node.produced before,
      ∀ desc, g.tensors[h]? = some desc → desc.shape.isStatic = true := by
    intro before
    induction before using List.reverseRecOn with
    | nil => exact fun _ _ h hh => (List.not_mem_nil hh).elim
    | append_singleton before node ih =>
        intro rest hnodes h hh
        rw [List.append_assoc, List.singleton_append] at hnodes
        have hbefore := ih (node :: rest) hnodes
        have hnode : node ∈ g.nodes := hnodes ▸ List.mem_append_right _ List.mem_cons_self
        rw [Node.produced_append, List.mem_append] at hh
        rcases hh with hh | hh
        · exact hbefore h hh
        · refine (htyped node hnode).isStatic_outputs
            (fun i hi => hbefore i (g.reads_earlier hnodes hi)) (fun hparameter k hk desc hdesc => ?_)
            h (by simpa [Node.produced] using hh)
          have hmem : node ∈ g.parameterNodes := List.mem_filter.mpr ⟨hnode, hparameter⟩
          exact hparameters desc
            (List.mem_filterMap.mpr ⟨k, List.mem_flatMap.mpr ⟨node, hmem, hk⟩, hdesc⟩)
  intro desc hdesc
  obtain ⟨h, hh⟩ := List.mem_iff_getElem?.mp hdesc
  exact hproduced g.nodes [] (List.append_nil _).symm h
    ((g.mem_produced h).mpr (List.getElem?_eq_some_iff.mp hh).1) desc hh

/-! ### Builders -/

namespace GraphBuilder

variable {b b' : GraphBuilder ε} {dtype : DType}

/-- The builders that come about by appending parameters of one element type, elementwise operators with
as many operands as they take, and results.  A call that fails leaves the builder as it was. -/
inductive Inferring (dtype : DType) : GraphBuilder ε → Prop
  | empty : Inferring dtype .empty
  | parameter {b : GraphBuilder ε} (h : Inferring dtype b) (shape : PartialShape) :
      Inferring dtype (b.parameter ⟨dtype, shape⟩).2
  | op {b b' : GraphBuilder ε} (h : Inferring dtype b) {kind : ReferenceOp} {inputs : List Handle}
      {output : Handle} (hcount : kind.operands? = some inputs.length)
      (hop : b.op kind.opType inputs = .ok (output, b')) : Inferring dtype b'
  | result {b b' : GraphBuilder ε} (h : Inferring dtype b) {value output : Handle}
      (hresult : b.result value = .ok (output, b')) : Inferring dtype b'

theorem desc_eq_ok {h : Handle} {desc : TensorDesc} : b.desc h = .ok desc ↔ b.tensors[h]? = some desc := by
  unfold GraphBuilder.desc
  cases b.tensors[h]? <;> simp

theorem addOne_eq_ok {op : OpType} {inputs : List Handle} {desc : TensorDesc} {output : Handle}
    (h : b.addOne op inputs desc = .ok (output, b')) :
    b' = (b.append ⟨op, none, inputs, [desc], none, none⟩).2 := by
  unfold addOne add at h
  obtain ⟨p, hp, h⟩ := bind_eq_ok.mp h
  split at hp
  · simp [bind_eq_ok] at hp
  · obtain ⟨_, _, hp⟩ := bind_eq_ok.mp hp
    obtain rfl := pure_eq_ok.mp hp
    exact (Prod.mk.inj (pure_eq_ok.mp h)).2.symm

theorem result_eq_ok {value output : Handle} (h : b.result value = .ok (output, b')) :
    ∃ desc, b.tensors[value]? = some desc ∧
      b' = (b.append ⟨.result, none, [value], [desc], none, none⟩).2 := by
  obtain ⟨desc, hdesc, h⟩ := bind_eq_ok.mp h
  exact ⟨desc, desc_eq_ok.mp hdesc, addOne_eq_ok h⟩

/-- The inferred shape comes from the descriptions of the operands. -/
theorem inferShape_eq_ok {inputs : List Handle} {shape : PartialShape}
    (h : b.inferShape inputs = .ok shape) :
    ∃ descs inferred, List.Forall₂ (fun h desc => b.tensors[h]? = some desc) inputs descs ∧
      descs.foldlM Inferred.join ⟨0, some []⟩ = .ok inferred ∧ shape = inferred.partialShape := by
  have hfold : ∀ (inputs : List Handle) (i j : Inferred),
      inputs.foldlM (fun i h => do i.join (← b.desc h)) i = .ok j →
      ∃ descs, List.Forall₂ (fun h desc => b.tensors[h]? = some desc) inputs descs ∧
        descs.foldlM Inferred.join i = .ok j := by
    intro inputs
    induction inputs with
    | nil => exact fun i j hij => ⟨[], .nil, hij⟩
    | cons k inputs ih =>
        intro i j hij
        rw [List.foldlM_cons, bind_eq_ok] at hij
        obtain ⟨i', hi', hij⟩ := hij
        obtain ⟨desc, hdesc, hjoin⟩ := bind_eq_ok.mp hi'
        obtain ⟨descs, hdescs, hfold⟩ := ih i' j hij
        refine ⟨desc :: descs, .cons (desc_eq_ok.mp hdesc) hdescs, ?_⟩
        rw [List.foldlM_cons, bind_eq_ok]
        exact ⟨i', hjoin, hfold⟩
  obtain ⟨inferred, hinferred, h⟩ := bind_eq_ok.mp h
  obtain ⟨descs, hdescs, hjoin⟩ := hfold inputs _ inferred hinferred
  refine ⟨descs, inferred, hdescs, hjoin, ?_⟩
  rw [← pure_eq_ok.mp h]
  rfl

theorem op_eq_ok {op : OpType} {inputs : List Handle} {output : Handle}
    (h : b.op op inputs = .ok (output, b')) :
    ∃ first ∈ inputs, ∃ desc shape, b.tensors[first]? = some desc ∧ b.inferShape inputs = .ok shape ∧
      b' = (b.append ⟨op, none, inputs, [⟨desc.dtype, shape⟩], none, none⟩).2 := by
  unfold GraphBuilder.op at h
  split at h
  · cases h
  · rename_i first rest
    obtain ⟨desc, hdesc, h⟩ := bind_eq_ok.mp h
    obtain ⟨shape, hshape, h⟩ := bind_eq_ok.mp h
    exact ⟨first, List.mem_cons_self, desc, shape, desc_eq_ok.mp hdesc, hshape, addOne_eq_ok h⟩

/-- Every tensor has the one element type, and every node is typed. -/
structure Typed (dtype : DType) (tensors : List TensorDesc) (nodes : List (Node ε)) : Prop where
  dtype : ∀ desc ∈ tensors, desc.dtype = dtype
  nodes : ∀ node ∈ nodes, node.Typed tensors

/-- Appending a node with one output that is typed. -/
theorem Typed.append (h : Typed dtype b.tensors b.nodes) {spec : NodeSpec ε} {desc : TensorDesc}
    (houtputs : spec.outputs = [desc]) (hdtype : desc.dtype = dtype)
    (hnode : Node.Typed (b.tensors ++ [desc])
      ⟨⟨b.nodes.length, spec.op, spec.name, spec.inputs, [b.tensors.length], spec.varId⟩, spec.inline⟩) :
    Typed dtype (b.append spec).2.tensors (b.append spec).2.nodes := by
  simp only [GraphBuilder.append, houtputs, List.length_singleton, List.range'_one]
  refine ⟨fun d hd => ?_, fun node hmem => ?_⟩
  · rcases List.mem_append.mp hd with hd | hd
    · exact h.dtype d hd
    · rwa [List.mem_singleton.mp hd]
  · rcases List.mem_append.mp hmem with hmem | hmem
    · exact (h.nodes node hmem).append [desc]
    · rwa [List.mem_singleton.mp hmem]

/-- A builder that infers keeps its parts typed. -/
theorem Inferring.parts_typed (h : Inferring dtype b) : Typed dtype b.tensors b.nodes := by
  have hlast : ∀ (tensors : List TensorDesc) (desc : TensorDesc),
      (tensors ++ [desc])[tensors.length]? = some desc := fun _ _ => List.getElem?_concat_length
  have hkept : ∀ {tensors : List TensorDesc} {h : Handle} {desc : TensorDesc} (last : TensorDesc),
      tensors[h]? = some desc → (tensors ++ [last])[h]? = some desc := by
    intro tensors h desc last hdesc
    rw [List.getElem?_append_left (List.getElem?_eq_some_iff.mp hdesc).1, hdesc]
  induction h with
  | empty => exact ⟨nofun, nofun⟩
  | parameter _ shape ih => exact ih.append rfl rfl (.parameter rfl)
  | @op b _ _ kind inputs _ hcount hop ih =>
      obtain ⟨first, _, desc, shape, hfirst, hshape, rfl⟩ := op_eq_ok hop
      obtain ⟨descs, inferred, hdescs, hinferred, rfl⟩ := inferShape_eq_ok hshape
      refine ih.append rfl (ih.dtype desc (List.mem_of_getElem? hfirst)) ?_
      exact .operator rfl rfl hcount (hdescs.imp fun _ _ => hkept _) hinferred rfl (hlast _ _) rfl
  | result _ hresult ih =>
      obtain ⟨desc, hdesc, rfl⟩ := result_eq_ok hresult
      refine ih.append rfl (ih.dtype desc (List.mem_of_getElem? hdesc)) ?_
      exact .result rfl rfl rfl (hkept _ hdesc) (hlast _ _)

theorem build_eq_ok {g : Graph ε} (h : b.build = .ok g) :
    g.tensors = b.tensors ∧ g.nodes = Node.number b.nodes := by
  unfold build Graph.ofParts at h
  split at h
  · obtain rfl := Except.ok.inj h
    exact ⟨rfl, rfl⟩
  · cases h

/-- The graph of a builder that infers is typed. -/
theorem Inferring.typed (h : Inferring dtype b) {g : Graph ε} (hbuild : b.build = .ok g) :
    Typed dtype g.tensors g.nodes := by
  obtain ⟨htensors, hnodes⟩ := build_eq_ok hbuild
  have hparts := h.parts_typed
  rw [htensors, hnodes]
  refine ⟨hparts.dtype, fun node hnode => ?_⟩
  obtain ⟨id, hid, rfl⟩ := List.mem_mapIdx.mp hnode
  exact (hparts.nodes _ (List.getElem_mem hid)).withId id

end GraphBuilder

end TensorGraph
