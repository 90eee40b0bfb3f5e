import TensorGraph.Proofs.Gathering
import TensorGraph.Proofs.Relating
import TensorGraph.Proofs.Storing

/-! # Graphs computed point by point

A graph of elementwise operators can be walked with one element of each input (`Graph.onElements`), where
every operator rounds to the element type, or with the shapes of the inputs (`Graph.onShapes`).  If all
inputs stretch to one shape, then so does every value in between, and at each index of this shape the value
of a tensor is read at the element that the walk with elements gives to the tensor (`Value.ReadsAt`).  What
the graph denotes is therefore known point by point (`IsElementwise.valuate_eq_pointwise`). -/

namespace TensorGraph

variable {ε : Type}

open Shape

/-! ### Walks with elements and with shapes -/

namespace ReferenceOp

/-- The function that a binary elementwise operator computes in binary64. -/
def combiner? : ReferenceOp → Option (Float → Float → Float)
  | add => some (· + ·)
  | subtract => some (· - ·)
  | multiply => some (· * ·)
  | _ => none

/-- The element that an elementwise operator makes of elements. -/
def onElements [HalfConversion] (dtype : DType) (op : ReferenceOp) (xs : List Nat) : Option Nat :=
  match op, op.combiner?, xs with
  | relu, _, [x] => some (dtype.ofFloat (Elementwise.positivePart (dtype.toFloat x)))
  | _, some f, [x, y] => some (dtype.ofFloat (f (dtype.toFloat x) (dtype.toFloat y)))
  | _, _, _ => none

/-- The shape of what an elementwise operator makes of operands with some shapes. -/
def onShapes (op : ReferenceOp) (shapes : List Shape) : Option Shape :=
  match op, op.combiner?, shapes with
  | relu, _, [s] => some s
  | _, some _, [s, t] => broadcast? s t
  | _, _, _ => none

theorem denote_of_combiner [HalfConversion] {op : ReferenceOp} {f : Float → Float → Float} (h : op.combiner? = some f)
    (varId : Option VariableId) (a b : Value) (vars : VariableValues) :
    op.denote varId [a, b] vars = (Value.binary f a b).map (·, vars) := by
  cases op with
  | add | subtract | multiply =>
      obtain rfl := Option.some.inj h
      rfl
  | relu | accumulate | readValue | assign => cases h

theorem onShapes_of_combiner {op : ReferenceOp} {f : Float → Float → Float} (h : op.combiner? = some f)
    (s t : Shape) : op.onShapes [s, t] = broadcast? s t := by
  cases op with
  | add | subtract | multiply => rfl
  | relu | accumulate | readValue | assign => cases h

theorem onElements_of_combiner [HalfConversion] {op : ReferenceOp} {f : Float → Float → Float}
    (h : op.combiner? = some f) (dtype : DType) (x y : Nat) :
    op.onElements dtype [x, y] = some (dtype.ofFloat (f (dtype.toFloat x) (dtype.toFloat y))) := by
  cases op with
  | add | subtract | multiply =>
      obtain rfl := Option.some.inj h
      rfl
  | relu | accumulate | readValue | assign => cases h

/-- An operator is elementwise and takes so many operands. -/
def TakesOperands (op : ReferenceOp) (count : Nat) : Prop :=
  op = relu ∧ count = 1 ∨ op.combiner?.isSome = true ∧ count = 2

instance (op : ReferenceOp) (count : Nat) : Decidable (op.TakesOperands count) :=
  inferInstanceAs (Decidable (_ ∨ _))

end ReferenceOp

namespace Graph

/-- The results that a graph of elementwise operators makes of one element of each input. -/
def onElements [HalfConversion] (g : Graph ε) (dtype : DType) (kind : Node ε → ReferenceOp) (xs : List Nat) :
    Option (List Nat) :=
  (g.valuate (fun n xs _ => ((kind n).onElements dtype xs).map (·, ())) xs ()).map (·.results)

/-- The shapes of the results of a graph of elementwise operators. -/
def onShapes (g : Graph ε) (kind : Node ε → ReferenceOp) (shapes : List Shape) : Option (List Shape) :=
  (g.valuate (fun n shapes _ => ((kind n).onShapes shapes).map (·, ())) shapes ()).map (·.results)

/-- All tensors have one element type, and the nodes are elementwise operators with one output. -/
structure IsElementwise (g : Graph ε) (dtype : DType) (kind : Node ε → ReferenceOp) : Prop where
  dtypes : ∀ desc ∈ g.tensors, desc.dtype = dtype
  operands : ∀ n ∈ g.nodes, ¬ n.isParameter = true → ¬ n.isResult = true →
    n.outputs.length = 1 ∧ (kind n).TakesOperands n.inputs.length

end Graph

/-! ### Values that stretch to a shape -/

namespace Value

/-- The element of a value that is read for the `k`-th index of a shape; 0 if there is none. -/
def elementAt (s : Shape) (k : Nat) (v : Value) : Nat :=
  v.elements[elementFor s (v.shape.getD []) k]?.getD 0

/-- A value of an element type has a shape that stretches to another one, and the bytes that it needs. -/
structure StretchesTo (dtype : DType) (s : Shape) (v : Value) (t : Shape) : Prop where
  dtype_eq : v.dtype = dtype
  shape_eq : v.shape = some t
  broadcasts : t.BroadcastsTo s
  size_eq : v.bytes.size = t.size * dtype.size

/-- A value is read at an element for an index of a shape that it stretches to, if there is this index. -/
def ReadsAt (dtype : DType) (s : Shape) (k : Nat) (v : Value) (x : Nat) : Prop :=
  ∃ t, v.StretchesTo dtype s t ∧ (k < s.size → v.elements[elementFor s t k]? = some x)

variable {dtype : DType} {s t : Shape} {v : Value}

theorem StretchesTo.length_elements (h : v.StretchesTo dtype s t) : v.elements.length = t.size := by
  rw [elements, h.dtype_eq]
  exact dtype.length_elements h.size_eq

theorem StretchesTo.size_lt (h : v.StretchesTo dtype s t) (hs : s.size < 2 ^ 63) (hpositive : s.Positive) :
    t.size < Word.size := by
  have hle := size_le_of_broadcastsTo h.broadcasts hpositive
  rw [Word.size_eq]
  omega

theorem StretchesTo.readsAt (h : v.StretchesTo dtype s t) (k : Nat) :
    v.ReadsAt dtype s k (v.elementAt s k) := by
  refine ⟨t, h, fun hk => ?_⟩
  have hlt := elementFor_lt h.broadcasts (size_pos_iff.mp (Nat.zero_lt_of_lt hk)) k
  rw [elementAt, h.shape_eq, Option.getD_some, List.getElem?_eq_getElem (by rw [h.length_elements]; exact hlt),
    Option.getD_some]

theorem readsAt_map {values : List Value} {shapes : List Shape}
    (h : List.Forall₂ (Value.StretchesTo dtype s) values shapes) (k : Nat) :
    List.Forall₂ (Value.ReadsAt dtype s k) values (values.map (·.elementAt s k)) := by
  induction h with
  | nil => exact .nil
  | cons hv _ ih => exact .cons (hv.readsAt k) ih

theorem exists_shapes {values : List Value} {xs : List Nat} {k : Nat}
    (h : List.Forall₂ (Value.ReadsAt dtype s k) values xs) :
    ∃ shapes, List.Forall₂ (Value.StretchesTo dtype s) values shapes := by
  induction h with
  | nil => exact ⟨[], .nil⟩
  | cons hv _ ih =>
      obtain ⟨t, ht, _⟩ := hv
      obtain ⟨shapes, hshapes⟩ := ih
      exact ⟨t :: shapes, .cons ht hshapes⟩

/-- The element that a value is read at is the one that the walk with elements gives. -/
theorem ReadsAt.elementAt_eq {k x : Nat} (h : v.ReadsAt dtype s k x) (hk : k < s.size) :
    v.elementAt s k = x := by
  obtain ⟨t, ht, hread⟩ := h
  rw [elementAt, ht.shape_eq, Option.getD_some, hread hk, Option.getD_some]

theorem stretchesTo_ofElements (dtype : DType) {ys : List Nat} (ht : t.BroadcastsTo s)
    (hlength : ys.length = t.size) :
    (ofElements dtype t ys).StretchesTo dtype s t :=
  ⟨rfl, rfl, ht, by rw [ofElements, dtype.size_bytes, hlength]⟩

theorem elements_ofElements {ys : List Nat} (hbits : ∀ y ∈ ys, y < dtype.patterns) :
    (ofElements dtype t ys).elements = ys :=
  dtype.elements_bytes hbits

/-- A value that is known to stretch to its own shape is the one with its elements. -/
theorem StretchesTo.eq_ofElements (h : v.StretchesTo dtype s s) :
    v = .ofElements dtype s ((List.range s.size).map fun k => v.elementAt s k) := by
  have helements : (List.range s.size).map (fun k => v.elementAt s k) = v.elements := by
    refine List.ext_getElem? fun k => ?_
    rw [List.getElem?_map]
    by_cases hk : k < s.size
    · obtain ⟨t, ht, hread⟩ := h.readsAt k
      obtain rfl : t = s := Option.some.inj (ht.shape_eq.symm.trans h.shape_eq)
      rw [List.getElem?_range hk, Option.map_some, ← hread hk, elementFor_self, Nat.mod_eq_of_lt hk]
    · rw [List.getElem?_eq_none (by rw [List.length_range]; omega),
        List.getElem?_eq_none (by rw [h.length_elements]; omega)]
      rfl
  obtain ⟨hdtype, hshape, _, hsize⟩ := h
  obtain ⟨vdtype, vshape, bytes⟩ := v
  obtain rfl : vdtype = dtype := hdtype
  obtain rfl : vshape = some s := hshape
  rw [helements]
  exact congrArg (Value.mk vdtype (some s)) (vdtype.bytes_elements hsize).symm

/-! ### Operators point by point -/

variable [HalfConversion]

theorem exists_relu (h : v.StretchesTo dtype s t) :
    ∃ y, v.relu = some y ∧ y.StretchesTo dtype s t ∧ ∀ k x, v.ReadsAt dtype s k x →
      y.ReadsAt dtype s k (dtype.ofFloat (Elementwise.positivePart (dtype.toFloat x))) := by
  have hlength : (Elementwise.mapElements dtype Elementwise.positivePart v.elements).length = t.size := by
    rw [Elementwise.mapElements, List.length_map, h.length_elements]
  have hstretches := stretchesTo_ofElements dtype h.broadcasts hlength
  refine ⟨_, relu_eq_some.mpr ⟨t, h.shape_eq, rfl⟩, h.dtype_eq.symm ▸ hstretches, ?_⟩
  rintro k x ⟨t', ht', hread⟩
  obtain rfl : t' = t := Option.some.inj (ht'.shape_eq.symm.trans h.shape_eq)
  rw [h.dtype_eq]
  refine ⟨t', hstretches, fun hk => ?_⟩
  rw [elements_ofElements fun y hy => ?_]
  · rw [Elementwise.mapElements, List.getElem?_map, hread hk]
    rfl
  · obtain ⟨x', _, rfl⟩ := List.mem_map.mp hy
    exact dtype.ofFloat_lt _

/-- A binary operator combines two values point by point, also where these are small and the shape that
they stretch to is not. -/
theorem exists_binary (f : Float → Float → Float) {w : Value} {u : Shape}
    (hv : v.StretchesTo dtype s t) (hw : w.StretchesTo dtype s u)
    (hwords : s.Positive → t.size < Word.size ∧ u.size < Word.size) :
    ∃ shape y, broadcast? t u = some shape ∧ binary f v w = some y ∧ y.StretchesTo dtype s shape ∧
      ∀ k a b, v.ReadsAt dtype s k a → w.ReadsAt dtype s k b →
        y.ReadsAt dtype s k (dtype.ofFloat (f (dtype.toFloat a) (dtype.toFloat b))) := by
  obtain ⟨shape, hshape, hstretch⟩ := exists_broadcast? hv.broadcasts hw.broadcasts
  obtain ⟨ht, hu⟩ := broadcastsTo_of_broadcast? hshape
  obtain ⟨left, hleft, _⟩ := Layout.exists_view ht
  obtain ⟨right, hright, _⟩ := Layout.exists_view hu
  obtain ⟨hleftLength, hleftRead⟩ := Elementwise.getElem?_gather ht hleft v.elements
  obtain ⟨hrightLength, hrightRead⟩ := Elementwise.getElem?_gather hu hright w.elements
  have hlength : (Elementwise.zipElements dtype f (Elementwise.gather v.elements left)
      (Elementwise.gather w.elements right)).length = shape.size := by
    rw [Elementwise.zipElements, List.length_zipWith, hleftLength, hrightLength, Nat.min_self]
  have hstretches := stretchesTo_ofElements dtype hstretch hlength
  refine ⟨shape, _, hshape, binary_eq_some.mpr ⟨hv.dtype_eq.trans hw.dtype_eq.symm, t, u, shape, left, right,
    hv.shape_eq, hw.shape_eq, hshape, hleft, hright, rfl⟩, hv.dtype_eq.symm ▸ hstretches, ?_⟩
  rintro k a b ⟨t', ht', ha⟩ ⟨u', hu', hb⟩
  obtain rfl : t' = t := Option.some.inj (ht'.shape_eq.symm.trans hv.shape_eq)
  obtain rfl : u' = u := Option.some.inj (hu'.shape_eq.symm.trans hw.shape_eq)
  rw [hv.dtype_eq]
  refine ⟨shape, hstretches, fun hk => ?_⟩
  have hpositive := size_pos_iff.mp (Nat.zero_lt_of_lt hk)
  obtain ⟨hleftWord, hrightWord⟩ := hwords hpositive
  have hlt := elementFor_lt hstretch hpositive k
  rw [elements_ofElements fun y hy => ?_]
  · rw [Elementwise.zipElements, List.getElem?_zipWith, hleftRead hleftWord _ hlt, hrightRead hrightWord _ hlt,
      elementFor_trans ht hstretch hpositive, elementFor_trans hu hstretch hpositive, ha hk, hb hk]
    rfl
  · obtain ⟨i, hi⟩ := List.mem_iff_getElem?.mp hy
    rw [Elementwise.zipElements, List.getElem?_zipWith_eq_some] at hi
    obtain ⟨_, _, _, _, rfl⟩ := hi
    exact dtype.ofFloat_lt _

end Value

/-! ### Graphs point by point -/

namespace Graph

variable {g : Graph ε} {dtype : DType} {kind : Node ε → ReferenceOp} {s : Shape} [HalfConversion]

/-- A node of a graph of elementwise operators makes values that stretch to a shape of such values: which
shape these have and at which elements they are read is as the walks with shapes and elements say. -/
theorem IsElementwise.exists_apply (hg : g.IsElementwise dtype kind) (hs : s.size < 2 ^ 63) {n : Node ε}
    (hn : n ∈ g.nodes) (hparameter : ¬ n.isParameter = true) (hresult : ¬ n.isResult = true)
    {values : List Value} {shapes : List Shape} (hlength : values.length = n.inputs.length)
    (hvalues : List.Forall₂ (Value.StretchesTo dtype s) values shapes) (vars : VariableValues) :
    ∃ v t, g.applyReference kind n values vars = some (v, vars) ∧ (kind n).onShapes shapes = some t ∧
      v.StretchesTo dtype s t ∧ ∀ k xs, List.Forall₂ (Value.ReadsAt dtype s k) values xs →
        ∃ x, (kind n).onElements dtype xs = some x ∧ v.ReadsAt dtype s k x := by
  obtain ⟨hone, hoperands⟩ := hg.operands n hn hparameter hresult
  obtain ⟨output, houtput⟩ := List.length_eq_one_iff.mp hone
  have houtputLt := g.output_lt hn (houtput ▸ List.mem_singleton_self output)
  -- The output is described with the element type, so that the value may be bound to it.
  have hbind : ∀ v t, v.StretchesTo dtype s t → (kind n).denote n.varId values vars = some (v, vars) →
      g.applyReference kind n values vars = some (v, vars) := by
    intro v t hv hdenote
    have hdesc : (g.tensors[output]).dtype = dtype := hg.dtypes _ (List.getElem_mem houtputLt)
    unfold applyReference
    simp only [hdenote, Option.bind_eq_bind, Option.bind_some, houtput, List.head?_cons,
      List.getElem?_eq_getElem houtputLt]
    rw [guard, if_pos ⟨by rw [hv.shape_eq]; rfl, hv.dtype_eq.trans hdesc.symm⟩]
    rfl
  rcases hoperands with ⟨hrelu, hcount⟩ | ⟨hbinary, hcount⟩
  · rw [hcount] at hlength
    obtain ⟨a, rfl⟩ := List.length_eq_one_iff.mp hlength
    obtain ⟨t, rfl⟩ : ∃ t, shapes = [t] := List.length_eq_one_iff.mp (hvalues.length_eq ▸ hlength)
    obtain ⟨ha, _⟩ := List.forall₂_cons.mp hvalues
    obtain ⟨v, hv, hstretches, hreads⟩ := Value.exists_relu ha
    refine ⟨v, t, hbind v t hstretches ?_, ?_, hstretches, fun k xs hxs => ?_⟩
    · rw [hrelu, ReferenceOp.denote, hv]
      rfl
    · rw [hrelu]
      rfl
    · obtain ⟨x, rfl⟩ : ∃ x, xs = [x] := List.length_eq_one_iff.mp (hxs.length_eq ▸ hlength)
      rw [hrelu]
      exact ⟨_, rfl, hreads k x (List.forall₂_cons.mp hxs).1⟩
  · rw [hcount] at hlength
    obtain ⟨a, b, rfl⟩ := List.length_eq_two.mp hlength
    obtain ⟨t, u, rfl⟩ : ∃ t u, shapes = [t, u] := List.length_eq_two.mp (hvalues.length_eq ▸ hlength)
    obtain ⟨ha, hvalues⟩ := List.forall₂_cons.mp hvalues
    obtain ⟨hb, _⟩ := List.forall₂_cons.mp hvalues
    obtain ⟨f, hf⟩ := Option.isSome_iff_exists.mp hbinary
    obtain ⟨shape, v, hshape, hv, hstretches, hreads⟩ := Value.exists_binary f ha hb fun hpositive =>
      ⟨ha.size_lt hs hpositive, hb.size_lt hs hpositive⟩
    refine ⟨v, shape, hbind v shape hstretches ?_, ?_, hstretches, fun k xs hxs => ?_⟩
    · rw [ReferenceOp.denote_of_combiner hf, hv]
      rfl
    · rw [ReferenceOp.onShapes_of_combiner hf, hshape]
    · obtain ⟨x, y, rfl⟩ : ∃ x y, xs = [x, y] := List.length_eq_two.mp (hxs.length_eq ▸ hlength)
      obtain ⟨hx, hxs⟩ := List.forall₂_cons.mp hxs
      rw [ReferenceOp.onElements_of_combiner hf]
      exact ⟨_, rfl, hreads k x y hx (List.forall₂_cons.mp hxs).1⟩

/-- The values that a graph of elementwise operators gives to its results, point by point over a shape. -/
def pointwise (g : Graph ε) (dtype : DType) (kind : Node ε → ReferenceOp) (s : Shape)
    (inputs : List Value) : List Value :=
  (List.range g.results.length).map fun j => .ofElements dtype s ((List.range s.size).map fun k =>
    (((g.onElements dtype kind (inputs.map (·.elementAt s k))).getD [])[j]?).getD 0)

/-- A walk with values that stretch to a shape ends, and so do the walks with shapes and with elements. -/
theorem IsElementwise.exists_valuate (hg : g.IsElementwise dtype kind) (hs : s.size < 2 ^ 63)
    {inputs : List Value} {shapes : List Shape} (hlength : inputs.length = g.parameters.length)
    (hinputs : List.Forall₂ (Value.StretchesTo dtype s) inputs shapes) (vars : VariableValues) :
    ∃ v, g.valuate (g.applyReference kind) inputs vars = some v ∧ v.results.length = g.results.length ∧
      (∃ made, g.onShapes kind shapes = some made ∧
        List.Forall₂ (Value.StretchesTo dtype s) v.results made) ∧
      ∀ k, ∃ ys, g.onElements dtype kind (inputs.map (·.elementAt s k)) = some ys ∧
        List.Forall₂ (Value.ReadsAt dtype s k) v.results ys := by
  have hshapes : ∀ n ∈ g.nodes, ¬ n.isParameter = true → ¬ n.isResult = true →
      n.Relates (Value.StretchesTo dtype s) (g.applyReference kind)
        fun n shapes (_ : Unit) => ((kind n).onShapes shapes).map (·, ()) := by
    intro n hn hparameter hresult values shapes vars _ hcount hvalues
    obtain ⟨v, t, hv, ht, hstretches, _⟩ := hg.exists_apply hs hn hparameter hresult hcount hvalues vars
    exact ⟨v, vars, t, (), hv, congrArg (Option.map (·, ())) ht, hstretches⟩
  have helements (k : Nat) : ∀ n ∈ g.nodes, ¬ n.isParameter = true → ¬ n.isResult = true →
      n.Relates (Value.ReadsAt dtype s k) (g.applyReference kind)
        fun n xs (_ : Unit) => ((kind n).onElements dtype xs).map (·, ()) := by
    intro n hn hparameter hresult values xs vars _ hcount hvalues
    obtain ⟨shapes, hshapes⟩ := Value.exists_shapes hvalues
    obtain ⟨v, t, hv, _, _, hreads⟩ := hg.exists_apply hs hn hparameter hresult hcount hshapes vars
    obtain ⟨x, hx, hread⟩ := hreads k xs hvalues
    exact ⟨v, vars, x, (), hv, congrArg (Option.map (·, ())) hx, hread⟩
  obtain ⟨v, made, hv, hmade, hresults, hcount⟩ := g.exists_valuate hshapes hlength hinputs vars ()
  refine ⟨v, hv, hcount, ⟨made.results, by rw [onShapes, hmade]; rfl, hresults⟩, fun k => ?_⟩
  obtain ⟨v', ys, hv', hys, hresults', _⟩ :=
    g.exists_valuate (helements k) hlength (Value.readsAt_map hinputs k) vars ()
  obtain rfl := Option.some.inj (hv.symm.trans hv')
  exact ⟨ys.results, by rw [onElements, hys]; rfl, hresults'⟩

/-- At each index of a shape there is an element for every result, and it fits into the element type. -/
theorem IsElementwise.exists_onElements (hg : g.IsElementwise dtype kind) (hs : s.size < 2 ^ 63)
    {inputs : List Value} {shapes : List Shape} (hlength : inputs.length = g.parameters.length)
    (hinputs : List.Forall₂ (Value.StretchesTo dtype s) inputs shapes) {k : Nat} (hk : k < s.size) :
    ∃ ys, g.onElements dtype kind (inputs.map (·.elementAt s k)) = some ys ∧
      ys.length = g.results.length ∧ ∀ y ∈ ys, y < dtype.patterns := by
  obtain ⟨v, _, hcount, _, helements⟩ := hg.exists_valuate hs hlength hinputs fun _ => none
  obtain ⟨ys, hys, hreads⟩ := helements k
  refine ⟨ys, hys, hreads.length_eq.symm.trans hcount, fun y hy => ?_⟩
  obtain ⟨j, hj, rfl⟩ := List.mem_iff_getElem.mp hy
  obtain ⟨t, ht, hread⟩ := hreads.get (hreads.length_eq.symm ▸ hj) hj
  have hmem := List.mem_of_getElem? (hread hk)
  rw [Value.elements, ht.dtype_eq] at hmem
  exact dtype.lt_of_mem_elements ht.size_eq hmem

/-- What a graph of elementwise operators denotes is computed point by point over a shape to which all
inputs stretch, if this is the shape of all results. -/
theorem IsElementwise.valuate_eq_pointwise (hg : g.IsElementwise dtype kind) (hs : s.size < 2 ^ 63)
    {inputs : List Value} {shapes : List Shape} (hlength : inputs.length = g.parameters.length)
    (hinputs : List.Forall₂ (Value.StretchesTo dtype s) inputs shapes)
    (hshapes : ∀ made, g.onShapes kind shapes = some made → ∀ t ∈ made, t = s) (vars : VariableValues) :
    ∃ v, g.valuate (g.applyReference kind) inputs vars = some v ∧
      v.results = g.pointwise dtype kind s inputs := by
  obtain ⟨v, hv, hcount, ⟨made, hmade, hresults⟩, helements⟩ := hg.exists_valuate hs hlength hinputs vars
  refine ⟨v, hv, List.ext_getElem? fun j => ?_⟩
  rw [pointwise, List.getElem?_map]
  by_cases hj : j < g.results.length
  · have hjv : j < v.results.length := hcount.symm ▸ hj
    have hjmade : j < made.length := hresults.length_eq ▸ hjv
    have hstretches := hresults.get hjv hjmade
    simp only [List.get_eq_getElem] at hstretches
    rw [hshapes made hmade _ (List.getElem_mem hjmade)] at hstretches
    rw [List.getElem?_range hj, Option.map_some, List.getElem?_eq_getElem hjv]
    refine congrArg some (hstretches.eq_ofElements.trans (congrArg (Value.ofElements dtype s) ?_))
    refine List.map_congr_left fun k hk => ?_
    obtain ⟨ys, hys, hreads⟩ := helements k
    have hjys : j < ys.length := hreads.length_eq ▸ hjv
    have hread := hreads.get hjv hjys
    simp only [List.get_eq_getElem] at hread
    rw [hread.elementAt_eq (List.mem_range.mp hk), hys, Option.getD_some, List.getElem?_eq_getElem hjys,
      Option.getD_some]
  · rw [List.getElem?_eq_none (by rw [hcount]; omega), List.getElem?_eq_none (by rw [List.length_range]; omega)]
    rfl

end Graph

end TensorGraph
