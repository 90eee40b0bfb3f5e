import TensorGraph.Proofs.Wellformed

/-! # Which lists of nodes are graphs

`Wellformed` reads the check of a graph back; this module goes the other way.  A list of nodes that
reads only what is produced before, produces each tensor once and nothing else, and gives parameters
and results the operands that they should have (`Graph.WellFormed`) passes every stage of the check, so
that `Graph.ofParts` accepts exactly these lists (`ofParts_accepts`).

Completeness follows the fold of the check: when it reaches a node, the producers entered are those of
the tensors produced so far, hence the node's inputs have one and its outputs have none.  What is left of
the check are the forms of the nodes (`Ordered.check_eq`). -/

namespace TensorGraph

variable {ε : Type}

namespace Producers

variable {p : Producers} {size : Nat} {hs : List Handle}

/-- A node is entered for a tensor that has no producer yet. -/
theorem Lists.exists_produce (h : p.Lists size hs) (node : Node ε) {t : Handle} (hlt : t < size)
    (hnew : t ∉ hs) : ∃ p', Producers.produce node p t = .ok p' := by
  rw [← h.length] at hlt
  refine ⟨_, produce_eq_ok.mpr ⟨?_, rfl⟩⟩
  cases hentry : p[t] with
  | none => rw [List.getElem?_eq_getElem hlt, hentry]
  | some id =>
      have hold : t ∈ hs := (h.mem t).mpr ⟨id, by rw [List.getElem?_eq_getElem hlt, hentry]⟩
      exact absurd hold hnew

theorem Lists.exists_produceAll (node : Node ε) {ts : List Handle} (h : p.Lists size hs)
    (hlt : ∀ t ∈ ts, t < size) (hnodup : (hs ++ ts).Nodup) :
    ∃ p', ts.foldlM (Producers.produce node) p = .ok p' := by
  induction ts generalizing p hs with
  | nil => exact ⟨p, rfl⟩
  | cons t ts ih =>
      obtain ⟨ht, hts⟩ := List.forall_mem_cons.mp hlt
      have hnew : t ∉ hs := fun hold =>
        (List.nodup_append.mp hnodup).2.2 t hold t List.mem_cons_self rfl
      obtain ⟨q, hq⟩ := h.exists_produce node ht hnew
      obtain ⟨p', hp'⟩ := ih (h.produce hq) hts (by rwa [List.append_assoc])
      exact ⟨p', by rw [List.foldlM_cons, hq, ok_bind, hp']⟩

end Producers

namespace Graph

/-! ### Well-formed lists -/

/-- What is asked of the tensors that a list of descriptions has: a node reads tensors that earlier
nodes produce, every tensor is produced once, and parameters and results have their form.  Nothing is
said of outputs beyond the descriptions. -/
structure Produces (tensors : List TensorDesc) (nodes : List (Node ε)) : Prop where
  reads : ∀ i (hi : i < nodes.length), ∀ t ∈ nodes[i].inputs,
    t < tensors.length ∧ ∃ earlier ∈ nodes.take i, t ∈ earlier.outputs
  once : ∀ t < tensors.length, (Node.produced nodes).count t = 1
  parameters : ∀ node ∈ nodes, node.isParameter = true →
    node.inputs = [] ∧ node.outputs.length = 1
  results : ∀ node ∈ nodes, node.isResult = true →
    node.inputs.length = 1 ∧ node.outputs.length = 1 ∧
      ∀ s ∈ node.inputs, ∀ t ∈ node.outputs,
        (tensors[s]?).map (·.dtype) = (tensors[t]?).map (·.dtype)

/-- A list of nodes that is a graph: in addition, every output of a node is a tensor. -/
structure WellFormed (tensors : List TensorDesc) (nodes : List (Node ε)) : Prop
    extends Produces tensors nodes where
  writes : ∀ node ∈ nodes, ∀ t ∈ node.outputs, t < tensors.length

instance (tensors : List TensorDesc) (nodes : List (Node ε)) : Decidable (Produces tensors nodes) :=
  decidable_of_iff (_ ∧ _ ∧ _ ∧ _)
    ⟨fun ⟨hreads, honce, hparameters, hresults⟩ => ⟨hreads, honce, hparameters, hresults⟩,
      fun h => ⟨h.reads, h.once, h.parameters, h.results⟩⟩

instance (tensors : List TensorDesc) (nodes : List (Node ε)) : Decidable (WellFormed tensors nodes) :=
  decidable_of_iff (_ ∧ _) ⟨fun ⟨h, hwrites⟩ => ⟨h, hwrites⟩, fun h => ⟨h.toProduces, h.writes⟩⟩

variable {tensors : List TensorDesc} {nodes : List (Node ε)}

theorem WellFormed.mem_produced (h : WellFormed tensors nodes) {t : Handle}
    (ht : t ∈ Node.produced nodes) : t < tensors.length := by
  obtain ⟨node, hnode, ht⟩ := List.mem_flatMap.mp ht
  exact h.writes node hnode t ht

theorem WellFormed.nodup_produced (h : WellFormed tensors nodes) : (Node.produced nodes).Nodup := by
  apply List.nodup_iff_count_le_one.mpr
  intro t
  by_cases ht : t ∈ Node.produced nodes
  · exact Nat.le_of_eq (h.once t (h.mem_produced ht))
  · rw [List.count_eq_zero_of_not_mem ht]
    exact Nat.zero_le 1

/-- The node after some others reads what these produce. -/
theorem Produces.reads_at (h : Produces tensors nodes) {before rest : List (Node ε)} {node : Node ε}
    (hnodes : nodes = before ++ node :: rest) {t : Handle} (ht : t ∈ node.inputs) :
    t < tensors.length ∧ t ∈ Node.produced before := by
  subst hnodes
  have hat := h.reads before.length (by simp) t
  simp only [List.getElem_append_right (Nat.le_refl _), Nat.sub_self, List.getElem_cons_zero,
    List.take_left] at hat
  obtain ⟨hlt, hbefore⟩ := hat ht
  exact ⟨hlt, List.mem_flatMap.mpr hbefore⟩

/-- What the check finds out of form a well-formed list has in form. -/
theorem checkForm_eq_ok_iff {node : Node ε} (hinputs : ∀ t ∈ node.inputs, t < tensors.length)
    (houtputs : ∀ t ∈ node.outputs, t < tensors.length) :
    checkForm tensors node = .ok () ↔
      (node.isParameter = true → node.inputs = [] ∧ node.outputs.length = 1) ∧
      (node.isResult = true → node.inputs.length = 1 ∧ node.outputs.length = 1 ∧
        ∀ s ∈ node.inputs, ∀ t ∈ node.outputs,
          (tensors[s]?).map (·.dtype) = (tensors[t]?).map (·.dtype)) := by
  unfold checkForm
  by_cases hparameter : node.isParameter = true
  · have hresult := Node.not_isResult hparameter
    rw [if_pos hparameter]
    split
    · rename_i hin hout
      simp [hin, hout, hresult]
    · rename_i hform
      simp only [reduceCtorEq, false_iff, not_and]
      intro h
      obtain ⟨hin, hout⟩ := h hparameter
      obtain ⟨output, hout⟩ := List.length_eq_one_iff.mp hout
      exact absurd hout (hform output hin)
  · rw [if_neg hparameter]
    by_cases hresult : node.isResult = true
    · rw [if_pos hresult]
      split
      · rename_i input output hin hout
        have hlt := hinputs input (by rw [hin]; exact List.mem_singleton_self input)
        have hlt' := houtputs output (by rw [hout]; exact List.mem_singleton_self output)
        simp [hin, hout, hparameter, hresult, hlt, hlt']
      · rename_i hform
        simp only [reduceCtorEq, false_iff, not_and]
        intro _ h
        obtain ⟨hin, hout, -⟩ := h hresult
        obtain ⟨input, hin⟩ := List.length_eq_one_iff.mp hin
        obtain ⟨output, hout⟩ := List.length_eq_one_iff.mp hout
        exact absurd hout (hform input output hin)
    · simp [hparameter, hresult]

/-! ### The check accepts them -/

/-- A list of nodes that produces each tensor once, before it is read.  Nothing is said of the form of
parameters and results. -/
structure Ordered (tensors : List TensorDesc) (nodes : List (Node ε)) : Prop where
  reads : ∀ before node rest, nodes = before ++ node :: rest →
    ∀ t ∈ node.inputs, t ∈ Node.produced before
  produced : ∀ t, t ∈ Node.produced nodes ↔ t < tensors.length
  once : (Node.produced nodes).Nodup

/-- A node that reads what is produced and produces what is not is refused for its form only. -/
theorem exists_checkNode {p : Producers} {hs : List Handle} {node : Node ε}
    (h : p.Lists tensors.length hs) (hreads : ∀ t ∈ node.inputs, t ∈ hs)
    (hwrites : ∀ t ∈ node.outputs, t < tensors.length) (hnodup : (hs ++ node.outputs).Nodup) :
    ∃ p' : Producers, p'.Lists tensors.length (hs ++ node.outputs) ∧
      checkNode tensors p node = (checkForm tensors node).map fun _ => p' := by
  have hread : node.inputs.forM (p.read node) = .ok () :=
    forM_eq_ok.mpr fun t ht => Producers.read_eq_ok.mpr ((h.mem t).mp (hreads t ht))
  obtain ⟨p', hp'⟩ := h.exists_produceAll node hwrites hnodup
  refine ⟨p', h.produceAll hp', ?_⟩
  unfold checkNode
  rw [hread, ok_bind, hp', ok_bind]
  cases checkForm tensors node <;> rfl

/-- The nodes of an ordered list are refused for their forms only, one after the other. -/
theorem Ordered.exists_checkNodes (h : Ordered tensors nodes) {before rest : List (Node ε)}
    (hnodes : nodes = before ++ rest) {p : Producers}
    (hp : p.Lists tensors.length (Node.produced before)) :
    ∃ p' : Producers, p'.Lists tensors.length (Node.produced nodes) ∧
      rest.foldlM (checkNode tensors) p = (rest.forM (checkForm tensors)).map fun _ => p' := by
  induction rest generalizing before p with
  | nil =>
      rw [List.append_nil] at hnodes
      exact ⟨p, hnodes ▸ hp, rfl⟩
  | cons node rest ih =>
      have hnext : Node.produced (before ++ [node]) = Node.produced before ++ node.outputs := by
        simp [Node.produced]
      have hsplit : nodes = before ++ [node] ++ rest := hnodes.trans (List.append_cons ..)
      have hnodup : (Node.produced before ++ node.outputs).Nodup := by
        have honce := h.once
        rw [hsplit, Node.produced_append, hnext] at honce
        exact (List.nodup_append.mp honce).1
      have hwrites (t : Handle) (ht : t ∈ node.outputs) : t < tensors.length :=
        (h.produced t).mp (List.mem_flatMap.mpr
          ⟨node, hnodes ▸ List.mem_append_right before List.mem_cons_self, ht⟩)
      obtain ⟨q, hq, hcheck⟩ := exists_checkNode hp (h.reads before node rest hnodes) hwrites hnodup
      obtain ⟨p', hp', hrest⟩ := ih hsplit (hnext ▸ hq)
      refine ⟨p', hp', ?_⟩
      rw [List.foldlM_cons, hcheck]
      have hcons : (node :: rest).forM (checkForm tensors)
          = checkForm tensors node >>= fun _ => rest.forM (checkForm tensors) := rfl
      rw [hcons]
      cases checkForm tensors node with
      | error defect => rfl
      | ok _ => exact hrest

theorem checkProduced_eq_ok {p : Producers} {hs : List Handle} (h : p.Lists tensors.length hs)
    (hall : ∀ t < tensors.length, t ∈ hs) : checkProduced p = .ok () := by
  unfold checkProduced
  rw [List.findIdx?_eq_none_iff.mpr]
  intro entry hentry
  obtain ⟨t, ht, rfl⟩ := List.mem_iff_getElem.mp hentry
  obtain ⟨id, hid⟩ := (h.mem t).mp (hall t (h.length ▸ ht))
  rw [List.getElem?_eq_getElem ht] at hid
  rw [Option.some.inj hid]
  rfl

/-- Of an ordered list the check finds out nothing but the forms of its nodes. -/
theorem Ordered.check_eq (h : Ordered tensors nodes) :
    check tensors nodes = nodes.forM (checkForm tensors) := by
  obtain ⟨p, hp, hcheck⟩ :=
    h.exists_checkNodes (List.nil_append nodes).symm (Producers.lists_none tensors.length)
  unfold check
  rw [hcheck]
  cases nodes.forM (checkForm tensors) with
  | error defect => rfl
  | ok _ => exact checkProduced_eq_ok hp fun t ht => (h.produced t).mpr ht

theorem WellFormed.ordered (h : WellFormed tensors nodes) : Ordered tensors nodes where
  reads before node rest hnodes t ht := (h.reads_at hnodes ht).2
  produced t := ⟨h.mem_produced, fun ht =>
    List.count_pos_iff.mp (by rw [h.once t ht]; exact Nat.one_pos)⟩
  once := h.nodup_produced

/-- A well-formed list passes the check. -/
theorem WellFormed.check_eq_ok (h : WellFormed tensors nodes) : check tensors nodes = .ok () := by
  rw [h.ordered.check_eq]
  refine forM_eq_ok.mpr fun node hnode => ?_
  obtain ⟨before, rest, hnodes⟩ := List.append_of_mem hnode
  exact (checkForm_eq_ok_iff (fun t ht => (h.reads_at hnodes ht).1) (h.writes node hnode)).mpr
    ⟨h.parameters node hnode, h.results node hnode⟩

/-! ### And no others -/

/-- The nodes of a graph are a well-formed list. -/
theorem wellFormed (g : Graph ε) : WellFormed g.tensors g.nodes := by
  have hreads (i : Nat) (hi : i < g.nodes.length) (t : Handle) (ht : t ∈ g.nodes[i].inputs) :
      t ∈ Node.produced (g.nodes.take i) := by
    have hsplit : g.nodes = g.nodes.take i ++ g.nodes[i] :: g.nodes.drop (i + 1) := by simp
    exact g.reads_earlier hsplit ht
  have hinputs (node : Node ε) (hnode : node ∈ g.nodes) (t : Handle) (ht : t ∈ node.inputs) :
      t < g.tensors.length := by
    obtain ⟨i, hi, rfl⟩ := List.mem_iff_getElem.mp hnode
    obtain ⟨earlier, hearlier, ht⟩ := List.mem_flatMap.mp (hreads i hi t ht)
    exact g.output_lt (List.mem_of_mem_take hearlier) ht
  have hform (node : Node ε) (hnode : node ∈ g.nodes) :=
    (checkForm_eq_ok_iff (hinputs node hnode) fun _ => g.output_lt hnode).mp
      (g.checkForm_eq_ok hnode)
  constructor
  · constructor
    · intro i hi t ht
      exact ⟨hinputs _ (List.getElem_mem hi) t ht, List.mem_flatMap.mp (hreads i hi t ht)⟩
    · intro t ht
      exact List.count_eq_one_of_mem g.nodup_produced ((g.mem_produced t).mpr ht)
    · intro node hnode
      exact (hform node hnode).1
    · intro node hnode
      exact (hform node hnode).2
  · intro node hnode t
    exact g.output_lt hnode

/-! ### Numbering -/

/-- What the check looks at in a node. -/
def form (node : Node ε) : OpType × List Handle × List Handle := (node.op, node.inputs, node.outputs)

theorem map_form_number : (Node.number nodes).map form = nodes.map form := by
  apply List.ext_getElem?
  intro i
  simp only [Node.number, List.getElem?_map, List.getElem?_mapIdx, Option.map_map]
  rfl

/-- Nodes of the same form are well formed together. -/
theorem WellFormed.congr {nodes' : List (Node ε)} (hforms : nodes'.map form = nodes.map form)
    (h : WellFormed tensors nodes) : WellFormed tensors nodes' := by
  have hproduced : Node.produced nodes' = Node.produced nodes := by
    have hflat (l : List (Node ε)) : Node.produced l = (l.map form).flatMap (·.2.2) := by
      rw [List.flatMap_map]
      rfl
    rw [hflat, hforms, ← hflat]
  have hlength : nodes'.length = nodes.length := by simpa using congrArg List.length hforms
  have hmem {l l' : List (Node ε)} (hl : l'.map form = l.map form) {node : Node ε}
      (hnode : node ∈ l') : ∃ node' ∈ l, form node' = form node :=
    List.mem_map.mp (hl ▸ List.mem_map_of_mem hnode)
  have hforall {P : OpType × List Handle × List Handle → Prop}
      (hall : ∀ node ∈ nodes, P (form node)) (node : Node ε) (hnode : node ∈ nodes') :
      P (form node) := by
    obtain ⟨node', hnode', hform⟩ := hmem hforms hnode
    exact hform ▸ hall node' hnode'
  constructor
  · constructor
    · intro i hi t ht
      have hat : form nodes[i] = form nodes'[i] := by
        have := congrArg (·[i]?) hforms
        simpa [hi, hlength ▸ hi] using this.symm
      have hinputs : nodes[i].inputs = nodes'[i].inputs := congrArg (·.2.1) hat
      obtain ⟨hlt, earlier, hearlier, hout⟩ := h.reads i (hlength ▸ hi) t (hinputs ▸ ht)
      obtain ⟨earlier', hearlier', hform⟩ := hmem (l := nodes'.take i)
        (by rw [List.map_take, List.map_take, hforms]) hearlier
      have houtputs : earlier'.outputs = earlier.outputs := congrArg (·.2.2) hform
      exact ⟨hlt, earlier', hearlier', houtputs ▸ hout⟩
    · rw [hproduced]
      exact h.once
    · exact hforall (P := fun f => (f.1 == .parameter) = true → f.2.1 = [] ∧ f.2.2.length = 1)
        h.parameters
    · exact hforall (P := fun f => (f.1 == .result) = true → f.2.1.length = 1 ∧ f.2.2.length = 1 ∧
        ∀ s ∈ f.2.1, ∀ t ∈ f.2.2, (tensors[s]?).map (·.dtype) = (tensors[t]?).map (·.dtype))
        h.results
  · exact hforall (P := fun f => ∀ t ∈ f.2.2, t < tensors.length) h.writes

/-- The ids of some of the nodes of a graph are their positions, in order. -/
theorem map_id_filter (g : Graph ε) (p : Node ε → Bool) :
    (g.nodes.filter p).map (·.id) = (List.range g.nodes.length).filter fun i => (g.nodes[i]?).any p := by
  have hid {i : Nat} {node : Node ε} (hnode : g.nodes[i]? = some node) : node.id = i :=
    Node.id_number (g.numbered.symm ▸ hnode)
  have hrange : List.range g.nodes.length = g.nodes.map (·.id) := by
    apply List.ext_getElem (by simp)
    intro i hi hi'
    rw [List.getElem_range, List.getElem_map, hid (List.getElem?_eq_getElem _)]
  rw [hrange, List.filter_map]
  congr 1
  apply List.filter_congr
  intro node hnode
  obtain ⟨i, hi⟩ := List.mem_iff_getElem?.mp hnode
  simp [hid hi, hi]

theorem parts_of_ofParts {g : Graph ε} (hg : ofParts tensors nodes = .ok g) :
    g.tensors = tensors ∧ g.nodes = Node.number nodes := by
  unfold ofParts at hg
  split at hg
  · obtain rfl := Except.ok.inj hg
    exact ⟨rfl, rfl⟩
  · cases hg

theorem exists_ofParts_iff : (∃ g, ofParts tensors nodes = .ok g) ↔ WellFormed tensors nodes := by
  constructor
  · rintro ⟨g, hg⟩
    obtain ⟨rfl, hnodes⟩ := parts_of_ofParts hg
    have hwf := g.wellFormed
    rw [hnodes] at hwf
    exact hwf.congr map_form_number.symm
  · intro hwf
    have hcheck := (hwf.congr map_form_number).check_eq_ok
    unfold ofParts
    split
    · exact ⟨_, rfl⟩
    · rename_i defect hdefect
      rw [hcheck] at hdefect
      cases hdefect

/-- `ofParts` accepts exactly the well-formed lists.  The graph has the given tensors and nodes, numbered
by their positions, and its parameters and results are the positions of the nodes of these kinds. -/
theorem ofParts_accepts (tensors : List TensorDesc) (nodes : List (Node ε)) :
    ((∃ g, ofParts tensors nodes = .ok g) ↔ WellFormed tensors nodes) ∧
    ∀ g, ofParts tensors nodes = .ok g →
      g.tensors = tensors ∧ g.nodes.length = nodes.length ∧
      (∀ i, g.nodes[i]? = (nodes[i]?).map fun node : Node ε => ({ node with id := i } : Node ε)) ∧
      g.parameters = (List.range nodes.length).filter (fun i => (nodes[i]?).any (·.isParameter)) ∧
      g.results = (List.range nodes.length).filter (fun i => (nodes[i]?).any (·.isResult)) := by
  refine ⟨exists_ofParts_iff, fun g hg => ?_⟩
  obtain ⟨rfl, hnodes⟩ := parts_of_ofParts hg
  have hlength : g.nodes.length = nodes.length := by rw [hnodes, Node.length_number]
  have hat (i : Nat) :
      g.nodes[i]? = (nodes[i]?).map fun node : Node ε => ({ node with id := i } : Node ε) := by
    rw [hnodes, Node.number, List.getElem?_mapIdx]
  have hpositions (p : Node ε → Bool)
      (hp : ∀ (i : Nat) (node : Node ε), p ({ node with id := i } : Node ε) = p node) :
      (g.nodes.filter p).map (·.id) = (List.range nodes.length).filter fun i => (nodes[i]?).any p := by
    rw [map_id_filter, hlength]
    apply List.filter_congr
    intro i _
    rw [hat, Option.any_map]
    exact congrArg (fun q => (nodes[i]?).any q) (funext (hp i))
  exact ⟨rfl, hlength, hat, hpositions _ fun _ _ => rfl, hpositions _ fun _ _ => rfl⟩

/-- The nodes of a graph that doubles its input. -/
def doublerNodes : List (Node Empty) :=
  [⟨⟨0, .parameter, none, [], [0], none⟩, none⟩, ⟨⟨0, .add, none, [0, 0], [1], none⟩, none⟩,
    ⟨⟨0, .result, none, [1], [2], none⟩, none⟩]

theorem ofParts_accepts_doubler :
    ∃ g, ofParts (List.replicate 3 ⟨.f32, [.fixed 2]⟩) doublerNodes = .ok g ∧ g.parameters = [0] ∧
      g.results = [2] := by
  obtain ⟨haccepts, hparts⟩ := ofParts_accepts (List.replicate 3 ⟨.f32, [.fixed 2]⟩) doublerNodes
  obtain ⟨g, hg⟩ := haccepts.mpr (by decide)
  obtain ⟨_, _, _, hparameters, hresults⟩ := hparts g hg
  exact ⟨g, hg, hparameters, hresults⟩

/-- A node that writes beyond the descriptions is refused, though each tensor, of which there are none,
is produced as it should be. -/
theorem dangling_output_refused :
    Produces [] [(⟨⟨0, ⟨"Op"⟩, none, [], [0], none⟩, none⟩ : Node Empty)] ∧
      ofParts [] [(⟨⟨0, ⟨"Op"⟩, none, [], [0], none⟩, none⟩ : Node Empty)]
        = .error (.invalidGraph "node 0 writes unknown tensor %0") :=
  ⟨by decide, rfl⟩

end Graph

end TensorGraph
