import Mathlib.Data.List.Flatten
import Mathlib.Data.List.Nodup
import TensorGraph.Proofs.Outcomes

/-! # What a checked graph looks like

A graph carries the outcome of its check, and this module reads it back: every tensor is produced once
(`nodup_produced`, `mem_produced`), a node reads only what earlier nodes produce (`reads_earlier`), and
parameters and results have the operands that they should (`parameter_form`, `result_form`).  The check
folds over the nodes; what carries it is that the producers entered so far are those of the tensors
produced so far. -/

namespace TensorGraph

variable {ε : Type}

/-- The tensors that some nodes produce. -/
def Node.produced (nodes : List (Node ε)) : List Handle := nodes.flatMap (·.outputs)

theorem Node.produced_append (nodes rest : List (Node ε)) :
    Node.produced (nodes ++ rest) = Node.produced nodes ++ Node.produced rest :=
  List.flatMap_append

theorem Node.not_isResult {node : Node ε} (hparameter : node.isParameter = true) :
    ¬ node.isResult = true := by
  intro hresult
  have hop : OpType.parameter = OpType.result :=
    (beq_iff_eq.mp hparameter).symm.trans (beq_iff_eq.mp hresult)
  exact absurd hop (by decide)

theorem foldlM_append_cons {α β δ : Type} {f : β → α → Except δ β} {before rest : List α} {a : α}
    {b r : β} (h : (before ++ a :: rest).foldlM f b = .ok r) :
    ∃ b' b'', before.foldlM f b = .ok b' ∧ f b' a = .ok b'' ∧ rest.foldlM f b'' = .ok r := by
  rw [List.foldlM_append, bind_eq_ok] at h
  obtain ⟨b', hbefore, h⟩ := h
  rw [List.foldlM_cons, bind_eq_ok] at h
  obtain ⟨b'', ha, hrest⟩ := h
  exact ⟨b', b'', hbefore, ha, hrest⟩

theorem forM_eq_ok {α δ : Type} {f : α → Except δ Unit} {l : List α} :
    l.forM f = .ok () ↔ ∀ a ∈ l, f a = .ok () := by
  induction l with
  | nil => exact ⟨fun _ _ h => (List.not_mem_nil h).elim, fun _ => rfl⟩
  | cons a l ih =>
      rw [List.forall_mem_cons]
      refine bind_eq_ok.trans ?_
      constructor
      · rintro ⟨⟨⟩, ha, hl⟩
        exact ⟨ha, ih.mp hl⟩
      · rintro ⟨ha, hl⟩
        exact ⟨(), ha, ih.mpr hl⟩

/-! ### Producers -/

namespace Producers

/-- The producers of exactly the given tensors are entered, each once, in a list of some length. -/
structure Lists (p : Producers) (size : Nat) (hs : List Handle) : Prop where
  length : p.length = size
  mem : ∀ h, h ∈ hs ↔ ∃ id, p[h]? = some (some id)
  nodup : hs.Nodup

variable {p p' : Producers} {size : Nat} {hs : List Handle}

theorem Lists.lt (h : p.Lists size hs) {t : Handle} (ht : t ∈ hs) : t < size := by
  obtain ⟨id, hid⟩ := (h.mem t).mp ht
  rw [← h.length]
  exact (List.getElem?_eq_some_iff.mp hid).1

theorem lists_none (size : Nat) : Lists (List.replicate size none) size [] where
  length := List.length_replicate
  mem h := by
    constructor
    · exact fun hmem => (List.not_mem_nil hmem).elim
    · rintro ⟨id, hid⟩
      cases List.eq_of_mem_replicate (List.mem_of_getElem? hid)
  nodup := List.nodup_nil

theorem produce_eq_ok {node : Node ε} {t : Handle} :
    produce node p t = .ok p' ↔ p[t]? = some none ∧ p' = p.set t (some node.id) := by
  unfold produce
  cases hp : p[t]? with
  | none => simp
  | some entry => cases entry <;> simp [eq_comm]

theorem read_eq_ok {node : Node ε} {t : Handle} :
    p.read node t = .ok () ↔ ∃ id, p[t]? = some (some id) := by
  unfold read
  split <;> simp_all

theorem Lists.produce (h : p.Lists size hs) {node : Node ε} {t : Handle}
    (hp : Producers.produce node p t = .ok p') : p'.Lists size (hs ++ [t]) := by
  obtain ⟨hnone, rfl⟩ := produce_eq_ok.mp hp
  have hlt := (List.getElem?_eq_some_iff.mp hnone).1
  have hnew : t ∉ hs := fun ht => by
    obtain ⟨id, hid⟩ := (h.mem t).mp ht
    rw [hnone] at hid
    cases hid
  refine ⟨by rw [List.length_set, h.length], fun k => ?_, ?_⟩
  · rw [List.mem_append, List.mem_singleton, h.mem k]
    by_cases hk : k = t
    · subst hk
      simp [hlt]
    · simp [List.getElem?_set_ne (Ne.symm hk), hk]
  · exact List.nodup_append.mpr ⟨h.nodup, List.nodup_singleton t, fun a ha b hb hab =>
      hnew (List.mem_singleton.mp hb ▸ hab ▸ ha)⟩

theorem Lists.produceAll {node : Node ε} {ts : List Handle} (h : p.Lists size hs)
    (hp : ts.foldlM (Producers.produce node) p = .ok p') : p'.Lists size (hs ++ ts) := by
  induction ts generalizing p hs with
  | nil =>
      obtain rfl := Except.ok.inj hp
      rwa [List.append_nil]
  | cons t ts ih =>
      rw [List.foldlM_cons, bind_eq_ok] at hp
      obtain ⟨q, hq, hp⟩ := hp
      rw [← List.singleton_append, ← List.append_assoc]
      exact ih (h.produce hq) hp

end Producers

/-! ### Nodes -/

namespace Graph

variable {tensors : List TensorDesc} {p p' : Producers} {hs : List Handle}

theorem checkNode_spec {node : Node ε} (h : p.Lists tensors.length hs)
    (hp : checkNode tensors p node = .ok p') :
    p'.Lists tensors.length (hs ++ node.outputs) ∧ (∀ t ∈ node.inputs, t ∈ hs) ∧
      checkForm tensors node = .ok () := by
  unfold checkNode at hp
  obtain ⟨_, hread, hp⟩ := bind_eq_ok.mp hp
  obtain ⟨q, hproduce, hp⟩ := bind_eq_ok.mp hp
  obtain ⟨_, hform, hp⟩ := bind_eq_ok.mp hp
  obtain rfl := Except.ok.inj hp
  refine ⟨h.produceAll hproduce, fun t ht => (h.mem t).mpr ?_, hform⟩
  exact Producers.read_eq_ok.mp (forM_eq_ok.mp hread t ht)

theorem checkNodes_spec {nodes : List (Node ε)} (h : p.Lists tensors.length hs)
    (hp : nodes.foldlM (checkNode tensors) p = .ok p') :
    p'.Lists tensors.length (hs ++ Node.produced nodes) := by
  induction nodes generalizing p hs with
  | nil =>
      obtain rfl := Except.ok.inj hp
      exact (List.append_nil hs).symm ▸ h
  | cons node nodes ih =>
      rw [List.foldlM_cons, bind_eq_ok] at hp
      obtain ⟨q, hq, hp⟩ := hp
      have hnodes := ih (checkNode_spec h hq).1 hp
      rwa [List.append_assoc] at hnodes

variable (g : Graph ε)

/-- The producers after all nodes: every tensor has one. -/
theorem exists_lists : ∃ p : Producers, p.Lists g.tensors.length (Node.produced g.nodes) ∧
    ∀ t < g.tensors.length, t ∈ Node.produced g.nodes := by
  have hchecked := g.checked
  unfold check at hchecked
  obtain ⟨p, hp, hproduced⟩ := bind_eq_ok.mp hchecked
  have hlists := checkNodes_spec (Producers.lists_none g.tensors.length) hp
  refine ⟨p, hlists, fun t ht => (hlists.mem t).mpr ?_⟩
  unfold checkProduced at hproduced
  split at hproduced
  · cases hproduced
  · rename_i hnone
    have hsome := List.findIdx?_eq_none_iff.mp hnone
    rw [← hlists.length] at ht
    specialize hsome p[t] (List.getElem_mem ht)
    obtain ⟨id, hid⟩ := Option.isSome_iff_exists.mp (by simpa using hsome)
    exact ⟨id, by rw [List.getElem?_eq_getElem ht, hid]⟩

/-- The tensors of a graph are those that its nodes produce. -/
theorem mem_produced (t : Handle) : t ∈ Node.produced g.nodes ↔ t < g.tensors.length := by
  obtain ⟨p, hlists, hall⟩ := g.exists_lists
  exact ⟨hlists.lt, hall t⟩

/-- No tensor is produced twice. -/
theorem nodup_produced : (Node.produced g.nodes).Nodup := by
  obtain ⟨p, hlists, _⟩ := g.exists_lists
  exact hlists.nodup

theorem output_lt {node : Node ε} (hnode : node ∈ g.nodes) {t : Handle} (ht : t ∈ node.outputs) :
    t < g.tensors.length :=
  (g.mem_produced t).mp (List.mem_flatMap.mpr ⟨node, hnode, ht⟩)

theorem checked_at {before rest : List (Node ε)} {node : Node ε}
    (h : g.nodes = before ++ node :: rest) :
    (∀ t ∈ node.inputs, t ∈ Node.produced before) ∧ checkForm g.tensors node = .ok () := by
  have hchecked := g.checked
  unfold check at hchecked
  obtain ⟨p, hp, _⟩ := bind_eq_ok.mp hchecked
  rw [h] at hp
  obtain ⟨q, q', hq, hq', _⟩ := foldlM_append_cons hp
  exact (checkNode_spec (checkNodes_spec (Producers.lists_none g.tensors.length) hq) hq').2

/-- A node reads only tensors that earlier nodes produce. -/
theorem reads_earlier {before rest : List (Node ε)} {node : Node ε}
    (h : g.nodes = before ++ node :: rest) {t : Handle} (ht : t ∈ node.inputs) :
    t ∈ Node.produced before :=
  (g.checked_at h).1 t ht

theorem checkForm_eq_ok {node : Node ε} (hnode : node ∈ g.nodes) :
    checkForm g.tensors node = .ok () := by
  obtain ⟨before, rest, h⟩ := List.append_of_mem hnode
  exact (g.checked_at h).2

theorem parameter_form {node : Node ε} (hnode : node ∈ g.nodes)
    (hparameter : node.isParameter = true) :
    node.inputs = [] ∧ ∃ output, node.outputs = [output] := by
  have hform := g.checkForm_eq_ok hnode
  unfold checkForm at hform
  rw [if_pos hparameter] at hform
  split at hform
  · rename_i output hinputs houtputs
    exact ⟨hinputs, output, houtputs⟩
  · cases hform

theorem result_form {node : Node ε} (hnode : node ∈ g.nodes) (hresult : node.isResult = true) :
    ∃ input output, node.inputs = [input] ∧ node.outputs = [output] := by
  have hparameter : ¬ node.isParameter = true := fun hparameter =>
    Node.not_isResult hparameter hresult
  have hform := g.checkForm_eq_ok hnode
  unfold checkForm at hform
  rw [if_neg hparameter, if_pos hresult] at hform
  split at hform
  · rename_i input output hinputs houtputs
    exact ⟨input, output, hinputs, houtputs⟩
  · cases hform

/-! ### Parameters and results -/

/-- Nodes with one output each produce as many tensors as they are. -/
theorem length_flatMap_outputs {nodes : List (Node ε)} (hone : ∀ node ∈ nodes, node.outputs.length = 1) :
    (nodes.flatMap (·.outputs)).length = nodes.length := by
  rw [List.length_flatMap, List.map_congr_left hone, List.map_const']
  simp

theorem length_parameterHandles : g.parameterHandles.length = g.parameters.length := by
  unfold parameterHandles parameters
  rw [length_flatMap_outputs, List.length_map]
  intro node hnode
  obtain ⟨hmem, hparameter⟩ := List.mem_filter.mp hnode
  obtain ⟨_, output, houtput⟩ := g.parameter_form hmem hparameter
  rw [houtput, List.length_singleton]

theorem length_outputs_of_results {nodes : List (Node ε)} (hnodes : nodes ⊆ g.nodes) :
    ((nodes.filter (·.isResult)).flatMap (·.outputs)).length = (nodes.filter (·.isResult)).length := by
  refine length_flatMap_outputs fun node hnode => ?_
  obtain ⟨hmem, hresult⟩ := List.mem_filter.mp hnode
  obtain ⟨_, output, _, houtput⟩ := g.result_form (hnodes hmem) hresult
  rw [houtput, List.length_singleton]

theorem parameterHandles_lt {t : Handle} (ht : t ∈ g.parameterHandles) : t < g.tensors.length := by
  obtain ⟨node, hnode, ht⟩ := List.mem_flatMap.mp ht
  exact g.output_lt ((List.mem_filter.mp hnode).1) ht

/-- No two parameters produce one tensor. -/
theorem nodup_parameterHandles : g.parameterHandles.Nodup :=
  g.nodup_produced.sublist (List.filter_sublist.flatMap _)

/-- No two nodes produce one tensor. -/
theorem producer_unique {node other : Node ε} (hnode : node ∈ g.nodes) (hother : other ∈ g.nodes)
    {t : Handle} (ht : t ∈ node.outputs) (ht' : t ∈ other.outputs) : node = other := by
  have hnodup := g.nodup_produced
  obtain ⟨before, rest, hnodes⟩ := List.append_of_mem hnode
  rw [hnodes, List.mem_append, List.mem_cons] at hother
  rw [hnodes, Node.produced_append] at hnodup
  obtain ⟨_, hrest, hdisjoint⟩ := List.nodup_append.mp hnodup
  rcases hother with hother | rfl | hother
  · exact absurd rfl (hdisjoint t (List.mem_flatMap.mpr ⟨other, hother, ht'⟩) t
      (List.mem_flatMap.mpr ⟨node, List.mem_cons_self, ht⟩))
  · rfl
  · exact absurd rfl ((List.nodup_append.mp hrest).2.2 t ht t
      (List.mem_flatMap.mpr ⟨other, hother, ht'⟩))

theorem not_mem_parameterHandles {node : Node ε} (hnode : node ∈ g.nodes)
    (hparameter : ¬ node.isParameter = true) {t : Handle} (ht : t ∈ node.outputs) :
    t ∉ g.parameterHandles := by
  intro hmem
  obtain ⟨other, hother, ht'⟩ := List.mem_flatMap.mp hmem
  obtain ⟨hother, hisParameter⟩ := List.mem_filter.mp hother
  exact hparameter (g.producer_unique hnode hother ht ht' ▸ hisParameter)

theorem not_mem_resultHandles {node : Node ε} (hnode : node ∈ g.nodes)
    (hresult : ¬ node.isResult = true) {t : Handle} (ht : t ∈ node.outputs) :
    t ∉ g.resultHandles := by
  intro hmem
  obtain ⟨other, hother, ht'⟩ := List.mem_flatMap.mp hmem
  obtain ⟨hother, hisResult⟩ := List.mem_filter.mp hother
  exact hresult (g.producer_unique hnode hother ht ht' ▸ hisResult)

/-- The descriptions of some tensors, by number. -/
theorem getElem?_descs {hs : List Handle} (hlt : ∀ t ∈ hs, t < g.tensors.length) (i : Nat) :
    (hs.filterMap (g.tensors[·]?))[i]? = hs[i]?.bind (g.tensors[·]?) := by
  induction hs generalizing i with
  | nil => rfl
  | cons t hs ih =>
      obtain ⟨htlt, hlt⟩ := List.forall_mem_cons.mp hlt
      rw [List.filterMap_cons_some (List.getElem?_eq_getElem htlt)]
      cases i with
      | zero => simp [List.getElem?_eq_getElem htlt]
      | succ i => simpa using ih hlt i

theorem parameterDescs_getElem? (i : Nat) :
    g.parameterDescs[i]? = g.parameterHandles[i]?.bind (g.tensors[·]?) :=
  g.getElem?_descs (fun _ => g.parameterHandles_lt) i

theorem resultHandles_lt {t : Handle} (ht : t ∈ g.resultHandles) : t < g.tensors.length := by
  obtain ⟨node, hnode, ht⟩ := List.mem_flatMap.mp ht
  exact g.output_lt ((List.mem_filter.mp hnode).1) ht

theorem resultDescs_getElem? (i : Nat) :
    g.resultDescs[i]? = g.resultHandles[i]?.bind (g.tensors[·]?) :=
  g.getElem?_descs (fun _ => g.resultHandles_lt) i

theorem length_resultDescs : g.resultDescs.length = g.resultHandles.length := by
  refine List.filterMap_length_eq_length.mpr fun t ht => ?_
  rw [List.getElem?_eq_getElem (g.resultHandles_lt ht), Option.isSome_some]

/-- The place of a result among the results is the number of results before it. -/
theorem idxOf_results {before rest : List (Node ε)} {node : Node ε}
    (h : g.nodes = before ++ node :: rest) (hresult : node.isResult = true) :
    g.results.idxOf? node.id = some (before.filter (·.isResult)).length := by
  have hid : ∀ (i : Nat) (n : Node ε), g.nodes[i]? = some n → n.id = i := fun i n hn =>
    Node.id_number (g.numbered.symm ▸ hn)
  have hnode : node.id = before.length := hid _ node (by rw [h]; simp)
  have hresults : g.results = (before.filter (·.isResult)).map (·.id)
      ++ node.id :: (rest.filter (·.isResult)).map (·.id) := by
    simp [results, resultNodes, h, hresult]
  rw [List.idxOf?_eq_some_iff]
  refine ⟨by simp [hresults], by simp [hresults], fun j hj heq => ?_⟩
  have hj' : j < ((before.filter (·.isResult)).map (·.id)).length := by rwa [List.length_map]
  have hmem : node.id ∈ (before.filter (·.isResult)).map (·.id) := by
    rw [← heq]
    simp only [hresults, List.getElem_append_left hj']
    exact List.getElem_mem hj'
  obtain ⟨n, hn, hnid⟩ := List.mem_map.mp hmem
  obtain ⟨i, hi, rfl⟩ := List.mem_iff_getElem.mp (List.mem_filter.mp hn).1
  have hbefore : before[i].id = i := hid i _ (by rw [h, List.getElem?_append_left hi]; simp)
  omega

/-- No two results produce one tensor. -/
theorem nodup_resultHandles : g.resultHandles.Nodup :=
  g.nodup_produced.sublist (List.filter_sublist.flatMap _)

theorem length_resultHandles : g.resultHandles.length = g.results.length := by
  rw [results, List.length_map]
  exact g.length_outputs_of_results (List.Subset.refl _)

/-- The tensor of a result stands where the number of results before it says. -/
theorem getElem?_resultHandles {before rest : List (Node ε)} {node : Node ε}
    (h : g.nodes = before ++ node :: rest) (hresult : node.isResult = true) {output : Handle}
    (houtputs : node.outputs = [output]) :
    g.resultHandles[(before.filter (·.isResult)).length]? = some output := by
  have hbefore : before ⊆ g.nodes := h ▸ List.subset_append_left before (node :: rest)
  have hhandles : g.resultHandles = (before.filter (·.isResult)).flatMap (·.outputs)
      ++ output :: (rest.filter (·.isResult)).flatMap (·.outputs) := by
    simp [resultHandles, resultNodes, h, hresult, houtputs]
  rw [hhandles, ← g.length_outputs_of_results hbefore, List.getElem?_append_right (Nat.le_refl _),
    Nat.sub_self]
  rfl

end Graph

end TensorGraph
