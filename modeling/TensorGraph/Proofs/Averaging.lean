import Mathlib.Algebra.GroupWithZero.Nat
import Mathlib.Data.List.Induction
import TensorGraph.Execution.Statistics
import TensorGraph.Number.Word

/-! # Mean times over a history of evaluations

Each evaluation enters the statistics of its node once.  After any history they know of a node how many evaluations
of it the history has and how long these took together (`Statistics.node?_after`), because ids ascend in them and a
node is never entered a second time.

The mean is the time over the number of evaluations, but the number enters as a 32-bit word.
`Statistics.mean_of_recorded` says what this leads to: up to that width the mean is what it should be, and no number of
evaluations beyond it has the right mean for all times. -/

namespace TensorGraph

/-- What is known of a node after one more evaluation. -/
def NodeStatistics.counted (known : Option NodeStatistics) (op : OpType) (elapsed : Nat) : NodeStatistics :=
  match known with
  | none => ⟨op, 1, elapsed⟩
  | some s => { s with calls := s.calls + 1, total := s.total + elapsed }

namespace Statistics

/-- The statistics after a history of evaluations, each with the time that it took. -/
def after (s : Statistics) (history : List (Operation × Nat)) : Statistics :=
  history.foldl (fun s evaluation => s.record evaluation.1 evaluation.2) s

/-- The times of the evaluations of a node. -/
def timesOf (id : Nat) (history : List (Operation × Nat)) : List Nat :=
  (history.filter (·.1.id = id)).map Prod.snd

/-- No time is as long as that: 2⁶⁴ seconds. -/
def timeLimit : Nat := Word.size * 1000000000

/-! ### One evaluation -/

/-- The ids of a list of statistics ascend. -/
abbrev Ascending (nodes : List (Nat × NodeStatistics)) : Prop := nodes.Pairwise fun a b => a.1 < b.1

theorem lookup_cons_eq_ite (first : Nat) (s : NodeStatistics) (nodes : List (Nat × NodeStatistics)) (id : Nat) :
    ((first, s) :: nodes).lookup id = if id = first then some s else nodes.lookup id := by
  by_cases h : id = first
  · rw [if_pos h, h, List.lookup_cons_self]
  · rw [if_neg h, List.lookup_cons, beq_false_of_ne h]

theorem lookup_eq_none {nodes : List (Nat × NodeStatistics)} {id : Nat} (h : ∀ node ∈ nodes, id < node.1) :
    nodes.lookup id = none := by
  rw [List.lookup_eq_none_iff]
  exact fun node hnode => bne_iff_ne.mpr (Nat.ne_of_lt (h node hnode))

theorem mem_recordIn {nodes : List (Nat × NodeStatistics)} {operation : Operation} {elapsed : Nat}
    {node : Nat × NodeStatistics} (h : node ∈ recordIn operation elapsed nodes) :
    node.1 = operation.id ∨ ∃ s, (node.1, s) ∈ nodes := by
  induction nodes with
  | nil =>
      rw [recordIn, List.mem_singleton] at h
      exact .inl (congrArg Prod.fst h)
  | cons first nodes ih =>
      rw [recordIn] at h
      split at h
      · rcases List.mem_cons.mp h with rfl | h
        · exact .inl rfl
        · exact .inr ⟨node.2, h⟩
      · split at h
        · rename_i hsame
          rcases List.mem_cons.mp h with rfl | h
          · exact .inl hsame.symm
          · exact .inr ⟨node.2, List.mem_cons_of_mem _ h⟩
        · rcases List.mem_cons.mp h with rfl | h
          · exact .inr ⟨first.2, List.mem_cons_self⟩
          · exact (ih h).imp_right fun ⟨s, hs⟩ => ⟨s, List.mem_cons_of_mem _ hs⟩

theorem ascending_recordIn {nodes : List (Nat × NodeStatistics)} (h : Ascending nodes) (operation : Operation)
    (elapsed : Nat) : Ascending (recordIn operation elapsed nodes) := by
  induction nodes with
  | nil => exact List.pairwise_singleton _ _
  | cons first nodes ih =>
      obtain ⟨hfirst, hnodes⟩ := List.pairwise_cons.mp h
      rw [recordIn]
      split
      · rename_i hbefore
        refine List.pairwise_cons.mpr ⟨fun node hnode => ?_, h⟩
        rcases List.mem_cons.mp hnode with rfl | hnode
        · exact hbefore
        · exact Nat.lt_trans hbefore (hfirst node hnode)
      · rename_i hbefore
        split
        · exact List.pairwise_cons.mpr ⟨hfirst, hnodes⟩
        · rename_i hsame
          refine List.pairwise_cons.mpr ⟨fun node hnode => ?_, ih hnodes⟩
          rcases mem_recordIn hnode with hid | ⟨s, hs⟩
          · rw [hid]
            omega
          · exact hfirst (node.1, s) hs

/-- An evaluation is added to what is known of its node, and to nothing else. -/
theorem lookup_recordIn {nodes : List (Nat × NodeStatistics)} (h : Ascending nodes) (operation : Operation)
    (elapsed id : Nat) : (recordIn operation elapsed nodes).lookup id
      = if id = operation.id then some (.counted (nodes.lookup id) operation.op elapsed) else nodes.lookup id := by
  induction nodes with
  | nil => rw [recordIn, lookup_cons_eq_ite]; rfl
  | cons first nodes ih =>
      obtain ⟨hfirst, hnodes⟩ := List.pairwise_cons.mp h
      obtain ⟨n, s⟩ := first
      rw [recordIn, lookup_cons_eq_ite]
      split
      · rename_i hbefore
        rw [lookup_cons_eq_ite, lookup_cons_eq_ite]
        split
        · have hnone : nodes.lookup id = none :=
            lookup_eq_none fun node hnode => by have := hfirst node hnode; dsimp only at this; omega
          rw [if_neg (by omega), hnone]
          rfl
        · rfl
      · split
        · rename_i hsame
          rw [lookup_cons_eq_ite, hsame]
          split <;> rfl
        · rename_i hsame
          rw [lookup_cons_eq_ite, ih hnodes]
          split
          · rw [if_neg (by omega)]
          · rfl

/-! ### A history of evaluations -/

theorem after_concat (s : Statistics) (history : List (Operation × Nat)) (evaluation : Operation × Nat) :
    s.after (history ++ [evaluation]) = (s.after history).record evaluation.1 evaluation.2 := by
  rw [after, List.foldl_append]
  rfl

theorem timesOf_concat (id : Nat) (history : List (Operation × Nat)) (evaluation : Operation × Nat) :
    timesOf id (history ++ [evaluation])
      = timesOf id history ++ if evaluation.1.id = id then [evaluation.2] else [] := by
  rw [timesOf, List.filter_append, List.map_append]
  by_cases h : evaluation.1.id = id <;> simp [h, timesOf]

theorem ascending_after (history : List (Operation × Nat)) : Ascending (empty.after history).nodes := by
  induction history using List.reverseRecOn with
  | nil => exact List.Pairwise.nil
  | append_singleton history evaluation ih =>
      rw [after_concat]
      exact ascending_recordIn ih evaluation.1 evaluation.2

theorem timesOf_eq_nil {id : Nat} {history : List (Operation × Nat)} (h : history.find? (·.1.id = id) = none) :
    timesOf id history = [] := by
  rw [timesOf, List.filter_eq_nil_iff.mpr (List.find?_eq_none.mp h), List.map_nil]

/-- After any history, the statistics know of a node the operator of its first evaluation, the number of all its
evaluations and the sum of their times. -/
theorem node?_after (id : Nat) (history : List (Operation × Nat)) :
    (empty.after history).node? id = (history.find? (·.1.id = id)).map fun first =>
      ⟨first.1.op, (timesOf id history).length, (timesOf id history).sum⟩ := by
  induction history using List.reverseRecOn with
  | nil => rfl
  | append_singleton history evaluation ih =>
      have hrecord := lookup_recordIn (ascending_after history) evaluation.1 evaluation.2 id
      rw [after_concat, node?, record, hrecord, ← node?, ih, timesOf_concat, List.find?_append]
      by_cases h : evaluation.1.id = id
      · rw [if_pos h.symm, if_pos h, List.find?_singleton, if_pos (decide_eq_true h)]
        cases hfind : history.find? (·.1.id = id) with
        | none =>
            rw [timesOf_eq_nil hfind]
            rfl
        | some first => simp [NodeStatistics.counted]
      · rw [if_neg (Ne.symm h), if_neg h, List.find?_singleton, if_neg (by simpa using h), Option.or_none,
          List.append_nil]

/-- A node that was evaluated has statistics. -/
theorem exists_node?_after {id : Nat} {history : List (Operation × Nat)} (h : timesOf id history ≠ []) :
    ∃ s, (empty.after history).node? id = some s := by
  rw [node?_after]
  cases hfind : history.find? (·.1.id = id) with
  | none => exact absurd (timesOf_eq_nil hfind) h
  | some first => exact ⟨_, rfl⟩

theorem eq_of_node?_after {id : Nat} {history : List (Operation × Nat)} {s : NodeStatistics}
    (h : (empty.after history).node? id = some s) :
    s.calls = (timesOf id history).length ∧ s.total = (timesOf id history).sum := by
  rw [node?_after, Option.map_eq_some_iff] at h
  obtain ⟨first, _, rfl⟩ := h
  exact ⟨rfl, rfl⟩

/-! ### Means -/

theorem timesOf_replicate (operation : Operation) (elapsed n : Nat) :
    timesOf operation.id (List.replicate n (operation, elapsed)) = List.replicate n elapsed := by
  rw [timesOf, List.filter_replicate_of_pos (by simp), List.map_replicate]

/-- The number of evaluations that the mean divides by, where it is not 0. -/
theorem mean?_eq {s : NodeStatistics} (h : 0 < s.calls) :
    s.mean? = if s.calls % 2 ^ 32 = 0 then none else some (s.total / (s.calls % 2 ^ 32)) := by
  rw [NodeStatistics.mean?, if_neg (Nat.ne_of_gt h)]
  rfl

/-- As many units of time as evaluations, but not one for each on average. -/
theorem mean?_ne_one {s : NodeStatistics} (hcalls : 2 ^ 32 ≤ s.calls) (htotal : s.total = s.calls) :
    s.mean? ≠ some 1 := by
  rw [mean?_eq (by omega), htotal]
  split
  · exact nofun
  · rename_i hdivisor
    have hlt : s.calls % 2 ^ 32 < 2 ^ 32 := Nat.mod_lt _ (by decide)
    have hrest := Nat.div_add_mod s.calls (2 ^ 32)
    have hquotient : 1 ≤ s.calls / 2 ^ 32 := Nat.div_pos hcalls (by decide)
    have htwo : 2 ≤ s.calls / (s.calls % 2 ^ 32) := (Nat.le_div_iff_mul_le (by omega)).mpr (by omega)
    intro h
    have := Option.some.inj h
    omega

/-- Evaluations of one unit of time each, and more of them than 32 bits count. -/
theorem exists_node?_after_replicate (operation : Operation) {n : Nat} (h : 2 ^ 32 ≤ n) :
    ∃ s, (empty.after (List.replicate n (operation, 1))).node? operation.id = some s ∧
      s.calls = n ∧ s.total = n ∧ s.mean? ≠ some 1 := by
  have htimes := timesOf_replicate operation 1 n
  have hne : timesOf operation.id (List.replicate n (operation, 1)) ≠ [] :=
    List.ne_nil_of_length_pos (by rw [htimes, List.length_replicate]; omega)
  obtain ⟨s, hs⟩ := exists_node?_after hne
  obtain ⟨hcalls, htotal⟩ := eq_of_node?_after hs
  rw [htimes, List.length_replicate] at hcalls
  rw [htimes, List.sum_replicate_nat, Nat.mul_one] at htotal
  exact ⟨s, hs, hcalls, htotal, mean?_ne_one (by omega) (by omega)⟩

/-- **When the mean is the mean.**  If the sum of the times of a node can be represented, it has statistics, and its
mean is this sum over the number of evaluations, as a 32-bit word; if that word is 0 there is none.  The mean is the
sum of the times over their number, for all such times, exactly if the number has at most 32 bits. -/
theorem mean_of_recorded (id n : Nat) (hpos : 0 < n) (hword : n < Word.size) :
    (∀ history, (timesOf id history).length = n → (timesOf id history).sum < timeLimit →
      ∃ s, (empty.after history).node? id = some s ∧ s.calls = n ∧ s.total = (timesOf id history).sum ∧
        s.mean? = if n % 2 ^ 32 = 0 then none else some ((timesOf id history).sum / (n % 2 ^ 32))) ∧
    ((∀ history, (timesOf id history).length = n → (timesOf id history).sum < timeLimit →
      ∀ s, (empty.after history).node? id = some s → s.mean? = some ((timesOf id history).sum / n)) ↔
      n < 2 ^ 32) := by
  refine ⟨fun history hlength _ => ?_, fun h => ?_, fun h history hlength _ s hs => ?_⟩
  · obtain ⟨s, hs⟩ := exists_node?_after (List.ne_nil_of_length_pos (hlength ▸ hpos))
    obtain ⟨hcalls, htotal⟩ := eq_of_node?_after hs
    rw [hlength] at hcalls
    exact ⟨s, hs, hcalls, htotal, by rw [mean?_eq (by omega), hcalls, htotal]⟩
  · by_contra hn
    let operation : Operation := { (default : Operation) with id := id }
    obtain ⟨s, hs, _, _, hmean⟩ := exists_node?_after_replicate operation (Nat.le_of_not_lt hn)
    have htimes : timesOf id (List.replicate n (operation, 1)) = List.replicate n 1 :=
      timesOf_replicate operation 1 n
    have hlaw := h (List.replicate n (operation, 1))
    rw [htimes, List.length_replicate, List.sum_replicate_nat, Nat.mul_one, Nat.div_self hpos] at hlaw
    exact hmean (hlaw rfl (Nat.lt_of_lt_of_le hword (Nat.le_mul_of_pos_right _ (by decide))) s hs)
  · obtain ⟨hcalls, htotal⟩ := eq_of_node?_after hs
    rw [hlength] at hcalls
    rw [mean?_eq (by omega), hcalls, htotal, Nat.mod_eq_of_lt h, if_neg (by omega)]

/-- Node 1 is evaluated three times, node 0 once in between. -/
theorem mean_of_recorded_three :
    let relu : Operation := ⟨1, .relu, none, [0], [1], none⟩
    let add : Operation := ⟨0, .add, none, [0, 0], [1], none⟩
    let history := [(relu, 5), (add, 100), (relu, 3), (relu, 6)]
    0 < 3 ∧ 3 < Word.size ∧ (timesOf 1 history).length = 3 ∧ (timesOf 1 history).sum < timeLimit ∧
    ∃ s, (empty.after history).node? 1 = some s ∧ s.calls = 3 ∧ s.mean? = some 4 := by
  intro relu add history
  obtain ⟨s, hs, hcalls, _, hmean⟩ := (mean_of_recorded 1 3 (by decide) (by decide)).1 history rfl (by decide)
  exact ⟨by decide, by decide, rfl, by decide, s, hs, hcalls, hmean.trans (by decide)⟩

/-- After 2³² evaluations of one unit of time each there is no mean, though it should be 1. -/
theorem no_mean_of_recorded :
    let operation : Operation := ⟨0, .relu, none, [0], [1], none⟩
    let history := List.replicate 4294967296 (operation, 1)
    ∃ s, (empty.after history).node? 0 = some s ∧ s.calls = 4294967296 ∧ s.calls < Word.size ∧
      s.total < timeLimit ∧ s.mean? = none ∧ s.total / s.calls = 1 := by
  intro operation history
  obtain ⟨s, hs, hcalls, htotal, _⟩ := exists_node?_after_replicate operation (Nat.le_refl (2 ^ 32))
  have hmean := mean?_eq (s := s) (by rw [hcalls]; decide)
  refine ⟨s, hs, hcalls, ?_, ?_, ?_, ?_⟩
  · rw [hcalls]
    decide
  · rw [htotal]
    decide
  · rw [hmean, hcalls]
    rfl
  · calc s.total / s.calls = 2 ^ 32 / 2 ^ 32 := congrArg₂ (· / ·) htotal hcalls
      _ = 1 := Nat.div_self (by decide)

end Statistics

end TensorGraph
