import TensorGraph.Proofs.Planning

/-! # Planned addresses are those of broadcasting

A plan walks its domain by numbers below its work.  The digits of a number over the collapsed extents,
multiplied with the strides of a terminal, add up to an element of that terminal.
`plan_addresses_broadcast` says which one: the element of the dense row-major terminal that
broadcasting reads for the index with the same number in the master shape.  Collapsing therefore shows
in no address. -/

namespace TensorGraph.Planner

open Shape

variable {p : Planner} {i : Interface} {plan : Plan}

/-- The plan of an interface, with the shape that its terminals were joined to. -/
theorem exists_assembled (h : p.plan i = .ok plan) :
    ∃ extents work, joinTerminals (commonRank i) i = .ok extents ∧
      Word.product? extents = some work ∧
      plan = assemble i extents work (p.finalSpread i extents work) := by
  obtain ⟨_, _, _, extents, work, hjoin, hwork, hplan⟩ := plan_eq_ok_iff.mp h
  exact ⟨extents, work, hjoin, hwork, hplan⟩

theorem accesses_assemble (i : Interface) (extents : Shape) (work : Nat) (s : Spread) :
    (assemble i extents work s).accesses
      = List.zipWith (access s.extents) i.terminals s.terminals := by
  simp [assemble, Plan.accesses]

/-- The domain has as many elements as there is work. -/
theorem size_extents_of_plan (h : p.plan i = .ok plan) :
    plan.domain.extents.size = plan.domain.work ∧ plan.domain.work < Word.size := by
  obtain ⟨extents, work, hjoin, hwork, rfl⟩ := exists_assembled h
  obtain ⟨hsize, hlt⟩ := product?_eq_some hwork
  have hequiv := (equivalent_finalSpread p work hjoin).2
  refine ⟨?_, hlt⟩
  calc (p.finalSpread i extents work).extents.size = (initial i extents).extents.size := hequiv.size
    _ = work := hsize.symm

theorem length_spread_terminals {extents : Shape} (work : Nat)
    (hjoin : joinTerminals (commonRank i) i = .ok extents) :
    (p.finalSpread i extents work).terminals.length = i.terminals.length := by
  have hequiv := (equivalent_finalSpread p work hjoin).2
  simpa [initial] using congrArg List.length hequiv.elements

theorem length_accesses_of_plan (h : p.plan i = .ok plan) :
    plan.inputs.length = i.inputs.length ∧ plan.outputs.length = i.outputs.length := by
  obtain ⟨extents, work, hjoin, _, rfl⟩ := exists_assembled h
  have hlen := length_spread_terminals (p := p) work hjoin
  simp [assemble, hlen, Interface.terminals]

/-- The access of a terminal is made from its spread, which has as many elements as the terminal and
supplies for every number the element that the terminal itself supplies over the master shape. -/
theorem access_of_plan (h : p.plan i = .ok plan) {k : Nat} {t : Terminal} {a : Access}
    (ht : i.terminals[k]? = some t) (ha : plan.accesses[k]? = some a) :
    ∃ spread, a = access plan.domain.extents t spread ∧
      StretchesTo spread plan.domain.extents ∧ spread.size = t.extents.size ∧
      ∀ f, elementFor plan.domain.extents spread f = elementFor plan.domain.master t.extents f := by
  obtain ⟨extents, work, hjoin, _, rfl⟩ := exists_assembled h
  obtain ⟨haligned, hequiv⟩ := equivalent_finalSpread p work hjoin
  rw [accesses_assemble, List.getElem?_zipWith_eq_some] at ha
  obtain ⟨t', spread, ht', hspread, rfl⟩ := ha
  obtain rfl : t = t' := Option.some.inj (ht.symm.trans ht')
  have hsize : spread.size = (t.extents.leftPadded (commonRank i)).size := by
    have := congrArg (·[k]?) hequiv.sizes
    simpa [initial, hspread, ht] using this
  refine ⟨spread, rfl, haligned spread (List.mem_of_getElem? hspread),
    hsize.trans (size_leftPadded _ _), fun f => ?_⟩
  have hmem : t ∈ i.terminals := List.mem_of_getElem? ht
  have hlen : extents.length = commonRank i := (joinTerminals_eq_ok hjoin).1
  have hrank : t.extents.length ≤ i.rank := rank_le_commonRank hmem
  have hcommon : i.rank ≤ commonRank i := Nat.le_max_left _ _
  have hsame : elementFor (p.finalSpread i extents work).extents spread
      = elementFor extents (t.extents.leftPadded (commonRank i)) := by
    have := congrArg (·[k]?) hequiv.elements
    simpa [initial, hspread, ht] using this
  calc elementFor (p.finalSpread i extents work).extents spread f
      = elementFor extents (t.extents.leftPadded extents.length) f := by rw [hsame, hlen]
    _ = elementFor extents t.extents f := elementFor_leftPadded (by omega) f
    _ = elementFor (extents.drop (commonRank i - i.rank)) t.extents f :=
        (elementFor_drop (by omega) f).symm

/-- Every terminal broadcasts to the master shape. -/
theorem broadcastsTo_master (h : p.plan i = .ok plan) {t : Terminal} (ht : t ∈ i.terminals) :
    t.extents.BroadcastsTo plan.domain.master := by
  obtain ⟨extents, work, hjoin, _, rfl⟩ := exists_assembled h
  obtain ⟨hlen, hstretch⟩ := joinTerminals_eq_ok hjoin
  have hrank : t.extents.length ≤ i.rank := rank_le_commonRank ht
  have hcommon : i.rank ≤ commonRank i := Nat.le_max_left _ _
  have hmaster : (extents.drop (commonRank i - i.rank)).length = i.rank := by
    rw [List.length_drop, hlen]
    omega
  have hpadded : (t.extents.leftPadded (commonRank i)).drop (commonRank i - i.rank)
      = t.extents.leftPadded i.rank := by
    rw [leftPadded, leftPadded, List.drop_append_of_le_length (by rw [List.length_replicate]; omega),
      List.drop_replicate]
    congr 2
    omega
  refine ⟨by rw [assemble, hmaster]; exact hrank, ?_⟩
  have hdrop := List.forall₂_drop (commonRank i - i.rank) (hstretch t ht)
  rw [hpadded] at hdrop
  rw [assemble, hmaster]
  exact hdrop

theorem positive_extents_of_plan (h : p.plan i = .ok plan) (hwork : plan.domain.work ≠ 0) :
    plan.domain.extents.Positive :=
  size_pos_iff.mp (by rw [(size_extents_of_plan h).1]; exact Nat.pos_of_ne_zero hwork)

theorem positive_master (h : p.plan i = .ok plan) (hwork : 0 < plan.domain.work) :
    plan.domain.master.Positive := by
  obtain ⟨extents, work, hjoin, hproduct, rfl⟩ := exists_assembled h
  obtain ⟨rfl, _⟩ := product?_eq_some hproduct
  exact (size_pos_iff.mp hwork).drop _

/-- Over the digits of a number below the work, the strides of a terminal add up to the element that
the terminal supplies for that number over the master shape. -/
theorem dot_strides_of_plan (h : p.plan i = .ok plan) {k : Nat} {t : Terminal} {a : Access}
    (ht : i.terminals[k]? = some t) (ha : plan.accesses[k]? = some a) {f : Nat}
    (hf : f < plan.domain.work) :
    Strides.dot a.strides ((plan.domain.extents.unravel f).map Int.ofNat)
      = elementFor plan.domain.master t.extents f := by
  obtain ⟨spread, rfl, hstretch, _, helement⟩ := access_of_plan h ht ha
  obtain ⟨hsize, hlt⟩ := size_extents_of_plan h
  have hpos := positive_extents_of_plan h (by omega)
  rw [← helement f]
  exact dot_accessStrides hstretch hpos (by omega) f

/-- **Planned addressing is broadcasting.**  Every terminal has its access, and for every number below
the work the digits over the planned extents, multiplied with the strides of the access, add up to the
row-major place of the index that the terminal is read at: the trailing coordinates of the index of
that number in the master shape, pinned to 0 where the terminal has extent 1. -/
theorem plan_addresses_broadcast (p : Planner) (i : Interface) (plan : Plan)
    (h : p.plan i = .ok plan) :
    plan.inputs.length = i.inputs.length ∧ plan.outputs.length = i.outputs.length ∧
      ∀ (k : Nat) (t : Terminal) (a : Access),
        i.terminals[k]? = some t → plan.accesses[k]? = some a → ∀ f < plan.domain.work,
          t.extents.InBounds (t.extents.projected (plan.domain.master.unravel f)) ∧
            Strides.dot a.strides ((plan.domain.extents.unravel f).map Int.ofNat)
              = t.extents.ravel (t.extents.projected (plan.domain.master.unravel f)) := by
  obtain ⟨hinputs, houtputs⟩ := length_accesses_of_plan h
  refine ⟨hinputs, houtputs, fun k t a ht ha f hf => ⟨?_, dot_strides_of_plan h ht ha hf⟩⟩
  exact projected_inBounds (broadcastsTo_master h (List.mem_of_getElem? ht))
    (positive_master h (by omega)) f

/-- Four dimensions of which two collapse: the third terminal has extent 1 in both, and for the last
number it is read at the last of its six elements. -/
theorem plan_addresses_broadcast_collapsed :
    let p : Planner := ⟨256, 1⟩
    let column := Terminal.dense .bool [2, 3, 1, 1]
    let i : Interface :=
      ⟨[.dense .f32 [2, 3, 4, 5], .dense .f64 [4, 5], column], [.dense .f32 [2, 3, 4, 5]]⟩
    let plan : Plan :=
      { domain := ⟨[2, 3, 4, 5], [1, 1, 1, 2, 3, 20], 1, 120, 6⟩
        inputs := [⟨0, [0, 0, 0, 60, 20, 1], 4⟩, ⟨0, [0, 0, 0, 0, 0, 1], 8⟩,
          ⟨0, [0, 0, 0, 3, 1, 0], 1⟩]
        outputs := [⟨0, [0, 0, 0, 60, 20, 1], 4⟩] }
    p.plan i = .ok plan ∧ i.terminals[2]? = some column ∧
      plan.accesses[2]? = some ⟨0, [0, 0, 0, 3, 1, 0], 1⟩ ∧ 119 < plan.domain.work ∧
      Strides.dot [0, 0, 0, 3, 1, 0] ((plan.domain.extents.unravel 119).map Int.ofNat)
        = column.extents.ravel (column.extents.projected (plan.domain.master.unravel 119)) := by
  intro p column i plan
  have hplan : p.plan i = .ok plan := by decide +kernel
  refine ⟨hplan, rfl, rfl, by decide, ?_⟩
  exact ((plan_addresses_broadcast p i plan hplan).2.2 2 column _ rfl rfl 119 (by decide)).2

end TensorGraph.Planner
