import TensorGraph.Proofs.Gathering

/-! # Shapes ordered by stretching

A shape lies below another one if its dense layout has a view of the other (`Shape.ViewedAs`); this is so
exactly if it stretches to the other (`viewedAs_iff`).  Two shapes are broadcast to their least upper bound
in this order, and are refused exactly if they have no upper bound at all (`broadcast_least`).  Broadcasting
is therefore commutative, idempotent and associative, and the shape without dimensions is its identity: each
of these equations compares shapes that are broadcast from the same ones, in whatever sequence
(`foldlM_broadcast?_congr`).

For layouts that need not be dense the order says more: a view of a view is the view that the layout itself
has, with the same strides (`Layout.broadcastTo_broadcastTo`). -/

namespace TensorGraph

/-- The dense layout of a shape has a view of another shape. -/
def Shape.ViewedAs (a t : Shape) : Prop := ∃ view, (Layout.contiguous a).broadcastTo t = .ok view

namespace Layout

open Shape

/-- A layout stretches to the targets of its rank or more whose inner extents its own stretch to. -/
theorem broadcastTo_eq_ok_iff {l view : Layout} {target : Shape} :
    l.broadcastTo target = .ok view ↔
      l.rank ≤ target.length ∧
      ∃ strides, stretch l.shape l.strides (target.drop (target.length - l.rank)) = some strides ∧
        view = ⟨target, List.replicate (target.length - l.rank) 0 ++ strides, l.offset⟩ := by
  rw [broadcastTo_eq_ok, broadcastTo?]
  by_cases hrank : target.length < l.rank
  · simp [hrank]
  · simp [hrank, Nat.le_of_not_lt hrank, eq_comm]

/-- Strides are stretched only along extents that stretch. -/
theorem stretchesTo_of_stretch {s t : Shape} {strides stretched : Strides}
    (hstrides : strides.length = s.length) (ht : s.length = t.length)
    (h : stretch s strides t = some stretched) : StretchesTo s t := by
  induction s generalizing strides t stretched with
  | nil =>
      obtain rfl := List.length_eq_zero_iff.mp ht.symm
      exact .nil
  | cons n s ih =>
      cases strides with
      | nil => cases hstrides
      | cons stride strides =>
          cases t with
          | nil => cases ht
          | cons m t =>
              rw [stretch] at h
              split at h
              · rename_i hsame
                obtain ⟨rest, hrest, _⟩ := Option.map_eq_some_iff.mp h
                exact .cons (.inl hsame) (ih (Nat.succ.inj hstrides) (Nat.succ.inj ht) hrest)
              · split at h
                · rename_i hone
                  obtain ⟨rest, hrest, _⟩ := Option.map_eq_some_iff.mp h
                  exact .cons (.inr hone) (ih (Nat.succ.inj hstrides) (Nat.succ.inj ht) hrest)
                · cases h

end Layout

namespace Shape

/-- The shapes that a dense layout has views of are those that its shape stretches to. -/
theorem viewedAs_iff {a t : Shape} : a.ViewedAs t ↔ a.BroadcastsTo t := by
  constructor
  · rintro ⟨view, hview⟩
    obtain ⟨hrank, stretched, hstretched, -⟩ := Layout.broadcastTo_eq_ok_iff.mp hview
    have hrank : a.length ≤ t.length := hrank
    have hlength : a.length = (t.drop (t.length - a.length)).length := by
      rw [List.length_drop]
      omega
    have hinner := Layout.stretchesTo_of_stretch (Strides.length_dense a) hlength hstretched
    rw [broadcastsTo_iff, StretchesInner, List.length_reverse, List.take_reverse, StretchesTo,
      List.forall₂_reverse_iff]
    exact hinner
  · intro h
    obtain ⟨view, hview, _⟩ := Layout.exists_view h
    exact ⟨view, Layout.broadcastTo_eq_ok.mpr hview⟩

/-! ### Broadcasting in any sequence -/

theorem toOption_broadcast (a b : Shape) : (broadcast a b).toOption = broadcast? a b := by
  unfold broadcast
  cases broadcast? a b <;> rfl

/-- What shapes are broadcast to, and whether they are, depends only on which shapes they are. -/
theorem foldlM_broadcast?_congr {shapes shapes' : List Shape} (hmem : ∀ t, t ∈ shapes' ↔ t ∈ shapes) :
    shapes'.foldlM broadcast? [] = shapes.foldlM broadcast? [] :=
  Option.ext fun _ => ⟨fun h => joined_congr h fun t => (hmem t).symm, fun h => joined_congr h hmem⟩

theorem broadcast?_eq_foldlM (a b : Shape) : broadcast? a b = [a, b].foldlM broadcast? [] := by
  simp only [List.foldlM_cons, List.foldlM_nil, bind_pure, broadcast?_nil, Option.bind_eq_bind, Option.bind_some]

theorem bind_broadcast?_eq_foldlM (a b c : Shape) :
    ((broadcast? a b).bind fun s => broadcast? s c) = [a, b, c].foldlM broadcast? [] := by
  simp only [List.foldlM_cons, List.foldlM_nil, bind_pure, broadcast?_nil, Option.bind_eq_bind, Option.bind_some]

theorem broadcast?_comm (a b : Shape) : broadcast? a b = broadcast? b a := by
  rw [broadcast?_eq_foldlM, broadcast?_eq_foldlM b a]
  exact foldlM_broadcast?_congr fun t => by simp [or_comm]

theorem broadcast?_assoc (a b c : Shape) :
    ((broadcast? a b).bind fun s => broadcast? s c) = (broadcast? b c).bind (broadcast? a) := by
  have hright : (broadcast? b c).bind (broadcast? a) = (broadcast? b c).bind fun s => broadcast? s a :=
    congrArg _ (funext fun s => broadcast?_comm a s)
  rw [hright, bind_broadcast?_eq_foldlM, bind_broadcast?_eq_foldlM]
  exact foldlM_broadcast?_congr fun t => by simp only [List.mem_cons, List.not_mem_nil]; tauto

theorem toOption_bind {ε α β : Type} (m : Except ε α) (f : α → Except ε β) :
    (m >>= f).toOption = m.toOption.bind fun a => (f a).toOption := by
  cases m <;> rfl

/-! ### The least upper bound -/

/-- **Broadcasting is the least upper bound.**  Two shapes are refused exactly if no shape is a view of both,
and what they are broadcast to is a view of both that has every other such shape as a view.  The sequence and
the grouping of shapes show neither in the result nor in whether there is one, and a shape broadcast with
itself or with the shape without dimensions stays as it is. -/
theorem broadcast_least (a b c : Shape) :
    ((∃ error, broadcast a b = .error error) ↔ ¬ ∃ t, a.ViewedAs t ∧ b.ViewedAs t) ∧
    (∀ s, broadcast a b = .ok s →
      a.ViewedAs s ∧ b.ViewedAs s ∧ ∀ t, a.ViewedAs t → b.ViewedAs t → s.ViewedAs t) ∧
    (broadcast a b).toOption = (broadcast b a).toOption ∧
    broadcast a a = .ok a ∧
    (broadcast a b >>= fun s => broadcast s c).toOption = (broadcast b c >>= broadcast a).toOption ∧
    broadcast [] a = .ok a ∧ broadcast a [] = .ok a := by
  simp only [viewedAs_iff, broadcast_eq_ok, toOption_broadcast, toOption_bind]
  refine ⟨?_, fun s hs => ?_, broadcast?_comm a b, broadcast?_self a, broadcast?_assoc a b c,
    broadcast?_nil a, (broadcast?_comm a []).trans (broadcast?_nil a)⟩
  · have hrefused : (∃ error, broadcast a b = .error error) ↔ ¬ ∃ s, broadcast? a b = some s := by
      simp only [← broadcast_eq_ok]
      cases broadcast a b <;> simp
    rw [hrefused, not_iff_not]
    constructor
    · rintro ⟨s, hs⟩
      exact ⟨s, broadcastsTo_of_broadcast? hs⟩
    · rintro ⟨t, ha, hb⟩
      obtain ⟨s, hs, _⟩ := exists_broadcast? ha hb
      exact ⟨s, hs⟩
  · obtain ⟨ha, hb⟩ := broadcastsTo_of_broadcast? hs
    refine ⟨ha, hb, fun t hat hbt => ?_⟩
    obtain ⟨s', hs', hleast⟩ := exists_broadcast? hat hbt
    obtain rfl := Option.some.inj (hs.symm.trans hs')
    exact hleast

end Shape

/-! ### Views of views -/

namespace Layout

theorem stretch_cons_eq_some {n m : Nat} {s t : Shape} {stride : Int} {strides stretched : Strides} :
    stretch (n :: s) (stride :: strides) (m :: t) = some stretched ↔
      ∃ rest, stretch s strides t = some rest ∧
        (n = m ∧ stretched = stride :: rest ∨ n ≠ m ∧ n = 1 ∧ stretched = 0 :: rest) := by
  rw [stretch]
  split
  case isTrue hstays => simp [hstays, eq_comm]
  case isFalse hchanges =>
    split
    case isTrue hone =>
      subst hone
      simp [hchanges, eq_comm]
    case isFalse hone => simp [hchanges, hone]

/-- Stretching twice is stretching once.  An extent that stays in both steps keeps its stride; one that grows
in either step was 1 before it, so it cannot grow in the other one too, and gets stride 0. -/
theorem stretch_trans {s t u : Shape} {strides between stretched : Strides} (hlength : s.length = t.length)
    (hfirst : stretch s strides t = some between) (hsecond : stretch t between u = some stretched) :
    stretch s strides u = some stretched := by
  induction s generalizing strides t u between stretched with
  | nil =>
      obtain rfl := List.length_eq_zero_iff.mp hlength.symm
      simpa [stretch] using hsecond
  | cons n s ih =>
      cases t with
      | nil => cases hlength
      | cons m t =>
          cases strides with
          | nil =>
              obtain rfl : [] = between := by simpa [stretch] using hfirst
              simpa [stretch] using hsecond
          | cons stride strides =>
              cases u with
              | nil => simpa [stretch] using hsecond
              | cons k u =>
                  obtain ⟨inner, hinner, hfirst⟩ := stretch_cons_eq_some.mp hfirst
                  obtain ⟨rfl, rfl⟩ | ⟨hgrows, rfl, rfl⟩ := hfirst
                  · obtain ⟨outer, houter, hsecond⟩ := stretch_cons_eq_some.mp hsecond
                    exact stretch_cons_eq_some.mpr ⟨outer, ih (Nat.succ.inj hlength) hinner houter, hsecond⟩
                  · obtain ⟨outer, houter, hsecond⟩ := stretch_cons_eq_some.mp hsecond
                    obtain ⟨rfl, rfl⟩ | ⟨_, hone, _⟩ := hsecond
                    · exact stretch_cons_eq_some.mpr
                        ⟨outer, ih (Nat.succ.inj hlength) hinner houter, .inr ⟨hgrows, rfl, rfl⟩⟩
                    · exact absurd hone.symm hgrows

/-- The dimensions put in front of a layout read the same element at every coordinate, and go on doing so in
every view of it. -/
theorem stretch_replicate_append {outer s t : Shape} {strides stretched : Strides}
    (hlength : (outer ++ s).length = t.length)
    (h : stretch (outer ++ s) (List.replicate outer.length 0 ++ strides) t = some stretched) :
    ∃ inner, stretch s strides (t.drop outer.length) = some inner ∧
      stretched = List.replicate outer.length 0 ++ inner := by
  induction outer generalizing t stretched with
  | nil => exact ⟨stretched, h, rfl⟩
  | cons n outer ih =>
      cases t with
      | nil => cases hlength
      | cons m t =>
          obtain ⟨rest, hrest, hhead⟩ := stretch_cons_eq_some.mp h
          obtain ⟨inner, hinner, rfl⟩ := ih (Nat.succ.inj hlength) hrest
          refine ⟨inner, hinner, ?_⟩
          obtain ⟨_, rfl⟩ | ⟨_, _, rfl⟩ := hhead <;> rfl

/-- A view of a view is a view, with the strides that both steps lead to. -/
theorem broadcastTo_trans {l v w : Layout} {b c : Shape} (hv : l.broadcastTo b = .ok v)
    (hw : v.broadcastTo c = .ok w) : l.broadcastTo c = .ok w := by
  obtain ⟨hb, between, hbetween, rfl⟩ := broadcastTo_eq_ok_iff.mp hv
  obtain ⟨hc, stretched, hstretched, rfl⟩ := broadcastTo_eq_ok_iff.mp hw
  have hc : b.length ≤ c.length := hc
  -- the dimensions of the first target, split into those put in front and those stretched
  have hadded : (b.take (b.length - l.rank)).length = b.length - l.rank := by simp
  have hsplit : stretch (b.take (b.length - l.rank) ++ b.drop (b.length - l.rank))
      (List.replicate (b.take (b.length - l.rank)).length 0 ++ between)
      (c.drop (c.length - b.length)) = some stretched := by
    rwa [List.take_append_drop, hadded]
  obtain ⟨inner, hinner, rfl⟩ := stretch_replicate_append
    (by rw [List.take_append_drop, List.length_drop]; omega) hsplit
  have hdrop : c.length - b.length + (b.length - l.rank) = c.length - l.rank := by omega
  rw [hadded, List.drop_drop, hdrop] at hinner
  refine broadcastTo_eq_ok_iff.mpr ⟨hb.trans hc, inner, ?_, ?_⟩
  · exact stretch_trans (by rw [List.length_drop, ← rank]; omega) hbetween hinner
  · have hrank : rank ⟨b, List.replicate (b.length - l.rank) 0 ++ between, l.offset⟩ = b.length := rfl
    rw [hrank, hadded, ← List.append_assoc, List.replicate_append_replicate, hdrop]

/-- **Views compose.**  Whatever target a layout is stretched to on the way, the view that is reached is the one
that the layout itself has of the last target: the same shape, strides and offset.  A target that the layout
has no view of is therefore reached by no way at all. -/
theorem broadcastTo_broadcastTo (l : Layout) (b c : Shape) :
    (∀ v w, l.broadcastTo b = .ok v → v.broadcastTo c = .ok w → l.broadcastTo c = .ok w) ∧
    ((∃ error, l.broadcastTo c = .error error) →
      (∃ error, l.broadcastTo b = .error error) ∨
      ∃ v error, l.broadcastTo b = .ok v ∧ v.broadcastTo c = .error error) := by
  refine ⟨fun v w hv hw => broadcastTo_trans hv hw, ?_⟩
  rintro ⟨error, hrefused⟩
  rcases hv : l.broadcastTo b with error | v
  · exact .inl ⟨error, rfl⟩
  · rcases hw : v.broadcastTo c with error | w
    · exact .inr ⟨v, error, rfl, hw⟩
    · cases hrefused.symm.trans (broadcastTo_trans hv hw)

/-- A row that is read backwards: an extent of 1 that stays first and grows then, in front of it a dimension
that was added, and one more; and a target that the row has no view of. -/
theorem broadcastTo_row_backwards :
    (Layout.mk [1, 3] [7, -2] 9).broadcastTo [2, 1, 3] = .ok ⟨[2, 1, 3], [0, 7, -2], 9⟩ ∧
    (Layout.mk [2, 1, 3] [0, 7, -2] 9).broadcastTo [5, 2, 4, 3] = .ok ⟨[5, 2, 4, 3], [0, 0, 0, -2], 9⟩ ∧
    (Layout.mk [1, 3] [7, -2] 9).broadcastTo [5, 2, 4, 3] = .ok ⟨[5, 2, 4, 3], [0, 0, 0, -2], 9⟩ ∧
    ((∃ error, (Layout.mk [1, 3] [7, -2] 9).broadcastTo [2, 1, 3] = .error error) ∨
      ∃ v error, (Layout.mk [1, 3] [7, -2] 9).broadcastTo [2, 1, 3] = .ok v ∧
        v.broadcastTo [2, 2, 4] = .error error) :=
  ⟨rfl, rfl, (broadcastTo_broadcastTo ⟨[1, 3], [7, -2], 9⟩ [2, 1, 3] [5, 2, 4, 3]).1 _ _ rfl rfl,
    (broadcastTo_broadcastTo ⟨[1, 3], [7, -2], 9⟩ [2, 1, 3] [2, 2, 4]).2 ⟨_, rfl⟩⟩

end Layout

end TensorGraph
