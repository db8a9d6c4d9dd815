import LiveTable.Linked.Walk
import LiveTable.Proofs.Linked.Path
import LiveTable.Tree.Rank
import LiveTable.Tree.Search
import LiveTable.Tree.Span

/-!
# Walks along links lead where walks in the tree do

Every walk along the links of a tree that is laid out comes to an end, and it ends in the slot of the
row where the walk in the tree ends, or at the ground where that one leads to no row. Walks down are
by induction on the tree, walks up on the crumbs, and walks from row to row on what is left of the
rows.
-/

namespace LiveTable

theorem Tree.outermost_node (side : Side) (f : Focus) :
    f.subtree.outermost side f.above =
      ((f.child side).outermost side (f.crumb side :: f.above)).or (some f) := by
  obtain ⟨l, c, r, above⟩ := f
  cases side <;> simp only [Focus.subtree, outermost, Focus.child, Focus.crumb, Side.other] <;>
    split <;> simp [*]

namespace Nodes

variable {g : Nodes} {all : List Nat} {above : List Crumb} {t : Tree} {parent slot : Nat} {s : Side}
  {b : Option Nat} {f : Focus} {start : Option Focus}

/-! ## Step by step -/

theorem Hangs.outermost (side : Side) (h : g.Hangs all above t parent s (some slot)) :
    ∃ f i, t.outermost side above = some f ∧ g.outermost side slot = some i ∧ g.At all f i := by
  induction t generalizing above parent s slot with
  | nil => exact absurd (h.eq_nil_iff.1 rfl) (by simp)
  | node l c r ihl ihr =>
    let f : Focus := ⟨l, c, r, above⟩
    have hat : g.At all f slot := ⟨parent, s, h⟩
    obtain ⟨-, n, -, -, get, -, -, hchild⟩ := hat.exists_node
    have ih {q : Side} {i : Nat}
        (h : g.Hangs all (f.crumb side :: above) (f.child side) slot q (some i)) :
        ∃ f' j, (f.child side).outermost side (f.crumb side :: above) = some f' ∧
          g.outermost side i = some j ∧ g.At all f' j := by
      cases side
      · exact ihl h
      · exact ihr h
    have hstep := Tree.outermost_node side f
    rw [show f.subtree = .node l c r from rfl, show f.above = above from rfl] at hstep
    rw [Nodes.outermost, get, hstep, Option.bind_eq_bind, Option.bind_some]
    cases hb : n.child side with
    | none =>
      rw [Tree.outermost_eq_none_iff.2 ((hchild side).eq_nil_iff.2 hb)]
      exact ⟨f, slot, rfl, rfl, hat⟩
    | some below =>
      obtain ⟨f', j, hf', hj, hat'⟩ := ih (hb ▸ hchild side)
      rw [show (f.child side).outermost side (f.crumb side :: above) = some f' from hf']
      exact ⟨f', j, rfl, hj, hat'⟩

section

variable (h0 : 0 ∉ all)
include h0

theorem Hangs.ascend (side : Side) (h : g.Hangs all above t parent s (some slot)) :
    ∃ i, g.ascend side slot = some i ∧ g.Reaches all (LiveTable.ascend side above t) i := by
  induction above generalizing t parent s slot with
  | nil =>
    obtain ⟨hm, n, c, get, holds, -⟩ := h.exists_top
    obtain ⟨rfl, rfl⟩ := h.top_level
    have hne : slot ≠ 0 := fun he => h0 (he ▸ hm)
    rw [Nodes.ascend, if_neg hne, get]
    refine ⟨0, ?_, rfl⟩
    cases side with
    | left => simp [holds.side, holds.parent]
    | right =>
      simp only [Option.bind_eq_bind, Option.bind_some, holds.side, if_true, holds.parent,
        Option.getD_some]
      rw [Nodes.ascend, if_pos rfl]
      rfl
  | cons c cs ih =>
    obtain ⟨hm, n, _, get, holds, -⟩ := h.exists_top
    obtain ⟨hs, m, parent', s', get', -, -, hup⟩ := h.up
    have hne : slot ≠ 0 := fun he => h0 (he ▸ hm)
    rw [Nodes.ascend, if_neg hne, get]
    simp only [Option.bind_eq_bind, Option.bind_some, holds.side, hs, holds.parent,
      Option.getD_some, LiveTable.ascend]
    by_cases hc : c.side = side
    · rw [if_pos hc, if_neg (fun he => side.ne_other (hc.symm.trans he))]
      exact ih hup
    · have ho : c.side = side.other := by
        cases side <;> cases hcs : c.side <;> simp_all [Side.other]
      rw [if_neg hc, if_pos ho]
      refine ⟨parent, rfl, parent', s', ?_⟩
      obtain ⟨cside, cell, sibling⟩ := c
      cases cside <;> exact hup

/-- A step along links leads where a step in the tree leads. -/
theorem At.step (side : Side) (h : g.At all f slot) :
    ∃ i, g.step side slot = some i ∧ g.Reaches all (f.step side) i := by
  obtain ⟨-, n, parent, s, get, -, hf, hchild⟩ := h.exists_node
  rw [Nodes.step, get, Focus.step]
  cases hb : n.child side with
  | none =>
    rw [Tree.outermost_eq_none_iff.2 ((hchild side).eq_nil_iff.2 hb)]
    simp only [Option.bind_eq_bind, Option.bind_some, hb]
    exact hf.ascend h0 side
  | some below =>
    obtain ⟨f', i, hf', hi, hat⟩ := Hangs.outermost side.other (hb ▸ hchild side)
    rw [hf']
    simp only [Option.bind_eq_bind, Option.bind_some, hb]
    exact ⟨i, hi, hat⟩

theorem At.ne_zero (h : g.At all f slot) : slot ≠ 0 := fun he => h0 (he ▸ h.exists_node.1)

theorem Reaches.skipHidden (side : Side) (h : g.Reaches all start slot) :
    ∃ i, g.skipHidden side slot = some i ∧ g.Reaches all (span side (·.hidden) start).2 i := by
  fun_induction span side (·.hidden) start generalizing slot with
  | case1 =>
    cases h
    exact ⟨0, by rw [Nodes.skipHidden, if_pos rfl]; rfl, rfl⟩
  | case2 f hp rows stop hs ih =>
    obtain ⟨i, hi, hr⟩ := At.step h0 side h
    obtain ⟨-, n, _, _, get, holds, -, -⟩ := At.exists_node h
    have hn : n.cell.hidden = true := by rw [holds.cell]; exact hp
    rw [Nodes.skipHidden, if_neg (At.ne_zero h0 h), get]
    simp only [Option.bind_eq_bind, Option.bind_some, hn, if_true, hi]
    rw [hs] at ih
    exact ih hr
  | case3 f hp =>
    obtain ⟨-, n, _, _, get, holds, -, -⟩ := At.exists_node h
    have hn : n.cell.hidden = false := by rw [holds.cell]; exact eq_false_of_ne_true hp
    rw [Nodes.skipHidden, if_neg (At.ne_zero h0 h), get]
    exact ⟨slot, by simp [hn], h⟩

theorem Reaches.keysWhile (p : Entry → Bool) (h : g.Reaches all start slot) :
    g.keysWhile p slot = some ((span .right p start).1.map (·.key)) := by
  fun_induction span .right p start generalizing slot with
  | case1 =>
    cases h
    rw [Nodes.keysWhile, if_pos rfl]
    rfl
  | case2 f hp rows stop hs ih =>
    obtain ⟨i, hi, hr⟩ := At.step h0 .right h
    obtain ⟨-, n, _, _, get, holds, -, -⟩ := At.exists_node h
    rw [hs] at ih
    rw [Nodes.keysWhile, if_neg (At.ne_zero h0 h), get]
    simp only [Option.bind_eq_bind, Option.bind_some, holds.cell, hi, ih hr]
    exact if_pos hp
  | case3 f hp =>
    obtain ⟨-, n, _, _, get, holds, -, -⟩ := At.exists_node h
    have hn : p n.cell.toEntry = false := by rw [holds.cell]; exact eq_false_of_ne_true hp
    rw [Nodes.keysWhile, if_neg (At.ne_zero h0 h), get]
    simp [hn]

theorem Reaches.gather (side : Side) (wanted : Entry → Bool) (count : Nat)
    (h : g.Reaches all start slot) :
    ∃ i, g.gather side wanted count slot =
        some ((LiveTable.gather side wanted count start).1.map (·.key), i) ∧
      g.Reaches all (LiveTable.gather side wanted count start).2 i := by
  fun_induction LiveTable.gather side wanted count start generalizing slot with
  | case1 start => exact ⟨slot, by rw [Nodes.gather, if_pos (.inl rfl)]; rfl, h⟩
  | case2 count =>
    cases h
    exact ⟨0, by rw [Nodes.gather, if_pos (.inr rfl)]; rfl, rfl⟩
  | case3 count f hw rows stop hs ih =>
    obtain ⟨i, hi, hr⟩ := At.step h0 side h
    obtain ⟨-, n, _, _, get, holds, -, -⟩ := At.exists_node h
    rw [hs] at ih
    obtain ⟨j, hj, hr'⟩ := ih hr
    have hne : ¬ (count + 1 = 0 ∨ slot = 0) := by simp [At.ne_zero h0 h]
    refine ⟨j, ?_, hr'⟩
    rw [Nodes.gather, if_neg hne, get]
    simp only [Option.bind_eq_bind, Option.bind_some, hi, holds.cell]
    refine (if_pos hw).trans ?_
    simp only [Nat.succ_eq_add_one, Nat.add_sub_cancel, hj, Option.bind_some]
    rfl
  | case4 count f hw ih =>
    obtain ⟨i, hi, hr⟩ := At.step h0 side h
    obtain ⟨-, n, _, _, get, holds, -, -⟩ := At.exists_node h
    have hn : wanted n.cell.toEntry = false := by rw [holds.cell]; exact eq_false_of_ne_true hw
    obtain ⟨j, hj, hr'⟩ := ih hr
    have hne : ¬ (count + 1 = 0 ∨ slot = 0) := by simp [At.ne_zero h0 h]
    refine ⟨j, ?_, hr'⟩
    rw [Nodes.gather, if_neg hne, get]
    simp only [Option.bind_eq_bind, Option.bind_some, hi, hn, Bool.false_eq_true, if_false, hj]

/-! ## Ranks -/

theorem Hangs.rankAbove (h : g.Hangs all above t parent s (some slot)) :
    g.rankAbove slot = some (LiveTable.rankAbove above t.visible) := by
  induction above generalizing t parent s slot with
  | nil =>
    obtain ⟨-, n, c, get, holds, -⟩ := h.exists_top
    obtain ⟨rfl, rfl⟩ := h.top_level
    rw [Nodes.rankAbove, get]
    simp [holds.parent, LiveTable.rankAbove]
  | cons c cs ih =>
    obtain ⟨-, n, cell, get, holds, hv⟩ := h.exists_top
    obtain ⟨hs, m, parent', s', get', holds', -, hup⟩ := h.up
    have hne : parent ≠ 0 := fun he => h0 (he ▸ hup.exists_top.1)
    have hplug : (c.plug t).visible = c.cell.visible := by
      obtain ⟨side, cell, sibling⟩ := c
      cases side <;> rfl
    rw [Nodes.rankAbove, get]
    simp only [Option.bind_eq_bind, Option.bind_some, holds.parent, Option.getD_some, if_neg hne,
      get', ih hup, hplug, holds.side, hs, holds'.cell, holds.cell, LiveTable.rankAbove, hv]
    cases c.side <;> rfl

theorem At.rank (h : g.At all f slot) : g.rank slot = some f.rank := by
  obtain ⟨-, n, parent, s, get, -, hf, hchild⟩ := h.exists_node
  have hleft : g.visibleOf n.left = some f.left.visible := (hchild .left).visibleOf
  rw [Nodes.rank, get]
  simp only [Option.bind_eq_bind, Option.bind_some, hleft, hf.rankAbove h0]
  rfl

end

theorem Hangs.select (rank : Nat) (h : g.Hangs all above t parent s b) :
    ∃ o, g.select b rank = some o ∧ g.Lands all (t.select rank above) o := by
  induction t generalizing above parent s b rank with
  | nil =>
    cases h.eq_nil_iff.1 rfl
    exact ⟨none, by rw [Nodes.select], rfl⟩
  | node l c r ihl ihr =>
    obtain ⟨slot, n, rfl, -, get, holds, hl, hr⟩ := h.node
    rw [Nodes.select, get]
    simp only [Option.bind_eq_bind, Option.bind_some, hl.visibleOf, Tree.select, holds.cell]
    split
    · exact ihl _ hl
    split
    · exact ihr _ hr
    split
    · exact ⟨some slot, rfl, slot, rfl, parent, s, h⟩
    · exact ihr _ hr

/-! ## Searches -/

theorem Hangs.gap (goLeft : Entry → Bool) (h : g.Hangs all above t parent s b) :
    ∃ parent' s', g.gap goLeft parent s b = some (parent', s') ∧
      g.Hangs all (t.gap goLeft above) .nil parent' s' none := by
  induction t generalizing above parent s b with
  | nil =>
    cases h.eq_nil_iff.1 rfl
    exact ⟨parent, s, by rw [Nodes.gap], h⟩
  | node l c r ihl ihr =>
    obtain ⟨slot, n, rfl, -, get, holds, hl, hr⟩ := h.node
    rw [Nodes.gap, get]
    simp only [Option.bind_eq_bind, Option.bind_some, Tree.gap, holds.cell]
    split
    · exact ihl hl
    · exact ihr hr

/-- The last row that a descent passes on its left is the first one above the gap that lies on the
right. -/
theorem Hangs.bound (before : Entry → Bool) {found : Option Nat}
    (h : g.Hangs all above t parent s b)
    (hfound : g.Lands all (LiveTable.ascend .right above t) found) :
    ∃ o, g.bound before found b = some o ∧
      g.Lands all (LiveTable.ascend .right (t.gap (!before ·) above) .nil) o := by
  induction t generalizing above parent s b found with
  | nil =>
    cases h.eq_nil_iff.1 rfl
    exact ⟨found, by rw [Nodes.bound], hfound⟩
  | node l c r ihl ihr =>
    obtain ⟨slot, n, rfl, -, get, holds, hl, hr⟩ := h.node
    rw [Nodes.bound, get]
    simp only [Option.bind_eq_bind, Option.bind_some, Tree.gap, holds.cell]
    by_cases hb : before c.toEntry = true
    · rw [if_pos hb, if_neg (by simp [hb])]
      exact ihr hr hfound
    · rw [if_neg hb, if_pos (by simp [hb])]
      exact ihl hl ⟨slot, rfl, parent, s, h⟩

end Nodes

end LiveTable
