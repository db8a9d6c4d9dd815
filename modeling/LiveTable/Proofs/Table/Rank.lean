import LiveTable.Proofs.Table.Reachable

/-!
# Ranks

The rank of a row is counted on the way up to the root of the tree: what its left side counts, and
for every cell that is reached from its right side what the cell counts beyond the subtree just
left. In a sound tree these are the visible rows before the row (`Focus.rank_eq`), whatever the
shape of the tree and the order of the rows. The rank of a position of a table is therefore the
number of visible rows behind it (`Sound.rankOf_eq`). A visible row is told by its rank
(`RankedAt.unique`).
-/

namespace LiveTable

/-! ## In a tree -/

@[simp] theorem Crumb.visible_plug (c : Crumb) (t : Tree) :
    (c.plug t).visible = c.cell.visible := by
  obtain ⟨side, cell, sibling⟩ := c
  cases side <;> rfl

theorem rankAbove_eq {above : List Crumb} {t : Tree} (h : (plugAll above t).Sound) :
    rankAbove above (visibleCount t.toList) = visibleCount (rowsAbove .left above) := by
  induction above generalizing t with
  | nil => rfl
  | cons c cs ih =>
    have hc : (c.plug t).Sound := sound_of_plugAll cs h
    have hrest := ih (t := c.plug t) h
    have hcell : c.cell.visible = visibleCount (c.plug t).toList :=
      (c.visible_plug t).symm.trans hc.counted.visible_eq
    rw [← hcell] at hrest
    obtain ⟨side, cell, sibling⟩ := c
    unfold rankAbove
    rw [rowsAbove_cons, visibleCount_append, hrest]
    cases side with
    | left => simp [Crumb.onward, Side.other, visibleCount]
    | right =>
      -- the cell and its left side lie before the subtree, and nothing else below the cell does
      have ho : Crumb.onward .left ⟨.right, cell, sibling⟩ =
          cell.toEntry :: sibling.toList.reverse := by
        simp [Crumb.onward, Side.other, Tree.listing]
      have hp : (Crumb.plug ⟨.right, cell, sibling⟩ t).toList =
          sibling.toList ++ cell.toEntry :: t.toList := rfl
      rw [hp, visibleCount_append, visibleCount_cons] at hcell
      rw [ho, visibleCount_cons, visibleCount_reverse]
      simp only at hcell ⊢
      omega

/-- The rank of a row is the number of visible rows before it. -/
theorem Focus.rank_eq {f : Focus} (h : f.plug.Sound) : f.rank = visibleCount f.before := by
  have hs : f.subtree.Sound := sound_of_plugAll f.above h
  have hcell : f.cell.visible = visibleCount f.subtree.toList := hs.counted.visible_eq
  have hleft : f.left.visible = visibleCount f.left.toList := hs.left.counted.visible_eq
  have habove : rankAbove f.above (visibleCount f.subtree.toList) =
      visibleCount (rowsAbove .left f.above) := rankAbove_eq h
  unfold Focus.rank Focus.before Focus.onward
  rw [hcell, hleft, habove, visibleCount_reverse, visibleCount_append]
  apply congrArg (· + _)
  exact (visibleCount_reverse f.left.toList).symm

/-! ## In a list of rows -/

def Position.behind (rows : List Entry) : Position → List Entry
  | .beforeFirst => []
  | .row key => rows.takeWhile (·.key ≠ key)
  | .pastEnd => rows

theorem Position.behind_row {xs ys : List Entry} {e : Entry} (hd : Distinct (xs ++ e :: ys)) :
    (row e.key).behind (xs ++ e :: ys) = xs := hd.span_ne.1

/-- The row is visible and has `rank` visible rows before it. -/
def RankedAt (rows : List Entry) (rank : Nat) (e : Entry) : Prop :=
  ∃ xs ys, rows = xs ++ e :: ys ∧ e.hidden = false ∧ visibleCount xs = rank

theorem RankedAt.unique {rows : List Entry} {rank : Nat} {a b : Entry} (ha : RankedAt rows rank a)
    (hb : RankedAt rows rank b) : a = b := by
  -- of two different rows the later one has the earlier one, which is visible, before it
  have later {xs ys zs ys' : List Entry} {a b : Entry} (hv : a.hidden = false)
      (hs : a :: ys = zs ++ b :: ys') (hc : visibleCount (xs ++ zs) = visibleCount xs) : a = b := by
    cases zs with
    | nil => exact (List.cons.inj hs).1
    | cons z zs =>
      cases (List.cons.inj hs).1
      have hw : a.weight = 1 := by simp [Entry.weight, hv]
      rw [visibleCount_append, visibleCount_cons] at hc
      omega
  obtain ⟨xs, ys, rfl, hva, hca⟩ := ha
  obtain ⟨xs', ys', he, hvb, hcb⟩ := hb
  rcases List.append_eq_append_iff.1 he with ⟨zs, rfl, hs⟩ | ⟨zs, rfl, hs⟩
  · exact later hva hs (hcb.trans hca.symm)
  · exact (later hvb hs (hca.trans hcb.symm)).symm

/-! ## In a table -/

namespace Table

variable {t : Table}

theorem Sound.rankOf_eq (h : t.Sound) {p : Position} (hp : p.Within t.entries) :
    t.rankOf p = visibleCount (p.behind t.entries) := by
  cases p with
  | beforeFirst => rfl
  | pastEnd => exact h.visible_eq
  | row key =>
    obtain ⟨f, xs, e, ys, hf, hs, rfl⟩ := h.focus?_of_hasKey hp
    have he := entries_of_splits hs
    have hr : t.rankOf (.row e.key) = f.rank := by simp only [rankOf, hf]; rfl
    rw [hr, Focus.rank_eq (hs.plug ▸ h.tree), hs.before, he, Position.behind_row (he ▸ h.distinct)]

theorem Sound.rankOf_row (h : t.Sound) {xs ys : List Entry} {e : Entry}
    (he : t.entries = xs ++ e :: ys) : t.rankOf (.row e.key) = visibleCount xs := by
  rw [h.rankOf_eq (he ▸ hasKey_middle), he, Position.behind_row (he ▸ h.distinct)]

theorem Sound.currentRank_eq (h : t.Sound) :
    t.currentRank = visibleCount (t.cursor.behind t.entries) := h.rankOf_eq h.cursor

/-- The row that is selected under a rank has that rank. -/
theorem Sound.select_rankedAt (h : t.Sound) {rank : Nat} (hr : rank < t.visible) :
    ∃ e, t.select rank = .row e.key ∧ RankedAt t.entries rank e := by
  obtain ⟨xs, e, ys, he, hp, hv, hc⟩ := h.select_lt hr
  exact ⟨e, hp, xs, ys, he, hv, hc⟩

theorem Sound.rankOf_select (h : t.Sound) {rank : Nat} (hr : rank ≤ t.visible) :
    t.rankOf (t.select rank) = rank := by
  rcases Nat.lt_or_eq_of_le hr with hlt | rfl
  · obtain ⟨xs, e, ys, he, hp, -, hc⟩ := h.select_lt hlt
    rw [hp, h.rankOf_row he, hc]
  · rw [h.select_ge (Nat.le_refl _)]
    rfl

end Table

end LiveTable
