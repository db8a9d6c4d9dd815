import LiveTable.Tree.Focus

/-!
# Ranks

The rank of a row is the number of visible rows before it. `Focus.rank` counts
them on the way up from the row: whenever the row lies on the right side of a
cell, what the cell counts beyond the subtree just left lies before the row.
`Tree.select` goes the other way and finds the visible row of a given rank on
the way down.
-/

namespace LiveTable

/-- The visible rows before a subtree in the cells above it, where `below` is what the subtree
counts. -/
def rankAbove : List Crumb → Nat → Nat
  | [], _ => 0
  | c :: above, below =>
    (match c.side with
      | .left => 0
      | .right => c.cell.visible - below) + rankAbove above c.cell.visible

def Focus.rank (f : Focus) : Nat := f.left.visible + rankAbove f.above f.cell.visible

/-- The visible row that has `rank` visible rows before it. -/
def Tree.select : Tree → Nat → List Crumb → Option Focus
  | nil, _, _ => none
  | node l c r, rank, above =>
    if rank < l.visible then l.select rank (⟨.left, c, r⟩ :: above)
    else if c.hidden then r.select (rank - l.visible) (⟨.right, c, l⟩ :: above)
    else if rank = l.visible then some ⟨l, c, r, above⟩
    else r.select (rank - l.visible - 1) (⟨.right, c, l⟩ :: above)

theorem Tree.plug_of_select {t : Tree} {rank : Nat} {above : List Crumb} {f : Focus}
    (h : t.select rank above = some f) : f.plug = plugAll above t := by
  induction t generalizing rank above with
  | nil => cases h
  | node l c r ihl ihr =>
    simp only [select] at h
    repeat' split at h
    · exact ihl h
    · exact ihr h
    · cases h; rfl
    · exact ihr h

theorem Tree.visible_of_select {t : Tree} {rank : Nat} {above : List Crumb} {f : Focus}
    (h : t.select rank above = some f) : f.entry.hidden = false := by
  induction t generalizing rank above with
  | nil => cases h
  | node l c r ihl ihr =>
    simp only [select] at h
    repeat' split at h
    · exact ihl h
    · exact ihr h
    · rename_i hc _
      cases h
      simpa [Focus.entry] using hc
    · exact ihr h

end LiveTable
