import LiveTable.Tree.Search

/-!
# Insertion and removal

A new row becomes a leaf in a gap of the tree. A row is removed in favour of what
is below it: of its one side if the other is empty, and otherwise of the row just
before it, which takes its place (`popLast?`). Every cell above the change is
balanced again, the lowest first.
-/

namespace LiveTable

namespace Tree

/-- Puts a row into the gap under the crumbs. -/
def plant (above : List Crumb) (e : Entry) : Rebuilt := climb above (make nil e nil)

theorem toList_plant (above : List Crumb) (e : Entry) :
    (plant above e).tree.toList =
      (rowsAbove .left above).reverse ++ e :: rowsAbove .right above := by
  simp [plant, toList_climb, toList_plugAll]

/-- The last row, and the tree without it. -/
def popLast? : Tree → Option (Entry × Rebuilt)
  | nil => none
  | node l c r =>
    match r.popLast? with
    | none => some (c.toEntry, ⟨l, 0⟩)
    | some (e, rest) =>
      let here := balance l c.toEntry rest.tree
      some (e, ⟨here.tree, rest.rotations + here.rotations⟩)

theorem popLast?_eq_none_iff {t : Tree} : t.popLast? = none ↔ t = nil := by
  cases t with
  | nil => simp [popLast?]
  | node l c r =>
    simp only [popLast?, reduceCtorEq, iff_false]
    split <;> simp

theorem toList_popLast? {t : Tree} {e : Entry} {rest : Rebuilt}
    (h : t.popLast? = some (e, rest)) : t.toList = rest.tree.toList ++ [e] := by
  induction t generalizing e rest with
  | nil => cases h
  | node l c r _ ihr =>
    simp only [popLast?] at h
    split at h
    · rename_i hr
      cases h
      simp [popLast?_eq_none_iff.1 hr]
    · rename_i hr
      cases h
      simp [ihr hr]

def merge (l r : Tree) : Rebuilt :=
  match r with
  | nil => ⟨l, 0⟩
  | r =>
    match l.popLast? with
    | none => ⟨r, 0⟩
    | some (e, rest) =>
      let here := balance rest.tree e r
      ⟨here.tree, rest.rotations + here.rotations⟩

theorem toList_merge (l r : Tree) : (merge l r).tree.toList = l.toList ++ r.toList := by
  unfold merge
  split
  · simp
  · split
    · rename_i h
      simp [popLast?_eq_none_iff.1 h]
    · rename_i h
      simp [toList_popLast? h]

end Tree

def Focus.remove (f : Focus) : Rebuilt :=
  let here := Tree.merge f.left f.right
  let rest := climb f.above here.tree
  ⟨rest.tree, here.rotations + rest.rotations⟩

theorem Focus.toList_remove (f : Focus) : f.remove.tree.toList = f.before ++ f.after := by
  simp [remove, toList_climb, toList_plugAll, Tree.toList_merge, before, after, onward, child,
    Tree.listing]

end LiveTable
