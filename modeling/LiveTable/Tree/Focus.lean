import LiveTable.Tree.Balance

/-!
# A row in its tree

A focus is a cell of a tree with everything around it: the subtrees below the
cell and the crumbs above it, the nearest first. A crumb is a cell on the way up
to the root with the subtree on its other side. `plug` gives the tree back
unchanged. From a focus one steps to the row before or after it, counts the
visible rows before it, takes its row out, or changes the rows that follow.

The view of a focus is the list of rows on either side of it (`onward`): a step
goes to the first of them, and none is left out.
-/

namespace LiveTable

inductive Side where
  | left
  | right
  deriving DecidableEq, Inhabited

def Side.other : Side → Side
  | .left => .right
  | .right => .left

/-- A cell above a focus. -/
structure Crumb where
  /-- The side of the cell on which the focus lies. -/
  side : Side
  cell : Cell
  /-- The subtree on the other side. -/
  sibling : Tree
  deriving DecidableEq

structure Focus where
  left : Tree
  cell : Cell
  right : Tree
  above : List Crumb
  deriving DecidableEq

namespace Crumb

/-- The subtree of the cell, with `t` on the side of the focus. -/
def plug (c : Crumb) (t : Tree) : Tree :=
  match c.side with
  | .left => .node t c.cell c.sibling
  | .right => .node c.sibling c.cell t

/-- The subtree of the cell put together anew, with `t` on the side of the focus. -/
def join (c : Crumb) (t : Tree) : Tree :=
  match c.side with
  | .left => .make t c.cell.toEntry c.sibling
  | .right => .make c.sibling c.cell.toEntry t

/-- As `join`, and balanced. -/
def balance (c : Crumb) (t : Tree) : Rebuilt :=
  match c.side with
  | .left => Tree.balance t c.cell.toEntry c.sibling
  | .right => Tree.balance c.sibling c.cell.toEntry t

def focus (c : Crumb) (t : Tree) (above : List Crumb) : Focus :=
  match c.side with
  | .left => ⟨t, c.cell, c.sibling, above⟩
  | .right => ⟨c.sibling, c.cell, t, above⟩

end Crumb

/-! ## Ways up -/

/-- Puts a subtree back under the crumbs above it. -/
def plugAll (above : List Crumb) (t : Tree) : Tree := above.foldl (fun t c => c.plug t) t

/-- Puts a changed subtree back under the crumbs above it and balances at every one of them. -/
def climb : List Crumb → Tree → Rebuilt
  | [], t => ⟨t, 0⟩
  | c :: above, t =>
    let here := c.balance t
    let rest := climb above here.tree
    ⟨rest.tree, here.rotations + rest.rotations⟩

/-- The nearest cell above that has the subtree `t` on the side away from `side`. -/
def ascend (side : Side) : List Crumb → Tree → Option Focus
  | [], _ => none
  | c :: above, t =>
    if c.side = side.other then some (c.focus t above) else ascend side above (c.plug t)

namespace Tree

def outermost (side : Side) : Tree → List Crumb → Option Focus
  | nil, _ => none
  | node l c r, above =>
    let further :=
      match side with
      | .left => l.outermost side (⟨.left, c, r⟩ :: above)
      | .right => r.outermost side (⟨.right, c, l⟩ :: above)
    match further with
    | some f => some f
    | none => some ⟨l, c, r, above⟩

/-- The rows in the order in which one meets them on the way to a side. -/
def listing (side : Side) (t : Tree) : List Entry :=
  match side with
  | .left => t.toList.reverse
  | .right => t.toList

end Tree

namespace Focus

def entry (f : Focus) : Entry := f.cell.toEntry

def key (f : Focus) : Key := f.cell.key

/-- The subtree whose root is the focus. -/
def subtree (f : Focus) : Tree := .node f.left f.cell f.right

def plug (f : Focus) : Tree := plugAll f.above f.subtree

def child (f : Focus) : Side → Tree
  | .left => f.left
  | .right => f.right

/-- The crumb that the focus leaves on the way down to one of its sides. -/
def crumb (f : Focus) (side : Side) : Crumb := ⟨side, f.cell, f.child side.other⟩

def step (f : Focus) (side : Side) : Option Focus :=
  match (f.child side).outermost side.other (f.crumb side :: f.above) with
  | some g => some g
  | none => ascend side f.above f.subtree

end Focus

/-! ## Rows on either side -/

/-- The rows that one meets from a crumb on, coming from its focus on the way to a side. -/
def Crumb.onward (side : Side) (c : Crumb) : List Entry :=
  if c.side = side.other then c.cell.toEntry :: c.sibling.listing side else []

/-- The rows above a subtree that one meets on the way to a side. -/
def rowsAbove (side : Side) (above : List Crumb) : List Entry := above.flatMap (·.onward side)

/-- The rows beyond the focus that one meets on the way to a side. -/
def Focus.onward (f : Focus) (side : Side) : List Entry :=
  (f.child side).listing side ++ rowsAbove side f.above

def Focus.before (f : Focus) : List Entry := (f.onward .left).reverse

def Focus.after (f : Focus) : List Entry := f.onward .right

@[simp] theorem Side.other_other (s : Side) : s.other.other = s := by cases s <;> rfl

theorem Side.ne_other (s : Side) : s ≠ s.other := by cases s <;> decide

theorem Crumb.onward_of_ne (c : Crumb) {side : Side} (h : c.side ≠ side.other) :
    c.onward side = [] := if_neg h

theorem rowsAbove_cons (side : Side) (c : Crumb) (above : List Crumb) :
    rowsAbove side (c :: above) = c.onward side ++ rowsAbove side above := rfl

theorem Crumb.toList_plug (c : Crumb) (t : Tree) :
    (c.plug t).toList = (c.onward .left).reverse ++ t.toList ++ c.onward .right := by
  obtain ⟨side, cell, sibling⟩ := c
  cases side <;> simp [plug, onward, Side.other, Tree.listing]

theorem toList_plugAll (above : List Crumb) (t : Tree) :
    (plugAll above t).toList =
      (rowsAbove .left above).reverse ++ t.toList ++ rowsAbove .right above := by
  induction above generalizing t with
  | nil => simp [plugAll, rowsAbove]
  | cons c cs ih =>
    have h := ih (c.plug t)
    simp only [plugAll, List.foldl_cons] at h ⊢
    rw [h, Crumb.toList_plug]
    simp [rowsAbove, List.flatMap_cons]

theorem Focus.toList_plug (f : Focus) : f.plug.toList = f.before ++ f.entry :: f.after := by
  rw [plug, toList_plugAll]
  simp [before, after, onward, subtree, child, entry, Tree.listing]

theorem Crumb.toList_balance (c : Crumb) (t : Tree) :
    (c.balance t).tree.toList = (c.plug t).toList := by
  obtain ⟨side, cell, sibling⟩ := c
  cases side <;> simp [plug, balance]

theorem toList_plugAll_congr {t u : Tree} (above : List Crumb) (h : t.toList = u.toList) :
    (plugAll above t).toList = (plugAll above u).toList := by
  rw [toList_plugAll, toList_plugAll, h]

/-- Balancing on the way up leaves the rows as they are. -/
theorem toList_climb (above : List Crumb) (t : Tree) :
    (climb above t).tree.toList = (plugAll above t).toList := by
  induction above generalizing t with
  | nil => rfl
  | cons c cs ih =>
    simp only [climb, ih]
    exact toList_plugAll_congr cs (c.toList_balance t)

/-! ## Steps -/

theorem ascend_some {side : Side} {above : List Crumb} {t : Tree} {g : Focus}
    (h : ascend side above t = some g) :
    rowsAbove side above = g.entry :: g.onward side ∧ g.plug = plugAll above t := by
  induction above generalizing t with
  | nil => cases h
  | cons c cs ih =>
    simp only [ascend] at h
    split at h
    · rename_i hs
      cases h
      obtain ⟨s, cell, sibling⟩ := c
      simp only at hs
      subst hs
      cases side <;>
        exact ⟨by simp [rowsAbove, Crumb.onward, Crumb.focus, Side.other, Focus.entry,
          Focus.onward, Focus.child], rfl⟩
    · rename_i hs
      obtain ⟨h1, h2⟩ := ih h
      exact ⟨by rw [rowsAbove_cons, c.onward_of_ne hs, h1, List.nil_append], h2⟩

theorem ascend_none {side : Side} {above : List Crumb} {t : Tree}
    (h : ascend side above t = none) : rowsAbove side above = [] := by
  induction above generalizing t with
  | nil => rfl
  | cons c cs ih =>
    simp only [ascend] at h
    split at h
    · cases h
    · rename_i hs
      rw [rowsAbove_cons, c.onward_of_ne hs, ih h, List.nil_append]

namespace Tree

theorem outermost_eq_none_iff {side : Side} {t : Tree} {above : List Crumb} :
    t.outermost side above = none ↔ t = nil := by
  cases t with
  | nil => simp [outermost]
  | node l c r =>
    simp only [outermost, reduceCtorEq, iff_false]
    split <;> simp

theorem outermost_some {side : Side} {t : Tree} {above : List Crumb} {g : Focus}
    (h : t.outermost side above = some g) :
    t.listing side.other ++ rowsAbove side.other above = g.entry :: g.onward side.other ∧
      g.plug = plugAll above t := by
  induction t generalizing above with
  | nil => cases h
  | node l c r ihl ihr =>
    cases side with
    | left =>
      simp only [outermost] at h
      split at h
      · rename_i f hf
        cases h
        obtain ⟨h1, h2⟩ := ihl hf
        refine ⟨?_, h2⟩
        simpa [Side.other, listing, rowsAbove, Crumb.onward] using h1
      · rename_i hf
        cases h
        cases outermost_eq_none_iff.1 hf
        exact ⟨by simp [Side.other, listing, Focus.entry, Focus.onward, Focus.child], rfl⟩
    | right =>
      simp only [outermost] at h
      split at h
      · rename_i f hf
        cases h
        obtain ⟨h1, h2⟩ := ihr hf
        refine ⟨?_, h2⟩
        simpa [Side.other, listing, rowsAbove, Crumb.onward] using h1
      · rename_i hf
        cases h
        cases outermost_eq_none_iff.1 hf
        exact ⟨by simp [Side.other, listing, Focus.entry, Focus.onward, Focus.child], rfl⟩

end Tree

namespace Focus

theorem step_some {f g : Focus} {side : Side} (h : f.step side = some g) :
    f.onward side = g.entry :: g.onward side ∧ g.plug = f.plug := by
  simp only [step] at h
  split at h
  · rename_i g' hg
    cases h
    obtain ⟨h1, h2⟩ := Tree.outermost_some hg
    constructor
    · have hne : side ≠ side.other := side.ne_other
      simpa [onward, rowsAbove, crumb, Crumb.onward, hne] using h1
    · rw [h2]
      cases side <;> rfl
  · rename_i hg
    obtain ⟨h1, h2⟩ := ascend_some h
    refine ⟨?_, h2⟩
    rw [onward, Tree.outermost_eq_none_iff.1 hg, ← h1]
    cases side <;> simp [Tree.listing]

theorem step_none {f : Focus} {side : Side} (h : f.step side = none) : f.onward side = [] := by
  simp only [step] at h
  split at h
  · cases h
  · rename_i hg
    rw [onward, Tree.outermost_eq_none_iff.1 hg, ascend_none h]
    cases side <;> rfl

end Focus

end LiveTable
