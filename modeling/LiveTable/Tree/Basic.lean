import LiveTable.Row

/-!
# Trees of rows

A tree keeps rows in order. Each of its cells holds a row together with two
numbers about the subtree below it: its height, and how many of its rows are
visible. The numbers are stored, so that they are at hand without a walk, and
`make` computes them for a new cell from those stored just below it. `Counted`
says that the stored numbers are the true ones, and `Balanced` that at every cell
the heights of the two sides differ by one at most.
-/

namespace LiveTable

/-- A row in a tree, with what is stored about the subtree below it. -/
structure Cell extends Entry where
  height : Nat
  visible : Nat
  deriving DecidableEq, Inhabited

inductive Tree where
  | nil
  | node (left : Tree) (cell : Cell) (right : Tree)
  deriving DecidableEq, Inhabited

namespace Tree

def height : Tree → Nat
  | nil => 0
  | node _ c _ => c.height

def visible : Tree → Nat
  | nil => 0
  | node _ c _ => c.visible

def toList : Tree → List Entry
  | nil => []
  | node l c r => l.toList ++ c.toEntry :: r.toList

/-- A new cell between two trees. -/
def make (l : Tree) (e : Entry) (r : Tree) : Tree :=
  .node l ⟨e, 1 + max l.height r.height, e.weight + (l.visible + r.visible)⟩ r

/-- The height as it is, whatever is stored. -/
def depth : Tree → Nat
  | nil => 0
  | node l _ r => 1 + max l.depth r.depth

/-- Every stored number is the true one. -/
def Counted : Tree → Prop
  | nil => True
  | node l c r =>
    l.Counted ∧ r.Counted ∧ c.height = 1 + max l.depth r.depth ∧
      c.visible = c.weight + (visibleCount l.toList + visibleCount r.toList)

/-- At every cell the two sides differ in height by one at most. -/
def Balanced : Tree → Prop
  | nil => True
  | node l _ r =>
    l.Balanced ∧ r.Balanced ∧ l.depth ≤ r.depth + 1 ∧ r.depth ≤ l.depth + 1

@[simp] theorem toList_nil : nil.toList = [] := rfl

@[simp] theorem toList_node (l : Tree) (c : Cell) (r : Tree) :
    (node l c r).toList = l.toList ++ c.toEntry :: r.toList := rfl

@[simp] theorem toList_make (l : Tree) (e : Entry) (r : Tree) :
    (make l e r).toList = l.toList ++ e :: r.toList := rfl

@[simp] theorem depth_make (l : Tree) (e : Entry) (r : Tree) :
    (make l e r).depth = 1 + max l.depth r.depth := rfl

theorem Counted.height_eq {t : Tree} (h : t.Counted) : t.height = t.depth := by
  cases t with
  | nil => rfl
  | node l c r => exact h.2.2.1

theorem Counted.visible_eq {t : Tree} (h : t.Counted) : t.visible = visibleCount t.toList := by
  cases t with
  | nil => rfl
  | node l c r =>
    rw [toList_node, visibleCount_append, visibleCount_cons]
    have := h.2.2.2
    simp only [visible]
    omega

theorem Counted.make {l r : Tree} (hl : l.Counted) (hr : r.Counted) (e : Entry) :
    (make l e r).Counted := by
  refine ⟨hl, hr, ?_, ?_⟩
  · simp [hl.height_eq, hr.height_eq]
  · simp [hl.visible_eq, hr.visible_eq]

end Tree

end LiveTable
