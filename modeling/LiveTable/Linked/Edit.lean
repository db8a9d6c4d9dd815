import LiveTable.Linked.Walk

/-!
# Changes of links

Where something has changed below a node, every node from there up to the root is counted anew and
balanced (`rebalance`), or counted anew only (`recountUp`). A row is taken out by putting another
subtree in its place, or the row before it where it has two.
-/

namespace LiveTable

namespace Node

/-- A node that is not yet linked, and has nothing counted below it. -/
def fresh (e : Entry) : Node := ⟨⟨e, 0, 0⟩, false, none, .left, none, none⟩

def above : Node := { fresh ⟨.ground, false⟩ with ground := true }

def withHidden (n : Node) (hidden : Bool) : Node :=
  { n with cell := { n.cell with hidden := hidden } }

end Node

namespace Nodes

/-- Counts and balances every node from one up to the ground, and tells the rotations. -/
def rebalance (g : Nodes) (slot : Nat) : Option (Nodes × Nat) := do
  if slot = 0 then return (← g.recount 0, 0)
  let up ← (← g.recount slot).restructure slot
  let n ← up.nodes up.top
  let (g, rotations) ← up.nodes |>.rebalance (n.parent.getD 0)
  return (g, up.rotations + rotations)
partial_fixpoint

/-- Counts every node from one up to the ground. -/
def recountUp (g : Nodes) (slot : Nat) : Option Nodes := do
  let g ← g.recount slot
  if slot = 0 then return g
  let n ← g slot
  g |>.recountUp (n.parent.getD 0)
partial_fixpoint

def setHidden (g : Nodes) (slot : Nat) (hidden : Bool) : Option Nodes := do
  let n ← g slot
  if n.cell.hidden = hidden then return g
  let g ← g.modify slot (·.withHidden hidden)
  g.recountUp slot

/-- Goes through the rows from a slot on for as long as they satisfy `p`, and hides or shows those
that are to be. Tells which ones, and where it stops. -/
def markWhile (p : Entry → Bool) (flag : Entry → Option Bool) (g : Nodes) (slot : Nat) :
    Option (List (Nat × Key) × Nat × Nodes) := do
  if slot = 0 then return ([], 0, g)
  let n ← g slot
  if p n.cell.toEntry then
    match flag n.cell.toEntry with
    | none => g |>.markWhile p flag (← g.step .right slot)
    | some hidden =>
      let g ← g.setHidden slot hidden
      let (rows, stop, g) ← g |>.markWhile p flag (← g.step .right slot)
      return ((slot, n.cell.key) :: rows, stop, g)
  else return ([], slot, g)
partial_fixpoint

/-- Takes a node out of the tree, whose place is taken by its only subtree or by the row before. -/
def unlink (g : Nodes) (slot : Nat) : Option (Nodes × Nat) := do
  let n ← g slot
  let parent := n.parent.getD 0
  match n.left, n.right with
  | none, none => (← g.link parent n.side none).rebalance parent
  | some child, none | none, some child =>
    (← g.link parent n.side (some child)).rebalance parent
  | some left, some right =>
    let last ← g.outermost .right left
    let m ← g last
    let above := m.parent.getD 0
    let g ← if last = left then pure g else do
      let g ← g.link above .right m.left
      g.link last .left (some left)
    let g ← g.link last .right (some right)
    let g ← g.link parent n.side (some last)
    g.rebalance (if above = slot then last else above)

end Nodes

end LiveTable
