import LiveTable.Tree.Focus

/-!
# Trees of linked nodes

A tree that is changed in place lies in numbered slots, one node in each. A node knows the slots of
its two children, the slot of its parent, and on which side of the parent it hangs. The node above
the root is the ground: it holds no row and is nobody's child. Balancing a node changes links and
stored numbers and moves no row to another slot. Whatever looks into a slot that is empty comes to
nothing.
-/

namespace LiveTable

/-- A row in its slot. -/
structure Node where
  cell : Cell
  /-- Holds for the node above the root only. -/
  ground : Bool
  parent : Option Nat
  /-- The side of the parent on which the node hangs. -/
  side : Side
  left : Option Nat
  right : Option Nat
  deriving DecidableEq

namespace Node

def child (n : Node) : Side → Option Nat
  | .left => n.left
  | .right => n.right

def withChild (n : Node) (side : Side) (slot : Option Nat) : Node :=
  match side with
  | .left => { n with left := slot }
  | .right => { n with right := slot }

def hang (n : Node) (parent : Nat) (side : Side) : Node :=
  { n with parent := some parent, side := side }

def store (n : Node) (visible height : Nat) : Node :=
  { n with cell := { n.cell with visible := visible, height := height } }

end Node

abbrev Nodes := Nat → Option Node

/-- What became of a node: the one in its place, the rotations that it took, and all nodes. -/
structure Lifted where
  top : Nat
  rotations : Nat
  nodes : Nodes

namespace Nodes

def modify (g : Nodes) (slot : Nat) (change : Node → Node) : Option Nodes :=
  (g slot).map fun n i => if i = slot then some (change n) else g i

def heightOf (g : Nodes) : Option Nat → Option Nat
  | none => some 0
  | some slot => (g slot).map (·.cell.height)

def visibleOf (g : Nodes) : Option Nat → Option Nat
  | none => some 0
  | some slot => (g slot).map (·.cell.visible)

/-- Stores the numbers of a node anew, from those of its children. The ground adds nothing. -/
def recount (g : Nodes) (slot : Nat) : Option Nodes := do
  let n ← g slot
  let visible := (← g.visibleOf n.left) + (← g.visibleOf n.right)
  let height := max (← g.heightOf n.left) (← g.heightOf n.right)
  let own := if n.ground then (0, 0) else (n.cell.weight, 1)
  g.modify slot (·.store (own.1 + visible) (own.2 + height))

/-- Links a node and a child, both ways. -/
def link (g : Nodes) (parent : Nat) (side : Side) (child : Option Nat) : Option Nodes := do
  let g ← g.modify parent (·.withChild side child)
  match child with
  | none => return g
  | some slot => g.modify slot (·.hang parent side)

/-- By how much the subtree on a side is higher than the other one. -/
def excess (g : Nodes) (side : Side) (slot : Nat) : Option Int := do
  let n ← g slot
  let here ← g.heightOf (n.child side)
  let there ← g.heightOf (n.child side.other)
  return (here : Int) - there

/-- Lifts the child on a side into the place of its parent. A node without such a child stays. -/
def lift (g : Nodes) (side : Side) (pivot : Nat) : Option Lifted := do
  let n ← g pivot
  match n.child side with
  | none => return ⟨pivot, 0, g⟩
  | some top =>
    let inner := (← g top).child side.other
    let g ← g.link pivot side inner
    let g ← g.link top side.other (some pivot)
    let g ← g.link (n.parent.getD 0) n.side (some top)
    let g ← g.recount pivot
    let g ← g.recount top
    return ⟨top, 1, g⟩

/-- Lifts the child on a side, which is first lifted outward if it leans inward. -/
def liftHeavy (g : Nodes) (side : Side) (slot : Nat) : Option Lifted := do
  let first ← match (← g slot).child side with
    | none => pure ⟨slot, 0, g⟩
    | some heavy =>
      if 0 < (← g.excess side.other heavy) then g.lift side.other heavy else pure ⟨heavy, 0, g⟩
  let second ← first.nodes.lift side slot
  return { second with rotations := first.rotations + second.rotations }

def restructure (g : Nodes) (slot : Nat) : Option Lifted := do
  let excess ← g.excess .left slot
  if 1 < excess then g.liftHeavy .left slot
  else if excess < -1 then g.liftHeavy .right slot
  else return ⟨slot, 0, g⟩

end Nodes

end LiveTable
