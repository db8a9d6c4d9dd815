import LiveTable.Tree.Links

/-!
# Walks along links

From a node one goes down to the last node towards a side, up to the first node on whose other side
one has been, and so to the row next to it. Ranks are counted on the way up and looked for on the
way down. Nothing bounds these walks but the links: where they lead in a circle, or to a slot that
is empty, the walk comes to nothing.
-/

namespace LiveTable.Nodes

/-! ## Step by step -/

def outermost (g : Nodes) (side : Side) (slot : Nat) : Option Nat := do
  let n ← g slot
  match n.child side with
  | none => return slot
  | some below => g |>.outermost side below
partial_fixpoint

/-- The nearest node above that has the given one on its other side, or else the ground. -/
def ascend (g : Nodes) (side : Side) (slot : Nat) : Option Nat := do
  if slot = 0 then return 0
  let n ← g slot
  let parent := n.parent.getD 0
  if n.side = side then g |>.ascend side parent else return parent
partial_fixpoint

/-- The neighbouring row on a side, or the ground if there is none. -/
def step (g : Nodes) (side : Side) (slot : Nat) : Option Nat := do
  let n ← g slot
  match n.child side with
  | some below => g.outermost side.other below
  | none => g.ascend side slot

def skipHidden (g : Nodes) (side : Side) (slot : Nat) : Option Nat := do
  if slot = 0 then return 0
  let n ← g slot
  if n.cell.hidden then g |>.skipHidden side (← g.step side slot) else return slot
partial_fixpoint

/-- The keys of the rows from a slot on, for as long as they satisfy `p`. -/
def keysWhile (g : Nodes) (p : Entry → Bool) (slot : Nat) : Option (List Key) := do
  if slot = 0 then return []
  let n ← g slot
  if p n.cell.toEntry then return n.cell.key :: (← g |>.keysWhile p (← g.step .right slot))
  else return []
partial_fixpoint

/-- The keys of the next `count` wanted rows from a slot on, and the slot where the walk ends. -/
def gather (g : Nodes) (side : Side) (wanted : Entry → Bool) (count slot : Nat) :
    Option (List Key × Nat) := do
  if count = 0 ∨ slot = 0 then return ([], slot)
  let n ← g slot
  let next ← g.step side slot
  if wanted n.cell.toEntry then
    let (keys, stop) ← g |>.gather side wanted (count - 1) next
    return (n.cell.key :: keys, stop)
  else g |>.gather side wanted count next
partial_fixpoint

/-! ## Ranks -/

/-- The visible rows before a subtree that the nodes above its root count. -/
def rankAbove (g : Nodes) (slot : Nat) : Option Nat := do
  let n ← g slot
  let parent := n.parent.getD 0
  if parent = 0 then return 0
  let p ← g parent
  let here :=
    match n.side with
    | .left => 0
    | .right => p.cell.visible - n.cell.visible
  return here + (← g |>.rankAbove parent)
partial_fixpoint

def rank (g : Nodes) (slot : Nat) : Option Nat := do
  let n ← g slot
  return (← g.visibleOf n.left) + (← g.rankAbove slot)

/-- The visible row of a subtree that has `rank` visible rows before it there. -/
def select (g : Nodes) (top : Option Nat) (rank : Nat) : Option (Option Nat) :=
  match top with
  | none => some none
  | some slot => do
    let n ← g slot
    let left ← g.visibleOf n.left
    if rank < left then g |>.select n.left rank
    else if n.cell.hidden then g |>.select n.right (rank - left)
    else if rank = left then return some slot
    else g |>.select n.right (rank - left - 1)
partial_fixpoint

/-! ## Searches -/

/-- The place under a node where a row goes that is to the left of the rows that satisfy `goLeft`
and to the right of all others. -/
def gap (g : Nodes) (goLeft : Entry → Bool) (parent : Nat) (side : Side) (top : Option Nat) :
    Option (Nat × Side) :=
  match top with
  | none => some (parent, side)
  | some slot => do
    let n ← g slot
    let side := if goLeft n.cell.toEntry then .left else .right
    g |>.gap goLeft slot side (n.child side)
partial_fixpoint

/-- The last row not satisfying `before` that a descent meets, or `found` if it meets none. -/
def bound (g : Nodes) (before : Entry → Bool) (found top : Option Nat) : Option (Option Nat) :=
  match top with
  | none => some found
  | some slot => do
    let n ← g slot
    if before n.cell.toEntry then g |>.bound before found n.right
    else g |>.bound before (some slot) n.left
partial_fixpoint

end LiveTable.Nodes
