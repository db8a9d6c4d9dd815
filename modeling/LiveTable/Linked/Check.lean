import LiveTable.Linked.Table

/-!
# The integrity check on linked nodes

The check follows all links down from the ground, adds up what lies below every node and compares it
with what is stored there. It compares the numbers of nodes that it has met, of slots in use and of
keys, looks up every key, steps through all rows in order, and looks into the slots of the cursor and
of the bookmarks. It reports the first flaw that it meets.
-/

namespace LiveTable

/-- Reports a flaw unless something holds. -/
def ensure (p : Prop) [Decidable p] (flaw : Flaw) : Except Flaw Unit :=
  if p then .ok () else .error flaw

def absent {α : Type} (found : Option α) (flaw : α → Flaw) : Except Flaw Unit :=
  match found with
  | none => .ok ()
  | some a => .error (flaw a)

namespace Nodes

/-- Whether the child on a side of a node is there and linked back. -/
def checkChild (g : Nodes) (slot : Nat) (n : Node) (side : Side) : Except Flaw Unit :=
  match n.child side with
  | none => .ok ()
  | some child =>
    match g child with
    | none => .error (.freedChild n.cell.key)
    | some m => ensure (m.parent = some slot ∧ m.side = side) (.unlinked m.cell.key)

/-- Goes through a subtree, after `visited` nodes of `limit` that there may be. Answers how many
nodes have been visited by then, and the visible rows and the height of the subtree. -/
def audit (g : Nodes) (limit : Nat) (top : Option Nat) (visited : Nat) :
    ExceptT Flaw Option (Nat × Nat × Nat) :=
  match top with
  | none => return (visited, 0, 0)
  | some slot => do
    ensure (visited + 1 ≤ limit) .cyclic
    let n ← g slot
    ensure (n.ground = false) (.groundBelow slot)
    g.checkChild slot n .left
    let (visited, leftVisible, leftHeight) ← g |>.audit limit n.left (visited + 1)
    g.checkChild slot n .right
    let (visited, rightVisible, rightHeight) ← g |>.audit limit n.right visited
    let visible := n.cell.weight + (leftVisible + rightVisible)
    let height := 1 + max leftHeight rightHeight
    ensure (n.cell.visible = visible ∧ n.cell.height = height)
      (.miscounted n.cell.key n.cell.visible n.cell.height visible height)
    ensure (leftHeight ≤ rightHeight + 1 ∧ rightHeight ≤ leftHeight + 1)
      (.unbalanced n.cell.key leftHeight rightHeight)
    return (visited, visible, height)
partial_fixpoint

/-- Whether a row may stand after the row `last`. -/
def checkPair (compare : SortKey → SortKey → Ordering) (last : Option Entry) (e : Entry) :
    Except Flaw Unit :=
  match last with
  | none => .ok ()
  | some a => ensure (¬ (compare a.columns e.columns).isGT) (.misordered a.key e.key)

/-- Steps through the rows from a slot on, after the row `last`. -/
def checkOrder (g : Nodes) (compare : SortKey → SortKey → Ordering) (last : Option Entry)
    (slot : Nat) : ExceptT Flaw Option Unit :=
  if slot = 0 then return
  else do
    let n ← g slot
    checkPair compare last n.cell.toEntry
    g |>.checkOrder compare (some n.cell.toEntry) (← g.step .right slot)
partial_fixpoint

end Nodes

namespace LinkedTable

variable (w : LinkedTable)

/-- A key of the index whose slot holds no row with that key. -/
def staleKey? : Option Key :=
  (w.index.toList.find? fun (key, slot) => (w.nodes slot).map (·.cell.key) ≠ some key).map (·.1)

def astray? (position : Option Nat) : Option Nat :=
  position.filter fun slot => (w.nodes slot).isNone

/-- Whether the first row from above hangs on the right of the ground. -/
def checkRoot (root : Option Nat) : ExceptT Flaw Option Unit :=
  match root with
  | none => return
  | some slot => do
    let n ← w.nodes slot
    ensure (n.parent = some 0 ∧ n.side = .right) (.rootAstray n.cell.key)

def inspect : ExceptT Flaw Option Unit := do
  let ground ← w.nodes 0
  ensure (ground.ground ∧ ground.cell.hidden = false ∧ ground.left = none) .malformedGround
  w.checkRoot ground.right
  let (visited, visible, height) ← w.nodes.audit w.size ground.right 0
  ensure (ground.cell.visible = visible ∧ ground.cell.height = height)
    (.groundMiscounted ground.cell.visible ground.cell.height visible height)
  ensure (visited = w.size ∧ visited = w.index.size) (.disagreeing visited w.size w.index.size)
  absent w.staleKey? .stale
  w.nodes.checkOrder w.compare none (← w.nodes.step .right 0)
  absent (w.astray? w.cursor) .cursorAstray
  for b in w.bookmarks do absent (w.astray? b.position) (.bookmarkAstray b.mark)

def verify : Attempt Unit := ExceptT.mk (w.inspect.run.map (·.mapError Flaw.fault))

end LinkedTable

end LiveTable
