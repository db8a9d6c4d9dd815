import LiveTable.Linked.Edit
import LiveTable.Table.Command

/-!
# Tables of linked nodes

A table may keep all of its rows in one pool of linked nodes, with an index that leads from a key to
a slot. Its cursor and its bookmarks are slots then: that of the ground before the first row, and
none past the end. `answer` runs every command on the links alone. It comes to nothing where a link
that is followed leads to an empty slot, and where a walk does not end.
-/

namespace LiveTable

namespace Pool

variable {α : Type}

/-- The pool with other values in its slots. -/
def refill (p : Pool α) (values : Nat → Option α) : Pool α :=
  { p with slots := p.slots.mapIdx fun slot _ => values slot }

end Pool

/-- A position that was saved, and the rank that it had. -/
structure SavedSlot where
  mark : Mark
  position : Option Nat
  rank : Nat
  deriving DecidableEq

structure LinkedTable where
  settings : Settings
  collation : Collation
  pool : Pool Node
  index : Std.HashMap Key Nat
  arrivals : Nat
  cursor : Option Nat
  bookmarks : List SavedSlot
  nextMark : UInt32
  tally : Tally

namespace LinkedTable

def empty (settings : Settings) (collation : Collation) : LinkedTable where
  settings := settings
  collation := collation
  pool := .withGround .above
  index := ∅
  arrivals := 0
  cursor := some 0
  bookmarks := []
  nextMark := settings.firstMark
  tally := .zero settings.collectTally

variable (w : LinkedTable)

def nodes : Nodes := w.pool.get?

def withNodes (g : Nodes) : LinkedTable := { w with pool := w.pool.refill g }

def note (e : Tally.Event) : LinkedTable := { w with tally := w.tally.note e }

/-- The slot of the first row from above. -/
def root : Option (Option Nat) := (w.nodes 0).map (·.right)

def visible : Option Nat := (w.nodes 0).map (·.cell.visible)

def size : Nat := w.pool.size

def compare : SortKey → SortKey → Ordering := SortKey.compare w.collation

/-- What a command comes to: an answer or a fault, or nothing. -/
abbrev Attempt := ExceptT Fault Option

def lookup (key : Key) : Attempt Nat :=
  match w.index[key]? with
  | some slot => pure slot
  | none => throw (.notFound key)

def get (key : Key) : Attempt Snapshot := do
  let n ← w.nodes (← w.lookup key)
  return n.cell.snapshot

/-! ## Positions -/

/-- The key of the row in a slot; the ground has none. -/
def keyAt (slot : Nat) : Option (Option Key) :=
  if slot = 0 then some none else (w.nodes slot).map (some ·.cell.key)

/-- The position that a walk to a side has come to. -/
def landing (side : Side) (slot : Nat) : Option Nat :=
  if side = .right ∧ slot = 0 then none else some slot

def after : Option Nat → Option (Option Nat)
  | none => some none
  | some slot => (w.nodes.step .right slot).map (landing .right)

def select (rank : Nat) : Option (Option Nat) := do w.nodes.select (← w.root) rank

def before : Option Nat → Option (Option Nat)
  | none => do
    let visible ← w.visible
    if visible = 0 then return some 0 else w.select (visible - 1)
  | some slot => if slot = 0 then some (some 0) else (w.nodes.step .left slot).map (landing .left)

def rankOf : Option Nat → Option Nat
  | none => w.visible
  | some slot => if slot = 0 then some 0 else w.nodes.rank slot

def bookmark (mark : Mark) : Attempt SavedSlot :=
  match w.bookmarks.find? (·.mark = mark) with
  | some b => pure b
  | none => throw (.invalidBookmark mark)

def resolve (mark : Mark) : Attempt Standing := do
  let b ← w.bookmark mark
  let rank ← w.rankOf b.position
  return ⟨rank, rank ≠ b.rank⟩

def origin : Origin → Attempt Standing
  | .start => pure ⟨0, false⟩
  | .current => do return ⟨← w.rankOf w.cursor, false⟩
  | .finish => do return ⟨← w.visible, false⟩
  | .bookmark mark => w.resolve mark

def seek (origin : Origin) (offset : Int) : Attempt (Travel × LinkedTable) := do
  let start ← w.origin origin
  let visible ← w.visible
  let target := min (start.rank + offset).toNat visible
  let cursor ← (if visible = 0 then pure (some 0) else w.select target)
  return (⟨target - start.rank, start.drifted⟩, { w with cursor := cursor }.note .sought)

def goTo (key : Key) : Attempt LinkedTable := do
  return { w with cursor := some (← w.lookup key) }

def bound (probe : SortKey) : Option (Option Nat) := do
  w.nodes.bound (fun e => (w.compare e.columns probe).isLT) none (← w.root)

def find? (probe : SortKey) : Option (Option Key) := do
  match ← w.bound probe with
  | none => return none
  | some slot =>
    let n ← w.nodes slot
    return if (w.compare probe n.cell.columns).isLT then none else some n.cell.key

def predecessor (slot : Nat) : Option (Option Key) := do w.keyAt (← w.nodes.step .left slot)

/-! ## Rows come, move and go -/

def attach (key : Key) (columns : SortKey) (hidden : Bool) : Option (Nat × LinkedTable) := do
  let (parent, side) ←
    w.nodes.gap (fun e => (w.compare columns e.columns).isLT) 0 .right (← w.root)
  let (slot, pool) := w.pool.alloc (.fresh ⟨⟨key, columns, w.arrivals⟩, hidden⟩)
  let g ← Nodes.link pool.get? parent side (some slot)
  let (g, rotations) ← g.rebalance slot
  let table := { w with
    pool := pool.refill g
    index := w.index.insert key slot
    arrivals := w.arrivals + 1 }
  return (slot, table.note (.rotated rotations))

/-- Takes out a row, with the bookmarks on it; a cursor on it goes to the row after it. -/
def detach (key : Key) (slot : Nat) : Option LinkedTable := do
  let cursor ← (if w.cursor = some slot then w.after w.cursor else pure w.cursor)
  let (g, rotations) ← w.nodes.unlink slot
  let pool := w.pool.refill g
  let table := { w with
    pool := match pool.release? slot with
      | some (_, pool) => pool
      | none => pool
    index := w.index.erase key
    cursor := cursor
    bookmarks := w.bookmarks.filter (·.position ≠ some slot) }
  return table.note (.rotated rotations)

def put (key : Key) (columns : SortKey) (hidden : Bool) : Attempt (Placement × LinkedTable) := do
  if key = .reserved then throw (.reservedKey key)
  match w.index[key]? with
  | none =>
    let (slot, w) ← w.attach key columns hidden
    let w := w.note .added
    return (⟨.added, ← w.predecessor slot⟩, w)
  | some slot =>
    let n ← w.nodes slot
    if w.compare n.cell.columns columns = .eq ∧ w.compare columns n.cell.columns = .eq then
      return (⟨.modified, ← w.predecessor slot⟩, w.note .unchanged)
    else
      let (slot', moved) ← (← w.detach key slot).attach key columns hidden
      let cursor := if w.cursor = some slot then some slot' else moved.cursor
      let w := { moved with cursor := cursor }.note .modified
      return (⟨.modified, ← w.predecessor slot'⟩, w)

def erase (key : Key) : Attempt LinkedTable := do
  let slot ← w.lookup key
  return (← w.detach key slot).note .deleted

def setColumn (key : Key) (index : Nat) (column : Column) :
    Attempt (Recolumned × LinkedTable) := do
  let n ← w.nodes (← w.lookup key)
  let columns := n.cell.columns
  if columns.length ≤ index then throw (.columnOutOfRange index key columns.length)
  let (placement, w) ← w.put key (columns.set index column) n.cell.hidden
  return (⟨placement, n.cell.hidden⟩, w)

def clear : LinkedTable :=
  { w with pool := .withGround .above, index := ∅, cursor := some 0, bookmarks := [] }

/-! ## Categories -/

def isUnder (header : SortKey) (e : Entry) : Bool :=
  SortKey.comparePrefix w.collation header.length header e.columns = .eq

/-- Where the cursor is once the rows in some slots are hidden, with `stop` the next one. -/
def aside (slots : List Nat) (g : Nodes) (stop : Nat) : Option (Option Nat) :=
  if w.cursor ∈ slots.map some then (g.skipHidden .right stop).map (landing .right)
  else some w.cursor

def collapse (key : Key) : Attempt (List Key × LinkedTable) := do
  let slot ← w.lookup key
  let n ← w.nodes slot
  let (rows, stop, g) ← w.nodes.markWhile (w.isUnder n.cell.columns) (fun _ => some true)
    (← w.nodes.step .right slot)
  let cursor ← w.aside (rows.map (·.1)) g stop
  let keys := rows.map (·.2)
  return (keys, { w.withNodes g with cursor := cursor }.note (.hidden keys.length))

def expand (key : Key) : Attempt (List Key × LinkedTable) := do
  let slot ← w.lookup key
  let n ← w.nodes slot
  if n.cell.hidden then throw (.notFound key)
  let first ← w.nodes.step .right slot
  let width := ((w.nodes first).map (·.cell.columns.length)).getD 0
  let (rows, _, g) ← w.nodes.markWhile (w.isUnder n.cell.columns)
    (fun e => if e.columns.length = width then some false else none) first
  let keys := rows.map (·.2)
  return (keys, (w.withNodes g).note (.unhidden keys.length))

def family (key : Key) : Attempt (List Key) := do
  let slot ← w.lookup key
  let n ← w.nodes slot
  w.nodes.keysWhile (w.isUnder n.cell.columns) slot

/-! ## Reading -/

def readStart (backward : Bool) : Option (Option Nat) := do
  let root ← w.root
  if backward ∧ w.cursor = none then w.before none
  else if ¬ backward ∧ w.cursor = some 0 ∧ root.isSome then w.after w.cursor
  else return w.cursor

/-- The keys of the next `count` wanted rows from a position on, and the position after them. -/
def gather (side : Side) (wanted : Entry → Bool) (count : Nat) :
    Option Nat → Option (List Key × Option Nat)
  | none => some ([], none)
  | some slot =>
    if slot = 0 then some ([], some 0)
    else (w.nodes.gather side wanted count slot).map fun (keys, stop) => (keys, landing side stop)

def read (r : Reading) : Option (List Key × LinkedTable) := do
  let side := if r.backward then Side.left else .right
  let start ← w.readStart r.backward
  let visible ← w.visible
  let most := min r.count (if r.hidden then w.size else visible)
  let (keys, finish) ← w.gather side (fun e => r.hidden || e.isVisible) most start
  return (keys, if r.advance then { w with cursor := finish } else w)

def visibleBefore (key : Key) : Attempt (Option Key) := do
  let slot ← w.nodes.skipHidden .left (← w.nodes.step .left (← w.lookup key))
  w.keyAt slot

/-! ## Bookmarks -/

def createBookmark : Attempt (Mark × LinkedTable) := do
  let limit := w.settings.bookmarkLimit
  if limit ≤ w.bookmarks.length ∨ w.nextMark = Table.lastMark then throw (.exhausted limit)
  let saved : SavedSlot := ⟨⟨w.nextMark⟩, w.cursor, ← w.rankOf w.cursor⟩
  let table := { w with bookmarks := w.bookmarks ++ [saved], nextMark := w.nextMark + 1 }
  return (saved.mark, table.note .bookmarked)

def freeBookmark (mark : Mark) : Attempt LinkedTable := do
  let b ← w.bookmark mark
  return { w with bookmarks := w.bookmarks.filter (·.mark ≠ b.mark) }

end LinkedTable

end LiveTable
