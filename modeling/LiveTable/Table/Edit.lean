import LiveTable.Table.Basic

/-!
# Rows come, move and go

`put` brings a row to its place. A new row goes behind every row that it does not
come before on its way down, so that a row stands after those that are equal to
it. A row that is there already is brought to a new place only if its new sort
key is not equal to its old one, compared either way; otherwise nothing changes,
not even the columns. The cursor stays on a row that moves, and bookmarks on it
are dropped, as they are when a row is erased; the cursor on an erased row goes
to the row after it.
-/

namespace LiveTable

inductive Outcome where
  | added
  | modified
  deriving DecidableEq, Inhabited

def Outcome.name : Outcome → String
  | .added => "Added"
  | .modified => "Modified"

structure Placement where
  outcome : Outcome
  /-- The row directly before, hidden rows included. -/
  predecessor : Option Key
  deriving DecidableEq

structure Recolumned extends Placement where
  hidden : Bool
  deriving DecidableEq

namespace Table

def predecessor (t : Table) (key : Key) : Option Key :=
  ((t.focus? key).bind (·.step .left)).map (·.key)

/-- Brings a row that is not in the table to its place; the key is that of the row before it. -/
def attach (t : Table) (key : Key) (columns : SortKey) (hidden : Bool) : Option Key × Table :=
  let row : Row := ⟨key, columns, t.arrivals⟩
  let planted :=
    Tree.plant (t.tree.gap (fun e => (t.compare columns e.columns).isLT) []) ⟨row, hidden⟩
  let table := { t with
    tree := planted.tree
    store := t.store.insert row
    arrivals := t.arrivals + 1 }
  (table.predecessor key, table.note (.rotated planted.rotations))

/-- Takes out a row, with the bookmarks on it; a cursor on it goes to the row after it. -/
def detach (t : Table) (f : Focus) : Table :=
  let removed := f.remove
  let table := { t with
    tree := removed.tree
    store := t.store.erase f.key
    cursor := if t.cursor = Position.row f.key then .orEnd (f.step .right) else t.cursor
    bookmarks := t.bookmarks.filter (·.position ≠ Position.row f.key) }
  table.note (.rotated removed.rotations)

/-- Whether two sort keys are equal, compared either way. -/
def alike (t : Table) (a b : SortKey) : Bool :=
  t.compare a b = .eq && t.compare b a = .eq

/-- Inserts a row, or brings it to the place of its new sort key. -/
def put (t : Table) (key : Key) (columns : SortKey) (hidden : Bool) :
    Except Fault (Placement × Table) :=
  if key = .reserved then .error (.reservedKey key)
  else
    match t.focus? key with
    | none =>
      let (predecessor, table) := t.attach key columns hidden
      .ok (⟨.added, predecessor⟩, table.note .added)
    | some f =>
      if t.alike f.entry.columns columns then
        .ok (⟨.modified, (f.step .left).map (·.key)⟩, t.note .unchanged)
      else
        let (predecessor, table) := (t.detach f).attach key columns hidden
        .ok (⟨.modified, predecessor⟩, { table with cursor := t.cursor }.note .modified)

def erase (t : Table) (key : Key) : Except Fault Table := do
  let f ← t.lookup key
  return (t.detach f).note .deleted

/-- Replaces one column of a row and brings the row to its new place. -/
def setColumn (t : Table) (key : Key) (index : Nat) (column : Column) :
    Except Fault (Recolumned × Table) := do
  let f ← t.lookup key
  let columns := f.entry.columns
  if columns.length ≤ index then .error (.columnOutOfRange index key columns.length)
  let (placement, table) ← t.put key (columns.set index column) f.entry.hidden
  return (⟨placement, f.entry.hidden⟩, table)

/-- Drops all rows and all bookmarks. -/
def clear (t : Table) : Table :=
  { t with tree := .nil, store := t.store.clear, cursor := .beforeFirst, bookmarks := [] }

end Table

end LiveTable
