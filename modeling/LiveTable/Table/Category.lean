import LiveTable.Table.Basic

/-!
# Categories

A row heads a category: the rows directly after it whose sort keys begin with its
own. Collapsing a category hides its members and expanding it shows those of one
level again, the ones with as many columns as the first member. A cursor on a
member that is hidden goes to the first visible row after the category.
-/

namespace LiveTable.Table

/-- Whether a row has the sort key of a header as a prefix of its own. -/
def isUnder (t : Table) (header : SortKey) (e : Entry) : Bool :=
  SortKey.comparePrefix t.collation header.length header e.columns = .eq

/-- The members of the category under a row, and the row after them. -/
def members (t : Table) (f : Focus) : List Entry × Option Focus :=
  span .right (t.isUnder f.entry.columns) (f.step .right)

def collapse (t : Table) (key : Key) : Except Fault (List Key × Table) := do
  let f ← t.lookup key
  let (members, rest) := t.members f
  let keys := members.map (·.key)
  let cursor :=
    match t.cursor with
    | .row k => if k ∈ keys then .orEnd (span .right (·.hidden) rest).2 else .row k
    | position => position
  let table := { t with
    tree := f.mapWhile (t.isUnder f.entry.columns) Entry.hide
    cursor := cursor }
  return (keys, table.note (.hidden keys.length))

/-- Shows a row with as many columns as the first member of its category. -/
def reveal (width : Nat) (e : Entry) : Entry :=
  if e.columns.length = width then e.unhide else e

/-- Shows the members of a category that have as many columns as the first one. The header must
be visible itself. -/
def expand (t : Table) (key : Key) : Except Fault (List Key × Table) := do
  let f ← t.lookup key
  if f.entry.hidden then .error (.notFound key)
  let (members, _) := t.members f
  let width := (members.head?.map (·.columns.length)).getD 0
  let keys := (members.filter (·.columns.length = width)).map (·.key)
  let table := { t with tree := f.mapWhile (t.isUnder f.entry.columns) (reveal width) }
  return (keys, table.note (.unhidden keys.length))

def family (t : Table) (key : Key) : Except Fault (List Key) := do
  let f ← t.lookup key
  return (span .right (t.isUnder f.entry.columns) (some f)).1.map (·.key)

end LiveTable.Table
