import LiveTable.Bisect
import LiveTable.Row

/-!
# Plain tables

A plain table is a list of rows in order, under the bytewise collation, without
cursor and bookmarks. A row that is put goes behind all rows that do not come
after it. It is what a table of rows is meant to be, with nothing done to be fast.
-/

namespace LiveTable

structure PlainTable where
  rows : List Snapshot := []
  deriving DecidableEq, Inhabited

namespace PlainTable

def compare : SortKey → SortKey → Ordering := SortKey.compare .bytewise

def position? (t : PlainTable) (key : Key) : Option Nat := t.rows.findIdx? (·.key = key)

def get? (t : PlainTable) (key : Key) : Option Snapshot := t.rows.find? (·.key = key)

def attach (t : PlainTable) (r : Snapshot) : PlainTable :=
  let place := bisect (fun s => !(compare s.columns r.columns).isGT) t.rows
  ⟨t.rows.take place ++ r :: t.rows.drop place⟩

def detach (t : PlainTable) (key : Key) : PlainTable := ⟨t.rows.eraseP (·.key = key)⟩

/-- Inserts a row, or brings it to the place of its new sort key unless that is equal to the old
one either way. -/
def put (t : PlainTable) (key : Key) (columns : SortKey) (hidden : Bool) : PlainTable :=
  match t.get? key with
  | none => t.attach ⟨key, columns, hidden⟩
  | some r =>
    if compare r.columns columns = .eq && compare columns r.columns = .eq then t
    else (t.detach key).attach ⟨key, columns, hidden⟩

def erase (t : PlainTable) (key : Key) : Bool × PlainTable :=
  match t.get? key with
  | none => (false, t)
  | some _ => (true, t.detach key)

/-- The rows up to and including the one with a key, that row, and the rows after it. -/
def split? (t : PlainTable) (key : Key) : Option (List Snapshot × Snapshot × List Snapshot) :=
  match t.rows.span (·.key ≠ key) with
  | (_, []) => none
  | (before, r :: after) => some (before ++ [r], r, after)

/-- Whether a row has the sort key of a header as a prefix of its own. -/
def isUnder (header : SortKey) (r : Snapshot) : Bool :=
  SortKey.comparePrefix .bytewise header.length header r.columns = .eq

/-- Hides the rows directly after a row whose sort keys begin with its own. -/
def collapse (t : PlainTable) (key : Key) : Option (List Key × PlainTable) := do
  let (upTo, header, after) ← t.split? key
  let (members, rest) := after.span (isUnder header.columns)
  return (members.map (·.key), ⟨upTo ++ members.map ({ · with hidden := true }) ++ rest⟩)

/-- Shows those of these rows that have as many columns as the first. -/
def expand (t : PlainTable) (key : Key) : Option (List Key × PlainTable) := do
  let (upTo, header, after) ← t.split? key
  if header.hidden then none
  let (members, rest) := after.span (isUnder header.columns)
  let width := (members.head?.map (·.columns.length)).getD 0
  let isMeant := fun r : Snapshot => r.columns.length = width
  let shown := members.map fun r => if isMeant r then { r with hidden := false } else r
  return ((members.filter isMeant).map (·.key), ⟨upTo ++ shown ++ rest⟩)

def keys (t : PlainTable) (hidden : Bool) : List Key :=
  (t.rows.filter fun r => hidden || !r.hidden).map (·.key)

def visible (t : PlainTable) : Nat := t.rows.countP (!·.hidden)

def size (t : PlainTable) : Nat := t.rows.length

/-- The row directly before a row, hidden or not. -/
def predecessor? (t : PlainTable) (key : Key) : Option Key := do
  let place ← t.position? key
  if place = 0 then none
  else t.rows[place - 1]?.map (·.key)

end PlainTable

end LiveTable
