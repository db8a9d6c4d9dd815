import LiveTable.Settings.Basic
import LiveTable.Store
import LiveTable.Tally
import LiveTable.Tree.Edit
import LiveTable.Tree.Rank
import LiveTable.Tree.Span

/-!
# Tables

A table keeps its rows twice: in a tree, which has the order and the visibility,
and in a store, which has the rows by key. Beside them it has a cursor, which is
before the first row, on a row or past the end, and bookmarks, each of which
saves a position together with the rank it had. Rows, cursor and bookmarks are
what callers see; `entries` is the list of rows in table order, hidden rows
included.
-/

namespace LiveTable

inductive Position where
  | beforeFirst
  | row (key : Key)
  | pastEnd
  deriving DecidableEq, Inhabited

namespace Position

/-- On the row that a forward walk came to. -/
def orEnd : Option Focus → Position
  | none => pastEnd
  | some f => row f.key

/-- On the row that a backward walk came to. -/
def orStart : Option Focus → Position
  | none => beforeFirst
  | some f => row f.key

end Position

structure Bookmark where
  mark : Mark
  position : Position
  /-- The rank of the position when the bookmark was made. -/
  rank : Nat
  deriving DecidableEq

structure Table where
  settings : Settings
  collation : Collation
  tree : Tree
  store : Store
  /-- How many times a row was brought to its place. -/
  arrivals : Nat
  cursor : Position
  bookmarks : List Bookmark
  /-- The number of the next bookmark. -/
  nextMark : UInt32
  tally : Tally

namespace Table

def empty (settings : Settings) (collation : Collation) : Table where
  settings := settings
  collation := collation
  tree := .nil
  store := .empty
  arrivals := 0
  cursor := .beforeFirst
  bookmarks := []
  nextMark := settings.firstMark
  tally := .zero settings.collectTally

/-- A table without rows, if its settings are valid. -/
def create (settings : Settings) (collation : Collation) : Except Fault Table := do
  settings.validate
  return empty settings collation

instance : Inhabited Table := ⟨empty {} .bytewise⟩

/-! ## Rows -/

def entries (t : Table) : List Entry := t.tree.toList

/-- How many rows there are, hidden ones included. -/
def size (t : Table) : Nat := t.store.size

def isEmpty (t : Table) : Bool := t.size = 0

def visible (t : Table) : Nat := t.tree.visible

def contains (t : Table) (key : Key) : Bool := t.store.contains key

def compare (t : Table) : SortKey → SortKey → Ordering := SortKey.compare t.collation

/-- The row with a key, in its place. -/
def focus? (t : Table) (key : Key) : Option Focus :=
  (t.store.find? key).bind (t.tree.locate t.collation)

def lookup (t : Table) (key : Key) : Except Fault Focus :=
  match t.focus? key with
  | some f => .ok f
  | none => .error (.notFound key)

def get (t : Table) (key : Key) : Except Fault Snapshot :=
  (t.lookup key).map (·.entry.snapshot)

/-! ## Positions -/

def at? (t : Table) : Position → Option Focus
  | .row key => t.focus? key
  | _ => none

/-- The number of visible rows before a position. -/
def rankOf (t : Table) : Position → Nat
  | .beforeFirst => 0
  | .row key => ((t.focus? key).map Focus.rank).getD 0
  | .pastEnd => t.visible

def currentRank (t : Table) : Nat := t.rankOf t.cursor

/-- The position of the visible row with a rank; past the end if there is none. -/
def select (t : Table) (rank : Nat) : Position := .orEnd (t.tree.select rank [])

def note (t : Table) (e : Tally.Event) : Table := { t with tally := t.tally.note e }

def debug (t : Table) : String :=
  "KeyTable \x7b rows: " ++ t.size.repr ++ ", visible: " ++ t.visible.repr ++ ", bookmarks: " ++
    t.bookmarks.length.repr ++ " \x7d"

theorem focus?_some {t : Table} {key : Key} {f : Focus} (h : t.focus? key = some f) :
    f.plug = t.tree := by
  obtain ⟨r, -, hl⟩ := Option.bind_eq_some_iff.1 h
  exact (Tree.locate_some hl).2

end Table

end LiveTable
