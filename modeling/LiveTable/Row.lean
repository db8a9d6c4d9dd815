import LiveTable.Column.Order
import LiveTable.Key

/-!
# Rows

A `Row` is what is fixed while a row stays at its place: its key, its sort key
and its arrival, which numbers the insertions of a table in order, so that of two
rows with equal sort keys the one that arrived earlier stands first. An `Entry`
is a row as it is listed, with its visibility. A `Snapshot` is what callers see.
-/

namespace LiveTable

structure Row where
  key : Key
  columns : SortKey
  arrival : Nat
  deriving DecidableEq, Inhabited

structure Entry extends Row where
  hidden : Bool
  deriving DecidableEq, Inhabited

/-- A row without its arrival. -/
structure Snapshot where
  key : Key
  columns : SortKey
  hidden : Bool
  deriving DecidableEq, Inhabited

namespace Row

/-- The row that stands for no row; it bears the reserved key. -/
def ground : Row := ⟨Key.reserved, [], 0⟩

def columnBytes (r : Row) : Nat := r.columns.foldl (· + ·.bytes.length) 0

end Row

namespace Entry

def snapshot (e : Entry) : Snapshot := ⟨e.key, e.columns, e.hidden⟩

def isVisible (e : Entry) : Bool := !e.hidden

/-- One for a visible row and nothing for a hidden one. -/
def weight (e : Entry) : Nat := if e.hidden then 0 else 1

def hide (e : Entry) : Entry := { e with hidden := true }

def unhide (e : Entry) : Entry := { e with hidden := false }

@[simp] theorem hide_toRow (e : Entry) : e.hide.toRow = e.toRow := rfl

end Entry

def visibleCount (rows : List Entry) : Nat := rows.countP Entry.isVisible

theorem visibleCount_append (xs ys : List Entry) :
    visibleCount (xs ++ ys) = visibleCount xs + visibleCount ys := List.countP_append

theorem visibleCount_cons (e : Entry) (rows : List Entry) :
    visibleCount (e :: rows) = e.weight + visibleCount rows := by
  cases h : e.hidden <;> simp [visibleCount, Entry.weight, Entry.isVisible, h, Nat.add_comm]

theorem hidden_of_visibleCount {rows : List Entry} (h : visibleCount rows = 0) {e : Entry}
    (he : e ∈ rows) : e.hidden = true := by
  simpa [Entry.isVisible] using List.countP_eq_zero.1 h e he

end LiveTable
