import LiveTable.PlainTable
import LiveTable.Table.Category
import LiveTable.Table.Edit
import LiveTable.Table.Read

/-!
# Actions of a workload

A workload is a list of actions. Each acts on a table and on a plain table; on a
table that has no row to delete, collapse or expand it does nothing, and the
actions that only move the cursor do nothing to a plain table.
-/

namespace LiveTable

inductive Action where
  | put (key : Key) (columns : SortKey) (hidden : Bool)
  | erase (key : Key)
  | seek (offset : Int)
  | read (count : Nat)
  | collapse (key : Key)
  | expand (key : Key)
  deriving DecidableEq

namespace Action

/-- The table that a call leaves behind; a missing row leaves it as it was. -/
def orMissing (t : Table) : Except Fault Table → Except Fault Table
  | .error (.notFound _) => .ok t
  | result => result

def onTable (t : Table) : Action → Except Fault Table
  | .put key columns hidden => (t.put key columns hidden).map (·.2)
  | .erase key => orMissing t (t.erase key)
  | .seek offset => (t.seek .current offset).map (·.2)
  | .read count => .ok (t.read { count := count, advance := true }).2
  | .collapse key => orMissing t ((t.collapse key).map (·.2))
  | .expand key => orMissing t ((t.expand key).map (·.2))

def onPlain (t : PlainTable) : Action → PlainTable
  | .put key columns hidden => t.put key columns hidden
  | .erase key => (t.erase key).2
  | .seek _ => t
  | .read _ => t
  | .collapse key => ((t.collapse key).map (·.2)).getD t
  | .expand key => ((t.expand key).map (·.2)).getD t

end Action

/-- A table and a plain table that are to have the same rows. -/
structure Pair where
  table : Table
  plain : PlainTable

namespace Pair

def empty : Pair := ⟨.empty {} .bytewise, {}⟩

/-- Acts on both; also tells whether the table refused. A table that refuses stays as it was. -/
def act (p : Pair) (a : Action) : Except Fault Unit × Pair :=
  match a.onTable p.table with
  | .ok table => (.ok (), ⟨table, a.onPlain p.plain⟩)
  | .error fault => (.error fault, ⟨p.table, a.onPlain p.plain⟩)

end Pair

end LiveTable
