import LiveTable.Table.Cursor

/-!
# Reading rows

A read lists the keys of rows from the cursor on, in either direction, with or
without the hidden rows, and leaves the cursor where it was or where the read
ended. A forward read from before the first row starts with the first row; a
backward read from past the end starts with the last visible row.
-/

namespace LiveTable

structure Reading where
  /-- The most rows to read. -/
  count : Nat
  backward : Bool := false
  /-- Whether hidden rows are listed as well. -/
  hidden : Bool := false
  /-- Whether the cursor is to go on to where the read ends. -/
  advance : Bool := false
  deriving DecidableEq

namespace Table

def readStart (t : Table) (backward : Bool) : Position :=
  match backward, t.cursor with
  | true, .pastEnd => t.before .pastEnd
  | false, .beforeFirst => if t.tree = .nil then .beforeFirst else t.after .beforeFirst
  | _, position => position

/-- Lists keys from the cursor on. -/
def read (t : Table) (r : Reading) : List Key × Table :=
  let start := t.readStart r.backward
  let side := if r.backward then .left else .right
  let most := min r.count (if r.hidden then t.size else t.visible)
  let (rows, stop) := gather side (fun e => r.hidden || e.isVisible) most (t.at? start)
  let finish :=
    match start with
    | .row _ => if r.backward then .orStart stop else .orEnd stop
    | position => position
  (rows.map (·.key), if r.advance then { t with cursor := finish } else t)

def visibleBefore (t : Table) (key : Key) : Except Fault (Option Key) := do
  let f ← t.lookup key
  return (span .left (·.hidden) (f.step .left)).2.map (·.key)

/-! ## Whole tables and pages -/

/-- Steps back until the cursor is before the first row, at most `steps` times. -/
def stepBack : Nat → Table → Table
  | 0, t => t
  | steps + 1, t => if t.cursor = .beforeFirst then t else stepBack steps t.prev

/-- Moves the cursor before the first row, hidden rows included. It seeks the first visible row
and steps back over the hidden ones before it. -/
def rewind (t : Table) : Table :=
  match t.seek .start 0 with
  | .ok (_, t) => stepBack t.size t
  | .error _ => t

/-- The keys of all rows in table order; the cursor is left before the first row. -/
def allRows (t : Table) (hidden : Bool) : List Key × Table :=
  let t := t.rewind
  t.read { count := t.size, hidden := hidden }

/-- The keys of `count` visible rows from a rank on; the cursor is left on that rank. -/
def page (t : Table) (start count : Nat) : List Key × Table :=
  match t.seek .start start with
  | .ok (_, t) => t.read { count := count }
  | .error _ => ([], t)

end Table

end LiveTable
