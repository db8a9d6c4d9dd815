import LiveTable.Table.Basic

/-!
# The cursor

The cursor moves from row to row, hidden rows included, or by rank, which never
leads to a hidden row. A seek starts from an origin and goes a number of ranks
forward or back, as far as there are visible rows; past the last of them it ends
past the end. Backward from past the end the cursor comes to the last visible
row.
-/

namespace LiveTable

inductive Origin where
  | start
  | current
  | finish
  | bookmark (mark : Mark)
  deriving DecidableEq, Inhabited

def Origin.ofNumber (n : UInt32) : Origin :=
  if n = 0 then .start
  else if n = 1 then .current
  else if n = 2 then .finish
  else .bookmark ⟨n⟩

theorem Origin.ofNumber_of_not_isReserved {m : Mark} (h : m.isReserved = false) :
    Origin.ofNumber m.number = .bookmark m := by
  have h3 : ¬ m.number.toNat < 3 := fun hlt => by
    rw [(Mark.isReserved_iff m).2 hlt] at h
    cases h
  have hne (k : UInt32) (hk : k.toNat < 3) : m.number ≠ k := fun he => h3 (he ▸ hk)
  simp [ofNumber, hne 0 (by decide), hne 1 (by decide), hne 2 (by decide)]

/-- A rank, and whether it differs from the rank that a bookmark had when it was made. -/
structure Standing where
  rank : Nat
  drifted : Bool
  deriving DecidableEq

structure Travel where
  /-- How many ranks forward of the origin the seek ended. -/
  moved : Int
  /-- Whether the origin was a bookmark that had drifted. -/
  drifted : Bool
  deriving DecidableEq

def driftWarning (drifted : Bool) : Option String :=
  if drifted then some "position changed" else none

namespace Table

/-! ## Row by row -/

/-- The position after another; past the end there is no further one. -/
def after (t : Table) : Position → Position
  | .beforeFirst => .orEnd (t.tree.outermost .left [])
  | .row key =>
    match t.focus? key with
    | some f => .orEnd (f.step .right)
    | none => .row key
  | .pastEnd => .pastEnd

/-- The position before another; past the end comes right after the last visible row. -/
def before (t : Table) : Position → Position
  | .beforeFirst => .beforeFirst
  | .row key =>
    match t.focus? key with
    | some f => .orStart (f.step .left)
    | none => .row key
  | .pastEnd => if t.visible = 0 then .beforeFirst else t.select (t.visible - 1)

def next (t : Table) : Table := { t with cursor := t.after t.cursor }

def prev (t : Table) : Table := { t with cursor := t.before t.cursor }

/-- Puts the cursor on a row, hidden or not. -/
def goTo (t : Table) (key : Key) : Except Fault Table := do
  let f ← t.lookup key
  return { t with cursor := .row f.key }

/-! ## By rank -/

def bookmark (t : Table) (mark : Mark) : Except Fault Bookmark :=
  match t.bookmarks.find? (·.mark = mark) with
  | some b => .ok b
  | none => .error (.invalidBookmark mark)

def resolve (t : Table) (mark : Mark) : Except Fault Standing := do
  let b ← t.bookmark mark
  let rank := t.rankOf b.position
  return ⟨rank, rank ≠ b.rank⟩

def origin (t : Table) : Origin → Except Fault Standing
  | .start => .ok ⟨0, false⟩
  | .current => .ok ⟨t.currentRank, false⟩
  | .finish => .ok ⟨t.visible, false⟩
  | .bookmark mark => t.resolve mark

/-- Moves the cursor to a rank relative to an origin. -/
def seek (t : Table) (origin : Origin) (offset : Int) : Except Fault (Travel × Table) := do
  let start ← t.origin origin
  let target := min (start.rank + offset).toNat t.visible
  let cursor := if t.visible = 0 then .beforeFirst else t.select target
  return (⟨target - start.rank, start.drifted⟩, { t with cursor := cursor }.note .sought)

/-! ## By sort key -/

/-- The first row that does not come before a probe. -/
def bound (t : Table) (probe : SortKey) : Option Focus :=
  ascend .right (t.tree.gap (fun e => !(t.compare e.columns probe).isLT) []) .nil

/-- Moves the cursor to the first row that does not come before a probe, or past the end. -/
def lowerBound (t : Table) (probe : SortKey) : Table := { t with cursor := .orEnd (t.bound probe) }

/-- The first row whose sort key is equal to a probe. -/
def find? (t : Table) (probe : SortKey) : Option Key :=
  ((t.bound probe).filter fun f => !(t.compare probe f.entry.columns).isLT).map (·.key)

end Table

end LiveTable
