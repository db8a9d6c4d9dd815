import LiveTable.Table.Command

/-!
# Commands carried out in place

A table that callers share is written to in place, one part after another. Here every command is a
procedure that makes its checks and its writes in the order in which they are made on such a table.
A procedure that fails leaves whatever it has written so far; nothing takes it back.
-/

namespace LiveTable

/-- A call on a table in place. A fault keeps what was written before it. -/
abbrev Procedure := ExceptT Fault (StateM Table)

namespace Procedure

/-- The answer of a procedure, and the table as it is left. -/
def on {α : Type} (p : Procedure α) (t : Table) : Except Fault α × Table := StateT.run p.run t

def ask {α : Type} (question : Table → Except Fault α) : Procedure α := do
  MonadExcept.ofExcept (question (← get))

def note (e : Tally.Event) : Procedure Unit := modify (·.note e)

/-! ## Rows -/

def put (key : Key) (columns : SortKey) (hidden : Bool) : Procedure Placement := do
  if key = .reserved then throw (.reservedKey key)
  let t ← get
  match t.focus? key with
  | none =>
    let predecessor ← modifyGet (·.attach key columns hidden)
    note .added
    return ⟨.added, predecessor⟩
  | some f =>
    if t.alike f.entry.columns columns then
      note .unchanged
      return ⟨.modified, (f.step .left).map (·.key)⟩
    -- the row is out of the table for a while, and a cursor on it has to come back to it
    modify (·.detach f)
    let predecessor ← modifyGet (·.attach key columns hidden)
    if t.cursor = .row f.key then modify ({ · with cursor := .row key })
    note .modified
    return ⟨.modified, predecessor⟩

def erase (key : Key) : Procedure Unit := do
  let f ← ask (·.lookup key)
  modify (·.detach f)
  note .deleted

def setColumn (key : Key) (index : Nat) (column : Column) : Procedure Recolumned := do
  let f ← ask (·.lookup key)
  let columns := f.entry.columns
  if columns.length ≤ index then throw (.columnOutOfRange index key columns.length)
  let placement ← put key (columns.set index column) f.entry.hidden
  return ⟨placement, f.entry.hidden⟩

/-! ## Cursor and bookmarks -/

def seek (origin : Origin) (offset : Int) : Procedure Travel := do
  let start ← ask (·.origin origin)
  let total := (← get).visible
  let target := min (start.rank + offset).toNat total
  modify fun t => { t with cursor := if total = 0 then .beforeFirst else t.select target }
  note .sought
  return ⟨target - start.rank, start.drifted⟩

def goTo (key : Key) : Procedure Unit := do
  let f ← ask (·.lookup key)
  modify ({ · with cursor := .row f.key })

/-- The next number is taken before the bookmark is saved under it. -/
def createBookmark : Procedure Mark := do
  let t ← get
  let limit := t.settings.bookmarkLimit
  if limit ≤ t.bookmarks.length then throw (.exhausted limit)
  let mark : Mark := ⟨t.nextMark⟩
  if t.nextMark = Table.lastMark then throw (.exhausted limit)
  modify ({ · with nextMark := t.nextMark + 1 })
  modify fun t => { t with bookmarks := t.bookmarks ++ [⟨mark, t.cursor, t.currentRank⟩] }
  note .bookmarked
  return mark

/-- Whether there was such a bookmark is only known once it was removed. -/
def freeBookmark (mark : Mark) : Procedure Unit := do
  let t ← get
  modify fun t => { t with bookmarks := t.bookmarks.filter (·.mark ≠ mark) }
  if (t.bookmarks.find? (·.mark = mark)).isNone then throw (.invalidBookmark mark)

/-! ## Categories -/

def collapse (key : Key) : Procedure (List Key) := do
  let f ← ask (·.lookup key)
  let (members, rest) := (← get).members f
  let keys := members.map (·.key)
  modify fun t => { t with tree := f.mapWhile (t.isUnder f.entry.columns) Entry.hide }
  modify fun t => { t with
    cursor := match t.cursor with
      | .row k => if k ∈ keys then .orEnd (span .right (·.hidden) rest).2 else .row k
      | position => position }
  note (.hidden keys.length)
  return keys

def expand (key : Key) : Procedure (List Key) := do
  let f ← ask (·.lookup key)
  if f.entry.hidden then throw (.notFound key)
  let (members, _) := (← get).members f
  let width := (members.head?.map (·.columns.length)).getD 0
  let keys := (members.filter (·.columns.length = width)).map (·.key)
  modify fun t => { t with
    tree := f.mapWhile (t.isUnder f.entry.columns) (Table.reveal width) }
  note (.unhidden keys.length)
  return keys

/-! ## Commands -/

def ofCommand : Command → Procedure Reply
  | .put key columns hidden => return .placed (← put key columns hidden)
  | .erase key => do
    erase key
    return .done
  | .setColumn key index column => return .recolumned (← setColumn key index column)
  | .clear => do
    modify Table.clear
    return .done
  | .next => do
    modify Table.next
    return .done
  | .prev => do
    modify Table.prev
    return .done
  | .seek origin offset => return .travelled (← seek origin offset)
  | .goTo key => do
    goTo key
    return .done
  | .lowerBound probe => do
    modify (·.lowerBound probe)
    return .done
  | .find probe => return .key ((← get).find? probe)
  | .read reading => return .keys (← modifyGet (·.read reading))
  | .visibleBefore key => return .key (← ask (·.visibleBefore key))
  | .createBookmark => return .mark (← createBookmark)
  | .resolve mark => return .standing (← ask (·.resolve mark))
  | .freeBookmark mark => do
    freeBookmark mark
    return .done
  | .collapse key => return .keys (← collapse key)
  | .expand key => return .keys (← expand key)
  | .family key => return .keys (← ask (·.family key))
  | .get key => return .row (← ask (·.get key))
  | .contains key => return .truth ((← get).contains key)
  | .isEmpty => return .truth (← get).isEmpty
  | .rowCount => do
    let t ← get
    return .count t.visible t.currentRank
  | .verify => do
    ask Table.verify
    return .done

/-- The table after a list of commands that are carried out in place, the failed ones included. -/
def runAll (t : Table) (commands : List Command) : Table :=
  commands.foldl (fun t c => ((ofCommand c).on t).2) t

end Procedure

end LiveTable
