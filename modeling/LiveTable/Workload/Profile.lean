import LiveTable.Random.Draw
import LiveTable.Workload.Action

/-!
# Random workloads

A profile says what the actions of a random workload are like: how many keys and
how many values there are, which share of the rows is put hidden, and how deep
categories are nested. Half of the actions put a row, a sixth of them delete one,
and a twelfth each seek, collapse, expand and read. Without nesting a sort key is
a letter and a number that sorts downwards; with nesting it is one letter for each
level.
-/

namespace LiveTable

open LiveTable.Random

structure Profile where
  keySpace : UInt32 := 1000
  valueSpace : UInt64 := 100
  /-- The chance of a hidden row in units of `2 ^ -64`. -/
  hiddenShare : Nat := 0
  nesting : Nat := 0
  deriving DecidableEq, Inhabited

namespace Profile

def withKeySpace (p : Profile) (n : UInt32) : Profile := { p with keySpace := max n 1 }

def withValueSpace (p : Profile) (n : UInt64) : Profile := { p with valueSpace := max n 1 }

/-- Another chance of a hidden row, from none to all. -/
def withHiddenRatio (p : Profile) (ratio : Binary64) : Profile :=
  { p with hiddenShare := ratio.share }

def withNesting (p : Profile) (depth : Nat) : Profile := { p with nesting := depth }

/-! ## Draws -/

variable {σ : Type} [Source σ]

def key (p : Profile) : StateM σ Key := do
  return ⟨UInt32.ofNat (← Source.within .single 1 p.keySpace.toNat), 0⟩

/-- A text column of one of the first letters of the alphabet, at most as many as there are
values. -/
def letter (p : Profile) (most : Nat) : StateM σ Column := do
  let n ← Source.within .double 0 (min p.valueSpace.toNat most - 1)
  return .text (String.singleton (Char.ofNat ('a'.toNat + n)))

def columns (p : Profile) : StateM σ SortKey := do
  if 0 < p.nesting then
    let depth ← Source.within .double 1 p.nesting
    Draw.times depth (p.letter 3)
  else
    let group ← p.letter 26
    let value ← Source.within .double 0 (p.valueSpace.toNat - 1)
    return [group, (Column.unsigned (UInt64.ofNat value)).down]

def action (p : Profile) : StateM σ Action := do
  let choice ← Source.within .single 0 11
  if choice < 6 then
    let key ← p.key
    let columns ← p.columns
    let hidden ← Source.chance p.hiddenShare
    return .put key columns hidden
  else if choice < 8 then return .erase (← p.key)
  else if choice = 8 then return .seek ((← Source.within .double 0 100 : Nat) - 50)
  else if choice = 9 then return .collapse (← p.key)
  else if choice = 10 then return .expand (← p.key)
  else return .read (← Source.within .double 1 20)

def actions (p : Profile) (count : Nat) : StateM σ (List Action) := Draw.times count p.action

/-- Rows with the keys `1:0`, `2:0`, … and random sort keys. -/
def rows (p : Profile) (count : Nat) : StateM σ (List (Key × SortKey)) :=
  (List.range count).mapM fun n => do return (⟨UInt32.ofNat (n + 1), 0⟩, ← p.columns)

end Profile

end LiveTable
