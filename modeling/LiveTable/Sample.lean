import LiveTable.Random.Draw
import LiveTable.Table.Edit

/-!
# Sample rows

Rows to fill tables with: categories with their members, messages with a random
subject and a date that sorts downwards, numbered rows, and rows of text columns.
The rows of a sample have the keys `1:0`, `2:0` and so on.
-/

namespace LiveTable.Sample

open LiveTable.Random

def key (n : Nat) : Key := ⟨UInt32.ofNat n, 0⟩

/-- Gives each sort key the key of its place. -/
def numbered (rows : List SortKey) : List (Key × SortKey) :=
  rows.mapIdx fun i columns => (key (i + 1), columns)

def texts (parts : List String) : SortKey := parts.map Column.text

/-- A number in at least four digits. -/
def fourDigits (n : Nat) : String :=
  let digits := Nat.toDigits 10 n
  String.ofList (List.replicate (4 - digits.length) '0' ++ digits)

def category (number members : Nat) : List SortKey :=
  let header := "cat" ++ fourDigits number
  texts [header] :: (List.range members).map fun m => texts [header, "m" ++ fourDigits m]

def categories (count members : Nat) : List (Key × SortKey) :=
  numbered ((List.range count).flatMap (category · members))

def messageSeed : UInt64 := 42

/-- A random subject, and a date that sorts downwards. -/
def message : Draw SortKey := do
  let subject ← Draw.text 12
  let date ← Draw.within .double 1600000000 1699999999
  return [.text subject, (Column.unsigned (UInt64.ofNat date)).down]

def messages (count : Nat) : List (Key × SortKey) :=
  numbered (Draw.times count message (.ofSeed messageSeed)).1

def sequence (count : Nat) : List (Key × SortKey) :=
  numbered ((List.range count).map fun n => [.unsigned (UInt64.ofNat (n + 1))])

/-- Puts visible rows in order; a row that is refused is passed over. -/
def fill (t : Table) (rows : List (Key × SortKey)) : Table :=
  rows.foldl (fun t (key, columns) =>
    match t.put key columns false with
    | .ok (_, t) => t
    | .error _ => t) t

/-- Puts visible rows in order up to the first one that is refused. -/
def putAll (t : Table) : List (Key × SortKey) → Except Fault Unit × Table
  | [] => (.ok (), t)
  | (key, columns) :: rows =>
    match t.put key columns false with
    | .ok (_, t) => putAll t rows
    | .error fault => (.error fault, t)

def build (rows : List (Key × SortKey)) : Table := fill (.empty {} .bytewise) rows

theorem length_numbered (rows : List SortKey) : (numbered rows).length = rows.length := by
  simp [numbered]

end LiveTable.Sample
