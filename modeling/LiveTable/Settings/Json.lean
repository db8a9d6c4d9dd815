import LiveTable.Json.Parser
import LiveTable.Settings.Basic

/-!
# Settings and names in JSON

Settings are written as an object of four fields. They are read from such an
object or from an array of the values in the same order, and a field that is not
given has its usual value. A key is read likewise, but both of its fields are
needed; a bookmark number is a bare number.
-/

namespace LiveTable

namespace Settings

def fieldNames : List String :=
  ["bookmark_limit", "first_bookmark_id", "initial_capacity", "collect_stats"]

def json (s : Settings) : String :=
  let values := [s.bookmarkLimit.repr, s.firstMark.toNat.repr, s.initialCapacity.repr,
    if s.collectTally then "true" else "false"]
  "\x7b" ++ ",".intercalate (fieldNames.zipWith (fun name v => "\"" ++ name ++ "\":" ++ v) values)
    ++ "\x7d"

/-- A value that was given, or else the usual one. -/
def given {α : Type} (usual : α) (read : Json → Option α) : Option Json → Option α
  | none => some usual
  | some j => read j

def ofJson? (j : Json) : Option Settings := do
  let usual : Settings := {}
  match ← j.record? fieldNames with
  | [limit, first, capacity, collect] =>
    return {
      bookmarkLimit := ← given usual.bookmarkLimit (·.nat? 0x10000000000000000) limit
      firstMark := ← given usual.firstMark (·.word32?) first
      initialCapacity := ← given usual.initialCapacity (·.nat? 0x10000000000000000) capacity
      collectTally := ← given usual.collectTally (·.bool?) collect }
  | _ => none

end Settings

def Key.ofJson? (j : Json) : Option Key := do
  match ← j.record? ["object_id", "order_id"] with
  | [some object, some ordinal] => return ⟨← object.word32?, ← ordinal.word32?⟩
  | _ => none

def Mark.ofJson? (j : Json) : Option Mark := j.word32?.map Mark.mk

end LiveTable
