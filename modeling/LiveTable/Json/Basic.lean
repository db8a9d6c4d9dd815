/-!
# JSON values

A value as it is written, before it is known what it is meant to be: a number is
kept as its characters, so that no digit is lost, and a string whose escapes do
not spell characters is kept as such (`none`), because it does no harm where
nobody looks at it. Records are read by field name; a field may be given once
only, and fields without a meaning are passed over.
-/

namespace LiveTable

inductive Json where
  | null
  | bool (b : Bool)
  | number (text : List Char)
  | string (text : Option String)
  | array (items : List Json)
  | object (fields : List (Option String × Json))
  deriving Inhabited

namespace Json

def nat? (bound : Nat) : Json → Option Nat
  | number text =>
    let n := text.foldl (fun n c => 10 * n + (c.toNat - '0'.toNat)) 0
    if text.all Char.isDigit ∧ n < bound then some n else none
  | _ => none

def bool? : Json → Option Bool
  | bool b => some b
  | _ => none

def word32? (j : Json) : Option UInt32 := (j.nat? 0x100000000).map UInt32.ofNat

def field? (fields : List (String × Json)) (name : String) : Option (Option Json) :=
  match fields.filter (·.1 = name) with
  | [] => some none
  | [(_, j)] => some (some j)
  | _ => none

/-- The values of the named fields in the order of the names, whether they are given by name or as
a list that may end early. -/
def record? (names : List String) : Json → Option (List (Option Json))
  | object fields => do
    let fields ← fields.mapM fun (name, j) => name.map (·, j)
    names.mapM (field? fields)
  | array items =>
    if items.length ≤ names.length then
      some (items.map some ++ List.replicate (names.length - items.length) none)
    else none
  | _ => none

end Json

end LiveTable
