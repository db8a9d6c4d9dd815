import LiveTable.Key
import LiveTable.Text.Quoted

/-!
# Faults

Every call of a table either succeeds or reports one fault and changes nothing.
A fault has a code; codes are numbered in blocks of 256, one block for each
category.
-/

namespace LiveTable

inductive Fault where
  | notFound (key : Key)
  | invalidParameter (message : String)
  | invalidBookmark (mark : Mark)
  | exhausted (limit : Nat)
  | outOfMemory
  | corrupted (reason : String)
  | invalidSettings (message : String)
  deriving DecidableEq

namespace Fault

inductive Code where
  | invalidParameter
  | invalidSettings
  | notFound
  | invalidBookmark
  | exhausted
  | outOfMemory
  | corrupted
  deriving DecidableEq

/-- What a block of codes is about. -/
inductive Category where
  | general
  | lookup
  | resource
  | integrity
  deriving DecidableEq

namespace Category

def ofNumber (n : Nat) : Category :=
  match n / 256 with
  | 0 => general
  | 1 => lookup
  | 2 => resource
  | _ => integrity

def name : Category → String
  | general => "General"
  | lookup => "Lookup"
  | resource => "Resource"
  | integrity => "Integrity"

end Category

namespace Code

def name : Code → String
  | invalidParameter => "InvalidParameter"
  | invalidSettings => "InvalidConfig"
  | notFound => "NotFound"
  | invalidBookmark => "InvalidBookmark"
  | exhausted => "ResourceExhausted"
  | outOfMemory => "OutOfMemory"
  | corrupted => "Corrupted"

def number : Code → Nat
  | invalidParameter => 1
  | invalidSettings => 2
  | notFound => 256
  | invalidBookmark => 257
  | exhausted => 512
  | outOfMemory => 513
  | corrupted => 768

def category (c : Code) : Category := .ofNumber c.number

end Code

def code : Fault → Code
  | notFound _ => .notFound
  | invalidParameter _ => .invalidParameter
  | invalidBookmark _ => .invalidBookmark
  | exhausted _ => .exhausted
  | outOfMemory => .outOfMemory
  | corrupted _ => .corrupted
  | invalidSettings _ => .invalidSettings

def message : Fault → String
  | notFound key => "row " ++ key.text ++ " not found"
  | invalidParameter m => "invalid parameter: " ++ m
  | invalidBookmark mark => "invalid bookmark " ++ mark.text
  | exhausted limit => "resource exhausted: limit of " ++ limit.repr ++ " reached"
  | outOfMemory => "out of memory"
  | corrupted reason => "table corrupted: " ++ reason
  | invalidSettings m => "invalid configuration: " ++ m

def details : Fault → Option (String × String)
  | notFound key => some ("key", key.debug)
  | invalidParameter m => some ("message", Text.quoted m)
  | invalidBookmark mark => some ("id", mark.debug)
  | exhausted limit => some ("limit", limit.repr)
  | outOfMemory => none
  | corrupted reason => some ("reason", Text.quoted reason)
  | invalidSettings m => some ("message", Text.quoted m)

def debug (f : Fault) : String :=
  match f.details with
  | none => f.code.name
  | some (field, value) => f.code.name ++ " \x7b " ++ field ++ ": " ++ value ++ " \x7d"

def reservedKey (key : Key) : Fault :=
  .invalidParameter ("row key " ++ key.text ++ " is reserved")

def columnOutOfRange (index : Nat) (key : Key) (width : Nat) : Fault :=
  .invalidParameter ("column " ++ index.repr ++ " out of range for row " ++ key.text ++
    " with " ++ width.repr ++ " columns")

end Fault

end LiveTable
