import LiveTable.Column.Basic
import LiveTable.Text.Quoted

/-!
# Columns as diagnostics show them

A column is shown as its kind, its content and its direction. Text that is valid
UTF-8 is quoted and any other bytes are listed in hexadecimal; a floating-point
number is written out in full, and where the width is wrong only the width is
told.
-/

namespace LiveTable.Column

def bytesText (bytes : Bytes) : String :=
  "[" ++ ", ".intercalate (bytes.map Bytes.hexPair) ++ "]"

def utf8? (bytes : Bytes) : Option String := String.fromUTF8? ⟨bytes.toArray⟩

def contentText (c : Column) : String :=
  match c.kind with
  | .binary => bytesText c.bytes
  | .text =>
    match utf8? c.bytes with
    | some s => Text.quoted s
    | none => bytesText c.bytes
  | .float =>
    match c.float? with
    | some x => x.text
    | none => "<" ++ c.bytes.length.repr ++ " bytes>"

def debug (c : Column) : String :=
  c.kind.name ++ "(" ++ c.contentText ++ ", " ++ (if c.descending then "desc" else "asc") ++ ")"

end LiveTable.Column
