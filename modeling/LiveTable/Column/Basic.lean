import LiveTable.Binary64

/-!
# Sort columns

A row is sorted under a list of columns, the most significant first. A column
holds the bytes that are compared, the way in which they are compared, and
whether the column sorts downwards. Whole numbers are encoded so that the order
of their bytes is their numeric order: an unsigned number with its most
significant byte first, a signed one likewise after its sign bit is flipped.
-/

namespace LiveTable

/-- How the bytes of a column are compared. -/
inductive Column.Kind where
  | binary
  | text
  | float
  deriving DecidableEq, Inhabited

/-- One part of a sort key. -/
structure Column where
  kind : Column.Kind
  descending : Bool
  bytes : Bytes
  deriving DecidableEq, Inhabited

abbrev SortKey := List Column

namespace Column

def Kind.name : Kind → String
  | .binary => "Binary"
  | .text => "AsciiString"
  | .float => "Float64"

/-! ## Making columns -/

def binary (bytes : Bytes) : Column := ⟨.binary, false, bytes⟩

def text (s : String) : Column := ⟨.text, false, s.toUTF8.toList⟩

/-- A text column sorted under a key that was prepared elsewhere. -/
def collated (bytes : Bytes) : Column := ⟨.text, false, bytes⟩

def float (x : Binary64) : Column := ⟨.float, false, x.bytes⟩

def unsigned (n : UInt64) : Column := binary (Bytes.bigEndian 8 n.toNat)

def signed (n : Int64) : Column := unsigned (n.toUInt64 ^^^ 0x8000000000000000)

def down (c : Column) : Column := { c with descending := true }

/-! ## Flags -/

def downFlag : UInt8 := 1

def textFlag : UInt8 := 2

/-- The bit of a floating-point column; it outweighs the bit of a text column. -/
def floatFlag : UInt8 := 4

def Kind.ofFlags (flags : UInt8) : Kind :=
  if flags &&& floatFlag ≠ 0 then .float
  else if flags &&& textFlag ≠ 0 then .text
  else .binary

def Kind.flags : Kind → UInt8
  | .binary => 0
  | .text => textFlag
  | .float => floatFlag

/-- The column that flags describe; bits without a meaning are ignored. -/
def ofFlags (flags : UInt8) (bytes : Bytes) : Column :=
  ⟨.ofFlags flags, flags &&& downFlag ≠ 0, bytes⟩

def flags (c : Column) : UInt8 :=
  c.kind.flags ||| (if c.descending then downFlag else 0)

theorem Kind.ofFlags_flags (k : Kind) (d : Bool) :
    ofFlags (k.flags ||| (if d then downFlag else 0)) = k := by
  cases k <;> cases d <;> decide

theorem flags_down (k : Kind) (d : Bool) :
    decide ((k.flags ||| (if d then downFlag else 0)) &&& downFlag ≠ 0) = d := by
  cases k <;> cases d <;> decide

theorem ofFlags_flags (c : Column) : ofFlags c.flags c.bytes = c := by
  rw [ofFlags, flags, Kind.ofFlags_flags, flags_down]

/-! ## Values -/

def float? (c : Column) : Option Binary64 :=
  match c.kind with
  | .float => Binary64.ofBytes? c.bytes
  | _ => none

theorem float?_float (x : Binary64) : (float x).float? = some x := Binary64.ofBytes?_bytes x

end Column

end LiveTable
