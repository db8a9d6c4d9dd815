/-!
# Row keys and bookmark numbers

A row is named by its key, an object and an ordinal under that object; keys are
ordered by object and then by ordinal. The key `0:0` is reserved and names no
row. A bookmark is named by its number; the numbers `0`, `1` and `2` stand for
the built-in origins of a seek and are never given to a bookmark.
-/

namespace LiveTable

/-- The identity of a row. -/
structure Key where
  object : UInt32
  ordinal : UInt32
  deriving DecidableEq, Hashable, Inhabited

namespace Key

/-- The key that names no row. -/
def reserved : Key := ⟨0, 0⟩

/-- By object, then by ordinal. -/
def compare (a b : Key) : Ordering :=
  (Ord.compare a.object b.object).then (Ord.compare a.ordinal b.ordinal)

def text (k : Key) : String :=
  k.object.toNat.repr ++ ":" ++ k.ordinal.toNat.repr

def debug (k : Key) : String := "RowKey(" ++ k.text ++ ")"

def json (k : Key) : String :=
  "\x7b\"object_id\":" ++ k.object.toNat.repr ++ ",\"order_id\":" ++ k.ordinal.toNat.repr ++ "\x7d"

end Key

/-- The number of a bookmark. -/
structure Mark where
  number : UInt32
  deriving DecidableEq, Hashable, Inhabited

namespace Mark

def firstFree : UInt32 := 3

def isReserved (m : Mark) : Bool := m.number < firstFree

def compare (a b : Mark) : Ordering := Ord.compare a.number b.number

def text (m : Mark) : String := m.number.toNat.repr

def debug (m : Mark) : String := "BookmarkId(" ++ m.text ++ ")"

theorem isReserved_iff (m : Mark) : m.isReserved = true ↔ m.number.toNat < 3 := by
  simp [isReserved, firstFree, UInt32.lt_iff_toNat_lt]

end Mark

end LiveTable
