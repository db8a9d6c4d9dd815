import LiveTable.Bytes
import LiveTable.Decimal.Shortest

/-!
# 64-bit binary floating-point numbers

A number is its 64-bit pattern: a sign, 11 bits of exponent and 52 bits of
fraction. Order is taken on patterns: the low 63 bits of a number that is not a
NaN grow with its magnitude, so the pattern read as sign and magnitude gives the
numeric order and makes the two zeros equal. All NaNs are equal to each other
and above every number. In text a number has the fewest digits that are read
back as the same pattern, written out without an exponent.
-/

namespace LiveTable

/-- A floating-point number by its bit pattern. -/
structure Binary64 where
  bits : UInt64
  deriving DecidableEq, Inhabited

namespace Binary64

def isNegative (x : Binary64) : Bool := 0x8000000000000000 ≤ x.bits

/-- The pattern without its sign. -/
def magnitude (x : Binary64) : Nat := x.bits.toNat % 0x8000000000000000

/-- The magnitude of the infinities; every NaN has a larger one. -/
def infinity : Nat := 0x7ff0000000000000

def isNaN (x : Binary64) : Bool := infinity < x.magnitude

/-- The place of a number that is not a NaN among all such numbers. -/
def rank (x : Binary64) : Int :=
  if x.isNegative then -(x.magnitude : Int) else x.magnitude

/-- Numeric order, with every NaN above every number. -/
def compare (x y : Binary64) : Ordering :=
  match x.isNaN, y.isNaN with
  | true, true => .eq
  | true, false => .gt
  | false, true => .lt
  | false, false => Ord.compare x.rank y.rank

theorem compare_self (x : Binary64) : x.compare x = .eq := by
  cases h : x.isNaN <;> simp [compare, h]

/-! ## Bytes -/

def bytes (x : Binary64) : Bytes := Bytes.littleEndian 8 x.bits.toNat

def ofBytes? (b : Bytes) : Option Binary64 :=
  if b.length = 8 then some ⟨UInt64.ofNat (Bytes.littleValue b)⟩ else none

theorem ofBytes?_bytes (x : Binary64) : ofBytes? x.bytes = some x := by
  have h : x.bits.toNat < Nat.pow 256 8 := x.bits.toNat_lt
  simp only [ofBytes?, bytes, Bytes.length_littleEndian, Bytes.littleValue_littleEndian,
    Nat.mod_eq_of_lt h]
  simp

/-! ## Text -/

def leadingBit : Nat := 0x10000000000000

def significand (magnitude : Nat) : Nat :=
  if magnitude < leadingBit then magnitude else leadingBit + magnitude % leadingBit

/-- The power of two that multiplies the significand. -/
def scale (magnitude : Nat) : Int := max 1 (magnitude / leadingBit : Nat) - 1075

/-- The interval of numbers that are read as a given positive finite one: it reaches half way to
the neighbours, and below a power of two the neighbour is half as far. -/
def interval (magnitude : Nat) : Decimal.Interval :=
  let m := significand magnitude
  let quarter := scale magnitude - 2
  let gap := if m = leadingBit ∧ 2 * leadingBit ≤ magnitude then 1 else 2
  let up := quarter.toNat
  ⟨(4 * m - gap) <<< up, (4 * m) <<< up, (4 * m + 2) <<< up, 1 <<< (-quarter).toNat,
    m % 2 = 0⟩

/-- The shortest decimal that is read as a given positive finite number; 17 digits always do. -/
def shortest (magnitude : Nat) : Decimal :=
  ((interval magnitude).shortestFrom 1 17).getD ⟨0, 0⟩

def text (x : Binary64) : String :=
  if x.isNaN then "NaN"
  else
    (if x.isNegative then "-" else "") ++
      (if x.magnitude = infinity then "inf"
      else if x.magnitude = 0 then "0"
      else (shortest x.magnitude).text)

/-! ## Shares of a whole -/

/-- The number in units of `2 ^ -64`, rounded down and kept between none and all `2 ^ 64` of them. -/
def share (x : Binary64) : Nat :=
  if x.isNegative then 0
  else if x.isNaN then 0
  else if 0x3ff0000000000000 ≤ x.magnitude then 0x10000000000000000
  else
    let exponent := scale x.magnitude + 64
    significand x.magnitude <<< exponent.toNat >>> (-exponent).toNat

end Binary64

end LiveTable
