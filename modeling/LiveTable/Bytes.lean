/-!
# Bytes

Numbers as byte strings of a fixed width, least significant byte first
(`littleEndian`) or last (`bigEndian`), and the hexadecimal text of bytes. A
number below `256 ^ width` is read back from either form.
-/

namespace LiveTable

abbrev Bytes := List UInt8

namespace Bytes

/-! ## Numbers -/

/-- The `width` low bytes of a number, least significant first. -/
def littleEndian : Nat → Nat → Bytes
  | 0, _ => []
  | width + 1, n => UInt8.ofNat n :: littleEndian width (n / 256)

/-- The number whose bytes are given least significant first. -/
def littleValue : Bytes → Nat
  | [] => 0
  | b :: rest => b.toNat + 256 * littleValue rest

def bigEndian (width n : Nat) : Bytes := (littleEndian width n).reverse

theorem length_littleEndian (width n : Nat) : (littleEndian width n).length = width := by
  induction width generalizing n with
  | zero => rfl
  | succ w ih => simp [littleEndian, ih]

theorem littleValue_littleEndian (width n : Nat) :
    littleValue (littleEndian width n) = n % Nat.pow 256 width := by
  induction width generalizing n with
  | zero => exact (Nat.mod_one n).symm
  | succ w ih =>
    rw [littleEndian, littleValue, ih, show Nat.pow 256 (w + 1) = 256 * Nat.pow 256 w from
      Nat.mul_comm _ _, Nat.mod_mul]
    simp

/-! ## Hexadecimal text -/

def hexPair (b : UInt8) : String :=
  String.ofList [Nat.digitChar (b.toNat / 16), Nat.digitChar (b.toNat % 16)]

def hex (bytes : Bytes) : String := String.join (bytes.map hexPair)

def hexDigit? (c : Char) : Option Nat :=
  if '0' ≤ c ∧ c ≤ '9' then some (c.toNat - '0'.toNat)
  else if 'a' ≤ c ∧ c ≤ 'f' then some (c.toNat - 'a'.toNat + 10)
  else if 'A' ≤ c ∧ c ≤ 'F' then some (c.toNat - 'A'.toNat + 10)
  else none

def ofHex? : List Char → Option Bytes
  | [] => some []
  | high :: low :: rest => do
    let h ← hexDigit? high
    let l ← hexDigit? low
    let bytes ← ofHex? rest
    return UInt8.ofNat (16 * h + l) :: bytes
  | [_] => none

def natOfHex? (digits : List Char) : Option Nat :=
  digits.foldlM (fun n c => (hexDigit? c).map (16 * n + ·)) 0

end Bytes

end LiveTable
