/-!
# Decimal numbers

A decimal is a coefficient times a power of ten. Its positional text writes
every digit before and after the point, never an exponent; trailing zeros after
the point are dropped, and the point with them.
-/

namespace LiveTable

/-- The number `coefficient * 10 ^ exponent`. -/
structure Decimal where
  coefficient : Nat
  exponent : Int
  deriving DecidableEq

namespace Decimal

def digitCount (n : Nat) : Nat := (Nat.toDigits 10 n).length

def zeros (n : Nat) : List Char := List.replicate n '0'

/-- The digits of a coefficient with the point `places` digits from the right. -/
def pointed (digits : List Char) (places : Nat) : List Char :=
  let padded := zeros (places + 1 - digits.length) ++ digits
  let fraction := (padded.drop (padded.length - places)).reverse.dropWhile (· = '0')
  let whole := padded.take (padded.length - places)
  if fraction.isEmpty then whole else whole ++ '.' :: fraction.reverse

def text (d : Decimal) : String :=
  let digits := Nat.toDigits 10 d.coefficient
  match d.exponent with
  | .ofNat e => String.ofList (if d.coefficient = 0 then ['0'] else digits ++ zeros e)
  | .negSucc e => String.ofList (pointed digits (e + 1))

end Decimal

end LiveTable
