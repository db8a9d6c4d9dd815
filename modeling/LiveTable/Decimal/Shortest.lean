import LiveTable.Decimal.Basic

/-!
# The shortest decimal in an interval

A fraction stands between two neighbours, and any decimal between the two is read
back as that fraction. Of these decimals the one with the fewest digits is chosen
and, of several with that many digits, the one nearest to the fraction; of two
that are equally near, the one farther from zero. On each grid of decimals only
the two grid points around the fraction need a test: if any point of the grid lies
in the interval then so does one of these two.
-/

namespace LiveTable.Decimal

/-- A positive fraction and the interval of numbers that stand for it, over one denominator. -/
structure Interval where
  lower : Nat
  value : Nat
  upper : Nat
  denominator : Nat
  /-- Whether the end points belong to the interval. -/
  closed : Bool

namespace Interval

/-- The number of digits before the point, or minus the number of zeros directly after it. -/
def magnitude (i : Interval) : Int :=
  if i.denominator ≤ i.value then digitCount (i.value / i.denominator)
  else 1 - digitCount ((i.denominator - 1) / i.value)

/-- The interval measured in units of `10 ^ exponent`. -/
def scaled (i : Interval) (exponent : Int) : Interval :=
  let up := Nat.pow 10 (-exponent).toNat
  let down := Nat.pow 10 exponent.toNat
  ⟨i.lower * up, i.value * up, i.upper * up, i.denominator * down, i.closed⟩

def holds (i : Interval) (n : Nat) : Bool :=
  let m := n * i.denominator
  if i.closed then i.lower ≤ m && m ≤ i.upper else i.lower < m && m < i.upper

/-- The whole number in the interval that is nearest to the value, if there is one around it. -/
def nearest? (i : Interval) : Option Nat :=
  let below := i.value / i.denominator
  let above := below + 1
  let nearBelow := 2 * (i.value - below * i.denominator) < i.denominator
  match i.holds below, i.holds above with
  | true, true => some (if nearBelow then below else above)
  | true, false => some below
  | false, true => some above
  | false, false => none

/-- The nearest decimal of `digits` digits, if one lies in the interval. -/
def onGrid? (i : Interval) (digits : Nat) : Option Decimal :=
  let exponent := i.magnitude - digits
  (i.scaled exponent).nearest?.map (⟨·, exponent⟩)

/-- The first hit among the grids of `digits`, `digits + 1`, … digits, at most `tries` of them. -/
def shortestFrom (i : Interval) (digits : Nat) : Nat → Option Decimal
  | 0 => none
  | tries + 1 =>
    match i.onGrid? digits with
    | some d => some d
    | none => i.shortestFrom (digits + 1) tries

end Interval

end LiveTable.Decimal
