import OwnerCoverage.Decimal.Binary64

/-!
# Shortest decimals

A finite number is written with the fewest digits that read back as the same number, and of the
decimals with so few digits with the nearest. The decimals with a given last place form a grid, so
the search tries the grids from the coarsest on: the first one that has a point among the reals that
round to the number has one next to the number on either side.

All lengths are counted in units so small that they are integers: if a number is `m · 2 ^ q` with a
negative `q`, then in units of `10 ^ q` it is `m · 5 ^ (-q)`.
-/

namespace OwnerCoverage

/-- Which of two equally near decimals is taken. -/
inductive TieRule where
  /-- The one whose last digit is even. -/
  | toEven
  /-- The greater one. -/
  | upward
deriving DecidableEq, Repr

/-- The decimal `digits · 10 ^ exponent`. -/
structure Decimal where
  digits : Nat
  exponent : Int
deriving DecidableEq, Repr

namespace Decimal

/-- The reals that round to a number: what lies between two ends, which belong to them or not. The
number is counted in small units, and the ends in quarters of them. -/
structure RoundingInterval where
  value : Nat
  lower : Nat
  upper : Nat
  closed : Bool
deriving DecidableEq, Repr

/-- Whether a value lies in an interval, whose ends are given in quarters. -/
def RoundingInterval.contains (interval : RoundingInterval) (value : Nat) : Bool :=
  if interval.closed then
    decide (interval.lower ≤ 4 * value) && decide (4 * value ≤ interval.upper)
  else decide (interval.lower < 4 * value) && decide (4 * value < interval.upper)

/-- The exponent of ten of the small unit of a number. -/
def unitExponent (number : Binary64) : Int := min 0 number.exponent

/-- The distance to the next number above, in small units. -/
def gap (number : Binary64) : Nat :=
  if number.exponent < 0 then Nat.pow 5 (-number.exponent).toNat
  else Nat.pow 2 number.exponent.toNat

/-- The reals that round to a number. The ends are half way to its neighbours, and round to it if
its significand is even. -/
def interval (number : Binary64) : RoundingInterval where
  value := number.significand * gap number
  lower := 4 * (number.significand * gap number) -
    (if number.isNarrowBelow then gap number else 2 * gap number)
  upper := 4 * (number.significand * gap number) + 2 * gap number
  closed := number.significand % 2 == 0

/-- The multiple of a step that is the nearest to the value among those in the interval. -/
def nearestOnGrid (tie : TieRule) (interval : RoundingInterval) (step : Nat) : Option Nat :=
  let below := interval.value / step
  let above := below + 1
  match interval.contains (below * step), interval.contains (above * step) with
  | false, false => none
  | true, false => some below
  | false, true => some above
  | true, true =>
      let distanceBelow := interval.value - below * step
      let distanceAbove := above * step - interval.value
      if distanceBelow < distanceAbove then some below
      else if distanceAbove < distanceBelow then some above
      else
        match tie with
        | .toEven => some (if below % 2 = 0 then below else above)
        | .upward => some above

/-- Tries the grids of step `10 ^ places` and of all smaller steps. On the grid of the small units
the value itself is a point. -/
def search (tie : TieRule) (interval : RoundingInterval) (unit : Int) : Nat → Decimal
  | 0 => ⟨interval.value, unit⟩
  | places + 1 =>
      match nearestOnGrid tie interval (Nat.pow 10 (places + 1)) with
      | some digits => ⟨digits, unit + (places + 1)⟩
      | none => search tie interval unit places

/-- No finite number reaches this power of ten. -/
def greatestExponent : Int := 309

/-- The decimal with the fewest digits that reads back as a finite number. -/
def shortest (tie : TieRule) (number : Binary64) : Decimal :=
  if number.magnitude = 0 then ⟨0, 0⟩
  else
    let unit := unitExponent number
    search tie (interval number) unit (greatestExponent - unit).toNat

end Decimal

end OwnerCoverage
