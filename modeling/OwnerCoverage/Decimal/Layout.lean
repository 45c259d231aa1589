import OwnerCoverage.Decimal.Shortest

/-!
# Laying out decimals

A format writes a number by its own rules: which exponents get positional digits, whether a whole
number shows a point, and what stands for the values that are no finite number. Elsewhere the
digits are written with a point after the first one, then `e`, a sign and the exponent.
-/

namespace OwnerCoverage

/-- How numbers are written. -/
structure NumberFormat where
  /-- The exponents of the leading digit, from the least to the greatest, that are written
  positionally; all of them if no bounds are given. -/
  positional : Option (Int × Int)
  /-- Whether a whole number in positional digits ends in `.0`. -/
  showsWhole : Bool
  tie : TieRule
  notANumber : String
  infinity : String
  negativeInfinity : String
deriving DecidableEq, Repr

namespace NumberFormat

def zeros (count : Nat) : List Char := List.replicate count '0'

/-- The decimal digits of a number, of which the first is no zero unless the number is zero. -/
def digitsOf (value : Nat) : List Char := (toString value).toList

/-- Positional digits, with a point where one is needed. -/
def layPositional (showsWhole : Bool) (digits : List Char) (exponent : Int) : List Char :=
  if 0 ≤ exponent then
    digits ++ zeros exponent.toNat ++ if showsWhole then ['.', '0'] else []
  else
    let fraction := (-exponent).toNat
    if fraction < digits.length then
      digits.take (digits.length - fraction) ++ '.' :: digits.drop (digits.length - fraction)
    else '0' :: '.' :: zeros (fraction - digits.length) ++ digits

/-- A point after the first digit, if others follow, and an exponent. -/
def layScientific (digits : List Char) (leading : Int) : List Char :=
  let mantissa := match digits with
    | [] => []
    | [digit] => [digit]
    | digit :: rest => digit :: '.' :: rest
  mantissa ++ 'e' :: (if leading < 0 then '-' else '+') :: digitsOf leading.natAbs

/-- Whether the exponent of a leading digit is written positionally. -/
def isPositional (format : NumberFormat) (leading : Int) : Bool :=
  match format.positional with
  | none => true
  | some (least, greatest) => decide (least ≤ leading) && decide (leading ≤ greatest)

/-- The text of a decimal without its sign. -/
def lay (format : NumberFormat) (decimal : Decimal) : List Char :=
  let digits := digitsOf decimal.digits
  let leading := decimal.exponent + digits.length - 1
  if format.isPositional leading then
    layPositional format.showsWhole digits decimal.exponent
  else layScientific digits leading

/-- The text of a number: the shortest decimal that is rounded to it, in the format. -/
def write (format : NumberFormat) (number : Binary64) : String :=
  if number.isNaN then format.notANumber
  else if number.isInfinite then
    if number.negative then format.negativeInfinity else format.infinity
  else
    let body := format.lay (Decimal.shortest format.tie number)
    String.ofList (if number.negative then '-' :: body else body)

end NumberFormat

end OwnerCoverage
