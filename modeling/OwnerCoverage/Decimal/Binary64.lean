/-!
# Double-precision numbers

A double-precision number is given by its sign and by its magnitude code, the sixty-three low bits
of its interchange format. The codes count up through the values: zero, the subnormal numbers, the
normal numbers, infinity, and past it what is no number. Results are exact quotients rounded to the
nearest number, and to the one with an even code where two are equally near.
-/

namespace OwnerCoverage

/-- A number of sixty-four bits. -/
structure Binary64 where
  negative : Bool
  /-- The sixty-three low bits. -/
  magnitude : Nat
  magnitude_lt : magnitude < Nat.pow 2 63
deriving DecidableEq, Repr

namespace Binary64

/-- The code of infinity. -/
def infiniteMagnitude : Nat := 2047 * Nat.pow 2 52

/-- The number with these bits, of which the highest is the sign. -/
def ofBits (bits : UInt64) : Binary64 where
  negative := decide (Nat.pow 2 63 ≤ bits.toNat)
  magnitude := bits.toNat % Nat.pow 2 63
  magnitude_lt := Nat.mod_lt _ (by decide)

def toBits (number : Binary64) : UInt64 :=
  UInt64.ofNat ((if number.negative then Nat.pow 2 63 else 0) + number.magnitude)

def isNaN (number : Binary64) : Bool := decide (infiniteMagnitude < number.magnitude)

def isInfinite (number : Binary64) : Bool := decide (number.magnitude = infiniteMagnitude)

/-- The significand of a finite magnitude, which counts units of the last place. -/
def significand (number : Binary64) : Nat :=
  if number.magnitude < Nat.pow 2 52 then number.magnitude
  else Nat.pow 2 52 + number.magnitude % Nat.pow 2 52

/-- The exponent of two of the unit in the last place of a finite magnitude. -/
def exponent (number : Binary64) : Int :=
  if number.magnitude < Nat.pow 2 52 then -1074
  else (number.magnitude / Nat.pow 2 52 : Nat) - 1075

/-- Whether the number below a magnitude is nearer than the one above: at the powers of two above
the subnormal numbers. -/
def isNarrowBelow (number : Binary64) : Bool :=
  decide (Nat.pow 2 53 ≤ number.magnitude) && number.magnitude % Nat.pow 2 52 == 0

/-- The numerator of a finite magnitude as a fraction. -/
def numerator (number : Binary64) : Nat :=
  number.significand * Nat.pow 2 number.exponent.toNat

/-- The denominator of a finite magnitude as a fraction. -/
def denominator (number : Binary64) : Nat := Nat.pow 2 (-number.exponent).toNat

/-- A quotient rounded to the nearest integer, and to the even one where two are equally near. -/
def roundedQuotient (dividend divisor : Nat) : Nat :=
  let quotient := dividend / divisor
  let rest := dividend % divisor
  if 2 * rest < divisor then quotient
  else if divisor < 2 * rest then quotient + 1
  else quotient + quotient % 2

/-- The greatest exponent of two that is not above a positive quotient. -/
def quotientLog2 (dividend divisor : Nat) : Int :=
  let estimate : Int := (dividend.log2 : Int) - divisor.log2
  if dividend * Nat.pow 2 (-estimate).toNat < divisor * Nat.pow 2 estimate.toNat then estimate - 1
  else estimate

/-- The code of the number nearest to a quotient. Its unit in the last place is the least one that
leaves at most fifty-three places, and never below the least positive number. A significand that
rounding raises to the next power of two has the code of that power. -/
def nearestMagnitude (dividend divisor : Nat) : Nat :=
  if dividend = 0 then 0
  else
    let unit : Int := max (-1074) (quotientLog2 dividend divisor - 52)
    let significand :=
      roundedQuotient (dividend * Nat.pow 2 (-unit).toNat) (divisor * Nat.pow 2 unit.toNat)
    min infiniteMagnitude ((unit + 1074).toNat * Nat.pow 2 52 + significand)

/-- The number nearest to a quotient. -/
def ofQuotient (dividend divisor : Nat) : Binary64 where
  negative := false
  magnitude := nearestMagnitude dividend divisor
  magnitude_lt := by
    unfold nearestMagnitude infiniteMagnitude
    split
    · decide
    · exact Nat.lt_of_le_of_lt (Nat.min_le_left _ _) (by decide)

def zero : Binary64 := ⟨false, 0, by decide⟩

/-- The number nearest to a natural number. -/
def ofNat (value : Nat) : Binary64 := ofQuotient value 1

/-- The number nearest to the quotient of two finite numbers that are not negative. -/
def divide (dividend divisor : Binary64) : Binary64 :=
  ofQuotient (dividend.numerator * divisor.denominator)
    (divisor.numerator * dividend.denominator)

end Binary64

end OwnerCoverage
