import Mathlib.Algebra.Order.Field.Power
import Mathlib.Tactic.FieldSimp
import Mathlib.Tactic.Linarith
import Mathlib.Tactic.Positivity
import OwnerCoverage.Proofs.Decimal.Nearest

/-!
# Rounded quotients

A quotient is scaled until its integer part has as many bits as a significand, and the scaled one is
rounded to an integer. No integer is nearer to the scaled quotient, so no number is nearer to the
quotient (`isNearest_ofQuotient`): the sizes next to the result are in the same units, except at the
ends of a binade, and there the quotient does not lie beyond the end.

Nearest numbers keep the order of their targets (`IsNearest.mono`), and a target that is the size of
a number is kept itself (`IsNearest.size_eq`).
-/

namespace OwnerCoverage

namespace Binary64

section Integers

/-- Whether no integer is nearer to a target than a given one, and that one is even if another is as
near. -/
structure IsNearestInteger (integer : Nat) (target : ℚ) : Prop where
  below : 2 * (integer : ℚ) - 1 ≤ 2 * target
  above : 2 * target ≤ 2 * integer + 1
  strict : ¬Even integer → 2 * (integer : ℚ) - 1 < 2 * target ∧ 2 * target < 2 * integer + 1

theorem IsNearestInteger.le_of_lt {integer bound : Nat} {target : ℚ}
    (nearest : IsNearestInteger integer target) (less : target < bound) : integer ≤ bound := by
  have below := nearest.below
  have lessNext : (integer : ℚ) < bound + 1 := by linarith
  exact Nat.lt_succ_iff.1 (by exact_mod_cast lessNext)

theorem IsNearestInteger.le_of_le {integer bound : Nat} {target : ℚ}
    (nearest : IsNearestInteger integer target) (le : bound ≤ target) : bound ≤ integer := by
  have above := nearest.above
  have lessNext : (bound : ℚ) < integer + 1 := by linarith
  exact Nat.lt_succ_iff.1 (by exact_mod_cast lessNext)

variable {dividend divisor : Nat}

theorem roundedQuotient_nearest (positive : 0 < divisor) :
    IsNearestInteger (roundedQuotient dividend divisor) (dividend / divisor) := by
  have positiveRat : (0 : ℚ) < divisor := by exact_mod_cast positive
  generalize quotient_eq : dividend / divisor = quotient
  generalize rest_eq : dividend % divisor = rest
  have less : rest < divisor := rest_eq ▸ Nat.mod_lt dividend positive
  have split : dividend = divisor * quotient + rest := by
    rw [← quotient_eq, ← rest_eq, Nat.div_add_mod]
  have fraction : 2 * ((dividend : ℚ) / divisor) = 2 * quotient + 2 * rest / divisor := by
    rw [split]
    push_cast
    field_simp
  have fraction_nonneg : (0 : ℚ) ≤ 2 * rest / divisor := by positivity
  have fraction_lt : (2 : ℚ) * rest / divisor < 2 := by
    rw [div_lt_iff₀ positiveRat]
    exact_mod_cast Nat.mul_lt_mul_of_pos_left less (by decide)
  unfold roundedQuotient
  dsimp only
  rw [quotient_eq, rest_eq]
  split
  · rename_i near
    have fraction_small : (2 : ℚ) * rest / divisor < 1 := by
      rw [div_lt_one positiveRat]
      exact_mod_cast near
    exact ⟨by linarith, by linarith, fun _ => ⟨by linarith, by linarith⟩⟩
  · split
    · rename_i far
      have fraction_great : 1 < (2 : ℚ) * rest / divisor := by
        rw [one_lt_div positiveRat]
        exact_mod_cast far
      have next : ((quotient + 1 : Nat) : ℚ) = quotient + 1 := Nat.cast_succ quotient
      exact ⟨by linarith, by linarith, fun _ => ⟨by linarith, by linarith⟩⟩
    · rename_i notNear notFar
      have half : (2 : ℚ) * rest / divisor = 1 := by
        rw [div_eq_one_iff_eq positiveRat.ne']
        exact_mod_cast le_antisymm (not_lt.1 notFar) (not_lt.1 notNear)
      have even : Even (quotient + quotient % 2) := by
        rw [Nat.even_iff]
        omega
      have bounds : (0 : ℚ) ≤ (quotient % 2 : Nat) ∧ ((quotient % 2 : Nat) : ℚ) ≤ 1 := by
        have := Nat.mod_lt quotient (by decide : 0 < 2)
        exact ⟨by positivity, by exact_mod_cast Nat.le_of_lt_succ this⟩
      have sum : ((quotient + quotient % 2 : Nat) : ℚ) = quotient + (quotient % 2 : Nat) :=
        Nat.cast_add quotient _
      exact ⟨by linarith, by linarith, fun odd => absurd even odd⟩

end Integers

section Scaling

variable {dividend divisor : Nat}

theorem two_zpow_eq_div (exponent : ℤ) :
    (2 : ℚ) ^ exponent = 2 ^ exponent.toNat / 2 ^ (-exponent).toNat := by
  rcases le_total 0 exponent with natural | negative
  · rw [Int.toNat_of_nonpos (by omega : -exponent ≤ 0), pow_zero, div_one, ← zpow_natCast,
      Int.toNat_of_nonneg natural]
  · rw [Int.toNat_of_nonpos negative, pow_zero, one_div, ← zpow_natCast,
      Int.toNat_of_nonneg (by omega : 0 ≤ -exponent), zpow_neg, inv_inv]

/-- A quotient counted in units that are a power of two. -/
theorem scaled_quotient (dividend divisor : Nat) (unit : ℤ) :
    ((dividend * Nat.pow 2 (-unit).toNat : Nat) : ℚ) / (divisor * Nat.pow 2 unit.toNat : Nat) =
      dividend / divisor / 2 ^ unit := by
  rw [two_zpow_eq_div, Nat.pow_eq, Nat.pow_eq]
  push_cast
  rw [div_div_eq_mul_div, div_mul_eq_mul_div, div_div]

/-- The exponent that is estimated from the lengths of two integers is that of their quotient. -/
theorem quotientLog2_spec (dividendPositive : 0 < dividend) (divisorPositive : 0 < divisor) :
    (2 : ℚ) ^ quotientLog2 dividend divisor ≤ dividend / divisor ∧
      (dividend : ℚ) / divisor < 2 ^ (quotientLog2 dividend divisor + 1) := by
  have dividendRat : (0 : ℚ) < dividend := by exact_mod_cast dividendPositive
  have divisorRat : (0 : ℚ) < divisor := by exact_mod_cast divisorPositive
  have dividendAbove : (2 : ℚ) ^ (dividend.log2 : ℤ) ≤ dividend := by
    rw [zpow_natCast]
    exact_mod_cast Nat.log2_self_le dividendPositive.ne'
  have dividendBelow : (dividend : ℚ) < 2 ^ (dividend.log2 + 1 : ℤ) := by
    exact_mod_cast Nat.lt_log2_self
  have divisorAbove : (2 : ℚ) ^ (divisor.log2 : ℤ) ≤ divisor := by
    rw [zpow_natCast]
    exact_mod_cast Nat.log2_self_le divisorPositive.ne'
  have divisorBelow : (divisor : ℚ) < 2 ^ (divisor.log2 + 1 : ℤ) := by
    exact_mod_cast Nat.lt_log2_self
  unfold quotientLog2
  dsimp only
  generalize estimate_eq : (dividend.log2 : ℤ) - divisor.log2 = estimate
  have below : (dividend : ℚ) / divisor < 2 ^ (estimate + 1) := by
    have split : (dividend.log2 + 1 : ℤ) = estimate + 1 + divisor.log2 := by omega
    rw [div_lt_iff₀ divisorRat]
    rw [split, zpow_add₀ two_ne_zero] at dividendBelow
    exact dividendBelow.trans_le (mul_le_mul_of_nonneg_left divisorAbove (by positivity))
  have above : (2 : ℚ) ^ (estimate - 1) ≤ dividend / divisor := by
    have split : (dividend.log2 : ℤ) = estimate - 1 + (divisor.log2 + 1) := by omega
    rw [le_div_iff₀ divisorRat]
    rw [split, zpow_add₀ two_ne_zero] at dividendAbove
    exact (mul_le_mul_of_nonneg_left divisorBelow.le (by positivity)).trans dividendAbove
  have test_iff : dividend * Nat.pow 2 (-estimate).toNat < divisor * Nat.pow 2 estimate.toNat ↔
      (dividend : ℚ) / divisor < 2 ^ estimate := by
    have scaled := scaled_quotient dividend divisor estimate
    rw [← div_lt_one (by positivity : (0 : ℚ) < 2 ^ estimate), ← scaled, div_lt_one]
    · exact Nat.cast_lt.symm
    · rw [Nat.pow_eq]
      positivity
  split
  · rename_i less
    exact ⟨above, by rw [sub_add_cancel]; exact test_iff.1 less⟩
  · rename_i notLess
    exact ⟨not_lt.1 (mt test_iff.2 notLess), below⟩

/-- The unit in the last place of the number nearest to a quotient, as an exponent of two. -/
def quotientUnit (dividend divisor : Nat) : ℤ := max (-1074) (quotientLog2 dividend divisor - 52)

/-- In its unit a quotient is below `2 ^ 53`, and at least `2 ^ 52` unless the unit is the least
one. -/
theorem quotientUnit_spec (dividendPositive : 0 < dividend) (divisorPositive : 0 < divisor) :
    (dividend : ℚ) / divisor / 2 ^ quotientUnit dividend divisor < 2 ^ 53 ∧
      (quotientUnit dividend divisor = -1074 ∨
        2 ^ 52 ≤ (dividend : ℚ) / divisor / 2 ^ quotientUnit dividend divisor) := by
  rcases quotientLog2_spec dividendPositive divisorPositive with ⟨above, below⟩
  unfold quotientUnit
  generalize quotientLog2 dividend divisor = log at *
  constructor
  · have split : (2 : ℚ) ^ 53 * 2 ^ max (-1074) (log - 52) = 2 ^ (53 + max (-1074) (log - 52)) := by
      rw [zpow_add₀ two_ne_zero]
      rfl
    rw [div_lt_iff₀ (zpow_pos two_pos _), split]
    exact below.trans_le (zpow_le_zpow_right₀ one_le_two (by omega))
  · rcases max_choice (-1074) (log - 52) with least | unit_eq
    · exact .inl least
    · have split : (2 : ℚ) ^ 52 * 2 ^ (log - 52) = 2 ^ log := by
        rw [zpow_sub₀ two_ne_zero]
        exact mul_div_cancel₀ _ (by norm_num)
      right
      rwa [unit_eq, le_div_iff₀ (zpow_pos two_pos _), split]

end Scaling

section Codes

variable {code places : Nat} {unit : ℤ} {target : ℚ} {number : Binary64}

theorem unitsOf_scaled {steps : Nat} (small : places ≤ 2 ^ 53)
    (normal : steps = 0 ∨ 2 ^ 52 ≤ places) :
    unitsOf (steps * 2 ^ 52 + places) = places * 2 ^ steps := by
  unfold unitsOf
  rcases Nat.lt_or_ge places (2 ^ 52) with subnormal | notSubnormal
  · have first : steps = 0 := by omega
    rw [first, zero_mul, zero_add, if_pos subnormal, pow_zero, mul_one]
  · rw [if_neg (by omega)]
    rcases small.lt_or_eq with less | carries
    · have exponent : (steps * 2 ^ 52 + places) / 2 ^ 52 - 1 = steps := by omega
      have fraction : 2 ^ 52 + (steps * 2 ^ 52 + places) % 2 ^ 52 = places := by omega
      rw [exponent, fraction]
    · have exponent : (steps * 2 ^ 52 + places) / 2 ^ 52 - 1 = steps + 1 := by omega
      have fraction : (steps * 2 ^ 52 + places) % 2 ^ 52 = 0 := by omega
      rw [exponent, fraction, carries]
      ring

/-- The code of some places of a unit, of which the least unit may have any number up to fifty-three
bits. -/
def codeOf (unit : ℤ) (places : Nat) : Nat := (unit + 1074).toNat * 2 ^ 52 + places

theorem sizeAt_codeOf (least : -1074 ≤ unit) (small : places ≤ 2 ^ 53)
    (normal : unit = -1074 ∨ 2 ^ 52 ≤ places) :
    sizeAt (codeOf unit places) = places * 2 ^ unit := by
  have split : unit = ((unit + 1074).toNat : ℤ) + -1074 := by omega
  rw [sizeAt, codeOf, unitsOf_scaled small (by omega)]
  conv_rhs => rw [split, zpow_add₀ two_ne_zero, zpow_natCast, ← mul_assoc]
  rw [Nat.cast_mul, Nat.cast_pow, Nat.cast_ofNat]

/-- Whether no size next to that of a code is nearer to a target, nor as near if the code is odd. -/
structure Brackets (code : Nat) (target : ℚ) : Prop where
  below : 0 < code → sizeAt (code - 1) + sizeAt code ≤ 2 * target
  above : 2 * target ≤ sizeAt code + sizeAt (code + 1)
  strict : ¬Even code → sizeAt (code - 1) + sizeAt code < 2 * target ∧
    2 * target < sizeAt code + sizeAt (code + 1)

theorem codeOf_add_one : codeOf unit places + 1 = codeOf unit (places + 1) := Nat.add_assoc _ _ _

theorem codeOf_sub_one (positive : 0 < places) :
    codeOf unit places - 1 = codeOf unit (places - 1) := Nat.add_sub_assoc positive _

theorem even_codeOf_iff : Even (codeOf unit places) ↔ Even places := by
  have evenSteps : Even ((unit + 1074).toNat * 2 ^ 52) := Even.mul_left (by decide) _
  rw [codeOf, Nat.even_add]
  exact iff_true_left evenSteps

theorem sizeAt_codeOf_add_one (least : -1074 ≤ unit) (less : places < 2 ^ 53)
    (normal : unit = -1074 ∨ 2 ^ 52 ≤ places) :
    sizeAt (codeOf unit places + 1) = (places + 1) * 2 ^ unit := by
  rw [codeOf_add_one, sizeAt_codeOf least less (normal.imp_right Nat.le_succ_of_le), Nat.cast_succ]

theorem sizeAt_codeOf_sub_one (least : -1074 ≤ unit) (small : places ≤ 2 ^ 53)
    (positive : 0 < places) (normal : unit = -1074 ∨ 2 ^ 52 ≤ places - 1) :
    sizeAt (codeOf unit places - 1) = (places - 1) * 2 ^ unit := by
  rw [codeOf_sub_one positive, sizeAt_codeOf least (by omega) normal, Nat.cast_sub positive,
    Nat.cast_one]

section Middles

variable (least : -1074 ≤ unit) (nearest : IsNearestInteger places (target / 2 ^ unit))
  (small : target / 2 ^ unit < 2 ^ 53) (normal : unit = -1074 ∨ 2 ^ 52 ≤ target / 2 ^ unit)

include nearest small in
theorem IsNearestInteger.places_le : places ≤ 2 ^ 53 :=
  nearest.le_of_lt (by exact_mod_cast small)

include nearest normal in
theorem IsNearestInteger.places_normal : unit = -1074 ∨ 2 ^ 52 ≤ places :=
  normal.imp_right fun great => nearest.le_of_le (by exact_mod_cast great)

include least nearest small normal

/-- The size above that of the nearest places is a unit greater, unless the places are too many for
the unit. Then the target lies below them. -/
theorem middle_above :
    sizeAt (codeOf unit places) + sizeAt (codeOf unit places + 1) = (2 * places + 1) * 2 ^ unit ∨
      2 * target < sizeAt (codeOf unit places) + sizeAt (codeOf unit places + 1) := by
  have normalPlaces := nearest.places_normal normal
  rcases (nearest.places_le small).lt_or_eq with less | last
  · left
    rw [sizeAt_codeOf least less.le normalPlaces, sizeAt_codeOf_add_one least less normalPlaces]
    ring
  · right
    have inside : target < sizeAt (codeOf unit places) := by
      rw [sizeAt_codeOf least last.le normalPlaces, ← div_lt_iff₀ (zpow_pos two_pos _), last]
      exact_mod_cast small
    have lessAbove := sizeAt_strictMono (Nat.lt_succ_self (codeOf unit places))
    linarith

/-- The size below that of the nearest places is a unit smaller, unless the places are the fewest of
the unit. Then the target does not lie below them. -/
theorem middle_below (notZero : 0 < codeOf unit places) :
    sizeAt (codeOf unit places - 1) + sizeAt (codeOf unit places) = (2 * places - 1) * 2 ^ unit ∨
      sizeAt (codeOf unit places - 1) + sizeAt (codeOf unit places) < 2 * target := by
  have here := sizeAt_codeOf least (nearest.places_le small) (nearest.places_normal normal)
  have inside (positive : 0 < places) (normalBelow : unit = -1074 ∨ 2 ^ 52 ≤ places - 1) :
      sizeAt (codeOf unit places - 1) + sizeAt (codeOf unit places) =
        (2 * places - 1) * 2 ^ unit := by
    rw [here, sizeAt_codeOf_sub_one least (nearest.places_le small) positive normalBelow]
    ring
  rcases normal with first | great
  · have positive : 0 < places := by
      rw [codeOf, first] at notZero
      omega
    exact .inl (inside positive (.inl first))
  · rcases Nat.lt_or_ge (2 ^ 52) places with more | fewest
    · exact .inl (inside (by omega) (.inr (by omega)))
    · right
      have fewestRat : (places : ℚ) ≤ 2 ^ 52 := by exact_mod_cast fewest
      have notBelow : sizeAt (codeOf unit places) ≤ target := by
        rw [here, ← le_div_iff₀ (zpow_pos two_pos _)]
        exact fewestRat.trans great
      have lessBelow := sizeAt_strictMono (Nat.sub_lt notZero Nat.one_pos)
      linarith

/-- The places that are nearest to a target in some units have the code nearest to it. -/
theorem brackets_codeOf : Brackets (codeOf unit places) target := by
  have positive : (0 : ℚ) < 2 ^ unit := zpow_pos two_pos _
  constructor
  case below =>
    intro notZero
    rcases middle_below least nearest small normal notZero with middle | inside
    · rw [middle, ← le_div_iff₀ positive, mul_div_assoc]
      exact nearest.below
    · exact inside.le
  case above =>
    rcases middle_above least nearest small normal with middle | inside
    · rw [middle, ← div_le_iff₀ positive, mul_div_assoc]
      exact nearest.above
    · exact inside.le
  case strict =>
    intro odd
    rcases nearest.strict (mt even_codeOf_iff.2 odd) with ⟨below, above⟩
    have notZero : 0 < codeOf unit places := by
      rw [Nat.pos_iff_ne_zero]
      intro zero
      exact odd (zero ▸ Even.zero)
    constructor
    · rcases middle_below least nearest small normal notZero with middle | inside
      · rw [middle, ← lt_div_iff₀ positive, mul_div_assoc]
        exact below
      · exact inside
    · rcases middle_above least nearest small normal with middle | inside
      · rw [middle, ← div_lt_iff₀ positive, mul_div_assoc]
        exact above
      · exact inside

end Middles

/-- A number with the code nearest to a target is nearest to it, and so is infinity if that code
lies beyond. -/
theorem isNearest_of_brackets (brackets : Brackets code target)
    (magnitude : number.magnitude = min infiniteMagnitude code) : number.IsNearest target := by
  have notNaN : number.isNaN = false :=
    isNaN_eq_false_iff.2 (magnitude.trans_le (min_le_left _ _))
  rcases le_or_gt code infiniteMagnitude with finite | beyond
  · rw [min_eq_right finite] at magnitude
    subst magnitude
    refine isNearest_of_between notNaN ?_ ?_ ?_
    · rw [size_eq_sizeAt]
      exact brackets.below
    · rw [size_eq_sizeAt]
      exact brackets.above
    · rw [size_eq_sizeAt]
      exact brackets.strict
  · rw [min_eq_left beyond.le] at magnitude
    have below := brackets.below (by omega)
    have here : sizeAt infiniteMagnitude ≤ sizeAt (code - 1) :=
      sizeAt_strictMono.monotone (by omega)
    have last : sizeAt (code - 1) < sizeAt code := sizeAt_strictMono (by omega)
    refine ⟨notNaN, ?_⟩
    intro other otherNotNaN different
    have otherLess : sizeAt other.magnitude < sizeAt infiniteMagnitude := by
      have := isNaN_eq_false_iff.1 otherNotNaN
      exact sizeAt_strictMono (by omega)
    left
    unfold distance
    rw [size_eq_sizeAt, size_eq_sizeAt, magnitude, abs_of_nonneg (by linarith),
      abs_of_nonneg (by linarith)]
    linarith

end Codes

section Order

variable {number other : Binary64} {target otherTarget : ℚ}

/-- What a finite number stands for. -/
def value (number : Binary64) : ℚ := if number.negative then -number.size else number.size

theorem value_eq_size (positive : number.negative = false) : number.value = number.size := by
  rw [value, positive, if_neg Bool.false_ne_true]

theorem size_lt_iff : number.size < other.size ↔ number.magnitude < other.magnitude := by
  rw [size_eq_sizeAt, size_eq_sizeAt]
  exact sizeAt_strictMono.lt_iff_lt

theorem size_le_iff : number.size ≤ other.size ↔ number.magnitude ≤ other.magnitude := by
  rw [size_eq_sizeAt, size_eq_sizeAt]
  exact sizeAt_strictMono.le_iff_le

/-- Numbers of one sign and size are the same. -/
theorem eq_of_size_eq (sign : number.negative = other.negative) (sizes : number.size = other.size) :
    number = other := by
  rw [size_eq_sizeAt, size_eq_sizeAt] at sizes
  have magnitudes := sizeAt_strictMono.injective sizes
  cases number
  cases other
  subst sign magnitudes
  rfl

theorem isNearest_size (notNaN : number.isNaN = false) : number.IsNearest number.size := by
  refine ⟨notNaN, ?_⟩
  intro other _ different
  left
  unfold distance
  rw [sub_self, abs_zero, abs_pos, sub_ne_zero, size_eq_sizeAt, size_eq_sizeAt]
  exact fun same => different (sizeAt_strictMono.injective same).symm

theorem IsNearest.distance_le (nearest : number.IsNearest target) (notNaN : other.isNaN = false) :
    number.distance target ≤ other.distance target := by
  by_cases same : other.magnitude = number.magnitude
  · rw [distance, distance, size_eq_sizeAt other, same, ← size_eq_sizeAt]
  · rcases nearest.nearest other notNaN same with nearer | ⟨equal, _⟩
    · exact nearer.le
    · exact equal.le

/-- A target to which the greater of two sizes is as near lies above their middle. -/
theorem middle_le_of_distance_le (less : other.size < number.size)
    (nearer : number.distance target ≤ other.distance target) :
    other.size + number.size ≤ 2 * target := by
  unfold distance at nearer
  have squares := sq_le_sq.2 nearer
  nlinarith

theorem le_middle_of_distance_le (less : number.size < other.size)
    (nearer : number.distance target ≤ other.distance target) :
    2 * target ≤ number.size + other.size := by
  unfold distance at nearer
  have squares := sq_le_sq.2 nearer
  nlinarith

/-- Rounding keeps the order of targets. -/
theorem IsNearest.mono (le : target ≤ otherTarget) (nearest : number.IsNearest target)
    (otherNearest : other.IsNearest otherTarget) : number.size ≤ other.size := by
  by_contra notLe
  rw [not_le] at notLe
  -- Both targets would lie at the middle of the sizes, and so be one.
  have above := middle_le_of_distance_le notLe (nearest.distance_le otherNearest.notNaN)
  have below := le_middle_of_distance_le notLe (otherNearest.distance_le nearest.notNaN)
  have same : otherTarget = target := by linarith
  rw [same] at otherNearest
  exact (size_lt_iff.1 notLe).ne (otherNearest.magnitude_eq nearest)

theorem IsNearest.size_eq (nearest : number.IsNearest target) (notNaN : other.isNaN = false)
    (size : other.size = target) : number.size = target := by
  have own := size ▸ isNearest_size notNaN
  exact le_antisymm ((nearest.mono le_rfl own).trans size.le)
    (size.ge.trans (own.mono le_rfl nearest))

end Order

section Results

variable {dividend divisor : Nat}

theorem nearestMagnitude_of_pos (positive : 0 < dividend) :
    nearestMagnitude dividend divisor =
      min infiniteMagnitude (codeOf (quotientUnit dividend divisor)
        (roundedQuotient (dividend * Nat.pow 2 (-quotientUnit dividend divisor).toNat)
          (divisor * Nat.pow 2 (quotientUnit dividend divisor).toNat))) :=
  if_neg positive.ne'

/-- A quotient becomes the number nearest to it. -/
theorem isNearest_ofQuotient (dividend : Nat) (positive : 0 < divisor) :
    (ofQuotient dividend divisor).IsNearest (dividend / divisor) := by
  rcases Nat.eq_zero_or_pos dividend with rfl | dividendPositive
  · have size : (ofQuotient 0 divisor).size = 0 := by
      rw [size_eq_sizeAt]
      exact zero_mul _
    have nearest := @isNearest_size (ofQuotient 0 divisor) rfl
    rw [size] at nearest
    rwa [Nat.cast_zero, zero_div]
  · rcases quotientUnit_spec dividendPositive positive with ⟨small, normal⟩
    refine isNearest_of_brackets (brackets_codeOf (le_max_left _ _) ?_ small normal)
      (nearestMagnitude_of_pos dividendPositive)
    rw [← scaled_quotient]
    exact roundedQuotient_nearest (Nat.mul_pos positive (Nat.pow_pos two_pos))

theorem isNearest_ofNat (value : Nat) : (ofNat value).IsNearest value := by
  have nearest := isNearest_ofQuotient value Nat.one_pos
  rwa [Nat.cast_one, div_one] at nearest

theorem denominator_pos (number : Binary64) : 0 < number.denominator := Nat.pow_pos (by decide)

theorem numerator_div_denominator (number : Binary64) :
    (number.numerator : ℚ) / number.denominator = number.size := by
  rw [numerator, denominator, size, two_zpow_eq_div, Nat.pow_eq, Nat.pow_eq]
  push_cast
  exact mul_div_assoc _ _ _

theorem numerator_pos_iff (number : Binary64) : 0 < number.numerator ↔ 0 < number.size := by
  have positive : (0 : ℚ) < number.denominator := by exact_mod_cast number.denominator_pos
  rw [← numerator_div_denominator, div_pos_iff_of_pos_right positive, Nat.cast_pos]

/-- A quotient of numbers is the number nearest to the quotient of their sizes. -/
theorem isNearest_divide (dividend : Binary64) {divisor : Binary64} (positive : 0 < divisor.size) :
    (dividend.divide divisor).IsNearest (dividend.size / divisor.size) := by
  have product : 0 < divisor.numerator * dividend.denominator :=
    Nat.mul_pos ((numerator_pos_iff divisor).2 positive) dividend.denominator_pos
  have nearest := isNearest_ofQuotient (dividend.numerator * divisor.denominator) product
  rw [divide, ← numerator_div_denominator, ← numerator_div_denominator, div_div_div_eq]
  push_cast at nearest
  rwa [mul_comm (dividend.denominator : ℚ)]

end Results

section Exact

variable {places : Nat} {unit : ℤ}

theorem exists_size_eq_codeOf (least : -1074 ≤ unit) (greatest : unit ≤ 971)
    (small : places ≤ 2 ^ 53) (normal : unit = -1074 ∨ 2 ^ 52 ≤ places) :
    ∃ number : Binary64, number.isNaN = false ∧ number.size = places * 2 ^ unit := by
  have finite : codeOf unit places ≤ infiniteMagnitude := by
    rw [codeOf, infiniteMagnitude, Nat.pow_eq]
    omega
  refine ⟨⟨false, codeOf unit places, finite.trans_lt (by decide)⟩, ?_, ?_⟩
  · exact isNaN_eq_false_iff.2 finite
  · rw [size_eq_sizeAt]
    exact sizeAt_codeOf least small normal

/-- Places of up to fifty-three bits make a number in each unit of the significands. -/
theorem exists_size_eq (least : -1074 ≤ unit) (greatest : unit ≤ 971) (small : places ≤ 2 ^ 53) :
    ∃ number : Binary64, number.isNaN = false ∧ number.size = places * 2 ^ unit := by
  induction unit, least using Int.leInduction generalizing places with
  | base => exact exists_size_eq_codeOf le_rfl greatest small (.inl rfl)
  | succ unit least ih =>
      rcases Nat.lt_or_ge places (2 ^ 52) with subnormal | normal
      · -- Twice as many places of the unit below have the same size.
        have twice : 2 * places ≤ 2 ^ 53 := by omega
        rcases ih (by omega) twice with ⟨number, notNaN, size⟩
        refine ⟨number, notNaN, ?_⟩
        rw [size, zpow_add_one₀ two_ne_zero]
        push_cast
        ring
      · exact exists_size_eq_codeOf (by omega) greatest small (.inr normal)

/-- Natural numbers of up to fifty-three bits are kept. -/
theorem size_ofNat {value : Nat} (small : value ≤ 2 ^ 53) : (ofNat value).size = value := by
  rcases exists_size_eq (by decide : -1074 ≤ (0 : ℤ)) (by decide) small with ⟨number, notNaN, size⟩
  rw [zpow_zero, mul_one] at size
  exact (isNearest_ofNat value).size_eq notNaN size

theorem size_ofNat_one : (ofNat 1).size = 1 := by
  rw [size_ofNat (by decide), Nat.cast_one]

theorem size_ofNat_pos {value : Nat} (positive : 0 < value) : 0 < (ofNat value).size := by
  have least := (isNearest_ofNat 1).mono (Nat.cast_le.2 positive) (isNearest_ofNat value)
  rw [size_ofNat_one] at least
  exact one_pos.trans_le least

end Exact

end Binary64

end OwnerCoverage
