import Mathlib.Tactic.LinearCombination
import OwnerCoverage.Proofs.Decimal.Nearest

/-!
# Shortest decimals read back

All that lies in the interval of a number is nearest to that number, and the search never leaves the
interval. So every finite number is the one nearest to its shortest decimal
(`isNearest_value_shortest`), whatever rule breaks the ties between two decimals.
-/

namespace OwnerCoverage

namespace Decimal

/-- The rational number that a decimal stands for. -/
def value (decimal : Decimal) : ℚ := decimal.digits * 10 ^ decimal.exponent

section Intervals

variable {number : Binary64}

/-- The gap of a number is its unit in the last place. -/
theorem gap_mul_unit (number : Binary64) :
    (gap number : ℚ) * 10 ^ unitExponent number = 2 ^ number.exponent := by
  unfold gap unitExponent
  split
  · rename_i negative
    rw [min_eq_right negative.le]
    generalize opposite : (-number.exponent).toNat = places
    have exponent : number.exponent = -(places : ℤ) := by omega
    rw [exponent, Nat.pow_eq, Nat.cast_pow, zpow_neg, zpow_neg, zpow_natCast, zpow_natCast,
      Nat.cast_ofNat, show (10 : ℚ) = 5 * 2 by norm_num, mul_pow, mul_inv,
      mul_inv_cancel_left₀ (by positivity)]
  · rename_i natural
    generalize places : number.exponent.toNat = exponent
    have same : number.exponent = (exponent : ℤ) := by omega
    rw [same, Nat.pow_eq, Nat.cast_pow, zpow_natCast, Nat.cast_ofNat,
      min_eq_left (Int.natCast_nonneg exponent), zpow_zero, mul_one]

theorem value_mul_unit (number : Binary64) :
    ((interval number).value : ℚ) * 10 ^ unitExponent number = number.size := by
  rw [interval, Nat.cast_mul, mul_assoc, gap_mul_unit, Binary64.size]

theorem significand_pos (positive : 0 < number.magnitude) : 0 < number.significand := by
  unfold Binary64.significand
  split
  · exact positive
  · exact Nat.lt_of_lt_of_le (by decide) (Nat.le_add_right _ _)

theorem even_significand_iff : Even number.significand ↔ Even number.magnitude := by
  unfold Binary64.significand
  rw [Nat.even_iff, Nat.even_iff, Nat.pow_eq]
  split <;> omega

/-- The lower end is a quarter of the distance of the middle of the step below. -/
theorem lower_mul_unit (positive : 0 < number.magnitude) :
    ((interval number).lower : ℚ) * 10 ^ unitExponent number =
      2 * (Binary64.sizeAt (number.magnitude - 1) + number.size) := by
  have atLeast : gap number ≤ number.significand * gap number :=
    Nat.le_mul_of_pos_left _ (significand_pos positive)
  have gapUnit := gap_mul_unit number
  have sizeUnit := value_mul_unit number
  rw [interval, Nat.cast_mul] at sizeUnit
  rw [Binary64.sizeAt_pred number positive, interval]
  split
  · dsimp only
    rw [Nat.cast_sub (by omega)]
    push_cast
    linear_combination 4 * sizeUnit - gapUnit
  · dsimp only
    rw [Nat.cast_sub (by omega)]
    push_cast
    linear_combination 4 * sizeUnit - 2 * gapUnit

theorem upper_mul_unit (number : Binary64) :
    ((interval number).upper : ℚ) * 10 ^ unitExponent number =
      2 * (number.size + Binary64.sizeAt (number.magnitude + 1)) := by
  have gapUnit := gap_mul_unit number
  have sizeUnit := value_mul_unit number
  rw [interval, Nat.cast_mul] at sizeUnit
  rw [Binary64.sizeAt_succ, interval]
  push_cast
  linear_combination 4 * sizeUnit + 2 * gapUnit

/-- All that the interval of a number contains is nearest to the number. -/
theorem isNearest_of_contains (notNaN : number.isNaN = false) (positive : 0 < number.magnitude)
    {multiple : Nat} (inside : (interval number).contains multiple = true) :
    number.IsNearest (multiple * 10 ^ unitExponent number) := by
  have unit : (0 : ℚ) < 10 ^ unitExponent number := zpow_pos (by norm_num) _
  have lower := lower_mul_unit positive
  have upper := upper_mul_unit number
  unfold RoundingInterval.contains at inside
  by_cases even : Even number.magnitude
  · have closed : (interval number).closed = true := by
      rw [interval, beq_iff_eq, ← Nat.even_iff, even_significand_iff]
      exact even
    rw [if_pos closed, Bool.and_eq_true, decide_eq_true_eq, decide_eq_true_eq] at inside
    have notBelow : ((interval number).lower : ℚ) ≤ 4 * multiple := by exact_mod_cast inside.1
    have notAbove : 4 * (multiple : ℚ) ≤ (interval number).upper := by exact_mod_cast inside.2
    have scaledBelow := mul_le_mul_of_nonneg_right notBelow unit.le
    have scaledAbove := mul_le_mul_of_nonneg_right notAbove unit.le
    exact Binary64.isNearest_of_between notNaN (fun _ => by linarith) (by linarith)
      fun odd => (odd even).elim
  · have opened : ¬(interval number).closed = true := by
      rw [interval, beq_iff_eq, ← Nat.even_iff, even_significand_iff]
      exact even
    rw [if_neg opened, Bool.and_eq_true, decide_eq_true_eq, decide_eq_true_eq] at inside
    have above : ((interval number).lower : ℚ) < 4 * multiple := by exact_mod_cast inside.1
    have below : 4 * (multiple : ℚ) < (interval number).upper := by exact_mod_cast inside.2
    have scaledAbove := mul_lt_mul_of_pos_right above unit
    have scaledBelow := mul_lt_mul_of_pos_right below unit
    exact Binary64.isNearest_of_between notNaN (fun _ => by linarith) (by linarith)
      fun _ => ⟨by linarith, by linarith⟩

theorem contains_value (positive : 0 < number.magnitude) :
    (interval number).contains (interval number).value = true := by
  have gapPositive : 0 < gap number := by
    unfold gap
    split <;> exact Nat.pow_pos (by decide)
  have atLeast : gap number ≤ number.significand * gap number :=
    Nat.le_mul_of_pos_left _ (significand_pos positive)
  have lower : (interval number).lower < 4 * (interval number).value := by
    unfold interval
    split <;> dsimp only <;> omega
  have upper : 4 * (interval number).value < (interval number).upper := by
    unfold interval
    dsimp only
    omega
  unfold RoundingInterval.contains
  split
  · rw [decide_eq_true lower.le, decide_eq_true upper.le, Bool.and_self]
  · rw [decide_eq_true lower, decide_eq_true upper, Bool.and_self]

end Intervals

section Searching

variable {tie : TieRule} {interval : RoundingInterval}

theorem contains_of_nearestOnGrid {step digits : Nat}
    (found : nearestOnGrid tie interval step = some digits) :
    interval.contains (digits * step) = true := by
  unfold nearestOnGrid at found
  cases below : interval.contains (interval.value / step * step) <;>
    cases above : interval.contains ((interval.value / step + 1) * step) <;>
    simp only [below, above] at found
  case false.false => simp at found
  case true.false =>
    cases found
    exact below
  case false.true =>
    cases found
    exact above
  case true.true =>
    split at found
    · cases found
      exact below
    · split at found
      · cases found
        exact above
      · split at found
        · cases found
          split
          · exact below
          · exact above
        · cases found
          exact above

/-- The search ends with a multiple of the small unit that is in the interval. -/
theorem exists_value_search (inside : interval.contains interval.value = true) (unit : Int)
    (places : Nat) : ∃ multiple : Nat, interval.contains multiple = true ∧
      (search tie interval unit places).value = multiple * 10 ^ unit := by
  induction places with
  | zero => exact ⟨interval.value, inside, rfl⟩
  | succ places ih =>
      rw [search]
      split
      · rename_i digits found
        refine ⟨digits * Nat.pow 10 (places + 1), contains_of_nearestOnGrid found, ?_⟩
        have exponent : (10 : ℚ) ^ (unit + ((places : ℤ) + 1)) = 10 ^ (places + 1) * 10 ^ unit := by
          rw [add_comm unit, zpow_add₀ (by norm_num), ← zpow_natCast, Nat.cast_add, Nat.cast_one]
        rw [value, exponent, Nat.pow_eq, Nat.cast_mul, Nat.cast_pow, Nat.cast_ofNat, mul_assoc]
      · exact ih

/-- A finite number is the one nearest to its shortest decimal. -/
theorem isNearest_value_shortest (tie : TieRule) {number : Binary64}
    (notNaN : number.isNaN = false) : number.IsNearest (shortest tie number).value := by
  unfold shortest
  split
  · rename_i zero
    refine Binary64.isNearest_of_between notNaN (by omega) ?_ ?_
    · rw [Binary64.sizeAt_succ, Binary64.size, Binary64.significand, zero, value]
      have unit : (0 : ℚ) < 2 ^ number.exponent := zpow_pos (by norm_num) _
      norm_num
      exact unit.le
    · intro odd
      exact absurd (by rw [zero]; exact Even.zero) odd
  · rename_i nonzero
    have positive : 0 < number.magnitude := Nat.pos_of_ne_zero nonzero
    rcases exists_value_search (contains_value positive) (unitExponent number)
      (greatestExponent - unitExponent number).toNat with ⟨multiple, inside, equal⟩
    rw [equal]
    exact isNearest_of_contains notNaN positive inside

/-- Only zero is written without a digit other than zero. -/
theorem exponent_eq_zero_of_digits {tie : TieRule} {number : Binary64}
    (notNaN : number.isNaN = false) (digits : (shortest tie number).digits = 0) :
    (shortest tie number).exponent = 0 := by
  have nearest := isNearest_value_shortest tie notNaN
  rw [value, digits, Nat.cast_zero, zero_mul] at nearest
  have zeroNearest : Binary64.zero.IsNearest (shortest tie Binary64.zero).value :=
    isNearest_value_shortest tie rfl
  have zeroDecimal : shortest tie Binary64.zero = ⟨0, 0⟩ := if_pos rfl
  rw [zeroDecimal, value, Nat.cast_zero, zero_mul] at zeroNearest
  have zero : number.magnitude = 0 := nearest.magnitude_eq zeroNearest
  rw [shortest, if_pos zero]

end Searching

end Decimal

end OwnerCoverage
