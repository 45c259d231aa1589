import Mathlib.Algebra.Order.Field.Basic
import Mathlib.Data.Rat.Cast.Order
import Mathlib.Tactic.Linarith
import Mathlib.Tactic.Ring
import OwnerCoverage.Decimal.Shortest

/-!
# The number nearest to a rational

The codes of magnitudes count up through the sizes of the numbers, and the step from a size to the
next one is the unit in the last place of the former. So a number is nearest to all that lies
between the middles of the steps on either side of it, and nearest to the middles themselves if its
code is even.
-/

namespace OwnerCoverage

namespace Binary64

/-- The size of a number. An infinite one counts as the power of two above all finite ones. -/
def size (number : Binary64) : ℚ := number.significand * 2 ^ number.exponent

/-- How far a number is from a target. -/
def distance (number : Binary64) (target : ℚ) : ℚ := |target - number.size|

/-- Whether no number is nearer to a target that is not negative, and the code is even if another
one is as near. The sign of the number does not count. -/
structure IsNearest (number : Binary64) (target : ℚ) : Prop where
  notNaN : number.isNaN = false
  nearest : ∀ other : Binary64, other.isNaN = false → other.magnitude ≠ number.magnitude →
    number.distance target < other.distance target ∨
      number.distance target = other.distance target ∧ Even number.magnitude

section Sizes

/-- The size that a magnitude code stands for, in units of the least positive number. -/
def unitsOf (code : Nat) : Nat :=
  if code < 2 ^ 52 then code else (2 ^ 52 + code % 2 ^ 52) * 2 ^ (code / 2 ^ 52 - 1)

theorem unitsOf_succ (code : Nat) :
    unitsOf (code + 1) = unitsOf code + 2 ^ (code / 2 ^ 52 - 1) := by
  unfold unitsOf
  by_cases subnormal : code < 2 ^ 52
  · have step : code / 2 ^ 52 - 1 = 0 := by omega
    rw [if_pos subnormal, step]
    by_cases last : code + 1 < 2 ^ 52
    · rw [if_pos last, pow_zero]
    · have first : code = 2 ^ 52 - 1 := by omega
      rw [if_neg last, first]
      norm_num
  · have normal : ¬code + 1 < 2 ^ 52 := by omega
    rw [if_neg subnormal, if_neg normal]
    by_cases carries : code % 2 ^ 52 = 2 ^ 52 - 1
    · have exponent : (code + 1) / 2 ^ 52 - 1 = code / 2 ^ 52 - 1 + 1 := by omega
      have fraction : (code + 1) % 2 ^ 52 = 0 := by omega
      rw [exponent, fraction, carries]
      ring
    · have exponent : (code + 1) / 2 ^ 52 = code / 2 ^ 52 := by omega
      have fraction : (code + 1) % 2 ^ 52 = code % 2 ^ 52 + 1 := by omega
      rw [exponent, fraction]
      ring

theorem unitsOf_strictMono : StrictMono unitsOf := by
  apply strictMono_nat_of_lt_succ
  intro code
  rw [unitsOf_succ]
  exact Nat.lt_add_of_pos_right (by positivity)

/-- The size that a magnitude code stands for. -/
def sizeAt (code : Nat) : ℚ := unitsOf code * 2 ^ (-1074 : ℤ)

theorem sizeAt_strictMono : StrictMono sizeAt := by
  intro code other before
  unfold sizeAt
  have fewer : (unitsOf code : ℚ) < unitsOf other := by exact_mod_cast unitsOf_strictMono before
  exact mul_lt_mul_of_pos_right fewer (zpow_pos (by norm_num) _)

variable (number : Binary64)

/-- The unit in the last place doubles with each step of the exponent field, the first two apart. -/
theorem two_zpow_exponent :
    (2 : ℚ) ^ number.exponent = 2 ^ (number.magnitude / 2 ^ 52 - 1) * 2 ^ (-1074 : ℤ) := by
  have split : number.exponent = ((number.magnitude / 2 ^ 52 - 1 : Nat) : ℤ) + -1074 := by
    unfold exponent
    rw [Nat.pow_eq]
    split <;> omega
  rw [split, zpow_add₀ (by norm_num), zpow_natCast]

theorem size_eq_sizeAt : number.size = sizeAt number.magnitude := by
  have units : unitsOf number.magnitude =
      number.significand * 2 ^ (number.magnitude / 2 ^ 52 - 1) := by
    unfold unitsOf significand
    simp only [Nat.pow_eq]
    split
    · have step : number.magnitude / 2 ^ 52 - 1 = 0 := by omega
      rw [step, pow_zero, mul_one]
    · rfl
  rw [size, sizeAt, units, two_zpow_exponent, Nat.cast_mul, Nat.cast_pow, Nat.cast_ofNat, mul_assoc]

/-- The unit in the last place is the distance to the next size above. -/
theorem sizeAt_succ : sizeAt (number.magnitude + 1) = number.size + 2 ^ number.exponent := by
  rw [size_eq_sizeAt, two_zpow_exponent, sizeAt, sizeAt, unitsOf_succ, Nat.cast_add, add_mul,
    Nat.cast_pow, Nat.cast_ofNat]

/-- The distance to the next size below is half a unit at the powers of two above the subnormal
numbers, and a unit elsewhere. -/
theorem sizeAt_pred (positive : 0 < number.magnitude) :
    sizeAt (number.magnitude - 1) =
      number.size -
        if number.isNarrowBelow then 2 ^ number.exponent / 2 else 2 ^ number.exponent := by
  have next := unitsOf_succ (number.magnitude - 1)
  rw [Nat.sub_add_cancel positive] at next
  have below : sizeAt (number.magnitude - 1) =
      number.size - 2 ^ ((number.magnitude - 1) / 2 ^ 52 - 1) * 2 ^ (-1074 : ℤ) := by
    rw [size_eq_sizeAt, sizeAt, sizeAt, next, Nat.cast_add, add_mul, Nat.cast_pow, Nat.cast_ofNat,
      add_sub_cancel_right]
  rw [below, two_zpow_exponent]
  congr 1
  have narrow_iff : number.isNarrowBelow = true ↔
      2 ^ 53 ≤ number.magnitude ∧ number.magnitude % 2 ^ 52 = 0 := by
    rw [isNarrowBelow, Bool.and_eq_true, decide_eq_true_eq, beq_iff_eq]
    rfl
  split <;> rename_i narrow <;> rw [narrow_iff] at narrow
  · have step : number.magnitude / 2 ^ 52 - 1 = (number.magnitude - 1) / 2 ^ 52 - 1 + 1 := by omega
    have double : (2 : ℚ) ^ (number.magnitude / 2 ^ 52 - 1) =
        2 * 2 ^ ((number.magnitude - 1) / 2 ^ 52 - 1) := by
      rw [step]
      exact pow_succ' _ _
    rw [double, mul_assoc, mul_div_cancel_left₀ _ two_ne_zero]
  · have step : number.magnitude / 2 ^ 52 - 1 = (number.magnitude - 1) / 2 ^ 52 - 1 := by omega
    rw [step]

end Sizes

section Nearest

variable {number other : Binary64} {target : ℚ}

theorem isNaN_eq_false_iff : number.isNaN = false ↔ number.magnitude ≤ infiniteMagnitude := by
  rw [isNaN, decide_eq_false_iff_not, Nat.not_lt]

/-- A number is nearest to a target up to which the sizes next to it are not nearer. -/
theorem isNearest_of_between (notNaN : number.isNaN = false)
    (below : 0 < number.magnitude → sizeAt (number.magnitude - 1) + number.size ≤ 2 * target)
    (above : 2 * target ≤ number.size + sizeAt (number.magnitude + 1))
    (strict : ¬Even number.magnitude →
      sizeAt (number.magnitude - 1) + number.size < 2 * target ∧
        2 * target < number.size + sizeAt (number.magnitude + 1)) :
    number.IsNearest target := by
  have decided {distance : ℚ} (atMost : |target - number.size| ≤ distance)
      (less : ¬Even number.magnitude → |target - number.size| < distance) :
      |target - number.size| < distance ∨
        |target - number.size| = distance ∧ Even number.magnitude := by
    by_cases even : Even number.magnitude
    · exact atMost.lt_or_eq.imp_right fun same => ⟨same, even⟩
    · exact .inl (less even)
  refine ⟨notNaN, ?_⟩
  intro other _ different
  unfold distance
  rw [size_eq_sizeAt other]
  rcases Nat.lt_or_gt_of_ne different with less | greater
  · have atMost : sizeAt other.magnitude ≤ sizeAt (number.magnitude - 1) :=
      sizeAt_strictMono.monotone (by omega)
    have smaller : sizeAt other.magnitude < number.size := by
      rw [size_eq_sizeAt number]
      exact sizeAt_strictMono less
    have notBelow := below (by omega)
    rw [abs_of_pos (by linarith : 0 < target - sizeAt other.magnitude)]
    refine decided (abs_le.2 ⟨by linarith, by linarith⟩) ?_
    intro odd
    have notMiddle := (strict odd).1
    exact abs_lt.2 ⟨by linarith, by linarith⟩
  · have atLeast : sizeAt (number.magnitude + 1) ≤ sizeAt other.magnitude :=
      sizeAt_strictMono.monotone (by omega)
    have greaterSize : number.size < sizeAt other.magnitude := by
      rw [size_eq_sizeAt number]
      exact sizeAt_strictMono greater
    rw [abs_of_neg (by linarith : target - sizeAt other.magnitude < 0)]
    refine decided (abs_le.2 ⟨by linarith, by linarith⟩) ?_
    intro odd
    have notMiddle := (strict odd).2
    exact abs_lt.2 ⟨by linarith, by linarith⟩

/-- A number between two that are equally near is nearer than these. -/
theorem exists_nearer (apart : number.magnitude + 1 < other.magnitude)
    (notNaN : other.isNaN = false) (same : number.distance target = other.distance target) :
    ∃ between : Binary64, between.isNaN = false ∧ between.magnitude ≠ number.magnitude ∧
      between.distance target < number.distance target := by
  have bound := isNaN_eq_false_iff.1 notNaN
  let between : Binary64 := ⟨false, number.magnitude + 1, apart.trans other.magnitude_lt⟩
  have isNumber : between.isNaN = false :=
    isNaN_eq_false_iff.2 (show number.magnitude + 1 ≤ infiniteMagnitude by omega)
  have above : number.size < between.size := by
    rw [size_eq_sizeAt, size_eq_sizeAt]
    exact sizeAt_strictMono (Nat.lt_succ_self _)
  have below : between.size < other.size := by
    rw [size_eq_sizeAt, size_eq_sizeAt]
    exact sizeAt_strictMono apart
  refine ⟨between, isNumber, Nat.succ_ne_self _, ?_⟩
  unfold distance at same ⊢
  -- The two sizes differ, so equal distances put the target in their middle.
  have middle : 2 * target = number.size + other.size := by
    rcases abs_eq_abs.1 same with equal | equal <;> linarith
  rw [abs_of_pos (by linarith : 0 < target - number.size)]
  exact abs_lt.2 ⟨by linarith, by linarith⟩

/-- Two different numbers that are nearest are equally near and have even codes. -/
theorem IsNearest.tie (nearest : number.IsNearest target) (otherNearest : other.IsNearest target)
    (different : other.magnitude ≠ number.magnitude) :
    number.distance target = other.distance target ∧ Even number.magnitude ∧
      Even other.magnitude := by
  rcases nearest.nearest other otherNearest.notNaN different with nearer | ⟨same, even⟩
  · rcases otherNearest.nearest number nearest.notNaN different.symm with farther | ⟨same, _⟩
    · exact absurd nearer (not_lt_of_gt farther)
    · exact absurd same.symm nearer.ne
  · rcases otherNearest.nearest number nearest.notNaN different.symm with farther | ⟨_, otherEven⟩
    · exact absurd same farther.ne'
    · exact ⟨same, even, otherEven⟩

theorem IsNearest.magnitude_le (nearest : number.IsNearest target)
    (otherNearest : other.IsNearest target) : other.magnitude ≤ number.magnitude := by
  by_contra less
  rw [Nat.not_le] at less
  rcases nearest.tie otherNearest less.ne' with ⟨same, even, otherEven⟩
  have apart : number.magnitude + 1 < other.magnitude := by
    rcases even with ⟨half, equal⟩
    rcases otherEven with ⟨otherHalf, otherEqual⟩
    omega
  rcases exists_nearer apart otherNearest.notNaN same with ⟨between, isNumber, different, nearer⟩
  rcases nearest.nearest between isNumber different with farther | ⟨equal, _⟩
  · exact absurd nearer (not_lt_of_gt farther)
  · exact absurd equal nearer.ne'

theorem IsNearest.magnitude_eq (nearest : number.IsNearest target)
    (otherNearest : other.IsNearest target) : number.magnitude = other.magnitude :=
  Nat.le_antisymm (otherNearest.magnitude_le nearest) (nearest.magnitude_le otherNearest)

end Nearest

end Binary64

end OwnerCoverage
