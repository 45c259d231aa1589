import OwnerCoverage.Proofs.Decimal.Layout
import OwnerCoverage.Proofs.Decimal.Rounding
import OwnerCoverage.Report

/-!
# The ratio of a summary

Both counts are rounded before they are divided, and the quotient is rounded once more. Rounding
keeps the order of its targets, so a bound on the exact quotient holds for the ratio as well if the
bound is a number itself. Such bounds keep the ratio between zero and one, away from zero as soon as
a file is covered, and away from one as long as a file is not, if the counts are rounded to
themselves (`CoverageSummary.ratio_honest`).
-/

namespace OwnerCoverage

open Binary64

namespace CoverageSummary

variable {covered total more : Nat}

section Ratios

theorem ratio_of_pos (positive : 0 < total) :
    (ofCounts covered total).ratio = (ofNat covered).divide (ofNat total) :=
  if_neg positive.ne'

theorem isNearest_ratio (positive : 0 < total) :
    (ofCounts covered total).ratio.IsNearest ((ofNat covered).size / (ofNat total).size) := by
  rw [ratio_of_pos positive]
  exact isNearest_divide _ (size_ofNat_pos positive)

theorem negative_ratio (covered total : Nat) : (ofCounts covered total).ratio.negative = false := by
  unfold ofCounts
  split <;> rfl

theorem value_ratio (covered total : Nat) :
    (ofCounts covered total).ratio.value = (ofCounts covered total).ratio.size :=
  value_eq_size (negative_ratio covered total)

theorem size_ratio_without_files (covered : Nat) : (ofCounts covered 0).ratio.size = 0 := by
  rw [size_eq_sizeAt]
  exact zero_mul _

/-- The ratio never falls as more files are covered. -/
theorem size_ratio_mono (le : covered ≤ more) :
    (ofCounts covered total).ratio.size ≤ (ofCounts more total).ratio.size := by
  rcases Nat.eq_zero_or_pos total with rfl | positive
  · rw [size_ratio_without_files, size_ratio_without_files]
  · have dividends := (isNearest_ofNat covered).mono (Nat.cast_le.2 le) (isNearest_ofNat more)
    exact (isNearest_ratio positive).mono
      (div_le_div_of_nonneg_right dividends (size_ofNat_pos positive).le) (isNearest_ratio positive)

theorem size_ratio_self (positive : 0 < total) : (ofCounts total total).ratio.size = 1 := by
  have nearest := @isNearest_ratio total total positive
  rw [div_self (size_ofNat_pos positive).ne'] at nearest
  exact nearest.size_eq (isNearest_ofNat 1).notNaN size_ofNat_one

theorem size_ratio_le_one (within : covered ≤ total) : (ofCounts covered total).ratio.size ≤ 1 := by
  rcases Nat.eq_zero_or_pos total with rfl | positive
  · rw [size_ratio_without_files]
    exact zero_le_one
  · exact (size_ratio_mono within).trans (size_ratio_self positive).le

theorem ratio_finite (within : covered ≤ total) :
    (ofCounts covered total).ratio.magnitude < infiniteMagnitude := by
  have atMost := size_ratio_le_one within
  rw [← size_ofNat_one, size_le_iff] at atMost
  exact atMost.trans_lt (by decide +kernel)

theorem size_ratio_without_covered (total : Nat) : (ofCounts 0 total).ratio.size = 0 := by
  rcases Nat.eq_zero_or_pos total with rfl | positive
  · exact size_ratio_without_files 0
  · have nearest := @isNearest_ratio 0 total positive
    have size : (ofNat 0).size = 0 := by
      rw [size_ofNat (by decide), Nat.cast_zero]
    rw [size, zero_div] at nearest
    exact nearest.size_eq (isNearest_ofNat 0).notNaN size

/-- The least quotient of counts below `2 ^ 64` is far from being rounded to zero. -/
theorem size_ratio_pos (positive : 0 < covered) (within : covered ≤ total)
    (bound : total < 2 ^ 64) : 0 < (ofCounts covered total).ratio.size := by
  -- Both bounds of the quotient are powers of two, which no rounding moves.
  have powers : (1 : ℕ) ≤ 2 ^ 53 := by decide
  rcases exists_size_eq (by decide : -1074 ≤ (64 : ℤ)) (by decide) powers with
    ⟨greatest, greatestNotNaN, greatestSize⟩
  rcases exists_size_eq (by decide : -1074 ≤ (-64 : ℤ)) (by decide) powers with
    ⟨least, leastNotNaN, leastSize⟩
  rw [Nat.cast_one, one_mul] at greatestSize leastSize
  have dividend : 1 ≤ (ofNat covered).size := by
    rw [← size_ofNat_one]
    exact (isNearest_ofNat 1).mono (Nat.cast_le.2 positive) (isNearest_ofNat covered)
  have divisor : (ofNat total).size ≤ 2 ^ (64 : ℤ) := by
    rw [← greatestSize]
    refine (isNearest_ofNat total).mono ?_ (isNearest_size greatestNotNaN)
    rw [greatestSize]
    exact_mod_cast bound.le
  have quotient : least.size ≤ (ofNat covered).size / (ofNat total).size := by
    rw [leastSize, zpow_neg, ← one_div]
    exact div_le_div₀ (by positivity) dividend (size_ofNat_pos (positive.trans_le within)) divisor
  have ratio := (isNearest_size leastNotNaN).mono quotient
    (isNearest_ratio (positive.trans_le within))
  rw [leastSize] at ratio
  exact (zpow_pos two_pos _).trans_le ratio

/-- If the counts are rounded to themselves, a quotient below one is at most the number before
one. -/
theorem size_ratio_lt_one (less : covered < total) (small : total ≤ 2 ^ 53) :
    (ofCounts covered total).ratio.size < 1 := by
  have positive : 0 < total := Nat.zero_lt_of_lt less
  rcases exists_size_eq (by decide : -1074 ≤ (-53 : ℤ)) (by decide)
    (by decide : 2 ^ 53 - 1 ≤ 2 ^ 53) with ⟨last, notNaN, size⟩
  have quotient : (ofNat covered).size / (ofNat total).size ≤ last.size := by
    rw [size_ofNat small, size_ofNat (less.le.trans small), size, zpow_neg, ← div_eq_mul_inv,
      div_le_div_iff₀ (Nat.cast_pos.2 positive) (by positivity)]
    have counts : covered * 2 ^ 53 ≤ (2 ^ 53 - 1) * total := by omega
    exact_mod_cast counts
  have ratio := (isNearest_ratio positive).mono quotient (isNearest_size notNaN)
  refine ratio.trans_lt ?_
  rw [size]
  norm_num

end Ratios

section Ends

theorem size_ratio_eq_zero_iff (within : covered ≤ total) (bound : total < 2 ^ 64) :
    (ofCounts covered total).ratio.size = 0 ↔ covered = 0 := by
  constructor
  · intro zero
    by_contra some
    exact (size_ratio_pos (Nat.pos_of_ne_zero some) within bound).ne' zero
  · rintro rfl
    exact size_ratio_without_covered total

theorem size_ratio_eq_one_iff (within : covered ≤ total) (positive : 0 < total)
    (small : total ≤ 2 ^ 53) : (ofCounts covered total).ratio.size = 1 ↔ covered = total := by
  constructor
  · intro one
    by_contra different
    exact (size_ratio_lt_one (within.lt_of_ne different) small).ne one
  · rintro rfl
    exact size_ratio_self positive

theorem write_ratio_eq_iff (format : NumberFormat) (within : covered ≤ total) :
    format.write (ofCounts covered total).ratio = format.write (ofNat 1) ↔
      (ofCounts covered total).ratio.size = 1 := by
  constructor
  · intro same
    have oneFinite : (ofNat 1).magnitude < infiniteMagnitude := by decide +kernel
    rw [Json.eq_of_write_eq (ratio_finite within) oneFinite same, size_ofNat_one]
  · intro one
    rw [← size_ofNat_one] at one
    rw [eq_of_size_eq (negative_ratio covered total) one]

/-- The ratio of counts, of which the covered files are not the greater one, is what three roundings
to the nearest number make of their quotient. It is a finite number from zero to one, is zero only
if no file is covered, and never falls as more files are covered. If there are files, but no more
than a significand counts, it is one only if all are covered, and neither form of a report shows one
otherwise. -/
theorem ratio_honest (within : covered ≤ total) (bound : total < 2 ^ 64) :
    (0 < total → ∃ dividend divisor : Binary64,
      dividend.IsNearest covered ∧ divisor.IsNearest total ∧
        (ofCounts covered total).ratio.IsNearest (dividend.size / divisor.size)) ∧
    (ofCounts covered total).ratio.isNaN = false ∧
    (ofCounts covered total).ratio.isInfinite = false ∧
    0 ≤ (ofCounts covered total).ratio.value ∧ (ofCounts covered total).ratio.value ≤ 1 ∧
    ((ofCounts covered total).ratio.value = 0 ↔ covered = 0) ∧
    (∀ more, covered ≤ more → more ≤ total →
      (ofCounts covered total).ratio.value ≤ (ofCounts more total).ratio.value) ∧
    (0 < total → total ≤ 2 ^ 53 →
      ((ofCounts covered total).ratio.value = 1 ↔ covered = total) ∧
      ∀ remoteUrl revision report,
        report = Report.ofSummary remoteUrl revision (ofCounts covered total) →
        (NumberFormat.record.write report.ratio = "1.0" ↔ report.covered = report.total) ∧
        (NumberFormat.plain.write report.ratio = "1" ↔ report.covered = report.total)) := by
  have finite := ratio_finite within
  have least : 0 ≤ (ofCounts covered total).ratio.size := by
    rw [← size_ratio_without_covered total]
    exact size_ratio_mono (Nat.zero_le covered)
  rw [value_ratio]
  refine ⟨?_, isNaN_eq_false_iff.2 finite.le, decide_eq_false finite.ne, least,
    size_ratio_le_one within, size_ratio_eq_zero_iff within bound, ?_, ?_⟩
  · intro positive
    exact ⟨ofNat covered, ofNat total, isNearest_ofNat covered, isNearest_ofNat total,
      isNearest_ratio positive⟩
  · intro more le _
    rw [value_ratio]
    exact size_ratio_mono le
  · intro positive small
    have one_iff := size_ratio_eq_one_iff within positive small
    have recordOne : NumberFormat.record.write (ofNat 1) = "1.0" := by decide +kernel
    have plainOne : NumberFormat.plain.write (ofNat 1) = "1" := by decide +kernel
    refine ⟨one_iff, ?_⟩
    rintro remoteUrl revision report rfl
    rw [← recordOne, ← plainOne]
    exact ⟨(write_ratio_eq_iff _ within).trans one_iff, (write_ratio_eq_iff _ within).trans one_iff⟩

/-- Of as many files as count exactly, all but one are covered. -/
theorem ratio_honest_all_but_one :
    2 ^ 53 - 1 ≤ 2 ^ 53 ∧ 2 ^ 53 < 2 ^ 64 ∧
    0 < (ofCounts (2 ^ 53 - 1) (2 ^ 53)).ratio.value ∧
    (ofCounts (2 ^ 53 - 1) (2 ^ 53)).ratio.value < 1 ∧
    NumberFormat.record.write (ofCounts (2 ^ 53 - 1) (2 ^ 53)).ratio = "0.9999999999999999" := by
  have within : 2 ^ 53 - 1 ≤ 2 ^ 53 := by decide
  have bound : 2 ^ 53 < 2 ^ 64 := by decide
  rcases ratio_honest within bound with
    ⟨_, _, _, notNegative, atMostOne, zero_iff, _, exactCounts⟩
  have one_iff := (exactCounts (by decide) le_rfl).1
  exact ⟨within, bound, notNegative.lt_of_ne' (mt zero_iff.1 (by decide)),
    atMostOne.lt_of_ne (mt one_iff.1 (by decide)), by decide +kernel⟩

-- Past the counts that are rounded to themselves, a file may be lost.
example : (ofCounts (2 ^ 53) (2 ^ 53 + 1)).ratio = ofNat 1 := by decide +kernel

end Ends

end CoverageSummary

end OwnerCoverage
