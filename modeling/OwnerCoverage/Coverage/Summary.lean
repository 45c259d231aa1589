import OwnerCoverage.Decimal.Layout
import OwnerCoverage.Text.Record

/-!
# Coverage summaries

How many files count, how many of them have an owner, and the ratio of the two. Without files the
ratio is zero.
-/

namespace OwnerCoverage

/-- Numbers of records: positional from the fifth decimal place up to sixteen digits, with a point
in whole numbers, ties to the even digit, and `null` for what is no finite number. -/
def NumberFormat.record : NumberFormat where
  positional := some (-5, 15)
  showsWhole := true
  tie := .toEven
  notANumber := "null"
  infinity := "null"
  negativeInfinity := "null"

/-- Numbers of plain texts: always positional, without a point in whole numbers, ties upward. -/
def NumberFormat.plain : NumberFormat where
  positional := none
  showsWhole := false
  tie := .upward
  notANumber := "NaN"
  infinity := "inf"
  negativeInfinity := "-inf"

/-- How many paths there are, how many of them have an owner, and the ratio of the two. -/
structure CoverageSummary where
  total : Nat
  covered : Nat
  ratio : Binary64
deriving DecidableEq, Repr

namespace CoverageSummary

/-- The summary of two counts. Both are rounded to a number before they are divided. -/
def ofCounts (covered total : Nat) : CoverageSummary where
  total := total
  covered := covered
  ratio :=
    if total = 0 then Binary64.zero
    else (Binary64.ofNat covered).divide (Binary64.ofNat total)

/-- The counts as one line of JSON. -/
def record (summary : CoverageSummary) : String :=
  Text.record [("total_files", toString summary.total),
    ("covered_files", toString summary.covered),
    ("ratio", NumberFormat.record.write summary.ratio)]

end CoverageSummary

end OwnerCoverage
