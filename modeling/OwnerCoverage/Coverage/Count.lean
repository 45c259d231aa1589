import OwnerCoverage.Coverage.Summary
import OwnerCoverage.Rules.Table
import OwnerCoverage.Traversal

/-!
# Counting covered files

A traversal asks of every node that is no directory whether it is excluded, counts it if it is not,
and counts it as covered if the table names an owner. A node that cannot be seen would falsify the
counts, so the first failed stat or listing ends the counting with its error.
-/

namespace OwnerCoverage

/-- A test that may remember what it was asked. -/
abbrev ExclusionTest (τ : Type) := String → τ → Bool × τ

/-- What has been counted so far, and the state of the exclusion test. -/
structure Tally (τ : Type) where
  total : Nat
  covered : Nat
  test : τ
deriving DecidableEq, Repr

namespace Tally

variable {τ : Type}

/-- Counts one more path, as covered if it has an owner. -/
def count (tally : Tally τ) (table : RuleTable) (path : String) : Tally τ :=
  { tally with
    total := tally.total + 1
    covered := if (table.owners path).isEmpty then tally.covered else tally.covered + 1 }

/-- Counts each node that is no directory, unless its stat failed or it is left out. A directory
that cannot be listed ends the count. -/
def visitor (table : RuleTable) (excluded : ExclusionTest τ) : Visitor (Tally τ) :=
  fun visit tally =>
    if visit.isDirectory && visit.error.isSome then (.stop, tally)
    else if visit.error.isSome || visit.isDirectory then (.descend, tally)
    else
      match excluded visit.path tally.test with
      | (true, test) => (.descend, { tally with test := test })
      | (false, test) => (.descend, { tally with test := test }.count table visit.path)

def summary (tally : Tally τ) : CoverageSummary :=
  CoverageSummary.ofCounts tally.covered tally.total

end Tally

/-- Counts the files that a traversal reaches, and gives the last state of the exclusion test. -/
def Traversal.coverageWith {τ : Type} (traversal : Traversal) (table : RuleTable)
    (excluded : ExclusionTest τ) (test : τ) :
    Except TraversalError CoverageSummary × τ :=
  match traversal.run (Tally.visitor table excluded) ⟨0, 0, test⟩ with
  | (.error error, tally) => (.error error, tally.test)
  | (.ok _, tally) => (.ok tally.summary, tally.test)

/-- Counts the files that a traversal reaches and a predicate does not exclude. -/
def Traversal.coverage (traversal : Traversal) (table : RuleTable) (excluded : String → Bool) :
    Except TraversalError CoverageSummary :=
  (traversal.coverageWith table (fun path test => (excluded path, test)) ()).1

end OwnerCoverage
