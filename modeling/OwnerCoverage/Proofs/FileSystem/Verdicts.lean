import OwnerCoverage.Proofs.FileSystem.Walk
import OwnerCoverage.Proofs.Traversal.Pruning

/-!
# Verdicts on trees in memory

On a tree in memory whose stats do not fail, what a visitor prunes or stops at by its path takes
away only what it names from the visits that are made otherwise (`visits_under_verdicts`). Listings
may fail: pruning at a directory without a listing changes nothing, and stopping there ends the
traversal with the error of the listing.
-/

namespace OwnerCoverage

namespace MemoryTree

open Traversal (signalling prunesAt stopsAt)

variable {operations : List Operation}

/-- Whatever is made and whichever listings are made to fail, a traversal that always goes on makes
some visits and ends without an error. If it prunes marked paths instead, it ends without an error
and makes those of the visits that have no marked path above them, in the same order. If it stops at
the path of a visit, it makes the visits up to that one, and ends with the error of its listing if
there is one. -/
theorem visits_under_verdicts (answered : ∀ path, .failStat path ∉ operations)
    (skipped : List String) :
    ∃ visits, ∀ limit, (ofOperations operations).fileSystem.visitLimit ≤ limit →
      ((ofOperations operations).traversal skipped).runWithin limit
          (signalling fun _ => .descend) [] = (.ok (), visits) ∧
      (∀ marked : String → Bool,
        ((ofOperations operations).traversal skipped).runWithin limit
            (signalling (prunesAt marked)) [] =
          (.ok (), visits.filter fun visit => !(Path.ancestors visit.path).any marked)) ∧
      ∀ before visit after, visits = before ++ visit :: after →
        ((ofOperations operations).traversal skipped).runWithin limit
            (signalling (stopsAt visit.path)) [] =
          (.error (match visit.error with
            | none => .stopped visit.path
            | some error => .list visit.path error), before ++ [visit]) := by
  have wellFormed := wellFormed_ofOperations operations
  have noFailingStat : (ofOperations operations).catalog.failingStats = ∅ := by
    rw [catalog_ofOperations]
    exact Catalog.failingStats_ofOperations answered
  refine @Chart.exists_visits ((ofOperations operations).traversal skipped) _ wellFormed.follows
    wellFormed.grounded wellFormed.withinLimit wellFormed.chart_root rfl ?_
  intro names stands
  apply wellFormed.answers.exists_stat noFailingStat
  rw [Path.names_ofNames (wellFormed.grounded.listed stands)]
  exact stands

/-- A directory in another one, a directory without a listing, and one that is passed over. -/
def sampleUnlisted : List Operation :=
  [.writeFile "a/b/c" "", .writeFile "a/d" "", .writeFile "e/f/g" "", .writeFile ".git/h" "",
    .failList "e/f"]

theorem visits_under_verdicts_sample :
    (∀ path, .failStat path ∉ sampleUnlisted) ∧
    ∃ visits, visits.map Visit.path = [".", "a", "a/b", "a/b/c", "a/d", "e", "e/f"] ∧
      ((ofOperations sampleUnlisted).traversal [".git"]).run
          (signalling (prunesAt fun path => ["a/b", "a/d", "a/b/c", "e/f"].contains path)) [] =
        (.ok (), visits.filter fun visit => visit.path != "a/b/c") ∧
      ((ofOperations sampleUnlisted).traversal [".git"]).run (signalling (stopsAt "e/f")) [] =
        (.error (.list "e/f" (denied "e/f")), visits) := by
  have answered : ∀ path, .failStat path ∉ sampleUnlisted := by simp [sampleUnlisted]
  rcases visits_under_verdicts answered [".git"] with ⟨visits, run⟩
  rcases run _ le_rfl with ⟨all, prunes, stops⟩
  refine ⟨answered, visits, ?_⟩
  have computed : ((ofOperations sampleUnlisted).traversal [".git"]).runWithin
      (ofOperations sampleUnlisted).fileSystem.visitLimit (signalling fun _ => .descend) [] =
      (.ok (), [⟨".", some .directory, none⟩, ⟨"a", some .directory, none⟩,
        ⟨"a/b", some .directory, none⟩, ⟨"a/b/c", some .file, none⟩, ⟨"a/d", some .file, none⟩,
        ⟨"e", some .directory, none⟩, ⟨"e/f", some .directory, some (denied "e/f")⟩]) := by
    decide +kernel
  rw [computed, Prod.mk.injEq] at all
  rcases all with ⟨_, rfl⟩
  refine ⟨rfl, ?_, ?_⟩
  · apply (prunes _).trans
    decide +kernel
  · exact stops [_, _, _, _, _, _] _ [] rfl

end MemoryTree

end OwnerCoverage
