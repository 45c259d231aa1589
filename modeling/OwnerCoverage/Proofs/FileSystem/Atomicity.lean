import OwnerCoverage.Proofs.FileSystem.Catalog

/-!
# Operations that fail

The directories above a new directory or file are made one by one, and none of them is taken back
when a later step fails. Still no operation that fails leaves anything behind: a step fails only
where something is in the way, and nothing stands below a directory that was just made. The catalog
of the tree tells so, since it refuses an operation before any step of it is made.

So the operations that fail can be dropped from a history, wherever they stand in it.
-/

namespace OwnerCoverage

namespace MemoryTree

variable {tree : MemoryTree}

theorem after_of_outcome_eq_error (wellFormed : tree.WellFormed) {operation : Operation}
    {error : IoError} (failed : tree.outcome operation = .error error) :
    tree.after operation = tree := by
  have refuses := (outcome_eq_error_iff wellFormed operation).1 ⟨error, failed⟩
  exact (perform_of_refuses wellFormed refuses).2

/-- The operations of a history that succeed, each of them on the tree that is there at its turn. -/
def succeeding (tree : MemoryTree) : List Operation → List Operation
  | [] => []
  | operation :: rest =>
      match tree.outcome operation with
      | .error _ => (tree.after operation).succeeding rest
      | .ok () => operation :: (tree.after operation).succeeding rest

theorem foldl_after_succeeding (wellFormed : tree.WellFormed) (operations : List Operation) :
    (tree.succeeding operations).foldl after tree = operations.foldl after tree := by
  induction operations generalizing tree with
  | nil => rfl
  | cons operation operations ih =>
      rw [succeeding, List.foldl_cons, ← ih (wellFormed.after operation)]
      cases outcome : tree.outcome operation with
      | error error => rw [after_of_outcome_eq_error wellFormed outcome]
      | ok => rfl

/-- On any tree that operations leave behind, creating a directory or writing a file that fails
keeps all of the tree. Moreover the tree is the one that the operations that succeeded leave. -/
theorem failure_leaves_no_trace (operations : List Operation) :
    (∀ path error changed,
      (ofOperations operations).createDirectory path = (.error error, changed) →
        changed = ofOperations operations) ∧
    (∀ path text error changed,
      (ofOperations operations).writeFile path text = (.error error, changed) →
        changed = ofOperations operations) ∧
    ofOperations (empty.succeeding operations) = ofOperations operations := by
  have wellFormed := wellFormed_ofOperations operations
  refine ⟨?_, ?_, foldl_after_succeeding wellFormed_empty operations⟩
  · intro path error changed failed
    have unmade : (ofOperations operations).outcome (.createDirectory path) = .error error := by
      rw [outcome, failed]
    have same := after_of_outcome_eq_error wellFormed unmade
    rwa [after, failed] at same
  · intro path text error changed failed
    have unwritten : (ofOperations operations).outcome (.writeFile path text) = .error error := by
      rw [outcome, failed]
    have same := after_of_outcome_eq_error wellFormed unwritten
    rwa [after, failed] at same

/-- With a file in the way no directory is created below it, and no file is written in place of a
directory. -/
theorem failure_leaves_no_trace_around_file :
    ∃ noDirectory noFile changed other,
      (ofOperations [.writeFile "a/b" "x"]).createDirectory "a/b/c/d" =
        (.error noDirectory, changed) ∧
      (ofOperations [.writeFile "a/b" "x"]).writeFile "/a" "y" = (.error noFile, other) ∧
      changed = ofOperations [.writeFile "a/b" "x"] ∧
      other = ofOperations [.writeFile "a/b" "x"] := by
  have unmade : (ofOperations [.writeFile "a/b" "x"]).createDirectory "a/b/c/d" =
      (.error (notADirectory "b"), ofOperations [.writeFile "a/b" "x"]) := by
    decide +kernel
  have unwritten : (ofOperations [.writeFile "a/b" "x"]).writeFile "/a" "y" =
      (.error (isADirectory "/a"), ofOperations [.writeFile "a/b" "x"]) := by
    decide +kernel
  rcases failure_leaves_no_trace [.writeFile "a/b" "x"] with ⟨directories, files, _⟩
  exact ⟨_, _, _, _, unmade, unwritten, directories _ _ _ unmade, files _ _ _ _ unwritten⟩

end MemoryTree

end OwnerCoverage
