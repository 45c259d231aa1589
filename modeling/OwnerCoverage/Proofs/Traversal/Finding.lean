import OwnerCoverage.Traversal

/-!
# Findings

What a file system answers about a node decides, together with the verdict of the visitor, all that
a traversal does with it. `visitNode_eq` says so once, and all proofs about runs go through it.
Visitors that differ only in what they keep track of go the same way, as `visitStack_project` says.
-/

namespace OwnerCoverage

/-- What a traversal finds at a node, before any visitor is asked. -/
inductive Finding where
  /-- A node whose stat fails. -/
  | unknown (error : IoError)
  | leaf (kind : NodeKind)
  /-- A directory below the first node that is passed over because of its name. -/
  | skipped
  /-- A directory whose listing fails. -/
  | unlisted (error : IoError)
  | directory (children : List Entry)
deriving DecidableEq, Repr

namespace Finding

/-- The visit that is made at a node. A skipped directory is not visited. -/
def visit? (path : String) : Finding → Option Visit
  | .unknown error => some ⟨path, none, some error⟩
  | .leaf kind => some ⟨path, some kind, none⟩
  | .skipped => none
  | .unlisted error => some ⟨path, some .directory, some error⟩
  | .directory _ => some ⟨path, some .directory, none⟩

/-- The error that a verdict on a node ends the traversal with. A failed stat is fatal unless the
visitor prunes a node below the first. -/
def fatal? (node : PendingNode) : Finding → Verdict → Option TraversalError
  | .unknown error, verdict =>
      if 0 < node.depth ∧ verdict = .prune then none else some (.stat node.path error)
  | .leaf _, .stop => some (.stopped node.path)
  | .unlisted error, .stop => some (.list node.path error)
  | .directory _, .stop => some (.stopped node.path)
  | _, _ => none

/-- The children that a verdict on a node goes on with, in the order of the listing. -/
def below : Finding → Verdict → List Entry
  | .directory children, .descend => children
  | _, _ => []

end Finding

namespace Traversal

variable {σ τ : Type}

/-- What the file system answers about a node: its stat, and for a directory that is entered also
its listing. -/
def finding (traversal : Traversal) (node : PendingNode) : Finding :=
  match traversal.fileSystem.stat node.path with
  | .error error => .unknown error
  | .ok entry =>
      if entry.kind ≠ .directory then .leaf entry.kind
      else if 0 < node.depth ∧ entry.name ∈ traversal.skippedNames then .skipped
      else
        match traversal.fileSystem.list node.path with
        | .error error => .unlisted error
        | .ok children => .directory children

/-- What the answers of a file system about a node amount to. -/
inductive Finds (traversal : Traversal) (node : PendingNode) : Finding → Prop
  | unknown {error : IoError} (stat : traversal.fileSystem.stat node.path = .error error) :
      Finds traversal node (.unknown error)
  | leaf {entry : Entry} (stat : traversal.fileSystem.stat node.path = .ok entry)
      (leaf : entry.kind ≠ .directory) : Finds traversal node (.leaf entry.kind)
  | skipped {entry : Entry} (stat : traversal.fileSystem.stat node.path = .ok entry)
      (directory : entry.kind = .directory) (deep : 0 < node.depth)
      (skip : entry.name ∈ traversal.skippedNames) : Finds traversal node .skipped
  | unlisted {entry : Entry} {error : IoError}
      (stat : traversal.fileSystem.stat node.path = .ok entry) (directory : entry.kind = .directory)
      (entered : node.depth = 0 ∨ entry.name ∉ traversal.skippedNames)
      (list : traversal.fileSystem.list node.path = .error error) :
      Finds traversal node (.unlisted error)
  | directory {entry : Entry} {children : List Entry}
      (stat : traversal.fileSystem.stat node.path = .ok entry) (directory : entry.kind = .directory)
      (entered : node.depth = 0 ∨ entry.name ∉ traversal.skippedNames)
      (list : traversal.fileSystem.list node.path = .ok children) :
      Finds traversal node (.directory children)

theorem not_skipped_iff {traversal : Traversal} {node : PendingNode} {entry : Entry} :
    ¬(0 < node.depth ∧ entry.name ∈ traversal.skippedNames) ↔
      node.depth = 0 ∨ entry.name ∉ traversal.skippedNames := by
  rw [Decidable.not_and_iff_or_not, Nat.pos_iff_ne_zero, Decidable.not_not]

theorem finds_iff {traversal : Traversal} {node : PendingNode} {found : Finding} :
    Finds traversal node found ↔ traversal.finding node = found := by
  constructor
  · intro finds
    cases finds with
    | unknown stat => simp [finding, stat]
    | leaf stat leaf => simp [finding, stat, leaf]
    | skipped stat directory deep skip => simp [finding, stat, directory, deep, skip]
    | unlisted stat directory entered list =>
        simp [finding, stat, directory, not_skipped_iff.2 entered, list]
    | directory stat directory entered list =>
        simp [finding, stat, directory, not_skipped_iff.2 entered, list]
  · rintro rfl
    cases stat : traversal.fileSystem.stat node.path with
    | error error =>
        have found : traversal.finding node = .unknown error := by simp [finding, stat]
        exact found ▸ .unknown stat
    | ok entry =>
        by_cases directory : entry.kind = .directory
        · by_cases skip : 0 < node.depth ∧ entry.name ∈ traversal.skippedNames
          · have found : traversal.finding node = .skipped := by
              simp [finding, stat, directory, skip]
            exact found ▸ .skipped stat directory skip.1 skip.2
          · cases list : traversal.fileSystem.list node.path with
            | error error =>
                have found : traversal.finding node = .unlisted error := by
                  simp [finding, stat, directory, skip, list]
                exact found ▸ .unlisted stat directory (not_skipped_iff.1 skip) list
            | ok children =>
                have found : traversal.finding node = .directory children := by
                  simp [finding, stat, directory, skip, list]
                exact found ▸ .directory stat directory (not_skipped_iff.1 skip) list
        · have found : traversal.finding node = .leaf entry.kind := by
            simp [finding, stat, directory]
          exact found ▸ .leaf stat directory

/-- What is found at a node depends on the stat of it, and on its listing if it is a directory. -/
theorem finding_eq_of_answers {first second : Traversal} {node : PendingNode}
    (stat : second.fileSystem.stat node.path = first.fileSystem.stat node.path)
    (list : ∀ entry, first.fileSystem.stat node.path = .ok entry → entry.kind = .directory →
      second.fileSystem.list node.path = first.fileSystem.list node.path)
    (skipped : second.skippedNames = first.skippedNames) :
    second.finding node = first.finding node := by
  rw [finding, finding, stat, skipped]
  cases answer : first.fileSystem.stat node.path with
  | error error => rfl
  | ok entry =>
      by_cases directory : entry.kind = .directory
      · simp only [list entry answer directory]
      · simp only [if_pos directory]

/-- What comes after a part of a run, unless the part fails. -/
def andThen (result : Except TraversalError Unit) (state : τ)
    (next : τ → Except TraversalError Unit × τ) : Except TraversalError Unit × τ :=
  match result with
  | .error error => (.error error, state)
  | .ok _ => next state

section Steps

variable (traversal : Traversal) (visitor : Visitor σ) (node : PendingNode) (state : σ)

theorem visitNode_of_entered {traversal : Traversal} {visitor : Visitor σ} {node : PendingNode}
    {state : σ} {entry : Entry} (stat : traversal.fileSystem.stat node.path = .ok entry)
    (directory : entry.kind = .directory)
    (entered : node.depth = 0 ∨ entry.name ∉ traversal.skippedNames) :
    traversal.visitNode visitor node state = traversal.visitDirectory visitor node state := by
  simp [visitNode, stat, Entry.isDirectory, directory, skips, not_skipped_iff.2 entered]

/-- One step of a traversal, by what it finds: without a visit nothing comes of the node, and
otherwise the visitor's verdict decides between an error and the children that come next. -/
theorem visitNode_eq : traversal.visitNode visitor node state =
    match (traversal.finding node).visit? node.path with
    | none => (.ok [], state)
    | some visit =>
        match visitor visit state with
        | (verdict, after) =>
            match (traversal.finding node).fatal? node verdict with
            | some error => (.error error, after)
            | none => (.ok (traversal.pendingChildren node
                ((traversal.finding node).below verdict)), after) := by
  generalize found : traversal.finding node = finding
  cases finds_iff.2 found with
  | unknown stat =>
      simp only [visitNode, stat, visitUnknown, Finding.visit?, Finding.fatal?, Finding.below]
      rcases visitor ⟨node.path, none, some _⟩ state with ⟨_ | _ | _, after⟩ <;>
        by_cases deep : 0 < node.depth <;> simp [deep, pendingChildren]
  | @leaf entry stat leaf =>
      have isLeaf : entry.isDirectory = false := by simp [Entry.isDirectory, leaf]
      simp only [visitNode, stat, isLeaf, visitLeaf, Finding.visit?]
      rcases visitor ⟨node.path, some entry.kind, none⟩ state with ⟨_ | _ | _, after⟩ <;> rfl
  | skipped stat directory deep skip =>
      simp [visitNode, stat, Entry.isDirectory, directory, skips, deep, skip, Finding.visit?]
  | @unlisted entry error stat directory entered list =>
      rw [visitNode_of_entered stat directory entered]
      simp only [visitDirectory, list, Finding.visit?]
      rcases visitor ⟨node.path, some .directory, some error⟩ state with ⟨_ | _ | _, after⟩ <;> rfl
  | @directory entry children stat directory entered list =>
      rw [visitNode_of_entered stat directory entered]
      simp only [visitDirectory, list, Finding.visit?]
      rcases visitor ⟨node.path, some .directory, none⟩ state with ⟨_ | _ | _, after⟩ <;> rfl

end Steps

section Projections

variable {traversal : Traversal} {visitor : Visitor σ} {other : Visitor τ} {project : σ → τ}

/-- A visitor that sees a part of another's state, and answers the same, goes the same way. -/
theorem visitNode_project
    (agrees : ∀ visit state,
      other visit (project state) = ((visitor visit state).1, project (visitor visit state).2))
    (node : PendingNode) (state : σ) :
    traversal.visitNode other node (project state) =
      ((traversal.visitNode visitor node state).1,
        project (traversal.visitNode visitor node state).2) := by
  rw [visitNode_eq, visitNode_eq]
  cases (traversal.finding node).visit? node.path with
  | none => rfl
  | some visit =>
      simp only [agrees]
      cases (traversal.finding node).fatal? node (visitor visit state).1 <;> rfl

theorem visitStack_project
    (agrees : ∀ visit state,
      other visit (project state) = ((visitor visit state).1, project (visitor visit state).2))
    (limit left : Nat) (nodes : List PendingNode) (state : σ) :
    traversal.visitStack other limit left nodes (project state) =
      ((traversal.visitStack visitor limit left nodes state).1,
        project (traversal.visitStack visitor limit left nodes state).2) := by
  induction left generalizing nodes state with
  | zero => cases nodes <;> simp [visitStack]
  | succ left ih =>
      cases nodes with
      | nil => simp [visitStack]
      | cons node stack =>
          rw [visitStack, visitStack, visitNode_project agrees]
          rcases traversal.visitNode visitor node state with ⟨error | children, after⟩
          · rfl
          · exact ih (children ++ stack) after

end Projections

end Traversal

end OwnerCoverage
