import OwnerCoverage.Proofs.Traversal.Finding

/-!
# Outlines

The outline of a traversal is the pre-order list of all nodes that it can reach, each with what is
found there. It depends on the file system and on the skipped names only. Where it is finite, a
visitor that never prunes sees its entries one after another, up to the first one that ends the
traversal (`visitStack_of_outline`). A node is in the outline exactly if it is reached from the
start through directories that are not passed over (`mem_outline_iff`).
-/

namespace OwnerCoverage

/-- The entries below a node, if they are found. -/
def Finding.children : Finding → List Entry
  | .directory children => children
  | _ => []

/-- The error that a finding is, if no visitor passes it over. -/
def Finding.failure? (node : PendingNode) : Finding → Option TraversalError
  | .unknown error => some (.stat node.path error)
  | .unlisted error => some (.list node.path error)
  | _ => none

namespace Traversal

variable {σ : Type}

/-- The nodes that are reached from some nodes in pre-order, each with what is found there. -/
inductive Outline (traversal : Traversal) :
    List PendingNode → List (PendingNode × Finding) → Prop
  | nil : Outline traversal [] []
  | cons {node : PendingNode} {siblings : List PendingNode}
      {inside behind : List (PendingNode × Finding)}
      (below : Outline traversal
        (traversal.pendingChildren node (traversal.finding node).children) inside)
      (rest : Outline traversal siblings behind) :
      Outline traversal (node :: siblings) ((node, traversal.finding node) :: (inside ++ behind))

/-- Whether a node is reached from another one: through listings of directories that are not passed
over because of their names. -/
inductive Reaches (traversal : Traversal) : PendingNode → PendingNode → Prop
  | self {node : PendingNode} : Reaches traversal node node
  | inside {parent node : PendingNode} {entry child : Entry} {children : List Entry}
      (stat : traversal.fileSystem.stat parent.path = .ok entry)
      (directory : entry.kind = .directory)
      (entered : parent.depth = 0 ∨ entry.name ∉ traversal.skippedNames)
      (list : traversal.fileSystem.list parent.path = .ok children) (listed : child ∈ children)
      (reaches : Reaches traversal
        ⟨traversal.fileSystem.join parent.path child.name, parent.depth + 1⟩ node) :
      Reaches traversal parent node

variable {traversal : Traversal}

theorem outline_append {first second : List PendingNode}
    {firstEntries secondEntries : List (PendingNode × Finding)}
    (before : traversal.Outline first firstEntries)
    (behind : traversal.Outline second secondEntries) :
    traversal.Outline (first ++ second) (firstEntries ++ secondEntries) := by
  induction before with
  | nil => exact behind
  | cons below _ _ ihRest =>
      rw [List.cons_append, List.cons_append, List.append_assoc]
      exact .cons below ihRest

theorem Reaches.trans {first second third : PendingNode}
    (before : traversal.Reaches first second) (behind : traversal.Reaches second third) :
    traversal.Reaches first third := by
  induction before with
  | self => exact behind
  | inside stat directory entered list listed _ ih =>
      exact .inside stat directory entered list listed (ih behind)

theorem exists_of_mem_children {node : PendingNode} {child : Entry}
    (mem : child ∈ (traversal.finding node).children) :
    ∃ entry children, traversal.fileSystem.stat node.path = .ok entry ∧ entry.kind = .directory ∧
      (node.depth = 0 ∨ entry.name ∉ traversal.skippedNames) ∧
        traversal.fileSystem.list node.path = .ok children ∧ child ∈ children := by
  generalize found : traversal.finding node = finding at mem
  cases finds_iff.2 found with
  | directory stat directory entered list => exact ⟨_, _, stat, directory, entered, list, mem⟩
  | _ => simp [Finding.children] at mem

theorem outline_cons {node : PendingNode} {finding : Finding} {siblings : List PendingNode}
    {inside behind : List (PendingNode × Finding)} (found : traversal.finding node = finding)
    (below : traversal.Outline (traversal.pendingChildren node finding.children) inside)
    (rest : traversal.Outline siblings behind) :
    traversal.Outline (node :: siblings) ((node, finding) :: (inside ++ behind)) := by
  subst found
  exact .cons below rest

/-- The outline holds exactly the nodes that are reached, each with what is found there. -/
theorem mem_outline_iff {nodes : List PendingNode} {entries : List (PendingNode × Finding)}
    (outline : traversal.Outline nodes entries) {node : PendingNode} {found : Finding} :
    (node, found) ∈ entries ↔
      found = traversal.finding node ∧ ∃ root ∈ nodes, traversal.Reaches root node := by
  induction outline with
  | nil => simp
  | @cons first siblings inside behind _ _ ihBelow ihRest =>
      rw [List.mem_cons, List.mem_append, ihBelow, ihRest, Prod.mk.injEq]
      constructor
      · rintro (⟨rfl, rfl⟩ | ⟨rfl, root, root_mem, reaches⟩ | ⟨rfl, root, root_mem, reaches⟩)
        · exact ⟨rfl, node, List.mem_cons_self, .self⟩
        · rcases List.mem_map.1 root_mem with ⟨child, child_mem, rfl⟩
          rcases exists_of_mem_children child_mem with
            ⟨entry, children, stat, directory, entered, list, listed⟩
          refine ⟨rfl, first, List.mem_cons_self, ?_⟩
          exact .inside stat directory entered list listed reaches
        · exact ⟨rfl, root, List.mem_cons_of_mem first root_mem, reaches⟩
      · rintro ⟨rfl, root, root_mem, reaches⟩
        rcases List.mem_cons.1 root_mem with rfl | root_mem
        · cases reaches with
          | self => exact Or.inl ⟨rfl, rfl⟩
          | @inside _ _ _ child _ stat directory entered list listed reaches =>
              refine Or.inr (Or.inl ⟨rfl, _, ?_, reaches⟩)
              rw [finds_iff.1 (.directory stat directory entered list)]
              apply List.mem_map.2
              exact ⟨child, listed, rfl⟩
        · exact Or.inr (Or.inr ⟨rfl, root, root_mem, reaches⟩)

section Failures

/-- Whether a node can be seen: its stat succeeds, and so does its listing if it is a directory that
is not passed over. -/
def Sees (traversal : Traversal) (node : PendingNode) : Prop :=
  ∃ entry, traversal.fileSystem.stat node.path = .ok entry ∧
    (entry.kind = .directory → node.depth = 0 ∨ entry.name ∉ traversal.skippedNames →
      ∃ children, traversal.fileSystem.list node.path = .ok children)

/-- Whether a node cannot be seen, and the error that says why. -/
def Fails (traversal : Traversal) (node : PendingNode) (error : TraversalError) : Prop :=
  (∃ reason, traversal.fileSystem.stat node.path = .error reason ∧
    error = .stat node.path reason) ∨
  ∃ entry reason, traversal.fileSystem.stat node.path = .ok entry ∧ entry.kind = .directory ∧
    (node.depth = 0 ∨ entry.name ∉ traversal.skippedNames) ∧
      traversal.fileSystem.list node.path = .error reason ∧ error = .list node.path reason

theorem failure?_eq_some_iff {node : PendingNode} {error : TraversalError} :
    (traversal.finding node).failure? node = some error ↔ traversal.Fails node error := by
  constructor
  · intro failure
    generalize found : traversal.finding node = finding at failure
    cases finds_iff.2 found with
    | unknown stat => exact Or.inl ⟨_, stat, (Option.some.inj failure).symm⟩
    | unlisted stat directory entered list =>
        exact Or.inr ⟨_, _, stat, directory, entered, list, (Option.some.inj failure).symm⟩
    | _ => simp [Finding.failure?] at failure
  · rintro (⟨reason, stat, rfl⟩ | ⟨entry, reason, stat, directory, entered, list, rfl⟩)
    · rw [finds_iff.1 (.unknown stat)]
      rfl
    · rw [finds_iff.1 (.unlisted stat directory entered list)]
      rfl

theorem failure?_eq_none_iff {node : PendingNode} :
    (traversal.finding node).failure? node = none ↔ traversal.Sees node := by
  constructor
  · intro noFailure
    generalize found : traversal.finding node = finding at noFailure
    cases finds_iff.2 found with
    | leaf stat leaf => exact ⟨_, stat, fun directory => absurd directory leaf⟩
    | skipped stat _ deep skip =>
        exact ⟨_, stat, fun _ entered => absurd entered (by simp [skip, Nat.ne_of_gt deep])⟩
    | directory stat _ _ list => exact ⟨_, stat, fun _ _ => ⟨_, list⟩⟩
    | _ => simp [Finding.failure?] at noFailure
  · rintro ⟨entry, stat, listed⟩
    cases failure : (traversal.finding node).failure? node with
    | none => rfl
    | some error =>
        rcases failure?_eq_some_iff.1 failure with
          ⟨reason, statFails, _⟩ | ⟨_, reason, stat', directory, entered, listFails, _⟩
        · rw [stat] at statFails
          exact absurd statFails (by simp)
        · rw [stat, Except.ok.injEq] at stat'
          subst stat'
          rcases listed directory entered with ⟨children, list⟩
          rw [list] at listFails
          exact absurd listFails (by simp)

end Failures

section Runs

/-- The visitor's answers to the entries of an outline, up to the first fatal one. -/
def visitAll (visitor : Visitor σ) :
    List (PendingNode × Finding) → σ → Except TraversalError Unit × σ
  | [], state => (.ok (), state)
  | (node, finding) :: entries, state =>
      match finding.visit? node.path with
      | none => visitAll visitor entries state
      | some visit =>
          match visitor visit state with
          | (verdict, after) =>
              match finding.fatal? node verdict with
              | some error => (.error error, after)
              | none => visitAll visitor entries after

variable {visitor : Visitor σ}

theorem visitAll_append (visitor : Visitor σ) (first second : List (PendingNode × Finding))
    (state : σ) : visitAll visitor (first ++ second) state =
      andThen (visitAll visitor first state).1 (visitAll visitor first state).2
        (visitAll visitor second) := by
  induction first generalizing state with
  | nil => rfl
  | cons entry first ih =>
      rcases entry with ⟨node, finding⟩
      rw [List.cons_append, visitAll, visitAll]
      cases finding.visit? node.path with
      | none => exact ih state
      | some visit =>
          rcases answer : visitor visit state with ⟨verdict, after⟩
          cases fatal : finding.fatal? node verdict with
          | none =>
              simp only [answer, fatal]
              exact ih after
          | some error => simp only [answer, fatal, andThen]

theorem andThen_andThen {τ : Type} (result : Except TraversalError Unit) (state : τ)
    (next last : τ → Except TraversalError Unit × τ) :
    andThen (andThen result state next).1 (andThen result state next).2 last =
      andThen result state fun after => andThen (next after).1 (next after).2 last := by
  cases result <;> rfl

/-- A harmless verdict that prunes nothing goes on with all children. -/
theorem below_of_harmless {node : PendingNode} {finding : Finding} {verdict : Verdict}
    (goesDown : verdict ≠ .prune) (harmless : finding.fatal? node verdict = none) :
    finding.below verdict = finding.children := by
  cases finding <;> cases verdict <;> simp_all [Finding.fatal?, Finding.below, Finding.children]

theorem children_of_unvisited {finding : Finding} {path : String}
    (unvisited : finding.visit? path = none) : finding.children = [] := by
  cases finding <;> simp_all [Finding.visit?, Finding.children]

theorem visitStack_of_outline (neverPrunes : ∀ visit state, (visitor visit state).1 ≠ .prune)
    {nodes : List PendingNode} {entries : List (PendingNode × Finding)}
    (outline : traversal.Outline nodes entries) (limit left : Nat) (stack : List PendingNode)
    (state : σ) :
    traversal.visitStack visitor limit (entries.length + left) (nodes ++ stack) state =
      andThen (visitAll visitor entries state).1 (visitAll visitor entries state).2
        (traversal.visitStack visitor limit left stack) := by
  induction outline generalizing left stack state with
  | nil => simp [visitAll, andThen]
  | @cons node siblings inside behind _ _ ihBelow ihRest =>
      have room : ((node, traversal.finding node) :: (inside ++ behind)).length + left =
          inside.length + (behind.length + left) + 1 := by
        simp only [List.length_cons, List.length_append]
        omega
      rw [room, List.cons_append, visitStack, visitNode_eq, visitAll]
      cases visited : (traversal.finding node).visit? node.path with
      | none =>
          have run := ihBelow (behind.length + left) (siblings ++ stack) state
          rw [children_of_unvisited visited] at run
          simp only [visitAll_append, andThen_andThen, ← ihRest]
          exact run
      | some visit =>
          have goesDown := neverPrunes visit state
          rcases answer : visitor visit state with ⟨verdict, after⟩
          rw [answer] at goesDown
          cases fatal : (traversal.finding node).fatal? node verdict with
          | some error => simp only [answer, fatal, andThen]
          | none =>
              have run := ihBelow (behind.length + left) (siblings ++ stack) after
              rw [← below_of_harmless goesDown fatal] at run
              simp only [answer, fatal, visitAll_append, andThen_andThen, ← ihRest]
              exact run

/-- A visitor that never prunes sees a whole outline, within every limit that it keeps to. -/
theorem runWithin_of_outline (neverPrunes : ∀ visit state, (visitor visit state).1 ≠ .prune)
    {entries : List (PendingNode × Finding)}
    (outline : traversal.Outline [⟨traversal.start, 0⟩] entries) {limit : Nat}
    (room : entries.length ≤ limit) (state : σ) :
    traversal.runWithin limit visitor state = visitAll visitor entries state := by
  have run := visitStack_of_outline neverPrunes outline limit (limit - entries.length) [] state
  rw [Nat.add_sub_cancel' room] at run
  apply run.trans
  rcases visitAll visitor entries state with ⟨_ | _, after⟩ <;> simp [andThen, visitStack]

theorem below_eq (finding : Finding) (verdict : Verdict) :
    finding.below verdict = finding.children ∨ finding.below verdict = [] := by
  cases finding <;> cases verdict <;> simp [Finding.below, Finding.children]

/-- Whatever the visitor does, only what is found in an outline decides where it goes, and no limit
that the outline keeps to does. -/
theorem visitStack_eq_of_outline {second : Traversal}
    (join : second.fileSystem.join = traversal.fileSystem.join) {nodes : List PendingNode}
    {entries : List (PendingNode × Finding)} (outline : traversal.Outline nodes entries)
    (agree : ∀ entry ∈ entries, second.finding entry.1 = entry.2) (limit otherLimit : Nat)
    {left otherLeft : Nat} (room : entries.length ≤ left) (otherRoom : entries.length ≤ otherLeft)
    (state : σ) :
    traversal.visitStack visitor limit left nodes state =
      second.visitStack visitor otherLimit otherLeft nodes state := by
  -- The visitor may leave out what is below a node, so the induction is on the limit.
  induction left generalizing nodes entries otherLeft state with
  | zero =>
      cases outline with
      | nil => simp [visitStack]
      | cons => simp at room
  | succ left ih =>
      cases outline with
      | nil => simp [visitStack]
      | @cons node siblings inside behind below rest =>
          rcases List.forall_mem_cons.1 agree with ⟨here, agreeRest⟩
          rcases List.forall_mem_append.1 agreeRest with ⟨_, agreeBehind⟩
          rw [List.length_cons, List.length_append] at room otherRoom
          cases otherLeft with
          | zero => omega
          | succ otherLeft =>
              have small : (inside ++ behind).length ≤ left := by
                rw [List.length_append]
                omega
              have otherSmall : (inside ++ behind).length ≤ otherLeft := by
                rw [List.length_append]
                omega
              have passesOn (after : σ) : traversal.visitStack visitor limit left siblings after =
                  second.visitStack visitor otherLimit otherLeft siblings after :=
                ih rest agreeBehind (by omega) (by omega) after
              have sameChildren : second.pendingChildren = traversal.pendingChildren := by
                funext node children
                rw [pendingChildren, pendingChildren, join]
              rw [visitStack, visitStack, visitNode_eq, visitNode_eq, here]
              cases visited : (traversal.finding node).visit? node.path with
              | none => exact passesOn state
              | some visit =>
                  rcases answer : visitor visit state with ⟨verdict, after⟩
                  cases fatal : (traversal.finding node).fatal? node verdict with
                  | some error => simp only [answer, fatal]
                  | none =>
                      simp only [answer, fatal, sameChildren]
                      rcases below_eq (traversal.finding node) verdict with all | nothing
                      · rw [all]
                        exact ih (outline_append below rest) agreeRest small otherSmall after
                      · rw [nothing]
                        exact passesOn after

/-- The visitor that notes every visit and always goes on. -/
def noting (note : σ → Visit → σ) : Visitor σ := fun visit state => (.descend, note state visit)

/-- The visits that are made at the entries of an outline. -/
def visitsOf (entries : List (PendingNode × Finding)) : List Visit :=
  entries.filterMap fun (node, finding) => finding.visit? node.path

theorem visitsOf_cons (node : PendingNode) (finding : Finding)
    (entries : List (PendingNode × Finding)) :
    visitsOf ((node, finding) :: entries) =
      match finding.visit? node.path with
      | none => visitsOf entries
      | some visit => visit :: visitsOf entries := by
  cases visited : finding.visit? node.path <;> simp [visitsOf, visited]

/-- A visitor that always goes on is stopped by a failed stat only. -/
theorem visitAll_noting_eq_ok_iff (note : σ → Visit → σ) (entries : List (PendingNode × Finding))
    (state : σ) : (visitAll (noting note) entries state).1 = .ok () ↔
      ∀ entry ∈ entries, ∀ error, entry.2 ≠ .unknown error := by
  induction entries generalizing state with
  | nil => simp [visitAll]
  | cons entry entries ih =>
      rcases entry with ⟨node, finding⟩
      rw [List.forall_mem_cons]
      cases finding with
      | unknown error => simp [visitAll, Finding.visit?, noting, Finding.fatal?]
      | skipped => simpa [visitAll, Finding.visit?] using ih state
      | _ => simpa [visitAll, Finding.visit?, noting, Finding.fatal?] using ih _

theorem visitAll_noting (note : σ → Visit → σ) {entries : List (PendingNode × Finding)}
    (known : ∀ entry ∈ entries, ∀ error, entry.2 ≠ .unknown error) (state : σ) :
    visitAll (noting note) entries state = (.ok (), (visitsOf entries).foldl note state) := by
  induction entries generalizing state with
  | nil => rfl
  | cons entry entries ih =>
      rcases entry with ⟨node, finding⟩
      rcases List.forall_mem_cons.1 known with ⟨knownFirst, knownRest⟩
      cases finding with
      | unknown error => exact absurd rfl (knownFirst error)
      | skipped => exact ih knownRest state
      | _ => exact ih knownRest _

end Runs

end Traversal

end OwnerCoverage
