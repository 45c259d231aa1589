import OwnerCoverage.FileSystem.Scripted
import OwnerCoverage.Proofs.Traversal.Finding

/-!
# Traversal as a recursion

`Recursion` is the recursive definition of a traversal, without a stack and without a limit: what is
visited in which state, and how it ends. A tree without end has no such recursion. The main result,
`runWithin_refines_recursion`, says that the stack visits the same nodes in the same states and ends
in the same way, for every file system, every start, all skipped names and every visitor.
-/

namespace OwnerCoverage

namespace Traversal

variable {σ : Type}

/-- What handling some nodes one after another comes to, each with all that lies below it before the
next: the visits with the states in which they are made, the result, and the last state. -/
inductive Recursion (traversal : Traversal) (visitor : Visitor σ) :
    List PendingNode → σ → List (Visit × σ) → Except TraversalError Unit → σ → Prop
  | done {state : σ} : Recursion traversal visitor [] state [] (.ok ()) state
  | passed {node : PendingNode} {siblings : List PendingNode} {state after : σ}
      {visits : List (Visit × σ)} {result : Except TraversalError Unit}
      (unvisited : (traversal.finding node).visit? node.path = none)
      (rest : Recursion traversal visitor siblings state visits result after) :
      Recursion traversal visitor (node :: siblings) state visits result after
  | fails {node : PendingNode} {siblings : List PendingNode} {state after : σ} {visit : Visit}
      {verdict : Verdict} {error : TraversalError}
      (visited : (traversal.finding node).visit? node.path = some visit)
      (answer : visitor visit state = (verdict, after))
      (fatal : (traversal.finding node).fatal? node verdict = some error) :
      Recursion traversal visitor (node :: siblings) state [(visit, state)] (.error error) after
  | failsBelow {node : PendingNode} {siblings : List PendingNode} {state middle after : σ}
      {visit : Visit} {verdict : Verdict} {visits : List (Visit × σ)} {error : TraversalError}
      (visited : (traversal.finding node).visit? node.path = some visit)
      (answer : visitor visit state = (verdict, middle))
      (harmless : (traversal.finding node).fatal? node verdict = none)
      (below : Recursion traversal visitor
        (((traversal.finding node).below verdict).map fun child =>
          ⟨traversal.fileSystem.join node.path child.name, node.depth + 1⟩)
        middle visits (.error error) after) :
      Recursion traversal visitor (node :: siblings) state ((visit, state) :: visits)
        (.error error) after
  | goesOn {node : PendingNode} {siblings : List PendingNode} {state middle between after : σ}
      {visit : Visit} {verdict : Verdict} {visits more : List (Visit × σ)}
      {result : Except TraversalError Unit}
      (visited : (traversal.finding node).visit? node.path = some visit)
      (answer : visitor visit state = (verdict, middle))
      (harmless : (traversal.finding node).fatal? node verdict = none)
      (below : Recursion traversal visitor
        (((traversal.finding node).below verdict).map fun child =>
          ⟨traversal.fileSystem.join node.path child.name, node.depth + 1⟩)
        middle visits (.ok ()) between)
      (rest : Recursion traversal visitor siblings between more result after) :
      Recursion traversal visitor (node :: siblings) state ((visit, state) :: (visits ++ more))
        result after

section Visits

/-- The visitor that also records every visit and the state in which it is made. -/
def recording (visitor : Visitor σ) : Visitor (σ × List (Visit × σ)) := fun visit state =>
  ((visitor visit state.1).1, (visitor visit state.1).2, state.2 ++ [(visit, state.1)])

/-- The visits of a traversal within a limit, each with the state in which it is made. -/
def visitsWithin (traversal : Traversal) (limit : Nat) (visitor : Visitor σ) (state : σ) :
    List (Visit × σ) :=
  (traversal.runWithin limit (recording visitor) (state, [])).2.2

theorem runWithin_recording (traversal : Traversal) (limit : Nat) (visitor : Visitor σ)
    (state : σ) :
    traversal.runWithin limit (recording visitor) (state, []) =
      ((traversal.runWithin limit visitor state).1, (traversal.runWithin limit visitor state).2,
        traversal.visitsWithin limit visitor state) := by
  have same := @visitStack_project _ _ traversal (recording visitor) visitor Prod.fst
    (fun _ _ => rfl) limit limit [⟨traversal.start, 0⟩] (state, [])
  simp only [runWithin, visitsWithin, same]

end Visits

section Runs

variable {traversal : Traversal} {visitor : Visitor σ}

/-- The recursion over two lists of nodes is the recursion over the first, and then, unless that
fails, the recursion over the second. -/
theorem recursion_append {first second : List PendingNode} {state after : σ}
    {visits : List (Visit × σ)} {result : Except TraversalError Unit}
    (recursion : traversal.Recursion visitor (first ++ second) state visits result after) :
    (∃ error, result = .error error ∧ traversal.Recursion visitor first state visits result after) ∨
      ∃ before between rest, visits = before ++ rest ∧
        traversal.Recursion visitor first state before (.ok ()) between ∧
        traversal.Recursion visitor second between rest result after := by
  induction first generalizing state visits with
  | nil => exact Or.inr ⟨[], state, visits, rfl, .done, recursion⟩
  | cons node first ih =>
      cases recursion with
      | passed unvisited rest =>
          rcases ih rest with ⟨error, failed, done⟩ | ⟨before, between, visits, rfl, done, rest⟩
          · exact Or.inl ⟨error, failed, .passed unvisited done⟩
          · exact Or.inr ⟨before, between, visits, rfl, .passed unvisited done, rest⟩
      | fails visited answer fatal => exact Or.inl ⟨_, rfl, .fails visited answer fatal⟩
      | failsBelow visited answer harmless below =>
          exact Or.inl ⟨_, rfl, .failsBelow visited answer harmless below⟩
      | goesOn visited answer harmless below rest =>
          rcases ih rest with ⟨error, rfl, done⟩ | ⟨before, between, visits, rfl, done, rest⟩
          · exact Or.inl ⟨error, rfl, .goesOn visited answer harmless below done⟩
          · refine Or.inr ⟨_, between, visits, ?_, .goesOn visited answer harmless below done, rest⟩
            simp

/-- A recursion is what the stack does, on top of any other nodes and with enough limit left. -/
theorem visitStack_of_recursion {nodes : List PendingNode} {state after : σ}
    {visits : List (Visit × σ)} {result : Except TraversalError Unit}
    (recursion : traversal.Recursion visitor nodes state visits result after) :
    ∃ cost, ∀ limit left stack seen,
      traversal.visitStack (recording visitor) limit (cost + left) (nodes ++ stack) (state, seen) =
        andThen result (after, seen ++ visits)
          (traversal.visitStack (recording visitor) limit left stack) := by
  induction recursion with
  | done => exact ⟨0, fun limit left stack seen => by simp [andThen]⟩
  | passed unvisited _ ih =>
      rcases ih with ⟨cost, run⟩
      refine ⟨cost + 1, ?_⟩
      intro limit left stack seen
      rw [Nat.add_right_comm, List.cons_append, visitStack, visitNode_eq]
      simp only [unvisited]
      exact run limit left stack seen
  | fails visited answer fatal =>
      refine ⟨1, ?_⟩
      intro limit left stack seen
      rw [Nat.add_comm, List.cons_append, visitStack, visitNode_eq]
      simp only [visited, recording, answer, fatal, andThen]
  | failsBelow visited answer harmless _ ih =>
      rcases ih with ⟨cost, run⟩
      refine ⟨cost + 1, ?_⟩
      intro limit left stack seen
      rw [Nat.add_right_comm, List.cons_append, visitStack, visitNode_eq]
      simp only [visited, recording, answer, harmless]
      exact (run limit left _ _).trans (by simp [andThen])
  | goesOn visited answer harmless _ _ ihBelow ihRest =>
      rcases ihBelow with ⟨costBelow, runBelow⟩
      rcases ihRest with ⟨cost, run⟩
      refine ⟨costBelow + cost + 1, ?_⟩
      intro limit left stack seen
      rw [Nat.add_right_comm, List.cons_append, visitStack, visitNode_eq, Nat.add_assoc]
      simp only [visited, recording, answer, harmless]
      refine (runBelow limit (cost + left) _ _).trans ((run limit left stack _).trans ?_)
      simp

theorem recursion_of_visitStack {limit left : Nat} {nodes : List PendingNode} {state after : σ}
    {seen visits : List (Visit × σ)} {result : Except TraversalError Unit}
    (run : traversal.visitStack (recording visitor) limit left nodes (state, seen) =
      (result, after, visits))
    (ends : result ≠ .error (.endless limit)) :
    ∃ new, visits = seen ++ new ∧ traversal.Recursion visitor nodes state new result after := by
  induction left generalizing nodes state seen with
  | zero =>
      cases nodes with
      | nil =>
          simp only [visitStack, Prod.mk.injEq] at run
          rcases run with ⟨rfl, rfl, rfl⟩
          exact ⟨[], by simp, .done⟩
      | cons node stack =>
          simp only [visitStack, Prod.mk.injEq] at run
          exact absurd run.1.symm ends
  | succ left ih =>
      cases nodes with
      | nil =>
          simp only [visitStack, Prod.mk.injEq] at run
          rcases run with ⟨rfl, rfl, rfl⟩
          exact ⟨[], by simp, .done⟩
      | cons node stack =>
          rw [visitStack, visitNode_eq] at run
          cases visited : (traversal.finding node).visit? node.path with
          | none =>
              simp only [visited] at run
              rcases ih run with ⟨new, rfl, recursion⟩
              exact ⟨new, rfl, .passed visited recursion⟩
          | some visit =>
              rcases answer : visitor visit state with ⟨verdict, middle⟩
              cases fatal : (traversal.finding node).fatal? node verdict with
              | some error =>
                  simp only [visited, recording, answer, fatal, Prod.mk.injEq] at run
                  rcases run with ⟨rfl, rfl, rfl⟩
                  exact ⟨_, rfl, .fails visited answer fatal⟩
              | none =>
                  simp only [visited, recording, answer, fatal] at run
                  rcases ih run with ⟨new, rfl, recursion⟩
                  refine ⟨(visit, state) :: new, by simp, ?_⟩
                  rcases recursion_append recursion with
                    ⟨error, rfl, below⟩ | ⟨before, between, rest, rfl, below, recursion⟩
                  · exact .failsBelow visited answer fatal below
                  · exact .goesOn visited answer fatal below recursion

theorem runWithin_of_recursion {state after : σ} {visits : List (Visit × σ)}
    {result : Except TraversalError Unit}
    (recursion : traversal.Recursion visitor [⟨traversal.start, 0⟩] state visits result after) :
    ∃ least, ∀ limit, least ≤ limit →
      traversal.runWithin limit visitor state = (result, after) ∧
        traversal.visitsWithin limit visitor state = visits := by
  rcases visitStack_of_recursion recursion with ⟨cost, run⟩
  refine ⟨cost, ?_⟩
  intro limit enough
  have whole : traversal.runWithin limit (recording visitor) (state, []) =
      (result, after, visits) := by
    have top := run limit (limit - cost) [] []
    rw [Nat.add_sub_cancel' enough] at top
    apply top.trans
    rcases result with error | ⟨⟩ <;> simp [andThen, visitStack]
  rw [runWithin_recording, Prod.mk.injEq, Prod.mk.injEq] at whole
  exact ⟨Prod.ext whole.1 whole.2.1, whole.2.2⟩

/-- A run that ends within its limit is a recursion with the same visits in the same states. -/
theorem recursion_of_runWithin {limit : Nat} {state : σ}
    (ends : (traversal.runWithin limit visitor state).1 ≠ .error (.endless limit)) :
    traversal.Recursion visitor [⟨traversal.start, 0⟩] state
      (traversal.visitsWithin limit visitor state) (traversal.runWithin limit visitor state).1
      (traversal.runWithin limit visitor state).2 := by
  rcases recursion_of_visitStack (runWithin_recording traversal limit visitor state) ends with
    ⟨visits, equal, recursion⟩
  rwa [equal]

end Runs

/-- A traversal refines the recursion. Whatever the recursion comes to, the stack comes to the same
result and last state by the same visits in the same states, within every limit that is great
enough; and within any limit the stack does what the recursion does, or runs into the limit. -/
theorem runWithin_refines_recursion (traversal : Traversal) (visitor : Visitor σ) (state : σ) :
    (∀ visits result after,
      traversal.Recursion visitor [⟨traversal.start, 0⟩] state visits result after ↔
        ∃ least, ∀ limit, least ≤ limit →
          traversal.runWithin limit visitor state = (result, after) ∧
            traversal.visitsWithin limit visitor state = visits) ∧
    ∀ limit,
      traversal.Recursion visitor [⟨traversal.start, 0⟩] state
          (traversal.visitsWithin limit visitor state) (traversal.runWithin limit visitor state).1
          (traversal.runWithin limit visitor state).2 ∨
        (traversal.runWithin limit visitor state).1 = .error (.endless limit) := by
  constructor
  · intro visits result after
    refine ⟨runWithin_of_recursion, ?_⟩
    rintro ⟨least, agree⟩
    -- No result names two limits at once, so one of two runs has ended of itself.
    by_cases endless : result = .error (.endless least)
    · rcases agree (least + 1) (Nat.le_succ least) with ⟨run, visited⟩
      have ends : (traversal.runWithin (least + 1) visitor state).1 ≠
          .error (.endless (least + 1)) := by
        rw [run, endless]
        simp
      have recursion := recursion_of_runWithin ends
      rwa [run, visited] at recursion
    · rcases agree least (Nat.le_refl least) with ⟨run, visited⟩
      have ends : (traversal.runWithin least visitor state).1 ≠ .error (.endless least) := by
        rwa [run]
      have recursion := recursion_of_runWithin ends
      rwa [run, visited] at recursion
  · intro limit
    by_cases ends : (traversal.runWithin limit visitor state).1 = .error (.endless limit)
    · exact Or.inr ends
    · exact Or.inl (recursion_of_runWithin ends)

/-- A traversal whose root has a name to pass over. Below it stand a directory with a file, a node
whose stat fails, a directory that is passed over, and a link. Paths are joined by colons. -/
def branchedTraversal : Traversal where
  fileSystem := { Script.fileSystem
    { stats := [("r", .ok ⟨"skip", .directory⟩), ("r:d", .ok ⟨"d", .directory⟩),
        ("r:d:f", .ok ⟨"f", .file⟩), ("r:lost", .error ⟨.permissionDenied, "denied"⟩),
        ("r:skip", .ok ⟨"skip", .directory⟩), ("r:z", .ok ⟨"z", .symlink⟩)]
      listings := [("r", .ok [⟨"d", .directory⟩, ⟨"lost", .file⟩, ⟨"skip", .directory⟩,
          ⟨"z", .symlink⟩]),
        ("r:d", .ok [⟨"f", .file⟩]), ("r:skip", .ok [⟨"g", .file⟩])]
      texts := [] } with
    join := fun base name => base ++ ":" ++ name }
  start := "r"
  skippedNames := ["skip"]

/-- The visitor that counts its visits and prunes the nodes without a stat. -/
def pruningUnknown : Visitor Nat := fun visit count =>
  (if visit.kind = none then .prune else .descend, count + 1)

/-- What is visited there: the file before the siblings of its directory, and the node without a
stat, whose error is not fatal below the root. -/
def branchedVisits : List (Visit × Nat) :=
  [(⟨"r", some .directory, none⟩, 0), (⟨"r:d", some .directory, none⟩, 1),
    (⟨"r:d:f", some .file, none⟩, 2), (⟨"r:lost", none, some ⟨.permissionDenied, "denied"⟩⟩, 3),
    (⟨"r:z", some .symlink, none⟩, 4)]

theorem runWithin_refines_recursion_branched :
    branchedTraversal.Recursion pruningUnknown [⟨"r", 0⟩] 0 branchedVisits (.ok ()) 5 ∧
      ∃ least, ∀ limit, least ≤ limit →
        branchedTraversal.runWithin limit pruningUnknown 0 = (.ok (), 5) ∧
          branchedTraversal.visitsWithin limit pruningUnknown 0 = branchedVisits := by
  rcases runWithin_refines_recursion branchedTraversal pruningUnknown 0 with ⟨agrees, ends⟩
  have run : branchedTraversal.runWithin 6 pruningUnknown 0 = (.ok (), 5) := by rfl
  have visits : branchedTraversal.visitsWithin 6 pruningUnknown 0 = branchedVisits := by
    decide +kernel
  have recursion := (ends 6).resolve_right (by rw [run]; simp)
  rw [run, visits] at recursion
  exact ⟨recursion, (agrees _ _ _).1 recursion⟩

end Traversal

end OwnerCoverage
