import OwnerCoverage.Proofs.FileSystem.Walk
import OwnerCoverage.Proofs.Host.Walk
import OwnerCoverage.Proofs.Rules.Location
import OwnerCoverage.Proofs.Traversal.Recursion
import OwnerCoverage.Report

/-!
# Host directories and trees in memory

A view of a host directory and a tree in memory that hold the same files follow the same chart, and
answer alike where rules files are looked for. So every visitor does the same on both, and the
reports on both are the same (`agrees_with_memory`).
-/

namespace OwnerCoverage

namespace Host

/-- Whether a node of a host is what stands at a place of a tree of files. -/
inductive Node.Shows : Node → Content → Prop
  | file (text : String) : Shows (.file (Bytes.ofText text)) (.file text)
  | directory (children : List (FileName × Node)) : Shows (.directory children) .directory

/-- Whether the nodes at and below a node, under names that are texts, are what some contents
tell. -/
def Node.Holds (node : Node) (contents : Contents) : Prop :=
  ∀ names, Option.Rel Node.Shows (node.at? (names.map Bytes.ofText)) (contents names)

namespace Node

variable {node : Node} {contents : Contents} {names : List String}

theorem Shows.kind_eq {content : Content} (shows : node.Shows content) :
    node.kind = content.kind := by
  cases shows <;> rfl

theorem Holds.exists_at? (holds : node.Holds contents) {content : Content}
    (here : contents names = some content) :
    ∃ found, node.at? (names.map Bytes.ofText) = some found ∧ found.Shows content := by
  have related := holds names
  rw [here] at related
  cases found : node.at? (names.map Bytes.ofText) with
  | none => simp [found] at related
  | some found_node =>
      rw [found, Option.rel_some_some] at related
      exact ⟨found_node, rfl, related⟩

theorem Holds.at?_eq_none (holds : node.Holds contents) (missing : contents names = none) :
    node.at? (names.map Bytes.ofText) = none := by
  have related := holds names
  rw [missing] at related
  cases found : node.at? (names.map Bytes.ofText) with
  | none => rfl
  | some found_node => simp [found] at related

theorem Holds.chart_eq (holds : node.Holds contents) : node.chart = contents.chart := by
  funext names
  rw [chart, Contents.chart]
  cases here : contents names with
  | none => rw [holds.at?_eq_none here, Option.map_none, Option.map_none]
  | some content =>
      rcases holds.exists_at? here with ⟨found, found_eq, shows⟩
      rw [found_eq, Option.map_some, Option.map_some, shows.kind_eq]

end Node

namespace View

variable {view : View} {children : List (FileName × Node)} {trail : Trail} {fewer : Nat}
  {contents : Contents} {tree : MemoryTree} {path : String}

namespace Starts

theorem stat_of_content (starts : view.Starts children trail fewer)
    (same : (Node.directory children).Holds contents)
    (isFileName : ∀ name ∈ Path.names path, IsFileName (Bytes.ofText name))
    (takes : view.Takes path) {content : Content}
    (here : contents (Path.names path) = some content) :
    view.stat path = .ok ⟨Path.baseName path, content.kind⟩ := by
  rcases same.exists_at? here with ⟨found, found_eq, shows⟩
  rw [starts.stat_of_at? isFileName takes found_eq, shows.kind_eq]

theorem read_of_file (starts : view.Starts children trail fewer)
    (same : (Node.directory children).Holds contents)
    (isFileName : ∀ name ∈ Path.names path, IsFileName (Bytes.ofText name))
    (takes : view.Takes path) {text : String}
    (here : contents (Path.names path) = some (.file text)) : view.read path = .ok text := by
  rcases same.exists_at? here with ⟨found, found_eq, shows⟩
  cases shows
  exact starts.read_of_at? isFileName takes found_eq

theorem stat_of_no_content (starts : view.Starts children trail fewer)
    (same : (Node.directory children).Holds contents)
    (isFileName : ∀ name ∈ Path.names path, IsFileName (Bytes.ofText name))
    (takes : view.Takes path) (missing : contents (Path.names path) = none)
    {before : List String} {last : String} (split : Path.names path = before ++ [last])
    (above : contents before = some .directory) :
    view.stat path = .error LookupFault.notFound.error := by
  rcases same.exists_at? above with ⟨found, found_eq, shows⟩
  cases shows with
  | directory inside =>
      apply starts.stat_of_missing isFileName takes split found_eq
      have nothing := same.at?_eq_none missing
      rw [split, List.map_append, List.map_singleton, Node.at?_append, found_eq] at nothing
      simpa [Node.at?, Node.child?] using nothing

end Starts

/-- Whether something stands at a path, a host directory and a tree in memory tell alike if they
hold the same, and if there is a directory in which it could stand. -/
theorem holds_eq (starts : view.Starts children trail fewer) (wellFormed : tree.WellFormed)
    (intact : tree.catalog.Intact) (same : (Node.directory children).Holds tree.contents)
    (isFileName : ∀ name ∈ Path.names path, IsFileName (Bytes.ofText name))
    (takes : view.Takes path)
    (above : ∀ before last, Path.names path = before ++ [last] →
      tree.contents before = some .directory) (wanted : Bool) :
    view.fileSystem.holds path wanted = tree.fileSystem.holds path wanted := by
  have memory := wellFormed.answers.stat path (by simp [intact.stats])
  cases here : tree.contents (Path.names path) with
  | some content =>
      have host := starts.stat_of_content same isFileName takes here
      simp only [MemoryTree.catalog, here] at memory
      simp only [FileSystem.holds, View.fileSystem, MemoryTree.fileSystem, host, memory]
  | none =>
      rcases List.eq_nil_or_concat' (Path.names path) with atRoot | ⟨before, last, split⟩
      · rw [atRoot, wellFormed.contents_root] at here
        exact absurd here (by simp)
      · have host := starts.stat_of_no_content same isFileName takes here split
          (above before last split)
        simp only [MemoryTree.catalog, here] at memory
        simp only [FileSystem.holds, View.fileSystem, MemoryTree.fileSystem, host, memory,
          LookupFault.error, MemoryTree.notFound, if_true]

/-- What a tree in memory says to stand at a path is there. -/
theorem exists_content_of_holds (wellFormed : tree.WellFormed) (intact : tree.catalog.Intact)
    {wanted : Bool} (holds : tree.fileSystem.holds path wanted = .ok true) :
    ∃ content, tree.contents (Path.names path) = some content ∧
      (content.kind == .directory) = wanted := by
  rcases FileSystem.holds_eq_true_iff.1 holds with ⟨entry, stat, isDirectory⟩
  have answer := wellFormed.answers.stat path (by simp [intact.stats])
  cases here : tree.contents (Path.names path) with
  | none =>
      simp only [MemoryTree.catalog, here] at answer
      exact absurd (stat.symm.trans answer) (by simp)
  | some content =>
      simp only [MemoryTree.catalog, here] at answer
      have entry_eq := Except.ok.inj (stat.symm.trans answer)
      subst entry_eq
      exact ⟨content, rfl, isDirectory⟩

/-- A candidate directory in the root is searched alike. -/
theorem rulesFileIn_eq (starts : view.Starts children trail fewer) (wellFormed : tree.WellFormed)
    (intact : tree.catalog.Intact) (same : (Node.directory children).Holds tree.contents)
    {directory name single : String} (name_eq : Path.names name = [single])
    (inRoot : (Path.names directory).length ≤ 1)
    (isFileName : ∀ part ∈ Path.names directory ++ [single], IsFileName (Bytes.ofText part))
    (takes : view.Takes directory) (takesFile : view.Takes (Path.join directory name)) :
    view.fileSystem.rulesFileIn name directory = tree.fileSystem.rulesFileIn name directory := by
  rcases List.forall_mem_append.1 isFileName with ⟨isFileNameDirectory, _⟩
  have join : view.fileSystem.join = tree.fileSystem.join := rfl
  apply FileSystem.rulesFileIn_eq join
  · apply holds_eq starts wellFormed intact same isFileNameDirectory takes
    intro before last split
    rw [split, List.length_append, List.length_singleton] at inRoot
    have atRoot : before = [] := List.eq_nil_of_length_eq_zero (by omega)
    rw [atRoot]
    exact wellFormed.contents_root
  · intro isDirectory
    have names_eq : Path.names (Path.join directory name) = Path.names directory ++ [single] := by
      rw [Path.names_join, name_eq]
    apply holds_eq starts wellFormed intact same (names_eq ▸ isFileName) takesFile
    intro before last split
    rw [names_eq] at split
    rcases List.append_inj' split rfl with ⟨rfl, _⟩
    rcases exists_content_of_holds wellFormed intact isDirectory with ⟨content, here, kind⟩
    cases content with
    | file text => exact absurd kind (by simp [Content.kind])
    | directory => exact here

/-- The candidates lie in the root, and all their names can be names of nodes. -/
theorem candidates_inRoot : ∀ directory ∈ Settings.candidateDirectories {},
    (Path.names directory).length ≤ 1 ∧
      ∀ part ∈ Path.names directory ++ ["CODEOWNERS"], IsFileName (Bytes.ofText part) := by
  decide

theorem loadTable_eq (starts : view.Starts children trail fewer) (wellFormed : tree.WellFormed)
    (intact : tree.catalog.Intact) (same : (Node.directory children).Holds tree.contents)
    (candidates : ∀ path ∈ Settings.candidateDirectories {} ++ Settings.rulesPaths {},
      view.Takes path) (skipped : List String) :
    view.fileSystem.loadTable { skippedNames := skipped } =
      tree.fileSystem.loadTable { skippedNames := skipped } := by
  have name_eq : Path.names "CODEOWNERS" = ["CODEOWNERS"] := by decide
  rcases List.forall_mem_append.1 candidates with ⟨takesDirectories, takesFiles⟩
  have takesFile : ∀ directory ∈ Settings.candidateDirectories {},
      view.Takes (Path.join directory "CODEOWNERS") := by
    intro directory mem
    apply takesFiles
    exact List.mem_map.2 ⟨directory, mem, rfl⟩
  apply FileSystem.loadTable_eq
  · intro directory mem
    rcases candidates_inRoot directory mem with ⟨inRoot, isFileName⟩
    exact rulesFileIn_eq starts wellFormed intact same name_eq inRoot isFileName
      (takesDirectories directory mem) (takesFile directory mem)
  · intro path found
    rcases FileSystem.exists_of_rulesFile found with ⟨directory, mem, joined, entry, stat, leaf⟩
    have path_eq : Path.join directory "CODEOWNERS" = path := joined
    subst path_eq
    rcases candidates_inRoot directory mem with ⟨_, isFileName⟩
    have names_eq : Path.names (Path.join directory "CODEOWNERS") =
        Path.names directory ++ ["CODEOWNERS"] := by
      rw [Path.names_join, name_eq]
    have holds := FileSystem.holds_eq_true_iff.2 ⟨entry, stat, leaf⟩
    rcases exists_content_of_holds wellFormed intact holds with ⟨content, here, kind⟩
    cases content with
    | directory => exact absurd kind (by simp [Content.kind])
    | file text =>
        have host := starts.read_of_file same (names_eq ▸ isFileName) (takesFile directory mem) here
        have memory := wellFormed.answers.read (Path.join directory "CODEOWNERS")
        simp only [MemoryTree.catalog, here] at memory
        exact host.trans memory.symm

end View

end Host

namespace Report

variable {first second : FileSystem} {settings : Settings}

/-- Reports by one table are the same where every visitor does the same. -/
theorem ofTable_eq (runs : ∀ {σ : Type} (visitor : Visitor σ) (state : σ),
      Traversal.run { fileSystem := first, skippedNames := settings.skippedNames } visitor state =
        Traversal.run { fileSystem := second, skippedNames := settings.skippedNames } visitor state)
    (table : RuleTable) (excluded : String → Bool) (remoteUrl revision : String) :
    ofTable first settings table excluded remoteUrl revision =
      ofTable second settings table excluded remoteUrl revision := by
  simp only [ofTable, Traversal.coverage, Traversal.coverageWith, runs]

/-- Reports are the same where the same table is loaded and every visitor does the same. -/
theorem generate_eq (tables : first.loadTable settings = second.loadTable settings)
    (runs : ∀ {σ : Type} (visitor : Visitor σ) (state : σ),
      Traversal.run { fileSystem := first, skippedNames := settings.skippedNames } visitor state =
        Traversal.run { fileSystem := second, skippedNames := settings.skippedNames } visitor state)
    (excluded : String → Bool) (remoteUrl revision : String) :
    generate first settings excluded remoteUrl revision =
      generate second settings excluded remoteUrl revision := by
  simp only [generate, tables, ofTable_eq runs]

end Report

namespace Host

namespace View

variable {view : View} {children : List (FileName × Node)}
  {operations : List MemoryTree.Operation}

/-- A directory of a host that takes the paths of all that is in it, and a tree in memory that holds
the same files and directories, are traversed alike: every visitor makes the same visits in the same
states on both, and ends in the same way. If the host also takes the paths of the default
candidates, which need not be there, the reports are the same too. -/
theorem agrees_with_memory (sound : view.tree.Sound)
    (root : view.tree.stat view.working (Bytes.ofText view.root) = .ok (.directory children))
    (builds : ∀ operation ∈ operations, Catalog.Builds operation)
    (same : (Node.directory children).Holds (MemoryTree.ofOperations operations).contents)
    (readable : ∀ names, (MemoryTree.ofOperations operations).contents names ≠ none →
      view.Takes (Path.ofNames names))
    (skipped : List String) :
    (∀ {σ : Type} (visitor : Visitor σ) (state : σ),
      (view.traversal skipped).run visitor state =
        ((MemoryTree.ofOperations operations).traversal skipped).run visitor state ∧
      (view.traversal skipped).visitsWithin view.fileSystem.visitLimit visitor state =
        ((MemoryTree.ofOperations operations).traversal skipped).visitsWithin
          (MemoryTree.ofOperations operations).fileSystem.visitLimit visitor state) ∧
    ((∀ path ∈ Settings.candidateDirectories {} ++ Settings.rulesPaths {}, view.Takes path) →
      ∀ (excluded : String → Bool) (remoteUrl revision : String),
        Report.generate view.fileSystem { skippedNames := skipped } excluded remoteUrl revision =
          Report.generate (MemoryTree.ofOperations operations).fileSystem
            { skippedNames := skipped } excluded remoteUrl revision) := by
  have wellFormed := MemoryTree.wellFormed_ofOperations operations
  have intact := MemoryTree.intact_catalog_ofOperations builds
  rcases exists_starts root with ⟨trail, fewer, starts⟩
  have sameChart := same.chart_eq
  have readableChart : view.Readable (Node.directory children).chart skipped := by
    intro names reached
    apply readable
    have stands := reached.stands
    rw [sameChart] at stands
    simpa [Contents.chart] using stands
  have runs {σ : Type} (visitor : Visitor σ) (state : σ) :
      (view.traversal skipped).run visitor state =
        ((MemoryTree.ofOperations operations).traversal skipped).run visitor state := by
    have follows : (view.traversal skipped).fileSystem.Follows (Node.directory children).chart :=
      starts.follows sound
    have otherFollows :
        ((MemoryTree.ofOperations operations).traversal skipped).fileSystem.Follows
          (Node.directory children).chart := sameChart ▸ wellFormed.follows
    exact Chart.run_eq follows otherFollows (starts.sound sound).grounded
      (Option.some_ne_none _) starts.withinLimit (sameChart ▸ wellFormed.withinLimit) rfl rfl rfl
      (starts.sees_of_readable sound readableChart)
      (MemoryTree.sees_of_intact wellFormed intact) visitor state
  refine ⟨?_, ?_⟩
  · intro σ visitor state
    refine ⟨runs visitor state, ?_⟩
    have recorded := runs (Traversal.recording visitor) (state, [])
    exact congrArg (fun result => result.2.2) recorded
  · intro candidates
    apply Report.generate_eq (loadTable_eq starts wellFormed intact same candidates skipped)
    exact runs

/-- A tree with a rules file, and a file in a directory. -/
def sampleFiles : List MemoryTree.Operation :=
  [.writeFile "b/c" "", .writeFile "CODEOWNERS" "* @a"]

/-- The same tree on a host, where it stands at `r` in the root. -/
def sampleNodes : List (FileName × Node) :=
  [(Bytes.ofText "CODEOWNERS", .file (Bytes.ofText "* @a")),
    (Bytes.ofText "b", .directory [(Bytes.ofText "c", .file (Bytes.ofText ""))])]

def sampleHost : View := ⟨⟨[([114], .directory sampleNodes)]⟩, [], "r"⟩

theorem contents_sampleFiles (names : List String) :
    (MemoryTree.ofOperations sampleFiles).contents names =
      if names = ["CODEOWNERS"] then some (.file "* @a")
      else if names = ["b", "c"] then some (.file "")
      else if names <+: ["b"] then some .directory else none := by
  have catalog := congrArg (fun catalog => catalog.contents names)
    (MemoryTree.catalog_ofOperations sampleFiles)
  have first : ¬Catalog.empty.Refuses (.writeFile "b/c" "") := by decide +kernel
  have second : ¬(Catalog.empty.performed (.writeFile "b/c" "")).Refuses
      (.writeFile "CODEOWNERS" "* @a") := by decide +kernel
  have firstNames : Path.names "b/c" = ["b", "c"] := by decide
  have secondNames : Path.names "CODEOWNERS" = ["CODEOWNERS"] := by decide
  simp only [MemoryTree.catalog, Catalog.ofOperations, sampleFiles, List.foldl, Catalog.after,
    if_neg first, if_neg second] at catalog
  rw [sampleFiles, catalog]
  simp only [Catalog.performed, firstNames, secondNames, Contents.withFile, Function.update_apply,
    Contents.withDirectories, Catalog.empty, List.dropLast, List.prefix_nil]
  by_cases atRoot : names = []
  · simp [atRoot]
  · simp [atRoot]

theorem mem_of_at?_sampleNodes {names : List String} {found : Node}
    (here : (Node.directory sampleNodes).at? (names.map Bytes.ofText) = some found) :
    names ∈ [[], ["CODEOWNERS"], ["b"], ["b", "c"]] := by
  have places : (Node.directory sampleNodes).places =
      [[], ["CODEOWNERS"], ["b"], ["b", "c"]].map (List.map Bytes.ofText) := by
    decide
  have injective : Function.Injective (List.map Bytes.ofText) :=
    List.map_injective_iff.2 fun _ _ => Bytes.ofText_injective
  rw [← List.mem_map_of_injective injective, ← places]
  exact Node.mem_places_of_at? here

theorem holds_sampleNodes :
    (Node.directory sampleNodes).Holds (MemoryTree.ofOperations sampleFiles).contents := by
  intro names
  rw [contents_sampleFiles]
  by_cases known : names ∈ [[], ["CODEOWNERS"], ["b"], ["b", "c"]]
  · simp only [List.mem_cons, List.not_mem_nil, or_false] at known
    rcases known with rfl | rfl | rfl | rfl
    · exact .some (.directory _)
    · exact .some (.file "* @a")
    · exact .some (.directory _)
    · exact .some (.file "")
  · have missing : (Node.directory sampleNodes).at? (names.map Bytes.ofText) = none :=
      Option.eq_none_iff_forall_ne_some.2 fun found here => known (mem_of_at?_sampleNodes here)
    have noPrefix : ¬names <+: ["b"] := by
      intro starts
      rcases List.prefix_cons_iff.1 starts with rfl | ⟨rest, rfl, ends⟩
      · exact known (by simp)
      · exact known (by simp [List.prefix_nil.1 ends])
    simp only [List.mem_cons, List.not_mem_nil, or_false, not_or] at known
    rw [missing, if_neg known.2.1, if_neg known.2.2.2, if_neg noPrefix]
    exact .none

theorem agrees_with_memory_sample :
    sampleHost.tree.Sound ∧
    sampleHost.tree.stat sampleHost.working (Bytes.ofText sampleHost.root) =
      .ok (.directory sampleNodes) ∧
    (∀ operation ∈ sampleFiles, Catalog.Builds operation) ∧
    (Node.directory sampleNodes).Holds (MemoryTree.ofOperations sampleFiles).contents ∧
    (∀ names, (MemoryTree.ofOperations sampleFiles).contents names ≠ none →
      sampleHost.Takes (Path.ofNames names)) ∧
    (∀ path ∈ Settings.candidateDirectories {} ++ Settings.rulesPaths {}, sampleHost.Takes path) ∧
    Report.generate sampleHost.fileSystem { skippedNames := [".git"] } (fun _ => false) "u" "s" =
      .ok (Report.ofSummary "u" "s" (CoverageSummary.ofCounts 1 1)) := by
  have soundRoot : (Node.directory sampleNodes).Sound := by
    refine .directory (by decide) (by decide) ?_
    simp only [sampleNodes, List.forall_mem_cons]
    refine ⟨.file _, .directory (by decide) (by decide) ?_, by simp⟩
    exact List.forall_mem_singleton.2 (.file _)
  have sound : sampleHost.tree.Sound :=
    .directory (by decide) (by decide) (List.forall_mem_singleton.2 soundRoot)
  have root : sampleHost.tree.stat sampleHost.working (Bytes.ofText sampleHost.root) =
      .ok (.directory sampleNodes) :=
    Tree.stat_of_at? (by decide) (by decide) (by decide) rfl (by decide) rfl
  have builds : ∀ operation ∈ sampleFiles, Catalog.Builds operation := by
    simp [sampleFiles, Catalog.Builds]
  have readable : ∀ names, (MemoryTree.ofOperations sampleFiles).contents names ≠ none →
      sampleHost.Takes (Path.ofNames names) := by
    intro names stands
    rcases Option.ne_none_iff_exists'.1 stands with ⟨content, here⟩
    rcases holds_sampleNodes.exists_at? here with ⟨found, found_eq, _⟩
    have takes : ∀ names ∈ [[], ["CODEOWNERS"], ["b"], ["b", "c"]],
        sampleHost.Takes (Path.ofNames names) := by
      unfold Takes
      decide +kernel
    exact takes names (mem_of_at?_sampleNodes found_eq)
  have candidates : ∀ path ∈ Settings.candidateDirectories {} ++ Settings.rulesPaths {},
      sampleHost.Takes path := by
    unfold Takes
    decide +kernel
  refine ⟨sound, root, builds, holds_sampleNodes, readable, candidates, ?_⟩
  have agree := agrees_with_memory sound root builds holds_sampleNodes readable [".git"]
  have inMemory : Report.generate (MemoryTree.ofOperations sampleFiles).fileSystem
      { skippedNames := [".git"] } (fun _ => false) "u" "s" =
        .ok (Report.ofSummary "u" "s" (CoverageSummary.ofCounts 1 1)) := by
    decide +kernel
  exact (agree.2 candidates _ _ _).trans inMemory

end View

end Host

end OwnerCoverage
