import OwnerCoverage.Host.View
import OwnerCoverage.Proofs.Host.Resolution
import OwnerCoverage.Proofs.Rules.Location

/-!
# Finding the rules file on a host

A search for the rules file should pass over candidates where it is missing. On a host it is told by
a stat which does not follow a link at the end of a path, and by one kind of failure, whether a
candidate is missing. So there are candidates that offer no rules file and still end the search: the
path of the directory, or that of the rules file, leads through something that is no directory, or
the rules file is a link that leads to no file. `View.Obstructs` tells them apart.

The first candidate that offers a rules file or obstructs the search decides it
(`loadTable_skips_missing_iff`).
-/

namespace OwnerCoverage

namespace Host

namespace View

variable {view : View} {name directory path : String} {fault : LookupFault} {node : Node}

/-- Whether a path leads to a file, where a link at its end is followed. -/
def LeadsToFile (view : View) (path : String) : Prop :=
  view.tree.LeadsToFile view.working (Bytes.ofText (view.hostPath path))

/-- What stands at a path, which may be a link. -/
def nodeAt (view : View) (path : String) : Except LookupFault Node :=
  view.tree.stat view.working (Bytes.ofText (view.hostPath path))

/-- Whether a real directory stands at a path. -/
def IsDirectory (view : View) (path : String) : Prop :=
  ∃ children, view.nodeAt path = .ok (.directory children)

/-- Whether a candidate is a directory in which the name of the rules file leads to a file. Links
are followed for the file only. -/
structure Offers (view : View) (name directory : String) : Prop where
  isDirectory : view.IsDirectory directory
  leadsToFile : view.LeadsToFile (Path.join directory name)

/-- Whether the search ends at a candidate that offers no rules file, with a fault of the host on
some path. -/
inductive Obstructs (view : View) (name directory : String) : String → LookupFault → Prop
  | atDirectory {fault : LookupFault} (unknown : view.nodeAt directory = .error fault)
      (notMissing : fault ≠ .notFound) : Obstructs view name directory directory fault
  | atRulesFile {fault : LookupFault} (isDirectory : view.IsDirectory directory)
      (unknown : view.nodeAt (Path.join directory name) = .error fault)
      (notMissing : fault ≠ .notFound) :
      Obstructs view name directory (Path.join directory name) fault
  | atReading {node : Node} {fault : LookupFault} (isDirectory : view.IsDirectory directory)
      (known : view.nodeAt (Path.join directory name) = .ok node)
      (noDirectory : node.kind ≠ .directory)
      (leadsNowhere : ¬view.LeadsToFile (Path.join directory name))
      (unread : view.tree.read view.working
        (Bytes.ofText (view.hostPath (Path.join directory name))) = .error fault) :
      Obstructs view name directory (Path.join directory name) fault

/-- Whether a search is not continued behind a candidate. -/
def Decides (view : View) (name directory : String) : Prop :=
  view.Offers name directory ∨ ∃ path fault, view.Obstructs name directory path fault

/-- Whether a candidate decides the search: it is the first one behind which that is not
continued. -/
def DecidedBy (view : View) (settings : Settings) (directory : String) : Prop :=
  IsFirst (view.Decides settings.rulesFileName) settings.candidateDirectories directory

/-- Whether a table is loaded as if candidates without a rules file were not there. -/
structure SkipsMissing (view : View) (settings : Settings) : Prop where
  noIo : ∀ path error, view.fileSystem.loadTable settings = .error (.io path error) →
    error.kind ≠ .notFound ∧ error.kind ≠ .notADirectory ∧ error.kind ≠ .isADirectory
  first : ∀ directory,
    IsFirst (view.Offers settings.rulesFileName) settings.candidateDirectories directory →
      view.fileSystem.loadTable settings =
        (view.fileSystem.tableAt (Path.join directory settings.rulesFileName)).map
          fun table => (Path.join directory settings.rulesFileName, table)
  missing : view.fileSystem.loadTable settings =
      .error (.noRulesFile settings.rulesFileName settings.candidateDirectories) ↔
    ∀ directory ∈ settings.candidateDirectories, ¬view.Offers settings.rulesFileName directory

section Answers

theorem stat_of_nodeAt (known : view.nodeAt path = .ok node) :
    view.fileSystem.stat path = .ok ⟨Path.baseName path, node.kind⟩ := by
  rw [View.nodeAt] at known
  simp only [fileSystem, View.stat, known]

theorem stat_of_nodeAt_error (unknown : view.nodeAt path = .error fault) :
    view.fileSystem.stat path = .error fault.error := by
  rw [View.nodeAt] at unknown
  simp only [fileSystem, View.stat, unknown]

theorem kind_error_eq_notFound_iff : fault.error.kind = .notFound ↔ fault = .notFound := by
  cases fault <;> simp [LookupFault.error]

theorem holds_of_nodeAt (known : view.nodeAt path = .ok node) (wanted : Bool) :
    view.fileSystem.holds path wanted = .ok ((node.kind == .directory) == wanted) := by
  rw [FileSystem.holds, stat_of_nodeAt known]
  rfl

theorem holds_of_missing (missing : view.nodeAt path = .error .notFound) (wanted : Bool) :
    view.fileSystem.holds path wanted = .ok false := by
  rw [FileSystem.holds, stat_of_nodeAt_error missing]
  rfl

theorem holds_of_nodeAt_error (unknown : view.nodeAt path = .error fault)
    (notMissing : fault ≠ .notFound) (wanted : Bool) :
    view.fileSystem.holds path wanted = .error fault.error := by
  rw [FileSystem.holds, stat_of_nodeAt_error unknown]
  exact if_neg (mt kind_error_eq_notFound_iff.1 notMissing)

theorem IsDirectory.holds (isDirectory : view.IsDirectory path) :
    view.fileSystem.holds path true = .ok true := by
  rcases isDirectory with ⟨children, known⟩
  exact holds_of_nodeAt known true

/-- What stands at a path that leads to a file is no directory. -/
theorem LeadsToFile.exists_nodeAt (leadsToFile : view.LeadsToFile path) :
    ∃ node, view.nodeAt path = .ok node ∧ node.kind ≠ .directory := by
  rcases leadsToFile with ⟨trail, contents, resolved, atTrail⟩
  rw [View.nodeAt, Tree.stat]
  rcases stopped : view.tree.resolve false view.working (Bytes.ofText (view.hostPath path))
    with fault | last
  · rw [Tree.resolve_true_of_error stopped] at resolved
    exact absurd resolved (by simp)
  · refine ⟨view.tree.nodeAt last, rfl, ?_⟩
    intro directory
    rw [Tree.resolve_true_of_no_link stopped (by simp [directory]), Except.ok.injEq] at resolved
    subst resolved
    rw [atTrail] at directory
    exact absurd directory (by simp [Node.kind])

theorem LeadsToFile.holds (leadsToFile : view.LeadsToFile path) :
    view.fileSystem.holds path false = .ok true := by
  rcases leadsToFile.exists_nodeAt with ⟨node, known, noDirectory⟩
  rw [holds_of_nodeAt known]
  simpa using noDirectory

theorem tableAt_of_read_error
    (unread : view.tree.read view.working (Bytes.ofText (view.hostPath path)) = .error fault) :
    view.fileSystem.tableAt path = .error (.io path fault.error) := by
  simp only [FileSystem.tableAt, fileSystem, View.read, unread, Failure.tableOfRead]

/-- The only fault of the host on a file is that it holds no text. -/
theorem LeadsToFile.io (leadsToFile : view.LeadsToFile path) {other : String} {error : IoError}
    (failed : view.fileSystem.tableAt path = .error (.io other error)) :
    other = path ∧ error = LookupFault.notUtf8.error := by
  rcases leadsToFile with ⟨trail, contents, resolved, atTrail⟩
  cases decoded : contents.toText? with
  | none =>
      have unread : view.fileSystem.tableAt path = .error (.io path LookupFault.notUtf8.error) := by
        apply tableAt_of_read_error
        simp only [Tree.read, resolved, atTrail, decoded]
      rw [unread, Except.error.injEq, Failure.io.injEq] at failed
      exact ⟨failed.1.symm, failed.2.symm⟩
  | some text =>
      have read : view.fileSystem.read path = .ok text := by
        simp only [fileSystem, View.read, Tree.read, resolved, atTrail, decoded]
      simp only [FileSystem.tableAt, read, Failure.tableOfRead] at failed
      split at failed <;> simp at failed

end Answers

section Candidates

theorem Offers.rulesFileIn (offers : view.Offers name directory) :
    view.fileSystem.rulesFileIn name directory = .ok (some (Path.join directory name)) :=
  FileSystem.rulesFileIn_eq_some_iff.2
    ⟨offers.isDirectory.holds, rfl, offers.leadsToFile.holds⟩

/-- An obstructed search ends at once, or finds what is not read then. -/
theorem Obstructs.rulesFileIn (obstructs : view.Obstructs name directory path fault) :
    view.fileSystem.rulesFileIn name directory = .error (.io path fault.error) ∨
      view.fileSystem.rulesFileIn name directory = .ok (some path) ∧
        view.fileSystem.tableAt path = .error (.io path fault.error) := by
  cases obstructs with
  | atDirectory unknown notMissing =>
      left
      rw [FileSystem.rulesFileIn, holds_of_nodeAt_error unknown notMissing]
  | atRulesFile isDirectory unknown notMissing =>
      left
      have failed := holds_of_nodeAt_error unknown notMissing false
      have join : view.fileSystem.join directory name = Path.join directory name := rfl
      simp only [FileSystem.rulesFileIn, isDirectory.holds, join, failed]
  | atReading isDirectory known noDirectory leadsNowhere unread =>
      right
      refine ⟨FileSystem.rulesFileIn_eq_some_iff.2 ⟨isDirectory.holds, rfl, ?_⟩,
        tableAt_of_read_error unread⟩
      rw [holds_of_nodeAt known]
      simpa using noDirectory

/-- Where the search is obstructed, there is no file to be read. -/
theorem Obstructs.leadsNowhere (obstructs : view.Obstructs name directory path fault) :
    ¬view.LeadsToFile path := by
  intro leadsToFile
  rcases leadsToFile.exists_nodeAt with ⟨node, known, _⟩
  cases obstructs with
  | atDirectory unknown _ => exact absurd (known.symm.trans unknown) (by simp)
  | atRulesFile _ unknown _ => exact absurd (known.symm.trans unknown) (by simp)
  | atReading _ _ _ leadsNowhere _ => exact leadsNowhere leadsToFile

theorem decides_of_isDirectory (isDirectory : view.IsDirectory directory)
    (present : view.fileSystem.holds (Path.join directory name) false ≠ .ok false) :
    view.Decides name directory := by
  rcases known : view.nodeAt (Path.join directory name) with fault | node
  · have notMissing : fault ≠ .notFound := by
      rintro rfl
      exact present (holds_of_missing known false)
    exact Or.inr ⟨_, _, .atRulesFile isDirectory known notMissing⟩
  · have noDirectory : node.kind ≠ .directory := by
      intro kind
      apply present
      rw [holds_of_nodeAt known, kind]
      rfl
    by_cases leadsToFile : view.LeadsToFile (Path.join directory name)
    · exact Or.inl ⟨isDirectory, leadsToFile⟩
    · rcases Tree.exists_read_error leadsToFile with ⟨fault, unread⟩
      exact Or.inr ⟨_, _, .atReading isDirectory known noDirectory leadsToFile unread⟩

/-- A candidate is passed over exactly if it neither offers a rules file nor obstructs the
search. -/
theorem decides_iff :
    view.Decides name directory ↔ view.fileSystem.rulesFileIn name directory ≠ .ok none := by
  have join : view.fileSystem.join directory name = Path.join directory name := rfl
  constructor
  · rintro (offers | ⟨path, fault, obstructs⟩)
    · simp [offers.rulesFileIn]
    · rcases obstructs.rulesFileIn with ends | ⟨finds, _⟩
      · simp [ends]
      · simp [finds]
  · intro present
    rcases known : view.nodeAt directory with fault | node
    · have notMissing : fault ≠ .notFound := by
        rintro rfl
        apply present
        rw [FileSystem.rulesFileIn, holds_of_missing known]
      exact Or.inr ⟨_, _, .atDirectory known notMissing⟩
    · have kind : node.kind = .directory := by
        by_contra other
        apply present
        rw [FileSystem.rulesFileIn, holds_of_nodeAt known, beq_eq_false_iff_ne.2 other]
        rfl
      rcases Node.kind_eq_directory_iff.1 kind with ⟨children, rfl⟩
      have isDirectory : view.IsDirectory directory := ⟨children, known⟩
      apply decides_of_isDirectory isDirectory
      intro absent
      apply present
      simp only [FileSystem.rulesFileIn, isDirectory.holds, join, absent]

end Candidates

section Loading

variable {settings : Settings}

theorem firstRulesFile_of_decidedBy (decidedBy : view.DecidedBy settings directory) :
    view.fileSystem.firstRulesFile settings.rulesFileName settings.candidateDirectories =
      view.fileSystem.rulesFileIn settings.rulesFileName directory := by
  rcases decidedBy with ⟨before, after, split, decides, undecided⟩
  apply FileSystem.firstRulesFile_of_isFirst
  refine ⟨before, after, split, decides_iff.1 decides, ?_⟩
  intro earlier mem
  exact mt decides_iff.2 (undecided earlier mem)

theorem loadTable_of_offers (decidedBy : view.DecidedBy settings directory)
    (offers : view.Offers settings.rulesFileName directory) :
    view.fileSystem.loadTable settings =
      (view.fileSystem.tableAt (Path.join directory settings.rulesFileName)).map
        fun table => (Path.join directory settings.rulesFileName, table) := by
  rw [FileSystem.loadTable, FileSystem.rulesFile, firstRulesFile_of_decidedBy decidedBy,
    offers.rulesFileIn]

theorem loadTable_of_obstructs (decidedBy : view.DecidedBy settings directory)
    (obstructs : view.Obstructs settings.rulesFileName directory path fault) :
    view.fileSystem.loadTable settings = .error (.io path fault.error) := by
  rw [FileSystem.loadTable, FileSystem.rulesFile, firstRulesFile_of_decidedBy decidedBy]
  rcases obstructs.rulesFileIn with ends | ⟨finds, unread⟩
  · rw [ends]
  · rw [finds]
    simp only [unread, Except.map]

theorem loadTable_of_undecided
    (undecided : ∀ directory ∈ settings.candidateDirectories,
      ¬view.Decides settings.rulesFileName directory) :
    view.fileSystem.loadTable settings =
      .error (.noRulesFile settings.rulesFileName settings.candidateDirectories) := by
  have missing : ∀ directory ∈ settings.candidateDirectories,
      view.fileSystem.rulesFileIn settings.rulesFileName directory = .ok none := by
    intro directory mem
    by_contra present
    exact undecided directory mem (decides_iff.2 present)
  rw [FileSystem.loadTable, FileSystem.rulesFile, FileSystem.firstRulesFile_of_missing missing]

/-- The only fault of the host on a file that is loaded is that it holds no text. -/
theorem io_of_map_tableAt (leadsToFile : view.LeadsToFile path) {other : String} {error : IoError}
    (failed : (view.fileSystem.tableAt path).map (fun table => (path, table)) =
      .error (.io other error)) : other = path ∧ error = LookupFault.notUtf8.error := by
  apply leadsToFile.io
  rcases loaded : view.fileSystem.tableAt path with failure | table
  · rw [loaded, Except.map, Except.error.injEq] at failed
    rw [failed]
  · rw [loaded] at failed
    exact absurd failed (by simp [Except.map])

theorem skipsMissing_of_offers (decidedBy : view.DecidedBy settings directory)
    (offers : view.Offers settings.rulesFileName directory) : view.SkipsMissing settings := by
  have loads := loadTable_of_offers decidedBy offers
  have isFirstOffer : IsFirst (view.Offers settings.rulesFileName) settings.candidateDirectories
      directory := IsFirst.of_imp decidedBy (fun _ => Or.inl) offers
  constructor
  case noIo =>
    intro path error failed
    rw [loads] at failed
    rcases io_of_map_tableAt offers.leadsToFile failed with ⟨_, rfl⟩
    simp [LookupFault.error]
  case first =>
    intro other otherFirst
    rw [otherFirst.unique isFirstOffer]
    exact loads
  case missing =>
    refine iff_of_false ?_ fun none => none directory isFirstOffer.mem offers
    rw [loads, FileSystem.tableAt]
    rcases view.fileSystem.read (Path.join directory settings.rulesFileName) with error | text
    · simp [Failure.tableOfRead, Except.map]
    · rw [Failure.tableOfRead]
      rcases RuleTable.ofText text with error | table <;> simp [Except.map]

theorem skipsMissing_of_undecided
    (undecided : ∀ directory ∈ settings.candidateDirectories,
      ¬view.Decides settings.rulesFileName directory) : view.SkipsMissing settings := by
  have fails := loadTable_of_undecided undecided
  constructor
  case noIo =>
    intro path error failed
    exact absurd (fails.symm.trans failed) (by simp)
  case first =>
    intro directory isFirstOffer
    exact absurd (Or.inl isFirstOffer.holds) (undecided directory isFirstOffer.mem)
  case missing =>
    refine iff_of_true fails ?_
    intro directory mem offers
    exact undecided directory mem (Or.inl offers)

/-- A search that is obstructed does not load the file that is offered first, nor does it tell that
none is offered. -/
theorem not_skipsMissing_of_obstructs (decidedBy : view.DecidedBy settings directory)
    (obstructs : view.Obstructs settings.rulesFileName directory path fault) :
    ¬view.SkipsMissing settings := by
  intro skips
  have fails := loadTable_of_obstructs decidedBy obstructs
  rcases forall_not_or_exists_isFirst (view.Offers settings.rulesFileName)
    settings.candidateDirectories with none | ⟨offering, isFirstOffer⟩
  · have missing := skips.missing.2 none
    exact absurd (missing.symm.trans fails) (by simp)
  · have leadsToFile := isFirstOffer.holds.leadsToFile
    have loads := skips.first offering isFirstOffer
    rw [fails] at loads
    rcases io_of_map_tableAt leadsToFile loads.symm with ⟨rfl, _⟩
    exact obstructs.leadsNowhere leadsToFile

/-- A table is loaded as if the candidates without a rules file were not there exactly if the first
candidate that does not let the search go on, if any does not, offers a rules file. Otherwise that
candidate obstructs the search, which ends with the fault of the host there. -/
theorem loadTable_skips_missing_iff (view : View) (settings : Settings) :
    (view.SkipsMissing settings ↔ ∀ directory, view.DecidedBy settings directory →
      view.Offers settings.rulesFileName directory) ∧
    ∀ directory path fault, view.DecidedBy settings directory →
      view.Obstructs settings.rulesFileName directory path fault →
        view.fileSystem.loadTable settings = .error (.io path fault.error) := by
  refine ⟨⟨?_, ?_⟩, fun _ _ _ => loadTable_of_obstructs⟩
  · intro skips directory decidedBy
    rcases IsFirst.holds decidedBy with offers | ⟨path, fault, obstructs⟩
    · exact offers
    · exact absurd skips (not_skipsMissing_of_obstructs decidedBy obstructs)
  · intro offered
    rcases forall_not_or_exists_isFirst (view.Decides settings.rulesFileName)
      settings.candidateDirectories with undecided | ⟨directory, decidedBy⟩
    · exact skipsMissing_of_undecided undecided
    · exact skipsMissing_of_offers decidedBy (offered directory decidedBy)

/-- A directory with a rules file, a file, and two directories in which the rules file is a link: to
nothing, and to the directory itself. -/
def misleadingChildren : List (FileName × Node) :=
  [(Bytes.ofText "CODEOWNERS", .file (Bytes.ofText "* @a")), (Bytes.ofText "main.rs", .file []),
    (Bytes.ofText "docs", .directory [(Bytes.ofText "CODEOWNERS", .link (Bytes.ofText "none"))]),
    (Bytes.ofText ".github", .directory [(Bytes.ofText "CODEOWNERS", .link (Bytes.ofText "."))])]

/-- The directory is the root of the host. -/
def misleadingView : View := ⟨⟨misleadingChildren⟩, [], "/"⟩

theorem misleadingView_offers : misleadingView.Offers "CODEOWNERS" "." := by
  refine ⟨⟨misleadingChildren, rfl⟩, ?_⟩
  exact ⟨[(Bytes.ofText "CODEOWNERS", .file (Bytes.ofText "* @a"))], Bytes.ofText "* @a",
    by with_unfolding_all rfl, rfl⟩

/-- A candidate below a file, and rules files that are links to nothing or to a directory, make the
search fail although another candidate offers a rules file. -/
theorem not_skipsMissing_of_missing :
    misleadingView.fileSystem.loadTable { candidateDirectories := ["main.rs/x", "."] } =
      .error (.io "main.rs/x" LookupFault.notADirectory.error) ∧
    misleadingView.fileSystem.loadTable { candidateDirectories := ["docs", "."] } =
      .error (.io "docs/CODEOWNERS" LookupFault.notFound.error) ∧
    misleadingView.fileSystem.loadTable { candidateDirectories := [".github", "."] } =
      .error (.io ".github/CODEOWNERS" LookupFault.isADirectory.error) ∧
    misleadingView.Offers "CODEOWNERS" "." ∧
    ∀ directory ∈ ["main.rs/x", "docs", ".github"],
      ¬misleadingView.SkipsMissing { candidateDirectories := [directory, "."] } := by
  have belowFile : misleadingView.fileSystem.loadTable
      { candidateDirectories := ["main.rs/x", "."] } =
        .error (.io "main.rs/x" LookupFault.notADirectory.error) := by with_unfolding_all rfl
  have dangling : misleadingView.fileSystem.loadTable { candidateDirectories := ["docs", "."] } =
      .error (.io "docs/CODEOWNERS" LookupFault.notFound.error) := by with_unfolding_all rfl
  have toDirectory : misleadingView.fileSystem.loadTable
      { candidateDirectories := [".github", "."] } =
        .error (.io ".github/CODEOWNERS" LookupFault.isADirectory.error) := by
    with_unfolding_all rfl
  refine ⟨belowFile, dangling, toDirectory, misleadingView_offers, ?_⟩
  simp only [List.forall_mem_cons]
  refine ⟨?_, ?_, ?_, by simp⟩
  · intro skips
    exact (skips.noIo _ _ belowFile).2.1 rfl
  · intro skips
    exact (skips.noIo _ _ dangling).1 rfl
  · intro skips
    exact (skips.noIo _ _ toDirectory).2.2 rfl

/-- Candidates that are missing, or are no directories, are passed over, up to one that decides. -/
theorem loadTable_skips_missing_iff_samples :
    misleadingView.SkipsMissing { candidateDirectories := ["doc", "main.rs", "."] } ∧
    ¬misleadingView.SkipsMissing { candidateDirectories := ["doc", "docs", "."] } ∧
    misleadingView.fileSystem.loadTable { candidateDirectories := ["doc", "docs", "."] } =
      .error (.io "docs/CODEOWNERS" LookupFault.notFound.error) := by
  have passesDoc : ¬misleadingView.Decides "CODEOWNERS" "doc" := by
    rw [decides_iff, not_not]
    decide +kernel
  have passesFile : ¬misleadingView.Decides "CODEOWNERS" "main.rs" := by
    rw [decides_iff, not_not]
    decide +kernel
  have decidedByRoot :
      misleadingView.DecidedBy { candidateDirectories := ["doc", "main.rs", "."] } "." :=
    ⟨["doc", "main.rs"], [], rfl, Or.inl misleadingView_offers, by simp [passesDoc, passesFile]⟩
  have leadsNowhere : ¬misleadingView.LeadsToFile (Path.join "docs" "CODEOWNERS") := by
    rintro ⟨trail, contents, resolved, _⟩
    have unresolved : misleadingView.tree.resolve true misleadingView.working
        (Bytes.ofText (misleadingView.hostPath (Path.join "docs" "CODEOWNERS"))) =
          .error .notFound := by with_unfolding_all rfl
    exact absurd (resolved.symm.trans unresolved) (by simp)
  have obstructs : misleadingView.Obstructs "CODEOWNERS" "docs" "docs/CODEOWNERS" .notFound := by
    have isDirectory : misleadingView.IsDirectory "docs" := ⟨_, by with_unfolding_all rfl⟩
    have known : misleadingView.nodeAt (Path.join "docs" "CODEOWNERS") =
        .ok (.link (Bytes.ofText "none")) := by with_unfolding_all rfl
    exact .atReading isDirectory known (by simp [Node.kind]) leadsNowhere
      (by with_unfolding_all rfl)
  have decidedByDocs :
      misleadingView.DecidedBy { candidateDirectories := ["doc", "docs", "."] } "docs" :=
    ⟨["doc"], ["."], rfl, Or.inr ⟨_, _, obstructs⟩, by simp [passesDoc]⟩
  rcases loadTable_skips_missing_iff misleadingView
    { candidateDirectories := ["doc", "main.rs", "."] } with ⟨skipsIff, _⟩
  rcases loadTable_skips_missing_iff misleadingView
    { candidateDirectories := ["doc", "docs", "."] } with ⟨otherSkipsIff, fails⟩
  refine ⟨?_, ?_, fails _ _ _ decidedByDocs obstructs⟩
  · apply skipsIff.2
    intro directory decidedBy
    rw [IsFirst.unique decidedBy decidedByRoot]
    exact misleadingView_offers
  · intro skips
    exact leadsNowhere (otherSkipsIff.1 skips "docs" decidedByDocs).leadsToFile

end Loading

end View

end Host

end OwnerCoverage
