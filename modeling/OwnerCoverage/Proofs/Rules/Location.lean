import OwnerCoverage.Rules.Location

/-!
# Where the rules file is found

The rules file that a search finds stands at the name of the rules file in one of the candidate
directories, and it is no directory. Nothing else about a file system matters for the table that is
loaded (`loadTable_eq`).
-/

namespace OwnerCoverage

section First

variable {α : Type} {property other : α → Prop} {list : List α} {first : α}

/-- Whether something is the first in a list to have a property. -/
def IsFirst (property : α → Prop) (list : List α) (first : α) : Prop :=
  ∃ before after, list = before ++ first :: after ∧ property first ∧
    ∀ earlier ∈ before, ¬property earlier

theorem isFirst_iff_find? [DecidablePred property] :
    IsFirst property list first ↔ list.find? (fun item => decide (property item)) = some first := by
  rw [List.find?_eq_some_iff_append, IsFirst]
  constructor
  · rintro ⟨before, after, split, holds, none⟩
    exact ⟨by simpa using holds, before, after, split, by simpa using none⟩
  · rintro ⟨holds, before, after, split, none⟩
    exact ⟨before, after, split, by simpa using holds, by simpa using none⟩

theorem IsFirst.mem (isFirst : IsFirst property list first) : first ∈ list := by
  rcases isFirst with ⟨before, after, rfl, _⟩
  simp

theorem IsFirst.holds (isFirst : IsFirst property list first) : property first := by
  rcases isFirst with ⟨before, after, _, holds, _⟩
  exact holds

theorem IsFirst.unique {second : α} (isFirst : IsFirst property list first)
    (isSecond : IsFirst property list second) : first = second := by
  classical
  rw [isFirst_iff_find?] at isFirst isSecond
  exact Option.some.inj (isFirst.symm.trans isSecond)

/-- What is first to have a property is first to have a stronger one, if it has it. -/
theorem IsFirst.of_imp (isFirst : IsFirst property list first)
    (weaker : ∀ item, other item → property item) (holds : other first) :
    IsFirst other list first := by
  rcases isFirst with ⟨before, after, split, _, none⟩
  refine ⟨before, after, split, holds, ?_⟩
  intro earlier mem otherHolds
  exact none earlier mem (weaker earlier otherHolds)

theorem forall_not_or_exists_isFirst (property : α → Prop) (list : List α) :
    (∀ item ∈ list, ¬property item) ∨ ∃ first, IsFirst property list first := by
  classical
  rcases found : list.find? (fun item => decide (property item)) with _ | first
  · left
    simpa using List.find?_eq_none.1 found
  · exact Or.inr ⟨first, isFirst_iff_find?.2 found⟩

end First

/-- A table is what the text of a rules file is read as, whatever path it was read from. -/
theorem Failure.tableOfRead_eq_ok_iff {path : String} {answer : Except IoError String}
    {table : RuleTable} : Failure.tableOfRead path answer = .ok table ↔
      ∃ text, answer = .ok text ∧ RuleTable.ofText text = .ok table := by
  cases answer with
  | error error => simp [tableOfRead]
  | ok text => cases parsed : RuleTable.ofText text <;> simp [tableOfRead, parsed]

namespace FileSystem

variable {fileSystem : FileSystem} {name directory path : String} {directories : List String}

theorem holds_eq_true_iff {wanted : Bool} : fileSystem.holds path wanted = .ok true ↔
    ∃ entry, fileSystem.stat path = .ok entry ∧ entry.isDirectory = wanted := by
  rw [holds]
  cases fileSystem.stat path with
  | error error => by_cases missing : error.kind = .notFound <;> simp [missing]
  | ok entry => simp

theorem rulesFileIn_eq_some_iff : fileSystem.rulesFileIn name directory = .ok (some path) ↔
    fileSystem.holds directory true = .ok true ∧ fileSystem.join directory name = path ∧
      fileSystem.holds path false = .ok true := by
  rw [rulesFileIn]
  rcases fileSystem.holds directory true with error | _ | _
  · simp
  · simp
  · rcases found : fileSystem.holds (fileSystem.join directory name) false with error | _ | _
    · simp only [found]
      constructor
      · simp
      · rintro ⟨_, rfl, holds⟩
        simp [found] at holds
    · simp only [found]
      constructor
      · simp
      · rintro ⟨_, rfl, holds⟩
        simp [found] at holds
    · simp only [found, Except.ok.injEq, Option.some.injEq]
      constructor
      · rintro rfl
        exact ⟨trivial, rfl, found⟩
      · rintro ⟨_, same, _⟩
        exact same

theorem exists_of_firstRulesFile
    (found : fileSystem.firstRulesFile name directories = .ok (some path)) :
    ∃ directory ∈ directories, fileSystem.rulesFileIn name directory = .ok (some path) := by
  induction directories with
  | nil => simp [firstRulesFile] at found
  | cons directory directories ih =>
      rw [firstRulesFile] at found
      rcases here : fileSystem.rulesFileIn name directory with failure | _ | other
      · simp [here] at found
      · rw [here] at found
        rcases ih found with ⟨later, later_mem, inLater⟩
        exact ⟨later, List.mem_cons_of_mem directory later_mem, inLater⟩
      · rw [here, Except.ok.injEq] at found
        exact ⟨directory, List.mem_cons_self, found ▸ here⟩

theorem firstRulesFile_append {before : List String}
    (missing : ∀ earlier ∈ before, fileSystem.rulesFileIn name earlier = .ok none) :
    fileSystem.firstRulesFile name (before ++ directories) =
      fileSystem.firstRulesFile name directories := by
  induction before with
  | nil => rfl
  | cons earlier before ih =>
      rcases List.forall_mem_cons.1 missing with ⟨missingHere, missingLater⟩
      rw [List.cons_append, firstRulesFile, missingHere]
      exact ih missingLater

/-- The first candidate that is not passed over decides the search. -/
theorem firstRulesFile_of_isFirst
    (isFirst : IsFirst (fileSystem.rulesFileIn name · ≠ .ok none) directories directory) :
    fileSystem.firstRulesFile name directories = fileSystem.rulesFileIn name directory := by
  rcases isFirst with ⟨before, after, rfl, present, missing⟩
  rw [firstRulesFile_append (by simpa using missing), firstRulesFile]
  rcases here : fileSystem.rulesFileIn name directory with failure | _ | path
  · rfl
  · exact absurd here present
  · rfl

theorem firstRulesFile_of_missing
    (missing : ∀ directory ∈ directories, fileSystem.rulesFileIn name directory = .ok none) :
    fileSystem.firstRulesFile name directories = .ok none := by
  have none : fileSystem.firstRulesFile name (directories ++ []) =
      fileSystem.firstRulesFile name [] := firstRulesFile_append missing
  rwa [List.append_nil] at none

/-- What is found stands in a candidate directory and is no directory. -/
theorem exists_of_rulesFile {settings : Settings}
    (found : fileSystem.rulesFile settings = .ok path) :
    ∃ directory ∈ settings.candidateDirectories,
      fileSystem.join directory settings.rulesFileName = path ∧
        ∃ entry, fileSystem.stat path = .ok entry ∧ entry.isDirectory = false := by
  rw [rulesFile] at found
  rcases first : fileSystem.firstRulesFile settings.rulesFileName settings.candidateDirectories
    with failure | _ | other
  · simp [first] at found
  · simp [first] at found
  · rw [first, Except.ok.injEq] at found
    subst found
    rcases exists_of_firstRulesFile first with ⟨directory, mem, inside⟩
    rcases rulesFileIn_eq_some_iff.1 inside with ⟨_, same, file⟩
    exact ⟨directory, mem, same, holds_eq_true_iff.1 file⟩

theorem loadTable_eq_ok_iff {settings : Settings} {table : RuleTable} :
    fileSystem.loadTable settings = .ok (path, table) ↔
      fileSystem.rulesFile settings = .ok path ∧ fileSystem.tableAt path = .ok table := by
  rw [loadTable]
  cases fileSystem.rulesFile settings with
  | error failure => simp
  | ok found =>
      cases read : fileSystem.tableAt found with
      | error failure =>
          simp only [read, Except.map, Except.ok.injEq]
          constructor
          · simp
          · rintro ⟨rfl, parsed⟩
            rw [read] at parsed
            exact absurd parsed (by simp)
      | ok parsed =>
          simp only [read, Except.map, Except.ok.injEq, Prod.mk.injEq]
          constructor
          · rintro ⟨rfl, rfl⟩
            exact ⟨rfl, read⟩
          · rintro ⟨rfl, same⟩
            rw [read, Except.ok.injEq] at same
            exact ⟨rfl, same⟩

section Agreement

variable {other : FileSystem}

theorem rulesFileIn_eq (join : other.join = fileSystem.join)
    (directories : other.holds directory true = fileSystem.holds directory true)
    (files : fileSystem.holds directory true = .ok true →
      other.holds (fileSystem.join directory name) false =
        fileSystem.holds (fileSystem.join directory name) false) :
    other.rulesFileIn name directory = fileSystem.rulesFileIn name directory := by
  rw [rulesFileIn, rulesFileIn, directories, join]
  rcases holds : fileSystem.holds directory true with error | _ | _
  · rfl
  · rfl
  · simp only [files holds]

theorem firstRulesFile_eq (same : ∀ directory ∈ directories,
    other.rulesFileIn name directory = fileSystem.rulesFileIn name directory) :
    other.firstRulesFile name directories = fileSystem.firstRulesFile name directories := by
  induction directories with
  | nil => rfl
  | cons directory directories ih =>
      rcases List.forall_mem_cons.1 same with ⟨sameFirst, sameRest⟩
      rw [firstRulesFile, firstRulesFile, sameFirst, ih sameRest]

/-- A table is loaded in the same way where the candidates and the rules file are the same. -/
theorem loadTable_eq {settings : Settings}
    (same : ∀ directory ∈ settings.candidateDirectories,
      other.rulesFileIn settings.rulesFileName directory =
        fileSystem.rulesFileIn settings.rulesFileName directory)
    (reads : ∀ path, fileSystem.rulesFile settings = .ok path →
      other.read path = fileSystem.read path) :
    other.loadTable settings = fileSystem.loadTable settings := by
  have sameFile : other.rulesFile settings = fileSystem.rulesFile settings := by
    rw [rulesFile, rulesFile, firstRulesFile_eq same]
  rw [loadTable, loadTable, sameFile]
  cases found : fileSystem.rulesFile settings with
  | error failure => rfl
  | ok path => simp only [tableAt, reads path found]

end Agreement

end FileSystem

end OwnerCoverage
