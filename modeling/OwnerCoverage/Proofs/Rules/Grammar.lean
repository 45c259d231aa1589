import Mathlib.Data.List.TakeWhile
import OwnerCoverage.Proofs.Rules.Fields

/-!
# The grammar of rules lines

A line that holds a rule is put together from blanks, a pattern, owners with blanks before each of
them, and more blanks; line ends behind that do not belong to it. `Parts` are such parts of a line,
and `Parts.Grammatical` says what they may be, without a word on how a line is read. Whether a blank
of a pattern is escaped is told by the number of backslashes that stand right before it.

A line is read as its parts, which it can be cut into in one way only, and all that the grammar
allows is read (`split?_reads_grammar`).
-/

namespace OwnerCoverage

namespace RulesLine

/-- An owner with the blanks before it. -/
@[ext]
structure SpacedOwner where
  gap : List Char
  owner : List Char
deriving DecidableEq, Repr

/-- The parts that a line is put together from. -/
@[ext]
structure Parts where
  indent : List Char
  pattern : List Char
  owners : List SpacedOwner
  ending : List Char
deriving DecidableEq, Repr

/-- What stands behind the pattern: owners, and blanks behind the last of them. -/
def tailText (owners : List SpacedOwner) (ending : List Char) : List Char :=
  owners.flatMap (fun spaced => spaced.gap ++ spaced.owner) ++ ending

/-- The line that some parts make up. -/
def Parts.text (parts : Parts) : List Char :=
  parts.indent ++ (parts.pattern ++ tailText parts.owners parts.ending)

/-- The fields among the parts of a line. -/
def Parts.fields (parts : Parts) : RulesLine :=
  ⟨String.ofList parts.pattern, parts.owners.map fun spaced => String.ofList spaced.owner⟩

/-- A line without the line ends behind it. -/
def lineText (line : String) : List Char := Text.dropEndWhile isLineEnd line.toList

def AllBlank (text : List Char) : Prop := ∀ char ∈ text, Text.isBlank char = true

/-- Whether the run of backslashes at the end of a text is odd in length. -/
def EndsInOddBackslashes (text : List Char) : Prop :=
  (text.reverse.takeWhile (· == '\\')).length % 2 = 1

/-- What stands behind a pattern: each owner is a word behind at least one blank. -/
structure IsTail (owners : List SpacedOwner) (ending : List Char) : Prop where
  gaps : ∀ spaced ∈ owners, spaced.gap ≠ [] ∧ AllBlank spaced.gap
  areWords : ∀ spaced ∈ owners, IsWord spaced.owner
  ending : AllBlank ending

/-- What the parts of a line may be. -/
structure Parts.Grammatical (parts : Parts) : Prop where
  indent : AllBlank parts.indent
  starts : StartsPattern parts.pattern
  escaped : ∀ before blank after, parts.pattern = before ++ blank :: after →
    Text.isBlank blank = true → EndsInOddBackslashes before
  closed : EndsInOddBackslashes parts.pattern → parts.owners = [] ∧ parts.ending = []
  tail : IsTail parts.owners parts.ending

/-- Whether a text has no first field, or one that starts a comment. -/
def HoldsNoRule (text : List Char) : Prop :=
  ∀ first, text.find? (fun char => !Text.isBlank char) = some first → first = '#'

section Patterns

variable {text pattern : List Char}

theorem endsEscaped_iff : endsEscaped false text = true ↔ EndsInOddBackslashes text :=
  endsEscaped_iff_odd text

/-- A blank is escaped exactly if the run of backslashes right before it is odd in length. -/
theorem noBareBlank_iff : NoBareBlank false pattern ↔
    ∀ before blank after, pattern = before ++ blank :: after →
      Text.isBlank blank = true → EndsInOddBackslashes before := by
  constructor
  · intro noBareBlank before blank after split isBlank
    rw [split] at noBareBlank
    exact endsEscaped_iff.1 ((noBareBlank_append_iff.1 noBareBlank).2.1 isBlank)
  · intro escaped
    induction pattern using List.reverseRecOn with
    | nil => trivial
    | append_singleton pattern last ih =>
        apply noBareBlank_append_iff.2
        refine ⟨?_, ?_, trivial⟩
        · apply ih
          intro before blank after split isBlank
          apply escaped before blank (after ++ [last]) _ isBlank
          rw [split, List.append_assoc, List.cons_append]
        · intro isBlank
          exact endsEscaped_iff.2 (escaped pattern last [] rfl isBlank)

end Patterns

section Tails

variable {owners otherOwners : List SpacedOwner} {ending otherEnding : List Char}

theorem not_isBlank_of_head? {word rest : List Char} (isWord : IsWord word) :
    ∀ char ∈ (word ++ rest).head?, Text.isBlank char = false := by
  intro char head
  rw [List.head?_append_of_ne_nil word isWord.nonempty] at head
  exact isWord.noBlank char (List.mem_of_mem_head? head)

/-- Nothing stands behind a pattern, or a blank does. -/
theorem isBlank_of_head?_tailText (isTail : IsTail owners ending) :
    ∀ char ∈ (tailText owners ending).head?, Text.isBlank char = true := by
  intro char head
  cases owners with
  | nil => exact isTail.ending char (List.mem_of_mem_head? head)
  | cons spaced owners =>
      rcases isTail.gaps spaced List.mem_cons_self with ⟨nonempty, blanks⟩
      rw [tailText, List.flatMap_cons, List.append_assoc, List.append_assoc,
        List.head?_append_of_ne_nil spaced.gap nonempty] at head
      exact blanks char (List.mem_of_mem_head? head)

theorem tailText_cons (spaced : SpacedOwner) (owners : List SpacedOwner) (ending : List Char) :
    tailText (spaced :: owners) ending =
      spaced.gap ++ (spaced.owner ++ tailText owners ending) := by
  simp [tailText]

theorem IsTail.of_cons {spaced : SpacedOwner} (isTail : IsTail (spaced :: owners) ending) :
    IsTail owners ending :=
  ⟨fun other mem => isTail.gaps other (List.mem_cons_of_mem spaced mem),
    fun other mem => isTail.areWords other (List.mem_cons_of_mem spaced mem), isTail.ending⟩

/-- What starts with a blank, or is empty, is owners with blanks before them, and more blanks. -/
theorem exists_isTail {text : List Char}
    (starts : ∀ char ∈ text.head?, Text.isBlank char = true) :
    ∃ owners ending, IsTail owners ending ∧ tailText owners ending = text := by
  -- The induction is on the length, since blanks and an owner are taken off at once.
  induction length : text.length using Nat.strong_induction_on generalizing text with
  | _ length ih =>
      subst length
      rcases Text.exists_append_of_stops Text.isBlank text with ⟨gap, body, rfl, blanks, gapStops⟩
      rcases Text.exists_append_of_stops (!Text.isBlank ·) body with
        ⟨owner, rest, rfl, noBlanks, ownerStops⟩
      simp only [Bool.not_eq_true', Bool.not_eq_false'] at noBlanks ownerStops
      by_cases nothing : owner = []
      · -- What stops the blanks is no blank, and what stops the owner is one.
        have noRest : rest = [] := by
          rcases rest with _ | ⟨first, rest⟩
          · rfl
          · subst nothing
            have isBlank := ownerStops first rfl
            rw [gapStops first rfl] at isBlank
            exact absurd isBlank (by simp)
        subst nothing noRest
        exact ⟨[], gap, ⟨by simp, by simp, blanks⟩, by simp [tailText]⟩
      · have someGap : gap ≠ [] := by
          rintro rfl
          rcases owner with _ | ⟨first, owner⟩
          · exact nothing rfl
          · have isBlank := starts first rfl
            rw [noBlanks first List.mem_cons_self] at isBlank
            exact absurd isBlank (by simp)
        have shorter : rest.length < (gap ++ (owner ++ rest)).length := by
          have positive := List.length_pos_of_ne_nil someGap
          simp only [List.length_append]
          omega
        rcases ih rest.length shorter ownerStops rfl with ⟨owners, ending, isTail, rfl⟩
        refine ⟨⟨gap, owner⟩ :: owners, ending, ⟨?_, ?_, isTail.ending⟩, tailText_cons _ _ _⟩
        · exact List.forall_mem_cons.2 ⟨⟨someGap, blanks⟩, isTail.gaps⟩
        · exact List.forall_mem_cons.2 ⟨⟨nothing, noBlanks⟩, isTail.areWords⟩

/-- Blanks alone hold no owner. -/
theorem eq_nil_of_allBlank_tailText (isTail : IsTail owners ending)
    (blanks : AllBlank (tailText owners ending)) : owners = [] := by
  cases owners with
  | nil => rfl
  | cons spaced owners =>
      have isWord := isTail.areWords spaced List.mem_cons_self
      rcases List.exists_mem_of_ne_nil _ isWord.nonempty with ⟨char, mem⟩
      have isBlank := blanks char (by simp [tailText_cons, mem])
      rw [isWord.noBlank char mem] at isBlank
      exact absurd isBlank (by simp)

/-- A word ends where the first blank stands. -/
theorem word_append_inj {word other rest otherRest : List Char} (isWord : IsWord word)
    (stops : ∀ char ∈ rest.head?, Text.isBlank char = true) (isOther : IsWord other)
    (otherStops : ∀ char ∈ otherRest.head?, Text.isBlank char = true)
    (same : word ++ rest = other ++ otherRest) : word = other ∧ rest = otherRest := by
  have noBlank : ∀ char ∈ word, (!Text.isBlank char) = true := by simpa using isWord.noBlank
  have otherNoBlank : ∀ char ∈ other, (!Text.isBlank char) = true := by simpa using isOther.noBlank
  exact Text.append_inj_of_stops noBlank (by simpa using stops) otherNoBlank
    (by simpa using otherStops) same

/-- Owners with blanks before them are told apart in one way only. -/
theorem tailText_injective (isTail : IsTail owners ending)
    (isOther : IsTail otherOwners otherEnding)
    (same : tailText owners ending = tailText otherOwners otherEnding) :
    owners = otherOwners ∧ ending = otherEnding := by
  induction owners generalizing otherOwners with
  | nil =>
      have blanks : AllBlank (tailText otherOwners otherEnding) := by
        rw [← same]
        exact isTail.ending
      have none := eq_nil_of_allBlank_tailText isOther blanks
      subst none
      exact ⟨rfl, same⟩
  | cons spaced owners ih =>
      cases otherOwners with
      | nil =>
          have blanks : AllBlank (tailText (spaced :: owners) ending) := by
            rw [same]
            exact isOther.ending
          exact absurd (eq_nil_of_allBlank_tailText isTail blanks) (by simp)
      | cons other others =>
          rw [tailText_cons, tailText_cons] at same
          have isWord := isTail.areWords spaced List.mem_cons_self
          have isOtherWord := isOther.areWords other List.mem_cons_self
          rcases Text.append_inj_of_stops (isTail.gaps spaced List.mem_cons_self).2
            (not_isBlank_of_head? isWord) (isOther.gaps other List.mem_cons_self).2
            (not_isBlank_of_head? isOtherWord) same with ⟨sameGap, sameBody⟩
          rcases word_append_inj isWord (isBlank_of_head?_tailText isTail.of_cons) isOtherWord
            (isBlank_of_head?_tailText isOther.of_cons) sameBody with ⟨sameOwner, sameTail⟩
          rcases ih isTail.of_cons isOther.of_cons sameTail with ⟨rfl, rfl⟩
          exact ⟨congrArg (· :: owners) (SpacedOwner.ext sameGap sameOwner), rfl⟩

theorem words_blanks_append {blanks : List Char} (allBlank : AllBlank blanks) (text : List Char) :
    words (blanks ++ text) = words text := by
  induction blanks with
  | nil => rfl
  | cons blank blanks ih =>
      rcases List.forall_mem_cons.1 allBlank with ⟨isBlank, allBlank⟩
      have first := words_append_blank isBlank [] (blanks ++ text)
      rw [List.nil_append] at first
      rw [List.cons_append, first, ih allBlank]
      rfl

/-- A word is cut off at the blank behind it. -/
theorem words_word_append {word rest : List Char} (isWord : IsWord word)
    (stops : ∀ char ∈ rest.head?, Text.isBlank char = true) :
    words (word ++ rest) = word :: words rest := by
  rcases rest with _ | ⟨blank, rest⟩
  · rw [List.append_nil, words_of_isWord isWord]
    rfl
  · have isBlank := stops blank rfl
    have first := words_append_blank isBlank [] rest
    rw [List.nil_append] at first
    rw [words_append_blank isBlank, words_of_isWord isWord, first]
    rfl

/-- The words behind a pattern are the owners. -/
theorem words_tailText (isTail : IsTail owners ending) :
    words (tailText owners ending) = owners.map SpacedOwner.owner := by
  induction owners with
  | nil =>
      have none := words_blanks_append isTail.ending []
      rwa [List.append_nil] at none
  | cons spaced owners ih =>
      rw [tailText_cons, words_blanks_append (isTail.gaps spaced List.mem_cons_self).2,
        words_word_append (isTail.areWords spaced List.mem_cons_self)
          (isBlank_of_head?_tailText isTail.of_cons), ih isTail.of_cons]
      rfl

end Tails

section Lines

variable {line : String} {fields : RulesLine} {parts others : Parts}

namespace Parts.Grammatical

theorem noBlank_of_head? (grammatical : parts.Grammatical) :
    ∀ char ∈ (parts.pattern ++ tailText parts.owners parts.ending).head?,
      Text.isBlank char = false := by
  intro char head
  rcases grammatical.starts with ⟨first, firstHead, isField, _⟩
  rw [List.head?_append, Option.mem_def.1 firstHead] at head
  rw [← Option.some.inj head]
  exact isField

/-- Behind the indent stand the pattern and the owners. -/
theorem dropWhile_text (grammatical : parts.Grammatical) :
    parts.text.dropWhile Text.isBlank = parts.pattern ++ tailText parts.owners parts.ending :=
  (Text.takeWhile_append_of_stops grammatical.indent grammatical.noBlank_of_head?).2

/-- A pattern ends before the blanks behind it, which it does not escape. -/
theorem stops (grammatical : parts.Grammatical) :
    Stops (endsEscaped false parts.pattern) (tailText parts.owners parts.ending) := by
  intro char head
  refine ⟨isBlank_of_head?_tailText grammatical.tail char head, ?_⟩
  by_contra escaped
  rcases grammatical.closed (endsEscaped_iff.1 (by simpa using escaped)) with ⟨noOwner, noBlank⟩
  simp [noOwner, noBlank, tailText] at head

theorem splitPattern_eq (grammatical : parts.Grammatical) :
    splitPattern false (parts.pattern ++ tailText parts.owners parts.ending) =
      (parts.pattern, tailText parts.owners parts.ending) :=
  splitPattern_append_of_stops (noBareBlank_iff.2 grammatical.escaped) grammatical.stops

theorem fieldsOf_eq (grammatical : parts.Grammatical) :
    fieldsOf (parts.pattern ++ tailText parts.owners parts.ending) = parts.fields := by
  rw [fieldsOf, grammatical.splitPattern_eq, words_tailText grammatical.tail, List.map_map]
  rfl

/-- A line is read as the parts that it is put together from. -/
theorem split?_eq (grammatical : parts.Grammatical) (same : parts.text = lineText line) :
    split? line = some parts.fields := by
  have body : lineBody line = parts.pattern ++ tailText parts.owners parts.ending := by
    rw [← grammatical.dropWhile_text, same]
    rfl
  rcases grammatical.starts with ⟨first, head, isField⟩
  have starts : StartsPattern (lineBody line) := by
    refine ⟨first, ?_, isField⟩
    rw [body, List.head?_append, Option.mem_def.1 head]
    rfl
  rw [split?_of_starts starts, body, grammatical.fieldsOf_eq]

/-- No text is put together in two ways. -/
theorem eq_of_text_eq (grammatical : parts.Grammatical) (isOther : others.Grammatical)
    (same : parts.text = others.text) : parts = others := by
  rcases Text.append_inj_of_stops grammatical.indent grammatical.noBlank_of_head? isOther.indent
    isOther.noBlank_of_head? same with ⟨sameIndent, sameBody⟩
  have cut := grammatical.splitPattern_eq
  rw [sameBody, isOther.splitPattern_eq, Prod.mk.injEq] at cut
  rcases cut with ⟨samePattern, sameTail⟩
  rcases tailText_injective isOther.tail grammatical.tail sameTail with ⟨sameOwners, sameEnding⟩
  exact Parts.ext sameIndent samePattern.symm sameOwners.symm sameEnding.symm

end Parts.Grammatical

/-- What is read as fields is put together from parts that the grammar allows. -/
theorem exists_parts (split : split? line = some fields) :
    ∃ parts : Parts, parts.Grammatical ∧ parts.text = lineText line := by
  have starts := starts_of_split? split
  have whole := splitPattern_append false (lineBody line)
  have noBareBlank := noBareBlank_splitPattern false (lineBody line)
  have stops := stops_splitPattern false (lineBody line)
  rcases cut : splitPattern false (lineBody line) with ⟨pattern, after⟩
  rw [cut] at whole noBareBlank stops
  rcases Text.exists_append_of_stops Text.isBlank (lineText line) with
    ⟨indent, body, whole_eq, blanks, noBlank⟩
  have body_eq : lineBody line = body := by
    rw [lineBody, ← lineText, ← whole_eq]
    exact (Text.takeWhile_append_of_stops blanks noBlank).2
  rcases exists_isTail (fun char head => (stops char head).1) with ⟨owners, ending, isTail, rfl⟩
  refine ⟨⟨indent, pattern, owners, ending⟩,
    ⟨blanks, ?_, noBareBlank_iff.1 noBareBlank, ?_, isTail⟩, ?_⟩
  · have wholeStarts : StartsPattern (pattern ++ tailText owners ending) := by rwa [whole]
    apply startsPattern_of_append wholeStarts
    -- The first character of the line is no blank, and so it belongs to the pattern.
    rintro rfl
    rcases starts with ⟨first, head, isField, _⟩
    rw [← whole] at head
    rw [(stops first head).1] at isField
    exact absurd isField (by simp)
  · intro odd
    have escaped := endsEscaped_iff.2 odd
    have nothing : tailText owners ending = [] := by
      rcases behind : tailText owners ending with _ | ⟨char, rest⟩
      · rfl
      · have unescaped := (stops char (by rw [behind]; rfl)).2
        rw [escaped] at unescaped
        exact absurd unescaped (by simp)
    have noOwner := eq_nil_of_allBlank_tailText isTail (by simp [nothing, AllBlank])
    subst noOwner
    exact ⟨rfl, nothing⟩
  · rw [Parts.text, whole, body_eq, whole_eq]

theorem split?_eq_none_iff : split? line = none ↔ HoldsNoRule (lineText line) := by
  have first_eq : (lineText line).find? (fun char => !Text.isBlank char) =
      (lineBody line).head? := by
    rw [List.find?_eq_head?_dropWhile_not]
    simp only [Bool.not_not]
    rfl
  rw [HoldsNoRule, first_eq]
  constructor
  · intro unread first head
    by_contra notHash
    have starts : StartsPattern (lineBody line) :=
      ⟨first, head, isBlank_of_head?_lineBody head, notHash⟩
    rw [split?_of_starts starts] at unread
    exact absurd unread (by simp)
  · intro noRule
    rcases split : split? line with _ | fields
    · rfl
    · rcases starts_of_split? split with ⟨first, head, _, notHash⟩
      exact absurd (noRule first head) notHash

/-- A line is read exactly as the grammar says. It holds no rule if it has no field, or a comment in
place of the first one. Otherwise it is read as the fields of the parts that it is put together
from; it is put together from such parts in one way only, and whatever is put together from parts,
and has no line end behind it, is read as the fields of these. -/
theorem split?_reads_grammar (line : String) :
    (split? line = none ↔ HoldsNoRule (lineText line)) ∧
    (∀ fields, split? line = some fields ↔
      ∃ parts : Parts, parts.Grammatical ∧ parts.text = lineText line ∧ parts.fields = fields) ∧
    (∀ parts others : Parts, parts.Grammatical → others.Grammatical →
      parts.text = others.text → parts = others) ∧
    ∀ parts : Parts, parts.Grammatical → (∀ last ∈ parts.text.getLast?, isLineEnd last = false) →
      split? (String.ofList parts.text) = some parts.fields := by
  refine ⟨split?_eq_none_iff, ?_, fun _ _ => Parts.Grammatical.eq_of_text_eq, ?_⟩
  · intro fields
    constructor
    · intro split
      rcases exists_parts split with ⟨parts, grammatical, same⟩
      have read := grammatical.split?_eq same
      rw [split, Option.some.injEq] at read
      exact ⟨parts, grammatical, same, read.symm⟩
    · rintro ⟨parts, grammatical, same, rfl⟩
      exact grammatical.split?_eq same
  · intro parts grammatical noLineEnd
    apply grammatical.split?_eq
    rw [lineText, String.toList_ofList]
    rcases List.eq_nil_or_concat' parts.text with empty | ⟨before, last, text_eq⟩
    · rw [empty]
      rfl
    · rw [text_eq] at noLineEnd ⊢
      exact (Text.dropEndWhile_concat (noLineEnd last (by simp))).symm

/-- The parts of a line whose pattern holds an escaped blank and ends in two backslashes. -/
def sampleParts : Parts where
  indent := "\t ".toList
  pattern := "a\\ b\\\\".toList
  owners := [⟨" ".toList, "@x".toList⟩, ⟨"\u2003\t".toList, "#y".toList⟩]
  ending := " ".toList

theorem split?_reads_grammar_escaped :
    sampleParts.Grammatical ∧ sampleParts.text = lineText "\t a\\ b\\\\ @x\u2003\t#y \r\n" ∧
    split? "\t a\\ b\\\\ @x\u2003\t#y \r\n" = some ⟨"a\\ b\\\\", ["@x", "#y"]⟩ ∧
    split? (String.ofList sampleParts.text) = some sampleParts.fields := by
  have allBlank {text : List Char} (blanks : text.all Text.isBlank = true) : AllBlank text :=
    List.all_eq_true.1 blanks
  have isWord {text : List Char} (nonempty : text ≠ [])
      (word : text.all (!Text.isBlank ·) = true) : IsWord text :=
    ⟨nonempty, by simpa using word⟩
  have noBareBlank : NoBareBlank false sampleParts.pattern := by
    have uncut : (splitPattern false sampleParts.pattern).1 = sampleParts.pattern := by decide
    rw [← uncut]
    exact noBareBlank_splitPattern false sampleParts.pattern
  have grammatical : sampleParts.Grammatical := by
    refine ⟨allBlank (by decide), ⟨'a', rfl, by decide, by decide⟩, noBareBlank_iff.1 noBareBlank,
      ?_, ⟨?_, ?_, allBlank (by decide)⟩⟩
    · intro odd
      exact absurd odd (by unfold EndsInOddBackslashes; decide)
    · simp only [sampleParts, List.forall_mem_cons]
      exact ⟨⟨by decide, allBlank (by decide)⟩, ⟨by decide, allBlank (by decide)⟩, by simp⟩
    · simp only [sampleParts, List.forall_mem_cons]
      exact ⟨isWord (by decide) (by decide), isWord (by decide) (by decide), by simp⟩
  have text_eq : sampleParts.text = lineText "\t a\\ b\\\\ @x\u2003\t#y \r\n" := by decide
  rcases split?_reads_grammar "\t a\\ b\\\\ @x\u2003\t#y \r\n" with ⟨_, reads, _, readsAll⟩
  refine ⟨grammatical, text_eq, ?_, ?_⟩
  · exact (reads _).2 ⟨sampleParts, grammatical, text_eq, by decide⟩
  · apply readsAll sampleParts grammatical
    intro last head
    have isLast : ' ' = last := by simpa [sampleParts, Parts.text, tailText] using head
    rw [← isLast]
    decide

end Lines

end RulesLine

end OwnerCoverage
