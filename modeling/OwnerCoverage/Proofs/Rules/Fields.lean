import Mathlib.Data.List.Induction
import OwnerCoverage.Proofs.Text.Pieces
import OwnerCoverage.Rules.Line

/-!
# The fields of a line

What the fields of a rules line look like, and how they are written as a line again. A pattern
starts with a character that is neither blank nor `#`, and every blank in it is escaped; an owner is
a word without blanks; and a pattern whose last backslash escapes nothing has no owners behind it,
since a blank there would belong to the pattern. `split?_written` says that fields of this form are
read back from the line that they are written as.

Whether a character is escaped is a matter of all that stands before it. `endsEscaped` carries that
over a text, and so the lemmas on a text in two parts have the flag of the second part in them.
-/

namespace OwnerCoverage

namespace RulesLine

section Escapes

/-- Whether the character behind a text is escaped. The flag tells whether its first one is. -/
def endsEscaped (escaped : Bool) (text : List Char) : Bool :=
  text.foldl (fun escaped char => char == '\\' && !escaped) escaped

/-- Every blank of a text is escaped. -/
def NoBareBlank : Bool → List Char → Prop
  | _, [] => True
  | escaped, char :: rest =>
      (Text.isBlank char = true → escaped = true) ∧ NoBareBlank (char == '\\' && !escaped) rest

/-- A pattern ends before this text: nothing stands there, or a blank that is not escaped. -/
def Stops (escaped : Bool) (after : List Char) : Prop :=
  ∀ char ∈ after.head?, Text.isBlank char = true ∧ escaped = false

variable {escaped : Bool} {text first second pattern after : List Char}

theorem endsEscaped_concat (escaped : Bool) (text : List Char) (last : Char) :
    endsEscaped escaped (text ++ [last]) = (last == '\\' && !endsEscaped escaped text) := by
  simp [endsEscaped]

/-- What stands behind a text is escaped if an odd number of backslashes ends the text. -/
theorem endsEscaped_iff_odd (text : List Char) : endsEscaped false text = true ↔
    (text.reverse.takeWhile (· == '\\')).length % 2 = 1 := by
  induction text using List.reverseRecOn with
  | nil => simp [endsEscaped]
  | append_singleton text last ih =>
      rw [endsEscaped_concat, List.reverse_concat]
      by_cases backslash : last = '\\'
      · subst backslash
        rw [List.takeWhile_cons_of_pos rfl, List.length_cons]
        cases escaped : endsEscaped false text <;> rw [escaped] at ih <;> simp at ih ⊢ <;> omega
      · simp [backslash]

theorem noBareBlank_append_iff : NoBareBlank escaped (first ++ second) ↔
    NoBareBlank escaped first ∧ NoBareBlank (endsEscaped escaped first) second := by
  induction first generalizing escaped with
  | nil => simp [NoBareBlank, endsEscaped]
  | cons char first ih =>
      rw [List.cons_append, NoBareBlank, NoBareBlank, ih, and_assoc]
      rfl

theorem noBareBlank_splitPattern (escaped : Bool) (text : List Char) :
    NoBareBlank escaped (splitPattern escaped text).1 := by
  fun_induction splitPattern escaped text with
  | case1 => trivial
  | case2 => trivial
  | case3 escaped char rest goesOn pattern after split ih =>
      rw [split] at ih
      exact ⟨by simpa using goesOn, ih⟩

theorem stops_splitPattern (escaped : Bool) (text : List Char) :
    Stops (endsEscaped escaped (splitPattern escaped text).1) (splitPattern escaped text).2 := by
  fun_induction splitPattern escaped text with
  | case1 => simp [Stops]
  | case2 escaped char rest stop => simpa [Stops, endsEscaped] using stop
  | case3 escaped char rest goesOn pattern after split ih =>
      rw [split] at ih
      exact ih

/-- A text is cut where all blanks before are escaped and the next one is not. -/
theorem splitPattern_append_of_stops (noBlank : NoBareBlank escaped pattern)
    (stops : Stops (endsEscaped escaped pattern) after) :
    splitPattern escaped (pattern ++ after) = (pattern, after) := by
  induction pattern generalizing escaped with
  | nil =>
      cases after with
      | nil => rfl
      | cons char rest =>
          have stop : (Text.isBlank char && !escaped) = true := by
            simpa [Stops, endsEscaped] using stops
          rw [List.nil_append, splitPattern, if_pos stop]
  | cons char pattern ih =>
      have goesOn : ¬(Text.isBlank char && !escaped) = true := by
        simpa using noBlank.1
      rw [List.cons_append, splitPattern, if_neg goesOn, ih noBlank.2 stops]

end Escapes

section Words

/-- A text is one word: something, and no blank. -/
structure IsWord (text : List Char) : Prop where
  nonempty : text ≠ []
  noBlank : ∀ char ∈ text, Text.isBlank char = false

theorem isWord_of_mem_words {text word : List Char} (mem : word ∈ words text) : IsWord word := by
  rw [words, List.mem_filter] at mem
  refine ⟨by simpa using mem.2, ?_⟩
  intro char char_mem
  exact (Text.mem_of_mem_piece mem.1 char_mem).2

theorem words_append_blank {blank : Char} (isBlank : Text.isBlank blank = true)
    (before after : List Char) :
    words (before ++ blank :: after) = words before ++ words after := by
  rw [words, List.splitOnP_append_cons before after isBlank, List.filter_append]
  rfl

theorem words_of_isWord {word : List Char} (isWord : IsWord word) : words word = [word] := by
  rw [words, List.splitOnP_eq_singleton isWord.noBlank]
  simp [isWord.nonempty]

theorem words_spaced {items : List (List Char)} (areWords : ∀ item ∈ items, IsWord item) :
    words (items.flatMap fun item => ' ' :: item) = items := by
  have space : Text.isBlank ' ' = true := by decide
  -- Behind the first word stand the other ones, so any text may stand before the first space.
  suffices spaced : ∀ before : List Char, words (before ++ items.flatMap fun item => ' ' :: item) =
      words before ++ items by simpa [words] using spaced []
  induction items with
  | nil => simp
  | cons item items ih =>
      rcases List.forall_mem_cons.1 areWords with ⟨isWord, areWords⟩
      intro before
      rw [List.flatMap_cons, List.cons_append, words_append_blank space, ih areWords,
        words_of_isWord isWord]
      rfl

end Words

section Reading

/-- The fields of a line when blanks before it and line ends behind it are dropped. -/
def fieldsOf (body : List Char) : RulesLine :=
  ⟨String.ofList (splitPattern false body).1,
    (words (splitPattern false body).2).map String.ofList⟩

/-- A text starts with a character that can start a pattern. -/
def StartsPattern (text : List Char) : Prop :=
  ∃ first ∈ text.head?, Text.isBlank first = false ∧ first ≠ '#'

/-- What is left of a line when line ends behind it and blanks before it are dropped. -/
def lineBody (line : String) : List Char :=
  (Text.dropEndWhile isLineEnd line.toList).dropWhile Text.isBlank

theorem isBlank_of_head?_lineBody {line : String} {first : Char}
    (head : (lineBody line).head? = some first) : Text.isBlank first = false := by
  have noBlank := List.head?_dropWhile_not Text.isBlank (Text.dropEndWhile isLineEnd line.toList)
  rw [← lineBody, head] at noBlank
  exact noBlank

theorem split?_of_starts {line : String} (starts : StartsPattern (lineBody line)) :
    split? line = some (fieldsOf (lineBody line)) := by
  rcases starts with ⟨first, head, _, notHash⟩
  unfold split?
  rw [← lineBody]
  split
  · rename_i empty
    simp [empty] at head
  · rename_i hash
    rw [hash, List.head?_cons, Option.mem_some_iff] at head
    exact absurd head.symm notHash
  · rfl

theorem starts_of_split? {line : String} {fields : RulesLine} (split : split? line = some fields) :
    StartsPattern (lineBody line) := by
  have isField := @isBlank_of_head?_lineBody line
  unfold split? at split
  rw [← lineBody] at split
  rcases body : lineBody line with _ | ⟨first, rest⟩
  · rw [body] at split
    exact absurd split (by simp)
  · rw [body] at split isField
    refine ⟨first, rfl, isField rfl, ?_⟩
    rintro rfl
    exact absurd split (by simp)

/-- Fields that a line can hold. -/
structure WellFormed (fields : RulesLine) : Prop where
  starts : StartsPattern fields.pattern.toList
  noBareBlank : NoBareBlank false fields.pattern.toList
  areWords : ∀ owner ∈ fields.owners, IsWord owner.toList
  /-- The blank before the first owner is not escaped. -/
  closed : fields.owners ≠ [] → endsEscaped false fields.pattern.toList = false

theorem startsPattern_of_append {first second : List Char}
    (starts : StartsPattern (first ++ second)) (nonempty : first ≠ []) : StartsPattern first := by
  rcases first with _ | ⟨char, first⟩
  · exact absurd rfl nonempty
  · exact starts

theorem wellFormed_fieldsOf {body : List Char} (starts : StartsPattern body) :
    (fieldsOf body).WellFormed := by
  have noBareBlank := noBareBlank_splitPattern false body
  have stops := stops_splitPattern false body
  have whole := splitPattern_append false body
  unfold fieldsOf
  rcases cut : splitPattern false body with ⟨pattern, after⟩
  rw [cut] at noBareBlank stops whole
  refine ⟨?_, by simpa using noBareBlank, ?_, ?_⟩
  · rw [String.toList_ofList]
    rw [← whole] at starts
    apply startsPattern_of_append starts
    rintro rfl
    rcases starts with ⟨first, head, isField, _⟩
    have isBlank := (stops first head).1
    rw [isField] at isBlank
    exact absurd isBlank (by simp)
  · intro owner mem
    rcases List.mem_map.1 mem with ⟨word, word_mem, rfl⟩
    rw [String.toList_ofList]
    exact isWord_of_mem_words word_mem
  · intro owned
    rw [String.toList_ofList]
    rcases after with _ | ⟨blank, after⟩
    · exact absurd rfl owned
    · exact (stops blank rfl).2

theorem wellFormed_of_split? {line : String} {fields : RulesLine}
    (split : split? line = some fields) : fields.WellFormed := by
  have starts := starts_of_split? split
  rw [split?_of_starts starts, Option.some.injEq] at split
  rw [← split]
  exact wellFormed_fieldsOf starts

end Reading

section Writing

/-- The line of some fields, with a space before each owner. -/
def written (fields : RulesLine) : String :=
  fields.pattern ++ String.join (fields.owners.map (" " ++ ·))

theorem toList_written (fields : RulesLine) :
    fields.written.toList = fields.pattern.toList ++
      (fields.owners.map String.toList).flatMap fun owner => ' ' :: owner := by
  simp [written, String.toList_join, List.flatMap_map]

theorem isBlank_of_isLineEnd {char : Char} (lineEnd : isLineEnd char = true) :
    Text.isBlank char = true := by
  rw [isLineEnd, Bool.or_eq_true, beq_iff_eq, beq_iff_eq] at lineEnd
  rcases lineEnd with rfl | rfl <;> decide

theorem lineBody_eq_toList {line : String} (starts : StartsPattern line.toList)
    (kept : Text.dropEndWhile isLineEnd line.toList = line.toList) :
    lineBody line = line.toList := by
  rcases starts with ⟨first, head, isField, _⟩
  rw [lineBody, kept]
  rcases text : line.toList with _ | ⟨char, rest⟩
  · rfl
  · rw [text, List.head?_cons, Option.mem_some_iff] at head
    subst head
    rw [List.dropWhile_cons_of_neg (by simpa using isField)]

theorem mem_line_of_mem_pattern {line : String} {fields : RulesLine} {char : Char}
    (split : split? line = some fields) (mem : char ∈ fields.pattern.toList) :
    char ∈ line.toList := by
  rw [split?_of_starts (starts_of_split? split), Option.some.injEq] at split
  rw [← split, fieldsOf, String.toList_ofList] at mem
  have whole := splitPattern_append false (lineBody line)
  have inBody : char ∈ lineBody line := by
    rw [← whole]
    exact List.mem_append_left _ mem
  exact Text.mem_of_mem_dropEndWhile ((List.dropWhile_suffix _).subset inBody)

variable {fields : RulesLine}

theorem startsPattern_written (starts : StartsPattern fields.pattern.toList) :
    StartsPattern fields.written.toList := by
  rcases starts with ⟨first, head, isField⟩
  refine ⟨first, ?_, isField⟩
  rw [toList_written, List.head?_append, Option.mem_def.1 head]
  rfl

theorem noLineEnd_written (areWords : ∀ owner ∈ fields.owners, IsWord owner.toList)
    (noLineEnd : ∀ char ∈ fields.pattern.toList, isLineEnd char = false) :
    ∀ char ∈ fields.written.toList, isLineEnd char = false := by
  intro char mem
  rw [toList_written, List.mem_append, List.mem_flatMap] at mem
  rcases mem with mem | ⟨word, word_mem, mem⟩
  · exact noLineEnd char mem
  · rcases List.mem_map.1 word_mem with ⟨owner, owner_mem, rfl⟩
    rcases List.mem_cons.1 mem with rfl | mem
    · decide
    · have noBlank := (areWords owner owner_mem).noBlank char mem
      by_contra lineEnd
      rw [isBlank_of_isLineEnd (by simpa using lineEnd)] at noBlank
      exact absurd noBlank (by simp)

theorem stops_owners
    (closed : fields.owners ≠ [] → endsEscaped false fields.pattern.toList = false) :
    Stops (endsEscaped false fields.pattern.toList)
      ((fields.owners.map String.toList).flatMap fun owner => ' ' :: owner) := by
  rcases owned : fields.owners with _ | ⟨owner, owners⟩
  · simp [Stops]
  · intro char head
    rw [List.map_cons, List.flatMap_cons, List.cons_append, List.head?_cons,
      Option.mem_some_iff] at head
    rw [← head]
    exact ⟨by decide, closed (by simp [owned])⟩

/-- Fields are read back from the line that they are written as, if no line end is dropped there. -/
theorem split?_of_kept (wellFormed : fields.WellFormed)
    (kept : Text.dropEndWhile isLineEnd fields.written.toList = fields.written.toList) :
    split? fields.written = some fields := by
  have areWords : ∀ owner ∈ fields.owners.map String.toList, IsWord owner := by
    simpa using wellFormed.areWords
  have starts := startsPattern_written wellFormed.starts
  have body := lineBody_eq_toList starts kept
  rw [split?_of_starts (by rwa [body]), body, toList_written, fieldsOf,
    splitPattern_append_of_stops wellFormed.noBareBlank (stops_owners wellFormed.closed),
    words_spaced areWords, String.ofList_toList, List.map_map]
  simp [Function.comp_def]

/-- Fields without line ends are read back from the line that they are written as. -/
theorem split?_written (wellFormed : fields.WellFormed)
    (noLineEnd : ∀ char ∈ fields.pattern.toList, isLineEnd char = false) :
    split? fields.written = some fields :=
  split?_of_kept wellFormed
    (Text.dropEndWhile_eq_self (noLineEnd_written wellFormed.areWords noLineEnd))

/-- An owner at the end of a line keeps all line ends of its pattern. -/
theorem split?_written_of_owned (wellFormed : fields.WellFormed) (owned : fields.owners ≠ []) :
    split? fields.written = some fields := by
  apply split?_of_kept wellFormed
  rcases List.eq_nil_or_concat' fields.owners with none | ⟨before, owner, owners_eq⟩
  · exact absurd none owned
  · have isWord := wellFormed.areWords owner (by simp [owners_eq])
    rcases List.eq_nil_or_concat' owner.toList with empty | ⟨word, last, owner_eq⟩
    · exact absurd empty isWord.nonempty
    · have isField : isLineEnd last = false := by
        by_contra lineEnd
        have isBlank := isBlank_of_isLineEnd (by simpa using lineEnd)
        rw [isWord.noBlank last (by simp [owner_eq])] at isBlank
        exact absurd isBlank (by simp)
      have ends : ∃ line, fields.written.toList = line ++ [last] := by
        rw [toList_written, owners_eq, List.map_append, List.flatMap_append]
        simp only [List.map_cons, List.map_nil, List.flatMap_singleton, owner_eq]
        rw [← List.cons_append, ← List.append_assoc, ← List.append_assoc]
        exact ⟨_, rfl⟩
      rcases ends with ⟨line, ends⟩
      rw [ends]
      exact Text.dropEndWhile_concat isField

end Writing

end RulesLine

end OwnerCoverage
