import OwnerCoverage.Glob.Spelling
import OwnerCoverage.Proofs.Glob.Symbols

/-!
# Separators in the spelling of a pattern

Every token of a body is read from a part of the body that spells it, and the parts follow each
other without a gap (`exists_spelling`). So a bare separator is either a separator token or stands
in a bracket expression, and there it can only be the end of a range, since a separator where a
member should start ends the attempt to read one. `separators_kept_iff` says which bodies are cut at
all their bare separators: those in which no range ends in one.
-/

namespace OwnerCoverage

namespace Glob

section Characters

variable {spelled : SpelledChar} {opening : Bool} {text rest : List Char} {char : Char}

/-- A backslash that stands alone would take the next character. -/
def SpelledChar.Complete (spelled : SpelledChar) : Prop :=
  spelled.escaped = false → spelled.char ≠ '\\'

theorem bareSeparators_cons (complete : char ≠ '\\') (rest : List Char) :
    bareSeparators (char :: rest) = (if char = '/' then 1 else 0) + bareSeparators rest := by
  by_cases isSlash : char = '/'
  · subst isSlash
    rw [bareSeparators, if_pos rfl, Nat.add_comm]
  · rw [if_neg isSlash, Nat.zero_add]
    exact bareSeparators.eq_5 char rest (fun lone _ => complete lone)
      (fun _ _ escapes _ => complete escapes) isSlash

theorem upToClosing_cons (complete : char ≠ '\\') (goesOn : opening = false → char ≠ ']')
    (rest : List Char) : upToClosing opening (char :: rest) = char :: upToClosing false rest := by
  by_cases closes : char = ']'
  · subst closes
    rw [upToClosing, if_pos (by simpa using goesOn)]
  · exact upToClosing.eq_5 opening char rest (fun lone _ => complete lone)
      (fun _ _ escapes _ => complete escapes) closes

theorem bareSeparators_spelledChar (complete : spelled.Complete) (rest : List Char) :
    bareSeparators (spelled.text ++ rest) =
      (if !spelled.escaped && spelled.char == '/' then 1 else 0) + bareSeparators rest := by
  rcases spelled with ⟨escaped, char⟩
  cases escaped with
  | true => simp [SpelledChar.text, bareSeparators]
  | false => simpa [SpelledChar.text] using bareSeparators_cons (complete rfl) rest

theorem upToClosing_spelledChar (complete : spelled.Complete)
    (goesOn : spelled.escaped = false → opening = false → spelled.char ≠ ']') (rest : List Char) :
    upToClosing opening (spelled.text ++ rest) = spelled.text ++ upToClosing false rest := by
  rcases spelled with ⟨escaped, char⟩
  cases escaped with
  | true => simp [SpelledChar.text, upToClosing]
  | false => exact upToClosing_cons (complete rfl) (goesOn rfl) rest

theorem head?_text_append (bare : spelled.escaped = false) (rest : List Char) :
    (spelled.text ++ rest).head? = some spelled.char := by
  rw [SpelledChar.text, bare]
  rfl

theorem exists_spelledChar (read : readMember? text = some (char, rest)) :
    ∃ spelled : SpelledChar,
      spelled.char = char ∧ spelled.Complete ∧ text = spelled.text ++ rest := by
  unfold readMember? at read
  split at read
  · simp at read
  · simp at read
  · rw [Option.some.injEq, Prod.mk.injEq] at read
    rcases read with ⟨rfl, rfl⟩
    exact ⟨⟨true, _⟩, rfl, by simp [SpelledChar.Complete], rfl⟩
  · rename_i first tail notLone notEscape
    rw [Option.some.injEq, Prod.mk.injEq] at read
    rcases read with ⟨rfl, rfl⟩
    refine ⟨⟨false, first⟩, rfl, ?_, rfl⟩
    rintro - rfl
    cases tail with
    | nil => exact notLone rfl rfl
    | cons next tail => exact notEscape next tail rfl rfl

end Characters

section Items

variable {opening : Bool} {text rest : List Char} {item : ClassItem}

/-- What a spelled member does to the text behind it: it closes nothing, and has as many bare
separators as it crosses. -/
structure SpelledItem.Fits (spelled : SpelledItem) (opening : Bool) : Prop where
  upToClosing_eq : ∀ rest,
    upToClosing opening (spelled.text ++ rest) = spelled.text ++ upToClosing false rest
  bareSeparators_eq : ∀ rest,
    bareSeparators (spelled.text ++ rest) =
      (if spelled.crosses then 1 else 0) + bareSeparators rest

theorem fits_single {member : SpelledChar} (complete : member.Complete)
    (noSeparator : member.escaped = false → member.char ≠ '/')
    (goesOn : member.escaped = false → opening = false → member.char ≠ ']') :
    (SpelledItem.single member).Fits opening := by
  refine ⟨upToClosing_spelledChar complete goesOn, ?_⟩
  intro rest
  refine (bareSeparators_spelledChar complete rest).trans ?_
  cases escaped : member.escaped with
  | true => simp [SpelledItem.crosses]
  | false => simp [SpelledItem.crosses, noSeparator escaped]

/-- A range has a bare separator only as its end. -/
theorem fits_range {first last : SpelledChar} (fits : (SpelledItem.single first).Fits opening)
    (complete : last.Complete) (goesOn : last.escaped = false → last.char ≠ ']') :
    (SpelledItem.range first last).Fits opening := by
  have text_append (rest : List Char) : (SpelledItem.range first last).text ++ rest =
      (SpelledItem.single first).text ++ ('-' :: (last.text ++ rest)) := by
    simp [SpelledItem.text]
  refine ⟨fun rest => ?_, fun rest => ?_⟩
  · rw [text_append, fits.upToClosing_eq, upToClosing_cons (by decide) (by decide),
      upToClosing_spelledChar complete fun escaped _ => goesOn escaped]
    exact (text_append _).symm
  · rw [text_append, fits.bareSeparators_eq, bareSeparators_cons (by decide),
      bareSeparators_spelledChar complete]
    simp [SpelledItem.crosses]

/-- What a member is read from: one character, or two that a hyphen joins, of which the second one
does not start with the closing bracket. -/
theorem exists_of_readItem? (read : readItem? text = some (item, rest)) :
    ∃ first behind, readMember? text = some (first, behind) ∧
      (item = .single first ∧ rest = behind ∨
        ∃ last upTo, behind = '-' :: upTo ∧ upTo.head? ≠ some ']' ∧
          readMember? upTo = some (last, rest) ∧ item = .range first last) := by
  unfold readItem? at read
  split at read
  · simp at read
  · rename_i first next tail readFirst
    refine ⟨first, _, readFirst, ?_⟩
    split at read
    · rw [Option.some.injEq, Prod.mk.injEq] at read
      exact Or.inl ⟨read.1.symm, read.2.symm⟩
    · rename_i notClosing
      split at read
      · simp at read
      · rename_i last after readLast
        rw [Option.some.injEq, Prod.mk.injEq] at read
        rcases read with ⟨rfl, rfl⟩
        exact Or.inr ⟨last, next :: tail, rfl, by simpa using notClosing, readLast, rfl⟩
  · rename_i first behind _ readFirst
    rw [Option.some.injEq, Prod.mk.injEq] at read
    exact ⟨first, behind, readFirst, Or.inl ⟨read.1.symm, read.2.symm⟩⟩

theorem exists_spelledItem (read : readItem? text = some (item, rest))
    (noSeparator : text.head? ≠ some '/') (goesOn : opening = false → text.head? ≠ some ']') :
    ∃ spelled : SpelledItem, spelled.item = item ∧ text = spelled.text ++ rest ∧
      spelled.Fits opening := by
  rcases exists_of_readItem? read with ⟨char, behind, readFirst, kind⟩
  rcases exists_spelledChar readFirst with ⟨first, rfl, complete, rfl⟩
  have fits : (SpelledItem.single first).Fits opening := by
    apply fits_single complete
    · intro bare isSlash
      exact noSeparator ((head?_text_append bare behind).trans (congrArg some isSlash))
    · intro bare inside closes
      exact goesOn inside ((head?_text_append bare behind).trans (congrArg some closes))
  rcases kind with ⟨rfl, rfl⟩ | ⟨char, upTo, rfl, notClosing, readLast, rfl⟩
  · exact ⟨.single first, rfl, rfl, fits⟩
  · rcases exists_spelledChar readLast with ⟨last, rfl, completeLast, rfl⟩
    refine ⟨.range first last, rfl, by simp [SpelledItem.text], fits_range fits completeLast ?_⟩
    intro bare closes
    exact notClosing ((head?_text_append bare rest).trans (congrArg some closes))

/-- The members of a bracket expression reach up to its closing bracket, and have as many bare
separators as they cross. -/
theorem exists_spelledItems {items : List ClassItem}
    (read : readItems? opening text = some (items, rest)) :
    ∃ spelled : List SpelledItem, spelled.map SpelledItem.item = items ∧
      text = spelled.flatMap SpelledItem.text ++ ']' :: rest ∧
      upToClosing opening text = spelled.flatMap SpelledItem.text ∧
      ∀ behind, bareSeparators (spelled.flatMap SpelledItem.text ++ behind) =
        spelled.countP SpelledItem.crosses + bareSeparators behind := by
  fun_induction readItems? opening text generalizing items rest with
  | case1 opening text closed =>
      rw [Option.some.injEq, Prod.mk.injEq] at read
      rcases read with ⟨rfl, rfl⟩
      simp only [Bool.and_eq_true, Bool.not_eq_true', beq_iff_eq] at closed
      rcases List.head?_eq_some_iff.1 closed.2 with ⟨tail, rfl⟩
      refine ⟨[], rfl, rfl, ?_, fun behind => by simp⟩
      rw [closed.1]
      rfl
  | case2 => simp at read
  | case3 => simp at read
  | case4 opening text notClosed noSeparator item behind readFirst ih =>
      rcases Option.map_eq_some_iff.1 read with ⟨⟨items', rest'⟩, readRest, equal⟩
      rw [Prod.mk.injEq] at equal
      rcases equal with ⟨rfl, rfl⟩
      have goesOn : opening = false → text.head? ≠ some ']' := by simpa using notClosed
      rcases exists_spelledItem readFirst (by simpa using noSeparator) goesOn with
        ⟨first, rfl, rfl, fits⟩
      rcases ih readRest with ⟨spelled, rfl, rfl, inside, bare⟩
      refine ⟨first :: spelled, rfl, by simp, ?_, ?_⟩
      · rw [fits.upToClosing_eq, inside, List.flatMap_cons]
      · intro behind
        rw [List.flatMap_cons, List.append_assoc, fits.bareSeparators_eq, bare, List.countP_cons]
        omega

/-- What spells a bracket expression in front of a text: the bare separators between its brackets
are those that it crosses. -/
structure Spelling.SpellsClass (spelling : Spelling) (token : Token) (text rest : List Char) :
    Prop where
  isClass : ∃ negation spelled, spelling = .charClass negation spelled
  token_eq : spelling.token = token
  text_eq : spelling.text ++ rest = '[' :: text
  inside_eq : bareSeparators (insideBrackets text) = spelling.crossings
  bareSeparators_eq : ∀ behind,
    bareSeparators (spelling.text ++ behind) = spelling.crossings + bareSeparators behind

theorem spellsClass_of_items {items : List ClassItem} (negation : Option Char)
    (mark : ∀ char ∈ negation, char ≠ '\\' ∧ char ≠ '/')
    (inside : insideBrackets (negation.toList ++ text) = upToClosing true text)
    (read : readItems? true text = some (items, rest)) :
    ∃ spelling : Spelling, spelling.SpellsClass (.charClass negation.isSome items)
      (negation.toList ++ text) rest := by
  rcases exists_spelledItems read with ⟨spelled, rfl, rfl, upTo, bare⟩
  refine ⟨.charClass negation spelled, ⟨_, _, rfl⟩, rfl, by simp [Spelling.text], ?_, ?_⟩
  · rw [inside, upTo]
    simpa [bareSeparators, Spelling.crossings] using bare []
  · intro behind
    have marked (text : List Char) :
        bareSeparators (negation.toList ++ text) = bareSeparators text := by
      cases negation with
      | none => rfl
      | some char =>
          rcases mark char rfl with ⟨complete, noSeparator⟩
          exact (bareSeparators_cons complete text).trans (by simp [noSeparator])
    have split : (Spelling.charClass negation spelled).text ++ behind =
        '[' :: (negation.toList ++ (spelled.flatMap SpelledItem.text ++ ']' :: behind)) := by
      simp [Spelling.text]
    rw [split, bareSeparators_cons (by decide), marked, bare, bareSeparators_cons (by decide)]
    simp [Spelling.crossings]

/-- A recognized bracket expression is spelled in front of what stands behind it. -/
theorem exists_spellsClass {token : Token} (read : readClass? text = some (token, rest)) :
    ∃ spelling : Spelling, spelling.SpellsClass token text rest := by
  unfold readClass? at read
  split at read
  · rcases Option.map_eq_some_iff.1 read with ⟨⟨items, after⟩, readItems, equal⟩
    rw [Prod.mk.injEq] at equal
    rcases equal with ⟨rfl, rfl⟩
    exact spellsClass_of_items (some '!') (by simp) rfl readItems
  · rcases Option.map_eq_some_iff.1 read with ⟨⟨items, after⟩, readItems, equal⟩
    rw [Prod.mk.injEq] at equal
    rcases equal with ⟨rfl, rfl⟩
    exact spellsClass_of_items (some '^') (by simp) rfl readItems
  · rename_i notBang notCaret
    rcases Option.map_eq_some_iff.1 read with ⟨⟨items, after⟩, readItems, equal⟩
    rw [Prod.mk.injEq] at equal
    rcases equal with ⟨rfl, rfl⟩
    exact spellsClass_of_items none (by simp) (insideBrackets.eq_3 _ notBang notCaret) readItems

end Items

section Parts

variable {part : Spelling} {spelling : List Spelling} {text rest : List Char}

/-- How many bare separators a part should have: only a separator token has one. -/
def Spelling.separators (part : Spelling) : Nat := if part.token = .separator then 1 else 0

/-- What is known of a part in front of a text. Whatever begins with a bracket is either the literal
bracket, or a bracket expression between whose brackets the separators stand that it crosses. -/
structure Spelling.Fits (part : Spelling) (rest : List Char) : Prop where
  bareSeparators_text : bareSeparators part.text = part.separators + part.crossings
  bareSeparators_append :
    bareSeparators (part.text ++ rest) = part.separators + part.crossings + bareSeparators rest
  bracket : part.text.head? = some '[' →
    part.token = .literal '[' ∧ part.crossings = 0 ∨
      part.token ≠ .literal '[' ∧
        bareSeparators (insideBrackets (part.text ++ rest).tail) = part.crossings

/-- Each part fits in front of the text of all parts behind it. -/
def FitTogether : List Spelling → Prop
  | [] => True
  | part :: more => part.Fits (more.flatMap Spelling.text) ∧ FitTogether more

theorem fits_of_no_separator (noToken : part.token ≠ .separator) (noCrossing : part.crossings = 0)
    (bare : ∀ behind, bareSeparators (part.text ++ behind) = bareSeparators behind)
    (bracket : part.text.head? = some '[' → part.token = .literal '[') : part.Fits rest := by
  refine ⟨?_, ?_, fun opens => Or.inl ⟨bracket opens, noCrossing⟩⟩
  · simpa [Spelling.separators, noToken, noCrossing, bareSeparators] using bare []
  · simpa [Spelling.separators, noToken, noCrossing] using bare rest

theorem fits_escaped (char : Char) (rest : List Char) : (Spelling.literal ⟨true, char⟩).Fits rest :=
  fits_of_no_separator (by simp [Spelling.token]) rfl (fun _ => rfl)
    (by simp [Spelling.text, SpelledChar.text])

theorem fits_plain {char : Char} (complete : char ≠ '\\') (noSeparator : char ≠ '/')
    (rest : List Char) : (Spelling.literal ⟨false, char⟩).Fits rest := by
  apply fits_of_no_separator (by simp [Spelling.token]) rfl
  · intro behind
    refine (bareSeparators_cons complete behind).trans ?_
    rw [if_neg noSeparator, Nat.zero_add]
  · intro opens
    simpa [Spelling.text, SpelledChar.text, Spelling.token] using opens

theorem bareSeparators_stars (count : Nat) (rest : List Char) :
    bareSeparators (List.replicate count '*' ++ rest) = bareSeparators rest := by
  induction count with
  | zero => rfl
  | succ count ih =>
      rw [List.replicate_succ, List.cons_append, bareSeparators_cons (by decide), ih]
      simp

theorem fits_stars (wholeSegment : Bool) (more : Nat) (rest : List Char) :
    (Spelling.stars wholeSegment more).Fits rest := by
  apply fits_of_no_separator _ rfl
  · exact bareSeparators_stars (more + 1)
  · simp [Spelling.text]
  · cases wholeSegment <;> simp [Spelling.token]

theorem fits_class {token : Token} (spells : part.SpellsClass token text rest) :
    part.Fits rest := by
  rcases spells.isClass with ⟨negation, spelled, rfl⟩
  have separators : (Spelling.charClass negation spelled).separators = 0 := by
    simp [Spelling.separators, Spelling.token]
  refine ⟨?_, ?_, fun _ => Or.inr ⟨by simp [Spelling.token], ?_⟩⟩
  · simpa [separators, bareSeparators] using spells.bareSeparators_eq []
  · simpa [separators] using spells.bareSeparators_eq rest
  · rw [spells.text_eq]
    exact spells.inside_eq

theorem FitTogether.fits {before after : List Spelling} (together : FitTogether spelling)
    (split : spelling = before ++ part :: after) : part.Fits (after.flatMap Spelling.text) := by
  subst split
  induction before with
  | nil => exact together.1
  | cons first before ih => exact ih together.2

/-- Some parts spell tokens: together they make up a text, and each part fits where it stands. -/
structure Spells (spelling : List Spelling) (tokens : List Token) (text : List Char) : Prop where
  tokens_eq : spelling.map Spelling.token = tokens
  text_eq : spelling.flatMap Spelling.text = text
  together : FitTogether spelling

theorem Spells.cons {tokens : List Token} (spells : Spells spelling tokens rest)
    (fits : part.Fits rest) :
    Spells (part :: spelling) (part.token :: tokens) (part.text ++ rest) := by
  refine ⟨congrArg _ spells.tokens_eq, ?_, ?_, spells.together⟩
  · rw [List.flatMap_cons, spells.text_eq]
  · rwa [spells.text_eq]

/-- Every token is spelled by a part of the text, and nothing stands between the parts. -/
theorem exists_spelling (segmentStarts : Bool) (text : List Char) :
    ∃ spelling, Spells spelling (tokensFrom segmentStarts text) text := by
  fun_induction tokensFrom segmentStarts text with
  | case1 => exact ⟨[], rfl, rfl, trivial⟩
  | case2 =>
      refine ⟨[.literal ⟨false, '\\'⟩], rfl, rfl, ⟨rfl, rfl, ?_⟩, trivial⟩
      simp [Spelling.text, SpelledChar.text]
  | case3 segmentStarts char rest ih =>
      rcases ih with ⟨spelling, spells⟩
      exact ⟨_, spells.cons (fits_escaped char rest)⟩
  | case4 segmentStarts rest after wholeSegment ih =>
      rcases ih with ⟨spelling, spells⟩
      rcases exists_stars rest with ⟨more, run, _⟩
      have spelled := spells.cons (fits_stars wholeSegment more after)
      rw [run]
      exact ⟨_, spelled⟩
  | case5 segmentStarts rest ih =>
      rcases ih with ⟨spelling, spells⟩
      have fits : Spelling.anyChar.Fits rest :=
        fits_of_no_separator (by decide) rfl (fun _ => rfl) (by simp [Spelling.text])
      exact ⟨_, spells.cons fits⟩
  | case6 segmentStarts rest token after read ih =>
      rcases ih with ⟨spelling, spells⟩
      rcases exists_spellsClass read with ⟨part, spellsClass⟩
      rw [← spellsClass.text_eq, ← spellsClass.token_eq]
      exact ⟨_, spells.cons (fits_class spellsClass)⟩
  | case7 segmentStarts rest read ih =>
      rcases ih with ⟨spelling, spells⟩
      exact ⟨_, spells.cons (fits_plain (by decide) (by decide) rest)⟩
  | case8 segmentStarts rest ih =>
      rcases ih with ⟨spelling, spells⟩
      have fits : Spelling.separator.Fits rest := by
        refine ⟨rfl, ?_, by simp [Spelling.text]⟩
        exact (bareSeparators_cons (by decide) rest).trans rfl
      exact ⟨_, spells.cons fits⟩
  | case9 segmentStarts char rest single escaped notStar notAny notBracket notSeparator ih =>
      rcases ih with ⟨spelling, spells⟩
      have complete : char ≠ '\\' := by
        intro backslash
        cases rest with
        | nil => exact single backslash rfl
        | cons next rest => exact escaped next rest backslash rfl
      exact ⟨_, spells.cons (fits_plain complete notSeparator rest)⟩

/-- A text has a bare separator for each separator token, and no other one exactly if no part of it
crosses one. -/
theorem Spells.count_separator {tokens : List Token} (spells : Spells spelling tokens text) :
    tokens.count .separator ≤ bareSeparators text ∧
      (tokens.count .separator = bareSeparators text ↔ ∀ part ∈ spelling, part.crossings = 0) := by
  rcases spells with ⟨rfl, rfl, together⟩
  induction spelling with
  | nil => simp [bareSeparators]
  | cons part spelling ih =>
      have separators : ((part :: spelling).map Spelling.token).count .separator =
          (spelling.map Spelling.token).count .separator + part.separators := by
        simp [List.count_cons, Spelling.separators]
      rcases ih together.2 with ⟨atLeast, exact_iff⟩
      rw [List.flatMap_cons, together.1.bareSeparators_append, separators, List.forall_mem_cons,
        ← exact_iff]
      omega

end Parts

/-- A body is spelled by its tokens one after another, and a part of it holds separators that are
none of its tokens exactly if it is a bracket expression with a range that ends in a bare separator.
So all bare separators of a body become tokens exactly if there is no such range, and a bracket
before whose closing bracket a bare separator stands is literal exactly if it does not open an
expression with such a range. -/
theorem separators_kept_iff (body : List Char) :
    ∃ spelling : List Spelling, spelling.map Spelling.token = tokens body ∧
      spelling.flatMap Spelling.text = body ∧
      ((tokens body).count .separator = bareSeparators body ↔
        ∀ part ∈ spelling, part.crossings = 0) ∧
      ∀ before part after, spelling = before ++ part :: after →
        (bareSeparators part.text = (if part.token = .separator then 1 else 0) ↔
          part.crossings = 0) ∧
        (part.text.head? = some '[' →
          ((0 < bareSeparators (insideBrackets ((part :: after).flatMap Spelling.text).tail) →
            part.token = .literal '[') ↔ part.crossings = 0)) := by
  rcases exists_spelling true body with ⟨spelling, spells⟩
  refine ⟨spelling, spells.tokens_eq, spells.text_eq, spells.count_separator.2, ?_⟩
  intro before part after split
  have fits := spells.together.fits split
  constructor
  · have own := fits.bareSeparators_text
    rw [Spelling.separators] at own
    omega
  · intro opens
    rw [List.flatMap_cons]
    rcases fits.bracket opens with ⟨literal, noCrossing⟩ | ⟨notLiteral, inside⟩
    · simp [literal, noCrossing]
    · rw [inside]
      simp [notLiteral]

/-- A range that ends in a bare separator takes it into a bracket expression. -/
theorem tokens_of_range_to_separator :
    tokens "[+-/]".toList = [.charClass false [.range '+' '/']] ∧
      (tokens "[+-/]".toList).count .separator = 0 ∧ bareSeparators "[+-/]".toList = 1 ∧
      bareSeparators (insideBrackets "+-/]".toList) = 1 := by
  have read : tokens "[+-/]".toList = [.charClass false [.range '+' '/']] := by decide +kernel
  rw [read]
  decide

end Glob

end OwnerCoverage
