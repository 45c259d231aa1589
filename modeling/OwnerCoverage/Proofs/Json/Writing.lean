import Mathlib.Data.List.Forall2
import OwnerCoverage.Json.Reader
import OwnerCoverage.Proofs.Decimal.Layout
import OwnerCoverage.Text.Record

/-!
# Written texts read back

A text writes a value if its tokens are read as that value, whatever is open around it and whatever
stands behind it, so long as a word may end there. Quoted texts and numbers write themselves, and a
record writes the object of what its fields write (`writes_record`). A text that writes a value is
read as that value.
-/

namespace OwnerCoverage

namespace Json

open NumberFormat

section Tokens

theorem tokens?_quote {value : String} {rest after : List Char}
    (read : readText? rest = some (value, after)) :
    tokens? ('"' :: rest) = (tokens? after).map (.text value :: ·) := by
  rw [tokens?.eq_def]
  dsimp only
  rw [if_neg (by decide), if_pos rfl]
  split
  · rename_i unread
    simp [read] at unread
  · rename_i value' after' read'
    rw [read, Option.some.injEq, Prod.mk.injEq] at read'
    rw [read'.1, read'.2]

theorem tokens?_mark {char : Char} {token : Token} (mark : mark? char = some token)
    (rest : List Char) : tokens? (char :: rest) = (tokens? rest).map (token :: ·) := by
  have plain : isBlank char = false ∧ char ≠ '"' := by
    unfold mark? at mark
    split at mark
    all_goals first
      | exact ⟨rfl, by decide⟩
      | simp at mark
  rw [tokens?.eq_def]
  simp only [plain.1, Bool.false_eq_true, if_false, if_neg plain.2, mark]

/-- A word goes on to where it may end. -/
theorem tokens?_word {word rest : List Char} {token : Token} (some : word ≠ [])
    (letters : ∀ char ∈ word, endsWord char = false)
    (ends : ∀ char ∈ rest.head?, endsWord char = true) (read : wordToken? word = .some token) :
    tokens? (word ++ rest) = (tokens? rest).map (token :: ·) := by
  cases word with
  | nil => exact (some rfl).elim
  | cons first word =>
      rw [List.forall_mem_cons] at letters
      rcases letters with ⟨letter, others⟩
      rw [endsWord, Bool.or_eq_false_iff, Bool.or_eq_false_iff, beq_eq_false_iff_ne,
        Option.isSome_eq_false_iff, Option.isNone_iff_eq_none] at letter
      rcases letter with ⟨⟨notBlank, notQuote⟩, notMark⟩
      have stays : ∀ char ∈ word, (!endsWord char) = true := by
        intro char mem
        rw [others char mem]
        rfl
      have stops : ∀ char ∈ rest.head?, (!endsWord char) = false := by
        intro char head
        rw [ends char head]
        rfl
      rcases Text.takeWhile_append_of_stops stays stops with ⟨taken, left⟩
      rw [List.cons_append, tokens?.eq_def]
      simp only [notBlank, Bool.false_eq_true, if_false, if_neg notQuote, notMark, taken, left,
        read]

theorem wordToken?_of_readNumber? {word : List Char} {number : Number}
    (read : readNumber? word = some number) : wordToken? word = some (.number number) := by
  have unread : ∀ text ∈ ["null", "true", "false"], readNumber? text.toList = none := by decide
  have differs : ∀ text ∈ ["null", "true", "false"], word ≠ text.toList := by
    rintro text mem rfl
    rw [unread text mem] at read
    cases read
  rw [wordToken?, if_neg (differs "null" (by decide)), if_neg (differs "true" (by decide)),
    if_neg (differs "false" (by decide)), read, Option.map_some]

theorem endsWord_of_isNumeral {char : Char} (numeral : isNumeral char = true) :
    endsWord char = false := by
  have unlike : ∀ mark ∈ [' ', '\t', '\n', '\r', '"', '\x7b', '\x7d', '[', ']', ':', ','],
      char ≠ mark := by
    have notNumeral : [' ', '\t', '\n', '\r', '"', '\x7b', '\x7d', '[', ']', ':', ','].all
        (!isNumeral ·) = true := by decide
    rintro _ mem rfl
    have other := List.all_eq_true.1 notNumeral char mem
    rw [numeral] at other
    cases other
  simp only [List.forall_mem_cons] at unlike
  simp [endsWord, isBlank, mark?, unlike]

end Tokens

section Quoted

/-- What a character is written as in a quoted text is read as the code of that character. -/
theorem readCode?_quotedChar (char : Char) (rest : List Char) :
    readCode? (Text.quotedChar char ++ rest) = some (char.toNat, rest) := by
  have hex : ∀ code < 32, hexCode? ['0', '0', Text.hexDigit (code / 16), Text.hexDigit code] =
      some code := by decide
  by_cases mark : char = '"'
  · subst mark
    rfl
  by_cases backslash : char = '\\'
  · subst backslash
    rfl
  by_cases letter : char ∈ ['\x08', '\x0c', '\n', '\r', '\t']
  · simp only [List.mem_cons, List.not_mem_nil, or_false] at letter
    rcases letter with rfl | rfl | rfl | rfl | rfl <;> rfl
  · simp only [List.mem_cons, List.not_mem_nil, or_false, not_or] at letter
    rcases letter with ⟨backspace, formFeed, lineFeed, carriageReturn, tabulator⟩
    by_cases control : char.toNat < 32
    · have escape : Text.quotedChar char = Text.hexEscape char := by
        simp only [Text.quotedChar, mark, backslash, backspace, formFeed, lineFeed, carriageReturn,
          tabulator, control, if_true, if_false]
      rw [escape]
      change (hexCode? _).map _ = _
      rw [hex char.toNat control]
      rfl
    · have itself : Text.quotedChar char = [char] := by
        simp only [Text.quotedChar, mark, backslash, backspace, formFeed, lineFeed, carriageReturn,
          tabulator, control, if_false]
      rw [itself, List.singleton_append]
      unfold readCode?
      split <;> simp_all

theorem head?_quotedChar (char : Char) (rest : List Char) :
    (Text.quotedChar char ++ rest).head? ≠ some '"' := by
  by_cases mark : char = '"'
  · subst mark
    exact fun starts => absurd (Option.some.inj starts) (by decide)
  · unfold Text.quotedChar Text.hexEscape
    repeat' split
    all_goals simp_all

theorem readCodes?_quoted (chars rest : List Char) :
    readCodes? (chars.flatMap Text.quotedChar ++ '"' :: rest) =
      some (chars.map Char.toNat, rest) := by
  induction chars with
  | nil =>
      rw [readCodes?]
      rfl
  | cons char chars ih =>
      rw [List.flatMap_cons, List.append_assoc, readCodes?, if_neg (head?_quotedChar char _)]
      split
      · rename_i unread
        simp [readCode?_quotedChar] at unread
      · rename_i read
        rw [readCode?_quotedChar, Option.some.injEq, Prod.mk.injEq] at read
        rw [← read.1, ← read.2, ih]
        rfl

theorem charOfCode?_toNat (char : Char) : charOfCode? char.toNat = some char := by
  have valid : char.toNat.isValidChar := char.valid
  rw [charOfCode?, if_pos valid, Char.ofNat_toNat]

theorem isHighSurrogate_toNat (char : Char) : isHighSurrogate char.toNat = false := by
  have valid : char.toNat < 0xD800 ∨ 0xDFFF < char.toNat ∧ char.toNat < 0x110000 := char.valid
  rw [isHighSurrogate, Bool.and_eq_false_iff, decide_eq_false_iff_not, decide_eq_false_iff_not]
  omega

theorem textOfCodes?_map_toNat (chars : List Char) :
    textOfCodes? (chars.map Char.toNat) = some chars := by
  induction chars with
  | nil => rfl
  | cons char chars ih =>
      cases chars with
      | nil => rw [List.map_singleton, textOfCodes?, charOfCode?_toNat, Option.map_some]
      | cons next rest =>
          rw [List.map_cons, List.map_cons, textOfCodes?, isHighSurrogate_toNat, Bool.false_and,
            if_neg Bool.false_ne_true, charOfCode?_toNat]
          rw [List.map_cons] at ih
          simp only [ih, Option.map_some]

theorem tokens?_quoted (text : String) (rest : List Char) :
    tokens? ((Text.quoted text).toList ++ rest) = (tokens? rest).map (.text text :: ·) := by
  have read : readText? (text.toList.flatMap Text.quotedChar ++ '"' :: rest) =
      some (text, rest) := by
    rw [readText?, readCodes?_quoted]
    simp only [textOfCodes?_map_toNat, Option.map_some, String.ofList_toList]
  rw [Text.quoted, String.toList_ofList, List.cons_append, List.cons_append, List.append_assoc,
    List.singleton_append, tokens?_quote read]

end Quoted

section Values

/-- Whether a text is read as a value wherever a word may end behind it, whatever is open. -/
def Writes (text : List Char) (value : Value) : Prop :=
  ∃ tokens : List Token,
    (∀ frames, (Reader.valueNext frames).run? tokens = some (.behind value frames)) ∧
    ∀ rest : List Char, (∀ char ∈ rest.head?, endsWord char = true) →
      tokens? (text ++ rest) = (tokens? rest).map (tokens ++ ·)

theorem read_of_writes {text : String} {value : Value} (writes : Writes text.toList value) :
    read text = some value := by
  rcases writes with ⟨tokens, run, cut⟩
  have all := cut [] (by simp)
  rw [List.append_nil, tokens?, Option.map_some, List.append_nil] at all
  rw [read]
  simp only [all, run []]

theorem writes_quoted (text : String) : Writes (Text.quoted text).toList (.text text) :=
  ⟨[.text text], fun _ => rfl, fun rest _ => tokens?_quoted text rest⟩

theorem writes_number {word : List Char} {number : Number}
    (numeral : ∀ char ∈ word, isNumeral char = true) (read : readNumber? word = some number) :
    Writes word (.number number) := by
  refine ⟨[.number number], fun _ => rfl, ?_⟩
  intro rest ends
  have some : word ≠ [] := by
    rintro rfl
    simp [readNumber?, readDecimal?] at read
  exact tokens?_word some (fun char mem => endsWord_of_isNumeral (numeral char mem)) ends
    (wordToken?_of_readNumber? read)

theorem writes_natural (value : Nat) :
    Writes (toString value).toList (.number ⟨false, ⟨value, 0⟩⟩) :=
  writes_number (fun _ mem => isNumeral_of_isDigit (isDigit_of_mem_digitsOf mem))
    (readNumber?_digitsOf value)

theorem exists_writes_write (format : NumberFormat) {number : Binary64}
    (finite : number.magnitude < Binary64.infiniteMagnitude) :
    ∃ read : Number, Writes (format.write number).toList (.number read) ∧
      read.RoundsTo number := by
  rcases exists_readNumber?_write format finite with ⟨read, isRead, rounds⟩
  exact ⟨read, writes_number (fun _ => isNumeral_of_mem_write finite) isRead, rounds⟩

end Values

section Records

@[simp]
theorem Reader.run?_cons (reader : Reader) (token : Token) (tokens : List Token) :
    reader.run? (token :: tokens) = (reader.step? token).bind (·.run? tokens) :=
  List.foldlM_cons

@[simp]
theorem Reader.run?_append (reader : Reader) (tokens more : List Token) :
    reader.run? (tokens ++ more) = (reader.run? tokens).bind (·.run? more) :=
  List.foldlM_append

/-- Whether fields write members, one by one. -/
def WritesFields : List (String × String) → List (String × Value) → Prop :=
  List.Forall₂ fun field member => field.1 = member.1 ∧ Writes field.2.toList member.2

/-- A field is read from wherever a name may stand. -/
theorem exists_tokens_recordField (name : String) {text : String} {value : Value}
    (writes : Writes text.toList value) :
    ∃ tokens : List Token,
      (∀ (reader : Reader) (members : List (String × Value)) (frames : List Frame),
        reader.step? (.text name) = some (.colonNext members name frames) →
          reader.run? tokens = some (.behind value (.object members name :: frames))) ∧
      ∀ rest : List Char, (∀ char ∈ rest.head?, endsWord char = true) →
        tokens? ((Text.recordField name text).toList ++ rest) =
          (tokens? rest).map (tokens ++ ·) := by
  rcases writes with ⟨tokens, run, cut⟩
  refine ⟨.text name :: .colon :: tokens, ?_, ?_⟩
  · intro reader members frames named
    have step : (Reader.colonNext members name frames).step? .colon =
        some (.valueNext (.object members name :: frames)) := rfl
    rw [Reader.run?_cons, named, Option.bind_some, Reader.run?_cons, step, Option.bind_some, run]
  · intro rest ends
    have colon : mark? ':' = some .colon := rfl
    rw [Text.recordField, String.toList_append, String.toList_append, List.append_assoc,
      List.append_assoc, tokens?_quoted]
    change (tokens? (':' :: (text.toList ++ rest))).map _ = _
    rw [tokens?_mark colon, cut rest ends, Option.map_map, Option.map_map]
    rfl

/-- The fields behind the first one, each with a comma before it. -/
def laterFields (fields : List (String × String)) : List Char :=
  fields.flatMap fun field => ',' :: (Text.recordField field.1 field.2).toList

theorem endsWord_of_mem_head?_laterFields (fields : List (String × String)) (rest : List Char) :
    ∀ char ∈ (laterFields fields ++ '\x7d' :: rest).head?, endsWord char = true := by
  cases fields <;> simp [laterFields, endsWord, mark?]

/-- The further fields of a record, and its end. -/
theorem exists_tokens_members {fields : List (String × String)} {members : List (String × Value)}
    (writes : WritesFields fields members) :
    ∃ tokens : List Token,
      (∀ (value : Value) (earlier : List (String × Value)) (name : String) (frames : List Frame),
        (Reader.behind value (.object earlier name :: frames)).run? tokens =
          some (.behind (.object (earlier ++ (name, value) :: members)) frames)) ∧
      ∀ rest : List Char,
        tokens? (laterFields fields ++ '\x7d' :: rest) = (tokens? rest).map (tokens ++ ·) := by
  -- The object stays open with its last value not yet among the members, for every such value.
  induction writes with
  | nil =>
      refine ⟨[.closeObject], fun _ _ _ _ => rfl, ?_⟩
      intro rest
      have brace : mark? '\x7d' = some .closeObject := rfl
      change tokens? ('\x7d' :: rest) = _
      rw [tokens?_mark brace]
      rfl
  | @cons field member fields members first _ ih =>
      rcases field with ⟨name, text⟩
      rcases member with ⟨_, value⟩
      rcases first with ⟨rfl, writesValue⟩
      rcases ih with ⟨tokens, run, cut⟩
      rcases exists_tokens_recordField name writesValue with ⟨fieldTokens, runField, cutField⟩
      refine ⟨.comma :: (fieldTokens ++ tokens), ?_, ?_⟩
      · intro before earlier last frames
        have step : (Reader.behind before (.object earlier last :: frames)).step? .comma =
            some (.nameNext (earlier ++ [(last, before)]) frames) := rfl
        rw [Reader.run?_cons, step, Option.bind_some, Reader.run?_append,
          runField _ (earlier ++ [(last, before)]) frames rfl, Option.bind_some, run,
          List.append_assoc, List.singleton_append]
      · intro rest
        have comma : mark? ',' = some .comma := rfl
        rw [laterFields, List.flatMap_cons, List.append_assoc, List.cons_append, tokens?_mark comma,
          ← laterFields, cutField _ (endsWord_of_mem_head?_laterFields fields rest), cut,
          Option.map_map, Option.map_map]
        congr 1
        funext more
        simp

theorem toList_record_cons (name text : String) (fields : List (String × String)) :
    (Text.record ((name, text) :: fields)).toList =
      '\x7b' :: ((Text.recordField name text).toList ++ (laterFields fields ++ ['\x7d'])) := by
  have separated (first : String) : (",".intercalate (first :: fields.map fun field =>
      Text.recordField field.1 field.2)).toList = first.toList ++ laterFields fields := by
    induction fields generalizing first with
    | nil => simp [laterFields]
    | cons next fields ih =>
        rw [List.map_cons, String.intercalate_cons_cons, String.toList_append, ih]
        simp [laterFields]
  rw [Text.record, String.toList_append, String.toList_append, List.map_cons]
  change _ ++ (",".intercalate (Text.recordField name text :: fields.map fun field =>
    Text.recordField field.1 field.2)).toList ++ _ = _
  rw [separated, List.append_assoc]
  simp

/-- A record of fields that write values writes the object of these values. -/
theorem writes_record {fields : List (String × String)} {members : List (String × Value)}
    (writes : WritesFields fields members) :
    Writes (Text.record fields).toList (.object members) := by
  have openBrace : mark? '\x7b' = some .openObject := rfl
  have closeBrace : mark? '\x7d' = some .closeObject := rfl
  cases writes with
  | nil =>
      refine ⟨[.openObject, .closeObject], fun _ => rfl, ?_⟩
      intro rest _
      change tokens? ('\x7b' :: '\x7d' :: rest) = _
      rw [tokens?_mark openBrace, tokens?_mark closeBrace, Option.map_map]
      rfl
  | @cons field member fields members first others =>
      rcases field with ⟨name, text⟩
      rcases member with ⟨_, value⟩
      rcases first with ⟨rfl, writesValue⟩
      rcases exists_tokens_recordField name writesValue with ⟨fieldTokens, runField, cutField⟩
      rcases exists_tokens_members others with ⟨tokens, run, cut⟩
      refine ⟨.openObject :: (fieldTokens ++ tokens), ?_, ?_⟩
      · intro frames
        have step : (Reader.valueNext frames).step? .openObject = some (.nameOrEnd frames) := rfl
        rw [Reader.run?_cons, step, Option.bind_some, Reader.run?_append, runField _ [] frames rfl,
          Option.bind_some, run, List.nil_append]
      · intro rest _
        rw [toList_record_cons, List.cons_append, tokens?_mark openBrace, List.append_assoc,
          List.append_assoc, List.singleton_append,
          cutField _ (endsWord_of_mem_head?_laterFields fields rest), cut, Option.map_map,
          Option.map_map]
        congr 1
        funext more
        simp

end Records

end Json

end OwnerCoverage
