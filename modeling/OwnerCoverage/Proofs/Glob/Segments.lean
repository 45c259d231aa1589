import OwnerCoverage.Proofs.Glob.Spelling

/-!
# Segments of a body

A bracket expression is decided by the text up to its closing bracket, and a run of stars by whether
its segment ends behind it. So a body is read in front of its first separator as if nothing followed
(`cut`), and is cut at its separators into runs that are read on their own (`exists_cutInto`).

A run of two or more stars, and no other run, has a token for any number of components. Therefore a
segment that stands for any number of components comes from such a run, and no component has a token
of that kind (`segments_of_body`).
-/

namespace OwnerCoverage

namespace Glob

section Brackets

variable {text rest after : List Char} {char : Char} {item : ClassItem} {items : List ClassItem}
  {token : Token} {opening : Bool}

theorem SpelledChar.text_ne_nil (spelled : SpelledChar) : spelled.text ≠ [] := by
  unfold SpelledChar.text
  split <;> simp

theorem readMember?_text_append {spelled : SpelledChar} (complete : spelled.Complete)
    (rest : List Char) : readMember? (spelled.text ++ rest) = some (spelled.char, rest) := by
  rcases spelled with ⟨escaped, char⟩
  cases escaped with
  | true => rfl
  | false =>
      exact readMember?.eq_4 char rest (fun lone _ => complete rfl lone)
        fun _ _ escapes _ => complete rfl escapes

/-- Whether the text behind a member joins it to another one. -/
def joins : List Char → Bool
  | '-' :: next :: _ => next != ']'
  | _ => false

theorem joins_iff : joins rest = true ↔
    ∃ next tail, rest = '-' :: next :: tail ∧ next ≠ ']' := by
  unfold joins
  split
  · simp
  · rename_i noHyphen
    constructor
    · simp
    · rintro ⟨next, tail, rfl, _⟩
      exact absurd rfl (noHyphen next tail)

theorem readItem?_eq (read : readMember? text = some (char, rest)) :
    readItem? text =
      if joins rest then (readMember? rest.tail).map fun last => (.range char last.1, last.2)
      else some (.single char, rest) := by
  rw [readItem?, read]
  split
  · rename_i none
    simp at none
  · rename_i first next tail same
    rw [Option.some.injEq, Prod.mk.injEq] at same
    rcases same with ⟨rfl, rfl⟩
    by_cases closing : next = ']'
    · simp [joins, closing]
    · cases last : readMember? (next :: tail) <;> simp [joins, closing, last]
  · rename_i notJoined same
    rw [Option.some.injEq, Prod.mk.injEq] at same
    rcases same with ⟨rfl, rfl⟩
    have apart : joins rest = false := by
      unfold joins
      split
      · exact absurd rfl (notJoined _ _)
      · rfl
    rw [apart, if_neg Bool.false_ne_true]

/-- What decides a member of a bracket expression is its own text, and whether what stands behind it
joins it to another one. -/
theorem exists_item_text (read : readItem? text = some (item, rest)) :
    ∃ own, own ≠ [] ∧ own ++ rest = text ∧
      ∀ other, joins other = joins rest → readItem? (own ++ other) = some (item, other) := by
  rcases exists_of_readItem? read with ⟨char, behind, readFirst, _⟩
  rw [readItem?_eq readFirst] at read
  rcases exists_spelledChar readFirst with ⟨first, rfl, complete, rfl⟩
  by_cases joined : joins behind = true
  · rw [if_pos joined] at read
    rcases joins_iff.1 joined with ⟨next, tail, rfl, notClosing⟩
    rcases Option.map_eq_some_iff.1 read with ⟨⟨char, after⟩, readLast, same⟩
    rw [Prod.mk.injEq] at same
    rcases same with ⟨rfl, rfl⟩
    rcases exists_spelledChar readLast with ⟨last, rfl, completeLast, spelled⟩
    refine ⟨first.text ++ '-' :: last.text, by simp, ?_, ?_⟩
    · rw [List.append_assoc, List.cons_append, ← spelled]
      rfl
    · intro other _
      rcases List.exists_cons_of_ne_nil last.text_ne_nil with ⟨head, more, starts⟩
      rw [List.tail_cons, starts, List.cons_append, List.cons.injEq] at spelled
      have joinedOther : joins ('-' :: (last.text ++ other)) = true :=
        joins_iff.2 ⟨head, more ++ other, by rw [starts]; rfl, spelled.1 ▸ notClosing⟩
      have readFirst := readMember?_text_append complete ('-' :: (last.text ++ other))
      rw [List.append_assoc, List.cons_append, readItem?_eq readFirst, if_pos joinedOther,
        List.tail_cons, readMember?_text_append completeLast]
      rfl
  · rw [if_neg joined, Option.some.injEq, Prod.mk.injEq] at read
    rcases read with ⟨rfl, rfl⟩
    refine ⟨first.text, first.text_ne_nil, rfl, ?_⟩
    intro other same
    rw [readItem?_eq (readMember?_text_append complete other), if_neg (same ▸ joined)]

theorem joins_append_closing (own rest other : List Char) :
    joins (own ++ ']' :: other) = joins (own ++ ']' :: rest) := by
  rcases own with _ | ⟨first, _ | ⟨second, own⟩⟩
  · rfl
  · by_cases hyphen : first = '-' <;> simp [joins, hyphen]
  · by_cases hyphen : first = '-' <;> simp [joins, hyphen]

theorem readItems?_of_item (notClosed : ¬(!opening && text.head? == some ']') = true)
    (noSeparator : ¬(text.head? == some '/') = true) (read : readItem? text = some (item, rest)) :
    readItems? opening text =
      (readItems? false rest).map fun more => (item :: more.1, more.2) := by
  rw [readItems?, if_neg notClosed, if_neg noSeparator]
  split
  · rename_i none
    rw [read] at none
    simp at none
  · rename_i item' rest' same
    rw [read, Option.some.injEq, Prod.mk.injEq] at same
    rw [same.1, same.2]

/-- What decides the members of a bracket expression is the text up to the closing bracket. -/
theorem exists_items_text (read : readItems? opening text = some (items, after)) :
    ∃ own, own ++ ']' :: after = text ∧
      ∀ other, readItems? opening (own ++ ']' :: other) = some (items, other) := by
  fun_induction readItems? opening text generalizing items after with
  | case1 opening text closed =>
      rw [Option.some.injEq, Prod.mk.injEq] at read
      rcases read with ⟨rfl, rfl⟩
      simp only [Bool.and_eq_true, Bool.not_eq_true', beq_iff_eq] at closed
      rcases List.head?_eq_some_iff.1 closed.2 with ⟨tail, rfl⟩
      refine ⟨[], rfl, ?_⟩
      intro other
      rw [closed.1, readItems?]
      simp
  | case2 => simp at read
  | case3 => simp at read
  | case4 opening text notClosed noSeparator item behind readFirst ih =>
      rcases Option.map_eq_some_iff.1 read with ⟨⟨items', after'⟩, readRest, same⟩
      rw [Prod.mk.injEq] at same
      rcases same with ⟨rfl, rfl⟩
      rcases exists_item_text readFirst with ⟨first, nonempty, rfl, decides⟩
      rcases ih readRest with ⟨own, rfl, decidesRest⟩
      refine ⟨first ++ own, List.append_assoc first own _, ?_⟩
      intro other
      have head (rest : List Char) : (first ++ rest).head? = first.head? :=
        List.head?_append_of_ne_nil first nonempty
      rw [head] at notClosed noSeparator
      rw [List.append_assoc, readItems?_of_item (by rwa [head]) (by rwa [head])
        (decides _ (joins_append_closing own _ other)), decidesRest]
      rfl

theorem exists_class_items_text {negated : Bool}
    (read : ((readItems? true text).map fun items => (Token.charClass negated items.1, items.2)) =
      some (token, after)) :
    ∃ own, own ++ ']' :: after = text ∧ ∀ other,
      ((readItems? true (own ++ ']' :: other)).map fun items =>
        (Token.charClass negated items.1, items.2)) = some (token, other) := by
  rcases Option.map_eq_some_iff.1 read with ⟨⟨items, after⟩, readItems, same⟩
  rw [Prod.mk.injEq] at same
  rcases same with ⟨rfl, rfl⟩
  rcases exists_items_text readItems with ⟨own, rfl, decides⟩
  exact ⟨own, rfl, fun other => by rw [decides, Option.map_some]⟩

/-- What decides a bracket expression is the text up to the closing bracket. -/
theorem exists_class_text (read : readClass? text = some (token, after)) :
    ∃ own, own ++ ']' :: after = text ∧
      ∀ other, readClass? (own ++ ']' :: other) = some (token, other) := by
  unfold readClass? at read
  split at read
  · rcases exists_class_items_text read with ⟨own, rfl, decides⟩
    exact ⟨'!' :: own, rfl, decides⟩
  · rcases exists_class_items_text read with ⟨own, rfl, decides⟩
    exact ⟨'^' :: own, rfl, decides⟩
  · rename_i notBang notCaret
    rcases exists_class_items_text read with ⟨own, rfl, decides⟩
    -- What follows the closing bracket cannot mark the expression as negated.
    have unmarked {mark : Char} (notClosing : ']' ≠ mark)
        (bare : ∀ rest, own ++ ']' :: after = mark :: rest → False) (other rest : List Char) :
        own ++ ']' :: other ≠ mark :: rest := by
      intro marked
      cases own with
      | nil => exact notClosing (List.cons.inj marked).1
      | cons first own => exact bare _ (congrArg (· :: _) (List.cons.inj marked).1)
    refine ⟨own, rfl, ?_⟩
    intro other
    rw [← decides other]
    exact readClass?.eq_3 _ (unmarked (by decide) notBang other)
      (unmarked (by decide) notCaret other)

/-- The first closing bracket of an expression is a member of it. -/
theorem items_ne_nil_of_readItems? (read : readItems? true text = some (items, after)) :
    items ≠ [] := by
  rw [readItems?, if_neg (by simp)] at read
  split at read
  · simp at read
  · split at read
    · simp at read
    · rcases Option.map_eq_some_iff.1 read with ⟨more, _, same⟩
      rw [← (Prod.mk.inj same).1]
      exact List.cons_ne_nil _ _

theorem items_ne_nil_of_readClass? {negated : Bool}
    (read : readClass? text = some (.charClass negated items, after)) : items ≠ [] := by
  unfold readClass? at read
  split at read <;>
  · rcases Option.map_eq_some_iff.1 read with ⟨⟨members, behind⟩, readItems, same⟩
    rw [Prod.mk.injEq, Token.charClass.injEq] at same
    exact same.1.2 ▸ items_ne_nil_of_readItems? readItems

end Brackets

section Tokens

variable {segmentStarts : Bool} {text rest after front run : List Char} {token : Token}

theorem tokensFrom_of_class (read : readClass? rest = some (token, after)) :
    tokensFrom segmentStarts ('[' :: rest) = token :: tokensFrom false after := by
  rw [tokensFrom]
  split <;> simp_all

theorem tokensFrom_of_noClass (read : readClass? rest = none) :
    tokensFrom segmentStarts ('[' :: rest) = .literal '[' :: tokensFrom false rest := by
  rw [tokensFrom]
  split <;> simp_all

theorem tokensFrom_stars (segmentStarts : Bool) (count : Nat) (noStar : text.head? ≠ some '*') :
    tokensFrom segmentStarts (List.replicate (count + 1) '*' ++ text) =
      (if segmentStarts && decide (0 < count) && segmentEnds text then .anyDepth else .star) ::
        tokensFrom false text := by
  have stays : ∀ char ∈ text.head?, (char == '*') = false := by
    intro char head
    rw [beq_eq_false_iff_ne]
    rintro rfl
    exact noStar head
  have behind : (List.replicate count '*' ++ text).dropWhile (· == '*') = text :=
    (Text.takeWhile_append_of_stops (by simp) stays).2
  have several : ((List.replicate count '*' ++ text).head? == some '*') = decide (0 < count) := by
    cases count with
    | zero => simpa using noStar
    | succ count => rfl
  rw [List.replicate_succ, List.cons_append, tokensFrom, behind, several]

theorem head?_dropWhile_star (rest : List Char) : (rest.dropWhile (· == '*')).head? ≠ some '*' := by
  intro starts
  have := List.head?_dropWhile_not (· == '*') rest
  simp [starts] at this

/-- A bracket that opens no expression in a text opens none in a part of it. -/
theorem noClass_of_append (read : readClass? (run ++ rest) = none) : readClass? run = none := by
  rw [Option.eq_none_iff_forall_ne_some]
  rintro ⟨token, after⟩ readRun
  rcases exists_class_text readRun with ⟨own, rfl, decides⟩
  rw [List.append_assoc, List.cons_append, decides] at read
  simp at read

/-- A text that is read without a separator, or that is cut at its first separator, in front of
which it is read as if nothing followed. -/
inductive Cut (segmentStarts : Bool) : List Char → Prop
  | whole {run : List Char} (noSeparator : .separator ∉ tokensFrom segmentStarts run) :
      Cut segmentStarts run
  | before {run rest : List Char} (noSeparator : .separator ∉ tokensFrom segmentStarts run)
      (tokens_eq : tokensFrom segmentStarts (run ++ '/' :: rest) =
        tokensFrom segmentStarts run ++ .separator :: tokens rest) :
      Cut segmentStarts (run ++ '/' :: rest)

theorem Cut.cons (front : List Char) (other : token ≠ .separator)
    (reads : tokensFrom segmentStarts (front ++ rest) = token :: tokensFrom false rest)
    (alone : ∀ run more, rest = run ++ '/' :: more →
      tokensFrom segmentStarts (front ++ run) = token :: tokensFrom false run)
    (cut : Cut false rest) : Cut segmentStarts (front ++ rest) := by
  cases cut with
  | whole noSeparator =>
      apply Cut.whole
      rw [reads]
      exact List.not_mem_cons_of_ne_of_not_mem other.symm noSeparator
  | @before run more noSeparator tokens_eq =>
      have front_eq := alone run more rfl
      rw [← List.append_assoc] at reads ⊢
      apply Cut.before
      · rw [front_eq]
        exact List.not_mem_cons_of_ne_of_not_mem other.symm noSeparator
      · rw [reads, front_eq, tokens_eq, List.cons_append]

theorem Cut.stars (count : Nat) (noStar : text.head? ≠ some '*') (cut : Cut false text) :
    Cut segmentStarts (List.replicate (count + 1) '*' ++ text) := by
  refine cut.cons _ ?_ (tokensFrom_stars segmentStarts count noStar) ?_
  · split <;> simp
  · rintro run more rfl
    have ends : segmentEnds (run ++ '/' :: more) = segmentEnds run := by
      cases run <;> rfl
    have noStarRun : run.head? ≠ some '*' := by
      cases run with
      | nil => simp
      | cons first run => exact noStar
    rw [ends, tokensFrom_stars segmentStarts count noStarRun]

theorem cut (segmentStarts : Bool) (text : List Char) : Cut segmentStarts text := by
  -- Each token but a separator puts its own text in front of the cut of the rest.
  fun_induction tokensFrom segmentStarts text with
  | case1 segmentStarts => exact .whole (by simp [tokensFrom])
  | case2 segmentStarts => exact .whole (by simp [tokensFrom])
  | case3 segmentStarts char rest ih =>
      exact ih.cons ['\\', char] (by simp) (tokensFrom.eq_3 _ _ _)
        fun run _ _ => tokensFrom.eq_3 segmentStarts char run
  | case4 segmentStarts rest after wholeSegment ih =>
      rcases exists_stars rest with ⟨count, run, _⟩
      rw [run]
      exact ih.stars count (head?_dropWhile_star rest)
  | case5 segmentStarts rest ih =>
      exact ih.cons ['?'] (by simp) (tokensFrom.eq_5 _ _)
        fun run _ _ => tokensFrom.eq_5 segmentStarts run
  | case6 segmentStarts rest token after read ih =>
      rcases exists_class_text read with ⟨own, rfl, decides⟩
      have split (rest : List Char) :
          '[' :: (own ++ ']' :: rest) = '[' :: (own ++ [']']) ++ rest := by simp
      rw [split]
      refine ih.cons _ (isPlain_of_readClass? read).2.2 ?_ ?_
      · rw [← split]
        exact tokensFrom_of_class read
      · intro run _ _
        rw [← split]
        exact tokensFrom_of_class (decides run)
  | case7 segmentStarts rest read ih =>
      refine ih.cons ['['] (by simp) (tokensFrom_of_noClass read) ?_
      rintro run more rfl
      exact tokensFrom_of_noClass (noClass_of_append read)
  | case8 segmentStarts rest ih =>
      exact @Cut.before _ [] rest (by simp [tokensFrom]) (by simp [tokensFrom, tokens])
  | case9 segmentStarts char rest single escaped notStar notAny notBracket notSeparator ih =>
      have complete : char ≠ '\\' := by
        intro backslash
        cases rest with
        | nil => exact single backslash rfl
        | cons next rest => exact escaped next rest backslash rfl
      have reads (rest : List Char) :
          tokensFrom segmentStarts (char :: rest) = .literal char :: tokensFrom false rest :=
        tokensFrom.eq_8 _ char rest (fun lone _ => complete lone)
          (fun _ _ escapes _ => complete escapes) notStar notAny notBracket notSeparator
      exact ih.cons [char] (by simp) (reads rest) fun run _ _ => reads run

end Tokens

section Runs

variable {segmentStarts : Bool} {text run : List Char} {runs : List (List Char)}

/-- Whether a text is nothing but two or more stars. -/
def StarRun (run : List Char) : Prop := 2 ≤ run.length ∧ ∀ char ∈ run, char = '*'

instance (run : List Char) : Decidable (StarRun run) :=
  inferInstanceAs (Decidable (2 ≤ run.length ∧ ∀ char ∈ run, char = '*'))

/-- Without a separator, only a whole text of stars is read with a token for any number of
components. -/
theorem starRun_of_anyDepth_mem (noSeparator : .separator ∉ tokensFrom segmentStarts run)
    (mem : .anyDepth ∈ tokensFrom segmentStarts run) : segmentStarts = true ∧ StarRun run := by
  fun_induction tokensFrom segmentStarts run with
  | case4 segmentStarts rest after wholeSegment ih =>
      rw [List.mem_cons, not_or] at noSeparator
      have noDepth : .anyDepth ∉ tokensFrom false after :=
        fun inside => absurd (ih noSeparator.2 inside).1 (by decide)
      have whole : wholeSegment = true := by
        by_contra notWhole
        rw [if_neg notWhole] at mem
        simp [noDepth] at mem
      simp only [wholeSegment, Bool.and_eq_true] at whole
      rcases whole with ⟨⟨starts, several⟩, ends⟩
      -- A separator behind the stars would have a token of its own.
      have nothingBehind : rest.dropWhile (· == '*') = [] := by
        change after = []
        cases behind : after with
        | nil => rfl
        | cons next more =>
            rw [behind, segmentEnds, beq_iff_eq] at ends
            rw [behind, ends, tokensFrom] at noSeparator
            simp at noSeparator
      rcases exists_stars rest with ⟨count, run, more⟩
      rw [more, decide_eq_true_eq] at several
      rw [run, nothingBehind, List.append_nil]
      refine ⟨starts, ?_, fun char mem => List.eq_of_mem_replicate mem⟩
      rw [List.length_replicate]
      omega
  | case6 segmentStarts rest token after read ih =>
      have plain := (isPlain_of_readClass? read).2.1
      simp_all
  | _ => simp_all

theorem tokens_of_starRun (stars : StarRun run) : tokens run = [.anyDepth] := by
  rcases Nat.exists_eq_add_of_le' stars.1 with ⟨count, length⟩
  have run_eq : run = List.replicate (count + 1 + 1) '*' ++ [] := by
    rw [List.append_nil, List.eq_replicate_iff]
    exact ⟨length, stars.2⟩
  rw [tokens, run_eq, tokensFrom_stars true (count + 1) (by simp)]
  simp [segmentEnds, tokensFrom]

theorem tokensFrom_eq_nil_iff : tokensFrom segmentStarts text = [] ↔ text = [] := by
  fun_cases tokensFrom segmentStarts text <;> simp

theorem items_ne_nil_of_mem {negated : Bool} {items : List ClassItem}
    (mem : .charClass negated items ∈ tokensFrom segmentStarts text) : items ≠ [] := by
  fun_induction tokensFrom segmentStarts text with
  | case4 segmentStarts rest after wholeSegment ih =>
      rcases List.mem_cons.1 mem with isFirst | mem
      · split at isFirst <;> simp at isFirst
      · exact ih mem
  | case6 segmentStarts rest token after read ih =>
      rcases List.mem_cons.1 mem with rfl | mem
      · exact items_ne_nil_of_readClass? read
      · exact ih mem
  | _ => simp_all

/-- A body cut at its separators into runs. Each run is read on its own as it is in the body, and no
separator is left in it. -/
structure CutInto (body : List Char) (runs : List (List Char)) : Prop where
  nonempty : runs ≠ []
  text_eq : ['/'].intercalate runs = body
  tokens_eq : [Token.separator].intercalate (runs.map tokens) = tokens body
  noSeparator : ∀ run ∈ runs, .separator ∉ tokens run

/-- Every body is cut at its first separator, and so is what follows it. -/
theorem exists_cutInto (body : List Char) : ∃ runs, CutInto body runs := by
  induction same : body.length using Nat.strong_induction_on generalizing body with
  | _ length ih =>
      cases cut true body with
      | whole noSeparator =>
          exact ⟨[body], by simp, by simp, by simp, List.forall_mem_singleton.2 noSeparator⟩
      | @before run rest noSeparator tokens_eq =>
          have shorter : rest.length < length := by
            rw [← same, List.length_append, List.length_cons]
            omega
          rcases ih rest.length shorter rest rfl with ⟨runs, cutRest⟩
          have nonempty : runs.map tokens ≠ [] := by simpa using cutRest.nonempty
          refine ⟨run :: runs, List.cons_ne_nil run runs, ?_, ?_, ?_⟩
          · rw [List.intercalate_cons_of_ne_nil cutRest.nonempty, cutRest.text_eq,
              List.append_assoc, List.singleton_append]
          · rw [List.map_cons, List.intercalate_cons_of_ne_nil nonempty, cutRest.tokens_eq,
              List.append_assoc, List.singleton_append]
            exact tokens_eq.symm
          · exact List.forall_mem_cons.2 ⟨noSeparator, cutRest.noSeparator⟩

theorem CutInto.tokenGroups_eq {body : List Char} (cut : CutInto body runs) :
    tokenGroups (tokens body) = runs.map tokens := by
  rw [← cut.tokens_eq]
  refine List.splitOn_intercalate Token.separator ?_ (by simpa using cut.nonempty)
  rw [List.forall_mem_map]
  exact cut.noSeparator

/-- The segment that a run between separators makes. -/
def Segment.ofRun (run : List Char) : Segment :=
  if StarRun run then .anyDepth else .component (tokens run)

theorem ofTokens_tokens (noSeparator : .separator ∉ tokens run) :
    Segment.ofTokens (tokens run) = Segment.ofRun run := by
  unfold Segment.ofTokens Segment.ofRun
  by_cases stars : StarRun run
  · rw [if_pos (tokens_of_starRun stars), if_pos stars]
  · have notDepth : tokens run ≠ [.anyDepth] := by
      intro depth
      exact stars (starRun_of_anyDepth_mem noSeparator (by rw [← tokens, depth]; simp)).2
    rw [if_neg notDepth, if_neg stars]

end Runs

section Merging

/-- The tokens that a segment keeps. -/
def Segment.tokens : Segment → List Token
  | .anyDepth => [.anyDepth]
  | .component part => part

/-- Some tokens, of which neighbours that stand for any number of components are one. -/
def mergeTokens (tokens : List Token) : List Token :=
  tokens.destutter fun first second => ¬(first = .anyDepth ∧ second = .anyDepth)

variable {token : Token} {tokens part : List Token} {segments : List Segment}

theorem mergeTokens_cons (apart : ¬(token = .anyDepth ∧ tokens.head? = some .anyDepth)) :
    mergeTokens (token :: tokens) = token :: mergeTokens tokens := by
  cases tokens with
  | nil => rfl
  | cons next tokens =>
      rw [mergeTokens, List.destutter_cons', List.destutter'_cons_pos _ (by simpa using apart)]
      rfl

theorem mergeTokens_anyDepth_anyDepth (tokens : List Token) :
    mergeTokens (.anyDepth :: .anyDepth :: tokens) = mergeTokens (.anyDepth :: tokens) := by
  rw [mergeTokens, List.destutter_cons', List.destutter'_cons_neg _ (by simp)]
  rfl

theorem mergeTokens_append (noDepth : .anyDepth ∉ part) (tokens : List Token) :
    mergeTokens (part ++ tokens) = part ++ mergeTokens tokens := by
  induction part with
  | nil => rfl
  | cons token part ih =>
      rw [List.mem_cons, not_or] at noDepth
      rw [List.cons_append, mergeTokens_cons fun both => noDepth.1 both.1.symm, ih noDepth.2]
      rfl

/-- Merging segments merges their tokens, if a component has a token and none for any number of
components. -/
theorem tokens_merge
    (sound : ∀ part, .component part ∈ segments → part ≠ [] ∧ .anyDepth ∉ part) :
    (Segment.merge segments).flatMap Segment.tokens =
      mergeTokens (segments.flatMap Segment.tokens) := by
  induction segments with
  | nil => rfl
  | cons first rest ih =>
      have merge_eq := ih fun part mem => sound part (List.mem_cons_of_mem _ mem)
      cases first with
      | component part =>
          rw [merge_component, List.flatMap_cons, List.flatMap_cons, merge_eq]
          exact (mergeTokens_append (sound part List.mem_cons_self).2 _).symm
      | anyDepth =>
          cases rest with
          | nil => rfl
          | cons second rest =>
              cases second with
              | anyDepth =>
                  rw [merge_anyDepth_anyDepth, merge_eq]
                  exact (mergeTokens_anyDepth_anyDepth _).symm
              | component part =>
                  rcases sound part (by simp) with ⟨nonempty, noDepth⟩
                  rcases List.exists_cons_of_ne_nil nonempty with ⟨token, part, rfl⟩
                  rw [List.mem_cons, not_or] at noDepth
                  rw [merge_anyDepth_component, ← merge_component, List.flatMap_cons, merge_eq]
                  have apart : ¬(Token.anyDepth = .anyDepth ∧ some token = some .anyDepth) :=
                    fun both => noDepth.1 (Option.some.inj both.2).symm
                  exact (mergeTokens_cons apart).symm

end Merging

section Bodies

variable {part : List Token} {body : List Char} {runs : List (List Char)}

theorem tokens_ofTokens (group : List Token) : (Segment.ofTokens group).tokens = group := by
  unfold Segment.ofTokens
  split
  · rename_i depth
    exact depth.symm
  · rfl

theorem flatten_tokenGroups (tokens : List Token) :
    (tokenGroups tokens).flatten = tokens.filter (· != .separator) := by
  induction tokens with
  | nil => rfl
  | cons token tokens ih =>
      by_cases separates : token = .separator
      · rw [separates, tokenGroups_separator]
        exact ih
      · rcases exists_tokenGroups tokens with ⟨group, groups, split⟩
        rw [split] at ih
        rw [tokenGroups_cons separates, split, List.modifyHead_cons, List.flatten_cons,
          List.cons_append, List.filter_cons_of_pos (by simpa using separates), ← ih,
          List.flatten_cons]

/-- The segments that tokens make before neighbours are merged. -/
def unmerged (tokens : List Token) : List Segment :=
  ((tokenGroups tokens).filter (!·.isEmpty)).map Segment.ofTokens

theorem segments_ofPattern (body : List Char) :
    (ofPattern body).segments = Segment.merge (unmerged (tokens body)) := rfl

theorem flatMap_tokens_unmerged (tokens : List Token) :
    (unmerged tokens).flatMap Segment.tokens = tokens.filter (· != .separator) := by
  rw [unmerged, List.flatMap_map, ← flatten_tokenGroups, ← List.flatten_filter_not_isEmpty]
  simp only [tokens_ofTokens]
  exact List.flatMap_id

theorem CutInto.unmerged_eq (cut : CutInto body runs) :
    unmerged (tokens body) = (runs.filter (!·.isEmpty)).map Segment.ofRun := by
  have sameRuns : runs.filter ((!·.isEmpty) ∘ tokens) = runs.filter (!·.isEmpty) := by
    apply List.filter_congr
    intro run _
    have empty_iff := @tokensFrom_eq_nil_iff true run
    cases run <;> simp_all [tokens]
  rw [unmerged, cut.tokenGroups_eq, List.filter_map, List.map_map, sameRuns]
  apply List.map_congr_left
  intro run mem
  exact ofTokens_tokens (cut.noSeparator run (List.mem_of_mem_filter mem))

/-- A component holds the tokens of a run that is neither empty nor a run of stars. -/
theorem CutInto.exists_run (cut : CutInto body runs)
    (mem : .component part ∈ unmerged (tokens body)) :
    ∃ run ∈ runs, run ≠ [] ∧ ¬StarRun run ∧ tokens run = part := by
  rw [cut.unmerged_eq] at mem
  rcases List.mem_map.1 mem with ⟨run, run_mem, made⟩
  rw [List.mem_filter] at run_mem
  unfold Segment.ofRun at made
  split at made
  · simp at made
  · rename_i notStars
    exact ⟨run, run_mem.1, by simpa using run_mem.2, notStars, Segment.component.inj made⟩

theorem sound_component (mem : .component part ∈ unmerged (tokens body)) :
    part ≠ [] ∧ .anyDepth ∉ part ∧ .separator ∉ part ∧
      ∀ negated items, .charClass negated items ∈ part → items ≠ [] := by
  rcases exists_cutInto body with ⟨runs, cut⟩
  rcases cut.exists_run mem with ⟨run, run_mem, nonempty, notStars, rfl⟩
  have noSeparator := cut.noSeparator run run_mem
  refine ⟨fun empty => nonempty (tokensFrom_eq_nil_iff.1 empty), ?_, noSeparator,
    fun _ _ => items_ne_nil_of_mem⟩
  intro depth
  exact notStars (starRun_of_anyDepth_mem noSeparator depth).2

/-- No component of a body is empty, has a token for any number of components or a separator, or has
a bracket expression without members, and no two neighbouring segments stand for any number of
components. The segments are those of the runs between the separators, of which only those of two or
more stars stand for any number of components. They keep the tokens of the body in their order, the
separators and the merged neighbours apart. -/
theorem segments_of_body (body : List Char) :
    (∀ part, .component part ∈ (ofPattern body).segments →
      part ≠ [] ∧ .anyDepth ∉ part ∧ .separator ∉ part ∧
        ∀ negated items, .charClass negated items ∈ part → items ≠ []) ∧
    Separated (ofPattern body).segments ∧
    (∃ runs, CutInto body runs ∧ (ofPattern body).segments =
      ((runs.filter (!·.isEmpty)).map Segment.ofRun).destutter fun first second =>
        ¬(first = .anyDepth ∧ second = .anyDepth)) ∧
    (ofPattern body).segments.flatMap Segment.tokens =
      mergeTokens ((tokens body).filter (· != .separator)) := by
  rcases exists_cutInto body with ⟨runs, cut⟩
  rw [segments_ofPattern]
  refine ⟨?_, ?_, ⟨runs, cut, ?_⟩, ?_⟩
  · intro part mem
    rw [merge_eq_destutter] at mem
    exact sound_component ((List.destutter_sublist _ _).subset mem)
  · rw [merge_eq_destutter]
    exact List.isChain_destutter _ _
  · rw [merge_eq_destutter, cut.unmerged_eq]
  · rw [tokens_merge, flatMap_tokens_unmerged]
    intro part mem
    rcases sound_component mem with ⟨nonempty, noDepth, _⟩
    exact ⟨nonempty, noDepth⟩

example : (ofPattern "/**//**/a**/\\**".toList).segments =
    [.anyDepth, .component [.literal 'a', .star], .component [.literal '*', .star]] := by
  decide +kernel

end Bodies

end Glob

end OwnerCoverage
