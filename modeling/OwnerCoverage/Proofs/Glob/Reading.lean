import OwnerCoverage.Glob.Expression
import OwnerCoverage.Proofs.Regex.Reading

/-!
# The expression of a glob, read back

The text of a glob's expression is put together from pieces: anchors, optional parts between
segments, and one piece for each token. `read_regexText` says what the reader makes of it: the items
of all pieces in order, or the fault of the first range that ends below its start. No character of
the pattern is read as an operator, since every character that could be one has a backslash before
it.
-/

namespace OwnerCoverage

namespace Glob

open Regex

section Literals

variable {reader : Reader} {char : Char} {rest : List Char}

theorem readLiteral_of_plain (plain : char ∉ metaChars) :
    Reader.readLiteral (char :: rest) = .ok (char, rest) := by
  have notBackslash : char ≠ '\\' := by
    rintro rfl
    exact plain (by decide)
  unfold Reader.readLiteral
  split <;> simp_all

theorem readLiteral_of_meta (escaped : char ∈ metaChars) :
    Reader.readLiteral ('\\' :: char :: rest) = .ok (char, rest) := by
  have allEscapable : metaChars.all Reader.isEscapable = true := by decide
  have escapable := List.all_eq_true.1 allEscapable char escaped
  simp [Reader.readLiteral, escapable]

theorem literalText_of_plain (plain : char ∉ metaChars) : literalText char = [char] := by
  simp [literalText, plain]

theorem literalText_of_meta (escaped : char ∈ metaChars) : literalText char = ['\\', char] := by
  simp [literalText, escaped]

theorem readLiteral_literalText (char : Char) (rest : List Char) :
    Reader.readLiteral (literalText char ++ rest) = .ok (char, rest) := by
  by_cases escaped : char ∈ metaChars
  · rw [literalText_of_meta escaped]
    exact readLiteral_of_meta escaped
  · rw [literalText_of_plain escaped]
    exact readLiteral_of_plain escaped

/-- Behind its backslash or without one, a literal character starts no operator. -/
theorem exists_head_literalText (char : Char) (rest : List Char) :
    ∃ head tail, literalText char ++ rest = head :: tail ∧ (head = '\\' ∨ head ∉ metaChars) := by
  by_cases escaped : char ∈ metaChars
  · exact ⟨'\\', char :: rest, by rw [literalText_of_meta escaped]; rfl, Or.inl rfl⟩
  · exact ⟨char, rest, by rw [literalText_of_plain escaped]; rfl, Or.inr escaped⟩

theorem ne_of_head {head operator : Char} (start : head = '\\' ∨ head ∉ metaChars)
    (notBackslash : operator ≠ '\\') (isMeta : operator ∈ metaChars) : head ≠ operator := by
  rintro rfl
  rcases start with start | start
  · exact notBackslash start
  · exact start isMeta

theorem itemStep_of_plain (plain : char ∉ metaChars) :
    reader.itemStep (char :: rest) = .ok (reader.add (.oneOf (.single char)), rest) := by
  unfold Reader.itemStep
  split
  case h_16 => rw [readLiteral_of_plain plain]
  all_goals
    rename_i equal
    rw [List.cons.injEq] at equal
    rw [equal.1] at plain
    exact absurd (by decide) plain

theorem itemStep_of_meta (escaped : char ∈ metaChars) :
    reader.itemStep ('\\' :: char :: rest) = .ok (reader.add (.oneOf (.single char)), rest) := by
  unfold Reader.itemStep
  split
  case h_16 => rw [readLiteral_of_meta escaped]
  all_goals
    rename_i equal
    simp only [List.cons.injEq, Char.reduceEq, false_and, true_and] at equal
  all_goals
    rw [equal.1] at escaped
    exact absurd escaped (by decide)

theorem itemStep_literalText (reader : Reader) (char : Char) (rest : List Char) :
    reader.itemStep (literalText char ++ rest) =
      .ok (reader.add (.oneOf (.single char)), rest) := by
  by_cases escaped : char ∈ metaChars
  · rw [literalText_of_meta escaped]
    exact itemStep_of_meta escaped
  · rw [literalText_of_plain escaped]
    exact itemStep_of_plain escaped

theorem follows_literalText (char : Char) (rest : List Char) :
    Piece.Follows (literalText char ++ rest) := by
  rcases exists_head_literalText char rest with ⟨head, tail, equal, start⟩
  simp only [Piece.Follows, equal, List.head?_cons, ne_eq, Option.some.injEq]
  exact ne_of_head start (by decide) (by decide)

end Literals

section Members

/-- The set that a member of a class is read as. -/
def ClassItem.set : ClassItem → CharSet
  | .single char => .single char
  | .range first last => .range first last

/-- The fault of a range whose ends are inverted. -/
def ClassItem.fault : ClassItem → Option Fault
  | .single _ => none
  | .range first last =>
      if first ≤ last then none
      else
        let width := (ClassItem.range first last).text.length
        some ⟨.invertedRange, width, width⟩

/-- The first fault among members of a class, as it lies in their text. -/
def membersFault : List ClassItem → Option Fault
  | [] => none
  | item :: items =>
      match item.fault with
      | none => membersFault items
      | some fault => some (fault.before (items.flatMap ClassItem.text).length)

/-- The set of some members, in the form in which a class collects them. -/
def memberSet (items : List ClassItem) : CharSet :=
  items.foldl (fun set item => .union set item.set) .empty

theorem exists_head_itemText (item : ClassItem) (rest : List Char) :
    ∃ head tail, item.text ++ rest = head :: tail ∧ (head = '\\' ∨ head ∉ metaChars) := by
  cases item with
  | single char => exact exists_head_literalText char rest
  | range first last =>
      rw [ClassItem.text, List.append_assoc]
      exact exists_head_literalText first _

theorem readMember_itemText (item : ClassItem) {rest : List Char}
    (noRange : rest.head? ≠ some '-') :
    Reader.readMember (item.text ++ rest) =
      match item.fault with
      | none => .ok (item.set, rest)
      | some fault => .error (fault.before rest.length) := by
  cases item with
  | single char =>
      rw [ClassItem.text, Reader.readMember, readLiteral_literalText]
      split <;> simp_all [ClassItem.fault, ClassItem.set]
  | range first last =>
      rcases exists_head_literalText last rest with ⟨head, tail, equal, start⟩
      have goesOn : ¬(head = ']' ∨ head = '-') := by
        rintro (closing | hyphen)
        · exact ne_of_head start (by decide) (by decide) closing
        · exact ne_of_head start (by decide) (by decide) hyphen
      have readLast := readLiteral_literalText last rest
      rw [equal] at readLast
      have split : (ClassItem.range first last).text ++ rest =
          literalText first ++ '-' :: head :: tail := by
        simp [ClassItem.text, equal]
      rw [split, Reader.readMember, readLiteral_literalText]
      simp only [goesOn, if_false, readLast]
      by_cases ordered : first ≤ last
      · simp [ordered, ClassItem.fault, ClassItem.set]
      · simp [ordered, ClassItem.fault, ← split, Fault.before]

theorem step_itemText (group : OpenGroup) (groups : List OpenGroup) (frame : OpenClass)
    (outer : List OpenClass) (item : ClassItem) {rest : List Char}
    (noRange : rest.head? ≠ some '-') :
    Reader.step ⟨group, groups, frame :: outer⟩ (item.text ++ rest) =
      match item.fault with
      | none => .ok (⟨group, groups, frame.add item.set :: outer⟩, rest)
      | some fault => .error (fault.before rest.length) := by
  rcases exists_head_itemText item rest with ⟨head, tail, equal, start⟩
  have read := readMember_itemText item noRange
  simp only [Reader.step, Reader.classStep]
  split
  case h_7 =>
    rw [read]
    cases item.fault <;> rfl
  all_goals
    rename_i operator
    rw [equal, List.cons.injEq] at operator
    exact absurd operator.1 (ne_of_head start (by decide) (by decide))

theorem noRange_members {rest : List Char} (noRange : rest.head? ≠ some '-')
    (items : List ClassItem) : (items.flatMap ClassItem.text ++ rest).head? ≠ some '-' := by
  cases items with
  | nil => exact noRange
  | cons item items =>
      rw [List.flatMap_cons, List.append_assoc]
      rcases exists_head_itemText item (items.flatMap ClassItem.text ++ rest) with
        ⟨head, tail, equal, start⟩
      simp only [equal, List.head?_cons, ne_eq, Option.some.injEq]
      exact ne_of_head start (by decide) (by decide)

/-- The members of a class are read one after another, up to the first inverted range. -/
theorem run_members (items : List ClassItem) {rest : List Char} (noRange : rest.head? ≠ some '-')
    (group : OpenGroup) (groups : List OpenGroup) (frame : OpenClass) (outer : List OpenClass) :
    Reader.run ⟨group, groups, frame :: outer⟩ (items.flatMap ClassItem.text ++ rest) =
      match membersFault items with
      | none =>
          Reader.run ⟨group, groups, { frame with
            members := items.foldl (fun set item => .union set item.set) frame.members } :: outer⟩
            rest
      | some fault => .error (fault.before rest.length) := by
  induction items generalizing frame with
  | nil => rfl
  | cons item items ih =>
      have step := step_itemText group groups frame outer item (noRange_members noRange items)
      rw [List.flatMap_cons, List.append_assoc]
      cases faulty : item.fault with
      | none =>
          simp only [faulty] at step
          rw [Reader.run_of_step step, ih]
          simp [membersFault, faulty, OpenClass.add]
      | some fault =>
          simp only [faulty] at step
          rcases exists_head_itemText item (items.flatMap ClassItem.text ++ rest) with
            ⟨head, tail, equal, _⟩
          rw [equal] at step ⊢
          rw [Reader.run_of_step_error step]
          simp [membersFault, faulty]

end Members

section Tokens

/-- The set that `[^/]` is read as. -/
def notSeparator : CharSet := .complement (memberSet [.single '/'])

/-- The set of a bracket expression. The separator is a member of a negated one, and any other is
met with the set of all other characters. -/
def classSet : Bool → List ClassItem → CharSet
  | true, items => .complement (memberSet (.single '/' :: items))
  | false, items => .combine .intersection (memberSet items) (.union .empty notSeparator)

/-- The items that a token of a component is read as. -/
def Token.items : Token → List (Regex CharSet)
  | .literal char => [.oneOf (.single char)]
  | .anyChar => [.oneOf notSeparator]
  | .star => [.star (.oneOf notSeparator)]
  | .charClass negated items => [.oneOf (classSet negated items)]
  | .anyDepth => []
  | .separator => []

/-- The fault in the expression of a token. What closes a class stands behind its members. -/
def Token.fault : Token → Option Fault
  | .charClass true items => (membersFault items).map (·.before "]".toList.length)
  | .charClass false items => (membersFault items).map (·.before "&&[^/]]".toList.length)
  | _ => none

/-- A token of a component as a piece of the expression. -/
def Token.piece (token : Token) : Piece := ⟨token.text, token.items, token.fault⟩

variable {group : OpenGroup} {groups : List OpenGroup} {rest : List Char}

theorem openClass_of_head {reader : Reader} {head : Char} {tail : List Char} (caret : head ≠ '^')
    (hyphen : head ≠ '-') (bracket : head ≠ ']') : reader.openClass (head :: tail) =
      ({ reader with classes := ⟨false, none, .empty⟩ :: reader.classes }, head :: tail) := by
  have start : OpenClass.start false (head :: tail) = (⟨false, none, .empty⟩, head :: tail) := by
    unfold OpenClass.start
    split <;> simp_all
  unfold Reader.openClass
  split <;> simp_all

theorem run_anyChar : Reader.run ⟨group, groups, []⟩ (Token.anyChar.text ++ rest) =
    Reader.run ⟨group.addAll [.oneOf notSeparator], groups, []⟩ rest :=
  (Reader.run_of_step rfl).trans ((Reader.run_of_step rfl).trans (Reader.run_of_step rfl))

theorem run_negatedClass (items : List ClassItem) :
    Reader.run ⟨group, groups, []⟩ ((Token.charClass true items).text ++ rest) =
      match (Token.charClass true items).fault with
      | none => Reader.run ⟨group.addAll [.oneOf (classSet true items)], groups, []⟩ rest
      | some fault => .error (fault.before rest.length) := by
  have notHyphen : ("]".toList ++ rest).head? ≠ some '-' := by simp
  have members := run_members (.single '/' :: items) notHyphen group groups ⟨true, none, .empty⟩ []
  have text : (Token.charClass true items).text ++ rest = '[' :: '^' ::
      ((ClassItem.single '/' :: items).flatMap ClassItem.text ++ ("]".toList ++ rest)) := by
    simp [Token.text, ClassItem.text, literalText_of_plain (show '/' ∉ metaChars by decide)]
  rw [text]
  refine (Reader.run_of_step rfl).trans (members.trans ?_)
  cases faulty : membersFault items with
  | none =>
      simp only [Token.fault, membersFault, ClassItem.fault, faulty]
      exact Reader.run_of_step rfl
  | some fault =>
      simp only [Token.fault, membersFault, ClassItem.fault, faulty, Option.map_some,
        Fault.before_before, List.length_append]

theorem openClass_members (reader : Reader) (items : List ClassItem) (rest : List Char) :
    reader.openClass (items.flatMap ClassItem.text ++ '&' :: rest) =
      ({ reader with classes := ⟨false, none, .empty⟩ :: reader.classes },
        items.flatMap ClassItem.text ++ '&' :: rest) := by
  cases items with
  | nil => exact openClass_of_head (by decide) (by decide) (by decide)
  | cons item items =>
      rw [List.flatMap_cons, List.append_assoc]
      rcases exists_head_itemText item (items.flatMap ClassItem.text ++ '&' :: rest) with
        ⟨head, tail, equal, start⟩
      rw [equal]
      apply openClass_of_head
      all_goals exact ne_of_head start (by decide) (by decide)

theorem run_plainClass (items : List ClassItem) :
    Reader.run ⟨group, groups, []⟩ ((Token.charClass false items).text ++ rest) =
      match (Token.charClass false items).fault with
      | none => Reader.run ⟨group.addAll [.oneOf (classSet false items)], groups, []⟩ rest
      | some fault => .error (fault.before rest.length) := by
  have notHyphen : ("&&[^/]]".toList ++ rest).head? ≠ some '-' := by simp
  have members := run_members items notHyphen group groups ⟨false, none, .empty⟩ []
  have text : (Token.charClass false items).text ++ rest =
      '[' :: (items.flatMap ClassItem.text ++ ("&&[^/]]".toList ++ rest)) := by
    simp [Token.text]
  have opened : Reader.step ⟨group, groups, []⟩
      ('[' :: (items.flatMap ClassItem.text ++ ("&&[^/]]".toList ++ rest))) =
        .ok (⟨group, groups, [⟨false, none, .empty⟩]⟩,
          items.flatMap ClassItem.text ++ ("&&[^/]]".toList ++ rest)) :=
    congrArg Except.ok (openClass_members ⟨group, groups, []⟩ items _)
  rw [text, Reader.run_of_step opened, members]
  cases faulty : membersFault items with
  | none =>
      simp only [Token.fault, faulty]
      refine (Reader.run_of_step rfl).trans ((Reader.run_of_step rfl).trans ?_)
      refine (Reader.run_of_step rfl).trans ((Reader.run_of_step rfl).trans ?_)
      exact Reader.run_of_step rfl
  | some fault =>
      simp only [Token.fault, faulty, Option.map_some, Fault.before_before, List.length_append]

/-- A repetition is complete at its operator, unless a question mark follows. -/
theorem repeatLast_of_follows {operator : Regex CharSet → Regex CharSet} {item : Regex CharSet}
    (follows : Piece.Follows rest) :
    Reader.repeatLast ⟨group.addAll [item], groups, []⟩ operator rest =
      .ok (⟨group.addAll [operator item], groups, []⟩, rest) := by
  unfold Reader.repeatLast
  simp only [OpenGroup.addAll, List.reverse_cons, List.reverse_nil, List.nil_append,
    List.cons_append]
  split
  · simp [Piece.Follows] at follows
  · rfl

theorem run_star {item : Regex CharSet} (follows : Piece.Follows rest) :
    Reader.run ⟨group.addAll [item], groups, []⟩ ('*' :: rest) =
      Reader.run ⟨group.addAll [.star item], groups, []⟩ rest :=
  Reader.run_of_step (repeatLast_of_follows follows)

theorem run_plus {item : Regex CharSet} (follows : Piece.Follows rest) :
    Reader.run ⟨group.addAll [item], groups, []⟩ ('+' :: rest) =
      Reader.run ⟨group.addAll [plus item], groups, []⟩ rest :=
  Reader.run_of_step (repeatLast_of_follows follows)

theorem run_optional {item : Regex CharSet} (follows : Piece.Follows rest) :
    Reader.run ⟨group.addAll [item], groups, []⟩ ('?' :: rest) =
      Reader.run ⟨group.addAll [optional item], groups, []⟩ rest :=
  Reader.run_of_step (repeatLast_of_follows follows)

theorem Token.reads (token : Token) : token.piece.Reads := by
  intro rest follows
  cases token with
  | literal char =>
      refine ⟨follows_literalText char rest, ?_⟩
      intro group groups
      apply Reader.run_of_step
      exact itemStep_literalText ⟨group, groups, []⟩ char rest
  | anyChar => exact ⟨Piece.follows_cons (by decide), fun group groups => run_anyChar⟩
  | star =>
      refine ⟨Piece.follows_cons (by decide), ?_⟩
      intro group groups
      have split : Token.star.piece.text ++ rest = Token.anyChar.text ++ '*' :: rest := rfl
      rw [split, run_anyChar]
      exact run_star follows
  | anyDepth => exact ⟨follows, fun group groups => rfl⟩
  | charClass negated items =>
      cases negated with
      | true => exact ⟨Piece.follows_cons (by decide), fun group groups => run_negatedClass items⟩
      | false => exact ⟨Piece.follows_cons (by decide), fun group groups => run_plainClass items⟩
  | separator => exact ⟨follows, fun group groups => rfl⟩

end Tokens

section Pieces

def slashPiece : Piece := ⟨"/".toList, [.oneOf (.single '/')], none⟩

def anyTextPiece : Piece := ⟨".*".toList, [.star (.oneOf .notLineFeed)], none⟩

def someTextPiece : Piece := ⟨".+".toList, [plus (.oneOf .notLineFeed)], none⟩

def optionalSlashPiece : Piece := ⟨"/?".toList, [optional (.oneOf (.single '/'))], none⟩

/-- Some pieces without faults as a group, or nothing. -/
def optionalGroup (pieces : List Piece) : Piece :=
  ⟨"(?:".toList ++ Piece.textOf pieces ++ ")?".toList,
    [optional (sequence (Piece.itemsOf pieces))], none⟩

theorem reads_slashPiece : slashPiece.Reads := fun _ _ =>
  ⟨Piece.follows_cons (by decide), fun _ _ => Reader.run_of_step rfl⟩

theorem reads_anyTextPiece : anyTextPiece.Reads := by
  intro rest follows
  refine ⟨Piece.follows_cons (by decide), fun group groups => (Reader.run_of_step rfl).trans ?_⟩
  exact run_star follows

theorem reads_someTextPiece : someTextPiece.Reads := by
  intro rest follows
  refine ⟨Piece.follows_cons (by decide), fun group groups => (Reader.run_of_step rfl).trans ?_⟩
  exact run_plus follows

theorem reads_optionalSlashPiece : optionalSlashPiece.Reads := by
  intro rest follows
  refine ⟨Piece.follows_cons (by decide), fun group groups => (Reader.run_of_step rfl).trans ?_⟩
  exact run_optional follows

theorem reads_optionalGroup {pieces : List Piece} (reads : ∀ piece ∈ pieces, piece.Reads)
    (sound : Piece.firstFault pieces = none) : (optionalGroup pieces).Reads := by
  intro rest follows
  refine ⟨Piece.follows_cons (by decide), ?_⟩
  intro group groups
  have inner := (Piece.run_pieces reads (')' :: '?' :: rest) (Piece.follows_cons (by decide))).2
    OpenGroup.start (group :: groups)
  simp only [sound] at inner
  have text : (optionalGroup pieces).text ++ rest =
      '(' :: '?' :: ':' :: (Piece.textOf pieces ++ ')' :: '?' :: rest) := by
    simp [optionalGroup]
  rw [text]
  have closed : (OpenGroup.start.addAll (Piece.itemsOf pieces)).close =
      sequence (Piece.itemsOf pieces) := by
    simp [OpenGroup.close, OpenGroup.addAll, OpenGroup.start]
  refine (Reader.run_of_step rfl).trans (inner.trans ((Reader.run_of_step rfl).trans ?_))
  rw [closed]
  exact run_optional follows

end Pieces

section Globs

/-- What may stand above a segment at any depth. -/
def abovePiece : Piece := optionalGroup [anyTextPiece, slashPiece]

/-- What may lie below a match. -/
def belowPiece : Piece := optionalGroup [slashPiece, anyTextPiece]

/-- What may stand between two segments with any number of components in between. -/
def betweenPiece : Piece := optionalGroup [slashPiece, someTextPiece]

/-- The pieces of segments that stand behind another segment. -/
def followingPieces : List Segment → List Piece
  | [] => []
  | [.anyDepth] => [slashPiece, anyTextPiece]
  | .anyDepth :: rest => betweenPiece :: followingPieces rest
  | .component tokens :: rest => slashPiece :: (tokens.map Token.piece ++ followingPieces rest)

/-- The pieces of segments of which the first has no separator before it. -/
def leadingPieces : List Segment → List Piece
  | [] => []
  | [.anyDepth] => [anyTextPiece]
  | .anyDepth :: .component tokens :: rest =>
      abovePiece :: (tokens.map Token.piece ++ followingPieces rest)
  | .anyDepth :: rest => abovePiece :: followingPieces rest
  | .component tokens :: rest => tokens.map Token.piece ++ followingPieces rest

/-- The pieces of the expression of a glob. -/
def pieces (glob : Glob) : List Piece :=
  if glob.segments.isEmpty then [anyTextPiece]
  else
    (if glob.anchored then optionalSlashPiece else abovePiece) ::
      (leadingPieces glob.segments ++
        if glob.onlyBelow then [slashPiece, anyTextPiece] else [belowPiece])

theorem textOf_tokens (tokens : List Token) :
    Piece.textOf (tokens.map Token.piece) = tokens.flatMap Token.text :=
  List.flatMap_map ..

theorem textOf_followingPieces (segments : List Segment) :
    Piece.textOf (followingPieces segments) = followingText segments := by
  fun_induction followingPieces segments with
  | case1 => rfl
  | case2 => rfl
  | case3 rest notLast ih =>
      rw [followingText.eq_3 _ notLast, ← ih]
      rfl
  | case4 tokens rest ih =>
      rw [followingText, ← ih, ← textOf_tokens]
      simp [Piece.textOf, slashPiece]

theorem textOf_leadingPieces (segments : List Segment) :
    Piece.textOf (leadingPieces segments) = leadingText segments := by
  fun_cases leadingPieces segments with
  | case1 => rfl
  | case2 => rfl
  | case3 tokens rest =>
      change _ = abovePiece.text ++ tokens.flatMap Token.text ++ followingText rest
      rw [← textOf_followingPieces, ← textOf_tokens]
      simp [Piece.textOf]
  | case4 rest notLast notComponent =>
      rcases rest with _ | ⟨_ | tokens, rest⟩
      · exact (notLast rfl).elim
      · change _ = abovePiece.text ++ followingText (.anyDepth :: rest)
        rw [← textOf_followingPieces]
        rfl
      · exact (notComponent tokens rest rfl).elim
  | case5 tokens rest =>
      change _ = tokens.flatMap Token.text ++ followingText rest
      rw [← textOf_followingPieces, ← textOf_tokens]
      simp [Piece.textOf]

/-- The pieces of an expression that stand for no token. -/
def connectors : List Piece :=
  [slashPiece, anyTextPiece, optionalSlashPiece, abovePiece, belowPiece, betweenPiece]

/-- Whether a piece is a connector, or the piece of a token of some segments. -/
def IsPart (segments : List Segment) (piece : Piece) : Prop :=
  piece ∈ connectors ∨
    ∃ tokens, .component tokens ∈ segments ∧ ∃ token ∈ tokens, piece = token.piece

theorem isPart_cons {segments : List Segment} {piece : Piece} (segment : Segment)
    (part : IsPart segments piece) : IsPart (segment :: segments) piece := by
  rcases part with connector | ⟨tokens, mem, piece_mem⟩
  · exact Or.inl connector
  · exact Or.inr ⟨tokens, List.mem_cons_of_mem segment mem, piece_mem⟩

theorem isPart_tokens {segments : List Segment} {tokens : List Token} {piece : Piece}
    (mem : piece ∈ tokens.map Token.piece) : IsPart (.component tokens :: segments) piece := by
  rcases List.mem_map.1 mem with ⟨token, token_mem, rfl⟩
  exact Or.inr ⟨tokens, List.mem_cons_self, token, token_mem, rfl⟩

theorem isPart_followingPieces {segments : List Segment} {piece : Piece}
    (mem : piece ∈ followingPieces segments) : IsPart segments piece := by
  fun_induction followingPieces segments with
  | case1 => simp at mem
  | case2 =>
      simp only [List.mem_cons, List.not_mem_nil, or_false] at mem
      rcases mem with rfl | rfl <;> exact Or.inl (by simp [connectors])
  | case3 rest _ ih =>
      rcases List.mem_cons.1 mem with rfl | mem
      · exact Or.inl (by simp [connectors])
      · exact isPart_cons _ (ih mem)
  | case4 tokens rest ih =>
      rw [List.mem_cons, List.mem_append] at mem
      rcases mem with rfl | mem | mem
      · exact Or.inl (by simp [connectors])
      · exact isPart_tokens mem
      · exact isPart_cons _ (ih mem)

theorem isPart_leadingPieces {segments : List Segment} {piece : Piece}
    (mem : piece ∈ leadingPieces segments) : IsPart segments piece := by
  fun_cases leadingPieces segments with
  | case1 => simp [leadingPieces] at mem
  | case2 =>
      simp only [leadingPieces, List.mem_singleton] at mem
      exact Or.inl (by simp [connectors, mem])
  | case3 tokens rest =>
      rw [leadingPieces, List.mem_cons, List.mem_append] at mem
      rcases mem with rfl | mem | mem
      · exact Or.inl (by simp [connectors])
      · exact isPart_cons _ (isPart_tokens mem)
      · exact isPart_cons _ (isPart_cons _ (isPart_followingPieces mem))
  | case4 rest notLast notComponent =>
      rcases rest with _ | ⟨_ | tokens, rest⟩
      · exact (notLast rfl).elim
      · rcases List.mem_cons.1 mem with rfl | mem
        · exact Or.inl (by simp [connectors])
        · exact isPart_cons _ (isPart_followingPieces mem)
      · exact (notComponent tokens rest rfl).elim
  | case5 tokens rest =>
      rw [leadingPieces, List.mem_append] at mem
      rcases mem with mem | mem
      · exact isPart_tokens mem
      · exact isPart_cons _ (isPart_followingPieces mem)

/-- The expression of a glob is made of connectors and of the pieces of its tokens. -/
theorem isPart_pieces {glob : Glob} {piece : Piece} (mem : piece ∈ glob.pieces) :
    IsPart glob.segments piece := by
  unfold pieces at mem
  split at mem
  · rw [List.mem_singleton] at mem
    exact Or.inl (by simp [connectors, mem])
  · rw [List.mem_cons, List.mem_append] at mem
    rcases mem with rfl | mem | mem
    · cases glob.anchored <;> exact Or.inl (by simp [connectors])
    · exact isPart_leadingPieces mem
    · split at mem
      · simp only [List.mem_cons, List.not_mem_nil, or_false] at mem
        rcases mem with rfl | rfl <;> exact Or.inl (by simp [connectors])
      · rw [List.mem_singleton] at mem
        exact Or.inl (by simp [connectors, mem])

theorem reads_connectors : ∀ piece ∈ connectors, piece.Reads := by
  simp only [connectors, List.forall_mem_cons, List.not_mem_nil, false_implies, implies_true,
    and_true]
  refine ⟨reads_slashPiece, reads_anyTextPiece, reads_optionalSlashPiece, ?_, ?_, ?_⟩
  · exact reads_optionalGroup (by simp [reads_anyTextPiece, reads_slashPiece]) rfl
  · exact reads_optionalGroup (by simp [reads_anyTextPiece, reads_slashPiece]) rfl
  · exact reads_optionalGroup (by simp [reads_someTextPiece, reads_slashPiece]) rfl

theorem reads_pieces {glob : Glob} {piece : Piece} (mem : piece ∈ glob.pieces) : piece.Reads := by
  rcases isPart_pieces mem with connector | ⟨_, _, token, _, rfl⟩
  · exact reads_connectors piece connector
  · exact token.reads

theorem regexText_eq (glob : Glob) :
    glob.regexText = "\\A".toList ++ (Piece.textOf glob.pieces ++ "\\z".toList) := by
  unfold regexText pieces
  split
  · rfl
  · rw [← textOf_leadingPieces]
    cases glob.anchored <;> cases glob.onlyBelow <;>
      simp [Piece.textOf, abovePiece, belowPiece, optionalSlashPiece, optionalGroup, anyTextPiece,
        slashPiece]

/-- The items that the expression of a glob is read as. -/
def items (glob : Glob) : List (Regex CharSet) := Piece.itemsOf glob.pieces

/-- What the reader makes of the expression of a glob: its pieces between the two anchors, or the
first fault in one of them. -/
theorem read_regexText (glob : Glob) : Regex.read glob.regexText =
    match Piece.firstFault glob.pieces with
    | none => .ok (sequence (.textStart :: (glob.items ++ [.textEnd])))
    | some fault => .error (fault.before "\\z".toList.length) := by
  have reads : ∀ piece ∈ glob.pieces, piece.Reads := fun _ => reads_pieces
  have inner := (Piece.run_pieces reads "\\z".toList (Piece.follows_cons (by decide))).2
    (OpenGroup.start.addAll [.textStart]) []
  rw [regexText_eq]
  refine (Reader.run_of_step rfl).trans (inner.trans ?_)
  cases Piece.firstFault glob.pieces with
  | none =>
      apply (Reader.run_of_step rfl).trans
      simp [Reader.run, Reader.finish, Reader.add, OpenGroup.close, OpenGroup.addAll, OpenGroup.add,
        OpenGroup.start, items]
  | some fault => rfl

end Globs

end Glob

end OwnerCoverage
