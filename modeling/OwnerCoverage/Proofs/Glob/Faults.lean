import OwnerCoverage.Proofs.Glob.Symbols

/-!
# Faults in the expression of a glob

The expression of a glob is written from the tokens of its pattern in their order, with connectors
in between (`writes_pieces`), and only a range can make it faulty. So the expression is faulty
exactly if a range of a bracket expression ends below its start, and the reader stops at the first
such range of the pattern (`firstFault_of_isFirst`): what stands before it in the expression is
written from the tokens before it, and what stands behind it from those behind it.
-/

namespace OwnerCoverage

namespace Glob

open Regex

section Order

/-- A range does not end below its start. -/
def ClassItem.InOrder : ClassItem → Prop
  | .single _ => True
  | .range first last => first ≤ last

/-- Every range of a token is in order. -/
def Token.InOrder : Token → Prop
  | .charClass _ items => ∀ item ∈ items, item.InOrder
  | _ => True

instance (item : ClassItem) : Decidable item.InOrder := by
  cases item <;> unfold ClassItem.InOrder <;> infer_instance

/-- A range of a bracket expression that ends below its start, with all that stands around it among
the tokens of a pattern. -/
structure InvertedRange where
  before : List Token
  negated : Bool
  /-- The members of the bracket expression before the range. -/
  members : List ClassItem
  first : Char
  last : Char
  /-- The members of the bracket expression behind the range. -/
  more : List ClassItem
  after : List Token
  inverted : last < first

namespace InvertedRange

def item (range : InvertedRange) : ClassItem := .range range.first range.last

/-- The class in which an inverted range stands. -/
def token (range : InvertedRange) : Token :=
  .charClass range.negated (range.members ++ range.item :: range.more)

/-- The tokens of a pattern with an inverted range in a class. -/
def tokens (range : InvertedRange) : List Token := range.before ++ range.token :: range.after

/-- No range that stands before this one is inverted. -/
structure IsFirst (range : InvertedRange) : Prop where
  before : ∀ token ∈ range.before, token.InOrder
  members : ∀ member ∈ range.members, member.InOrder

end InvertedRange

/-- The first element that does not satisfy a property, with what stands around it. -/
theorem exists_first_of_not_forall {α : Type} {property : α → Prop} {elements : List α}
    (fails : ¬∀ element ∈ elements, property element) :
    ∃ before element after, elements = before ++ element :: after ∧
      (∀ earlier ∈ before, property earlier) ∧ ¬property element := by
  induction elements with
  | nil => simp at fails
  | cons element elements ih =>
      by_cases holds : property element
      · have later : ¬∀ element ∈ elements, property element :=
          fun all => fails (List.forall_mem_cons.2 ⟨holds, all⟩)
        rcases ih later with ⟨before, other, after, rfl, earlier, fails⟩
        exact ⟨element :: before, other, after, rfl, List.forall_mem_cons.2 ⟨holds, earlier⟩, fails⟩
      · exact ⟨[], element, elements, rfl, by simp, holds⟩

/-- Tokens that are not all in order have a first inverted range. -/
theorem exists_isFirst {tokens : List Token} (fails : ¬∀ token ∈ tokens, token.InOrder) :
    ∃ range : InvertedRange, range.tokens = tokens ∧ range.IsFirst := by
  rcases exists_first_of_not_forall fails with ⟨before, token, after, rfl, earlier, fails⟩
  cases token with
  | charClass negated items =>
      rcases exists_first_of_not_forall fails with ⟨members, item, more, rfl, inOrder, fails⟩
      cases item with
      | single char => exact absurd trivial fails
      | range first last =>
          exact ⟨⟨before, negated, members, first, last, more, after, Char.not_le.1 fails⟩, rfl,
            earlier, inOrder⟩
  | _ => exact absurd trivial fails

theorem InvertedRange.not_inOrder (range : InvertedRange) :
    ¬∀ token ∈ range.tokens, token.InOrder := by
  intro inOrder
  have classInOrder : range.token.InOrder := inOrder range.token (by simp [tokens])
  have rangeInOrder : range.first ≤ range.last := classInOrder range.item (by simp)
  exact Char.not_le.2 range.inverted rangeInOrder

end Order

section Members

theorem ClassItem.fault_eq_none_iff {item : ClassItem} : item.fault = none ↔ item.InOrder := by
  cases item with
  | single char => simp [fault, InOrder]
  | range first last => simp [fault, InOrder]

theorem membersFault_eq_none_iff {items : List ClassItem} :
    membersFault items = none ↔ ∀ item ∈ items, item.InOrder := by
  induction items with
  | nil => simp [membersFault]
  | cons item items ih =>
      rw [List.forall_mem_cons, ← ih, ← ClassItem.fault_eq_none_iff, membersFault]
      cases item.fault <;> simp

theorem Token.fault_eq_none_iff {token : Token} : token.fault = none ↔ token.InOrder := by
  cases token with
  | charClass negated items =>
      refine Iff.trans ?_ membersFault_eq_none_iff
      cases negated <;> simp [fault]
  | _ => simp [fault, InOrder]

/-- The fault that lies in a stretch of a text, in front of the rest of the text. -/
def rangeFault (stretch below : List Char) : Fault :=
  ⟨.invertedRange, (stretch ++ below).length, stretch.length⟩

theorem before_rangeFault (stretch below behind : List Char) :
    (rangeFault stretch below).before behind.length = rangeFault stretch (below ++ behind) := by
  simp [rangeFault, Fault.before, Nat.add_assoc]

theorem membersFault_of_inverted {members : List ClassItem} {first last : Char}
    (inOrder : ∀ member ∈ members, member.InOrder) (inverted : last < first)
    (more : List ClassItem) : membersFault (members ++ .range first last :: more) =
      some (rangeFault (ClassItem.range first last).text (more.flatMap ClassItem.text)) := by
  induction members with
  | nil =>
      have notLe : ¬first ≤ last := Char.not_le.2 inverted
      simp [membersFault, ClassItem.fault, notLe, rangeFault, Fault.before]
  | cons member members ih =>
      rcases List.forall_mem_cons.1 inOrder with ⟨memberInOrder, inOrder⟩
      rw [List.cons_append, membersFault, ClassItem.fault_eq_none_iff.2 memberInOrder]
      exact ih inOrder

/-- What a bracket expression begins with. -/
def classOpening (negated : Bool) : List Char := if negated then "[^/".toList else "[".toList

/-- What stands behind the members of a bracket expression. -/
def classClosing (negated : Bool) : List Char := if negated then "]".toList else "&&[^/]]".toList

theorem text_charClass (negated : Bool) (items : List ClassItem) :
    (Token.charClass negated items).text =
      classOpening negated ++ items.flatMap ClassItem.text ++ classClosing negated := by
  cases negated <;> rfl

namespace InvertedRange

variable (range : InvertedRange)

/-- The part of the bracket expression that is written before the range. -/
def opening : List Char := classOpening range.negated ++ range.members.flatMap ClassItem.text

/-- The part of the bracket expression that is written behind the range. -/
def closing : List Char := range.more.flatMap ClassItem.text ++ classClosing range.negated

theorem text_token : range.token.text = range.opening ++ (range.item.text ++ range.closing) := by
  simp [token, text_charClass, opening, closing]

theorem fault_token (isFirst : range.IsFirst) :
    range.token.fault = some (rangeFault range.item.text range.closing) := by
  have faulty := membersFault_of_inverted isFirst.members range.inverted range.more
  rw [closing, ← before_rangeFault]
  unfold token item
  cases range.negated <;> simp [Token.fault, faulty, classClosing]

end InvertedRange

end Members

section Pieces

variable {pieces others : List Piece} {token : Token} {tokens more : List Token}

/-- Whether a token has an expression of its own. -/
def Token.isWritten : Token → Bool
  | .anyDepth => false
  | .separator => false
  | _ => true

/-- The pieces of an expression that stand for no token with an expression of its own. -/
def silentPieces : List Piece := Token.separator.piece :: connectors

/-- Some pieces are those of some tokens in their order, with silent pieces in between. -/
inductive Writes : List Piece → List Token → Prop
  | nil : Writes [] []
  | silent {pieces : List Piece} {tokens : List Token} {piece : Piece}
      (isSilent : piece ∈ silentPieces) (writes : Writes pieces tokens) :
      Writes (piece :: pieces) tokens
  | token {pieces : List Piece} {tokens : List Token} (token : Token)
      (writes : Writes pieces tokens) : Writes (token.piece :: pieces) (token :: tokens)

theorem Writes.append (writes : Writes pieces tokens) (writesMore : Writes others more) :
    Writes (pieces ++ others) (tokens ++ more) := by
  induction writes with
  | nil => exact writesMore
  | silent isSilent _ ih => exact .silent isSilent ih
  | token token _ ih => exact .token token ih

theorem Writes.connector {piece : Piece} (isConnector : piece ∈ connectors)
    (writes : Writes pieces tokens) : Writes (piece :: pieces) tokens :=
  .silent (List.mem_cons_of_mem _ isConnector) writes

/-- The pieces of some tokens can be cut at each of them. -/
theorem Writes.split {before after : List Token} (writes : Writes pieces tokens)
    (cut : tokens = before ++ token :: after) :
    ∃ above below, pieces = above ++ token.piece :: below ∧ Writes above before ∧
      Writes below after := by
  induction writes generalizing before with
  | nil => simp at cut
  | silent isSilent _ ih =>
      rcases ih cut with ⟨above, below, rfl, writesAbove, writesBelow⟩
      exact ⟨_ :: above, below, rfl, .silent isSilent writesAbove, writesBelow⟩
  | token first writes ih =>
      cases before with
      | nil =>
          rw [List.nil_append, List.cons.injEq] at cut
          rcases cut with ⟨rfl, rfl⟩
          exact ⟨[], _, rfl, .nil, writes⟩
      | cons head before =>
          rw [List.cons_append, List.cons.injEq] at cut
          rcases cut with ⟨rfl, cut⟩
          rcases ih cut with ⟨above, below, rfl, writesAbove, writesBelow⟩
          exact ⟨_ :: above, below, rfl, .token first writesAbove, writesBelow⟩

theorem writes_tokens (tokens : List Token) :
    Writes (tokens.map Token.piece) (tokens.filter Token.isWritten) := by
  induction tokens with
  | nil => exact .nil
  | cons token tokens ih =>
      cases token with
      | anyDepth => exact .silent List.mem_cons_self ih
      | separator => exact .silent List.mem_cons_self ih
      | _ => exact .token _ ih

/-- The tokens of a segment that have an expression of their own. -/
def Segment.writtenTokens : Segment → List Token
  | .anyDepth => []
  | .component tokens => tokens.filter Token.isWritten

/-- The tokens that are written for segments, in order. -/
def writtenTokens (segments : List Segment) : List Token := segments.flatMap Segment.writtenTokens

theorem writtenTokens_cons (segment : Segment) (segments : List Segment) :
    writtenTokens (segment :: segments) = writtenTokens [segment] ++ writtenTokens segments := by
  simp [writtenTokens]

theorem writes_followingPieces (segments : List Segment) :
    Writes (followingPieces segments) (writtenTokens segments) := by
  fun_induction followingPieces segments with
  | case1 => exact .nil
  | case2 => exact .connector (by simp [connectors]) (.connector (by simp [connectors]) .nil)
  | case3 rest _ ih => exact .connector (by simp [connectors]) ih
  | case4 tokens rest ih =>
      exact .connector (by simp [connectors]) ((writes_tokens tokens).append ih)

theorem writes_leadingPieces (segments : List Segment) :
    Writes (leadingPieces segments) (writtenTokens segments) := by
  fun_cases leadingPieces segments with
  | case1 => exact .nil
  | case2 => exact .connector (by simp [connectors]) .nil
  | case3 tokens rest =>
      exact .connector (by simp [connectors])
        ((writes_tokens tokens).append (writes_followingPieces rest))
  | case4 rest => exact .connector (by simp [connectors]) (writes_followingPieces rest)
  | case5 tokens rest => exact (writes_tokens tokens).append (writes_followingPieces rest)

theorem writes_segments (glob : Glob) : Writes glob.pieces (writtenTokens glob.segments) := by
  unfold pieces
  split
  · rename_i empty
    rw [List.isEmpty_iff.1 empty]
    exact .connector (by simp [connectors]) .nil
  · have below :
        Writes (if glob.onlyBelow then [slashPiece, anyTextPiece] else [belowPiece]) [] := by
      split
      · exact .connector (by simp [connectors]) (.connector (by simp [connectors]) .nil)
      · exact .connector (by simp [connectors]) .nil
    have segments := (writes_leadingPieces glob.segments).append below
    rw [List.append_nil] at segments
    refine .connector ?_ segments
    cases glob.anchored <;> simp [connectors]

theorem writtenTokens_merge (segments : List Segment) :
    writtenTokens (Segment.merge segments) = writtenTokens segments := by
  fun_induction Segment.merge segments with
  | case1 => rfl
  | case2 rest merged same ih => exact (congrArg writtenTokens same).symm.trans ih
  | case3 rest _ ih => exact ih
  | case4 segment rest _ ih => rw [writtenTokens_cons, ih, ← writtenTokens_cons]

theorem writtenTokens_ofTokens (group : List Token) :
    writtenTokens [Segment.ofTokens group] = group.filter Token.isWritten := by
  unfold Segment.ofTokens
  split
  · rename_i whole
    rw [whole]
    rfl
  · exact List.append_nil _

theorem filter_isWritten_groups (tokens : List Token) :
    ((tokenGroups tokens).flatMap fun group => group.filter Token.isWritten) =
      tokens.filter Token.isWritten := by
  induction tokens with
  | nil => rfl
  | cons token tokens ih =>
      by_cases separates : token = .separator
      · subst separates
        rw [tokenGroups_separator]
        exact ih
      · rcases exists_tokenGroups tokens with ⟨group, groups, split⟩
        rw [split] at ih
        rw [tokenGroups_cons separates, split, List.modifyHead_cons, List.flatMap_cons,
          List.filter_cons, List.filter_cons, ← ih, List.flatMap_cons]
        split <;> rfl

/-- The expression of a pattern is written from its tokens in their order. -/
theorem writes_pieces (tokens : List Token) :
    Writes (ofTokens tokens).pieces (tokens.filter Token.isWritten) := by
  have inSegments (groups : List (List Token)) :
      writtenTokens ((groups.filter (!·.isEmpty)).map Segment.ofTokens) =
        groups.flatMap fun group => group.filter Token.isWritten := by
    induction groups with
    | nil => rfl
    | cons group groups ih =>
        rw [List.filter_cons, List.flatMap_cons, ← ih]
        cases group with
        | nil => rfl
        | cons token group =>
            rw [← writtenTokens_ofTokens, ← writtenTokens_cons]
            rfl
  have writes := writes_segments (ofTokens tokens)
  rwa [ofTokens, writtenTokens_merge, inSegments, filter_isWritten_groups] at writes

end Pieces

section FirstFault

variable {pieces : List Piece} {tokens : List Token}

theorem firstFault_eq_none_iff :
    Piece.firstFault pieces = none ↔ ∀ piece ∈ pieces, piece.fault = none := by
  induction pieces with
  | nil => simp [Piece.firstFault]
  | cons piece pieces ih =>
      rw [List.forall_mem_cons, ← ih, Piece.firstFault]
      cases piece.fault <;> simp

theorem firstFault_append_cons {above below : List Piece} {piece : Piece} {fault : Fault}
    (sound : ∀ earlier ∈ above, earlier.fault = none) (faulty : piece.fault = some fault) :
    Piece.firstFault (above ++ piece :: below) =
      some (fault.before (Piece.textOf below).length) := by
  induction above with
  | nil => simp [Piece.firstFault, faulty]
  | cons first above ih =>
      rcases List.forall_mem_cons.1 sound with ⟨soundFirst, sound⟩
      rw [List.cons_append, Piece.firstFault, soundFirst]
      exact ih sound

theorem sound_silentPieces : ∀ piece ∈ silentPieces, piece.fault = none := by
  simp [silentPieces, connectors, Token.piece, Token.fault, slashPiece, anyTextPiece,
    optionalSlashPiece, abovePiece, belowPiece, betweenPiece, optionalGroup]

/-- Only a token with an inverted range makes an expression faulty. -/
theorem Writes.sound_iff (writes : Writes pieces tokens) :
    (∀ piece ∈ pieces, piece.fault = none) ↔ ∀ token ∈ tokens, token.InOrder := by
  induction writes with
  | nil => simp
  | silent isSilent _ ih =>
      rw [List.forall_mem_cons, ih, and_iff_right (sound_silentPieces _ isSilent)]
  | token token _ ih =>
      rw [List.forall_mem_cons, List.forall_mem_cons, ih, ← Token.fault_eq_none_iff]
      rfl

theorem inOrder_filter_isWritten :
    (∀ token ∈ tokens.filter Token.isWritten, token.InOrder) ↔ ∀ token ∈ tokens, token.InOrder := by
  constructor
  · intro inOrder token mem
    by_cases written : token.isWritten = true
    · exact inOrder token (List.mem_filter.2 ⟨mem, written⟩)
    · cases token with
      | charClass negated items => exact absurd rfl written
      | _ => trivial
  · exact fun inOrder token mem => inOrder token (List.mem_of_mem_filter mem)

/-- The expression of a pattern is sound exactly if no range of its tokens is inverted. -/
theorem firstFault_ofTokens_eq_none_iff (tokens : List Token) :
    Piece.firstFault (ofTokens tokens).pieces = none ↔ ∀ token ∈ tokens, token.InOrder := by
  rw [firstFault_eq_none_iff, (writes_pieces tokens).sound_iff, inOrder_filter_isWritten]

/-- The first fault of an expression is the first inverted range of its tokens, where it stands
between what is written from the tokens before it and from those behind it. -/
theorem firstFault_of_isFirst {range : InvertedRange} (isFirst : range.IsFirst) :
    ∃ above below, (ofTokens range.tokens).pieces = above ++ range.token.piece :: below ∧
      Writes above (range.before.filter Token.isWritten) ∧
      Writes below (range.after.filter Token.isWritten) ∧
      Piece.firstFault (ofTokens range.tokens).pieces =
        some (rangeFault range.item.text (range.closing ++ Piece.textOf below)) := by
  have cut : range.tokens.filter Token.isWritten = range.before.filter Token.isWritten ++
      range.token :: range.after.filter Token.isWritten := by
    rw [InvertedRange.tokens, List.filter_append, List.filter_cons_of_pos rfl]
  rcases (writes_pieces range.tokens).split cut with
    ⟨above, below, pieces_eq, writesAbove, writesBelow⟩
  have sound : ∀ piece ∈ above, piece.fault = none :=
    writesAbove.sound_iff.2 (inOrder_filter_isWritten.2 isFirst.before)
  refine ⟨above, below, pieces_eq, writesAbove, writesBelow, ?_⟩
  rw [pieces_eq, firstFault_append_cons sound (range.fault_token isFirst), before_rangeFault]

end FirstFault

end Glob

end OwnerCoverage
