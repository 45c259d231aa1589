import OwnerCoverage.Glob.Meaning
import OwnerCoverage.Pattern
import OwnerCoverage.Proofs.Glob.Reading
import OwnerCoverage.Proofs.Regex.Language

/-!
# The language of a glob

A glob describes a set of texts directly: each token a set of words inside one component, and the
segments one after another with separators, and any text where any number of components may stand,
between them. `globMatches_iff` says that a compiled pattern finds its expression in exactly the
texts of this language. The search for the longest literal text never changes that, since every text
of the language contains it.
-/

namespace OwnerCoverage

namespace Glob

open Computability Regex

def slash : Language Char := charLanguage (· == '/')

/-- All texts of one line. -/
def anyText : Language Char := runLanguage (· != '\n')

/-- All texts of one line that are not empty. -/
def someText : Language Char := charLanguage (· != '\n') * anyText

/-- The texts that a token of a component stands for. -/
def Token.language : Token → Language Char
  | .star => runLanguage (· != '/')
  | .anyDepth => 1
  | .separator => 1
  | token => charLanguage token.holds

/-- The texts that tokens of a component stand for, one behind the other. -/
def tokensLanguage (tokens : List Token) : Language Char := (tokens.map Token.language).prod

/-- The texts of the segments after the first. -/
def followingLanguage : List Segment → Language Char
  | [] => 1
  | [.anyDepth] => slash * anyText
  | .anyDepth :: rest => (slash * someText + 1) * followingLanguage rest
  | .component tokens :: rest => slash * (tokensLanguage tokens * followingLanguage rest)

/-- The texts of segments of which the first has no separator before it. -/
def leadingLanguage : List Segment → Language Char
  | [] => 1
  | [.anyDepth] => anyText
  | .anyDepth :: .component tokens :: rest =>
      (anyText * slash + 1) * (tokensLanguage tokens * followingLanguage rest)
  | .anyDepth :: rest => (anyText * slash + 1) * followingLanguage rest
  | .component tokens :: rest => tokensLanguage tokens * followingLanguage rest

/-- What may stand before the first segment. -/
def prefixLanguage (anchored : Bool) : Language Char :=
  if anchored then slash + 1 else anyText * slash + 1

/-- What may stand after the last segment. -/
def suffixLanguage (onlyBelow : Bool) : Language Char :=
  if onlyBelow then slash * anyText else slash * anyText + 1

/-- The paths that a glob matches, as a language: what may stand above its segments, the segments,
and what may stand below them. -/
def language (glob : Glob) : Language Char :=
  if glob.segments.isEmpty then anyText
  else
    prefixLanguage glob.anchored *
      (leadingLanguage glob.segments * suffixLanguage glob.onlyBelow)

section Items

/-- The texts that items stand for, one behind the other. -/
def itemsLanguage (items : List (Regex CharSet)) : Language Char := (items.map Regex.language).prod

@[simp]
theorem itemsLanguage_append (first second : List (Regex CharSet)) :
    itemsLanguage (first ++ second) = itemsLanguage first * itemsLanguage second := by
  simp [itemsLanguage]

theorem contains_memberSet (items : List ClassItem) (char : Char) :
    (memberSet items).contains char = items.any (·.holds char) := by
  have collected (start : CharSet) :
      (items.foldl (fun set item => .union set item.set) start).contains char =
        (start.contains char || items.any (·.holds char)) := by
    induction items generalizing start with
    | nil => simp
    | cons item items ih =>
        rw [List.foldl_cons, ih]
        cases item <;>
          simp [CharSet.contains, ClassItem.set, ClassItem.holds, Bool.or_assoc,
            Bool.beq_eq_decide_eq]
  exact collected .empty

theorem contains_notSeparator (char : Char) : notSeparator.contains char = (char != '/') := by
  simp [notSeparator, CharSet.contains, contains_memberSet, ClassItem.holds, bne]

theorem contains_classSet (negated : Bool) (items : List ClassItem) (char : Char) :
    (classSet negated items).contains char = (Token.charClass negated items).holds char := by
  cases negated with
  | true =>
      simp [classSet, CharSet.contains, contains_memberSet, Token.holds_charClass,
        ClassItem.holds, bne]
  | false =>
      simp [classSet, CharSet.contains, contains_memberSet, contains_notSeparator,
        Token.holds_charClass, Bool.and_comm]

theorem contains_notLineFeed : CharSet.notLineFeed.contains = (· != '\n') := by
  funext char
  simp [CharSet.notLineFeed, CharSet.contains, bne, Bool.beq_eq_decide_eq]

theorem language_oneOf (set : CharSet) : (Regex.oneOf set).language = charLanguage set.contains :=
  rfl

theorem language_star_oneOf (set : CharSet) :
    (Regex.star (.oneOf set)).language = runLanguage set.contains :=
  kstar_charLanguage set.contains

theorem contains_single_eq (member : Char) : (CharSet.single member).contains = (· == member) := by
  funext char
  simp [Bool.beq_eq_decide_eq]

theorem language_slash : (Regex.oneOf (.single '/')).language = slash := by
  rw [language_oneOf, contains_single_eq]
  rfl

theorem language_anyText : (Regex.star (.oneOf .notLineFeed)).language = anyText := by
  rw [language_star_oneOf, contains_notLineFeed]
  rfl

theorem language_someText : (plus (.oneOf .notLineFeed)).language = someText := by
  change (Regex.oneOf CharSet.notLineFeed).language *
    (Regex.star (.oneOf .notLineFeed)).language = _
  rw [language_anyText, language_oneOf, contains_notLineFeed]
  rfl

theorem itemsLanguage_singleton (item : Regex CharSet) : itemsLanguage [item] = item.language := by
  simp [itemsLanguage]

theorem language_token (token : Token) : itemsLanguage token.items = token.language := by
  cases token with
  | literal char =>
      rw [Token.items, itemsLanguage_singleton, language_oneOf, contains_single_eq]
      rfl
  | anyChar =>
      rw [Token.items, itemsLanguage_singleton, language_oneOf, funext contains_notSeparator]
      rfl
  | star =>
      rw [Token.items, itemsLanguage_singleton, language_star_oneOf, funext contains_notSeparator]
      rfl
  | anyDepth => rfl
  | charClass negated items =>
      rw [Token.items, itemsLanguage_singleton, language_oneOf,
            funext (contains_classSet negated items)]
      rfl
  | separator => rfl

theorem language_optionalGroup (pieces : List Piece) : itemsLanguage (optionalGroup pieces).items =
    itemsLanguage (Piece.itemsOf pieces) + 1 := by
  rw [optionalGroup, itemsLanguage_singleton]
  change (sequence (Piece.itemsOf pieces)).language + 1 = _
  rw [language_sequence]
  rfl

theorem itemsOf_append (first second : List Piece) :
    Piece.itemsOf (first ++ second) = Piece.itemsOf first ++ Piece.itemsOf second :=
  List.flatMap_append

def piecesLanguage (pieces : List Piece) : Language Char := itemsLanguage (Piece.itemsOf pieces)

@[simp]
theorem piecesLanguage_nil : piecesLanguage [] = 1 := rfl

@[simp]
theorem piecesLanguage_cons (piece : Piece) (pieces : List Piece) :
    piecesLanguage (piece :: pieces) = itemsLanguage piece.items * piecesLanguage pieces := by
  simp [piecesLanguage, Piece.itemsOf]

@[simp]
theorem piecesLanguage_append (first second : List Piece) :
    piecesLanguage (first ++ second) = piecesLanguage first * piecesLanguage second := by
  simp [piecesLanguage, itemsOf_append]

theorem piecesLanguage_tokens (tokens : List Token) :
    piecesLanguage (tokens.map Token.piece) = tokensLanguage tokens := by
  induction tokens with
  | nil => rfl
  | cons token tokens ih =>
      rw [List.map_cons, piecesLanguage_cons, ih]
      exact congrArg (· * tokensLanguage tokens) (language_token token)

@[simp]
theorem language_slashPiece : itemsLanguage slashPiece.items = slash := by
  rw [slashPiece, itemsLanguage_singleton, language_slash]

@[simp]
theorem language_anyTextPiece : itemsLanguage anyTextPiece.items = anyText := by
  rw [anyTextPiece, itemsLanguage_singleton, language_anyText]

@[simp]
theorem language_someTextPiece : itemsLanguage someTextPiece.items = someText := by
  rw [someTextPiece, itemsLanguage_singleton, language_someText]

@[simp]
theorem language_optionalSlashPiece : itemsLanguage optionalSlashPiece.items = slash + 1 := by
  rw [optionalSlashPiece, itemsLanguage_singleton, ← language_slash]
  rfl

@[simp]
theorem language_abovePiece : itemsLanguage abovePiece.items = anyText * slash + 1 := by
  rw [abovePiece, language_optionalGroup, ← piecesLanguage]
  simp

@[simp]
theorem language_belowPiece : itemsLanguage belowPiece.items = slash * anyText + 1 := by
  rw [belowPiece, language_optionalGroup, ← piecesLanguage]
  simp

@[simp]
theorem language_betweenPiece : itemsLanguage betweenPiece.items = slash * someText + 1 := by
  rw [betweenPiece, language_optionalGroup, ← piecesLanguage]
  simp

end Items

section Pieces

theorem language_followingPieces (segments : List Segment) :
    piecesLanguage (followingPieces segments) = followingLanguage segments := by
  fun_induction followingPieces segments with
  | case1 => rfl
  | case2 => simp [followingLanguage]
  | case3 rest notLast ih => rw [followingLanguage.eq_3 _ notLast, ← ih]; simp
  | case4 tokens rest ih =>
      rw [followingLanguage, ← ih, ← piecesLanguage_tokens]
      simp

theorem language_leadingPieces (segments : List Segment) :
    piecesLanguage (leadingPieces segments) = leadingLanguage segments := by
  fun_cases leadingPieces segments with
  | case1 => rfl
  | case2 => simp [leadingLanguage]
  | case3 tokens rest =>
      simp [leadingLanguage, piecesLanguage_tokens, language_followingPieces]
  | case4 rest notLast notComponent =>
      rw [leadingLanguage.eq_4 _ notLast notComponent]
      simp [language_followingPieces]
  | case5 tokens rest =>
      simp [leadingLanguage, piecesLanguage_tokens, language_followingPieces]

theorem language_items (glob : Glob) : itemsLanguage glob.items = glob.language := by
  change piecesLanguage glob.pieces = glob.language
  unfold pieces language prefixLanguage suffixLanguage
  split
  · simp
  · cases glob.anchored <;> cases glob.onlyBelow <;> simp [language_leadingPieces]

theorem anchorFree_connectors : ∀ piece ∈ connectors, ∀ item ∈ piece.items, item.AnchorFree := by
  simp [connectors, slashPiece, anyTextPiece, optionalSlashPiece, abovePiece, belowPiece,
    betweenPiece, optionalGroup, someTextPiece, Piece.itemsOf, Regex.optional, Regex.plus,
    Regex.sequence, AnchorFree]

theorem anchorFree_token (token : Token) : ∀ item ∈ token.items, item.AnchorFree := by
  cases token <;> simp [Token.items, AnchorFree]

theorem anchorFree_items {glob : Glob} {item : Regex CharSet} (mem : item ∈ glob.items) :
    item.AnchorFree := by
  rcases List.mem_flatMap.1 mem with ⟨piece, piece_mem, item_mem⟩
  rcases isPart_pieces piece_mem with connector | ⟨_, _, token, _, rfl⟩
  · exact anchorFree_connectors piece connector item item_mem
  · exact anchorFree_token token item item_mem

end Pieces

/-- The expression of a compiled pattern has the items of its glob between the two anchors. -/
theorem regex_eq_sequence (pattern : Pattern) :
    pattern.regex = Regex.sequence (.textStart :: (pattern.glob.items ++ [.textEnd])) := by
  have read := pattern.read_regexText
  rw [read_regexText] at read
  split at read
  · rw [Except.ok.injEq] at read
    exact read.symm
  · exact absurd read (by simp)

/-- The expression of a compiled pattern is found in exactly the texts of its glob's language. -/
theorem foundIn_iff_mem_language (pattern : Pattern) (path : List Char) :
    pattern.regex.foundIn path = true ↔ path ∈ pattern.glob.language := by
  rw [regex_eq_sequence, foundIn_anchored_iff (fun _ => anchorFree_items), ← language_items]
  rfl

end Glob

end OwnerCoverage
