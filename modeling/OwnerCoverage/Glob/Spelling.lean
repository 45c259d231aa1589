import OwnerCoverage.Glob.Token

/-!
# The spelling of a pattern

How the tokens of a pattern are written. A token says nothing of the backslashes that it was read
with, so a spelling keeps them: each character of a token stands alone or behind a backslash, and a
run of stars has its length. A separator is bare if no backslash makes it literal, and these are the
places where a body should be cut into segments.
-/

namespace OwnerCoverage

namespace Glob

/-- How many separators of a text have no backslash of their own. -/
def bareSeparators : List Char → Nat
  | [] => 0
  | ['\\'] => 0
  | '\\' :: _ :: rest => bareSeparators rest
  | '/' :: rest => bareSeparators rest + 1
  | _ :: rest => bareSeparators rest

/-- The part of a text up to the bracket that closes an expression: the first closing bracket that
has no backslash of its own and is not where the first member stands. -/
def upToClosing (opening : Bool) : List Char → List Char
  | [] => []
  | ['\\'] => ['\\']
  | '\\' :: char :: rest => '\\' :: char :: upToClosing false rest
  | ']' :: rest => if opening then ']' :: upToClosing false rest else []
  | char :: rest => char :: upToClosing false rest

/-- What stands between the brackets of an expression whose opening bracket stands before a text,
behind the mark of a negated one. -/
def insideBrackets : List Char → List Char
  | '!' :: rest => upToClosing true rest
  | '^' :: rest => upToClosing true rest
  | text => upToClosing true text

/-- A character, alone or behind a backslash. -/
structure SpelledChar where
  escaped : Bool
  char : Char
deriving DecidableEq, Repr

def SpelledChar.text (spelled : SpelledChar) : List Char :=
  if spelled.escaped then ['\\', spelled.char] else [spelled.char]

/-- A member of a bracket expression as it is written. -/
inductive SpelledItem where
  | single (member : SpelledChar)
  | range (first last : SpelledChar)
deriving DecidableEq, Repr

def SpelledItem.text : SpelledItem → List Char
  | .single member => member.text
  | .range first last => first.text ++ '-' :: last.text

def SpelledItem.item : SpelledItem → ClassItem
  | .single member => .single member.char
  | .range first last => .range first.char last.char

/-- Whether a member takes in a bare separator, as a range does that ends in one. -/
def SpelledItem.crosses : SpelledItem → Bool
  | .single _ => false
  | .range _ last => !last.escaped && last.char == '/'

/-- A token as it is written. -/
inductive Spelling where
  | literal (member : SpelledChar)
  | anyChar
  /-- A run of stars, which may be a whole segment. -/
  | stars (wholeSegment : Bool) (more : Nat)
  /-- A bracket expression, behind whose opening bracket the mark of a negated one may stand. -/
  | charClass (negation : Option Char) (items : List SpelledItem)
  | separator
deriving DecidableEq, Repr

/-- The token that is spelled. -/
def Spelling.token : Spelling → Token
  | .literal member => .literal member.char
  | .anyChar => .anyChar
  | .stars wholeSegment _ => if wholeSegment then .anyDepth else .star
  | .charClass negation items => .charClass negation.isSome (items.map SpelledItem.item)
  | .separator => .separator

def Spelling.text : Spelling → List Char
  | .literal member => member.text
  | .anyChar => ['?']
  | .stars _ more => '*' :: List.replicate more '*'
  | .charClass negation items =>
      '[' :: (negation.toList ++ (items.flatMap SpelledItem.text ++ [']']))
  | .separator => ['/']

/-- How many bare separators stand inside a bracket expression. -/
def Spelling.crossings : Spelling → Nat
  | .charClass _ items => items.countP SpelledItem.crosses
  | _ => 0

end Glob

end OwnerCoverage
