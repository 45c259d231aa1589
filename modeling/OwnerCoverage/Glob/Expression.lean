import OwnerCoverage.Glob.Basic

/-!
# The regular expression of a glob

A glob is written as one regular expression that is tied to both ends of the path. Literal
characters that mean something in a regular expression get a backslash, so that none of them is
read as an operator. Separators stand between segments, and the parts that stand for any number of
components bring their own separators along.
-/

namespace OwnerCoverage

namespace Glob

/-- The characters that mean something in a regular expression, inside or outside a class. -/
def metaChars : List Char := "\\.+*?()|[]\x7b\x7d^$#&-~".toList

/-- A literal character, with a backslash before it where it would mean something else. -/
def literalText (char : Char) : List Char :=
  if metaChars.contains char then ['\\', char] else [char]

/-- A member of a class as it is written in an expression. -/
def ClassItem.text : ClassItem → List Char
  | .single char => literalText char
  | .range first last => literalText first ++ '-' :: literalText last

/-- The expression of one token. No class matches a separator: a negated class lists it, and any
other is met with the class of all other characters. -/
def Token.text : Token → List Char
  | .literal char => literalText char
  | .anyChar => "[^/]".toList
  | .star => "[^/]*".toList
  | .charClass true items => "[^/".toList ++ items.flatMap ClassItem.text ++ "]".toList
  | .charClass false items => "[".toList ++ items.flatMap ClassItem.text ++ "&&[^/]]".toList
  | .anyDepth => []
  | .separator => []

/-- The expression of segments behind another segment, with the separators before them. -/
def followingText : List Segment → List Char
  | [] => []
  | [.anyDepth] => "/.*".toList
  | .anyDepth :: rest => "(?:/.+)?".toList ++ followingText rest
  | .component tokens :: rest => '/' :: tokens.flatMap Token.text ++ followingText rest

/-- The expression of segments of which the first has no separator before it. -/
def leadingText : List Segment → List Char
  | [] => []
  | [.anyDepth] => ".*".toList
  | .anyDepth :: .component tokens :: rest =>
      "(?:.*/)?".toList ++ tokens.flatMap Token.text ++ followingText rest
  | .anyDepth :: rest => "(?:.*/)?".toList ++ followingText rest
  | .component tokens :: rest => tokens.flatMap Token.text ++ followingText rest

/-- The expression of the whole glob. A glob without segments matches everything. -/
def regexText (glob : Glob) : List Char :=
  if glob.segments.isEmpty then "\\A.*\\z".toList
  else
    (if glob.anchored then "\\A/?" else "\\A(?:.*/)?").toList ++ leadingText glob.segments ++
      (if glob.onlyBelow then "/.*\\z" else "(?:/.*)?\\z").toList

end Glob

end OwnerCoverage
