import OwnerCoverage.Glob.Expression
import OwnerCoverage.Regex.Matcher
import OwnerCoverage.Regex.Reader
import OwnerCoverage.Rules.Line

/-!
# Patterns

A pattern is compiled by way of its glob to a regular expression, and matches the paths in which the
expression is found. A pattern that starts with `!` matches exactly the paths that the rest does
not. Before the expression is tried, the path is searched for the longest literal text of the glob:
where that is missing, the expression cannot match.
-/

namespace OwnerCoverage

/-- A text that is no pattern, because its regular expression has a fault. -/
structure PatternError where
  /-- The text as it was given. -/
  pattern : String
  /-- The regular expression that the text was compiled to. -/
  regexText : String
  fault : Regex.Fault
deriving DecidableEq, Repr

namespace PatternError

/-- The text of the fault in the expression. -/
def cause (error : PatternError) : String := error.fault.message error.regexText

/-- What is said of a pattern that cannot be compiled: its text, and then the cause. -/
def message (error : PatternError) : String :=
  "invalid pattern `" ++ error.pattern ++ "`: " ++ error.cause

end PatternError

/-- A pattern of a rule, compiled. -/
structure Pattern where
  /-- The text of the pattern without the blanks around it. -/
  source : String
  /-- Whether the pattern matches what its glob does not. -/
  negated : Bool
  glob : Glob
  regex : Regex CharSet
  /-- The expression is the one that the glob is written as. -/
  read_regexText : Regex.read glob.regexText = .ok regex

namespace Pattern

/-- Drops the spaces at the end of a reversed text that no backslash escapes: a space stays if the
number of backslashes before it is odd. -/
def dropSpacesOfReversed : List Char → List Char
  | ' ' :: rest =>
      if (rest.takeWhile (· == '\\')).length % 2 = 1 then ' ' :: rest
      else dropSpacesOfReversed rest
  | text => text

/-- Drops the carriage returns at the end of a text, then the spaces at its start, and then those at
its end that are not escaped. -/
def trim (text : List Char) : List Char :=
  let body := (Text.dropEndWhile (· == '\r') text).dropWhile (· == ' ')
  (dropSpacesOfReversed body.reverse).reverse

/-- Whether a trimmed text is negated, and what it negates. -/
def splitNegation : List Char → Bool × List Char
  | '!' :: rest => (true, rest)
  | text => (false, text)

/-- Compiles a pattern. The blanks around its text are no part of it, an exclamation mark in front
negates it, and what is left is read as a glob and written as an expression. -/
def compile (text : String) : Except PatternError Pattern :=
  let trimmed := trim text.toList
  let (negated, body) := splitNegation trimmed
  let glob := Glob.ofPattern body
  match read : Regex.read glob.regexText with
  | .error fault => .error ⟨text, String.ofList glob.regexText, fault⟩
  | .ok regex => .ok ⟨String.ofList trimmed, negated, glob, regex, read⟩

/-- Compiles the pattern of a line of a rules file, if the line holds a rule. -/
def compileLine (line : String) : Except PatternError (Option Pattern) :=
  match RulesLine.split? line with
  | none => .ok none
  | some fields =>
      match compile fields.pattern with
      | .error error => .error error
      | .ok pattern => .ok (some pattern)

/-- The text of the expression. -/
def regexText (pattern : Pattern) : String := String.ofList pattern.glob.regexText

/-- Whether a text occurs in another as one piece. -/
def occursIn (piece : List Char) : List Char → Bool
  | [] => piece.isEmpty
  | char :: rest => piece.isPrefixOf (char :: rest) || occursIn piece rest

/-- Whether the glob matches a path. The literal search rules most paths out before the expression
is looked for. -/
def globMatches (pattern : Pattern) (path : List Char) : Bool :=
  occursIn pattern.glob.longestLiteral path && pattern.regex.foundIn path

/-- Whether a pattern matches a path: a negated one matches what its glob does not. -/
def accepts (pattern : Pattern) (path : String) : Bool :=
  pattern.globMatches path.toList != pattern.negated

end Pattern

end OwnerCoverage
