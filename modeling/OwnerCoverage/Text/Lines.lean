/-!
# Lines of a text

A text is cut at its line feeds. A line that a line feed ends loses one carriage return before
it, and a last line without any character is no line.
-/

namespace OwnerCoverage

namespace Text

/-- The longest initial part of a list whose successor does not satisfy a test: everything but the
trailing run of elements that do. -/
def dropEndWhile {α : Type} (test : α → Bool) (elements : List α) : List α :=
  (elements.reverse.dropWhile test).reverse

/-- A line feed ended this line: one carriage return before it belongs to the line's end. -/
def dropCarriageReturn (line : List Char) : List Char :=
  match line.reverse with
  | '\r' :: rest => rest.reverse
  | _ => line

/-- The lines among the pieces that line feeds cut a text into. The last piece is not ended by a
line feed, and counts only if it holds a character. -/
def linesOfPieces : List (List Char) → List (List Char)
  | [] => []
  | [last] => if last.isEmpty then [] else [last]
  | line :: next :: rest => dropCarriageReturn line :: linesOfPieces (next :: rest)

/-- The lines of a text. A carriage return before a line feed belongs to the end of its line, and no
line follows a line feed at the end of the text. -/
def lines (text : String) : List String :=
  (linesOfPieces (text.toList.splitOnP (· == '\n'))).map String.ofList

end Text

end OwnerCoverage
