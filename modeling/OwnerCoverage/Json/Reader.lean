import OwnerCoverage.Json.Token

/-!
# Reading data texts

The tokens of a data text are read from left to right. What is open is kept in a list of frames,
the innermost first, so that every token is one step: it begins a value, or goes on with the
innermost frame, or closes it. A text is read if all its tokens are one value.
-/

namespace OwnerCoverage

namespace Json

/-- The members of an object keep their order, and a name may stand more than once. -/
inductive Value where
  | null
  | boolean (value : Bool)
  | number (number : Number)
  | text (value : String)
  | array (elements : List Value)
  | object (members : List (String × Value))

/-- An array or an object that is not closed, with what it holds so far. -/
inductive Frame where
  | array (elements : List Value)
  /-- The value of the name is to come. -/
  | object (members : List (String × Value)) (name : String)

/-- What may come next, and the frames around it. -/
inductive Reader where
  | valueNext (frames : List Frame)
  /-- The first element of an array, or its end. -/
  | elementOrEnd (frames : List Frame)
  /-- The first name of an object, or its end. -/
  | nameOrEnd (frames : List Frame)
  | nameNext (members : List (String × Value)) (frames : List Frame)
  | colonNext (members : List (String × Value)) (name : String) (frames : List Frame)
  /-- What stands behind a value. -/
  | behind (value : Value) (frames : List Frame)

namespace Reader

/-- The token that begins a value. -/
def begin? (frames : List Frame) : Token → Option Reader
  | .openObject => some (.nameOrEnd frames)
  | .openArray => some (.elementOrEnd frames)
  | .null => some (.behind .null frames)
  | .boolean value => some (.behind (.boolean value) frames)
  | .number number => some (.behind (.number number) frames)
  | .text value => some (.behind (.text value) frames)
  | _ => none

/-- Reads one token, if it may stand there. -/
def step? : Reader → Token → Option Reader
  | .valueNext frames, token => begin? frames token
  | .elementOrEnd frames, .closeArray => some (.behind (.array []) frames)
  | .elementOrEnd frames, token => begin? (.array [] :: frames) token
  | .nameOrEnd frames, .closeObject => some (.behind (.object []) frames)
  | .nameOrEnd frames, .text name => some (.colonNext [] name frames)
  | .nameNext members frames, .text name => some (.colonNext members name frames)
  | .colonNext members name frames, .colon => some (.valueNext (.object members name :: frames))
  | .behind value (.array elements :: frames), .comma =>
      some (.valueNext (.array (elements ++ [value]) :: frames))
  | .behind value (.array elements :: frames), .closeArray =>
      some (.behind (.array (elements ++ [value])) frames)
  | .behind value (.object members name :: frames), .comma =>
      some (.nameNext (members ++ [(name, value)]) frames)
  | .behind value (.object members name :: frames), .closeObject =>
      some (.behind (.object (members ++ [(name, value)])) frames)
  | _, _ => none

/-- Reads tokens in order, up to one that may not stand where it does. -/
def run? (reader : Reader) (tokens : List Token) : Option Reader := tokens.foldlM step? reader

end Reader

/-- The value that a text stands for, if it is a data text. -/
def read (text : String) : Option Value :=
  match tokens? text.toList with
  | none => none
  | some tokens =>
      match (Reader.valueNext []).run? tokens with
      | some (.behind value []) => some value
      | _ => none

end Json

end OwnerCoverage
