/-!
# Quoted texts

A text between quotation marks, as data formats write it: quotation marks and backslashes get a
backslash, the control characters with a letter of their own are written by it, and the others by
four hexadecimal digits. All other characters stand for themselves.
-/

namespace OwnerCoverage

namespace Text

def hexDigit (value : Nat) : Char := Nat.digitChar (value % 16)

/-- A control character, by its code. -/
def hexEscape (char : Char) : List Char :=
  ['\\', 'u', '0', '0', hexDigit (char.toNat / 16), hexDigit char.toNat]

/-- A character as it stands between quotes. -/
def quotedChar (char : Char) : List Char :=
  if char = '"' then ['\\', '"']
  else if char = '\\' then ['\\', '\\']
  else if char = '\x08' then ['\\', 'b']
  else if char = '\x0c' then ['\\', 'f']
  else if char = '\n' then ['\\', 'n']
  else if char = '\r' then ['\\', 'r']
  else if char = '\t' then ['\\', 't']
  else if char.toNat < 32 then hexEscape char
  else [char]

/-- A text between quotes. -/
def quoted (text : String) : String :=
  String.ofList ('"' :: text.toList.flatMap quotedChar ++ ['"'])

end Text

end OwnerCoverage
