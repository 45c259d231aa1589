/-!
# Texts as bytes

Names and contents of files are bytes, and a text is one of them only if it is well-formed UTF-8.
-/

namespace OwnerCoverage

/-- A text or anything else that is stored, byte by byte. -/
abbrev Bytes := List UInt8

namespace Bytes

/-- A text in UTF-8. -/
def ofText (text : String) : Bytes := text.toUTF8.data.toList

/-- The text that bytes stand for, if they are well-formed UTF-8. -/
def toText? (bytes : Bytes) : Option String := String.fromUTF8? ⟨bytes.toArray⟩

theorem toText?_ofText (text : String) : toText? (ofText text) = some text := by
  simp [toText?, ofText, String.fromUTF8?, String.fromUTF8]
  exact text.isValidUTF8

theorem ofText_of_toText? {bytes : Bytes} {text : String} (read : toText? bytes = some text) :
    ofText text = bytes := by
  simp only [toText?, String.fromUTF8?] at read
  split at read
  · simp only [Option.some.injEq] at read
    subst read
    simp [ofText, String.fromUTF8]
  · simp at read

end Bytes

end OwnerCoverage
