import OwnerCoverage.Text.Quoted

/-!
# Records

A record is written on one line: its fields in order between braces, with commas between them. A
field is its quoted name, a colon and its value, which is already written.
-/

namespace OwnerCoverage

namespace Text

/-- A member of a record, whose value is written already. -/
def recordField (name value : String) : String := quoted name ++ ":" ++ value

/-- A record of fields, each with a name and a written value. -/
def record (fields : List (String × String)) : String :=
  "\x7b" ++ ",".intercalate (fields.map fun (name, value) => recordField name value) ++ "\x7d"

end Text

end OwnerCoverage
