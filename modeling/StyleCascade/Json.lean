/-
# StyleCascade.Json — JSON values with ordered members

JSON as style definitions are read from it: the members of an object keep the order in which they
were written, and a number is a binary64 word. An object is built by writing members one after the
other, so a repeated key keeps its first place and takes its last value.
-/
import StyleCascade.Number.Binary
import StyleCascade.Keyed

namespace StyleCascade

/-- A JSON value. -/
inductive Json where
  /-- The null literal. -/
  | null
  /-- A truth value. -/
  | bool (value : Bool)
  /-- A number. -/
  | number (value : Number)
  /-- A string. -/
  | string (value : String)
  /-- An array. -/
  | array (items : List Json)
  /-- An object with its members in order. -/
  | object (members : List (String × Json))

namespace Json

/-- An object built from members written one after the other. -/
def ofMembers (members : List (String × Json)) : Json :=
  object (Keyed.ofList members)

end Json

end StyleCascade
