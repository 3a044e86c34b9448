/-
# StyleCascade.Sheet.OfJson — style sheets from JSON

The static part of a style sheet can be written as JSON. Strings and numbers become property values
and objects nested sheets; truth values are kept as their text, and members that are null are left
out. Arrays have no place in a style sheet, and the sheet itself must be an object. Members are read
in order and the first fault is reported.
-/
import StyleCascade.Json
import StyleCascade.Sheet.Basic

namespace StyleCascade

variable {m : Type → Type}

/-- Why a JSON value is no style sheet. -/
inductive DefinitionError where
  /-- The value is no object. -/
  | notAnObject
  /-- A member is an array. -/
  | arrayUnder (key : String)
deriving DecidableEq, Repr

/-- The wording of a fault in a JSON style sheet. -/
def DefinitionError.message : DefinitionError → String
  | notAnObject => "style definition must be a JSON object"
  | arrayUnder key => "arrays are not valid style values (key `" ++ key ++ "`)"

mutual

/-- The content of a member, or nothing for null. -/
def Style.ofJson (key : String) : Json → Except DefinitionError (Option (Style m))
  | .null => .ok none
  | .bool value => .ok (some (.value (.text (if value then "true" else "false"))))
  | .number value => .ok (some (.value (.number value)))
  | .string value => .ok (some (.value (.text value)))
  | .array _ => .error (.arrayUnder key)
  | .object members =>
    match Sheet.entriesOfJson members with
    | .error e => .error e
    | .ok entries => .ok (some (.nested (Keyed.ofList entries)))
termination_by structural json => json

/-- The entries of an object's members in order. -/
def Sheet.entriesOfJson : List (String × Json) → Except DefinitionError (List (String × Style m))
  | [] => .ok []
  | (key, json) :: rest =>
    match Style.ofJson key json with
    | .error e => .error e
    | .ok found =>
      match Sheet.entriesOfJson rest with
      | .error e => .error e
      | .ok entries => .ok ((found.map fun style => (key, style)).toList ++ entries)
termination_by structural members => members

end

/-- The style sheet of a JSON value. -/
def Sheet.ofJson : Json → Except DefinitionError (Sheet m)
  | .object members => (Sheet.entriesOfJson members).map Keyed.ofList
  | _ => .error .notAnObject

end StyleCascade
