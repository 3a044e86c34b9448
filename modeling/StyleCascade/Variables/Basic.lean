/-
# StyleCascade.Variables.Basic — custom properties

Variables are named values whose names start with two dashes. Setting a variable under any other name
fails and changes nothing; setting several at once sets either all of them or none.
-/
import StyleCascade.Declaration

namespace StyleCascade

/-- The characters with which every variable name starts. -/
def variableMark : List Char := ['-', '-']

/-- A text starts as a variable name does. -/
def isVariableName (name : String) : Bool :=
  variableMark.isPrefixOf name.toList

/-- Why variables were not set. -/
inductive VariableError where
  /-- The name does not start with two dashes. -/
  | invalidName (name : String)
deriving DecidableEq, Repr

/-- The wording of a refused variable. -/
def VariableError.message : VariableError → String
  | invalidName name => "custom property `" ++ name ++ "` must start with `--`"

/-- Variables by name. -/
structure Variables where
  /-- The values, in name order. -/
  values : Declaration := .empty
deriving DecidableEq

namespace Variables

instance : Inhabited Variables := ⟨{}⟩

/-- The value of a variable. -/
def get? (vars : Variables) (name : String) : Option Value :=
  vars.values.get? name

/-- The variables in name order. -/
def toList (vars : Variables) : List (String × Value) :=
  vars.values.toList

/-- The number of variables. -/
def size (vars : Variables) : Nat :=
  vars.values.size

/-- No variable is set. -/
def isEmpty (vars : Variables) : Bool :=
  vars.values.isEmpty

/-- Sets a variable. -/
def set (vars : Variables) (name : String) (value : Value) : Except VariableError Variables :=
  if isVariableName name then .ok { values := vars.values.set name value }
  else .error (.invalidName name)

/-- Sets several variables, later ones replacing earlier ones of the same name. One name that is no
variable name refuses them all; the first such name is reported. -/
def setAll (vars : Variables) (entries : List (String × Value)) : Except VariableError Variables :=
  match entries.find? fun e => !isVariableName e.1 with
  | some e => .error (.invalidName e.1)
  | none => .ok { values := vars.values.setAll entries }

end Variables

end StyleCascade
