/-
# StyleCascade.Variables.Stack — filling in variables with one stack

`Variables.expand` carries the names being expanded as an argument, and its recursion was accepted because
a measure drops. Here the same reading is written as one procedure over one stack, which every call shares:
a name is pushed before the text of its variable is expanded and popped after it. The procedure gives no
reason why it should end. It is the least solution of its own equations, so where these go round for ever
its result is `none`.

The stack records every push (`Stack.pushes`), for the sake of what is said of all pushes of a call.
-/
import StyleCascade.Variables.Expansion

namespace StyleCascade.Variables

/-! ## One stack for all calls -/

/-- A name being pushed, and the names that are on the stack at that moment, newest first. -/
structure Push where
  name : String
  below : List String

/-- The names being expanded, newest first, and every push so far, in order. -/
structure Stack where
  names : List String := []
  pushes : List Push := []

/-- Puts a name on the stack. -/
def Stack.push (name : String) : StateT Stack Option Unit :=
  modify fun s => ⟨name :: s.names, s.pushes ++ [⟨name, s.names⟩]⟩

/-- Takes the newest name off the stack. -/
def Stack.pop : StateT Stack Option Unit :=
  modify fun s => { s with names := s.names.tail }

/-- The variable that a reference names, if there is one. -/
def named? (vars : Variables) (inside : List Char) : Option Value :=
  if isVariableName (Reference.name inside) then vars.get? (Reference.name inside) else none

mutual

/-- A text with its references replaced. -/
def expandOn (vars : Variables) (text : List Char) : StateT Stack Option (List Char) :=
  match Reference.first? text with
  | none => pure text
  | some (head, inside, tail) => do
    let value ← vars |>.referentOn inside
    let rest ← vars |>.expandOn tail
    return head ++ value.display.toList ++ rest
partial_fixpoint

/-- The value that a reference stands for. -/
def referentOn (vars : Variables) (inside : List Char) : StateT Stack Option Value := do
  match vars.named? inside with
  | none => vars |>.fallbackOn inside
  | some value =>
    let stack ← get
    if Reference.name inside ∈ stack.names then vars |>.fallbackOn inside
    else
      match value with
      | .number n => return .number n
      | .text text =>
        Stack.push (Reference.name inside)
        let expanded ← vars |>.expandOn text.toList
        Stack.pop
        return .text (String.ofList expanded)
partial_fixpoint

/-- The value that a reference's fallback stands for. -/
def fallbackOn (vars : Variables) (inside : List Char) : StateT Stack Option Value :=
  match Reference.fallback? inside with
  | none => pure (.text "")
  | some text => do
    let expanded ← vars |>.expandOn text
    return .text (String.ofList expanded)
partial_fixpoint

end

/-- A value with its references to variables filled in. -/
def substituteOn (vars : Variables) (value : Value) : StateT Stack Option Value :=
  match value with
  | .number n => pure (.number n)
  | .text text =>
    if Text.contains Reference.opening text.toList then
      match Reference.whole? (Text.trim text.toList) with
      | some inside => vars.referentOn inside
      | none => do
        let expanded ← vars.expandOn text.toList
        return .text (String.ofList expanded)
    else pure (.text text)

end StyleCascade.Variables
