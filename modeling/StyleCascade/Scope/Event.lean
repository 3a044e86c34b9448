/-
# StyleCascade.Scope.Event — changes to scopes

An event says that the rules of a scope have changed. A change of the global scope affects everything
computed so far; a change of a local scope affects what was computed in that scope.
-/

namespace StyleCascade

/-- A change to the rules of a scope. -/
inductive Event where
  /-- The rules of the global scope were replaced. -/
  | globalChanged
  /-- A local scope gained rules. -/
  | localChanged (name : String)
deriving DecidableEq, Repr

/-- The event affects what is computed in a local scope, or in none. -/
def Event.affects (event : Event) (scope : Option String) : Bool :=
  match event with
  | globalChanged => true
  | localChanged name => scope == some name

end StyleCascade
