/-
# StyleCascade.Scope.Store — global and local scopes

A store holds the rules of the global scope and of any number of local scopes, and the variables that
registrations read. Registering a sheet globally replaces the global rules; registering it under a name
appends its rules to those of that local scope. The rules of a sheet are taken when it is registered,
with the variables as they are then.

A view of a store is what a node is styled from: the global scope, and one local scope if it exists.
-/
import StyleCascade.Cascade.Merge
import StyleCascade.Rule.Extraction
import StyleCascade.Scope.Generation

namespace StyleCascade

/-- The rules of a scope, with the generation of their last change. -/
structure Scope (m : Type → Type) where
  /-- The rules. -/
  table : RuleTable m := {}
  /-- The generation of the last change. -/
  generation : Generation := .initial

/-- Scopes and variables. -/
structure Store (m : Type → Type) where
  /-- The global scope. -/
  globalScope : Scope m := {}
  /-- The local scopes by name, in the order of their first registration. -/
  localScopes : List (String × Scope m) := []
  /-- The variables. -/
  bindings : Variables := {}
  /-- The generation of the last registration. -/
  generation : Generation := .initial

/-- What a node is styled from. -/
structure View (m : Type → Type) where
  /-- The rules of the global scope. -/
  globalTable : RuleTable m
  /-- The rules of the local scope, if it exists. -/
  localTable : Option (RuleTable m)
  /-- The generations of both. -/
  generation : ViewGeneration

variable {m : Type → Type}

namespace Store

instance : Inhabited (Store m) := ⟨{}⟩

/-- Replaces the rules of the global scope by those of a sheet. -/
def registerGlobal (store : Store m) (sheet : Sheet m) : Store m :=
  let generation := store.generation.next
  { store with
    globalScope := ⟨.ofSheet store.bindings sheet, generation⟩
    generation := generation }

/-- Appends the rules of a sheet to a local scope, which is created if it does not exist. -/
def registerLocal (store : Store m) (name : String) (sheet : Sheet m) : Store m :=
  let generation := store.generation.next
  let table := RuleTable.ofSheet store.bindings sheet
  { store with
    localScopes := Keyed.update name
      (fun present => ⟨(present.getD {}).table.append table, generation⟩) store.localScopes
    generation := generation }

/-- A local scope exists. -/
def hasLocal (store : Store m) (name : String) : Bool :=
  (store.localScopes.lookup name).isSome

/-- The names of the local scopes in increasing order. -/
def localNames (store : Store m) : List String :=
  stableSort (fun a b => decide (a ≤ b)) (Keyed.keys store.localScopes)

/-- What registering a sheet under a name gives rise to telling its author. -/
def localWarnings (store : Store m) (name : String) (sheet : Sheet m) : List Warning :=
  sheet.expansionWarnings ++ (if store.hasLocal name then [.repeatedScope name] else [])

/-- Sets a variable for later registrations. -/
def setVariable (store : Store m) (name : String) (value : Value) :
    Except VariableError (Store m) :=
  (store.bindings.set name value).map fun bindings => { store with bindings := bindings }

/-- Sets several variables for later registrations, or none. -/
def setVariables (store : Store m) (entries : List (String × Value)) :
    Except VariableError (Store m) :=
  (store.bindings.setAll entries).map fun bindings => { store with bindings := bindings }

/-- The view of the global scope and a local scope. -/
def view (store : Store m) (scope : Option String) : View m :=
  let found := scope.bind fun name => store.localScopes.lookup name
  { globalTable := store.globalScope.table
    localTable := found.map fun s => s.table
    generation := ⟨store.globalScope.generation, found.map fun s => s.generation⟩ }

end Store

namespace View

/-- The scopes of a view as layers, the global one first. -/
def layers (view : View m) : List (Layer m) :=
  ⟨.globalScope, view.globalTable⟩ :: (view.localTable.map fun table => ⟨.localScope, table⟩).toList

/-- What holds of both tables of a view holds of the table of each layer. -/
theorem forall_mem_layers {view : View m} {p : RuleTable m → Prop} (hglobal : p view.globalTable)
    (hlocal : ∀ table, view.localTable = some table → p table) :
    ∀ layer ∈ view.layers, p layer.table := by
  intro layer hlayer
  unfold layers at hlayer
  rcases List.mem_cons.mp hlayer with rfl | hlayer
  · exact hglobal
  · rw [Option.mem_toList, Option.map_eq_some_iff] at hlayer
    obtain ⟨table, htable, rfl⟩ := hlayer
    exact hlocal table htable

/-- The properties of a node under the given base classes. -/
def cascade [Monad m] (view : View m) (bases : List String) (n : Node) : m Declaration :=
  Layer.cascade view.layers bases n

end View

end StyleCascade
