/-
# StyleCascade.Engine.Operation — what can be done with an engine

`Engine.perform` says what an operation makes of an engine: one that fails changes nothing.

Operations are carried out in steps: names are checked, JSON is read, variables are written, scopes are
replaced, subscribers are told. A step that fails ends the operation, and nothing takes back what earlier
steps have written. `Operation.program` writes the operations out in such steps, on an engine together with
all that its subscribers were ever told.
-/
import StyleCascade.Engine

namespace StyleCascade.Engine

/-! ## Operations -/

/-- What can be done with an engine. -/
inductive Operation where
  | registerGlobal (sheet : Sheet Id)
  | registerGlobalJson (json : Json)
  | registerLocal (name : String) (sheet : Sheet Id)
  | createLocal (name : String) (sheet : Sheet Id)
  | createLocalJson (name : String) (json : Json)
  | setVariable (name : String) (value : Value)
  | setVariables (entries : List (String × Value))
  | createResolver (scope : Option String) (capacity : Nat)
  | dropResolver (id : SubscriptionId)
  | resolve (id : SubscriptionId) (base : Option String) (n : Node)
  | forget (id : SubscriptionId)
  | listen (label : String) (once : Bool)
  | unlisten (id : SubscriptionId)
  | publish (event : Event)
  | clearBus

/-- What a fallible operation made of an engine, or the engine as it was. -/
def orSame {ε : Type} (engine : Engine Id) (outcome : Except ε (Engine Id)) : Engine Id :=
  match outcome with
  | .ok changed => changed
  | .error _ => engine

/-- The engine after an operation. -/
def perform (engine : Engine Id) : Operation → Engine Id
  | .registerGlobal sheet => engine.registerGlobal sheet
  | .registerGlobalJson json => engine.orSame (engine.registerGlobalJson json)
  | .registerLocal name sheet => engine.registerLocal name sheet
  | .createLocal name sheet => engine.createLocal name sheet
  | .createLocalJson name json => engine.orSame (engine.createLocalJson name json)
  | .setVariable name value => engine.orSame (engine.setVariable name value)
  | .setVariables entries => engine.orSame (engine.setVariables entries)
  | .createResolver scope capacity => engine.createResolver scope capacity
  | .dropResolver id => engine.dropResolver id
  | .resolve id base n => (engine.resolve id base n).run.1
  | .forget id => engine.forget id
  | .listen label once => engine.listen label once
  | .unlisten id => engine.unlisten id
  | .publish event => engine.publish event
  | .clearBus => engine.clearBus

/-- The engine after operations, one after the other. -/
def run (engine : Engine Id) (operations : List Operation) : Engine Id :=
  operations.foldl perform engine

/-- The engine with other variables. -/
def withBindings (engine : Engine Id) (bindings : Variables) : Engine Id :=
  { engine with store := { engine.store with bindings := bindings } }

/-! ## Steps -/

/-- An engine, and the events its subscribers were told, in order. -/
structure Scene where
  engine : Engine Id
  told : List (SubscriptionId × Event) := []

/-- Why an operation fails. -/
inductive Refusal where
  | variable (error : VariableError)
  | definition (error : DefinitionError)
deriving DecidableEq

/-- Steps that may fail. What was written before a failure stays written. -/
abbrev Steps (α : Type) : Type :=
  ExceptT Refusal (StateM Scene) α

namespace Steps

/-- Carries out steps: what they give, and what the scene is afterwards. -/
def on {α : Type} (steps : Steps α) (scene : Scene) : Except Refusal α × Scene :=
  StateT.run (ExceptT.run steps) scene

/-- Writes to the engine. -/
def write (change : Engine Id → Engine Id) : Steps Unit :=
  modify fun scene => { scene with engine := change scene.engine }

/-- Tells every subscriber of an event. -/
def publish (event : Event) : Steps Unit :=
  modify fun scene =>
    { engine := scene.engine.publish event
      told := scene.told ++ scene.engine.bus.subscriptions.map fun l => (l.id, event) }

/-- Fails if a name is no variable name. -/
def checkName (name : String) : Steps Unit :=
  if isVariableName name then pure () else throw (.variable (.invalidName name))

/-- Writes a variable, whatever its name is. -/
def writeVariable (name : String) (value : Value) : Steps Unit :=
  write fun engine => engine.withBindings ⟨engine.store.bindings.values.set name value⟩

/-- Reads JSON as a style sheet. -/
def parse (json : Json) : Steps (Sheet Id) :=
  match Sheet.ofJson json with
  | .ok sheet => pure sheet
  | .error error => throw (.definition error)

/-- Replaces the global rules and publishes the change. -/
def registerGlobal (sheet : Sheet Id) : Steps Unit := do
  write fun engine => { engine with store := engine.store.registerGlobal sheet }
  publish .globalChanged

/-- Appends rules to a local scope and publishes the change. -/
def registerLocal (name : String) (sheet : Sheet Id) : Steps Unit := do
  write fun engine => { engine with store := engine.store.registerLocal name sheet }
  publish (.localChanged name)

/-- Registers a sheet under a name and creates a resolver that reads that scope. -/
def createLocal (name : String) (sheet : Sheet Id) : Steps Unit := do
  registerLocal name sheet
  write fun engine => engine.createResolver (some name) engine.capacity

end Steps

namespace Operation

open Steps

/-- The steps of an operation. -/
def program : Operation → Steps Unit
  | .registerGlobal sheet => Steps.registerGlobal sheet
  | .registerGlobalJson json => do
    let sheet ← parse json
    Steps.registerGlobal sheet
  | .registerLocal name sheet => Steps.registerLocal name sheet
  | .createLocal name sheet => Steps.createLocal name sheet
  | .createLocalJson name json => do
    let sheet ← parse json
    Steps.createLocal name sheet
  | .setVariable name value => do
    checkName name
    writeVariable name value
  | .setVariables entries => do
    entries.forM fun e => checkName e.1
    entries.forM fun e => writeVariable e.1 e.2
  | .publish event => Steps.publish event
  | .createResolver scope capacity => write fun engine => engine.createResolver scope capacity
  | .dropResolver id => write fun engine => engine.dropResolver id
  | .resolve id base n => write fun engine => (engine.resolve id base n).run.1
  | .forget id => write fun engine => engine.forget id
  | .listen label once => write fun engine => engine.listen label once
  | .unlisten id => write fun engine => engine.unlisten id
  | .clearBus => write fun engine => engine.clearBus

end Operation

end StyleCascade.Engine
