/-
# StyleCascade.Engine — a store with its resolvers

An engine ties a store to a bus and to resolvers. Every registration publishes an event; resolvers
subscribe when they are created, forget their answers when an event affects them, and unsubscribe when
they are dropped. Others may listen too; an engine reports which of them received an event.

A resolver goes by the number of its subscription, so clearing the bus leaves resolvers in place: they
go on answering and only get no more events.
-/
import StyleCascade.Resolver.Basic
import StyleCascade.Scope.Bus
import StyleCascade.Sheet.OfJson

namespace StyleCascade

/-- Who listens to an engine's events. -/
inductive Subscriber where
  /-- The resolver that goes by the number of this subscription. -/
  | resolver
  /-- Someone with a label. -/
  | observer (label : String)
deriving DecidableEq

/-- A store with its resolvers. -/
structure Engine (m : Type → Type) where
  /-- The scopes and variables. -/
  store : Store m := {}
  /-- The subscriptions to events. -/
  bus : Bus Subscriber := {}
  /-- The resolvers by the numbers of their subscriptions. -/
  resolvers : List (SubscriptionId × Resolver) := []
  /-- The capacity of resolvers for which none is given. -/
  capacity : Nat := Resolver.defaultCapacity
  /-- The number of answers computed so far. -/
  computed : Nat := 0

namespace Engine

variable {m : Type → Type}

instance : Inhabited (Engine m) := ⟨{}⟩

/-! ## Events -/

/-- The labels of the observers that an event published now reaches, in order. -/
def observers (engine : Engine m) : List String :=
  engine.bus.subscriptions.filterMap fun l =>
    match l.subscriber with
    | .resolver => none
    | .observer label => some label

/-- A resolver heeds an event if it is subscribed. -/
def heed (engine : Engine m) (event : Event) (entry : SubscriptionId × Resolver) :
    SubscriptionId × Resolver :=
  if engine.bus.has entry.1 then (entry.1, entry.2.heed event) else entry

/-- Publishes an event: resolvers that are subscribed heed it, and subscriptions to one event end. -/
def publish (engine : Engine m) (event : Event) : Engine m :=
  { engine with
    bus := engine.bus.afterPublish
    resolvers := engine.resolvers.map (engine.heed event) }

/-- Subscribes an observer under the next number. -/
def listen (engine : Engine m) (label : String) (once : Bool) : Engine m :=
  { engine with bus := engine.bus.subscribe once (.observer label) }

/-- Ends a subscription. -/
def unlisten (engine : Engine m) (id : SubscriptionId) : Engine m :=
  { engine with bus := engine.bus.unsubscribe id }

/-- Ends every subscription. -/
def clearBus (engine : Engine m) : Engine m :=
  { engine with bus := engine.bus.clear }

/-! ## Registrations -/

/-- Replaces the global rules by those of a sheet and publishes the change. -/
def registerGlobal (engine : Engine m) (sheet : Sheet m) : Engine m :=
  { engine with store := engine.store.registerGlobal sheet }.publish .globalChanged

/-- Appends the rules of a sheet to a local scope and publishes the change. -/
def registerLocal (engine : Engine m) (name : String) (sheet : Sheet m) : Engine m :=
  { engine with store := engine.store.registerLocal name sheet }.publish (.localChanged name)

/-- Registers a JSON sheet globally. -/
def registerGlobalJson (engine : Engine m) (json : Json) : Except DefinitionError (Engine m) :=
  (Sheet.ofJson json).map engine.registerGlobal

/-- Sets a variable for later registrations. -/
def setVariable (engine : Engine m) (name : String) (value : Value) :
    Except VariableError (Engine m) :=
  (engine.store.setVariable name value).map fun store => { engine with store := store }

/-- Sets several variables for later registrations, or none. -/
def setVariables (engine : Engine m) (entries : List (String × Value)) :
    Except VariableError (Engine m) :=
  (engine.store.setVariables entries).map fun store => { engine with store := store }

/-! ## Resolvers -/

/-- The resolver that goes by a number. -/
def resolver? (engine : Engine m) (id : SubscriptionId) : Option Resolver :=
  engine.resolvers.lookup id

/-- Creates a resolver under the next number, reading a local scope that need not exist. -/
def createResolver (engine : Engine m) (scope : Option String) (capacity : Nat) : Engine m :=
  { engine with
    bus := engine.bus.subscribe false .resolver
    resolvers := engine.resolvers ++ [(engine.bus.nextId, { scope := scope, capacity := capacity })] }

/-- Registers a sheet under a name and creates a resolver that reads that scope. -/
def createLocal (engine : Engine m) (name : String) (sheet : Sheet m) : Engine m :=
  (engine.registerLocal name sheet).createResolver (some name) engine.capacity

/-- Registers a JSON sheet under a name and creates a resolver that reads that scope. -/
def createLocalJson (engine : Engine m) (name : String) (json : Json) :
    Except DefinitionError (Engine m) :=
  (Sheet.ofJson json).map (engine.createLocal name)

/-- Drops a resolver and ends its subscription. -/
def dropResolver (engine : Engine m) (id : SubscriptionId) : Engine m :=
  { engine with
    bus := engine.bus.unsubscribe id
    resolvers := engine.resolvers.filter fun e => e.1 != id }

/-- The engine with a resolver in a new state. -/
def putResolver (engine : Engine m) (id : SubscriptionId) (resolver : Resolver) : Engine m :=
  { engine with
    resolvers := engine.resolvers.map fun e => if e.1 = id then (id, resolver) else e }

/-- A resolver forgets every answer. -/
def forget (engine : Engine m) (id : SubscriptionId) : Engine m :=
  match engine.resolver? id with
  | none => engine
  | some resolver => engine.putResolver id resolver.forget

/-- Asks a resolver for the properties of a node, for a base class or for all classes of the node.
There is no answer if no resolver goes by the number. -/
def resolve [Monad m] (engine : Engine m) (id : SubscriptionId) (base : Option String) (n : Node) :
    m (Engine m × Option Answer) :=
  match engine.resolver? id with
  | none => pure (engine, none)
  | some resolver => do
    let (resolver, answer) ← resolver.resolve engine.store engine.computed base n
    let computed := max engine.computed (answer.serial + 1)
    return ({ engine with computed := computed }.putResolver id resolver, some answer)

end Engine

end StyleCascade
