/-
# StyleCascade.Scope.Bus — who is told of events

A bus keeps its subscribers in the order in which they subscribed. Publishing an event delivers it to
the subscribers present at that moment, in their order; those that asked for one event only are removed
before the first delivery. Every subscription gets a number of its own, which is never given again. These
are natural numbers; a counter of 64 bits gives the same numbers to the first `2 ^ 64` subscriptions, and
then gives them again.

The bus itself only says who is to be told. What a subscriber does with an event, subscribing and
publishing included, comes after: `Session` runs such subscribers.
-/

namespace StyleCascade

/-- The number of a subscription. -/
structure SubscriptionId where
  /-- How many subscriptions came before, which fits in 64 bits while it is below `2 ^ 64`. -/
  index : Nat
deriving DecidableEq, Repr

/-- A subscription. -/
structure Subscription (α : Type) where
  /-- Its number. -/
  id : SubscriptionId
  /-- It ends with the next event. -/
  once : Bool
  /-- Who is told. -/
  subscriber : α

/-- A bus for subscribers of type `α`. -/
structure Bus (α : Type) where
  /-- The subscriptions in force, in their order. -/
  subscriptions : List (Subscription α) := []
  /-- The number of subscriptions ever made, of which a counter of 64 bits keeps the remainder modulo `2 ^ 64`. -/
  issued : Nat := 0

namespace Bus

variable {α : Type}

instance : Inhabited (Bus α) := ⟨{}⟩

/-- The number the next subscription gets. -/
def nextId (bus : Bus α) : SubscriptionId :=
  ⟨bus.issued⟩

/-- Adds a subscription under `nextId`. -/
def subscribe (bus : Bus α) (once : Bool) (subscriber : α) : Bus α :=
  { subscriptions := bus.subscriptions ++ [⟨bus.nextId, once, subscriber⟩]
    issued := bus.issued + 1 }

/-- A subscription is in force. -/
def has (bus : Bus α) (id : SubscriptionId) : Bool :=
  bus.subscriptions.any fun l => l.id == id

/-- Removes a subscription; one that is gone already is no matter. -/
def unsubscribe (bus : Bus α) (id : SubscriptionId) : Bus α :=
  { bus with subscriptions := bus.subscriptions.filter fun l => l.id != id }

/-- Removes the subscriptions that end with the next event. -/
def afterPublish (bus : Bus α) : Bus α :=
  { bus with subscriptions := bus.subscriptions.filter fun l => !l.once }

/-- Removes every subscription. -/
def clear (bus : Bus α) : Bus α :=
  { bus with subscriptions := [] }

/-- The number of subscriptions in force. -/
def count (bus : Bus α) : Nat :=
  bus.subscriptions.length

end Bus

end StyleCascade
