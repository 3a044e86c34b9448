/-
# StyleCascade.Resolver.Basic — answering requests

A resolver answers for the properties of nodes from the global scope and at most one local scope. It
remembers its answers, and an answer that is remembered is given again as the very same one: every
computed answer carries a serial number, which tells repeated answers from equal ones.
-/
import StyleCascade.Resolver.Memo
import StyleCascade.Scope.Event
import StyleCascade.Scope.Store

namespace StyleCascade

/-- A computed answer. -/
structure Answer where
  /-- The number of answers computed before this one. -/
  serial : Nat
  /-- The properties. -/
  declaration : Declaration

/-- A resolver. -/
structure Resolver where
  /-- The local scope it reads, which need not exist. -/
  scope : Option String
  /-- The largest number of answers it remembers. -/
  capacity : Nat
  /-- The remembered answers. -/
  memo : Memo Answer := {}

/-- The capacity of a resolver unless another is chosen. -/
def Resolver.defaultCapacity : Nat := 4096

namespace Resolver

/-- Forgets every answer. -/
def forget (r : Resolver) : Resolver :=
  { r with memo := {} }

/-- Forgets every answer if an event affects what the resolver reads. -/
def heed (r : Resolver) (event : Event) : Resolver :=
  if event.affects r.scope then r.forget else r

/-- The classes that a request asks about. -/
def requestedBases (base : Option String) (n : Node) : List String :=
  match base with
  | some name => [name]
  | none => n.traits.classes

variable {m : Type → Type} [Monad m]

/-- The properties of a node for a base class, or for all of its classes: the resolver with what it
remembers, and the answer. A new answer gets the number `serial`. -/
def resolve (r : Resolver) (store : Store m) (serial : Nat) (base : Option String) (n : Node) :
    m (Resolver × Answer) :=
  let view := store.view r.scope
  let request : Request := ⟨view.generation, n.key, base⟩
  match r.memo.get? request with
  | some answer => pure (r, answer)
  | none => do
    let declaration ← view.cascade (requestedBases base n) n
    let answer := ⟨serial, declaration⟩
    return ({ r with memo := r.memo.store r.capacity request answer }, answer)

end Resolver

end StyleCascade
