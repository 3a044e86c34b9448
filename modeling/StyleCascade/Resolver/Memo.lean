/-
# StyleCascade.Resolver.Memo — remembered answers

A memo remembers the answers to requests. A request names the generations that the answer was computed
from, the key of the node, and the base class asked for, or none for all classes of the node.

All answers of a memo are of one generation: storing an answer of another one drops them first. A memo
has a capacity; storing an answer when it is full drops all the others first, and with capacity zero
nothing is ever stored.
-/
import StyleCascade.Node.Key
import StyleCascade.Scope.Generation

namespace StyleCascade

/-- What an answer is remembered under. -/
structure Request where
  /-- The generations that the answer is computed from. -/
  generation : ViewGeneration
  /-- The key of the node. -/
  node : NodeKey
  /-- The base class asked for, or none for all classes of the node. -/
  base : Option String
deriving DecidableEq

/-- Remembered answers of type `α`. -/
structure Memo (α : Type) where
  /-- The generation of every answer. -/
  generation : Option ViewGeneration := none
  /-- The answers by request, newest first. -/
  answers : List (Request × α) := []

namespace Memo

variable {α : Type}

instance : Inhabited (Memo α) := ⟨{}⟩

/-- The answer remembered for a request. -/
def get? (memo : Memo α) (request : Request) : Option α :=
  memo.answers.lookup request

/-- The number of answers. -/
def size (memo : Memo α) : Nat :=
  memo.answers.length

/-- The memo that has room for an answer of a generation: the old answers are dropped if they are of
another generation or fill the memo. -/
def makeRoom (memo : Memo α) (capacity : Nat) (generation : ViewGeneration) : Memo α :=
  if memo.generation = some generation ∧ memo.size < capacity then memo
  else { generation := some generation, answers := [] }

/-- Remembers an answer. -/
def store (memo : Memo α) (capacity : Nat) (request : Request) (answer : α) : Memo α :=
  if capacity = 0 then memo
  else
    let room := memo.makeRoom capacity request.generation
    { room with answers := (request, answer) :: room.answers }

end Memo

end StyleCascade
