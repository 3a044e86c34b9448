/-
# StyleCascade.Selector.Compile — reading selectors with a memory

Selectors are read here by procedures that give no reason why they should end. They take fragments off one text at a
place that goes up, and the argument of a negation or a search goes to `compile`, which first looks among the
selectors that were read before and keeps what it reads. The procedures are the least solution of their own
equations, so where these go round for ever their result is `none`.

The memory records every call, for the sake of what is said of all calls of a run.
-/
import StyleCascade.Selector.Cursor

namespace StyleCascade.Selector

open Text (byteSize)

/-! ## One memory for all calls -/

/-- While a selector is read, the selector of an argument in it is asked for. -/
structure Call where
  selector : List Char
  argument : List Char

/-- The selectors that were read, by their texts, and every call so far, in order. -/
structure Memory where
  known : List (List Char × Selector) := []
  calls : List Call := []

/-- What runs on a memory, and may go on for ever. -/
abbrev Run := StateT Memory Option

/-- Records a call. -/
def record (call : Call) : Run Unit :=
  modify fun memory => { memory with calls := memory.calls ++ [call] }

/-- Remembers the selector of a text. One that was remembered meanwhile stays. -/
def keep (text : List Char) (selector : Selector) : Run Selector :=
  modifyGet fun memory =>
    match memory.known.lookup text with
    | some kept => (kept, memory)
    | none => (selector, { memory with known := (text, selector) :: memory.known })

namespace Source

mutual

/-- The selector of a text, which is read unless it is remembered. -/
def compile (text : Source) : Run Selector := do
  let memory ← get
  match memory.known.lookup text with
  | some selector => return selector
  | none => do
    let selector ← text |>.parse
    keep text selector
partial_fixpoint

/-- Reads a selector. -/
def parse (source : Source) : Run Selector := do
  let (base, start) ← takeBase source
  let (conditions, complete) ← source |>.takeConditions start []
  return {
    source := String.ofList source
    base := String.ofList base
    conditions := Condition.sortByRank conditions
    malformed := source.isEmpty || !complete }
partial_fixpoint

/-- Takes conditions from a place on, behind the ones that were found, up to the first that cannot be read. -/
def takeConditions (source : Source) (index : Nat) (found : List Condition) : Run (List Condition × Bool) :=
  if byteSize source ≤ index then pure (found, true)
  else do
    match ← source |>.takeCondition index with
    | none => return (found, false)
    | some (condition, next) => source |>.takeConditions next (found ++ [condition])
partial_fixpoint

/-- The condition that begins at a place, and the place behind it. -/
def takeCondition (source : Source) (index : Nat) : Run (Option (Condition × Nat)) := do
  match ← takePiece source index with
  | none => return none
  | some (piece, next) => do
    let condition ← source |>.compilePiece piece
    return condition.map fun c => (c, next)
partial_fixpoint

/-- The condition of a piece of a text. -/
def compilePiece (source : Source) (piece : Piece) : Run (Option Condition) :=
  match piece with
  | .plain condition => pure (some condition)
  | .negation argument => source |>.compileNested .not argument
  | .search argument => source |>.compileNested .has argument
partial_fixpoint

/-- The condition of an argument, which together with a call of the other word is one condition. -/
def compileNested (source : Source) (nesting : Nesting) (argument : List Char) : Run (Option Condition) := do
  match ← takeWholeCall nesting.other.word.toList argument with
  | some inner => source |>.compileInner .hasNone inner
  | none => source |>.compileInner nesting.wrap argument
partial_fixpoint

/-- The condition on the selector of a text without the white space around it. -/
def compileInner (source : Source) (wrap : Selector → Condition) (text : List Char) : Run (Option Condition) := do
  let trimmed : Source := Text.trim text
  record ⟨source, trimmed⟩
  let inner ← trimmed |>.compile
  return conditionOn? wrap inner
partial_fixpoint

end

end Source

end StyleCascade.Selector
