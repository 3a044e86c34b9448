/-
# StyleCascade.Selector.Cursor — taking selectors apart at places in the text

The reader of selectors goes through lists of characters, and what it has still to read is the rest of the list.
Here the same is done on the bytes of one text with a place in it that goes up: a name ends at a place, the bracket
that closes a group stands at a place, and what lies between two places is cut out of the text. The loops over the
bytes are written without a reason why they should end; where one goes on for ever its result is `none`.
-/
import StyleCascade.Selector.Reader
import StyleCascade.Text.Bytes

namespace StyleCascade.Selector

open Text (byteAt? byteSize offset slice?)

/-! ## Loops over bytes -/

/-- A text that is read in place. -/
abbrev Source := List Char

namespace Source

/-- The place at which a name ends that goes on at `index`. -/
def nameEnd (source : Source) (index : Nat) : Option Nat :=
  match byteAt? source index with
  | none => some index
  | some c => if isNameChar c then source |>.nameEnd (index + 1) else some index
partial_fixpoint

/-- The place of the bracket that closes the outermost open group. `stack` has the brackets that close the open
groups, innermost first, and `quote` is the quote that is open, if any. -/
def closingFrom (source : Source) (stack : List Char) (quote : Option Char) (index : Nat) : Option (Option Nat) :=
  match byteAt? source index with
  | none => some none
  | some c =>
    match quote with
    | some q => source |>.closingFrom stack (if c = q then none else some q) (index + 1)
    | none =>
      if isQuote c then source |>.closingFrom stack (some c) (index + 1)
      else
        match closerOf? c with
        | some closer => source |>.closingFrom (closer :: stack) none (index + 1)
        | none =>
          if isCloser c then
            match stack with
            | [] => some none
            | closer :: outer =>
              if c = closer then
                if outer = [] then some (some index) else source |>.closingFrom outer none (index + 1)
              else some none
          else source |>.closingFrom stack none (index + 1)
partial_fixpoint

end Source

open Source

/-- The place of the bracket that closes the one at `opener`. -/
def closing (source : List Char) (opener : Nat) : Option (Option Nat) :=
  match (byteAt? source opener).bind closerOf? with
  | none => some none
  | some closer => closingFrom source [closer] none (opener + 1)

/-! ## Pieces -/

/-- The name that begins at a place, and where it ends. -/
def takeName (source : List Char) (index : Nat) : Option (List Char × Nat) := do
  let stop ← nameEnd source index
  return ((slice? source index stop).getD [], stop)

/-- The base of a selector, and where it ends. -/
def takeBase (source : List Char) : Option (List Char × Nat) :=
  if byteAt? source 0 = some '*' then some (['*'], 1)
  else do
    let (name, stop) ← takeName source 0
    return (if name = [] then ['*'] else name, stop)

/-- The inside of the group that is opened at a place, and the place behind it. -/
def takeGroup (source : List Char) (opener : Nat) : Option (Option (List Char × Nat)) := do
  match ← closing source opener with
  | none => return none
  | some closer => return (slice? source (opener + 1) closer).map fun inside => (inside, closer + 1)

/-- The argument in round brackets that begins at a place, and the place behind it. -/
def takeArgument (source : List Char) (index : Nat) : Option (Option (List Char × Nat)) :=
  if byteAt? source index = some '(' then takeGroup source index else some none

/-- The piece that is made of what stands in brackets, if one can be made of it. -/
def pieceOf (make : List Char → Option Piece) (found : Option (List Char × Nat)) : Option (Piece × Nat) :=
  found.bind fun (inside, next) => (make inside).map fun piece => (piece, next)

/-- The piece of a word that ends at a place, and the place behind the piece. -/
def takeWord (source : List Char) (stop : Nat) (word : String) : Option (Option (Piece × Nat)) :=
  match word with
  | "first-child" => some (some (.plain (.flag .firstChild), stop))
  | "last-child" => some (some (.plain (.flag .lastChild), stop))
  | "only-child" => some (some (.plain (.flag .onlyChild), stop))
  | "empty" => some (some (.plain (.flag .empty), stop))
  | "nth-child" =>
    (takeArgument source stop).map (pieceOf fun argument => (Nth.read? argument).map fun e => .plain (.nth e))
  | "not" => (takeArgument source stop).map (pieceOf fun argument => some (.negation (Text.trim argument)))
  | "has" => (takeArgument source stop).map (pieceOf fun argument => some (.search (Text.trim argument)))
  | _ => some none

/-- The piece that begins at a place, and the place behind it. -/
def takePiece (source : List Char) (index : Nat) : Option (Option (Piece × Nat)) :=
  match byteAt? source index with
  | some '.' => do
    let (name, stop) ← takeName source (index + 1)
    return if name = [] then none else some (.plain (.hasClass (String.ofList name)), stop)
  | some '[' => (takeGroup source index).map (pieceOf fun body => (readAttribute? body).map .plain)
  | some ':' => do
    let (word, stop) ← takeName source (index + 1)
    takeWord source stop (String.ofList word)
  | _ => some none

/-- The argument of a call that is the whole text. -/
def takeWholeCall (name text : List Char) : Option (Option (List Char)) :=
  match Text.dropMark? (':' :: name) text with
  | none => some none
  | some rest =>
    if rest.head? = some '(' then do
      match ← closing text (offset text rest) with
      | none => return none
      | some closer =>
        return if closer + 1 = byteSize text then slice? text (offset text rest + 1) closer else none
    else some none

end StyleCascade.Selector
