/-
# StyleCascade.Sheet.Key — reading the keys of a sheet

A key is text in which some characters stand at top level: outside of quotes and of round and square
brackets. Here the two kinds of bracket are only counted, not matched, and a closing bracket too many
is ignored. Quotes and brackets themselves are never at top level.

Three things are read off the top level of a key: whether it refers to the enclosing key by `&`, the
key with that reference filled in, and the descendant segments between white space.
-/
import StyleCascade.Selector.Bracket
import StyleCascade.Text.Space

namespace StyleCascade.Key

/-- What surrounds a place in a key: how many brackets are open, and which quote is. -/
structure Surround where
  /-- The number of brackets that are open. -/
  depth : Nat := 0
  /-- The quote that is open, if any. -/
  quote : Option Char := none
deriving DecidableEq

namespace Surround

/-- A character in these surroundings stands at top level. -/
def isTop (s : Surround) (c : Char) : Bool :=
  s.quote.isNone && s.depth == 0 && !Selector.isQuote c && (Selector.closerOf? c).isNone &&
    !Selector.isCloser c

/-- What surrounds the place after a character. -/
def after (s : Surround) (c : Char) : Surround :=
  match s.quote with
  | some q => if c = q then { s with quote := none } else s
  | none =>
    if Selector.isQuote c then { s with quote := some c }
    else if (Selector.closerOf? c).isSome then { s with depth := s.depth + 1 }
    else if Selector.isCloser c then { s with depth := s.depth - 1 }
    else s

end Surround

/-- The characters of a text, each with whether it stands at top level. -/
def marked (s : Surround) : List Char → List (Char × Bool)
  | [] => []
  | c :: cs => (c, s.isTop c) :: marked (s.after c) cs

/-- Quotes and brackets are closed at the end of a key. -/
def isClosed (cs : List Char) : Bool :=
  cs.foldl Surround.after {} == {}

/-- A marked character is a reference to the enclosing key. -/
def isReference (mark : Char × Bool) : Bool :=
  mark.2 && mark.1 == '&'

/-- A marked character separates descendant segments. -/
def isGap (mark : Char × Bool) : Bool :=
  mark.2 && Text.isSpace mark.1

/-- A key refers to the enclosing key. -/
def hasReference (cs : List Char) : Bool :=
  (marked {} cs).any isReference

/-- A key with the enclosing key in the place of every reference to it. -/
def fillReferences (enclosing cs : List Char) : List Char :=
  (marked {} cs).flatMap fun mark => if isReference mark then enclosing else [mark.1]

/-- The runs of marked characters between gaps; `word` is the part of the first run already read. -/
def runs (word : List Char) : List (Char × Bool) → List (List Char)
  | [] => if word = [] then [] else [word]
  | mark :: rest =>
    if isGap mark then
      if word = [] then runs [] rest else word :: runs [] rest
    else runs (word ++ [mark.1]) rest

/-- The descendant segments of a key. -/
def segments (cs : List Char) : List (List Char) :=
  runs [] (marked {} cs)

/-- Marking loses no character. -/
theorem map_fst_marked (s : Surround) (cs : List Char) : (marked s cs).map (·.1) = cs := by
  induction cs generalizing s with
  | nil => rfl
  | cons c cs ih => simp [marked, ih]

/-- Marking a joined text marks the second part in the surroundings that the first one leaves. -/
theorem marked_append (s : Surround) (cs ds : List Char) :
    marked s (cs ++ ds) = marked s cs ++ marked (cs.foldl Surround.after s) ds := by
  induction cs generalizing s with
  | nil => rfl
  | cons c cs ih => simp [marked, ih]

end StyleCascade.Key
