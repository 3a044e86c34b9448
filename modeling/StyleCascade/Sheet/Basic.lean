/-
# StyleCascade.Sheet.Basic — style sheets

A style sheet is a list of entries in insertion order. An entry gives a key one of four things: a
property value, a flat declaration, a nested sheet, or a dynamic style, which computes a declaration
for a node in some monad `m`.

Sheets are written entry by entry with `Keyed.set`. Merging is the softer way to write: where both
the old and the new content are nested sheets, the new one is merged into the old one, entry by
entry.
-/
import StyleCascade.Keyed
import StyleCascade.Node.Basic

namespace StyleCascade

/-- A style computed for a node from the node's index and the node; it may decline to give one. -/
abbrev DynamicStyle (m : Type → Type) : Type :=
  Nat → Node → m (Option Declaration)

/-- What a style sheet holds under a key. -/
inductive Style (m : Type → Type) where
  /-- A property value. -/
  | value (value : Value)
  /-- A flat declaration. -/
  | declaration (declaration : Declaration)
  /-- A nested sheet. -/
  | nested (entries : List (String × Style m))
  /-- A style computed for each node. -/
  | dynamic (style : DynamicStyle m)

/-- A style sheet: entries in insertion order. -/
abbrev Sheet (m : Type → Type) : Type :=
  List (String × Style m)

variable {m : Type → Type}

/-- The content is a property value of the enclosing level. -/
def Style.isValue : Style m → Bool
  | .value _ => true
  | _ => false

mutual

/-- What becomes of content when other content is merged over it: two nested sheets are merged, and
in every other case the incoming content takes over. -/
def Style.over : (incoming : Style m) → (current : Option (Style m)) → Style m
  | .nested incoming, some (.nested current) => .nested (Sheet.over incoming current)
  | .nested incoming, _ => .nested incoming
  | .value v, _ => .value v
  | .declaration d, _ => .declaration d
  | .dynamic f, _ => .dynamic f
termination_by structural incoming => incoming

/-- Merges the entries of one sheet into another, one after the other. -/
def Sheet.over : (incoming : List (String × Style m)) → (current : List (String × Style m)) →
    List (String × Style m)
  | [], current => current
  | (key, style) :: rest, current => Sheet.over rest (Keyed.update key style.over current)
termination_by structural incoming => incoming

end

/-- Merges one entry into a sheet. -/
def Sheet.mergeAt (sheet : Sheet m) (key : String) (style : Style m) : Sheet m :=
  Keyed.update key style.over sheet

/-- Merges every entry of another sheet into a sheet. -/
def Sheet.merge (sheet other : Sheet m) : Sheet m :=
  Sheet.over other sheet

/-- Merging a sheet is merging its entries one after the other. -/
theorem Sheet.merge_eq_foldl (sheet other : Sheet m) :
    sheet.merge other = other.foldl (fun s e => Sheet.mergeAt s e.1 e.2) sheet := by
  induction other generalizing sheet with
  | nil => rfl
  | cons e rest ih => exact ih _

end StyleCascade
