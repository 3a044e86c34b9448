/-
# StyleCascade.Sheet.Expansion — the plain nested form of a sheet

Two rewrites bring a sheet into the form from which rules are taken.

- An entry whose key refers to the enclosing key by `&` gets that key filled in and moves up: it goes
  next to the entry it was written in, behind it. Inside the root there is no enclosing key; such an
  entry stays as it is, with a warning.
- A key of several descendant segments becomes nested sheets, one for each segment, and these are
  merged into what stands under the first segment already.

`Sheet.resolve` does the first, level by level, and gives the entries of a level in the order in which
they are to be placed. `Sheet.place` does the second for one entry. Property values take part in
neither: their keys are property names.
-/
import StyleCascade.Sheet.Basic
import StyleCascade.Sheet.Key
import StyleCascade.Warning

namespace StyleCascade

variable {m : Type → Type}

/-- A key with references to the enclosing key filled in, and whether its entry moves up. -/
def Key.resolve (enclosing : Option String) (key : String) : String × Bool :=
  match enclosing with
  | some outer =>
    if Key.hasReference key.toList then
      (String.ofList (Key.fillReferences outer.toList key.toList), true)
    else (key, false)
  | none => (key, false)

/-- Nested sheets for the segments below the first, around the content of the last. -/
def Sheet.nest (segments : List (List Char)) (style : Style m) : Style m :=
  segments.foldr (fun segment inner => .nested [(String.ofList segment, inner)]) style

/-- Places one entry: a property value is written, and anything else is merged under the first segment
of its key. A key without a segment, which is white space only, is kept whole. -/
def Sheet.place (sheet : Sheet m) (key : String) (style : Style m) : Sheet m :=
  if style.isValue then Keyed.set key style sheet
  else
    match Key.segments key.toList with
    | [] => sheet.mergeAt key style
    | first :: rest => sheet.mergeAt (String.ofList first) (Sheet.nest rest style)

/-- Places entries one after the other in an empty sheet. -/
def Sheet.ofPlaced (entries : List (String × Style m)) : Sheet m :=
  entries.foldl (fun sheet e => Sheet.place sheet e.1 e.2) []

/-- The entries of one level, in the order in which they are to be placed: those that stay, and those
that move up to the level above. -/
structure Level (m : Type → Type) where
  /-- The entries that stay on the level. -/
  stay : List (String × Style m)
  /-- The entries that move up. -/
  rise : List (String × Style m)

/-- A level with entries put in front of those that stay, or of those that move up. -/
def Level.push (entries : List (String × Style m)) (rises : Bool) (level : Level m) : Level m :=
  if rises then { level with rise := entries ++ level.rise }
  else { level with stay := entries ++ level.stay }

mutual

/-- Resolves the references inside the content of a key. What rises out of a nested sheet follows the
key's own entry. -/
def Style.resolve (key : String) : Style m → List (String × Style m)
  | .nested entries =>
    let level := Sheet.resolve (some key) entries
    (key, .nested (Sheet.ofPlaced level.stay)) :: level.rise
  | .value v => [(key, .value v)]
  | .declaration d => [(key, .declaration d)]
  | .dynamic f => [(key, .dynamic f)]
termination_by structural style => style

/-- Resolves the references of one level below an enclosing key. -/
def Sheet.resolve (enclosing : Option String) : List (String × Style m) → Level m
  | [] => ⟨[], []⟩
  | (key, style) :: rest =>
    let level := Sheet.resolve enclosing rest
    if style.isValue then level.push [(key, style)] false
    else
      let (resolved, rises) := Key.resolve enclosing key
      level.push (style.resolve resolved) rises
termination_by structural entries => entries

end

/-- The plain nested form of a sheet. -/
def Sheet.expand (sheet : Sheet m) : Sheet m :=
  let level := Sheet.resolve none sheet
  Sheet.ofPlaced (level.stay ++ level.rise)

/-- The warnings that expanding a sheet gives rise to, in order. -/
def Sheet.expansionWarnings (sheet : Sheet m) : List Warning :=
  (sheet.filter fun e => !e.2.isValue && Key.hasReference e.1.toList).map fun e =>
    .unenclosedReference e.1

end StyleCascade
