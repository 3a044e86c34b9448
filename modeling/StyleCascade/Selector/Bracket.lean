/-
# StyleCascade.Selector.Bracket — bracketed groups

A group starts after an opening bracket and ends at the bracket that closes it. Inside, round and
square brackets nest and must match in kind, and text between quotes is opaque: neither brackets nor
the other quote count there.
-/

namespace StyleCascade.Selector

/-- A character opens and closes quoted text. -/
def isQuote (c : Char) : Bool :=
  c == '"' || c == '\''

/-- The bracket that closes an opening one. -/
def closerOf? : Char → Option Char
  | '(' => some ')'
  | '[' => some ']'
  | _ => none

/-- A character closes a group. -/
def isCloser (c : Char) : Bool :=
  c == ')' || c == ']'

/-- Puts a character in front of the inside of a group. -/
def keepInside (c : Char) : Option (List Char × List Char) → Option (List Char × List Char) :=
  Option.map fun (inside, rest) => (c :: inside, rest)

/-- Splits the text after an opening bracket into the inside of its group and what follows the
closing bracket. `closer` ends the innermost open group and `outer` the groups around it, innermost
first; `quote` is the quote that is open, if any. -/
def splitGroup? (closer : Char) (outer : List Char) (quote : Option Char) :
    List Char → Option (List Char × List Char)
  | [] => none
  | c :: cs =>
    match quote with
    | some q => keepInside c (splitGroup? closer outer (if c = q then none else some q) cs)
    | none =>
      if isQuote c then keepInside c (splitGroup? closer outer (some c) cs)
      else
        match closerOf? c with
        | some inner => keepInside c (splitGroup? inner (closer :: outer) none cs)
        | none =>
          if isCloser c then
            if c = closer then
              match outer with
              | [] => some ([], cs)
              | next :: further => keepInside c (splitGroup? next further none cs)
            else none
          else keepInside c (splitGroup? closer outer none cs)

/-- A group with a character in front of its inside comes from the group without it. -/
theorem keepInside_eq_some_iff {c : Char} {found : Option (List Char × List Char)}
    {inside rest : List Char} :
    keepInside c found = some (inside, rest) ↔
      ∃ less, found = some (less, rest) ∧ inside = c :: less := by
  simp only [keepInside, Option.map_eq_some_iff, Prod.exists, Prod.mk.injEq]
  constructor
  · rintro ⟨less, _, h, rfl, rfl⟩
    exact ⟨less, h, rfl⟩
  · rintro ⟨less, h, rfl⟩
    exact ⟨less, rest, h, rfl, rfl⟩

/-- A group's inside, a closing bracket and what follows make up the text. -/
theorem eq_append_of_splitGroup? {closer : Char} {outer : List Char} {quote : Option Char}
    {cs inside rest : List Char} (h : splitGroup? closer outer quote cs = some (inside, rest)) :
    ∃ last, isCloser last = true ∧ cs = inside ++ last :: rest := by
  induction cs generalizing closer outer quote inside with
  | nil => simp [splitGroup?] at h
  | cons c cs ih =>
    have extend : ∀ {found : Option (List Char × List Char)},
        keepInside c found = some (inside, rest) →
        (∀ less, found = some (less, rest) →
          ∃ last, isCloser last = true ∧ cs = less ++ last :: rest) →
        ∃ last, isCloser last = true ∧ c :: cs = inside ++ last :: rest := by
      intro found hfound hless
      obtain ⟨less, hl, rfl⟩ := keepInside_eq_some_iff.mp hfound
      obtain ⟨last, hlast, rfl⟩ := hless less hl
      exact ⟨last, hlast, rfl⟩
    simp only [splitGroup?] at h
    split at h
    · exact extend h fun _ hl => ih hl
    · split at h
      · exact extend h fun _ hl => ih hl
      · split at h
        · exact extend h fun _ hl => ih hl
        · split at h
          · rename_i hcloser
            split at h
            · split at h
              · obtain ⟨rfl, rfl⟩ := Prod.mk.inj (Option.some.inj h)
                exact ⟨c, hcloser, rfl⟩
              · exact extend h fun _ hl => ih hl
            · simp at h
          · exact extend h fun _ hl => ih hl

/-- A group's inside and what follows it are shorter than the text by the closing bracket. -/
theorem length_of_splitGroup? {closer : Char} {outer : List Char} {quote : Option Char}
    {cs inside rest : List Char} (h : splitGroup? closer outer quote cs = some (inside, rest)) :
    inside.length + rest.length + 1 = cs.length := by
  obtain ⟨last, _, rfl⟩ := eq_append_of_splitGroup? h
  simp only [List.length_append, List.length_cons]
  omega

end StyleCascade.Selector
