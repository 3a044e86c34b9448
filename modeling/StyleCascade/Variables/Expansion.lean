/-
# StyleCascade.Variables.Expansion — filling in variables

A value may refer to variables by `var(--name)` or `var(--name, fallback)`. A value that is exactly
one reference takes the variable's value as it is, so a number stays a number. Every other text has
each reference replaced by the text of its value, and is otherwise left alone; so is a reference that
is never closed, with all that follows it.

A reference to a name that is not set, or is no variable name, gives its fallback, or the empty text
without one. The same goes for a reference to a name that is being expanded already. That is why
expansion ends: below a variable the names being expanded grow within the names that are set, and
elsewhere the text gets shorter.
-/
import StyleCascade.Text.Search
import StyleCascade.Text.Space
import StyleCascade.Variables.Basic

namespace StyleCascade

/-! ## References in a text -/

namespace Reference

/-- The characters with which a reference starts. -/
def opening : List Char := ['v', 'a', 'r', '(']

/-- Splits a text at the bracket that closes the bracket opened before it; `inner` counts the round
brackets opened since. -/
def splitClosing? (inner : Nat) : List Char → Option (List Char × List Char)
  | [] => none
  | c :: cs =>
    let further (inner : Nat) := (splitClosing? inner cs).map fun (inside, rest) => (c :: inside, rest)
    if c = '(' then further (inner + 1)
    else if c = ')' then
      match inner with
      | 0 => some ([], cs)
      | inner + 1 => further inner
    else further inner

/-- Splits a text at the first comma outside of round brackets, of which `depth` are open. A closing
bracket too many is ignored. -/
def splitComma? (depth : Nat) : List Char → Option (List Char × List Char)
  | [] => none
  | c :: cs =>
    let further (depth : Nat) := (splitComma? depth cs).map fun (before, after) => (c :: before, after)
    if c = '(' then further (depth + 1)
    else if c = ')' then further (depth - 1)
    else if c = ',' ∧ depth = 0 then some ([], cs)
    else further depth

/-- The first reference of a text: the text before it, what stands in its brackets, and the text after
it. There is none if the first opening is never closed. -/
def first? (cs : List Char) : Option (List Char × List Char × List Char) :=
  (Text.cutAt? opening cs).bind fun (head, after) =>
    (splitClosing? 0 after).map fun (inside, tail) => (head, inside, tail)

/-- What stands in the brackets of a reference that is the whole text. -/
def whole? (cs : List Char) : Option (List Char) :=
  match (Text.dropMark? opening cs).bind (splitClosing? 0) with
  | some (inside, []) => some inside
  | _ => none

/-- The name that a reference gives. -/
def name (inside : List Char) : String :=
  match splitComma? 0 inside with
  | some (before, _) => String.ofList (Text.trim before)
  | none => String.ofList (Text.trim inside)

/-- The fallback that a reference gives. -/
def fallback? (inside : List Char) : Option (List Char) :=
  (splitComma? 0 inside).map fun (_, after) => Text.trim after

/-- What stands before and after a closing bracket is shorter than the text by the bracket. -/
theorem length_of_splitClosing? {inner : Nat} {cs inside rest : List Char}
    (h : splitClosing? inner cs = some (inside, rest)) :
    inside.length + rest.length + 1 = cs.length := by
  induction cs generalizing inner inside with
  | nil => simp [splitClosing?] at h
  | cons c cs ih =>
    have extend : ∀ {inner : Nat},
        ((splitClosing? inner cs).map fun (inside, rest) => (c :: inside, rest)) =
          some (inside, rest) → inside.length + rest.length + 1 = (c :: cs).length := by
      intro inner hmap
      obtain ⟨⟨less, _⟩, hless, heq⟩ := Option.map_eq_some_iff.mp hmap
      obtain ⟨rfl, rfl⟩ := Prod.mk.inj heq
      have := ih hless
      simp only [List.length_cons]
      omega
    simp only [splitClosing?] at h
    split at h
    · exact extend h
    · split at h
      · split at h
        · obtain ⟨rfl, rfl⟩ := Prod.mk.inj (Option.some.inj h)
          simp
        · exact extend h
      · exact extend h

/-- What stands before and after a comma is shorter than the text by the comma. -/
theorem length_of_splitComma? {depth : Nat} {cs before after : List Char}
    (h : splitComma? depth cs = some (before, after)) :
    before.length + after.length + 1 = cs.length := by
  induction cs generalizing depth before with
  | nil => simp [splitComma?] at h
  | cons c cs ih =>
    have extend : ∀ {depth : Nat},
        ((splitComma? depth cs).map fun (before, after) => (c :: before, after)) =
          some (before, after) → before.length + after.length + 1 = (c :: cs).length := by
      intro depth hmap
      obtain ⟨⟨less, _⟩, hless, heq⟩ := Option.map_eq_some_iff.mp hmap
      obtain ⟨rfl, rfl⟩ := Prod.mk.inj heq
      have := ih hless
      simp only [List.length_cons]
      omega
    simp only [splitComma?] at h
    split at h
    · exact extend h
    · split at h
      · exact extend h
      · split at h
        · obtain ⟨rfl, rfl⟩ := Prod.mk.inj (Option.some.inj h)
          simp
        · exact extend h

/-- What stands in a reference and what follows it are shorter than the text. -/
theorem length_of_first? {cs head inside tail : List Char}
    (h : first? cs = some (head, inside, tail)) :
    inside.length < cs.length ∧ tail.length < cs.length := by
  obtain ⟨⟨before, after⟩, hcut, hmap⟩ := Option.bind_eq_some_iff.mp h
  obtain ⟨⟨i, t⟩, hsplit, heq⟩ := Option.map_eq_some_iff.mp hmap
  simp only [Prod.mk.injEq] at heq
  obtain ⟨rfl, rfl, rfl⟩ := heq
  have hlen := congrArg List.length (Text.eq_of_cutAt?_eq_some hcut)
  have := length_of_splitClosing? hsplit
  simp only [List.length_append] at hlen
  omega

/-- A fallback is shorter than what stands in its reference. -/
theorem length_of_fallback? {inside text : List Char} (h : fallback? inside = some text) :
    text.length < inside.length := by
  obtain ⟨⟨before, after⟩, hsplit, rfl⟩ := Option.map_eq_some_iff.mp h
  have := length_of_splitComma? hsplit
  have := Text.length_trim_le after
  simp only
  omega

end Reference

/-! ## Expansion -/

namespace Variables

/-- The number of variables whose expansion is not under way. -/
def countOutside (vars : Variables) (active : List String) : Nat :=
  vars.toList.countP fun e => decide (e.1 ∉ active)

/-- Starting on a variable that is set and not under way leaves fewer to start on. -/
theorem countOutside_cons_lt {vars : Variables} {active : List String} {name : String} {value : Value}
    (hget : vars.get? name = some value) (hnot : name ∉ active) :
    vars.countOutside (name :: active) < vars.countOutside active := by
  have hmem := Declaration.get?_eq_some_iff.mp hget
  have hsplit := List.append_of_mem hmem
  obtain ⟨before, after, heq⟩ := hsplit
  have hmono : ∀ l : List (String × Value),
      (l.countP fun e => decide (e.1 ∉ name :: active)) ≤ l.countP fun e => decide (e.1 ∉ active) := by
    intro l
    exact List.countP_mono_left fun e _ h => by simp_all
  have hb := hmono before
  have ha := hmono after
  have hskip : ((name, value) :: after).countP (fun e => decide (e.1 ∉ name :: active)) =
      after.countP fun e => decide (e.1 ∉ name :: active) :=
    List.countP_cons_of_neg (by simp)
  have hcount : ((name, value) :: after).countP (fun e => decide (e.1 ∉ active)) =
      after.countP (fun e => decide (e.1 ∉ active)) + 1 :=
    List.countP_cons_of_pos (by simpa using hnot)
  simp only [countOutside, toList, Declaration.toList, heq, List.countP_append, hskip, hcount]
  omega

mutual

/-- A text with its references replaced, while the variables in `active` are being expanded. -/
def expand (vars : Variables) (active : List String) (text : List Char) : List Char :=
  match _h : Reference.first? text with
  | none => text
  | some (head, inside, tail) =>
    head ++ (vars.referent active inside).display.toList ++ vars.expand active tail
termination_by (vars.countOutside active, 2 * text.length)
decreasing_by
  · have := Reference.length_of_first? _h
    exact .right _ (by omega)
  · have := Reference.length_of_first? _h
    exact .right _ (by omega)

/-- The value that a reference stands for. -/
def referent (vars : Variables) (active : List String) (inside : List Char) : Value :=
  let name := Reference.name inside
  match _h : if isVariableName name then vars.get? name else none with
  | some (.number n) => if name ∈ active then vars.fallback active inside else .number n
  | some (.text text) =>
    if _hn : name ∈ active then vars.fallback active inside
    else .text (String.ofList (vars.expand (name :: active) text.toList))
  | none => vars.fallback active inside
termination_by (vars.countOutside active, 2 * inside.length + 1)
decreasing_by
  · exact .right _ (by omega)
  · exact .right _ (by omega)
  · split at _h
    · exact .left _ _ (countOutside_cons_lt _h _hn)
    · simp at _h
  · exact .right _ (by omega)

/-- The value that a reference's fallback stands for, which is the empty text without one. -/
def fallback (vars : Variables) (active : List String) (inside : List Char) : Value :=
  match _h : Reference.fallback? inside with
  | none => .text ""
  | some text => .text (String.ofList (vars.expand active text))
termination_by (vars.countOutside active, 2 * inside.length)
decreasing_by
  have := Reference.length_of_fallback? _h
  exact .right _ (by omega)

end

/-- A value with its references to variables filled in. -/
def substitute (vars : Variables) (value : Value) : Value :=
  match value with
  | .number n => .number n
  | .text text =>
    if Text.contains Reference.opening text.toList then
      match Reference.whole? (Text.trim text.toList) with
      | some inside => vars.referent [] inside
      | none => .text (String.ofList (vars.expand [] text.toList))
    else .text text

end Variables

end StyleCascade
