/-
# StyleCascade.Text.Search — finding one text in another

The three tests of attribute conditions (starts with, ends with, contains) and the cut of a text at
the first occurrence of a mark. Texts are lists of characters. The empty text stands at the start,
at the end and inside of every text.
-/

namespace StyleCascade.Text

/-- The text `cs` contains `needle`. -/
def contains (needle : List Char) : List Char → Bool
  | [] => needle.isEmpty
  | c :: cs => needle.isPrefixOf (c :: cs) || contains needle cs

/-- What follows a mark at the start of a text. -/
def dropMark? (mark cs : List Char) : Option (List Char) :=
  if mark.isPrefixOf cs then some (cs.drop mark.length) else none

/-- The text before the first occurrence of a mark, and the text after it. -/
def cutAt? (mark : List Char) : List Char → Option (List Char × List Char)
  | [] => if mark.isEmpty then some ([], []) else none
  | c :: cs =>
    if mark.isPrefixOf (c :: cs) then some ([], (c :: cs).drop mark.length)
    else (cutAt? mark cs).map fun (before, after) => (c :: before, after)

/-- Containing a text is having it as an infix. -/
theorem contains_iff_isInfix {needle cs : List Char} : contains needle cs = true ↔ needle <:+: cs := by
  induction cs with
  | nil => simp [contains]
  | cons c cs ih => simp [contains, ih, List.infix_cons_iff]

/-- A text has a mark at its start exactly when it is the mark and then what follows it. -/
theorem dropMark?_eq_some_iff {mark cs rest : List Char} :
    dropMark? mark cs = some rest ↔ cs = mark ++ rest := by
  simp only [dropMark?]
  constructor
  · intro h
    split at h
    · rename_i hp
      obtain ⟨tail, rfl⟩ := List.isPrefixOf_iff_prefix.mp hp
      simpa using h
    · simp at h
  · rintro rfl
    simp

/-- A text is cut at the first of the places where the mark stands. -/
theorem cutAt?_eq_some_iff {mark cs before after : List Char} :
    cutAt? mark cs = some (before, after) ↔
      cs = before ++ mark ++ after ∧
        ∀ other rest, cs = other ++ mark ++ rest → before.length ≤ other.length := by
  induction cs generalizing before with
  | nil =>
      rw [cutAt?]
      split
      · rename_i hmark
        obtain rfl := List.isEmpty_iff.mp hmark
        simp +contextual
      · rename_i hmark
        rw [List.isEmpty_iff] at hmark
        simp [hmark]
  | cons c cs ih =>
      rw [cutAt?]
      split
      · -- the mark stands at the start, and nothing is before the start
        rename_i hmark
        obtain ⟨rest, hrest⟩ := List.isPrefixOf_iff_prefix.mp hmark
        rw [← hrest, List.drop_left]
        constructor
        · intro h
          obtain ⟨rfl, rfl⟩ := Prod.mk.inj (Option.some.inj h)
          exact ⟨rfl, fun _ _ _ => Nat.zero_le _⟩
        · rintro ⟨hparts, hfirst⟩
          obtain rfl := List.eq_nil_of_length_eq_zero (Nat.le_zero.mp (hfirst [] rest rfl))
          rw [List.append_cancel_left hparts]
      · rename_i hmark
        have hnone : ∀ {rest : List Char}, c :: cs ≠ mark ++ rest := fun h =>
          hmark (List.isPrefixOf_iff_prefix.mpr ⟨_, h.symm⟩)
        constructor
        · intro h
          obtain ⟨⟨less, _⟩, hless, heq⟩ := Option.map_eq_some_iff.mp h
          obtain ⟨rfl, rfl⟩ := Prod.mk.inj heq
          obtain ⟨hcs, hfirst⟩ := ih.mp hless
          refine ⟨by rw [hcs]; rfl, fun other rest hother => ?_⟩
          cases other with
          | nil => exact absurd hother hnone
          | cons d other =>
              rw [List.cons_append, List.cons_append, List.cons.injEq] at hother
              exact Nat.succ_le_succ (hfirst other rest hother.2)
        · rintro ⟨hparts, hfirst⟩
          cases before with
          | nil => exact absurd hparts hnone
          | cons d before =>
              rw [List.cons_append, List.cons_append, List.cons.injEq] at hparts
              obtain ⟨rfl, hcs⟩ := hparts
              have hless := ih.mpr ⟨hcs, fun other rest hother => by
                have := hfirst (c :: other) rest (by rw [hother]; rfl)
                exact Nat.le_of_succ_le_succ this⟩
              rw [hless]
              rfl

/-- A cut gives back the text: what stands before the mark, the mark, and what stands after. -/
theorem eq_of_cutAt?_eq_some {mark cs before after : List Char}
    (h : cutAt? mark cs = some (before, after)) : cs = before ++ mark ++ after :=
  (cutAt?_eq_some_iff.mp h).1

/-- Before a mark of one character the character does not stand. -/
theorem cutAt?_singleton_eq_some_iff {c : Char} {cs before after : List Char} :
    cutAt? [c] cs = some (before, after) ↔ cs = before ++ c :: after ∧ c ∉ before := by
  have hsame : ∀ head rest : List Char, head ++ [c] ++ rest = head ++ c :: rest := fun _ _ =>
    List.append_assoc ..
  rw [cutAt?_eq_some_iff, hsame]
  constructor
  · rintro ⟨hcs, hfirst⟩
    refine ⟨hcs, fun hmem => ?_⟩
    obtain ⟨head, tail, rfl⟩ := List.append_of_mem hmem
    have hle := hfirst head (tail ++ c :: after) (by rw [hcs, hsame, List.append_assoc]; rfl)
    rw [List.length_append, List.length_cons] at hle
    omega
  · rintro ⟨rfl, hbefore⟩
    refine ⟨rfl, fun other rest hother => ?_⟩
    rw [hsame] at hother
    rcases List.append_eq_append_iff.mp hother with ⟨more, rfl, _⟩ | ⟨more, rfl, hmore⟩
    · rw [List.length_append]
      omega
    · -- what is before the mark goes on after the other place only if it does so with the character
      cases more with
      | nil => exact Nat.le_of_eq (by rw [List.append_nil])
      | cons d more =>
          obtain ⟨rfl, -⟩ := List.cons.inj hmore
          exact absurd (List.mem_append_right _ List.mem_cons_self) hbefore

end StyleCascade.Text
