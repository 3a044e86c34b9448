/-
# StyleCascade.Proofs.Selector.Group — the grammar of bracketed groups

`Inside` says which texts can stand between an opening bracket and the one that closes it: brackets in
them come in pairs of one kind, and quoted text is passed over. `splitGroup?_eq_some_iff` says that the
reader of groups, which keeps a stack of open brackets and the open quote, finds exactly these texts.
-/
import Mathlib.Data.List.Basic
import StyleCascade.Selector.Bracket

namespace StyleCascade.Selector

/-- A text that can stand inside a group. -/
inductive Inside : List Char → Prop
  | nil : Inside []
  | char {c : Char} {cs : List Char} :
      isQuote c = false → closerOf? c = none → isCloser c = false → Inside cs → Inside (c :: cs)
  | quoted {q : Char} {text cs : List Char} :
      isQuote q = true → q ∉ text → Inside cs → Inside (q :: text ++ q :: cs)
  | group {opener closer : Char} {inner cs : List Char} :
      closerOf? opener = some closer → Inside inner → Inside cs →
      Inside (opener :: inner ++ closer :: cs)

/-! ## Brackets -/

/-- A character with a property that no quote and no bracket has is none of them. -/
theorem plain_of_forall {p : Char → Bool}
    (hp : ['"', '\'', '(', ')', '[', ']'].any p = false) {c : Char} (h : p c = true) :
    isQuote c = false ∧ closerOf? c = none ∧ isCloser c = false := by
  have hne : ∀ d ∈ ['"', '\'', '(', ')', '[', ']'], c ≠ d := by
    rintro d hd rfl
    exact List.any_eq_false.mp hp c hd h
  refine ⟨?_, ?_, ?_⟩
  · unfold isQuote
    rw [beq_false_of_ne (hne '"' (by decide)), beq_false_of_ne (hne '\'' (by decide))]
    rfl
  · unfold closerOf?
    split
    · exact absurd rfl (hne '(' (by decide))
    · exact absurd rfl (hne '[' (by decide))
    · rfl
  · unfold isCloser
    rw [beq_false_of_ne (hne ')' (by decide)), beq_false_of_ne (hne ']' (by decide))]
    rfl

theorem isQuote_of_closerOf? {opener closer : Char} (h : closerOf? opener = some closer) :
    isQuote opener = false := by
  unfold closerOf? at h
  split at h
  · decide
  · decide
  · exact absurd h (by simp)

/-- A closing bracket is no quote and opens nothing. -/
theorem plain_of_isCloser {c : Char} (h : isCloser c = true) :
    isQuote c = false ∧ closerOf? c = none := by
  unfold isCloser at h
  rw [Bool.or_eq_true, beq_iff_eq, beq_iff_eq] at h
  rcases h with rfl | rfl
  · exact ⟨by decide, rfl⟩
  · exact ⟨by decide, rfl⟩

theorem isCloser_of_closerOf? {opener closer : Char} (h : closerOf? opener = some closer) :
    isCloser closer = true := by
  unfold closerOf? at h
  split at h
  · obtain rfl := Option.some.inj h
    decide
  · obtain rfl := Option.some.inj h
    decide
  · exact absurd h (by simp)

/-! ## Every inside is passed over -/

/-- Puts a text in front of the inside of a group. -/
def keepAll (cs : List Char) : Option (List Char × List Char) → Option (List Char × List Char) :=
  Option.map fun (inside, rest) => (cs ++ inside, rest)

theorem keepInside_keepAll (c : Char) (cs : List Char) (found : Option (List Char × List Char)) :
    keepInside c (keepAll cs found) = keepAll (c :: cs) found := by
  unfold keepInside keepAll
  rw [Option.map_map]
  rfl

theorem keepAll_keepAll (cs ds : List Char) (found : Option (List Char × List Char)) :
    keepAll cs (keepAll ds found) = keepAll (cs ++ ds) found := by
  unfold keepAll
  rw [Option.map_map]
  congr 1
  funext pair
  simp

theorem keepInside_eq_keepAll (c : Char) (found : Option (List Char × List Char)) :
    keepInside c found = keepAll [c] found := rfl

variable {closer : Char} {outer : List Char}

theorem splitGroup?_quoted {q : Char} {text : List Char} (h : q ∉ text) (cs : List Char) :
    splitGroup? closer outer (some q) (text ++ q :: cs) =
      keepAll (text ++ [q]) (splitGroup? closer outer none cs) := by
  induction text with
  | nil =>
      rw [List.nil_append, splitGroup?]
      simp only [if_true, List.nil_append]
      exact keepInside_eq_keepAll q _
  | cons c text ih =>
      rw [List.mem_cons, not_or] at h
      rw [List.cons_append, splitGroup?]
      simp only [if_neg (Ne.symm h.1)]
      rw [ih h.2, keepInside_keepAll]
      rfl

theorem splitGroup?_quote {q : Char} (h : isQuote q = true) (cs : List Char) :
    splitGroup? closer outer none (q :: cs) =
      keepInside q (splitGroup? closer outer (some q) cs) := by
  rw [splitGroup?.eq_def]
  simp only [h, if_true]

theorem splitGroup?_plain {c : Char} (hquote : isQuote c = false) (hopen : closerOf? c = none)
    (hclose : isCloser c = false) (cs : List Char) :
    splitGroup? closer outer none (c :: cs) = keepInside c (splitGroup? closer outer none cs) := by
  rw [splitGroup?.eq_def]
  simp only [hquote, Bool.false_eq_true, if_false, hopen, hclose]

theorem splitGroup?_opener {opener inner : Char} (h : closerOf? opener = some inner) (cs : List Char) :
    splitGroup? closer outer none (opener :: cs) =
      keepInside opener (splitGroup? inner (closer :: outer) none cs) := by
  rw [splitGroup?.eq_def]
  simp only [isQuote_of_closerOf? h, Bool.false_eq_true, if_false, h]

theorem splitGroup?_closer_next (h : isCloser closer = true) (next : Char) (cs : List Char) :
    splitGroup? closer (next :: outer) none (closer :: cs) =
      keepInside closer (splitGroup? next outer none cs) := by
  obtain ⟨hquote, hopen⟩ := plain_of_isCloser h
  rw [splitGroup?.eq_def]
  simp only [hquote, Bool.false_eq_true, if_false, hopen, h, if_true]

theorem splitGroup?_closer (h : isCloser closer = true) (cs : List Char) :
    splitGroup? closer [] none (closer :: cs) = some ([], cs) := by
  obtain ⟨hquote, hopen⟩ := plain_of_isCloser h
  rw [splitGroup?.eq_def]
  simp only [hquote, Bool.false_eq_true, if_false, hopen, h, if_true]

/-- An inside is kept as it is, whatever brackets are open around it. -/
theorem splitGroup?_append {inside : List Char} (h : Inside inside) (closer : Char)
    (outer cs : List Char) :
    splitGroup? closer outer none (inside ++ cs) = keepAll inside (splitGroup? closer outer none cs) := by
  induction h generalizing closer outer cs with
  | nil =>
      rw [List.nil_append]
      unfold keepAll
      cases splitGroup? closer outer none cs <;> rfl
  | @char c ds hquote hopen hclose _ ih =>
      rw [List.cons_append, splitGroup?_plain hquote hopen hclose, ih, keepInside_keepAll]
  | @quoted q text ds hquote htext _ ih =>
      have hshape : q :: text ++ q :: ds ++ cs = q :: (text ++ q :: (ds ++ cs)) := by
        simp only [List.cons_append, List.append_assoc]
      rw [hshape, splitGroup?_quote hquote, splitGroup?_quoted htext, ih, keepAll_keepAll,
        keepInside_keepAll]
      congr 1
      simp
  | @group opener inner text ds hopener _ _ ihInner ihRest =>
      -- the inner group is passed over under one more open bracket
      have hshape : opener :: text ++ inner :: ds ++ cs = opener :: (text ++ inner :: (ds ++ cs)) := by
        simp only [List.cons_append, List.append_assoc]
      rw [hshape, splitGroup?_opener hopener, ihInner,
        splitGroup?_closer_next (isCloser_of_closerOf? hopener), ihRest, keepInside_keepAll,
        keepInside_keepAll, keepAll_keepAll]

/-! ## Nothing else is found -/

/-- What is left of the insides of the open groups: to each group but the outermost its inside and the
bracket that closes it, and to the outermost its inside. -/
def Remains (closer : Char) : List Char → List Char → Prop
  | [], inside => Inside inside
  | next :: outer, inside =>
    ∃ first more, inside = first ++ closer :: more ∧ Inside first ∧ Remains next outer more

theorem Remains.prepend {inside : List Char} (h : Remains closer outer inside) (text : List Char)
    (htext : ∀ cs, Inside cs → Inside (text ++ cs)) : Remains closer outer (text ++ inside) := by
  cases outer with
  | nil => exact htext inside h
  | cons next outer =>
      obtain ⟨first, more, rfl, hfirst, hmore⟩ := h
      exact ⟨text ++ first, more, (List.append_assoc _ _ _).symm, htext first hfirst, hmore⟩

/-- The same with a quote open, if there is one: its text and the quote come first. -/
def RemainsAfter (closer : Char) (outer : List Char) : Option Char → List Char → Prop
  | none, inside => Remains closer outer inside
  | some q, inside => ∃ text more, inside = text ++ q :: more ∧ q ∉ text ∧ Remains closer outer more

/-- The bracket that closes the outermost group. -/
def outermost (closer : Char) (outer : List Char) : Char :=
  outer.getLastD closer

theorem outermost_cons (closer next : Char) (outer : List Char) :
    outermost closer (next :: outer) = outermost next outer :=
  List.getLastD_cons

/-- Whatever is open, what is found is what remains of the insides. -/
theorem remains_of_splitGroup? {cs : List Char} {quote : Option Char} {inside rest : List Char}
    (h : splitGroup? closer outer quote cs = some (inside, rest)) :
    cs = inside ++ outermost closer outer :: rest ∧ RemainsAfter closer outer quote inside := by
  induction cs generalizing closer outer quote inside with
  | nil => exact absurd h (by simp [splitGroup?])
  | cons c cs ih =>
      rw [splitGroup?.eq_def] at h
      cases quote with
      | some q =>
          simp only at h
          obtain ⟨less, hless, rfl⟩ := keepInside_eq_some_iff.mp h
          -- quoted text goes on until its quote comes back
          by_cases hcq : c = q
          · -- the quote is closed here
            rw [if_pos hcq] at hless
            obtain ⟨hcs, hmore⟩ := ih hless
            exact ⟨by rw [hcs]; rfl, [], less, by rw [hcq]; rfl, List.not_mem_nil, hmore⟩
          · rw [if_neg hcq] at hless
            obtain ⟨hcs, text, more, rfl, htext, hmore⟩ := ih hless
            refine ⟨by rw [hcs]; rfl, c :: text, more, rfl, ?_, hmore⟩
            rw [List.mem_cons, not_or]
            exact ⟨Ne.symm hcq, htext⟩
      | none =>
          simp only at h
          split at h
          · -- a quote is opened: its text stands in front of what remains after it
            rename_i hquote
            obtain ⟨less, hless, rfl⟩ := keepInside_eq_some_iff.mp h
            obtain ⟨hcs, text, more, rfl, htext, hmore⟩ := ih hless
            refine ⟨by rw [hcs]; rfl, ?_⟩
            have := hmore.prepend (c :: text ++ [c]) fun ds hds => by
              rw [List.append_assoc]
              exact .quoted hquote htext hds
            rw [List.append_assoc] at this
            exact this
          · rename_i hquote
            rw [Bool.not_eq_true] at hquote
            split at h
            · -- a group is opened: its inside and its bracket stand in front
              rename_i inner hopener
              obtain ⟨less, hless, rfl⟩ := keepInside_eq_some_iff.mp h
              obtain ⟨hcs, first, more, rfl, hfirst, hmore⟩ := ih hless
              rw [outermost_cons] at hcs
              refine ⟨by rw [hcs]; rfl, ?_⟩
              have := hmore.prepend (c :: first ++ [inner]) fun ds hds => by
                rw [List.append_assoc]
                exact .group hopener hfirst hds
              rw [List.append_assoc] at this
              exact this
            · rename_i hopen
              split at h
              · rename_i hclose
                split at h
                · -- the innermost group ends here, and with the outermost one the search
                  rename_i hcloser
                  split at h
                  · obtain ⟨rfl, rfl⟩ := Prod.mk.inj (Option.some.inj h)
                    exact ⟨by rw [hcloser]; rfl, .nil⟩
                  · rename_i next further
                    obtain ⟨less, hless, rfl⟩ := keepInside_eq_some_iff.mp h
                    obtain ⟨hcs, hmore⟩ := ih hless
                    refine ⟨?_, [], less, by rw [hcloser]; rfl, .nil, hmore⟩
                    rw [hcs, outermost_cons]
                    rfl
                · exact absurd h (by simp)
              · rename_i hclose
                rw [Bool.not_eq_true] at hclose
                obtain ⟨less, hless, rfl⟩ := keepInside_eq_some_iff.mp h
                obtain ⟨hcs, hmore⟩ := ih hless
                refine ⟨by rw [hcs]; rfl, ?_⟩
                exact hmore.prepend [c] fun ds hds => .char hquote hopen hclose hds

/-- A group is found exactly if the text is an inside, the closing bracket and what follows. -/
theorem splitGroup?_eq_some_iff (hcloser : isCloser closer = true) {cs inside rest : List Char} :
    splitGroup? closer [] none cs = some (inside, rest) ↔
      Inside inside ∧ cs = inside ++ closer :: rest := by
  constructor
  · intro h
    obtain ⟨hcs, hinside⟩ := remains_of_splitGroup? h
    exact ⟨hinside, hcs⟩
  · rintro ⟨hinside, rfl⟩
    rw [splitGroup?_append hinside, splitGroup?_closer hcloser]
    unfold keepAll
    simp

end StyleCascade.Selector
