/-
# StyleCascade.Proofs.Variables.References — the references of a text

What a reference is, said without the readers of `Reference`. Round brackets in it come in pairs
(`Balanced`), and the first comma outside of inner brackets ends its name (`Gives`). The first reference of
a text is the one that opens first, provided that it is closed (`First`). The readers count brackets from
the left and find exactly these parts, in every text (`first?_eq_some_iff`, `whole?_eq_some_iff`,
`gives_iff`).

A text refers to the names in its references and in their fallbacks (`Mentions`). From these names one gets
to the names that their variables refer to, and so on; all of them are what a value reaches
(`Variables.Reaches`). Both can be followed through the parts that the readers cut out
(`mentions_iff`).
-/
import Mathlib.Data.List.TakeWhile
import Mathlib.Logic.Relation
import StyleCascade.Variables.Expansion

namespace StyleCascade

namespace Reference

/-! ## Parts of a reference -/

/-- Round brackets in the text come in pairs, and none of the barred characters stands outside of them. -/
inductive Balanced : List Char → List Char → Prop
  | nil {barred : List Char} : Balanced barred []
  | char {barred : List Char} {c : Char} {cs : List Char} :
      c ≠ '(' → c ≠ ')' → c ∉ barred → Balanced barred cs → Balanced barred (c :: cs)
  | group {barred inner cs : List Char} :
      Balanced [] inner → Balanced barred cs → Balanced barred ('(' :: inner ++ ')' :: cs)

/-- What stands in the brackets of a reference gives its name, and its fallback if it has a comma outside of
inner brackets. White space around the two does not count. -/
inductive Gives : List Char → String → Option (List Char) → Prop
  | bare {inside : List Char} :
      Balanced [','] inside → Gives inside (String.ofList (Text.trim inside)) none
  | withFallback {before after : List Char} :
      Balanced [','] before → Balanced [] after →
      Gives (before ++ ',' :: after) (String.ofList (Text.trim before)) (some (Text.trim after))

/-- The text of a reference, by what stands in its brackets. -/
def call (inside : List Char) : List Char :=
  opening ++ (inside ++ [')'])

/-- The reference that opens first in a text is closed: the text before it, what stands in its brackets, and
the text after it. -/
structure First (text head inside tail : List Char) : Prop where
  parts : text = head ++ (call inside ++ tail)
  balanced : Balanced [] inside
  first : ∀ before after, text = before ++ opening ++ after → head.length ≤ before.length

/-- A text refers to a name: in a reference that is replaced if the text is, or in the fallback of one. -/
inductive Mentions : List Char → String → Prop
  | name {text head inside tail : List Char} {name : String} {fallback : Option (List Char)} :
      First text head inside tail → Gives inside name fallback → Mentions text name
  | fallback {text head inside tail fallback : List Char} {name other : String} :
      First text head inside tail → Gives inside name (some fallback) → Mentions fallback other →
      Mentions text other
  | tail {text head inside tail : List Char} {other : String} :
      First text head inside tail → Mentions tail other → Mentions text other

/-! ## Where a reference is closed -/

/-- Puts a text in front of the first part of a split text. -/
def keepBefore (cs : List Char) : Option (List Char × List Char) → Option (List Char × List Char) :=
  Option.map fun (before, after) => (cs ++ before, after)

theorem keepBefore_keepBefore (cs ds : List Char) (found : Option (List Char × List Char)) :
    keepBefore cs (keepBefore ds found) = keepBefore (cs ++ ds) found := by
  unfold keepBefore
  rw [Option.map_map]
  congr 1
  funext pair
  simp

theorem keepBefore_nil (found : Option (List Char × List Char)) : keepBefore [] found = found := by
  cases found <;> rfl

theorem Balanced.weaken {barred cs : List Char} (h : Balanced barred cs) : Balanced [] cs := by
  induction h with
  | nil => exact .nil
  | char hopen hclose _ _ ih => exact .char hopen hclose List.not_mem_nil ih
  | group hinner _ _ ih => exact .group hinner ih

theorem Balanced.append {barred cs ds : List Char} (h : Balanced barred cs) (hds : Balanced barred ds) :
    Balanced barred (cs ++ ds) := by
  induction h with
  | nil => exact hds
  | char hopen hclose hbarred _ ih => exact .char hopen hclose hbarred (ih hds)
  | @group _ inner cs hinner _ _ ih =>
      have hshape : '(' :: inner ++ ')' :: cs ++ ds = '(' :: inner ++ ')' :: (cs ++ ds) := by
        simp only [List.cons_append, List.append_assoc]
      rw [hshape]
      exact .group hinner (ih hds)

variable {inner : Nat}

theorem splitClosing?_opener (cs : List Char) :
    splitClosing? inner ('(' :: cs) = keepBefore ['('] (splitClosing? (inner + 1) cs) := rfl

theorem splitClosing?_closer_succ (cs : List Char) :
    splitClosing? (inner + 1) (')' :: cs) = keepBefore [')'] (splitClosing? inner cs) := rfl

theorem splitClosing?_char {c : Char} (hopen : c ≠ '(') (hclose : c ≠ ')') (cs : List Char) :
    splitClosing? inner (c :: cs) = keepBefore [c] (splitClosing? inner cs) := by
  rw [splitClosing?.eq_def]
  simp only [if_neg hopen, if_neg hclose]
  rfl

/-- A balanced text is passed over, however many brackets are open around it. -/
theorem splitClosing?_append {barred cs : List Char} (h : Balanced barred cs) (inner : Nat)
    (rest : List Char) :
    splitClosing? inner (cs ++ rest) = keepBefore cs (splitClosing? inner rest) := by
  induction h generalizing inner rest with
  | nil => exact (keepBefore_nil _).symm
  | @char _ c cs hopen hclose _ _ ih =>
      rw [List.cons_append, splitClosing?_char hopen hclose, ih, keepBefore_keepBefore]
      rfl
  | @group _ text cs _ _ ihInner ih =>
      have hshape : '(' :: text ++ ')' :: cs ++ rest = '(' :: (text ++ ')' :: (cs ++ rest)) := by
        simp only [List.cons_append, List.append_assoc]
      rw [hshape, splitClosing?_opener, ihInner, splitClosing?_closer_succ, ih, keepBefore_keepBefore,
        keepBefore_keepBefore, keepBefore_keepBefore]
      congr 1
      simp

/-- What is left of open groups up to the bracket that closes the outermost: the insides of the inner ones,
each with its bracket, and then that of the outermost. -/
def Remains : Nat → List Char → Prop
  | 0, inside => Balanced [] inside
  | inner + 1, inside =>
    ∃ first more, inside = first ++ ')' :: more ∧ Balanced [] first ∧ Remains inner more

theorem Remains.prepend {inside : List Char} (h : Remains inner inside) (text : List Char)
    (htext : ∀ cs, Balanced [] cs → Balanced [] (text ++ cs)) : Remains inner (text ++ inside) := by
  cases inner with
  | zero => exact htext inside h
  | succ inner =>
      obtain ⟨first, more, rfl, hfirst, hmore⟩ := h
      exact ⟨text ++ first, more, (List.append_assoc _ _ _).symm, htext first hfirst, hmore⟩

/-- However many brackets are open, what is found is what remains of the open groups. -/
theorem remains_of_splitClosing? {cs inside rest : List Char}
    (h : splitClosing? inner cs = some (inside, rest)) :
    cs = inside ++ ')' :: rest ∧ Remains inner inside := by
  induction cs generalizing inner inside with
  | nil => exact absurd h (by simp [splitClosing?])
  | cons c cs ih =>
      have extend : ∀ {further : Nat}, keepBefore [c] (splitClosing? further cs) = some (inside, rest) →
          ∃ less, inside = c :: less ∧ cs = less ++ ')' :: rest ∧ Remains further less := by
        intro further hkeep
        obtain ⟨⟨less, _⟩, hless, heq⟩ := Option.map_eq_some_iff.mp hkeep
        obtain ⟨rfl, rfl⟩ := Prod.mk.inj heq
        obtain ⟨hcs, hremains⟩ := ih hless
        exact ⟨less, rfl, hcs, hremains⟩
      by_cases hopen : c = '('
      · -- a group is opened: its inside and its bracket stand in front
        subst hopen
        rw [splitClosing?_opener] at h
        obtain ⟨less, rfl, hcs, first, more, rfl, hfirst, hmore⟩ := extend h
        refine ⟨by rw [hcs]; rfl, ?_⟩
        have := hmore.prepend ('(' :: first ++ [')']) fun ds hds => by
          rw [List.append_assoc]
          exact .group hfirst hds
        rw [List.append_assoc] at this
        exact this
      · by_cases hclose : c = ')'
        · subst hclose
          cases inner with
          | zero =>
              have hend : some (([] : List Char), cs) = some (inside, rest) := h
              obtain ⟨rfl, rfl⟩ := Prod.mk.inj (Option.some.inj hend)
              exact ⟨rfl, .nil⟩
          | succ inner =>
              rw [splitClosing?_closer_succ] at h
              obtain ⟨less, rfl, hcs, hmore⟩ := extend h
              exact ⟨by rw [hcs]; rfl, [], less, rfl, .nil, hmore⟩
        · rw [splitClosing?_char hopen hclose] at h
          obtain ⟨less, rfl, hcs, hmore⟩ := extend h
          refine ⟨by rw [hcs]; rfl, ?_⟩
          exact hmore.prepend [c] fun ds hds => .char hopen hclose List.not_mem_nil hds

/-- A bracket is closed where the text between is balanced. -/
theorem splitClosing?_eq_some_iff {cs inside rest : List Char} :
    splitClosing? 0 cs = some (inside, rest) ↔ Balanced [] inside ∧ cs = inside ++ ')' :: rest := by
  constructor
  · intro h
    obtain ⟨hcs, hinside⟩ := remains_of_splitClosing? h
    exact ⟨hinside, hcs⟩
  · rintro ⟨hinside, rfl⟩
    rw [splitClosing?_append hinside]
    show keepBefore inside (some ([], rest)) = _
    unfold keepBefore
    simp

/-! ## Where a reference opens -/

theorem first?_eq_some_iff {text head inside tail : List Char} :
    first? text = some (head, inside, tail) ↔ First text head inside tail := by
  unfold first?
  rw [Option.bind_eq_some_iff]
  constructor
  · rintro ⟨⟨head', after⟩, hcut, hmap⟩
    obtain ⟨⟨inside', tail'⟩, hsplit, heq⟩ := Option.map_eq_some_iff.mp hmap
    simp only [Prod.mk.injEq] at heq
    obtain ⟨rfl, rfl, rfl⟩ := heq
    obtain ⟨hparts, hfirst⟩ := Text.cutAt?_eq_some_iff.mp hcut
    obtain ⟨hbalanced, rfl⟩ := splitClosing?_eq_some_iff.mp hsplit
    exact ⟨by rw [hparts, call]; simp, hbalanced, hfirst⟩
  · rintro ⟨hparts, hbalanced, hfirst⟩
    refine ⟨(head, inside ++ ')' :: tail), Text.cutAt?_eq_some_iff.mpr ⟨?_, hfirst⟩, ?_⟩
    · rw [hparts, call]
      simp
    · show Option.map _ (splitClosing? 0 (inside ++ ')' :: tail)) = _
      rw [splitClosing?_eq_some_iff.mpr ⟨hbalanced, rfl⟩]
      rfl

theorem First.unique {text head inside tail head' inside' tail' : List Char}
    (h : First text head inside tail) (h' : First text head' inside' tail') :
    head = head' ∧ inside = inside' ∧ tail = tail' := by
  have hsame := (first?_eq_some_iff.mpr h).symm.trans (first?_eq_some_iff.mpr h')
  simpa using hsame

theorem first?_eq_none_iff {text : List Char} :
    first? text = none ↔ ∀ head inside tail, ¬First text head inside tail := by
  constructor
  · intro h head inside tail hfirst
    rw [first?_eq_some_iff.mpr hfirst] at h
    exact absurd h (by simp)
  · intro h
    rw [Option.eq_none_iff_forall_not_mem]
    rintro ⟨head, inside, tail⟩ hsome
    exact h head inside tail (first?_eq_some_iff.mp hsome)

theorem whole?_eq_some_iff {text inside : List Char} :
    whole? text = some inside ↔ Balanced [] inside ∧ text = call inside := by
  unfold whole?
  constructor
  · intro h
    split at h
    · rename_i found hfound
      obtain rfl := Option.some.inj h
      obtain ⟨after, hmark, hsplit⟩ := Option.bind_eq_some_iff.mp hfound
      obtain ⟨hbalanced, rfl⟩ := splitClosing?_eq_some_iff.mp hsplit
      exact ⟨hbalanced, Text.dropMark?_eq_some_iff.mp hmark⟩
    · exact absurd h (by simp)
  · rintro ⟨hbalanced, rfl⟩
    have hmark : Text.dropMark? opening (call inside) = some (inside ++ [')']) :=
      Text.dropMark?_eq_some_iff.mpr rfl
    rw [hmark, Option.bind_some, splitClosing?_eq_some_iff.mpr ⟨hbalanced, rfl⟩]

/-- A reference that is the whole text is the first one in it. -/
theorem first_call {inside : List Char} (h : Balanced [] inside) : First (call inside) [] inside [] where
  parts := (List.append_nil _).symm
  balanced := h
  first := fun _ _ _ => Nat.zero_le _

/-! ## Name and fallback -/

variable {depth : Nat}

theorem splitComma?_opener (cs : List Char) :
    splitComma? depth ('(' :: cs) = keepBefore ['('] (splitComma? (depth + 1) cs) := rfl

theorem splitComma?_closer (cs : List Char) :
    splitComma? (depth + 1) (')' :: cs) = keepBefore [')'] (splitComma? depth cs) := rfl

theorem splitComma?_char {c : Char} (hopen : c ≠ '(') (hclose : c ≠ ')') (hcomma : c ≠ ',' ∨ depth ≠ 0)
    (cs : List Char) : splitComma? depth (c :: cs) = keepBefore [c] (splitComma? depth cs) := by
  have hpassed : ¬(c = ',' ∧ depth = 0) := fun h => hcomma.elim (absurd h.1) (absurd h.2)
  rw [splitComma?.eq_def]
  simp only [if_neg hopen, if_neg hclose, if_neg hpassed]
  rfl

/-- A balanced text is passed over if it has no comma outside of brackets, or stands in brackets itself. -/
theorem splitComma?_append {barred cs : List Char} (h : Balanced barred cs)
    (hcomma : ',' ∈ barred ∨ depth ≠ 0) (rest : List Char) :
    splitComma? depth (cs ++ rest) = keepBefore cs (splitComma? depth rest) := by
  induction h generalizing depth rest with
  | nil => exact (keepBefore_nil _).symm
  | @char barred c cs hopen hclose hbarred _ ih =>
      have hc : c ≠ ',' ∨ depth ≠ 0 := hcomma.imp_left fun hmem heq => hbarred (heq ▸ hmem)
      rw [List.cons_append, splitComma?_char hopen hclose hc, ih hcomma, keepBefore_keepBefore]
      rfl
  | @group barred text cs _ _ ihInner ih =>
      have hshape : '(' :: text ++ ')' :: cs ++ rest = '(' :: (text ++ ')' :: (cs ++ rest)) := by
        simp only [List.cons_append, List.append_assoc]
      rw [hshape, splitComma?_opener, ihInner (.inr (Nat.succ_ne_zero depth)), splitComma?_closer,
        ih hcomma, keepBefore_keepBefore, keepBefore_keepBefore, keepBefore_keepBefore]
      congr 1
      simp

theorem splitComma?_of_balanced {inside : List Char} (h : Balanced [','] inside) :
    splitComma? 0 inside = none := by
  have hpassed : splitComma? 0 (inside ++ []) = keepBefore inside (splitComma? 0 []) :=
    splitComma?_append h (.inl List.mem_cons_self) []
  rw [List.append_nil] at hpassed
  rw [hpassed]
  rfl

theorem splitComma?_at {before : List Char} (h : Balanced [','] before) (after : List Char) :
    splitComma? 0 (before ++ ',' :: after) = some (before, after) := by
  rw [splitComma?_append h (.inl List.mem_cons_self)]
  show keepBefore before (some ([], after)) = _
  unfold keepBefore
  simp

/-- A balanced text has no comma outside of brackets, or a first one. -/
theorem Balanced.bare_or_comma {barred inside : List Char} (h : Balanced barred inside) :
    Balanced [','] inside ∨
      ∃ before after, inside = before ++ ',' :: after ∧ Balanced [','] before ∧ Balanced [] after := by
  induction h with
  | nil => exact .inl .nil
  | @char _ c cs hopen hclose _ hcs ih =>
      by_cases hcomma : c = ','
      · subst hcomma
        exact .inr ⟨[], cs, rfl, .nil, hcs.weaken⟩
      · have hbarred : c ∉ [','] := by simpa using hcomma
        rcases ih with hbare | ⟨before, after, rfl, hbefore, hafter⟩
        · exact .inl (.char hopen hclose hbarred hbare)
        · exact .inr ⟨c :: before, after, rfl, .char hopen hclose hbarred hbefore, hafter⟩
  | @group _ inner cs hinner hcs _ ih =>
      rcases ih with hbare | ⟨before, after, rfl, hbefore, hafter⟩
      · exact .inl (.group hinner hbare)
      · refine .inr ⟨'(' :: inner ++ ')' :: before, after, ?_, .group hinner hbefore, hafter⟩
        simp

theorem Gives.eq {inside : List Char} {given : String} {found : Option (List Char)}
    (h : Gives inside given found) : name inside = given ∧ fallback? inside = found := by
  unfold name fallback?
  cases h with
  | bare hbare =>
      rw [splitComma?_of_balanced hbare]
      exact ⟨rfl, rfl⟩
  | withFallback hbefore _ =>
      rw [splitComma?_at hbefore]
      exact ⟨rfl, rfl⟩

theorem Gives.balanced {inside : List Char} {given : String} {found : Option (List Char)}
    (h : Gives inside given found) : Balanced [] inside := by
  cases h with
  | bare hbare => exact hbare.weaken
  | withFallback hbefore hafter =>
      exact hbefore.weaken.append (.char (by decide) (by decide) List.not_mem_nil hafter)

theorem Gives.unique {inside : List Char} {given given' : String} {found found' : Option (List Char)}
    (h : Gives inside given found) (h' : Gives inside given' found') : given = given' ∧ found = found' :=
  ⟨h.eq.1.symm.trans h'.eq.1, h.eq.2.symm.trans h'.eq.2⟩

/-- The readers take the name and the fallback that the brackets give. -/
theorem gives_iff {inside : List Char} (h : Balanced [] inside) {given : String}
    {found : Option (List Char)} :
    Gives inside given found ↔ name inside = given ∧ fallback? inside = found := by
  refine ⟨Gives.eq, ?_⟩
  unfold name fallback?
  rcases h.bare_or_comma with hbare | ⟨before, after, rfl, hbefore, hafter⟩
  · rw [splitComma?_of_balanced hbare]
    rintro ⟨rfl, rfl⟩
    exact .bare hbare
  · rw [splitComma?_at hbefore]
    rintro ⟨rfl, rfl⟩
    exact .withFallback hbefore hafter

theorem call_injective {inside inside' : List Char} (h : call inside = call inside') : inside = inside' :=
  List.append_cancel_right (List.append_cancel_left h)

theorem gives_self {inside : List Char} (h : Balanced [] inside) :
    Gives inside (name inside) (fallback? inside) :=
  (gives_iff h).mpr ⟨rfl, rfl⟩

/-! ## The names that a text refers to -/

theorem not_mentions_of_first? {text : List Char} (h : first? text = none) (name : String) :
    ¬Mentions text name := by
  intro hmentions
  have hnone := first?_eq_none_iff.mp h
  cases hmentions with
  | name hfirst _ => exact hnone _ _ _ hfirst
  | fallback hfirst _ _ => exact hnone _ _ _ hfirst
  | tail hfirst _ => exact hnone _ _ _ hfirst

/-- A text refers to what its first reference names, to what the fallback of that one refers to, and to what
the text after it refers to. -/
theorem mentions_iff {text head inside tail : List Char} (h : first? text = some (head, inside, tail))
    {other : String} :
    Mentions text other ↔ other = name inside ∨
      (∃ fallback, fallback? inside = some fallback ∧ Mentions fallback other) ∨ Mentions tail other := by
  have hfirst := first?_eq_some_iff.mp h
  constructor
  · intro hmentions
    cases hmentions with
    | name hfirst' hname =>
        obtain ⟨rfl, rfl, rfl⟩ := hfirst.unique hfirst'
        exact .inl hname.eq.1.symm
    | fallback hfirst' hname hmore =>
        obtain ⟨rfl, rfl, rfl⟩ := hfirst.unique hfirst'
        exact .inr (.inl ⟨_, hname.eq.2, hmore⟩)
    | tail hfirst' hmore =>
        obtain ⟨rfl, rfl, rfl⟩ := hfirst.unique hfirst'
        exact .inr (.inr hmore)
  · rintro (rfl | ⟨fallback, hfallback, hmore⟩ | hmore)
    · exact .name hfirst (gives_self hfirst.balanced)
    · exact .fallback hfirst (hfallback ▸ gives_self hfirst.balanced) hmore
    · exact .tail hfirst hmore

/-- A text with one reference in it, and none in the fallback of that one, refers to one name. -/
theorem eq_of_mentions {text head inside tail : List Char} (h : first? text = some (head, inside, tail))
    (hfallback : ∀ fallback ∈ fallback? inside, first? fallback = none) (htail : first? tail = none)
    {other : String} (hmentions : Mentions text other) : other = name inside := by
  rcases (mentions_iff h).mp hmentions with hname | ⟨fallback, hsome, hmore⟩ | hmore
  · exact hname
  · exact absurd hmore (not_mentions_of_first? (hfallback fallback hsome) other)
  · exact absurd hmore (not_mentions_of_first? htail other)

end Reference

/-! ## The names that a value reaches -/

/-- A value refers to a name. -/
def Value.Mentions : Value → String → Prop
  | .number _, _ => False
  | .text content, name => Reference.Mentions content.toList name

namespace Variables

/-- The value of one variable refers to another name. -/
def Refers (vars : Variables) (name other : String) : Prop :=
  ∃ value, vars.get? name = some value ∧ value.Mentions other

/-- A value refers to a name, or to one whose variable leads there. -/
def Reaches (vars : Variables) (value : Value) (name : String) : Prop :=
  ∃ first, value.Mentions first ∧ Relation.ReflTransGen vars.Refers first name

/-- The names that a text reaches. -/
def ReachesFrom (vars : Variables) (text : List Char) (name : String) : Prop :=
  ∃ first, Reference.Mentions text first ∧ Relation.ReflTransGen vars.Refers first name

/-- The names that a reference reaches by its name or by its fallback. -/
def ReachesInside (vars : Variables) (inside : List Char) (name : String) : Prop :=
  Relation.ReflTransGen vars.Refers (Reference.name inside) name ∨
    ∃ fallback, Reference.fallback? inside = some fallback ∧ vars.ReachesFrom fallback name

variable {vars : Variables}

theorem reachesFrom_iff {text head inside tail : List Char}
    (h : Reference.first? text = some (head, inside, tail)) {name : String} :
    vars.ReachesFrom text name ↔ vars.ReachesInside inside name ∨ vars.ReachesFrom tail name := by
  unfold ReachesInside ReachesFrom
  constructor
  · rintro ⟨first, hmentions, hleads⟩
    rcases (Reference.mentions_iff h).mp hmentions with rfl | ⟨fallback, hfallback, hmore⟩ | hmore
    · exact .inl (.inl hleads)
    · exact .inl (.inr ⟨fallback, hfallback, first, hmore, hleads⟩)
    · exact .inr ⟨first, hmore, hleads⟩
  · rintro ((hleads | ⟨fallback, hfallback, first, hmore, hleads⟩) | ⟨first, hmore, hleads⟩)
    · exact ⟨_, (Reference.mentions_iff h).mpr (.inl rfl), hleads⟩
    · exact ⟨first, (Reference.mentions_iff h).mpr (.inr (.inl ⟨fallback, hfallback, hmore⟩)), hleads⟩
    · exact ⟨first, (Reference.mentions_iff h).mpr (.inr (.inr hmore)), hleads⟩

/-- The name of a variable leads to all that its text reaches. -/
theorem transGen_of_reachesFrom {name other : String} {content : String}
    (h : vars.get? name = some (.text content)) (hreaches : vars.ReachesFrom content.toList other) :
    Relation.TransGen vars.Refers name other := by
  obtain ⟨first, hmentions, hleads⟩ := hreaches
  exact .head' ⟨.text content, h, hmentions⟩ hleads

/-! ## Filling in a text -/

theorem exists_trim (cs : List Char) :
    ∃ lead trail, cs = lead ++ (Text.trim cs ++ trail) ∧ (∀ c ∈ lead, Text.isSpace c = true) ∧
      ∀ c ∈ trail, Text.isSpace c = true := by
  refine ⟨cs.takeWhile Text.isSpace, ((Text.trimStart cs).reverse.takeWhile Text.isSpace).reverse, ?_,
    fun c hc => List.mem_takeWhile_imp hc,
    fun c hc => List.mem_takeWhile_imp (List.mem_reverse.mp hc)⟩
  have hend : Text.trim cs ++ ((Text.trimStart cs).reverse.takeWhile Text.isSpace).reverse =
      Text.trimStart cs := by
    unfold Text.trim Text.trimEnd
    rw [← List.reverse_append, List.takeWhile_append_dropWhile, List.reverse_reverse]
  rw [hend]
  exact List.takeWhile_append_dropWhile.symm

/-- A reference that is the whole of a trimmed text is the first one of the text, and only white space
follows it. -/
theorem exists_first?_of_whole? {text inside : List Char}
    (h : Reference.whole? (Text.trim text) = some inside) :
    ∃ head tail, Reference.first? text = some (head, inside, tail) ∧
      ∀ c ∈ tail, Text.isSpace c = true := by
  obtain ⟨hbalanced, hcall⟩ := Reference.whole?_eq_some_iff.mp h
  obtain ⟨lead, trail, htext, hlead, htrail⟩ := exists_trim text
  rw [hcall] at htext
  refine ⟨lead, trail, Reference.first?_eq_some_iff.mpr ⟨htext, hbalanced, ?_⟩, htrail⟩
  intro before after hopens
  rw [htext, List.append_assoc, List.append_eq_append_iff] at hopens
  rcases hopens with ⟨more, rfl, _⟩ | ⟨more, hmore, hshape⟩
  · rw [List.length_append]
    exact Nat.le_add_right _ _
  · cases more with
    | nil => exact Nat.le_of_eq (by rw [hmore, List.append_nil])
    | cons c more =>
        -- an opening does not start with white space
        have hc : 'v' = c := (List.cons.inj hshape).1
        have := hlead c (by rw [hmore]; simp)
        rw [← hc] at this
        exact absurd this (by decide)

/-- Filling in a text does not depend on the check whether a reference opens in it. -/
theorem substitute_text (vars : Variables) (text : String) :
    vars.substitute (.text text) =
      match Reference.whole? (Text.trim text.toList) with
      | some inside => vars.referent [] inside
      | none => .text (String.ofList (vars.expand [] text.toList)) := by
  rw [substitute]
  split
  · rfl
  · rename_i hnot
    have hfirst : Reference.first? text.toList = none := by
      rw [Reference.first?_eq_none_iff]
      rintro head inside tail ⟨hparts, -, -⟩
      refine hnot (Text.contains_iff_isInfix.mpr ⟨head, inside ++ [')'] ++ tail, ?_⟩)
      rw [hparts, Reference.call]
      simp only [List.append_assoc]
    cases hwhole : Reference.whole? (Text.trim text.toList) with
    | none =>
        rw [expand, hfirst]
        simp only [String.ofList_toList]
    | some inside =>
        obtain ⟨head, tail, hsome, -⟩ := exists_first?_of_whole? hwhole
        rw [hfirst] at hsome
        exact absurd hsome (by simp)

end Variables

end StyleCascade
