/-
# StyleCascade.Proofs.Variables.Relevance — what filling in a value depends on

Filling in a value looks at the variables that the value reaches and at no others
(`substitute_eq_of_agree`). Cycles make no difference to that: the names being expanded are known from the
way there, and so are the same with either variables.

A text agrees with itself in two sets of variables if these agree on every name that it reaches
(`AgreesFrom`). What the readers cut out of a text reaches no more than the text does, nor does the text of
a variable that it names, so each call of the expansion hands agreement down to the calls it makes
(`agree_calls`).
-/
import StyleCascade.Proofs.Variables.References
import StyleCascade.Proofs.Variables.Termination

namespace StyleCascade

namespace Variables

/-- Two sets of variables have the same value, or none, for every name that a text reaches. -/
def AgreesFrom (vars vars' : Variables) (text : List Char) : Prop :=
  ∀ name, vars.ReachesFrom text name → vars.get? name = vars'.get? name

/-- Two sets of variables have the same value, or none, for every name that a reference reaches. -/
def AgreesInside (vars vars' : Variables) (inside : List Char) : Prop :=
  ∀ name, vars.ReachesInside inside name → vars.get? name = vars'.get? name

variable {vars vars' : Variables} {inside : List Char}

theorem agreesFrom_iff {text head tail : List Char}
    (h : Reference.first? text = some (head, inside, tail)) :
    AgreesFrom vars vars' text ↔ AgreesInside vars vars' inside ∧ AgreesFrom vars vars' tail := by
  unfold AgreesFrom AgreesInside
  simp only [reachesFrom_iff h, or_imp, forall_and]

namespace AgreesInside

theorem get?_eq (h : AgreesInside vars vars' inside) :
    vars.get? (Reference.name inside) = vars'.get? (Reference.name inside) :=
  h _ (.inl .refl)

theorem named?_eq (h : AgreesInside vars vars' inside) : vars.named? inside = vars'.named? inside := by
  unfold named?
  rw [h.get?_eq]

theorem fallback (h : AgreesInside vars vars' inside) {text : List Char}
    (htext : Reference.fallback? inside = some text) : AgreesFrom vars vars' text :=
  fun name hname => h name (.inr ⟨text, htext, hname⟩)

/-- The text of the variable that a reference names is agreed on too. -/
theorem content (h : AgreesInside vars vars' inside) {content : String}
    (hcontent : vars.named? inside = some (.text content)) : AgreesFrom vars vars' content.toList :=
  fun name hname =>
    h name (.inl (transGen_of_reachesFrom (get?_of_named? hcontent) hname).to_reflTransGen)

end AgreesInside

/-- Variables that agree on what a text or a reference reaches give the same for it, whatever is being
expanded. The induction follows the expansion with the first of the two. -/
theorem agree_calls (vars vars' : Variables) :
    (∀ active text, AgreesFrom vars vars' text → vars.expand active text = vars'.expand active text) ∧
    (∀ active inside, AgreesInside vars vars' inside →
      vars.referent active inside = vars'.referent active inside) ∧
    (∀ active inside, AgreesInside vars vars' inside →
      vars.fallback active inside = vars'.fallback active inside) := by
  refine expand.mutual_induct vars _ _ _ ?plain ?reference ?numberAgain ?number ?textAgain ?text ?unnamed
    ?noFallback ?fallback
  case plain =>
    intro active text hfirst _
    rw [expand, expand, hfirst]
  case reference =>
    intro active text head inside tail hfirst hreferent htail hagrees
    obtain ⟨hinside, hrest⟩ := (agreesFrom_iff hfirst).mp hagrees
    rw [expand, expand, hfirst]
    simp only [hreferent hinside, htail hrest]
  case numberAgain =>
    intro active inside name n _ hmem hfallback hagrees
    rw [referent_of_mem hmem, referent_of_mem hmem, hfallback hagrees]
  case number =>
    intro active inside name n hnamed _ hagrees
    have hfound : vars.named? inside = some (.number n) := hnamed
    rw [referent_eq, referent_eq, ← hagrees.named?_eq, hfound]
    simp only [show Reference.name inside ∉ active from ‹name ∉ active›, if_false]
  case textAgain =>
    intro active inside name text _ hmem hfallback hagrees
    rw [referent_of_mem hmem, referent_of_mem hmem, hfallback hagrees]
  case text =>
    intro active inside name text hnamed hnew hexpand hagrees
    have hfound : vars.named? inside = some (.text text) := hnamed
    have hexpanded : vars.expand (Reference.name inside :: active) text.toList =
        vars'.expand (Reference.name inside :: active) text.toList := hexpand (hagrees.content hfound)
    rw [referent_eq, referent_eq, ← hagrees.named?_eq, hfound]
    simp only [show Reference.name inside ∉ active from hnew, if_false, hexpanded]
  case unnamed =>
    intro active inside name hnamed hfallback hagrees
    have hfound : vars.named? inside = none := hnamed
    rw [referent_eq, referent_eq, ← hagrees.named?_eq, hfound]
    exact hfallback hagrees
  case noFallback =>
    intro active inside hnone _
    rw [fallback, fallback, hnone]
  case fallback =>
    intro active inside text hsome hexpand hagrees
    rw [fallback, fallback, hsome]
    simp only [hexpand (hagrees.fallback hsome)]

/-- A value reaches no more names with the second of two sets of variables than with the first, if these
agree on what it reaches with the first. -/
theorem reaches_of_reaches {value : Value}
    (h : ∀ name, vars.Reaches value name → vars.get? name = vars'.get? name) {name : String}
    (hreaches : vars'.Reaches value name) : vars.Reaches value name := by
  obtain ⟨first, hmentions, hleads⟩ := hreaches
  refine ⟨first, hmentions, ?_⟩
  induction hleads with
  | refl => exact .refl
  | tail _ hrefers ih =>
      obtain ⟨found, hfound, hnext⟩ := hrefers
      rw [← h _ ⟨first, hmentions, ih⟩] at hfound
      exact ih.tail ⟨found, hfound, hnext⟩

theorem reaches_iff_of_agree {value : Value}
    (h : ∀ name, vars.Reaches value name → vars.get? name = vars'.get? name) (name : String) :
    vars.Reaches value name ↔ vars'.Reaches value name :=
  ⟨reaches_of_reaches fun other hother => (h other (reaches_of_reaches h hother)).symm,
    reaches_of_reaches h⟩

/-- Variables that have the same value, or none, for each name that a value reaches give the same for that
value, also where the names lead back to themselves. It makes no difference with which of the two the names
are reached. -/
theorem substitute_eq_of_agree {value : Value}
    (h : ∀ name, vars.Reaches value name → vars.get? name = vars'.get? name) :
    vars.substitute value = vars'.substitute value ∧
      ∀ name, vars.Reaches value name ↔ vars'.Reaches value name := by
  refine ⟨?_, reaches_iff_of_agree h⟩
  obtain ⟨hexpand, hreferent, -⟩ := agree_calls vars vars'
  cases value with
  | number n => rfl
  | text text =>
      have hagrees : AgreesFrom vars vars' text.toList := h
      rw [substitute_text, substitute_text]
      cases hwhole : Reference.whole? (Text.trim text.toList) with
      | none => simp only [hexpand [] text.toList hagrees]
      | some inside =>
          obtain ⟨head, tail, hfirst, -⟩ := exists_first?_of_whole? hwhole
          exact hreferent [] inside ((agreesFrom_iff hfirst).mp hagrees).1

/-- Two variables in a cycle. A third, to which neither refers, is set to different values. -/
theorem substitute_eq_of_agree_cycle :
    let vars : Variables :=
      ⟨.ofList [("--a", .text "var(--b)"), ("--b", .text "var(--a, y)"), ("--gap", .text "1px")]⟩
    let vars' : Variables :=
      ⟨.ofList [("--a", .text "var(--b)"), ("--b", .text "var(--a, y)"), ("--gap", .text "9px")]⟩
    vars.get? "--gap" ≠ vars'.get? "--gap" ∧
      (∀ name, vars.Reaches (.text "var(--a)") name → vars.get? name = vars'.get? name) ∧
      vars.substitute (.text "var(--a)") = vars'.substitute (.text "var(--a)") := by
  intro vars vars'
  have htoB : ∀ other, Reference.Mentions "var(--b)".toList other → other = "--b" := fun other h =>
    Reference.eq_of_mentions (show Reference.first? _ = some ([], "--b".toList, []) by decide +kernel)
      (by decide +kernel) (by decide +kernel) h
  have htoA : ∀ other, Reference.Mentions "var(--a, y)".toList other → other = "--a" := fun other h =>
    Reference.eq_of_mentions (show Reference.first? _ = some ([], "--a, y".toList, []) by decide +kernel)
      (by decide +kernel) (by decide +kernel) h
  have hfirst : ∀ other, Reference.Mentions "var(--a)".toList other → other = "--a" := fun other h =>
    Reference.eq_of_mentions (show Reference.first? _ = some ([], "--a".toList, []) by decide +kernel)
      (by decide +kernel) (by decide +kernel) h
  have hreached : ∀ name, vars.Reaches (.text "var(--a)") name → name = "--a" ∨ name = "--b" := by
    rintro name ⟨first, hmentions, hleads⟩
    induction hleads with
    | refl => exact .inl (hfirst _ hmentions)
    | tail _ hrefers ih =>
        obtain ⟨found, hfound, hnext⟩ := hrefers
        rcases ih with rfl | rfl
        · obtain rfl : Value.text "var(--b)" = found := Option.some.inj hfound
          exact .inr (htoB _ hnext)
        · obtain rfl : Value.text "var(--a, y)" = found := Option.some.inj hfound
          exact .inl (htoA _ hnext)
  have hagrees : ∀ name, vars.Reaches (.text "var(--a)") name → vars.get? name = vars'.get? name := by
    intro name hname
    rcases hreached name hname with rfl | rfl
    · rfl
    · rfl
  exact ⟨by decide +kernel, hagrees, (substitute_eq_of_agree hagrees).1⟩

end Variables

end StyleCascade
