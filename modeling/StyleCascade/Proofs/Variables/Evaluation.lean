/-
# StyleCascade.Proofs.Variables.Evaluation — filling in variables without keeping track of them

Where no name that a value reaches leads back to itself, the names being expanded need not be known. What
filling in means there is said by plain recursion (`Expands`, `StandsFor`): every reference of a text, from
left to right, is replaced by the text of its variable with the references in that filled in, or by its
fallback with the references in that filled in, and everything else is kept. A value that is nothing but one
reference takes what the reference stands for, and so a number if its variable is one (`Evaluates`).

`substitute_of_acyclic` says that this is what `Variables.substitute` does. The name of a variable is never
among the names being expanded when the variable comes up, since each of those names leads to it
(`expands_calls`).
-/
import StyleCascade.Proofs.Variables.References
import StyleCascade.Proofs.Variables.Termination

namespace StyleCascade

/-- A text is one reference, which gives a name and perhaps a fallback. -/
def Reference.Is (text : List Char) (name : String) (fallback : Option (List Char)) : Prop :=
  ∃ inside, text = call inside ∧ Gives inside name fallback

namespace Variables

/-! ## Evaluation -/

/-- What is bound to a name, which must start as variable names do. -/
def bound? (vars : Variables) (name : String) : Option Value :=
  if isVariableName name then vars.get? name else none

mutual

/-- A text becomes another with the references in it replaced. -/
inductive Expands (vars : Variables) : List Char → List Char → Prop
  | plain {text : List Char} :
      (∀ head inside tail, ¬Reference.First text head inside tail) → Expands vars text text
  | reference {text head inside tail rest : List Char} {name : String} {fallback : Option (List Char)}
      {value : Value} :
      Reference.First text head inside tail → Reference.Gives inside name fallback →
      StandsFor vars name fallback value → Expands vars tail rest →
      Expands vars text (head ++ (value.display.toList ++ rest))

/-- What a name with a fallback stands for. -/
inductive StandsFor (vars : Variables) : String → Option (List Char) → Value → Prop
  | number {name : String} {fallback : Option (List Char)} {n : Number} :
      vars.bound? name = some (.number n) → StandsFor vars name fallback (.number n)
  | text {name content : String} {fallback : Option (List Char)} {expanded : List Char} :
      vars.bound? name = some (.text content) → Expands vars content.toList expanded →
      StandsFor vars name fallback (.text (String.ofList expanded))
  | fallback {name : String} {text expanded : List Char} :
      vars.bound? name = none → Expands vars text expanded →
      StandsFor vars name (some text) (.text (String.ofList expanded))
  | nothing {name : String} :
      vars.bound? name = none → StandsFor vars name none (.text "")

end

/-- A value becomes another with the references in it replaced. -/
inductive Evaluates (vars : Variables) : Value → Value → Prop
  | number (n : Number) : Evaluates vars (.number n) (.number n)
  | reference {text name : String} {fallback : Option (List Char)} {value : Value} :
      Reference.Is (Text.trim text.toList) name fallback → StandsFor vars name fallback value →
      Evaluates vars (.text text) value
  | text {text : String} {expanded : List Char} :
      (∀ name fallback, ¬Reference.Is (Text.trim text.toList) name fallback) →
      Expands vars text.toList expanded → Evaluates vars (.text text) (.text (String.ofList expanded))

variable {vars : Variables} {active : List String}

/-! ## One result -/

mutual

theorem Expands.unique {text expanded expanded' : List Char} (h : vars.Expands text expanded) :
    vars.Expands text expanded' → expanded = expanded' := by
  intro h'
  match h with
  | .plain hnone =>
      cases h' with
      | plain _ => rfl
      | reference hfirst _ _ _ => exact absurd hfirst (hnone _ _ _)
  | .reference hfirst hgives hstands hrest =>
      cases h' with
      | plain hnone => exact absurd hfirst (hnone _ _ _)
      | reference hfirst' hgives' hstands' hrest' =>
          obtain ⟨rfl, rfl, rfl⟩ := hfirst.unique hfirst'
          obtain ⟨rfl, rfl⟩ := hgives.unique hgives'
          rw [hstands.unique hstands', hrest.unique hrest']

theorem StandsFor.unique {name : String} {fallback : Option (List Char)} {value value' : Value}
    (h : vars.StandsFor name fallback value) : vars.StandsFor name fallback value' →
    value = value' := by
  intro h'
  match h with
  | .number hbound => cases h' <;> simp_all
  | .text hbound hexpands =>
      cases h' with
      | text hbound' hexpands' =>
          obtain rfl := Value.text.inj (Option.some.inj (hbound.symm.trans hbound'))
          rw [hexpands.unique hexpands']
      | _ => simp_all
  | .fallback hbound hexpands =>
      cases h' with
      | fallback _ hexpands' => rw [hexpands.unique hexpands']
      | _ => simp_all
  | .nothing hbound => cases h' <;> simp_all

end

theorem Evaluates.unique {value result result' : Value} (h : vars.Evaluates value result)
    (h' : vars.Evaluates value result') : result = result' := by
  cases h with
  | number n =>
      cases h' with
      | number _ => rfl
  | reference his hstands =>
      cases h' with
      | reference his' hstands' =>
          obtain ⟨inside, hcall, hgives⟩ := his
          obtain ⟨inside', hcall', hgives'⟩ := his'
          obtain rfl := Reference.call_injective (hcall.symm.trans hcall')
          obtain ⟨rfl, rfl⟩ := hgives.unique hgives'
          exact hstands.unique hstands'
      | text hnot _ => exact absurd his (hnot _ _)
  | text hnot hexpands =>
      cases h' with
      | reference his' _ => exact absurd his' (hnot _ _)
      | text _ hexpands' => rw [hexpands.unique hexpands']

/-! ## What is reached without a cycle evaluates -/

/-- No name that the value reaches leads back to itself. -/
def AcyclicFrom (vars : Variables) (value : Value) : Prop :=
  ∀ name, vars.Reaches value name → ¬Relation.TransGen vars.Refers name name

/-- None of some names is being expanded, and none leads back to itself. -/
def Clear (vars : Variables) (active : List String) (reached : String → Prop) : Prop :=
  ∀ name, reached name → name ∉ active ∧ ¬Relation.TransGen vars.Refers name name

theorem Clear.mono {reached reached' : String → Prop} (h : vars.Clear active reached)
    (hsub : ∀ name, reached' name → reached name) : vars.Clear active reached' :=
  fun name hname => h name (hsub name hname)

theorem Clear.not_mem {inside : List Char} (h : vars.Clear active (vars.ReachesInside inside)) :
    Reference.name inside ∉ active :=
  (h _ (.inl .refl)).1

/-- What the text of a variable reaches is clear of the variable too, as the variable leads there. -/
theorem Clear.content {inside : List Char} {content : String}
    (h : vars.Clear active (vars.ReachesInside inside))
    (hbound : vars.bound? (Reference.name inside) = some (.text content)) :
    vars.Clear (Reference.name inside :: active) (vars.ReachesFrom content.toList) := by
  intro name hname
  have hleads := transGen_of_reachesFrom (get?_of_named? hbound) hname
  obtain ⟨hnot, hacyclic⟩ := h name (.inl hleads.to_reflTransGen)
  refine ⟨?_, hacyclic⟩
  rw [List.mem_cons, not_or]
  refine ⟨?_, hnot⟩
  rintro rfl
  exact hacyclic hleads

/-- The expansion gives what plain recursion gives, as long as nothing that it can come to is being expanded
or leads back to itself. -/
theorem expands_calls (vars : Variables) :
    (∀ active text, vars.Clear active (vars.ReachesFrom text) →
      vars.Expands text (vars.expand active text)) ∧
    (∀ active inside, vars.Clear active (vars.ReachesInside inside) →
      vars.StandsFor (Reference.name inside) (Reference.fallback? inside)
        (vars.referent active inside)) ∧
    (∀ active inside, vars.Clear active (vars.ReachesInside inside) →
      vars.bound? (Reference.name inside) = none →
      vars.StandsFor (Reference.name inside) (Reference.fallback? inside)
        (vars.fallback active inside)) := by
  refine expand.mutual_induct vars _ _ _ ?plain ?reference ?numberAgain ?number ?textAgain ?text ?unnamed
    ?noFallback ?fallback
  case plain =>
    intro active text hfirst _
    rw [expand, hfirst]
    exact .plain (Reference.first?_eq_none_iff.mp hfirst)
  case reference =>
    intro active text head inside tail hfirst hreferent htail hclear
    have hreached (name : String) (h : vars.ReachesInside inside name ∨ vars.ReachesFrom tail name) :
        vars.ReachesFrom text name :=
      (reachesFrom_iff hfirst).mpr h
    have hstands := hreferent (hclear.mono fun name hname => hreached name (.inl hname))
    have hrest := htail (hclear.mono fun name hname => hreached name (.inr hname))
    have hparts := Reference.first?_eq_some_iff.mp hfirst
    rw [expand, hfirst]
    simp only [List.append_assoc]
    exact .reference hparts (Reference.gives_self hparts.balanced) hstands hrest
  case numberAgain =>
    intro active inside name n _ hmem _ hclear
    exact absurd hmem hclear.not_mem
  case number =>
    intro active inside name n hnamed hnew _
    have hbound : vars.named? inside = some (.number n) := hnamed
    rw [referent_eq, hbound]
    simp only [show Reference.name inside ∉ active from hnew, if_false]
    exact .number hbound
  case textAgain =>
    intro active inside name text _ hmem _ hclear
    exact absurd hmem hclear.not_mem
  case text =>
    intro active inside name text hnamed hnew hexpand hclear
    have hbound : vars.named? inside = some (.text text) := hnamed
    rw [referent_eq, hbound]
    simp only [show Reference.name inside ∉ active from hnew, if_false]
    exact .text hbound (hexpand (hclear.content hbound))
  case unnamed =>
    intro active inside name hnamed hfallback hclear
    have hbound : vars.named? inside = none := hnamed
    rw [referent_eq, hbound]
    exact hfallback hclear hbound
  case noFallback =>
    intro active inside hnone _ hbound
    rw [fallback, hnone]
    exact .nothing hbound
  case fallback =>
    intro active inside text hsome hexpand hclear hbound
    have hexpanded := hexpand (hclear.mono fun name hname => .inr ⟨text, hsome, hname⟩)
    rw [fallback, hsome]
    exact .fallback hbound hexpanded

theorem clear_of_acyclicFrom {text : String} (h : vars.AcyclicFrom (.text text)) :
    vars.Clear [] (vars.ReachesFrom text.toList) :=
  fun name hname => ⟨List.not_mem_nil, h name hname⟩

/-- The readers find a reference that is a whole text. -/
theorem whole?_of_is {text : List Char} {name : String} {fallback : Option (List Char)}
    (h : Reference.Is text name fallback) :
    ∃ inside, Reference.whole? text = some inside ∧ Reference.name inside = name ∧
      Reference.fallback? inside = fallback := by
  obtain ⟨inside, rfl, hgives⟩ := h
  exact ⟨inside, Reference.whole?_eq_some_iff.mpr ⟨hgives.balanced, rfl⟩, hgives.eq⟩

theorem evaluates_substitute {value : Value} (h : vars.AcyclicFrom value) :
    vars.Evaluates value (vars.substitute value) := by
  obtain ⟨hexpand, hreferent, -⟩ := expands_calls vars
  cases value with
  | number n => exact .number n
  | text text =>
      have hclear := clear_of_acyclicFrom h
      rw [substitute_text]
      cases hwhole : Reference.whole? (Text.trim text.toList) with
      | none =>
          refine .text ?_ (hexpand [] text.toList hclear)
          intro name fallback his
          obtain ⟨inside, hsome, -⟩ := whole?_of_is his
          rw [hwhole] at hsome
          exact absurd hsome (by simp)
      | some inside =>
          obtain ⟨hbalanced, hcall⟩ := Reference.whole?_eq_some_iff.mp hwhole
          obtain ⟨head, tail, hfirst, -⟩ := exists_first?_of_whole? hwhole
          refine .reference ⟨inside, hcall, Reference.gives_self hbalanced⟩ (hreferent [] inside ?_)
          exact hclear.mono fun name hname => (reachesFrom_iff hfirst).mpr (.inl hname)

/-! ## Single references -/

/-- A reference that is the whole text is expanded to the text of what it stands for. -/
theorem expand_call {inside : List Char} (h : Reference.Balanced [] inside) :
    vars.expand active (Reference.call inside) = (vars.referent active inside).display.toList := by
  have hnil : vars.expand active [] = [] := by
    rw [expand]
    rfl
  rw [expand, Reference.first?_eq_some_iff.mpr (Reference.first_call h)]
  simp only [hnil, List.nil_append, List.append_nil]

/-- What is given for a single reference is what its text is expanded to, unless it is a number. -/
theorem substitute_of_is {text name : String} {fallback : Option (List Char)}
    (h : Reference.Is (Text.trim text.toList) name fallback)
    (hnumber : ∀ n, vars.substitute (.text text) ≠ .number n) :
    vars.substitute (.text text) = .text (String.ofList (vars.expand [] (Text.trim text.toList))) := by
  obtain ⟨inside, hwhole, -⟩ := whole?_of_is h
  obtain ⟨hbalanced, hcall⟩ := Reference.whole?_eq_some_iff.mp hwhole
  have hvalue : vars.substitute (.text text) = vars.referent [] inside := by
    rw [substitute_text, hwhole]
  rw [hvalue, hcall, expand_call hbalanced]
  rw [hvalue] at hnumber
  cases hreferent : vars.referent [] inside with
  | number n => exact absurd hreferent (hnumber n)
  | text content => rw [Value.display, String.ofList_toList]

/-- A single reference reaches the same without the white space around it. -/
theorem reachesFrom_of_trim {text : List Char} {name : String} {fallback : Option (List Char)}
    (h : Reference.Is (Text.trim text) name fallback) {other : String}
    (hother : vars.ReachesFrom (Text.trim text) other) : vars.ReachesFrom text other := by
  obtain ⟨inside, hwhole, -⟩ := whole?_of_is h
  obtain ⟨hbalanced, hcall⟩ := Reference.whole?_eq_some_iff.mp hwhole
  obtain ⟨head, tail, hfirst, -⟩ := exists_first?_of_whole? hwhole
  rw [hcall, reachesFrom_iff (Reference.first?_eq_some_iff.mpr (Reference.first_call hbalanced))] at hother
  rw [reachesFrom_iff hfirst]
  rcases hother with hinside | ⟨first, hmentions, -⟩
  · exact .inl hinside
  · exact absurd hmentions (Reference.not_mentions_of_first? rfl first)

/-! ## Repeated references -/

/-- Without a bracket before it, an opening is the first. -/
theorem first_of_gap {gap inside : List Char} (hgap : '(' ∉ gap)
    (hbalanced : Reference.Balanced [] inside) (tail : List Char) :
    Reference.First (gap ++ (Reference.call inside ++ tail)) gap inside tail where
  parts := rfl
  balanced := hbalanced
  first := by
    intro before after h
    -- the first bracket of the text is that of the opening after the gap
    have hleft : List.idxOf '(' (gap ++ (Reference.call inside ++ tail)) = gap.length + 3 := by
      rw [List.idxOf_append_of_notMem hgap]
      rfl
    have hright : List.idxOf '(' (before ++ Reference.opening ++ after) ≤ before.length + 3 := by
      rw [List.append_assoc, List.idxOf_append]
      split
      · rename_i hmem
        have := List.idxOf_lt_length_of_mem hmem
        omega
      · show 3 + before.length ≤ _
        omega
    rw [h] at hleft
    omega

/-- References, each after a gap, and a last gap. -/
def gapped (parts : List (List Char × List Char)) (last : List Char) : List Char :=
  (parts.flatMap fun part => part.1 ++ Reference.call part.2) ++ last

theorem gapped_cons (part : List Char × List Char) (parts : List (List Char × List Char))
    (last : List Char) :
    gapped (part :: parts) last = part.1 ++ (Reference.call part.2 ++ gapped parts last) := by
  unfold gapped
  rw [List.flatMap_cons, List.append_assoc, List.append_assoc]

/-- Each of several references to one variable is replaced by the text of the variable with the references
in it replaced. -/
theorem expands_gapped {name content : String} {expanded last : List Char}
    {parts : List (List Char × List Char)} (hbound : vars.bound? name = some (.text content))
    (hexpanded : vars.Expands content.toList expanded)
    (hparts : ∀ part ∈ parts, '(' ∉ part.1 ∧ ∃ fallback, Reference.Gives part.2 name fallback)
    (hlast : '(' ∉ last) :
    vars.Expands (gapped parts last) ((parts.flatMap fun part => part.1 ++ expanded) ++ last) := by
  induction parts with
  | nil =>
      refine .plain fun head inside tail hfirst => hlast ?_
      rw [show last = head ++ (Reference.call inside ++ tail) from hfirst.parts]
      simp [Reference.call, Reference.opening]
  | cons part parts ih =>
      rw [List.forall_mem_cons] at hparts
      obtain ⟨⟨hgap, fallback, hgives⟩, hmore⟩ := hparts
      have hfirst := first_of_gap hgap hgives.balanced (gapped parts last)
      have hexpands := Expands.reference hfirst hgives (.text hbound hexpanded) (ih hmore)
      rw [Value.display, String.toList_ofList] at hexpands
      rw [gapped_cons, List.flatMap_cons, List.append_assoc, List.append_assoc]
      exact hexpands

/-- Two references are not a single one. -/
theorem not_is_gapped {part next : List Char × List Char} {parts : List (List Char × List Char)}
    {last : List Char} (hgap : '(' ∉ part.1) (hbalanced : Reference.Balanced [] part.2) (name : String)
    (fallback : Option (List Char)) :
    ¬Reference.Is (Text.trim (gapped (part :: next :: parts) last)) name fallback := by
  intro his
  obtain ⟨inside, hwhole, -⟩ := whole?_of_is his
  obtain ⟨head, tail, hsome, hspaces⟩ := exists_first?_of_whole? hwhole
  rw [gapped_cons] at hsome
  obtain ⟨-, -, rfl⟩ := (first_of_gap hgap hbalanced _).unique (Reference.first?_eq_some_iff.mp hsome)
  -- after the first reference there is more than white space
  have hbracket := hspaces '(' (by rw [gapped_cons]; simp [Reference.call, Reference.opening])
  exact absurd hbracket (by decide)

/-! ## Without cycles, filling in is plain recursion -/

/-- Take a value from which no name that it reaches leads back to itself.

- Evaluation gives one result for it, and filling in gives this one.
- The result is a number only of that number and of a single reference to a variable that is the number.
- For any other single reference it is the text that the trimmed text is expanded to.
- A variable to which several references refer is expanded for each of them. -/
theorem substitute_of_acyclic {value : Value} (h : vars.AcyclicFrom value) :
    (∀ result, vars.Evaluates value result ↔ vars.substitute value = result) ∧
    (∀ n, vars.substitute value = .number n ↔ value = .number n ∨
      ∃ text name fallback, value = .text text ∧ Reference.Is (Text.trim text.toList) name fallback ∧
        vars.bound? name = some (.number n)) ∧
    (∀ text name fallback, value = .text text → Reference.Is (Text.trim text.toList) name fallback →
      (∀ n, vars.substitute value ≠ .number n) →
      vars.substitute value = .text (String.ofList (vars.expand [] (Text.trim text.toList))) ∧
        vars.Expands (Text.trim text.toList) (vars.expand [] (Text.trim text.toList))) ∧
    (∀ name content expanded parts last, value = .text (String.ofList (gapped parts last)) →
      2 ≤ parts.length →
      (∀ part ∈ parts, '(' ∉ part.1 ∧ ∃ fallback, Reference.Gives part.2 name fallback) → '(' ∉ last →
      vars.bound? name = some (.text content) → vars.Expands content.toList expanded →
      vars.substitute value =
        .text (String.ofList ((parts.flatMap fun part => part.1 ++ expanded) ++ last))) := by
  have hevaluates := evaluates_substitute h
  have hresult : ∀ result, vars.Evaluates value result ↔ vars.substitute value = result := by
    intro result
    constructor
    · exact hevaluates.unique
    · rintro rfl
      exact hevaluates
  refine ⟨hresult, ?_, ?_, ?_⟩
  · intro n
    rw [← hresult]
    constructor
    · intro hnumber
      cases hnumber with
      | number _ => exact .inl rfl
      | reference his hstands =>
          cases hstands with
          | number hbound => exact .inr ⟨_, _, _, rfl, his, hbound⟩
    · rintro (rfl | ⟨text, name, fallback, rfl, his, hbound⟩)
      · exact .number n
      · exact .reference his (.number hbound)
  · rintro text name fallback rfl his hnumber
    refine ⟨substitute_of_is his hnumber, (expands_calls vars).1 [] _ ?_⟩
    exact (clear_of_acyclicFrom h).mono fun other hother => reachesFrom_of_trim his hother
  · rintro name content expanded parts last rfl htwo hparts hlast hbound hexpanded
    have hexpands := expands_gapped hbound hexpanded hparts hlast
    rw [← @String.toList_ofList (gapped parts last)] at hexpands
    rw [← hresult]
    refine .text ?_ hexpands
    match parts, htwo with
    | part :: next :: parts, _ =>
        obtain ⟨hgap, fallback, hgives⟩ := hparts part List.mem_cons_self
        rw [String.toList_ofList]
        exact not_is_gapped hgap hgives.balanced

/-- A border in the brand's colour, wanted twice. -/
theorem substitute_of_acyclic_border :
    let vars : Variables :=
      ⟨.ofList [("--border", .text "1px solid var(--brand)"), ("--brand", .text "#336699")]⟩
    let value : Value := .text "var(--border), var(--border, none)"
    vars.AcyclicFrom value ∧
      vars.substitute value = .text "1px solid #336699, 1px solid #336699" := by
  intro vars value
  have hplain : Reference.first? "#336699".toList = none := by decide +kernel
  have hsolid : Reference.first? "1px solid var(--brand)".toList =
      some ("1px solid ".toList, "--brand".toList, []) := by decide +kernel
  have hrefers : ∀ name other, vars.Refers name other → name = "--border" ∧ other = "--brand" := by
    rintro name other ⟨found, hfound, hmentions⟩
    have hmem : (name, found) ∈
        [("--border", Value.text "1px solid var(--brand)"), ("--brand", Value.text "#336699")] :=
      Declaration.get?_eq_some_iff.mp hfound
    simp only [List.mem_cons, List.not_mem_nil, or_false, Prod.mk.injEq] at hmem
    rcases hmem with ⟨rfl, rfl⟩ | ⟨rfl, rfl⟩
    · exact ⟨rfl, Reference.eq_of_mentions hsolid (by decide +kernel) (by decide +kernel) hmentions⟩
    · exact absurd hmentions (Reference.not_mentions_of_first? hplain other)
  have hacyclic : vars.AcyclicFrom value := by
    intro name _ hcycle
    obtain ⟨_, hfirst, -⟩ := Relation.TransGen.head'_iff.mp hcycle
    obtain ⟨_, -, hlast⟩ := Relation.TransGen.tail'_iff.mp hcycle
    exact absurd ((hrefers _ _ hfirst).1.symm.trans (hrefers _ _ hlast).2) (by decide)
  have hgives : ∀ inside name fallback, Reference.whole? (Reference.call inside) = some inside →
      Reference.name inside = name → Reference.fallback? inside = fallback →
      Reference.Gives inside name fallback := fun inside name fallback hwhole hname hfallback =>
    (Reference.gives_iff (Reference.whole?_eq_some_iff.mp hwhole).1).mpr ⟨hname, hfallback⟩
  have hexpanded : vars.Expands "1px solid var(--brand)".toList "1px solid #336699".toList :=
    .reference (Reference.first?_eq_some_iff.mp hsolid)
      (hgives _ "--brand" none (by decide +kernel) (by decide +kernel) (by decide +kernel))
      (.text rfl (.plain (Reference.first?_eq_none_iff.mp hplain)))
      (.plain (Reference.first?_eq_none_iff.mp rfl))
  obtain ⟨-, -, -, hrepeated⟩ := substitute_of_acyclic hacyclic
  refine ⟨hacyclic, hrepeated "--border" _ _
    [([], "--border".toList), (", ".toList, "--border, none".toList)] [] rfl (by decide) ?_ (by decide)
    rfl hexpanded⟩
  simp only [List.forall_mem_cons]
  refine ⟨⟨by decide, none, ?_⟩, ⟨by decide, some "none".toList, ?_⟩, fun _ h => absurd h List.not_mem_nil⟩
  · exact hgives _ _ _ (by decide +kernel) (by decide +kernel) (by decide +kernel)
  · exact hgives _ _ _ (by decide +kernel) (by decide +kernel) (by decide +kernel)

end Variables

end StyleCascade
