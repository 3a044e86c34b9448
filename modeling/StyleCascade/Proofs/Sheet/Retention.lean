/-
# StyleCascade.Proofs.Sheet.Retention — which styles expanding a sheet keeps

A style that nothing else writes need not stand in the expanded sheet. Merging puts a nested sheet in the
place of a declaration or a dynamic style, and either of these in the place of a nested sheet, so an entry
can be lost to a later one whose path goes on beyond its own (`expand_loses_declaration`).

`stands_iff` says when it is kept: exactly if nothing that is merged over it later covers its place. Read
off the source, as long as nothing later without keys writes above it, that is to say that nothing that
is placed later writes at its place or below. A style that stands gives its rule
(`isExtracted_of_stands`), and of two styles of which one is written above the other, one is always lost
(`not_both_stand`), so a sheet keeps all its styles exactly if no writing concerns the place of an earlier
style (`all_stand_iff`).
-/
import StyleCascade.Proofs.Rule.Preorder
import StyleCascade.Proofs.Sheet.Rivals

namespace StyleCascade

variable {m : Type → Type}

/-! ## Rules of what stands -/

namespace Sheet

variable {vars : Variables} {chain : List Selector} {above : Specificity}

theorem mem_rulesBelow_of_lookup {entries : List (String × Style m)} {key : String} {style : Style m}
    (h : entries.lookup key = some style) {r : Rule m} (hr : r ∈ style.rules vars chain above key) :
    r ∈ rulesBelow vars chain above entries := by
  induction entries with
  | nil => exact absurd h (by simp)
  | cons head rest ih =>
      obtain ⟨k, other⟩ := head
      rw [Keyed.lookup_cons] at h
      rw [rulesBelow, List.mem_append]
      split at h
      · rename_i hk
        obtain rfl := Option.some.inj h
        rw [← hk]
        exact .inl hr
      · exact .inr (ih h)

theorem weightAlong_concat (above : Specificity) (start : List String) (key : String) :
    weightAlong above (start ++ [key]) = weightAlong above start + (Selector.ofString key).weight := by
  unfold weightAlong
  rw [List.foldl_append]
  rfl

/-- The rules of what stands at a path are among the rules of the sheet, with the path as their chain. -/
theorem mem_rulesBelow_of_at? {entries : List (String × Style m)} {start : List String} {key : String}
    {style : Style m} (h : (Style.nested entries).at? (start ++ [key]) = some style) {r : Rule m}
    (hr : r ∈ style.rules vars (chain ++ start.map Selector.ofString) (weightAlong above start) key) :
    r ∈ rulesBelow vars chain above entries := by
  induction start generalizing entries chain above with
  | nil =>
      obtain ⟨inner, hinner, hstyle⟩ := Option.bind_eq_some_iff.mp h
      obtain rfl := Option.some.inj hstyle
      rw [List.map_nil, List.append_nil] at hr
      exact mem_rulesBelow_of_lookup hinner hr
  | cons k start ih =>
      obtain ⟨inner, hinner, hstyle⟩ := Option.bind_eq_some_iff.mp h
      apply mem_rulesBelow_of_lookup hinner
      -- the path goes on, so a nested sheet stands under its first key
      rcases Style.isNested_or_eq inner with hleaf | ⟨inner, rfl⟩
      · cases start <;> exact absurd hstyle (by simp [Style.at?_cons_of_not_nested hleaf])
      · rw [Style.rules, List.mem_append]
        refine .inr (ih hstyle ?_)
        rw [List.append_assoc]
        exact hr

/-- What stands at a path and gives a rule there gives it with the path as its selectors. -/
theorem exists_rule_of_at? {sheet : Sheet m} {path : List String} (hpath : path ≠ [])
    {style : Style m} (hat : (Style.nested sheet).at? path = some style) {content : RuleStyle m}
    (hrule : ∀ chain above key, ⟨Selector.ofString key, chain,
      above + (Selector.ofString key).weight, content⟩ ∈ style.rules vars chain above key) :
    ∃ r ∈ rules vars sheet, r.chain ++ [r.selector] = path.map Selector.ofString ∧
      r.weight = weightAlong .zero path ∧ r.style = content := by
  rcases List.eq_nil_or_concat path with hnil | ⟨start, key, heq⟩
  · exact absurd hnil hpath
  · rw [List.concat_eq_append] at heq
    subst heq
    refine ⟨_, mem_rulesBelow_of_at? hat (hrule _ _ key), ?_, ?_, rfl⟩
    · rw [List.map_append]
      rfl
    · exact (weightAlong_concat .zero start key).symm

end Sheet

theorem Style.at?_append (style : Style m) (path rest : List String) :
    style.at? (path ++ rest) = (style.at? path).bind fun inner => inner.at? rest := by
  induction path generalizing style with
  | nil => rfl
  | cons key path ih =>
      rcases isNested_or_eq style with hleaf | ⟨entries, rfl⟩
      · rw [List.cons_append, at?_cons_of_not_nested hleaf, at?_cons_of_not_nested hleaf]
        rfl
      · rw [List.cons_append, at?, at?, Option.bind_assoc]
        simp only [ih]

theorem Style.tidy_of_at? {style : Style m} (h : style.Tidy) {path : List String} {inner : Style m}
    (hinner : style.at? path = some inner) : inner.Tidy := by
  induction path generalizing style with
  | nil =>
      obtain rfl := Option.some.inj hinner
      exact h
  | cons key path ih =>
      rcases isNested_or_eq style with hleaf | ⟨entries, rfl⟩
      · rw [at?_cons_of_not_nested hleaf] at hinner
        exact absurd hinner (by simp)
      · obtain ⟨next, hnext, hinner⟩ := Option.bind_eq_some_iff.mp hinner
        exact ih (tidy_of_lookup (tidy_nested_iff.mp h).2 hnext) hinner

namespace Writing

/-- The writing stands in a sheet as it was written. -/
def StandsIn (w : Writing m) (sheet : Sheet m) : Prop :=
  (Style.nested sheet).at? w.slot = some w.content

/-- The writing is one that rules are taken from: a property value below a selector, a declaration with
a property, or a dynamic style. -/
def YieldsRule (w : Writing m) : Prop :=
  match w.content with
  | .value _ => w.path ≠ []
  | .declaration d => d.isEmpty = false
  | .dynamic _ => True
  | .nested _ => False

/-- One of some rules is taken from the writing: its selectors are the path and its weight is theirs, and
its properties are what is written, or have it among them. -/
def IsExtracted (vars : Variables) (rules : List (Rule m)) (w : Writing m) : Prop :=
  ∃ r ∈ rules, r.chain ++ [r.selector] = w.path.map Selector.ofString ∧
    r.weight = Sheet.weightAlong .zero w.path ∧
    match w.content with
    | .value v => ∃ properties name, w.name = some name ∧ r.style = .fixed properties ∧
        properties.get? name = some (vars.substitute v)
    | .declaration d => r.style = .fixed (d.mapValues vars.substitute)
    | .dynamic f => r.style = .computed f
    | .nested _ => False

theorem slot_eq_path {w : Writing m} (h : w.content.isValue = false) : w.slot = w.path := by
  have hname := w.named
  rw [h, Option.isSome_eq_false_iff, Option.isNone_iff_eq_none] at hname
  unfold slot
  rw [hname, Option.toList_none, List.append_nil]

/-- What stands in a tidy sheet gives its rule. -/
theorem isExtracted_of_stands {w : Writing m} {sheet : Sheet m} (htidy : (Style.nested sheet).Tidy)
    (hstands : w.StandsIn sheet) (hyields : w.YieldsRule) (vars : Variables) :
    w.IsExtracted vars (Sheet.rules vars sheet) := by
  unfold StandsIn at hstands
  unfold YieldsRule at hyields
  unfold IsExtracted
  have hnamed := w.named
  cases hcontent : w.content with
  | value v =>
      rw [hcontent] at hstands hyields hnamed
      obtain ⟨name, hname⟩ := Option.isSome_iff_exists.mp hnamed
      -- the value stands in a nested sheet at the path, whose own properties make the rule
      have hslot : w.slot = w.path ++ [name] := by
        unfold slot
        rw [hname, Option.toList_some]
      rw [hslot, Style.at?_append] at hstands
      obtain ⟨level, hlevel, hvalue⟩ := Option.bind_eq_some_iff.mp hstands
      rcases Style.isNested_or_eq level with hleaf | ⟨entries, rfl⟩
      · rw [Style.at?_cons_of_not_nested hleaf] at hvalue
        exact absurd hvalue (by simp)
      · obtain ⟨inner, hinner, hvalue⟩ := Option.bind_eq_some_iff.mp hvalue
        obtain rfl := Option.some.inj hvalue
        have hnodup := (Style.tidy_nested_iff.mp (Style.tidy_of_at? htidy hlevel)).1
        have hget := Sheet.get?_ownProperties vars entries name
        rw [Sheet.lastValue?_eq_lookup hnodup, hinner] at hget
        have hrule : ∀ chain above key, (⟨Selector.ofString key, chain,
            above + (Selector.ofString key).weight, .fixed (Sheet.ownProperties vars entries)⟩ :
              Rule m) ∈ (Style.nested entries).rules vars chain above key := by
          intro chain above key
          rw [Style.rules, List.mem_append, Rule.ofProperties,
            Declaration.isEmpty_eq_false_of_get? hget]
          exact .inl List.mem_cons_self
        obtain ⟨r, hr, hselectors, hweight, hfixed⟩ :=
          Sheet.exists_rule_of_at? hyields hlevel hrule
        exact ⟨r, hr, hselectors, hweight, _, name, hname, hfixed, hget⟩
  | declaration d =>
      rw [hcontent] at hstands hyields
      have hslot : w.slot = w.path := slot_eq_path (by rw [hcontent]; rfl)
      rw [hslot] at hstands
      have hempty : (d.mapValues vars.substitute).isEmpty = false := by
        unfold Declaration.isEmpty Declaration.mapValues at *
        simpa using hyields
      apply Sheet.exists_rule_of_at? (hslot ▸ w.slot_ne_nil) hstands
      intro chain above key
      rw [Style.rules, Rule.ofProperties, hempty]
      exact List.mem_cons_self
  | dynamic f =>
      rw [hcontent] at hstands
      have hslot : w.slot = w.path := slot_eq_path (by rw [hcontent]; rfl)
      rw [hslot] at hstands
      apply Sheet.exists_rule_of_at? (hslot ▸ w.slot_ne_nil) hstands
      intro chain above key
      rw [Style.rules]
      exact List.mem_cons_self
  | nested entries =>
      rw [hcontent] at hyields
      exact absurd hyields (by simp)

/-! ## Kept and lost -/

/-- Something without keys is written above another writing. -/
def IsAbove (u w : Writing m) : Prop :=
  u.content.isNested = false ∧ u.slot <+: w.slot ∧ u.slot ≠ w.slot

theorem last?_self {w : Writing m} {after : List (Writing m)}
    (h : ∀ u ∈ after, u.concerns w.slot = false) (before : List (Writing m)) :
    last? w.slot (before ++ w :: after) = some w := by
  have hw : w.concerns w.slot = true := (concerns_iff _ _).mpr (.inl List.prefix_rfl)
  rw [last?_append, ← List.singleton_append, last?_append, last?_eq_none h, last?_singleton, if_pos hw]
  rfl

/-- A style that nothing later concerns is kept. -/
theorem stands_of_not_concerns {sheet : Sheet m} {before after : List (Writing m)} {w : Writing m}
    (hsource : sheet.writings = before ++ w :: after) (hstyle : w.content.isNested = false)
    (hlater : ∀ u ∈ after, u.concerns w.slot = false) : w.StandsIn sheet.expand := by
  have hlast := last?_self hlater before
  rw [← hsource] at hlast
  obtain ⟨found, hfound, hleaves⟩ :=
    sheet.shows_expand.shown w.slot w.slot_ne_nil w hlast List.prefix_rfl
  unfold Leaves at hleaves
  rw [if_pos ⟨rfl, hstyle⟩] at hleaves
  unfold StandsIn
  rw [hfound, hleaves]

/-- Writings of the same content in the same place have the same path and name. -/
theorem eq_of_slot_eq {u w : Writing m} (hslot : u.slot = w.slot) (hcontent : u.content = w.content) :
    u.path = w.path ∧ u.name = w.name := by
  have hnames : u.name.isSome = w.name.isSome := by
    rw [u.named, w.named, hcontent]
  unfold slot at hslot
  cases hu : u.name with
  | none =>
      rw [hu, Option.isSome_none] at hnames
      have hw : w.name = none := Option.isNone_iff_eq_none.mp (Option.isSome_eq_false_iff.mp hnames.symm)
      rw [hu, hw, Option.toList_none, List.append_nil, List.append_nil] at hslot
      exact ⟨hslot, hw.symm⟩
  | some name =>
      rw [hu, Option.isSome_some] at hnames
      obtain ⟨name', hw⟩ := Option.isSome_iff_exists.mp hnames.symm
      rw [hu, hw] at hslot
      obtain ⟨hpath, hname⟩ := List.append_inj' hslot rfl
      rw [hw]
      exact ⟨hpath, congrArg some (List.head_eq_of_cons_eq hname)⟩

theorem not_concerns_of_not_prefix {u w : Writing m} (hbelow : ¬w.slot <+: u.slot)
    (habove : ¬u.IsAbove w) : u.concerns w.slot = false := by
  rw [Bool.eq_false_iff, Ne, concerns_iff]
  rintro (h | ⟨hnested, h⟩)
  · exact hbelow h
  · by_cases heq : u.slot = w.slot
    · exact hbelow (by rw [heq])
    · exact habove ⟨hnested, h, heq⟩

/-- A style is lost to whatever writes later at its place or below. -/
theorem not_stands_of_prefix {sheet : Sheet m} {before after : List (Writing m)} {w u : Writing m}
    (hsource : sheet.writings = before ++ w :: after) (hstyle : w.content.isNested = false)
    (halone : ∀ v ∈ after, ¬(v.path = w.path ∧ v.name = w.name))
    (hfree : ∀ v ∈ after, ¬v.IsAbove w) (hu : u ∈ after) (hbelow : w.slot <+: u.slot) :
    ¬w.StandsIn sheet.expand := by
  intro hstands
  have hconcerns : u.concerns w.slot = true := (concerns_iff _ _).mpr (.inl hbelow)
  -- the last of the later ones that concern the place is not above it, so it decides
  obtain ⟨v, hv⟩ : ∃ v, last? w.slot after = some v := by
    rw [← Option.isSome_iff_exists, last?, List.find?_isSome]
    exact ⟨u, List.mem_reverse.mpr hu, hconcerns⟩
  have hvmem : v ∈ after := mem_of_last? hv
  have hvbelow : w.slot <+: v.slot := by
    have := List.find?_some hv
    rcases (concerns_iff _ _).mp this with h | ⟨hnested, h⟩
    · exact h
    · by_cases heq : v.slot = w.slot
      · rw [heq]
      · exact absurd ⟨hnested, h, heq⟩ (hfree v hvmem)
  have hlast : last? w.slot sheet.writings = some v := by
    rw [hsource, last?_append, ← List.singleton_append, last?_append, hv]
    rfl
  obtain ⟨found, hfound, hleaves⟩ :=
    sheet.shows_expand.shown w.slot w.slot_ne_nil v hlast hvbelow
  obtain rfl : w.content = found := Option.some.inj (hstands.symm.trans hfound)
  unfold Leaves at hleaves
  split at hleaves
  · -- it cannot be the style itself, written twice
    rename_i hslot
    exact halone v hvmem (eq_of_slot_eq hslot.1 hleaves.symm)
  · rw [hstyle] at hleaves
    exact absurd hleaves (by simp)

/-- Of two writings of which one is above the other, one is lost. -/
theorem not_both_stand {u w : Writing m} (h : u.IsAbove w) (sheet : Sheet m) :
    ¬(u.StandsIn sheet ∧ w.StandsIn sheet) := by
  rintro ⟨hu, hw⟩
  obtain ⟨hnested, ⟨rest, hrest⟩, hne⟩ := h
  unfold StandsIn at hu hw
  rw [← hrest, Style.at?_append, hu, Option.bind_some] at hw
  cases rest with
  | nil => exact hne (by rw [← hrest, List.append_nil])
  | cons key rest =>
      rw [Style.at?_cons_of_not_nested hnested] at hw
      exact absurd hw (by simp)

/-- Where nothing without keys is placed later above a style, it is kept exactly if nothing placed later
writes at its place or below. -/
theorem stands_iff_of_not_above {sheet : Sheet m} {before after : List (Writing m)} {w : Writing m}
    (hsource : sheet.writings = before ++ w :: after) (hstyle : w.content.isNested = false)
    (halone : ∀ u ∈ after, ¬(u.path = w.path ∧ u.name = w.name))
    (hfree : ∀ u ∈ after, ¬u.IsAbove w) :
    w.StandsIn sheet.expand ↔ ∀ u ∈ after, ¬w.slot <+: u.slot := by
  constructor
  · intro hstands u hu hbelow
    exact not_stands_of_prefix hsource hstyle halone hfree hu hbelow hstands
  · intro hlater
    apply stands_of_not_concerns hsource hstyle
    intro u hu
    exact not_concerns_of_not_prefix (hlater u hu) (hfree u hu)

end Writing

namespace Sheet

open Writing

/-- A sheet keeps all its styles exactly if no writing concerns the place of an earlier style. -/
theorem all_stand_iff {sheet : Sheet m}
    (halone : ∀ before w after, sheet.writings = before ++ w :: after → w.content.isNested = false →
      ∀ u ∈ before ++ after, ¬(u.path = w.path ∧ u.name = w.name)) :
    (∀ w ∈ sheet.writings, w.content.isNested = false → w.StandsIn sheet.expand) ↔
      ∀ before w after, sheet.writings = before ++ w :: after → w.content.isNested = false →
        ∀ u ∈ after, u.concerns w.slot = false := by
  constructor
  · intro hall before w after hsource hstyle u hu
    have hmem : ∀ v ∈ w :: after, v ∈ sheet.writings := by
      intro v hv
      rw [hsource]
      exact List.mem_append.mpr (.inr hv)
    have hstands := hall w (hmem w List.mem_cons_self) hstyle
    -- both would stand, and of two such writings one is always lost
    have hfree : ∀ v ∈ after, ¬v.IsAbove w := by
      intro v hv habove
      have hv' := hmem v (List.mem_cons_of_mem _ hv)
      exact not_both_stand habove sheet.expand ⟨hall v hv' habove.1, hstands⟩
    have hlater := (stands_iff_of_not_above hsource hstyle
      (fun v hv => halone before w after hsource hstyle v (List.mem_append.mpr (.inr hv))) hfree).mp hstands
    exact not_concerns_of_not_prefix (hlater u hu) (hfree u hu)
  · intro hlater w hw hstyle
    obtain ⟨before, after, hsource⟩ := List.append_of_mem hw
    exact stands_of_not_concerns hsource hstyle (hlater before w after hsource hstyle)

/-- Take a style whose path and name nothing else in the source writes.

- It stands in the expanded sheet exactly if nothing that is merged over it later covers its place.
- If nothing without keys is placed later above it, it stands exactly if nothing placed later writes at
  its place or below.
- When it stands, its rule is extracted. -/
theorem stands_iff {sheet : Sheet m} {before after : List (Trace m)} {t : Trace m}
    (hsource : sheet.traces = before ++ t :: after) (hstyle : t.writing.content.isNested = false)
    (halone : ∀ u ∈ before ++ after,
      ¬(u.writing.path = t.writing.path ∧ u.writing.name = t.writing.name)) :
    (t.writing.StandsIn sheet.expand ↔ t.Unrivalled) ∧
    ((∀ u ∈ after, ¬u.writing.IsAbove t.writing) →
      (t.writing.StandsIn sheet.expand ↔ ∀ u ∈ after, ¬t.writing.slot <+: u.writing.slot)) ∧
    (t.writing.StandsIn sheet.expand → t.writing.YieldsRule →
      ∀ vars, t.writing.IsExtracted vars (rules vars sheet.expand)) := by
  refine ⟨?_, ?_, ?_⟩
  · apply sheet.explainedBy_expand.kept before t after hsource hstyle
    intro u hu hrepeats
    exact halone u hu (eq_of_slot_eq hrepeats.1 hrepeats.2)
  · intro hfree
    have hwritings : sheet.writings =
        before.map (fun u => u.writing) ++ t.writing :: after.map fun u => u.writing := by
      rw [← map_writing_traces, hsource, List.map_append, List.map_cons]
    have halone' : ∀ v ∈ after.map (fun u => u.writing),
        ¬(v.path = t.writing.path ∧ v.name = t.writing.name) :=
      List.forall_mem_map.mpr fun u hu => halone u (List.mem_append.mpr (.inr hu))
    rw [stands_iff_of_not_above hwritings hstyle halone' (List.forall_mem_map.mpr hfree),
      List.forall_mem_map]
  · intro hstands hyields vars
    exact isExtracted_of_stands sheet.shows_expand.tidy hstands hyields vars

theorem path_list : Key.path "list" = ["list"] := by decide +kernel

theorem path_list_item : Key.path "list item" = ["list", "item"] := by decide +kernel

/-- Placed last, the declaration of a list is kept next to what is declared for its items, and makes its
rule. -/
theorem stands_iff_declaration_last :
    let red := Declaration.empty.set "color" (.text "red")
    let w : Writing Id := .ofSelector "list" (.declaration red) rfl
    let sheet : Sheet Id :=
      [("list item", .nested [("margin", .value (.text "1px"))]), ("list", .declaration red)]
    w.StandsIn sheet.expand ∧ w.IsExtracted {} (rules {} sheet.expand) := by
  intro red w sheet
  let item : Writing Id := .ofSelector "list item" (.nested [("margin", .value (.text "1px"))]) rfl
  let margin : Writing Id := (Writing.ofProperty "margin" (.text "1px")).below (Key.path "list item")
  have hsource : sheet.traces = [⟨item, _⟩, ⟨margin, _⟩] ++ ⟨w, []⟩ :: [] := rfl
  have halone : ∀ u ∈ [item, margin], ¬(u.path = w.path ∧ u.name = w.name) := by
    have hw : w.path = ["list"] := path_list
    have hitem : item.path = ["list", "item"] := path_list_item
    simp only [List.forall_mem_cons, hw, hitem]
    refine ⟨fun h => absurd h.1 (by decide), fun h => ?_, fun u hu => absurd hu List.not_mem_nil⟩
    have hname : some "margin" = none := h.2
    exact absurd hname (by simp)
  have hkept := stands_iff hsource rfl <| by
    intro u hu
    rw [List.append_nil] at hu
    have hwriting := List.mem_map_of_mem (f := Trace.writing) hu
    exact halone u.writing hwriting
  have hstands := hkept.1.mpr fun r hr => absurd hr List.not_mem_nil
  exact ⟨hstands, hkept.2.2 hstands rfl {}⟩

/-- Placed first, the declaration of a list is lost to what is declared for its items, although nothing
else writes at its path. -/
theorem expand_loses_declaration :
    let red := Declaration.empty.set "color" (.text "red")
    let w : Writing Id := .ofSelector "list" (.declaration red) rfl
    let sheet : Sheet Id :=
      [("list", .declaration red), ("list item", .nested [("margin", .value (.text "1px"))])]
    (∃ after, sheet.writings = w :: after ∧ ∀ u ∈ after, u.path ≠ w.path) ∧
      ¬w.StandsIn sheet.expand ∧ ∀ vars, ¬w.IsExtracted vars (rules vars sheet.expand) := by
  intro red w sheet
  let item : Writing Id := .ofSelector "list item" (.nested [("margin", .value (.text "1px"))]) rfl
  let margin : Writing Id := (Writing.ofProperty "margin" (.text "1px")).below (Key.path "list item")
  have hw : w.path = ["list"] := path_list
  have hslot : w.slot = ["list"] := path_list
  have hexpand : sheet.expand =
      [("list", .nested [("item", .nested [("margin", .value (.text "1px"))])])] := by
    have hlist : Key.segments ['l', 'i', 's', 't'] = [['l', 'i', 's', 't']] := by decide +kernel
    have hitem : Key.segments ['l', 'i', 's', 't', ' ', 'i', 't', 'e', 'm'] =
        [['l', 'i', 's', 't'], ['i', 't', 'e', 'm']] := by decide +kernel
    simp [sheet, expand, resolve, Style.resolve, Style.isValue, Key.resolve, Level.push, ofPlaced,
      place, mergeAt, nest, Style.over, Keyed.update, Keyed.set, hlist, hitem]
  refine ⟨⟨[item, margin], rfl, ?_⟩, ?_, ?_⟩
  · have hitem : item.path = ["list", "item"] := path_list_item
    have hmargin : margin.path = ["list", "item"] := by
      show Key.path "list item" ++ [] = _
      rw [path_list_item]
      rfl
    simp only [List.forall_mem_cons, hw, hitem, hmargin]
    exact ⟨by decide, by decide, fun u hu => absurd hu List.not_mem_nil⟩
  · unfold StandsIn
    rw [hexpand, hslot]
    intro h
    exact absurd (Option.some.inj h) (by simp [w, Writing.ofSelector])
  · intro vars
    rw [hexpand]
    rintro ⟨r, hr, hselectors, -, -⟩
    obtain rfl := List.mem_singleton.mp hr
    have := congrArg List.length hselectors
    rw [hw] at this
    exact absurd this (by simp)

end Sheet

end StyleCascade
