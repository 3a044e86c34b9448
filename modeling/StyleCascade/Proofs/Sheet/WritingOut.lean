/-
# StyleCascade.Proofs.Sheet.WritingOut — a reference is another way of writing a key

What refers to the key it is written below can be written without the reference: it takes the place right
behind the entry of that key, under its own key with the reference filled in. The expanded sheet is the same,
to the order of its entries (`expand_eq_of_writesOut`), wherever in the sheet this is done.

Expanding resolves a level from two parts, the entries that stay and those that move up, and both are read off
the source entry by entry. Without the entries that refer, a level keeps what stays and nothing moves up
(`resolve_unreferring`). Those entries, with the references filled in, are all that stays on the level above
(`resolve_writtenOut`): the key filled in is closed and refers to nothing, so no reference is left in them to
be filled a second time. What stands inside of them is resolved below the same key either way, and moves along
with them.

The keys written out can clash with others on their level. Where they do not, the sheet is as tidy as it was
(`tidy_of_writesOut`).
-/
import StyleCascade.Proofs.Sheet.NormalForm
import StyleCascade.Rule.Extraction

namespace StyleCascade

variable {m : Type → Type}

/-! ## Levels side by side -/

/-- Two levels with the entries of the first in front. -/
def Level.append (level more : Level m) : Level m :=
  ⟨level.stay ++ more.stay, level.rise ++ more.rise⟩

theorem Level.push_append (entries : List (String × Style m)) (rises : Bool) (level more : Level m) :
    (level.append more).push entries rises = (level.push entries rises).append more := by
  cases rises <;> simp [push, append]

namespace Sheet

/-- Entries are resolved one by one: those of two levels side by side are those of each. -/
theorem resolve_append (enclosing : Option String) (level more : List (String × Style m)) :
    resolve enclosing (level ++ more) = (resolve enclosing level).append (resolve enclosing more) := by
  induction level with
  | nil => rfl
  | cons e level ih =>
      obtain ⟨key, style⟩ := e
      rw [List.cons_append, resolve, resolve, ih]
      split
      · exact Level.push_append ..
      · exact Level.push_append ..

theorem resolve_cons_of_not_refers (enclosing : Option String) {key : String} {style : Style m}
    (h : style.refersBy key = false) (rest : List (String × Style m)) :
    resolve enclosing ((key, style) :: rest) =
      (resolve enclosing rest).push (style.resolve key) false := by
  rw [resolve]
  cases hvalue : style.isValue with
  | true =>
      obtain ⟨v, rfl⟩ := Style.exists_value_of_isValue hvalue
      rw [Style.resolve]
      rfl
  | false =>
      have hkey : Key.hasReference key.toList = false := by
        rw [Style.refersBy, hvalue] at h
        exact h
      rw [Key.resolve_of_not_hasReference hkey]
      rfl

theorem resolve_cons_of_refers (outer : String) {key : String} {style : Style m}
    (h : style.refersBy key = true) (rest : List (String × Style m)) :
    resolve (some outer) ((key, style) :: rest) = (resolve (some outer) rest).push
      (style.resolve (String.ofList (Key.fillReferences outer.toList key.toList))) true := by
  obtain ⟨hvalue, href⟩ := Bool.and_eq_true_iff.mp h
  have hresolve : Key.resolve (some outer) key =
      (String.ofList (Key.fillReferences outer.toList key.toList), true) :=
    if_pos href
  rw [resolve, if_neg (by simpa using hvalue), hresolve]

/-! ## Writing references out -/

/-- The entries of a level that do not refer to the key it stands below. -/
def unreferring (entries : List (String × Style m)) : List (String × Style m) :=
  entries.filter fun e => !e.2.refersBy e.1

/-- The entries of a level that do, with the key in the place of every reference to it. -/
def writtenOut (outer : String) (entries : List (String × Style m)) : List (String × Style m) :=
  (entries.filter fun e => e.2.refersBy e.1).map fun e =>
    (String.ofList (Key.fillReferences outer.toList e.1.toList), e.2)

/-- The first sheet with a reference written out: below a resolved key the entries that refer to it are
taken out, and put behind its own entry with the key filled in. -/
inductive WritesOut : Sheet m → Sheet m → Prop
  | nested (before after : List (String × Style m)) {key : String} (hkey : Key.Resolved key)
      (entries : List (String × Style m)) :
      WritesOut (before ++ (key, .nested entries) :: after)
        (before ++ (key, .nested (unreferring entries)) :: (writtenOut key entries ++ after))

/-- The first sheet with one of its levels changed, the root or one at any depth. -/
inductive Within (change : Sheet m → Sheet m → Prop) : Sheet m → Sheet m → Prop
  | root {sheet changed : Sheet m} : change sheet changed → Within change sheet changed
  | nested (before after : List (String × Style m)) (key : String)
      {entries changed : List (String × Style m)} : Within change entries changed →
      Within change (before ++ (key, .nested entries) :: after)
        (before ++ (key, .nested changed) :: after)

theorem refersBy_writtenOut {outer : String} (houter : Key.Resolved outer)
    (entries : List (String × Style m)) :
    ∀ e ∈ writtenOut outer entries, e.2.refersBy e.1 = false := by
  intro e he
  obtain ⟨source, -, rfl⟩ := List.mem_map.mp he
  have href := Key.hasReference_fillReferences houter source.1
  rw [Style.refersBy, Key.marks, String.toList_ofList]
  exact Bool.and_eq_false_imp.mpr fun _ => href

/-- Without the entries that refer, the same entries stay and nothing moves up. -/
theorem resolve_unreferring (outer : String) (entries : List (String × Style m)) :
    resolve (some outer) (unreferring entries) = ⟨(resolve (some outer) entries).stay, []⟩ := by
  induction entries with
  | nil => rfl
  | cons e entries ih =>
      obtain ⟨key, style⟩ := e
      cases href : style.refersBy key with
      | false =>
          have hcons : unreferring ((key, style) :: entries) = (key, style) :: unreferring entries :=
            List.filter_cons_of_pos (by rw [href]; rfl)
          rw [hcons, resolve_cons_of_not_refers _ href, resolve_cons_of_not_refers _ href, ih]
          rfl
      | true =>
          have hcons : unreferring ((key, style) :: entries) = unreferring entries :=
            List.filter_cons_of_neg (by rw [href]; exact Bool.false_ne_true)
          rw [hcons, resolve_cons_of_refers _ href, ih]
          rfl

/-- With the key filled in, the entries that refer stay on the level above, and are what moved up there. -/
theorem resolve_writtenOut {outer : String} (houter : Key.Resolved outer) (enclosing : Option String)
    (entries : List (String × Style m)) :
    resolve enclosing (writtenOut outer entries) = ⟨(resolve (some outer) entries).rise, []⟩ := by
  induction entries with
  | nil => rfl
  | cons e entries ih =>
      obtain ⟨key, style⟩ := e
      cases href : style.refersBy key with
      | false =>
          have hcons : writtenOut outer ((key, style) :: entries) = writtenOut outer entries := by
            unfold writtenOut
            rw [List.filter_cons_of_neg (by rw [href]; exact Bool.false_ne_true)]
          rw [hcons, resolve_cons_of_not_refers _ href, ih]
          rfl
      | true =>
          have hcons : writtenOut outer ((key, style) :: entries) =
              (String.ofList (Key.fillReferences outer.toList key.toList), style) ::
                writtenOut outer entries := by
            unfold writtenOut
            rw [List.filter_cons_of_pos (by exact href), List.map_cons]
          -- the key filled in refers to nothing any more
          have hfilled := refersBy_writtenOut houter ((key, style) :: entries)
          rw [hcons, List.forall_mem_cons] at hfilled
          rw [hcons, resolve_cons_of_not_refers _ hfilled.1, resolve_cons_of_refers _ href, ih]
          rfl

/-- Writing a reference out changes nothing of what a level resolves to, whatever it stands below. -/
theorem WritesOut.resolve_eq {sheet written : Sheet m} (h : WritesOut sheet written)
    (enclosing : Option String) : resolve enclosing sheet = resolve enclosing written := by
  obtain ⟨before, after, hkey, entries⟩ := h
  rename_i key
  have hrefers : ∀ inner : List (String × Style m), (Style.nested inner).refersBy key = false :=
    fun _ => hkey.refers
  rw [resolve_append, resolve_append, resolve_cons_of_not_refers _ (hrefers entries),
    resolve_cons_of_not_refers _ (hrefers _), resolve_append, resolve_writtenOut hkey, Style.resolve,
    Style.resolve, resolve_unreferring]
  simp [Level.append, Level.push]

/-! ## At any depth -/

/-- A change that leaves what its level resolves to leaves what the levels around it resolve to. -/
theorem Within.resolve_eq {change : Sheet m → Sheet m → Prop}
    (hchange : ∀ {sheet changed}, change sheet changed →
      ∀ enclosing, resolve enclosing sheet = resolve enclosing changed)
    {sheet changed : Sheet m} (h : Within change sheet changed) (enclosing : Option String) :
    resolve enclosing sheet = resolve enclosing changed := by
  induction h generalizing enclosing with
  | root h => exact hchange h enclosing
  | @nested before after key entries changed _ ih =>
      -- whatever the key becomes, the same entries are resolved below it
      have hstyle (outer : String) :
          Style.resolve outer (.nested entries) = Style.resolve outer (.nested changed) := by
        rw [Style.resolve, Style.resolve, ih (some outer)]
      rw [resolve_append, resolve_append, resolve, resolve]
      simp only [Style.isValue, Bool.false_eq_true, if_false, hstyle]

/-- The warnings are about the entries at the root that refer. -/
theorem expansionWarnings_append (sheet more : Sheet m) :
    expansionWarnings (sheet ++ more) = expansionWarnings sheet ++ expansionWarnings more := by
  unfold expansionWarnings
  rw [List.filter_append, List.map_append]

theorem expansionWarnings_cons_nested (key : String) (entries : List (String × Style m)) (rest : Sheet m) :
    expansionWarnings ((key, .nested entries) :: rest) =
      (if Key.hasReference key.toList then [.unenclosedReference key] else []) ++
        expansionWarnings rest := by
  unfold expansionWarnings
  rw [List.filter_cons]
  simp only [Style.isValue, Bool.not_false, Bool.true_and]
  split
  · rfl
  · rfl

theorem WritesOut.expansionWarnings_eq {sheet written : Sheet m} (h : WritesOut sheet written) :
    expansionWarnings sheet = expansionWarnings written := by
  obtain ⟨before, after, hkey, entries⟩ := h
  have hwritten : ∀ outer : String, Key.Resolved outer →
      expansionWarnings (writtenOut outer entries) = [] := by
    intro outer houter
    unfold expansionWarnings
    rw [List.filter_eq_nil_iff.mpr fun e he => ?_, List.map_nil]
    have href := refersBy_writtenOut houter entries e he
    exact Bool.eq_false_iff.mp href
  simp only [expansionWarnings_append, expansionWarnings_cons_nested, hwritten _ hkey, List.nil_append]

/-- Somewhere in a sheet, take out the entries that refer to the key they are written below, where that key
is closed and refers to nothing itself, and write them behind the entry of that key with the key filled in.
The sheet expands to the same entries in the same order, its table of rules is the same, and so are the
warnings. -/
theorem expand_eq_of_writesOut {sheet written : Sheet m} (h : Within WritesOut sheet written) :
    sheet.expand = written.expand ∧
      (∀ vars : Variables, RuleTable.ofSheet vars sheet = RuleTable.ofSheet vars written) ∧
      sheet.expansionWarnings = written.expansionWarnings := by
  have hexpand : sheet.expand = written.expand := by
    unfold expand
    rw [h.resolve_eq WritesOut.resolve_eq none]
  refine ⟨hexpand, fun vars => ?_, ?_⟩
  · unfold RuleTable.ofSheet
    rw [hexpand]
  · cases h with
    | root h => exact h.expansionWarnings_eq
    | nested before after key _ =>
        simp only [expansionWarnings_append, expansionWarnings_cons_nested]

/-- The spaced key is filled in for both references of `ul & li &`, and what refers inside of `&:hover`
moves up with it. -/
theorem expand_eq_of_writesOut_card :
    let red : Style Id := .nested [("color", .value (.text "red"))]
    let hover : Style Id := .nested [("& > b", red), ("color", .value (.text "blue"))]
    let sheet : Sheet Id :=
      [("main", .nested [("card .title", .nested
          [("&:hover", hover), ("span", red), ("ul & li &", red), ("[&]", red)]), ("card", red)])]
    let written : Sheet Id :=
      [("main", .nested [("card .title", .nested [("span", red), ("[&]", red)]),
          ("card .title:hover", hover), ("ul card .title li card .title", red), ("card", red)])]
    Within WritesOut sheet written ∧ sheet.expand = written.expand ∧
      (∀ vars : Variables, RuleTable.ofSheet vars sheet = RuleTable.ofSheet vars written) ∧
      sheet.expansionWarnings = written.expansionWarnings := by
  intro red hover sheet written
  have hkey : Key.Resolved "card .title" := ⟨by decide +kernel, by decide +kernel⟩
  have hrefers : ∀ style : Style Id, style.isValue = false →
      style.refersBy "&:hover" = true ∧ style.refersBy "span" = false ∧
        style.refersBy "ul & li &" = true ∧ style.refersBy "[&]" = false := by
    intro style hvalue
    unfold Style.refersBy
    rw [hvalue]
    decide +kernel
  let entries : List (String × Style Id) :=
    [("&:hover", hover), ("span", red), ("ul & li &", red), ("[&]", red)]
  have hunreferring : unreferring entries = [("span", red), ("[&]", red)] := by
    simp [entries, unreferring, hrefers red rfl, hrefers hover rfl]
  have hwrittenOut : writtenOut "card .title" entries =
      [("card .title:hover", hover), ("ul card .title li card .title", red)] := by
    simp only [entries, writtenOut, List.filter_cons, hrefers red rfl, hrefers hover rfl, if_true,
      Bool.false_eq_true, if_false, List.filter_nil, List.map_cons, List.map_nil, List.cons.injEq,
      Prod.mk.injEq, and_true]
    decide +kernel
  have hlevel := WritesOut.nested [] [("card", red)] hkey entries
  rw [hunreferring, hwrittenOut] at hlevel
  have hwrites : Within WritesOut sheet written := .nested [] [] "main" (.root hlevel)
  exact ⟨hwrites, expand_eq_of_writesOut hwrites⟩

/-! ## Unique keys -/

/-- A level is as tidy as it was after one of its entries has changed to something as tidy. -/
theorem tidy_below {before after : List (String × Style m)} {key : String} {style changed : Style m}
    (hchanged : style.Tidy → changed.Tidy)
    (h : (Style.nested (before ++ (key, style) :: after)).Tidy) :
    (Style.nested (before ++ (key, changed) :: after)).Tidy := by
  obtain ⟨hnodup, hmembers⟩ := Style.tidy_nested_iff.mp h
  refine Style.tidy_nested_iff.mpr ⟨?_, ?_⟩
  · unfold Keyed.keys at hnodup ⊢
    rwa [List.map_append, List.map_cons] at hnodup ⊢
  · rw [List.forall_mem_append, List.forall_mem_cons] at hmembers ⊢
    exact ⟨hmembers.1, hchanged hmembers.2.1, hmembers.2.2⟩

theorem WritesOut.tidy {sheet written : Sheet m} (h : WritesOut sheet written)
    (hkeys : (Keyed.keys written).Nodup) (htidy : (Style.nested sheet).Tidy) :
    (Style.nested written).Tidy := by
  obtain ⟨before, after, -, entries⟩ := h
  obtain ⟨-, hmembers⟩ := Style.tidy_nested_iff.mp htidy
  rw [List.forall_mem_append, List.forall_mem_cons] at hmembers
  obtain ⟨hbefore, hentries, hafter⟩ := hmembers
  obtain ⟨hnodup, hinside⟩ := Style.tidy_nested_iff.mp hentries
  refine Style.tidy_nested_iff.mpr ⟨hkeys, ?_⟩
  rw [List.forall_mem_append, List.forall_mem_cons, List.forall_mem_append]
  refine ⟨hbefore, Style.tidy_nested_iff.mpr ⟨?_, ?_⟩, ?_, hafter⟩
  · exact hnodup.sublist (List.filter_sublist.map _)
  · exact fun e he => hinside e (List.mem_of_mem_filter he)
  · intro e he
    obtain ⟨source, hsource, rfl⟩ := List.mem_map.mp he
    exact hinside source (List.mem_of_mem_filter hsource)

/-- Where the keys written out clash with none on their level, no key comes to be on a level twice. -/
theorem tidy_of_writesOut {sheet written : Sheet m}
    (h : Within (fun sheet written => WritesOut sheet written ∧ (Keyed.keys written).Nodup) sheet written)
    (htidy : (Style.nested sheet).Tidy) : (Style.nested written).Tidy := by
  induction h with
  | root h => exact h.1.tidy h.2 htidy
  | nested before after key _ ih => exact tidy_below ih htidy

end Sheet

end StyleCascade
