/-
# StyleCascade.Proofs.Sheet.Unenclosed — references at the root

At the root there is no key to fill in for a reference. An entry that refers is warned about, once, and its key is
left as it is. It is placed like any other, though: if its key has a gap, it is split there, and the parts below the
first one are then enclosed by it (`expand_splits_unenclosed`). So the key stands at the root of the expanded sheet
exactly if it has no gap, and then it stands there however often the sheet is expanded (`unenclosed_stays_iff`).

What stands under a key of the expanded sheet is what the entries placed at the root bring there, merged in their
order (`lookup_expand`).
-/
import StyleCascade.Proofs.Sheet.NormalForm

namespace StyleCascade

variable {m : Type → Type}

/-! ## What is placed at the root -/

/-- The content of a key once the references inside are resolved. -/
def Style.resolved (key : String) : Style m → Style m
  | .nested entries => .nested (Sheet.ofPlaced (Sheet.resolve (some key) entries).stay)
  | .value v => .value v
  | .declaration d => .declaration d
  | .dynamic f => .dynamic f

/-- The entries that move up out of the content of a key. -/
def Style.risen (key : String) : Style m → List (String × Style m)
  | .nested entries => (Sheet.resolve (some key) entries).rise
  | .value _ => []
  | .declaration _ => []
  | .dynamic _ => []

theorem Style.resolve_eq_cons (style : Style m) (key : String) :
    style.resolve key = (key, style.resolved key) :: style.risen key := by
  cases style <;> rw [Style.resolve, resolved, risen]

theorem Style.isValue_resolved (style : Style m) (key : String) :
    (style.resolved key).isValue = style.isValue := by
  cases style <;> rfl

mutual

/-- Resolving brings up no property value. -/
theorem Style.isValue_of_mem_resolve : ∀ (style : Style m), style.isValue = false → ∀ key : String,
    ∀ e ∈ style.resolve key, e.2.isValue = false
  | .nested entries, _ => fun key => by
    rw [Style.resolve, List.forall_mem_cons]
    exact ⟨rfl, Sheet.isValue_of_mem_rise entries (some key)⟩
  | .value _, h => absurd h (by simp [Style.isValue])
  | .declaration d, _ => fun key => by
    rw [Style.resolve]
    exact List.forall_mem_singleton.mpr rfl
  | .dynamic f, _ => fun key => by
    rw [Style.resolve]
    exact List.forall_mem_singleton.mpr rfl
termination_by structural style => style

theorem Sheet.isValue_of_mem_rise : ∀ (entries : List (String × Style m)) (enclosing : Option String),
    ∀ e ∈ (Sheet.resolve enclosing entries).rise, e.2.isValue = false
  | [], _ => fun _ he => absurd he List.not_mem_nil
  | (key, style) :: rest, enclosing => by
    have hrest := Sheet.isValue_of_mem_rise rest enclosing
    rw [Sheet.resolve]
    by_cases hvalue : style.isValue = true
    · rw [if_pos hvalue]
      exact hrest
    · rw [if_neg hvalue]
      obtain ⟨resolved, rises⟩ := Key.resolve enclosing key
      have hstyle := Style.isValue_of_mem_resolve style (Bool.eq_false_iff.mpr hvalue) resolved
      cases rises with
      | false => exact hrest
      | true => exact fun e he => (List.mem_append.mp he).elim (hstyle e) (hrest e)
termination_by structural entries => entries

end

namespace Sheet

/-- The entries that are placed at the root when a sheet is expanded, in order. -/
def placed (sheet : Sheet m) : List (String × Style m) :=
  sheet.flatMap fun e => e.2.resolve e.1

/-- At the root everything stays. -/
theorem resolve_none (sheet : Sheet m) : resolve none sheet = ⟨sheet.placed, []⟩ := by
  induction sheet with
  | nil => rfl
  | cons e rest ih =>
      obtain ⟨key, style⟩ := e
      have hplaced : placed ((key, style) :: rest) = style.resolve key ++ placed rest := rfl
      rw [resolve, ih, hplaced]
      by_cases hvalue : style.isValue = true
      · obtain ⟨v, rfl⟩ := Style.exists_value_of_isValue hvalue
        rw [if_pos hvalue, Style.resolve]
        rfl
      · rw [if_neg hvalue]
        rfl

theorem expand_eq_ofPlaced (sheet : Sheet m) : sheet.expand = ofPlaced sheet.placed := by
  unfold expand
  rw [resolve_none]
  simp only
  rw [List.append_nil]

/-- A property value that is placed at the root was written there. -/
theorem mem_of_mem_placed {sheet : Sheet m} {e : String × Style m} (he : e ∈ sheet.placed)
    (hvalue : e.2.isValue = true) : e ∈ sheet := by
  obtain ⟨⟨key, style⟩, hsource, he⟩ := List.mem_flatMap.mp he
  cases hstyle : style.isValue with
  | true =>
      obtain ⟨v, rfl⟩ := Style.exists_value_of_isValue hstyle
      rw [Style.resolve] at he
      rwa [List.mem_singleton.mp he]
  | false =>
      rw [Style.isValue_of_mem_resolve style hstyle key e he] at hvalue
      exact absurd hvalue Bool.false_ne_true

/-! ## What comes under a key -/

/-- What an entry brings under a key of the level it is placed on. -/
def contentUnder? (key : String) (e : String × Style m) : Option (Style m) :=
  match e.2.pathOf e.1 with
  | [] => none
  | first :: rest => if first = key then some (Style.under rest e.2) else none

theorem contentUnder?_of_pathOf {e : String × Style m} {first : String} {rest : List String}
    (h : e.2.pathOf e.1 = first :: rest) (key : String) :
    contentUnder? key e = if first = key then some (Style.under rest e.2) else none := by
  unfold contentUnder?
  rw [h]

/-- What some entries bring under a key, in order. -/
def contentsUnder (key : String) (entries : List (String × Style m)) : List (Style m) :=
  entries.filterMap (contentUnder? key)

end Sheet

/-- What is left when contents are merged one over the other. -/
def Style.merged (contents : List (Style m)) : Option (Style m) :=
  contents.foldl (fun current style => some (style.over current)) none

theorem Style.merged_concat (contents : List (Style m)) (style : Style m) :
    merged (contents ++ [style]) = some (style.over (merged contents)) := by
  unfold merged
  rw [List.foldl_append]
  rfl

theorem Style.merged_eq_none_iff {contents : List (Style m)} : merged contents = none ↔ contents = [] := by
  rcases List.eq_nil_or_concat contents with rfl | ⟨start, style, rfl⟩
  · exact ⟨fun _ => rfl, fun _ => rfl⟩
  · rw [List.concat_eq_append, merged_concat]
    simp

/-- The last one decides whether it is a property value. -/
theorem Style.isValue_of_merged {contents : List (Style m)} (h : ∀ style ∈ contents, style.isValue = false)
    {found : Style m} (hfound : merged contents = some found) : found.isValue = false := by
  rcases List.eq_nil_or_concat contents with rfl | ⟨start, style, rfl⟩
  · exact absurd hfound (by simp [merged])
  · rw [List.concat_eq_append] at h hfound
    rw [merged_concat] at hfound
    rw [← Option.some.inj hfound, isValue_over]
    exact h style (List.mem_append_right _ List.mem_cons_self)

namespace Sheet

/-- Placing an entry merges what it brings under a key over what stands there. -/
theorem lookup_place (sheet : Sheet m) (e : String × Style m) (key : String) :
    (place sheet e.1 e.2).lookup key =
      ((contentUnder? key e).map fun style => style.over (sheet.lookup key)).or (sheet.lookup key) := by
  have hplace := nested_place sheet e.1 e.2
  cases hpath : e.2.pathOf e.1 with
  | nil =>
      unfold Style.pathOf at hpath
      split at hpath
      · exact absurd hpath (by simp)
      · exact absurd hpath (Key.path_ne_nil e.1)
  | cons first rest =>
      rw [hpath, Style.under, Style.over_nested, Sheet.over, Sheet.over] at hplace
      rw [Style.nested.inj hplace, Keyed.lookup_update, contentUnder?_of_pathOf hpath]
      by_cases hkey : first = key
      · rw [if_pos hkey.symm, if_pos hkey, hkey]
        rfl
      · rw [if_neg (Ne.symm hkey), if_neg hkey]
        rfl

/-- What stands under a key once entries are placed is what they bring there, merged in their order. -/
theorem lookup_ofPlaced (entries : List (String × Style m)) (key : String) :
    (ofPlaced entries).lookup key = Style.merged (contentsUnder key entries) := by
  induction entries using List.reverseRecOn with
  | nil => rfl
  | append_singleton entries e ih =>
      have hplace : ofPlaced (entries ++ [e]) = place (ofPlaced entries) e.1 e.2 := by
        unfold ofPlaced
        rw [List.foldl_append]
        rfl
      rw [hplace, lookup_place, ih]
      unfold contentsUnder
      rw [List.filterMap_append]
      cases hcontent : contentUnder? key e with
      | none =>
          rw [List.filterMap_cons_none hcontent, List.filterMap_nil, List.append_nil]
          rfl
      | some style =>
          rw [List.filterMap_cons_some hcontent, List.filterMap_nil, Style.merged_concat]
          rfl

theorem lookup_expand (sheet : Sheet m) (key : String) :
    sheet.expand.lookup key = Style.merged (contentsUnder key sheet.placed) := by
  rw [expand_eq_ofPlaced, lookup_ofPlaced]

/-- A key stands at the root of the expanded sheet if anything is brought there. -/
theorem mem_keys_expand_iff {sheet : Sheet m} {key : String} :
    key ∈ Keyed.keys sheet.expand ↔ contentsUnder key sheet.placed ≠ [] := by
  rw [Ne, ← Style.merged_eq_none_iff, ← lookup_expand]
  constructor
  · intro hkey hnone
    obtain ⟨e, he, rfl⟩ := List.mem_map.mp hkey
    rw [List.lookup_eq_none_iff] at hnone
    exact absurd (hnone e he) (by simp)
  · intro hsome
    by_contra hkey
    exact hsome (Keyed.lookup_eq_none_of_not_mem hkey)

/-! ## Keys that refer -/

/-- A root entry that refers to an enclosing key is warned about once. -/
theorem count_expansionWarnings {sheet : Sheet m} (hkeys : (Keyed.keys sheet).Nodup) {key : String}
    {style : Style m} (hmem : (key, style) ∈ sheet) (hrefers : style.refersBy key = true) :
    sheet.expansionWarnings.count (.unenclosedReference key) = 1 := by
  have hwarnings : sheet.expansionWarnings =
      (Keyed.keys (sheet.filter fun e => e.2.refersBy e.1)).map Warning.unenclosedReference := by
    unfold expansionWarnings Keyed.keys
    rw [List.map_map]
    rfl
  rw [hwarnings]
  apply List.count_eq_one_of_mem
  · refine List.Nodup.map (fun _ _ => Warning.unenclosedReference.inj) ?_
    exact hkeys.sublist (List.filter_sublist.map _)
  · exact List.mem_map_of_mem (List.mem_map.mpr ⟨(key, style), List.mem_filter.mpr ⟨hmem, hrefers⟩, rfl⟩)

variable {sheet : Sheet m} {key : String} {style : Style m}

/-- Where keys are unique, no property value is placed under the key of other content. -/
theorem isValue_of_mem_placed (hkeys : (Keyed.keys sheet).Nodup) (hmem : (key, style) ∈ sheet)
    (hstyle : style.isValue = false) {e : String × Style m} (he : e ∈ sheet.placed) {rest : List String}
    (hpath : e.2.pathOf e.1 = key :: rest) : e.2.isValue = false := by
  by_contra hvalue
  rw [Bool.not_eq_false] at hvalue
  unfold Style.pathOf at hpath
  rw [if_pos hvalue] at hpath
  have hkey : e.1 = key := List.head_eq_of_cons_eq hpath
  have hfound := (Keyed.lookup_eq_some_iff hkeys).mpr (mem_of_mem_placed he hvalue)
  rw [hkey, (Keyed.lookup_eq_some_iff hkeys).mpr hmem] at hfound
  rw [Option.some.inj hfound, hvalue] at hstyle
  exact absurd hstyle (by simp)

theorem exists_of_mem_contentsUnder {entries : List (String × Style m)} {content : Style m}
    (h : content ∈ contentsUnder key entries) :
    ∃ e ∈ entries, ∃ rest, e.2.pathOf e.1 = key :: rest ∧ content = Style.under rest e.2 := by
  obtain ⟨e, he, hcontent⟩ := List.mem_filterMap.mp h
  refine ⟨e, he, ?_⟩
  cases hpath : e.2.pathOf e.1 with
  | nil =>
      rw [contentUnder?, hpath] at hcontent
      exact absurd hcontent (by simp)
  | cons first rest =>
      rw [contentUnder?_of_pathOf hpath] at hcontent
      split at hcontent
      · rename_i hfirst
        exact ⟨rest, by rw [hfirst], (Option.some.inj hcontent).symm⟩
      · exact absurd hcontent (by simp)

theorem isValue_of_mem_contentsUnder (hkeys : (Keyed.keys sheet).Nodup) (hmem : (key, style) ∈ sheet)
    (hstyle : style.isValue = false) : ∀ content ∈ contentsUnder key sheet.placed, content.isValue = false := by
  intro content hcontent
  obtain ⟨e, he, rest, hpath, rfl⟩ := exists_of_mem_contentsUnder hcontent
  cases rest with
  | nil => exact isValue_of_mem_placed hkeys hmem hstyle he hpath
  | cons _ _ => rfl

/-- A key without a gap is one that its content comes under. -/
theorem exists_contentsUnder_eq (hmem : (key, style) ∈ sheet) (hstyle : style.isValue = false)
    (hunbroken : ∀ mark ∈ Key.marks key, Key.isGap mark = false) :
    ∃ earlier later, contentsUnder key sheet.placed = earlier ++ style.resolved key :: later := by
  obtain ⟨before, after, rfl⟩ := List.append_of_mem hmem
  have hpath : (style.resolved key).pathOf key = [key] := by
    unfold Style.pathOf
    rw [Style.isValue_resolved, hstyle, if_neg Bool.false_ne_true, Key.path_of_unbroken hunbroken]
  have hcontent : contentUnder? key (key, style.resolved key) = some (style.resolved key) := by
    rw [contentUnder?_of_pathOf hpath, if_pos rfl]
    rfl
  refine ⟨contentsUnder key (placed before), contentsUnder key (style.risen key ++ placed after), ?_⟩
  unfold placed contentsUnder
  rw [List.flatMap_append, List.flatMap_cons, Style.resolve_eq_cons, List.filterMap_append, List.cons_append,
    List.filterMap_cons_some hcontent]

/-- A key that refers stands at the root of the expanded sheet exactly if it has no gap. -/
theorem mem_keys_expand_iff_of_refers (hkeys : (Keyed.keys sheet).Nodup) (hmem : (key, style) ∈ sheet)
    (hrefers : style.refersBy key = true) :
    key ∈ Keyed.keys sheet.expand ↔ ∀ mark ∈ Key.marks key, Key.isGap mark = false := by
  obtain ⟨hstyle, hreference⟩ := Bool.and_eq_true_iff.mp hrefers
  rw [Bool.not_eq_true'] at hstyle
  rw [mem_keys_expand_iff]
  constructor
  · intro hcontents
    obtain ⟨content, hcontent⟩ := List.exists_mem_of_ne_nil _ hcontents
    obtain ⟨e, he, rest, hpath, -⟩ := exists_of_mem_contentsUnder hcontent
    have hvalue := isValue_of_mem_placed hkeys hmem hstyle he hpath
    unfold Style.pathOf at hpath
    rw [hvalue, if_neg Bool.false_ne_true] at hpath
    have hsegment : key ∈ Key.path e.1 := by
      rw [hpath]
      exact List.mem_cons_self
    rcases Key.marks_of_mem_path (p := fun _ => True) (fun _ _ => trivial) key hsegment with
      ⟨rfl, hgaps⟩ | hmarks
    · -- the reference is no white space
      obtain ⟨mark, hmark, hreference⟩ := List.any_eq_true.mp hreference
      have hgap := hgaps mark hmark
      unfold Key.isReference at hreference
      unfold Key.isGap at hgap
      rw [Bool.and_eq_true, beq_iff_eq] at hreference
      rw [hreference.2] at hgap
      exact absurd (Bool.and_eq_true_iff.mp hgap).2 (by decide)
    · exact fun mark hmark => (hmarks mark hmark).1
  · intro hunbroken hnil
    obtain ⟨earlier, later, hcontents⟩ := exists_contentsUnder_eq hmem hstyle hunbroken
    rw [hnil] at hcontents
    exact absurd hcontents (by simp)

/-! ## The law -/

/-- Take an entry at the root that refers to an enclosing key, in a sheet that has no key twice there.

- There is one warning about it.
- Its key stands at the root of the expanded sheet exactly if no white space in it is outside of brackets and
  quotes.
- If so, then what stands there is the content of the entry, merged with whatever else comes under the key, before
  it or after it; and if nothing else does, it is that content. Expanding again gives the same warning once more, and
  leaves the key where it is. -/
theorem unenclosed_stays_iff (hkeys : (Keyed.keys sheet).Nodup) (hmem : (key, style) ∈ sheet)
    (hrefers : style.refersBy key = true) :
    sheet.expansionWarnings.count (.unenclosedReference key) = 1 ∧
    (key ∈ Keyed.keys sheet.expand ↔ ∀ mark ∈ Key.marks key, Key.isGap mark = false) ∧
    ((∀ mark ∈ Key.marks key, Key.isGap mark = false) →
      (∃ earlier later, contentsUnder key sheet.placed = earlier ++ style.resolved key :: later ∧
        sheet.expand.lookup key = Style.merged (earlier ++ style.resolved key :: later)) ∧
      (contentsUnder key sheet.placed = [style.resolved key] →
        sheet.expand.lookup key = some (style.resolved key)) ∧
      sheet.expand.expansionWarnings.count (.unenclosedReference key) = 1 ∧
      key ∈ Keyed.keys sheet.expand.expand) := by
  have hstays := mem_keys_expand_iff_of_refers hkeys hmem hrefers
  refine ⟨count_expansionWarnings hkeys hmem hrefers, hstays, fun hunbroken => ?_⟩
  obtain ⟨hvalue, hreference⟩ := Bool.and_eq_true_iff.mp hrefers
  rw [Bool.not_eq_true'] at hvalue
  have hexpandKeys := (Style.tidy_nested_iff.mp sheet.shows_expand.tidy).1
  obtain ⟨⟨key', found⟩, hfound, rfl⟩ := List.mem_map.mp (hstays.mpr hunbroken)
  -- in the expanded sheet the key is one that refers at the root once more
  have hlookup := (Keyed.lookup_eq_some_iff hexpandKeys).mpr hfound
  rw [lookup_expand] at hlookup
  have hfoundRefers : found.refersBy key' = true :=
    Bool.and_eq_true_iff.mpr ⟨by
      rw [Style.isValue_of_merged (isValue_of_mem_contentsUnder hkeys hmem hvalue) hlookup]
      rfl, hreference⟩
  refine ⟨?_, fun halone => ?_, count_expansionWarnings hexpandKeys hfound hfoundRefers,
    (mem_keys_expand_iff_of_refers hexpandKeys hfound hfoundRefers).mpr hunbroken⟩
  · obtain ⟨earlier, later, hcontents⟩ := exists_contentsUnder_eq hmem hvalue hunbroken
    exact ⟨earlier, later, hcontents, by rw [lookup_expand, hcontents]⟩
  · rw [lookup_expand, halone]
    exact congrArg some (Style.over_none _)

/-- A reference without a gap stays at the root, next to a list and what is said of its items. -/
theorem unenclosed_stays_iff_new :
    let red : Style Id := .nested [("color", .value (.text "red"))]
    let sheet : Sheet Id := [("&.new", red), ("list", .nested [("& item", red)])]
    sheet.expansionWarnings.count (.unenclosedReference "&.new") = 1 ∧
      sheet.expand.lookup "&.new" = some red ∧
      sheet.expand.expansionWarnings.count (.unenclosedReference "&.new") = 1 ∧
      "&.new" ∈ Keyed.keys sheet.expand.expand := by
  intro red sheet
  have hkeys : (Keyed.keys sheet).Nodup := by decide
  obtain ⟨hwarned, -, hstays⟩ := unenclosed_stays_iff hkeys (List.mem_cons_self (a := ("&.new", red))) <| by
    show Key.hasReference "&.new".toList = true
    decide +kernel
  obtain ⟨-, halone, hagain, hmem⟩ := hstays (by decide +kernel)
  refine ⟨hwarned, halone ?_, hagain, hmem⟩
  have hreference : Key.resolve (some "list") "& item" = ("list item", true) := by decide +kernel
  have hplaced : sheet.placed = [("&.new", red), ("list", .nested []), ("list item", red)] := by
    simp [sheet, red, placed, resolve, Style.resolve, Style.isValue, hreference, Level.push, ofPlaced, place,
      Keyed.set, Keyed.update]
  have hnew : Key.path "&.new" = ["&.new"] := by decide +kernel
  have hlist : Key.path "list" = ["list"] := by decide +kernel
  have hitem : Key.path "list item" = ["list", "item"] := by decide +kernel
  rw [hplaced]
  simp [contentsUnder, contentUnder?, Style.pathOf, red, Style.isValue, hnew, hlist, hitem, Style.under,
    Style.resolved, resolve, Level.push, ofPlaced, place, Keyed.set, Keyed.update]

/-- With a gap in it, the key is split like any other. The list that it is split at then encloses the reference, and
when the sheet is expanded again, the reference is filled in. -/
theorem expand_splits_unenclosed :
    let content : Style Id := .nested [("margin", .value (.text "1px"))]
    let sheet : Sheet Id := [("list &-wide", content)]
    ((Keyed.keys sheet).Nodup ∧ content.refersBy "list &-wide" = true) ∧
      sheet.expansionWarnings = [.unenclosedReference "list &-wide"] ∧
      "list &-wide" ∉ Keyed.keys sheet.expand ∧ sheet.expand = [("list", .nested [("&-wide", content)])] ∧
      sheet.expand.expand = [("list", .nested []), ("list-wide", content)] := by
  intro content sheet
  have hsplit : content.pathOf "list &-wide" = ["list", "&-wide"] := by decide +kernel
  have hexpand : sheet.expand = [("list", .nested [("&-wide", content)])] := by
    have hplaced : sheet.placed = [("list &-wide", content)] := rfl
    rw [expand_eq_ofPlaced, hplaced, ofPlaced, List.foldl_cons, List.foldl_nil,
      place_of_pathOf hsplit List.not_mem_nil]
    rfl
  have hagain : sheet.expand.expand = [("list", .nested []), ("list-wide", content)] := by
    have hreference : Key.resolve (some "list") "&-wide" = ("list-wide", true) := by decide +kernel
    have hlist : (Style.nested [] : Style Id).pathOf "list" = ["list"] := by decide +kernel
    have hwide : content.pathOf "list-wide" = ["list-wide"] := by decide +kernel
    have hplaced : sheet.expand.placed = [("list", .nested []), ("list-wide", content)] := by
      rw [hexpand]
      simp [content, placed, resolve, Style.resolve, Style.isValue, hreference, Level.push, ofPlaced, place,
        Keyed.set, Keyed.update]
    rw [expand_eq_ofPlaced, hplaced]
    refine ofPlaced_eq_self (by decide) ?_
    rw [List.forall_mem_cons, List.forall_mem_singleton]
    exact ⟨hlist, hwide⟩
  refine ⟨⟨by decide, by decide +kernel⟩, by decide +kernel, ?_, hexpand, hagain⟩
  rw [hexpand]
  decide

end Sheet

end StyleCascade
