/-
# StyleCascade.Proofs.Sheet.Merging — the laws of merging

No way to make a sheet puts a key on a level twice (`Built.tidy`). So merging one sheet into another is described by
two things: the keys, which are those of the sheet merged into and then the new ones (`keys_over`), and what is read
under a key, which is merged in turn where both sheets have a nested sheet there (`lookup_merge`).

Merging a sheet into itself changes nothing (`Style.over_self`). Merging is associative unless content without keys
comes between two nested sheets (`Style.over_assoc`): merged over the first of them it takes its place, and so does
the last after it; but if the last is merged over it to begin with, nothing is left of it and the two nested sheets
are merged.
-/
import StyleCascade.Proofs.Sheet.Clauses

namespace StyleCascade

variable {m : Type → Type}

/-! ## How sheets come about -/

/-- The sheets that can be made: from nothing or from JSON, by writing, removing and merging, by expansion, and by
taking a nested sheet out. -/
inductive Sheet.Built : Sheet m → Prop
  /-- The empty sheet. -/
  | empty : Built []
  /-- Content is written under a key. -/
  | set {sheet : Sheet m} (key : String) {style : Style m} :
      Built sheet → (∀ inner, style = .nested inner → Built inner) → Built (Keyed.set key style sheet)
  /-- A key is removed. -/
  | erase {sheet : Sheet m} (key : String) : Built sheet → Built (Keyed.erase key sheet)
  /-- Content is merged in under a key. -/
  | mergeAt {sheet : Sheet m} (key : String) {style : Style m} :
      Built sheet → (∀ inner, style = .nested inner → Built inner) → Built (sheet.mergeAt key style)
  /-- A sheet is merged in. -/
  | merge {sheet other : Sheet m} : Built sheet → Built other → Built (sheet.merge other)
  /-- A sheet is brought into its plain nested form. -/
  | expand {sheet : Sheet m} : Built sheet → Built sheet.expand
  /-- A sheet is read from JSON. -/
  | ofJson (json : Json) {sheet : Sheet m} : Sheet.ofJson json = .ok sheet → Built sheet
  /-- A nested sheet is taken out. -/
  | inner {sheet inner : Sheet m} {key : String} :
      Built sheet → (key, .nested inner) ∈ sheet → Built inner

namespace Style

theorem tidy_of_forall_nested {style : Style m} (h : ∀ inner, style = .nested inner → (nested inner).Tidy) :
    style.Tidy := by
  cases style with
  | nested entries => exact h entries rfl
  | value v => exact .value v
  | declaration d => exact .declaration d
  | dynamic f => exact .dynamic f

theorem tidy_erase {sheet : Sheet m} (h : (nested sheet).Tidy) (key : String) :
    (nested (Keyed.erase key sheet)).Tidy := by
  obtain ⟨hkeys, hmembers⟩ := tidy_nested_iff.mp h
  have hsub := Keyed.erase_sublist key sheet
  exact .nested (hkeys.sublist (hsub.map _)) fun e he => hmembers e (hsub.mem he)

end Style

namespace Sheet

/-- However a sheet is made, its keys are unique on every level. -/
theorem Built.tidy {sheet : Sheet m} (h : sheet.Built) : (Style.nested sheet).Tidy := by
  induction h with
  | empty => exact .nested .nil fun e he => absurd he List.not_mem_nil
  | set key _ _ ih ihstyle =>
      have hstyle := Style.tidy_of_forall_nested ihstyle
      exact Style.tidy_update ih hstyle fun _ _ => hstyle
  | erase key _ ih => exact Style.tidy_erase ih key
  | mergeAt key _ _ ih ihstyle =>
      have hstyle := Style.tidy_of_forall_nested ihstyle
      refine Style.tidy_update ih ?_ fun old hold => Style.tidy_over hstyle hold
      rw [Style.over_none]
      exact hstyle
  | merge _ _ ih ihother =>
      unfold Sheet.merge
      rw [← Style.over_nested]
      exact Style.tidy_over ihother ih
  | @expand sheet _ _ => exact sheet.shows_expand.tidy
  | ofJson _ h => exact (isPlain_and_tidy_ofJson h).2
  | inner _ hmem ih => exact (Style.tidy_nested_iff.mp ih).2 _ hmem

/-! ## Keys and content -/

/-- Merging keeps the keys of the sheet in place and appends those that are new. -/
theorem keys_over {incoming : List (String × Style m)} (h : (Keyed.keys incoming).Nodup)
    (current : List (String × Style m)) :
    Keyed.keys (Sheet.over incoming current) =
      Keyed.keys current ++ (Keyed.keys incoming).filter (· ∉ Keyed.keys current) := by
  induction incoming generalizing current with
  | nil => exact (List.append_nil _).symm
  | cons head rest ih =>
      obtain ⟨key, style⟩ := head
      obtain ⟨hnew, hrest⟩ := List.nodup_cons.mp h
      rw [Sheet.over, ih hrest, Keyed.keys_update]
      show _ = Keyed.keys current ++ List.filter _ (key :: Keyed.keys rest)
      by_cases hkey : key ∈ Keyed.keys current
      · rw [if_pos hkey, List.filter_cons_of_neg (by simpa using hkey)]
      · rw [if_neg hkey, List.filter_cons_of_pos (by simpa using hkey), List.append_assoc, List.singleton_append]
        -- the key comes in once, so it is not among those that follow
        congr 2
        apply List.filter_congr
        intro other hother
        have hne : other ≠ key := fun heq => hnew (heq ▸ hother)
        simp [hne]

theorem nodup_keys_over (incoming : List (String × Style m)) {current : List (String × Style m)}
    (h : (Keyed.keys current).Nodup) : (Keyed.keys (Sheet.over incoming current)).Nodup := by
  induction incoming generalizing current with
  | nil => exact h
  | cons head rest ih => exact ih (Keyed.nodup_keys_update _ _ h)

theorem keys_over_assoc (first : List (String × Style m)) {middle last : List (String × Style m)}
    (hmiddle : (Keyed.keys middle).Nodup) (hlast : (Keyed.keys last).Nodup) :
    Keyed.keys (Sheet.over last (Sheet.over middle first)) =
      Keyed.keys (Sheet.over (Sheet.over last middle) first) := by
  rw [keys_over hlast, keys_over hmiddle, keys_over (nodup_keys_over last hmiddle), keys_over hlast,
    List.filter_append, List.filter_filter, List.append_assoc]
  congr 2
  apply List.filter_congr
  intro key _
  by_cases hkey : key ∈ Keyed.keys first
  · simp [hkey]
  · simp [hkey]

/-- What is read in a merged sheet: the two nested sheets merged, if both sheets have one there; else what comes in;
else what stood there. -/
theorem lookup_merge {other : Sheet m} (h : (Keyed.keys other).Nodup) (sheet : Sheet m) (key : String) :
    (sheet.merge other).lookup key =
      match sheet.lookup key, other.lookup key with
      | some (.nested current), some (.nested incoming) => some (.nested (Sheet.merge current incoming))
      | _, some style => some style
      | found, none => found := by
  unfold merge
  rw [Style.lookup_over h]
  cases other.lookup key with
  | none => rcases sheet.lookup key with _ | (_ | _ | _ | _) <;> rfl
  | some style =>
      rcases sheet.lookup key with _ | present
      · exact congrArg some style.over_none
      rcases present.isNested_or_eq with hleaf | ⟨current, rfl⟩
      · show some (style.over (some present)) = _
        rw [Style.over_some_of_not_nested _ hleaf]
        cases present with
        | nested entries => exact absurd hleaf (by simp [Style.isNested])
        | value v => rfl
        | declaration d => rfl
        | dynamic f => rfl
      · show some (style.over (some (.nested current))) = _
        cases style with
        | nested incoming => rw [Style.over_nested]
        | value v => rfl
        | declaration d => rfl
        | dynamic f => rfl

end Sheet

namespace Style

theorem over_self {style : Style m} (h : style.Tidy) : style.over (some style) = style := by
  induction h with
  | value v => rw [Style.over]
  | declaration d => rw [Style.over]
  | dynamic f => rw [Style.over]
  | @nested entries hkeys hmembers ih =>
      rw [over_nested]
      refine congrArg nested (Keyed.eq_of_keys_of_lookup ?_ ?_ fun key => ?_).symm
      · exact hkeys
      · rw [Sheet.keys_over hkeys, List.filter_eq_nil_iff.mpr (by simp), List.append_nil]
      · rw [lookup_over hkeys]
        cases hstyle : entries.lookup key with
        | none => rfl
        | some style => exact congrArg some (ih _ (Keyed.mem_of_lookup hstyle)).symm

/-- Content without keys does not come between two nested sheets: where all three have something at a path, and the
first and the last a nested sheet, the middle one has a nested sheet, too. -/
def Joins (first middle last : Style m) : Prop :=
  ∀ path x y z, first.at? path = some x → middle.at? path = some y → last.at? path = some z →
    x.isNested = true → z.isNested = true → y.isNested = true

/-- It is enough that the first two agree, wherever both have something, on what is a nested sheet. -/
theorem joins_of_agree {first middle : Style m}
    (h : ∀ path x y, first.at? path = some x → middle.at? path = some y → x.isNested = y.isNested)
    (last : Style m) : Joins first middle last := by
  intro path x y z hx hy _ hfirst _
  rw [← h path x y hx hy]
  exact hfirst

theorem joins_nested_iff {first middle last : List (String × Style m)} :
    Joins (.nested first) (.nested middle) (.nested last) ↔
      ∀ key x y z, first.lookup key = some x → middle.lookup key = some y → last.lookup key = some z →
        Joins x y z := by
  constructor
  · intro h key x y z hx hy hz path x' y' z' hx' hy' hz'
    refine h (key :: path) x' y' z' ?_ ?_ ?_
    · rw [at?, hx, Option.bind_some, hx']
    · rw [at?, hy, Option.bind_some, hy']
    · rw [at?, hz, Option.bind_some, hz']
  · intro h path x y z hx hy hz
    cases path with
    | nil =>
        obtain rfl := Option.some.inj hy
        exact fun _ _ => rfl
    | cons key path =>
        obtain ⟨x', hx', hx⟩ := Option.bind_eq_some_iff.mp hx
        obtain ⟨y', hy', hy⟩ := Option.bind_eq_some_iff.mp hy
        obtain ⟨z', hz', hz⟩ := Option.bind_eq_some_iff.mp hz
        exact h key x' y' z' hx' hy' hz' path x y z hx hy hz

/-- Merging is associative where the content in the middle joins the other two. -/
theorem over_assoc {first middle last : Style m} (hfirst : first.Tidy) (hmiddle : middle.Tidy) (hlast : last.Tidy)
    (h : Joins first middle last) :
    last.over (some (middle.over (some first))) = (last.over (some middle)).over (some first) := by
  induction hlast generalizing first middle with
  | value v => rw [Style.over, Style.over, Style.over]
  | declaration d => rw [Style.over, Style.over, Style.over]
  | dynamic f => rw [Style.over, Style.over, Style.over]
  | @nested last hkeys hmembers ih =>
      rcases isNested_or_eq first with hleaf | ⟨first, rfl⟩
      · rw [over_some_of_not_nested _ hleaf, over_some_of_not_nested _ hleaf]
      rcases isNested_or_eq middle with hleaf | ⟨middle, rfl⟩
      · exact absurd (h [] _ _ _ rfl rfl rfl rfl rfl) (by simp [hleaf])
      obtain ⟨hfirstKeys, hfirstMembers⟩ := tidy_nested_iff.mp hfirst
      obtain ⟨hmiddleKeys, hmiddleMembers⟩ := tidy_nested_iff.mp hmiddle
      have hbothKeys := Sheet.nodup_keys_over last hmiddleKeys
      have hall := Sheet.nodup_keys_over last (Sheet.nodup_keys_over middle hfirstKeys)
      rw [over_nested, over_nested, over_nested, over_nested]
      refine congrArg nested (Keyed.eq_of_keys_of_lookup hall ?_ fun key => ?_)
      · exact Sheet.keys_over_assoc first hmiddleKeys hkeys
      · rw [lookup_over hkeys, lookup_over hmiddleKeys, lookup_over hbothKeys, lookup_over hkeys]
        cases hz : last.lookup key with
        | none => rfl
        | some z =>
            cases hy : middle.lookup key with
            | none => simp only [over_none]
            | some y =>
                cases hx : first.lookup key with
                | none => simp only [over_none]
                | some x =>
                    -- all three sheets have the key, which is where the condition comes in
                    have hjoins : Joins x y z := joins_nested_iff.mp h key x y z hx hy hz
                    exact congrArg some (ih (key, z) (Keyed.mem_of_lookup hz) (tidy_of_lookup hfirstMembers hx)
                      (tidy_of_lookup hmiddleMembers hy) hjoins)

end Style

/-! ## The laws -/

namespace Sheet

variable {a b c : Sheet m}

/-- The laws of merging, for all sheets that can be made.

- Keys are unique on every level.
- Merging keeps the keys of the one sheet and appends the new ones of the other, each in their order.
- Under a key, two nested sheets are merged in turn. Otherwise what comes in takes over, and what stood there stands
  if nothing comes in.
- Merging a sheet into itself leaves it as it is.
- Merging is associative if, at every path at which all three sheets have something, the middle one has a nested
  sheet wherever the other two do.
- So it is if sheets agree, at every path that they share, on what is a nested sheet; of the three, it is enough that
  the first two do. -/
theorem merge_laws (ha : a.Built) (hb : b.Built) (hc : c.Built) :
    (Style.nested a).Tidy ∧
    Keyed.keys (a.merge b) = Keyed.keys a ++ (Keyed.keys b).filter (· ∉ Keyed.keys a) ∧
    (∀ key, (a.merge b).lookup key =
      match a.lookup key, b.lookup key with
      | some (.nested current), some (.nested incoming) => some (.nested (Sheet.merge current incoming))
      | _, some style => some style
      | found, none => found) ∧
    a.merge a = a ∧
    (Style.Joins (.nested a) (.nested b) (.nested c) → (a.merge b).merge c = a.merge (b.merge c)) ∧
    ((∀ path x y, (Style.nested a).at? path = some x → (Style.nested b).at? path = some y →
      x.isNested = y.isNested) → (a.merge b).merge c = a.merge (b.merge c)) := by
  have hkeys := (Style.tidy_nested_iff.mp hb.tidy).1
  have hassoc : Style.Joins (.nested a) (.nested b) (.nested c) →
      (a.merge b).merge c = a.merge (b.merge c) := by
    intro hjoins
    have hover := Style.over_assoc ha.tidy hb.tidy hc.tidy hjoins
    rw [Style.over_nested, Style.over_nested, Style.over_nested, Style.over_nested] at hover
    exact Style.nested.inj hover
  refine ⟨ha.tidy, keys_over hkeys a, lookup_merge hkeys a, ?_, hassoc,
    fun hagree => hassoc (Style.joins_of_agree hagree _)⟩
  have hself := Style.over_self ha.tidy
  rw [Style.over_nested] at hself
  exact Style.nested.inj hself

/-- Three sheets read from JSON, each with something to say of lists. -/
theorem merge_laws_list :
    let a : Sheet Id := [("list", .nested [("color", .value (.text "red"))])]
    let b : Sheet Id := [("item", .nested []), ("list", .nested [("margin", .value (.text "1px"))])]
    let c : Sheet Id := [("list", .nested [("color", .value (.text "blue"))])]
    (Style.nested a).Tidy ∧
      Keyed.keys (a.merge b) = ["list", "item"] ∧
      (a.merge b).lookup "list" =
        some (.nested [("color", .value (.text "red")), ("margin", .value (.text "1px"))]) ∧
      a.merge a = a ∧
      (a.merge b).merge c = a.merge (b.merge c) := by
  intro a b c
  have ha : a.Built := .ofJson (.object [("list", .object [("color", .string "red")])]) rfl
  have hb : b.Built :=
    .ofJson (.object [("item", .object []), ("list", .object [("margin", .string "1px")])]) rfl
  have hc : c.Built := .ofJson (.object [("list", .object [("color", .string "blue")])]) rfl
  obtain ⟨htidy, hkeys, hlookup, hself, hassoc, -⟩ := merge_laws ha hb hc
  refine ⟨htidy, hkeys.trans (by decide), (hlookup "list").trans rfl, hself, hassoc ?_⟩
  -- all three have a nested sheet at `list`, and below it the second shares nothing with the others
  rw [Style.joins_nested_iff]
  intro key x y z hx hy hz
  obtain ⟨rfl, rfl⟩ := Prod.mk.inj (List.mem_singleton.mp (Keyed.mem_of_lookup hx))
  obtain rfl := Option.some.inj hy
  obtain ⟨-, rfl⟩ := Prod.mk.inj (List.mem_singleton.mp (Keyed.mem_of_lookup hz))
  rw [Style.joins_nested_iff]
  intro key x y z hx hy hz
  obtain ⟨rfl, -⟩ := Prod.mk.inj (List.mem_singleton.mp (Keyed.mem_of_lookup hx))
  obtain ⟨hkey, -⟩ := Prod.mk.inj (List.mem_singleton.mp (Keyed.mem_of_lookup hy))
  exact absurd hkey (by decide)

/-- A value between two nested sheets does not join them: what it takes the place of is lost, unless the last sheet
has taken its place before. -/
example :
    let list : Sheet Id := [("list", .nested [("color", .value (.text "red"))])]
    let value : Sheet Id := [("list", .value (.text "none"))]
    let other : Sheet Id := [("list", .nested [("margin", .value (.text "1px"))])]
    (list.merge value).merge other = other ∧ list.merge (value.merge other) = list.merge other :=
  ⟨rfl, rfl⟩

end Sheet

end StyleCascade
