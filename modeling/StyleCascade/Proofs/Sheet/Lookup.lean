/-
# StyleCascade.Proofs.Sheet.Lookup — what stands at a path of a sheet

`Style.at?` follows a path of keys through nested sheets. Merging is described by it: content that does
not cover a path leaves what stands there (`at?_over_of_not_covers`), and where it has something of its
own at the path, that is merged over what stood there (`at?_over_of_at?`). Content covers a path if it has
something at the path, or at a part of it something that has no keys.

Placing an entry is one such merge (`nested_place`), of the content put under the segments of its key.
-/
import Mathlib.Data.List.Infix
import StyleCascade.Proofs.Keyed
import StyleCascade.Sheet.Expansion

namespace StyleCascade

variable {m : Type → Type}

namespace Style

/-! ## Paths -/

/-- What stands at a path of keys. -/
def at? : Style m → List String → Option (Style m)
  | style, [] => some style
  | .nested entries, key :: path => (entries.lookup key).bind fun inner => inner.at? path
  | .value _, _ :: _ => none
  | .declaration _, _ :: _ => none
  | .dynamic _, _ :: _ => none
termination_by structural _ path => path

/-- Something stands at the path, or the path leads through something that has no keys. -/
def covers : Style m → List String → Bool
  | _, [] => true
  | .nested entries, key :: path => ((entries.lookup key).map fun inner => inner.covers path).getD false
  | .value _, _ :: _ => true
  | .declaration _, _ :: _ => true
  | .dynamic _, _ :: _ => true
termination_by structural _ path => path

/-- Keys are unique on every level. -/
inductive Tidy : Style m → Prop
  | value (v : Value) : Tidy (.value v)
  | declaration (d : Declaration) : Tidy (.declaration d)
  | dynamic (f : DynamicStyle m) : Tidy (.dynamic f)
  | nested {entries : List (String × Style m)} :
      (Keyed.keys entries).Nodup → (∀ e ∈ entries, Tidy e.2) → Tidy (.nested entries)

/-- The content is a nested sheet. -/
def isNested : Style m → Bool
  | .nested _ => true
  | _ => false

theorem isNested_or_eq (style : Style m) :
    style.isNested = false ∨ ∃ entries, style = .nested entries := by
  cases style with
  | nested entries => exact .inr ⟨entries, rfl⟩
  | value v => exact .inl rfl
  | declaration d => exact .inl rfl
  | dynamic f => exact .inl rfl

theorem exists_value_of_isValue {style : Style m} (h : style.isValue = true) :
    ∃ v, style = .value v := by
  cases style with
  | value v => exact ⟨v, rfl⟩
  | nested entries => exact absurd h (by simp [isValue])
  | declaration d => exact absurd h (by simp [isValue])
  | dynamic f => exact absurd h (by simp [isValue])

/-- Nothing stands below something that has no keys. -/
theorem at?_cons_of_not_nested {style : Style m} (h : style.isNested = false) (key : String)
    (path : List String) : style.at? (key :: path) = none := by
  cases style with
  | nested entries => exact absurd h (by simp [isNested])
  | value v => rfl
  | declaration d => rfl
  | dynamic f => rfl

/-- Something that has no keys covers every path. -/
theorem covers_of_not_nested {style : Style m} (h : style.isNested = false) (path : List String) :
    style.covers path = true := by
  cases path with
  | nil => rfl
  | cons key path =>
      cases style with
      | nested entries => exact absurd h (by simp [isNested])
      | value v => rfl
      | declaration d => rfl
      | dynamic f => rfl

/-- A tidy nested sheet has unique keys and tidy entries. -/
theorem tidy_nested_iff {entries : List (String × Style m)} :
    (Style.nested entries).Tidy ↔ (Keyed.keys entries).Nodup ∧ ∀ e ∈ entries, e.2.Tidy := by
  constructor
  · intro h
    cases h with
    | nested hnodup hmembers => exact ⟨hnodup, hmembers⟩
  · rintro ⟨hnodup, hmembers⟩
    exact .nested hnodup hmembers

theorem at?_of_not_covers {style : Style m} {path : List String} (h : style.covers path = false) :
    style.at? path = none := by
  induction path generalizing style with
  | nil => exact absurd h (by simp [covers])
  | cons key path ih =>
      rcases isNested_or_eq style with hleaf | ⟨entries, rfl⟩
      · exact at?_cons_of_not_nested hleaf key path
      · rw [covers] at h
        rw [at?]
        cases hkey : entries.lookup key with
        | none => rfl
        | some inner =>
            rw [hkey] at h
            exact ih h

/-! ## Merging -/

theorem over_of_not_nested {style : Style m} (h : style.isNested = false)
    (current : Option (Style m)) : style.over current = style := by
  cases style with
  | nested entries => exact absurd h (by simp [isNested])
  | value v => rw [Style.over]
  | declaration d => rw [Style.over]
  | dynamic f => rw [Style.over]

theorem over_none (style : Style m) : style.over none = style := by
  cases style with
  | nested entries => rw [Style.over]; simp
  | value v => rw [Style.over]
  | declaration d => rw [Style.over]
  | dynamic f => rw [Style.over]

/-- Over anything but a nested sheet the incoming content takes over. -/
theorem over_some_of_not_nested (style : Style m) {current : Style m}
    (h : current.isNested = false) : style.over (some current) = style := by
  cases style with
  | nested entries =>
      rw [Style.over]
      intro inner heq
      obtain rfl := Option.some.inj heq
      exact absurd h (by simp [isNested])
  | value v => rw [Style.over]
  | declaration d => rw [Style.over]
  | dynamic f => rw [Style.over]

theorem over_nested (incoming current : List (String × Style m)) :
    (nested incoming).over (some (nested current)) = nested (Sheet.over incoming current) := by
  rw [Style.over]

theorem isNested_over {style : Style m} (h : style.isNested = true) (current : Option (Style m)) :
    (style.over current).isNested = true := by
  cases current with
  | none =>
      rw [over_none]
      exact h
  | some present =>
      rcases isNested_or_eq present with hleaf | ⟨present, rfl⟩
      · rw [over_some_of_not_nested _ hleaf]
        exact h
      · rcases isNested_or_eq style with hleaf | ⟨entries, rfl⟩
        · rw [hleaf] at h
          exact absurd h (by simp)
        · rw [over_nested]
          rfl

theorem lookup_over {incoming : List (String × Style m)} (h : (Keyed.keys incoming).Nodup)
    (current : List (String × Style m)) (key : String) :
    (Sheet.over incoming current).lookup key =
      match incoming.lookup key with
      | some style => some (style.over (current.lookup key))
      | none => current.lookup key := by
  induction incoming generalizing current with
  | nil => rfl
  | cons head rest ih =>
      obtain ⟨k, style⟩ := head
      obtain ⟨hk, hrest⟩ := List.nodup_cons.mp h
      rw [Sheet.over, ih hrest, Keyed.lookup_update, Keyed.lookup_cons]
      by_cases hkey : key = k
      · -- the key comes in once, so nothing is merged over what this entry leaves
        rw [hkey, Keyed.lookup_eq_none_of_not_mem hk]
        simp
      · simp only [if_neg hkey]

/-- An entry after an update is an old one or what the update made of an old one. -/
theorem mem_of_mem_update {key : String} {f : Option (Style m) → Style m}
    {entries : List (String × Style m)} {e : String × Style m} (h : e ∈ Keyed.update key f entries) :
    e ∈ entries ∨ e = (key, f none) ∨ ∃ old, (key, old) ∈ entries ∧ e = (key, f (some old)) := by
  induction entries with
  | nil => exact .inr (.inl (List.mem_singleton.mp h))
  | cons head rest ih =>
      obtain ⟨k, old⟩ := head
      rw [Keyed.update] at h
      split at h
      · rename_i hk
        rcases List.mem_cons.mp h with h | h
        · exact .inr (.inr ⟨old, by rw [hk]; exact List.mem_cons_self, by rw [h, hk]⟩)
        · exact .inl (List.mem_cons_of_mem _ h)
      · rcases List.mem_cons.mp h with h | h
        · exact .inl (by rw [h]; exact List.mem_cons_self)
        · rcases ih h with h | h | ⟨old', hold, h⟩
          · exact .inl (List.mem_cons_of_mem _ h)
          · exact .inr (.inl h)
          · exact .inr (.inr ⟨old', List.mem_cons_of_mem _ hold, h⟩)

theorem tidy_of_lookup {entries : List (String × Style m)} (h : ∀ e ∈ entries, e.2.Tidy) {key : String}
    {style : Style m} (hstyle : entries.lookup key = some style) : style.Tidy :=
  h (key, style) (Keyed.mem_of_lookup hstyle)

/-- An update keeps a level tidy if what it writes is tidy wherever what it finds is. -/
theorem tidy_update {key : String} {f : Option (Style m) → Style m} {entries : List (String × Style m)}
    (h : (nested entries).Tidy) (hnone : (f none).Tidy) (hsome : ∀ old, old.Tidy → (f (some old)).Tidy) :
    (nested (Keyed.update key f entries)).Tidy := by
  obtain ⟨hkeys, hmembers⟩ := tidy_nested_iff.mp h
  refine .nested (Keyed.nodup_keys_update key f hkeys) fun e he => ?_
  rcases mem_of_mem_update he with he | rfl | ⟨old, hold, rfl⟩
  · exact hmembers e he
  · exact hnone
  · exact hsome old (hmembers _ hold)

theorem tidy_over {incoming current : Style m} (hincoming : incoming.Tidy) (hcurrent : current.Tidy) :
    (incoming.over (some current)).Tidy := by
  induction hincoming generalizing current with
  | value v => rw [Style.over]; exact .value v
  | declaration d => rw [Style.over]; exact .declaration d
  | dynamic f => rw [Style.over]; exact .dynamic f
  | @nested entries hnodup htidy ih =>
      rcases isNested_or_eq current with hleaf | ⟨present, rfl⟩
      · rw [over_some_of_not_nested _ hleaf]
        exact .nested hnodup htidy
      · rw [over_nested]
        clear hnodup
        -- the entries are merged in one after the other, each keeping the level tidy
        induction entries generalizing present with
        | nil => exact hcurrent
        | cons head rest ihrest =>
            obtain ⟨k, style⟩ := head
            have hstyle : style.Tidy := htidy (k, style) List.mem_cons_self
            rw [Sheet.over]
            refine ihrest (fun e he => htidy e (List.mem_cons_of_mem _ he))
              (fun e he => ih e (List.mem_cons_of_mem _ he)) _ (tidy_update hcurrent ?_ fun old hold => ?_)
            · rw [over_none]
              exact hstyle
            · exact ih (k, style) List.mem_cons_self hold

/-- What the incoming content has at a path is merged over what stood there. -/
theorem at?_over_of_at? {incoming : Style m} (htidy : incoming.Tidy) {path : List String}
    {found : Style m} (h : incoming.at? path = some found) (current : Option (Style m)) :
    (incoming.over current).at? path =
      some (found.over (current.bind fun present => present.at? path)) := by
  induction path generalizing incoming current with
  | nil =>
      obtain rfl := Option.some.inj h
      cases current <;> rfl
  | cons key path ih =>
      rcases isNested_or_eq incoming with hleaf | ⟨entries, rfl⟩
      · rw [at?_cons_of_not_nested hleaf] at h
        exact absurd h (by simp)
      · obtain ⟨hnodup, hmembers⟩ := tidy_nested_iff.mp htidy
        obtain ⟨inner, hinner, hfound⟩ := Option.bind_eq_some_iff.mp h
        have hinnerTidy : inner.Tidy := tidy_of_lookup hmembers hinner
        -- the path goes on below the entry if there is a nested sheet to merge with
        cases current with
        | none => rw [over_none, h, Option.bind_none, over_none]
        | some present =>
            rcases isNested_or_eq present with hpresent | ⟨present, rfl⟩
            · rw [over_some_of_not_nested _ hpresent, h, Option.bind_some,
                at?_cons_of_not_nested hpresent, over_none]
            · rw [over_nested, at?, lookup_over hnodup, hinner, Option.bind_some,
                ih hinnerTidy hfound, Option.bind_some, at?]

/-- Where the incoming content does not cover a path, what stood there stands. -/
theorem at?_over_of_not_covers {incoming : Style m} (htidy : incoming.Tidy) {path : List String}
    (h : incoming.covers path = false) (current : Style m) :
    (incoming.over (some current)).at? path = current.at? path := by
  induction path generalizing incoming current with
  | nil => exact absurd h (by simp [covers])
  | cons key path ih =>
      rcases isNested_or_eq incoming with hleaf | ⟨entries, rfl⟩
      · rw [covers_of_not_nested hleaf] at h
        exact absurd h (by simp)
      · rcases isNested_or_eq current with hleaf | ⟨present, rfl⟩
        · rw [over_some_of_not_nested _ hleaf, at?_of_not_covers h, at?_cons_of_not_nested hleaf]
        · obtain ⟨hnodup, hmembers⟩ := tidy_nested_iff.mp htidy
          rw [covers] at h
          rw [over_nested, at?, lookup_over hnodup, at?]
          cases hinner : entries.lookup key with
          | none => rfl
          | some inner =>
              rw [hinner] at h
              have hinnerTidy : inner.Tidy := tidy_of_lookup hmembers hinner
              show (inner.over (present.lookup key)).at? path = _
              cases present.lookup key with
              | none => rw [over_none, at?_of_not_covers h, Option.bind_none]
              | some old => rw [ih hinnerTidy h old, Option.bind_some]

/-- A path that neither side covers is not covered after merging. -/
theorem covers_over_of_not_covers {incoming current : Style m} (htidy : incoming.Tidy)
    {path : List String} (h : incoming.covers path = false) (hcurrent : current.covers path = false) :
    (incoming.over (some current)).covers path = false := by
  induction path generalizing incoming current with
  | nil => exact absurd h (by simp [covers])
  | cons key path ih =>
      rcases isNested_or_eq incoming with hleaf | ⟨entries, rfl⟩
      · rw [covers_of_not_nested hleaf] at h
        exact absurd h (by simp)
      · rcases isNested_or_eq current with hleaf | ⟨present, rfl⟩
        · rw [covers_of_not_nested hleaf] at hcurrent
          exact absurd hcurrent (by simp)
        · obtain ⟨hnodup, hmembers⟩ := tidy_nested_iff.mp htidy
          rw [covers] at h hcurrent
          rw [over_nested, covers, lookup_over hnodup]
          cases hinner : entries.lookup key with
          | none => exact hcurrent
          | some inner =>
              rw [hinner] at h
              have hinnerTidy : inner.Tidy := tidy_of_lookup hmembers hinner
              show (inner.over (present.lookup key)).covers path = false
              cases hold : present.lookup key with
              | none =>
                  rw [over_none]
                  exact h
              | some old =>
                  rw [hold] at hcurrent
                  exact ih hinnerTidy h hcurrent

/-- Where the incoming content covers a path without having anything there, nothing stands. -/
theorem at?_over_of_covers {incoming : Style m} (htidy : incoming.Tidy) {path : List String}
    (hcovers : incoming.covers path = true) (h : incoming.at? path = none)
    (current : Option (Style m)) : (incoming.over current).at? path = none := by
  induction path generalizing incoming current with
  | nil => exact absurd h (by simp [at?])
  | cons key path ih =>
      rcases isNested_or_eq incoming with hleaf | ⟨entries, rfl⟩
      · rw [over_of_not_nested hleaf, at?_cons_of_not_nested hleaf]
      · obtain ⟨hnodup, hmembers⟩ := tidy_nested_iff.mp htidy
        cases current with
        | none =>
            rw [over_none]
            exact h
        | some present =>
            rcases isNested_or_eq present with hpresent | ⟨present, rfl⟩
            · rw [over_some_of_not_nested _ hpresent]
              exact h
            · rw [covers] at hcovers
              rw [at?] at h
              rw [over_nested, at?, lookup_over hnodup]
              cases hinner : entries.lookup key with
              | none =>
                  rw [hinner] at hcovers
                  exact absurd hcovers (by simp)
              | some inner =>
                  rw [hinner] at hcovers h
                  exact ih (tidy_of_lookup hmembers hinner) hcovers h _

/-- Something without keys stands after merging if it comes in, or if it stood there and what comes in
does not cover its path. -/
theorem at?_over_eq_some_iff {incoming current found : Style m} (htidy : incoming.Tidy)
    (hfound : found.isNested = false) (path : List String) :
    (incoming.over (some current)).at? path = some found ↔
      incoming.at? path = some found ∨
        incoming.covers path = false ∧ current.at? path = some found := by
  cases hcovers : incoming.covers path with
  | false =>
      rw [at?_over_of_not_covers htidy hcovers, at?_of_not_covers hcovers]
      simp
  | true =>
      cases hat : incoming.at? path with
      | none =>
          rw [at?_over_of_covers htidy hcovers hat]
          simp
      | some style =>
          rw [at?_over_of_at? htidy hat]
          simp only [Option.some.injEq, Bool.true_eq_false, false_and, or_false]
          constructor
          · intro h
            rcases isNested_or_eq style with hleaf | ⟨entries, rfl⟩
            · rw [over_of_not_nested hleaf] at h
              exact h
            · -- a nested sheet that comes in is still one after merging
              rw [← h, isNested_over rfl] at hfound
              exact absurd hfound (by simp)
          · rintro rfl
            exact over_of_not_nested hfound _

/-! ## Content under a path -/

/-- Content put under a path of keys. -/
def under : List String → Style m → Style m
  | [], style => style
  | key :: path, style => .nested [(key, under path style)]

theorem tidy_under {style : Style m} (h : style.Tidy) (path : List String) : (under path style).Tidy := by
  induction path with
  | nil => exact h
  | cons key path ih =>
      refine .nested (by simp [Keyed.keys]) fun e he => ?_
      obtain rfl := List.mem_singleton.mp he
      exact ih

theorem at?_under_append (path rest : List String) (style : Style m) :
    (under path style).at? (path ++ rest) = style.at? rest := by
  induction path with
  | nil => rfl
  | cons key path ih =>
      rw [under, List.cons_append, at?, Keyed.lookup_cons, if_pos rfl]
      exact ih

theorem covers_under_append (path rest : List String) (style : Style m) :
    (under path style).covers (path ++ rest) = style.covers rest := by
  induction path with
  | nil => rfl
  | cons key path ih =>
      rw [under, List.cons_append, covers, Keyed.lookup_cons, if_pos rfl]
      exact ih

/-- Above the content stands a nested sheet. -/
theorem at?_under_of_append (start : List String) {rest : List String} (h : rest ≠ [])
    (style : Style m) : ∃ entries, (under (start ++ rest) style).at? start = some (.nested entries) := by
  induction start with
  | nil =>
      cases rest with
      | nil => exact absurd rfl h
      | cons key path => exact ⟨_, rfl⟩
  | cons key start ih =>
      rw [List.cons_append, under, at?, Keyed.lookup_cons, if_pos rfl]
      exact ih

/-- What has no keys and stands in content put under a path stands in the content. -/
theorem exists_of_at?_under {path place : List String} {style found : Style m}
    (hfound : found.isNested = false) (h : (under path style).at? place = some found) :
    ∃ rest, place = path ++ rest ∧ style.at? rest = some found := by
  induction path generalizing place with
  | nil => exact ⟨place, rfl, h⟩
  | cons key path ih =>
      cases place with
      | nil =>
          obtain rfl := Option.some.inj h
          exact absurd hfound (by simp [under, isNested])
      | cons key' place =>
          rw [under, at?, Keyed.lookup_cons] at h
          split at h
          · rename_i hkey
            obtain ⟨rest, rfl, hrest⟩ := ih h
            exact ⟨rest, by rw [hkey]; rfl, hrest⟩
          · exact absurd h (by simp)

/-- Aside from the content nothing is covered. -/
theorem covers_under_of_not_prefix {path other : List String} (h : ¬path <+: other)
    (h' : ¬other <+: path) (style : Style m) : (under path style).covers other = false := by
  induction path generalizing other with
  | nil => exact absurd List.nil_prefix h
  | cons key path ih =>
      cases other with
      | nil => exact absurd List.nil_prefix h'
      | cons key' other =>
          rw [under, covers, Keyed.lookup_cons]
          -- the two paths part at this key or further on
          by_cases hkey : key' = key
          · rw [hkey, List.cons_prefix_cons] at h h'
            rw [if_pos hkey]
            exact ih (fun hp => h ⟨rfl, hp⟩) (fun hp => h' ⟨rfl, hp⟩)
          · rw [if_neg hkey]
            rfl

end Style

/-! ## Placing -/

/-- The keys under which the content of a key is placed: its segments, or the key itself where there
are none. -/
def Key.path (key : String) : List String :=
  match Key.segments key.toList with
  | [] => [key]
  | segments => segments.map String.ofList

theorem Key.path_ne_nil (key : String) : Key.path key ≠ [] := by
  unfold path
  split
  · simp
  · rename_i h
    simpa using h

/-- The keys under which an entry is placed. The key of a property value is its name. -/
def Style.pathOf (key : String) (style : Style m) : List String :=
  if style.isValue then [key] else Key.path key

theorem Sheet.nest_eq_under (segments : List (List Char)) (style : Style m) :
    Sheet.nest segments style = Style.under (segments.map String.ofList) style := by
  induction segments with
  | nil => rfl
  | cons segment rest ih =>
      rw [List.map_cons, Style.under, ← ih]
      rfl

/-- Placing an entry merges its content under its keys. -/
theorem Sheet.nested_place (sheet : Sheet m) (key : String) (style : Style m) :
    Style.nested (Sheet.place sheet key style) =
      (Style.under (style.pathOf key) style).over (some (.nested sheet)) := by
  unfold Sheet.place Style.pathOf
  split
  · rename_i hvalue
    rw [Style.under, Style.under, Style.over_nested, Sheet.over, Sheet.over]
    obtain ⟨v, rfl⟩ := Style.exists_value_of_isValue hvalue
    have hover : (Style.value v : Style m).over = fun _ => .value v := by
      funext current
      rw [Style.over]
    rw [hover]
    rfl
  · unfold Key.path
    split
    · rename_i hsegments
      rw [hsegments]
      rw [Style.under, Style.under, Style.over_nested, Sheet.over, Sheet.over]
      rfl
    · rename_i first rest hsegments
      rw [hsegments]
      show _ = (Style.under ((first :: rest).map String.ofList) style).over _
      rw [List.map_cons, Style.under, ← Sheet.nest_eq_under, Style.over_nested, Sheet.over,
        Sheet.over]
      rfl

end StyleCascade
