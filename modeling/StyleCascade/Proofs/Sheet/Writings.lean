/-
# StyleCascade.Proofs.Sheet.Writings — what a sheet writes, and what stands after expanding it

The source of a sheet is a list of writings: every property value, declaration, dynamic style and nested
sheet, at the path it has once references are filled in, entries have moved up and keys are split.
`Sheet.writings` lists them in the order in which expanding places them, and knows nothing of merging.

Expanding merges. What then stands at a slot is decided by the last writing that concerns it: one at the
slot or below it, or one above it that has no keys. `Style.Shows` says so, level by level; `shows_over`
is its step for a merge, and `shows_expand` the law for whole sheets.
-/
import StyleCascade.Proofs.Sheet.Lookup

namespace StyleCascade

variable {m : Type → Type}

/-! ## Writings -/

/-- One thing that the source of a sheet writes. -/
structure Writing (m : Type → Type) where
  /-- The selectors above it, or its own where it is no property value. -/
  path : List String
  /-- The name of a property value. -/
  name : Option String
  /-- What is written. Of a nested sheet only that it is there counts: its entries are writings too. -/
  content : Style m
  /-- Property values have names, and nothing else has. -/
  named : name.isSome = content.isValue
  /-- Only a property value can stand at the root. -/
  placed : path ++ name.toList ≠ []

namespace Writing

/-- The place that is written: the path, and the name of a property value. -/
def slot (w : Writing m) : List String :=
  w.path ++ w.name.toList

theorem slot_ne_nil (w : Writing m) : w.slot ≠ [] :=
  w.placed

/-- The writing seen from a level above. -/
def below (path : List String) (w : Writing m) : Writing m :=
  { w with
    path := path ++ w.path
    placed := by
      rw [List.append_assoc]
      exact List.append_ne_nil_of_right_ne_nil _ w.placed }

/-- The writing may decide what stands at a place: it writes there or below, or it writes above
something that has no keys. -/
def concerns (place : List String) (w : Writing m) : Bool :=
  place.isPrefixOf w.slot || (!w.content.isNested && w.slot.isPrefixOf place)

/-- The last of some writings that concerns a place. -/
def last? (place : List String) (ws : List (Writing m)) : Option (Writing m) :=
  ws.reverse.find? (concerns place)

/-- What the last writing leaves at a place: its content, or a nested sheet around it. -/
def Leaves (w : Writing m) (place : List String) (style : Style m) : Prop :=
  if w.slot = place ∧ w.content.isNested = false then style = w.content else style.isNested = true

theorem slot_below (path : List String) (w : Writing m) :
    (w.below path).slot = path ++ w.slot :=
  List.append_assoc _ _ _

theorem concerns_iff (place : List String) (w : Writing m) : w.concerns place = true ↔
    place <+: w.slot ∨ w.content.isNested = false ∧ w.slot <+: place := by
  unfold concerns
  rw [Bool.or_eq_true, Bool.and_eq_true, List.isPrefixOf_iff_prefix, List.isPrefixOf_iff_prefix,
    Bool.not_eq_true']

theorem concerns_below (path place : List String) (w : Writing m) :
    (w.below path).concerns (path ++ place) = w.concerns place := by
  rw [Bool.eq_iff_iff, concerns_iff, concerns_iff, slot_below, List.prefix_append_right_inj,
    List.prefix_append_right_inj]
  rfl

theorem leaves_below {path place : List String} {w : Writing m} {style : Style m} :
    (w.below path).Leaves (path ++ place) style ↔ w.Leaves place style := by
  unfold Leaves
  simp only [slot_below, List.append_cancel_left_eq]
  rfl

theorem last?_append (place : List String) (ws more : List (Writing m)) :
    last? place (ws ++ more) = (last? place more).or (last? place ws) := by
  unfold last?
  rw [List.reverse_append, List.find?_append]

theorem last?_singleton (place : List String) (w : Writing m) :
    last? place [w] = if w.concerns place then some w else none := by
  cases h : w.concerns place <;> simp [last?, h]

theorem last?_map_below (path place : List String) (ws : List (Writing m)) :
    last? (path ++ place) (ws.map (below path)) = (last? place ws).map (below path) := by
  unfold last?
  rw [← List.map_reverse, List.find?_map]
  congr 2
  funext w
  exact concerns_below path place w

theorem last?_eq_none {place : List String} {ws : List (Writing m)}
    (h : ∀ w ∈ ws, w.concerns place = false) : last? place ws = none := by
  unfold last?
  rw [List.find?_eq_none]
  intro w hw
  rw [h w (List.mem_reverse.mp hw)]
  simp

theorem mem_of_last? {place : List String} {ws : List (Writing m)} {w : Writing m}
    (h : last? place ws = some w) : w ∈ ws :=
  List.mem_reverse.mp (List.mem_of_find?_eq_some h)

end Writing

/-! ## What stands -/

namespace Style

open Writing

/-- The content shows some writings: no place is covered that none of them concerns, and where the last
one that concerns a place writes there or below, that stands. -/
structure Shows (style : Style m) (ws : List (Writing m)) : Prop where
  tidy : style.Tidy
  isNested : style.isNested = true
  clear : ∀ place, place ≠ [] → last? place ws = none → style.covers place = false
  shown : ∀ place, place ≠ [] → ∀ w, last? place ws = some w → place <+: w.slot →
    ∃ found, style.at? place = some found ∧ w.Leaves place found

theorem shows_empty : Shows (.nested []) ([] : List (Writing m)) := by
  refine ⟨.nested List.nodup_nil (fun e he => absurd he List.not_mem_nil), rfl,
    fun place hplace _ => ?_,
    fun _ _ w hw => absurd hw (by simp [last?])⟩
  cases place with
  | nil => exact absurd rfl hplace
  | cons key path => rfl

/-- Merging adds the writings of the incoming content behind those that were there. -/
theorem shows_over {current incoming : Style m} {ws more : List (Writing m)}
    (hcurrent : current.Shows ws) (hincoming : incoming.Shows more) :
    (incoming.over (some current)).Shows (ws ++ more) := by
  refine ⟨tidy_over hincoming.tidy hcurrent.tidy, isNested_over hincoming.isNested _, ?_, ?_⟩
  · intro place hplace hlast
    rw [last?_append, Option.or_eq_none_iff] at hlast
    exact covers_over_of_not_covers hincoming.tidy (hincoming.clear place hplace hlast.1)
      (hcurrent.clear place hplace hlast.2)
  · intro place hplace w hlast hbelow
    rw [last?_append] at hlast
    cases hmore : last? place more with
    | some v =>
        -- the last writing comes in, so what it left is merged over whatever stood there
        rw [hmore] at hlast
        obtain rfl := Option.some.inj hlast
        obtain ⟨found, hfound, hleaves⟩ := hincoming.shown place hplace v hmore hbelow
        refine ⟨_, at?_over_of_at? hincoming.tidy hfound _, ?_⟩
        unfold Leaves at hleaves ⊢
        split
        · rename_i hv
          rw [if_pos hv] at hleaves
          rw [hleaves, over_of_not_nested hv.2]
        · rename_i hv
          rw [if_neg hv] at hleaves
          exact isNested_over hleaves _
    | none =>
        -- nothing that comes in concerns the place, so what stood there stands
        rw [hmore] at hlast
        obtain ⟨found, hfound, hleaves⟩ := hcurrent.shown place hplace w hlast hbelow
        refine ⟨found, ?_, hleaves⟩
        rw [at?_over_of_not_covers hincoming.tidy (hincoming.clear place hplace hmore)]
        exact hfound

/-- A path is a part of another, goes on beyond it, or parts from it. -/
theorem prefix_cases (path place : List String) :
    place <+: path ∨ (∃ rest, rest ≠ [] ∧ place = path ++ rest) ∨
      (¬path <+: place ∧ ¬place <+: path) := by
  by_cases h : place <+: path
  · exact .inl h
  · by_cases h' : path <+: place
    · obtain ⟨rest, rfl⟩ := h'
      refine .inr (.inl ⟨rest, ?_, rfl⟩)
      rintro rfl
      apply h
      rw [List.append_nil]
    · exact .inr (.inr ⟨h', h⟩)

/-- Content without keys, put under a path, shows itself there. -/
theorem shows_under_leaf {style : Style m} (htidy : style.Tidy) (hleaf : style.isNested = false)
    {w : Writing m} (hcontent : w.content = style) : (under w.slot style).Shows [w] := by
  refine ⟨tidy_under htidy _, ?_, ?_, ?_⟩
  · cases hw : w.slot with
    | nil => exact absurd hw w.slot_ne_nil
    | cons key path => rfl
  · intro place hplace hlast
    rw [last?_singleton] at hlast
    split at hlast
    · exact absurd hlast (by simp)
    · rename_i hconcerns
      rw [concerns_iff, hcontent] at hconcerns
      exact covers_under_of_not_prefix (fun h => hconcerns (.inr ⟨hleaf, h⟩))
        (fun h => hconcerns (.inl h)) style
  · intro place hplace v hlast hbelow
    rw [last?_singleton, Option.ite_none_right_eq_some] at hlast
    obtain rfl := Option.some.inj hlast.2
    obtain ⟨rest, hrest⟩ := hbelow
    unfold Leaves
    by_cases hempty : rest = []
    · -- at the slot stands the content, and above it the nested sheets around it
      have hplace' : w.slot = place := by rw [← hrest, hempty, List.append_nil]
      refine ⟨style, ?_, ?_⟩
      · have := at?_under_append w.slot [] style
        rw [List.append_nil] at this
        rw [← hplace', this]
        rfl
      · rw [if_pos ⟨hplace', by rw [hcontent]; exact hleaf⟩, hcontent]
    · obtain ⟨entries, hentries⟩ := at?_under_of_append place hempty style
      refine ⟨_, by rw [← hrest]; exact hentries, ?_⟩
      have hne : ¬(w.slot = place ∧ w.content.isNested = false) := by
        rintro ⟨hslot', _⟩
        rw [hslot'] at hrest
        exact hempty (List.append_cancel_left (hrest.trans (List.append_nil place).symm))
      rw [if_neg hne]
      rfl

/-- A nested sheet, put under a path, shows itself there and its writings below. -/
theorem shows_under_nested {inner : Style m} {ws : List (Writing m)} (h : inner.Shows ws)
    {w : Writing m} (hnested : w.content.isNested = true) :
    (under w.slot inner).Shows (w :: ws.map (below w.slot)) := by
  have hmem : ∀ v ∈ w :: ws.map (below w.slot), w.slot <+: v.slot := by
    intro v hv
    rcases List.mem_cons.mp hv with rfl | hv
    · exact List.prefix_rfl
    · obtain ⟨u, _, rfl⟩ := List.mem_map.mp hv
      rw [slot_below]
      exact List.prefix_append _ _
  -- beyond the slot only the entries count: the sheet itself has keys and leaves them alone
  have hbeyond : ∀ rest, rest ≠ [] →
      last? (w.slot ++ rest) (w :: ws.map (below w.slot)) = (last? rest ws).map (below w.slot) := by
    intro rest hrest
    have hw : w.concerns (w.slot ++ rest) = false := by
      rw [Bool.eq_false_iff, Ne, concerns_iff, hnested]
      rintro (hbelow | ⟨hfalse, _⟩)
      · have := hbelow.length_le
        rw [List.length_append] at this
        exact hrest (List.eq_nil_of_length_eq_zero (by omega))
      · exact absurd hfalse (by simp)
    rw [← List.singleton_append, last?_append, last?_singleton, hw, last?_map_below]
    simp
  refine ⟨tidy_under h.tidy _, ?_, ?_, ?_⟩
  · cases hw : w.slot with
    | nil => exact absurd hw w.slot_ne_nil
    | cons key path => rfl
  · intro place hplace hlast
    rcases prefix_cases w.slot place with hplace' | ⟨rest, hrest, rfl⟩ | ⟨hno, hno'⟩
    · -- the nested sheet itself concerns every place above it
      have hw : w.concerns place = true := (concerns_iff _ _).mpr (.inl hplace')
      unfold last? at hlast
      rw [List.find?_eq_none] at hlast
      exact absurd hw (hlast w (List.mem_reverse.mpr List.mem_cons_self))
    · rw [hbeyond rest hrest, Option.map_eq_none_iff] at hlast
      rw [covers_under_append]
      exact h.clear rest hrest hlast
    · exact covers_under_of_not_prefix hno hno' inner
  · intro place hplace v hlast hbelow
    have hv : w.slot <+: v.slot := hmem v (mem_of_last? hlast)
    rcases prefix_cases w.slot place with hplace' | ⟨rest, hrest, rfl⟩ | ⟨hno, hno'⟩
    · -- at the slot or above it a nested sheet is all that can be left
      have hleaves : ∀ found : Style m, found.isNested = true → v.Leaves place found := by
        intro found hfound
        unfold Leaves
        have hne : ¬(v.slot = place ∧ v.content.isNested = false) := by
          rintro ⟨heq, hleaf⟩
          rcases List.mem_cons.mp (mem_of_last? hlast) with rfl | hv'
          · rw [hnested] at hleaf
            exact absurd hleaf (by simp)
          · -- an entry of the nested sheet writes strictly below it
            obtain ⟨u, _, rfl⟩ := List.mem_map.mp hv'
            rw [slot_below] at heq
            have := hplace'.length_le
            rw [← heq, List.length_append] at this
            exact u.slot_ne_nil (List.eq_nil_of_length_eq_zero (by omega))
        rw [if_neg hne]
        exact hfound
      obtain ⟨rest, hrest⟩ := hplace'
      by_cases hempty : rest = []
      · rw [hempty, List.append_nil] at hrest
        refine ⟨inner, ?_, hleaves inner h.isNested⟩
        have := at?_under_append w.slot [] inner
        rw [List.append_nil] at this
        rw [hrest, this]
        rfl
      · obtain ⟨entries, hentries⟩ := at?_under_of_append place hempty inner
        exact ⟨_, by rw [← hrest]; exact hentries, hleaves _ rfl⟩
    · rw [hbeyond rest hrest, Option.map_eq_some_iff] at hlast
      obtain ⟨u, hu, rfl⟩ := hlast
      rw [slot_below, List.prefix_append_right_inj] at hbelow
      obtain ⟨found, hfound, hleaves⟩ := h.shown rest hrest u hu hbelow
      exact ⟨found, by rw [at?_under_append]; exact hfound, leaves_below.mpr hleaves⟩
    · exact absurd (List.prefix_or_prefix_of_prefix hv hbelow) (by simp [hno, hno'])

end Style

/-! ## The writings of a source -/

/-- A property value, seen from its level. -/
def Writing.ofProperty (key : String) (v : Value) : Writing m :=
  ⟨[], some key, .value v, rfl, List.cons_ne_nil _ _⟩

/-- Anything else under a key, seen from the level of the key. -/
def Writing.ofSelector (key : String) (style : Style m) (h : style.isValue = false) : Writing m :=
  ⟨Key.path key, none, style, h.symm, by
    rw [Option.toList_none, List.append_nil]
    exact Key.path_ne_nil key⟩

/-- What an entry itself writes, seen from its level. -/
def Writing.ofEntry (key : String) : Style m → Writing m
  | .nested entries => .ofSelector key (.nested entries) rfl
  | .value v => .ofProperty key v
  | .declaration d => .ofSelector key (.declaration d) rfl
  | .dynamic f => .ofSelector key (.dynamic f) rfl

theorem Writing.content_ofEntry (key : String) (style : Style m) :
    (Writing.ofEntry key style).content = style := by
  cases style <;> rfl

theorem Writing.slot_ofEntry (key : String) (style : Style m) :
    (Writing.ofEntry key style).slot = style.pathOf key := by
  cases style with
  | value v => rfl
  | nested entries => exact List.append_nil _
  | declaration d => exact List.append_nil _
  | dynamic f => exact List.append_nil _

/-- What comes of the entries of one level: of those that stay, and of those that move up. -/
structure Written (α : Type) where
  stay : List α
  rise : List α

/-- A level with more put in front of what stays, or of what moves up. -/
def Written.push {α : Type} (more : List α) (rises : Bool) (level : Written α) : Written α :=
  if rises then { level with rise := more ++ level.rise }
  else { level with stay := more ++ level.stay }

mutual

/-- What the content of a key writes, seen from the level its entry is on: a nested sheet is there, its
own entries are below it, and those that move up out of it follow. -/
def Style.writings (key : String) : Style m → List (Writing m)
  | .nested entries =>
    let level := Sheet.written (some key) entries
    .ofEntry key (.nested entries) :: level.stay.map (Writing.below (Key.path key)) ++ level.rise
  | .value v => [.ofEntry key (.value v)]
  | .declaration d => [.ofEntry key (.declaration d)]
  | .dynamic f => [.ofEntry key (.dynamic f)]
termination_by structural style => style

/-- What the entries of a level below an enclosing key write. -/
def Sheet.written (enclosing : Option String) : List (String × Style m) → Written (Writing m)
  | [] => ⟨[], []⟩
  | (key, style) :: rest =>
    let level := Sheet.written enclosing rest
    if style.isValue then level.push (style.writings key) false
    else
      let (resolved, rises) := Key.resolve enclosing key
      level.push (style.writings resolved) rises
termination_by structural entries => entries

end

/-- Everything a sheet writes, in the order in which expanding places it. -/
def Sheet.writings (sheet : Sheet m) : List (Writing m) :=
  (Sheet.written none sheet).stay ++ (Sheet.written none sheet).rise

/-! ## The expanded sheet shows the writings of its source -/

/-- Entries that are still to be placed, with what each of them shows once it is. -/
inductive Pending : List (String × Style m) → List (Writing m) → Prop
  | nil : Pending [] []
  | cons {key : String} {style : Style m} {rest : List (String × Style m)} {ws more : List (Writing m)} :
      (Style.under (style.pathOf key) style).Shows ws → Pending rest more →
      Pending ((key, style) :: rest) (ws ++ more)

theorem Pending.append {entries others : List (String × Style m)} {ws more : List (Writing m)}
    (h : Pending entries ws) (hothers : Pending others more) :
    Pending (entries ++ others) (ws ++ more) := by
  induction h with
  | nil => exact hothers
  | cons hshows _ ih =>
      rw [List.append_assoc]
      exact .cons hshows ih

/-- An entry without keys shows itself. -/
theorem Pending.leaf {key : String} {style : Style m} (htidy : style.Tidy)
    (hleaf : style.isNested = false) : Pending [(key, style)] [.ofEntry key style] := by
  have hshows := Style.shows_under_leaf htidy hleaf (Writing.content_ofEntry key style)
  rw [Writing.slot_ofEntry] at hshows
  exact .cons hshows .nil

/-- Placing entries one after the other merges what they show. -/
theorem Pending.shows_ofPlaced {entries : List (String × Style m)} {ws : List (Writing m)}
    (h : Pending entries ws) : (Style.nested (Sheet.ofPlaced entries)).Shows ws := by
  suffices hfold : ∀ (sheet : Sheet m) (present : List (Writing m)),
      (Style.nested sheet).Shows present →
      (Style.nested (entries.foldl (fun sheet e => Sheet.place sheet e.1 e.2) sheet)).Shows
        (present ++ ws) from hfold [] [] Style.shows_empty
  induction h with
  | nil =>
      intro sheet present hpresent
      rw [List.append_nil]
      exact hpresent
  | @cons key style rest ws more hshows _ ih =>
      intro sheet present hpresent
      rw [← List.append_assoc]
      apply ih
      rw [Sheet.nested_place]
      exact Style.shows_over hpresent hshows

mutual

theorem Style.pending_resolve : ∀ (style : Style m) (key : String),
    Pending (style.resolve key) (style.writings key)
  | .nested entries, key => by
    obtain ⟨hstay, hrise⟩ := Sheet.pending_resolve entries (some key)
    rw [Style.resolve, Style.writings]
    refine .cons ?_ hrise
    have hshows := Style.shows_under_nested hstay.shows_ofPlaced
      (w := .ofEntry key (.nested entries)) rfl
    rw [Writing.slot_ofEntry] at hshows
    exact hshows
  | .value v, key => by
    rw [Style.resolve, Style.writings]
    exact .leaf (.value v) rfl
  | .declaration d, key => by
    rw [Style.resolve, Style.writings]
    exact .leaf (.declaration d) rfl
  | .dynamic f, key => by
    rw [Style.resolve, Style.writings]
    exact .leaf (.dynamic f) rfl
termination_by structural style => style

theorem Sheet.pending_resolve : ∀ (entries : List (String × Style m)) (enclosing : Option String),
    Pending (Sheet.resolve enclosing entries).stay (Sheet.written enclosing entries).stay ∧
      Pending (Sheet.resolve enclosing entries).rise (Sheet.written enclosing entries).rise
  | [], _ => ⟨.nil, .nil⟩
  | (key, style) :: rest, enclosing => by
    obtain ⟨hstay, hrise⟩ := Sheet.pending_resolve rest enclosing
    rw [Sheet.resolve, Sheet.written]
    by_cases hvalue : style.isValue = true
    · rw [if_pos hvalue, if_pos hvalue]
      obtain ⟨v, rfl⟩ := Style.exists_value_of_isValue hvalue
      exact ⟨Pending.append (.leaf (.value v) rfl) hstay, hrise⟩
    · rw [if_neg hvalue, if_neg hvalue]
      -- an entry that moves up is placed behind the level it leaves
      obtain ⟨resolved, rises⟩ := Key.resolve enclosing key
      have hstyle := Style.pending_resolve style resolved
      cases rises with
      | true => exact ⟨hstay, hstyle.append hrise⟩
      | false => exact ⟨hstyle.append hstay, hrise⟩
termination_by structural entries => entries

end

/-- What stands after expanding a sheet is decided by its writings. -/
theorem Sheet.shows_expand (sheet : Sheet m) :
    (Style.nested sheet.expand).Shows sheet.writings := by
  obtain ⟨hstay, hrise⟩ := Sheet.pending_resolve sheet none
  exact (hstay.append hrise).shows_ofPlaced

end StyleCascade
