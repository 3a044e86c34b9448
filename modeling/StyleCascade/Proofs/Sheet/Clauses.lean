/-
# StyleCascade.Proofs.Sheet.Clauses — what the source of a sheet says

The source of a sheet of property values and nested sheets says two things: that a selector is there, and
that a property has a value. `Sheet.clauses` reads these off the source from the top down, each at the
path it has in the expanded sheet. An entry that refers to the enclosing key stands where the entry of
that key stands; every other one stands below it; and a key of several segments stands for as many steps.
No sheet is built or merged on the way.

The order of the clauses is that of the source, except that what an entry says of entries that refer to
its key comes after everything else it says. Expanding closed keys places writings in that order and at
those paths (`map_clause?_writings`). Sheets read from JSON say nothing else, and have no key twice on one level
(`isPlain_and_tidy_ofJson`).
-/
import StyleCascade.Proofs.Sheet.Marks
import StyleCascade.Proofs.Sheet.Writings
import StyleCascade.Sheet.OfJson

namespace StyleCascade

variable {m : Type → Type}

/-! ## Clauses -/

/-- One thing that a source says of a path: that its selectors are there, or that a property there has a
value. -/
structure Clause where
  path : List String
  property : Option (String × Value)
deriving DecidableEq

namespace Clause

/-- The path of a selector, or the place of a property. -/
def slot (c : Clause) : List String :=
  c.path ++ (c.property.map fun p => p.1).toList

end Clause

/-- Where an entry stands: the path of the level it is on, and its key. -/
structure Standing where
  above : List String
  key : Key.Marks

namespace Standing

/-- The path of the entry. -/
def path (s : Standing) : List String :=
  s.above ++ s.key.path

/-- Where an entry stands that is written inside of another one, or at the root. -/
def ofEntry (enclosing : Option Standing) (key : String) : Standing :=
  match enclosing with
  | none => ⟨[], Key.marks key⟩
  | some outer =>
    if (Key.marks key).refers then ⟨outer.above, (Key.marks key).fill outer.key⟩
    else ⟨outer.path, Key.marks key⟩

/-- The path of the level inside an entry, or of the root. -/
def pathInside (enclosing : Option Standing) : List String :=
  (enclosing.map path).getD []

end Standing

/-- The entry is no property value, and its key refers to the enclosing key. -/
def Style.refersBy (key : String) (style : Style m) : Bool :=
  !style.isValue && (Key.marks key).refers

mutual

/-- What the content of an entry says: that it is there, and then what is said inside of it, the entries
that refer to its key last. -/
def Style.clauses (enclosing : Option Standing) (key : String) : Style m → List Clause
  | .value v => [⟨Standing.pathInside enclosing, some (key, v)⟩]
  | .nested entries =>
    let standing := Standing.ofEntry enclosing key
    ⟨standing.path, none⟩ ::
      (Sheet.clausesOf (some standing) false entries ++ Sheet.clausesOf (some standing) true entries)
  | .declaration _ => []
  | .dynamic _ => []
termination_by structural style => style

/-- What those entries of a level say that refer to the enclosing key, or those that do not. -/
def Sheet.clausesOf (enclosing : Option Standing) (referring : Bool) :
    List (String × Style m) → List Clause
  | [] => []
  | (key, style) :: rest =>
    (if style.refersBy key = referring then style.clauses enclosing key else []) ++
      Sheet.clausesOf enclosing referring rest
termination_by structural entries => entries

end

/-- Everything that a sheet says. At the root there is no key to refer to. -/
def Sheet.clauses (sheet : Sheet m) : List Clause :=
  Sheet.clausesOf none false sheet

/-! ## Sheets of property values and nested sheets -/

/-- The content is a property value, or a nested sheet of such content. -/
inductive Style.IsPlain : Style m → Prop
  | value (v : Value) : IsPlain (.value v)
  | nested {entries : List (String × Style m)} :
      (∀ e ∈ entries, e.2.IsPlain) → IsPlain (.nested entries)

/-- Every key inside that is no property name closes its brackets and quotes. -/
inductive Style.KeysClosed : Style m → Prop
  | value (v : Value) : KeysClosed (.value v)
  | declaration (d : Declaration) : KeysClosed (.declaration d)
  | dynamic (f : DynamicStyle m) : KeysClosed (.dynamic f)
  | nested {entries : List (String × Style m)} :
      (∀ e ∈ entries, e.2.isValue = false → Key.isClosed e.1.toList = true) →
      (∀ e ∈ entries, e.2.KeysClosed) → KeysClosed (.nested entries)

theorem Style.forall_of_isPlain {entries : List (String × Style m)}
    (h : (Style.nested entries).IsPlain) : ∀ e ∈ entries, e.2.IsPlain := by
  cases h with
  | nested h => exact h

theorem Style.forall_of_keysClosed {entries : List (String × Style m)}
    (h : (Style.nested entries).KeysClosed) :
    (∀ e ∈ entries, e.2.isValue = false → Key.isClosed e.1.toList = true) ∧
      ∀ e ∈ entries, e.2.KeysClosed := by
  cases h with
  | nested hkeys hinside => exact ⟨hkeys, hinside⟩

theorem Style.forall_mem_ofList {p : String × Style m → Prop} {entries : List (String × Style m)}
    (h : ∀ e ∈ entries, p e) : ∀ e ∈ Keyed.ofList entries, p e := by
  suffices hfold : ∀ present : List (String × Style m), (∀ e ∈ present, p e) →
      ∀ e ∈ entries.foldl (fun l e => Keyed.set e.1 e.2 l) present, p e from
    hfold [] fun e he => absurd he List.not_mem_nil
  induction entries with
  | nil => exact fun _ hpresent => hpresent
  | cons head rest ih =>
      rw [List.forall_mem_cons] at h
      refine fun present hpresent => ih h.2 _ fun e he => ?_
      rcases mem_of_mem_update he with he | rfl | ⟨_, _, rfl⟩
      · exact hpresent e he
      · exact h.1
      · exact h.1

mutual

theorem Style.isPlain_and_tidy_ofJson : ∀ (json : Json) (key : String) {style : Style m},
    Style.ofJson key json = .ok (some style) → style.IsPlain ∧ style.Tidy
  | .null, _, _ => fun h => absurd h (by simp [Style.ofJson])
  | .bool _, _, _ => fun h => by
    rw [Style.ofJson] at h
    obtain rfl := Option.some.inj (Except.ok.inj h)
    exact ⟨.value _, .value _⟩
  | .number _, _, _ => fun h => by
    rw [Style.ofJson] at h
    obtain rfl := Option.some.inj (Except.ok.inj h)
    exact ⟨.value _, .value _⟩
  | .string _, _, _ => fun h => by
    rw [Style.ofJson] at h
    obtain rfl := Option.some.inj (Except.ok.inj h)
    exact ⟨.value _, .value _⟩
  | .array _, _, _ => fun h => absurd h (by simp [Style.ofJson])
  | .object members, _, _ => fun h => by
    rw [Style.ofJson] at h
    split at h
    · exact absurd h (by simp)
    · rename_i entries hentries
      obtain rfl := Option.some.inj (Except.ok.inj h)
      have hmembers := Style.forall_mem_ofList (Sheet.isPlain_and_tidy_entriesOfJson members hentries)
      exact ⟨.nested fun e he => (hmembers e he).1,
        .nested (Keyed.nodup_keys_ofList entries) fun e he => (hmembers e he).2⟩
termination_by structural json => json

theorem Sheet.isPlain_and_tidy_entriesOfJson : ∀ (members : List (String × Json))
    {entries : List (String × Style m)}, Sheet.entriesOfJson members = .ok entries →
    ∀ e ∈ entries, e.2.IsPlain ∧ e.2.Tidy
  | [], _ => fun h => by
    obtain rfl := Except.ok.inj h
    exact fun e he => absurd he List.not_mem_nil
  | (key, json) :: rest, _ => fun h => by
    rw [Sheet.entriesOfJson] at h
    split at h
    · exact absurd h (by simp)
    · rename_i found hfound
      split at h
      · exact absurd h (by simp)
      · rename_i entries hentries
        obtain rfl := Except.ok.inj h
        have hrest := Sheet.isPlain_and_tidy_entriesOfJson rest hentries
        cases found with
        | none => exact hrest
        | some style =>
            exact List.forall_mem_cons.mpr ⟨Style.isPlain_and_tidy_ofJson json key hfound, hrest⟩
termination_by structural members => members

end

/-- A sheet read from JSON is made of property values and nested sheets, and has no key twice on one
level. -/
theorem Sheet.isPlain_and_tidy_ofJson {json : Json} {sheet : Sheet m}
    (h : Sheet.ofJson json = .ok sheet) :
    (Style.nested sheet).IsPlain ∧ (Style.nested sheet).Tidy := by
  cases json with
  | object members =>
      rw [Sheet.ofJson] at h
      cases hentries : (Sheet.entriesOfJson members : Except DefinitionError _) with
      | error e =>
          rw [hentries] at h
          exact absurd h (by simp [Except.map])
      | ok entries =>
          rw [hentries] at h
          obtain rfl := Except.ok.inj h
          have hmembers :=
            Style.forall_mem_ofList (Sheet.isPlain_and_tidy_entriesOfJson members hentries)
          exact ⟨.nested fun e he => (hmembers e he).1,
            .nested (Keyed.nodup_keys_ofList entries) fun e he => (hmembers e he).2⟩
  | null => exact absurd h (by simp [Sheet.ofJson])
  | bool value => exact absurd h (by simp [Sheet.ofJson])
  | number value => exact absurd h (by simp [Sheet.ofJson])
  | string value => exact absurd h (by simp [Sheet.ofJson])
  | array items => exact absurd h (by simp [Sheet.ofJson])

/-! ## Writings are clauses -/

/-- What a writing says, unless it writes a declaration or a dynamic style. -/
def Writing.clause? (w : Writing m) : Option Clause :=
  match w.content with
  | .value v => w.name.map fun name => ⟨w.path, some (name, v)⟩
  | .nested _ => some ⟨w.path, none⟩
  | .declaration _ => none
  | .dynamic _ => none

theorem Writing.below_below (path outer : List String) (w : Writing m) :
    (w.below path).below outer = w.below (outer ++ path) := by
  simp only [below, List.append_assoc]

/-- Where the entry of a key stands that is read as text, on the level of a path. -/
def Standing.ofText (above : List String) (key : String) : Standing :=
  ⟨above, Key.marks key⟩

theorem Standing.path_ofText (above : List String) (key : String) :
    (ofText above key).path = above ++ Key.path key := by
  rw [Key.path_eq_path_marks]
  rfl

/-- An entry stands where the text of its resolved key says, on the level it is moved to. -/
theorem Standing.ofEntry_ofText {outer : String} (houter : Key.isClosed outer.toList = true)
    (above : List String) (key : String) :
    ofEntry (some (ofText above outer)) key =
      if Key.hasReference key.toList then
        ofText above (String.ofList (Key.fillReferences outer.toList key.toList))
      else ofText (above ++ Key.path outer) key := by
  show (if Key.hasReference key.toList then
      (⟨above, (Key.marks key).fill (Key.marks outer)⟩ : Standing)
    else ⟨(ofText above outer).path, Key.marks key⟩) = _
  rw [path_ofText, ← Key.marks_fillReferences houter]
  rfl

mutual

/-- What an entry writes once its key is resolved, seen from the root, is what it says. -/
theorem Style.map_clause?_writings : ∀ (style : Style m), style.IsPlain → style.KeysClosed →
    style.isValue = false → ∀ (enclosing : Option Standing) (key : String) (above : List String)
      (resolved : String), Key.isClosed resolved.toList = true →
      Standing.ofEntry enclosing key = .ofText above resolved →
      (style.writings resolved).map (fun w => (w.below above).clause?) =
        (style.clauses enclosing key).map some
  | .nested entries, hplain, hclosed, _, enclosing, key, above, resolved => fun hkey hstanding => by
    obtain ⟨hkeys, hinside⟩ := Style.forall_of_keysClosed hclosed
    obtain ⟨hstay, hrise⟩ := Sheet.map_clause?_written entries (Style.forall_of_isPlain hplain)
      hkeys hinside above resolved hkey
    have hself : ((Writing.ofEntry resolved (.nested entries)).below above).clause? =
        some ⟨(Standing.ofText above resolved).path, none⟩ := by
      rw [Standing.path_ofText]
      rfl
    rw [Style.writings, Style.clauses, hstanding, List.map_append, List.map_cons, List.map_map, hself,
      hrise, List.map_cons, List.map_append, ← hstay]
    simp only [Function.comp_def, Writing.below_below]
    rfl
  | .value _, _, _, hvalue, _, _, _, _ => absurd hvalue (by simp [Style.isValue])
  | .declaration _, hplain, _, _, _, _, _, _ => by cases hplain
  | .dynamic _, hplain, _, _, _, _, _, _ => by cases hplain
termination_by structural style => style

theorem Sheet.map_clause?_written : ∀ (entries : List (String × Style m)),
    (∀ e ∈ entries, e.2.IsPlain) →
    (∀ e ∈ entries, e.2.isValue = false → Key.isClosed e.1.toList = true) →
    (∀ e ∈ entries, e.2.KeysClosed) → ∀ (above : List String) (outer : String),
      Key.isClosed outer.toList = true →
      (Sheet.written (some outer) entries).stay.map
          (fun w => (w.below (above ++ Key.path outer)).clause?) =
        (Sheet.clausesOf (some (.ofText above outer)) false entries).map some ∧
      (Sheet.written (some outer) entries).rise.map (fun w => (w.below above).clause?) =
        (Sheet.clausesOf (some (.ofText above outer)) true entries).map some
  | [] => fun _ _ _ _ _ _ => ⟨rfl, rfl⟩
  | (key, style) :: rest => fun hplain hkeys hclosed above outer houter => by
    rw [List.forall_mem_cons] at hplain hkeys hclosed
    obtain ⟨hstay, hrise⟩ :=
      Sheet.map_clause?_written rest hplain.2 hkeys.2 hclosed.2 above outer houter
    have hinside := Style.map_clause?_writings style hplain.1 hclosed.1
    have hentry := Standing.ofEntry_ofText houter above key
    rw [Sheet.written, Sheet.clausesOf, Sheet.clausesOf, List.map_append, List.map_append, ← hstay,
      ← hrise]
    by_cases hvalue : style.isValue = true
    · obtain ⟨v, rfl⟩ := Style.exists_value_of_isValue hvalue
      refine ⟨?_, rfl⟩
      show ((Writing.ofProperty key v).below (above ++ Key.path outer)).clause? :: _ =
        some ⟨(Standing.ofText above outer).path, some (key, v)⟩ :: _
      rw [Standing.path_ofText]
      show some (⟨above ++ Key.path outer ++ [], some (key, v)⟩ : Clause) :: _ = _
      rw [List.append_nil]
      rfl
    · rw [if_neg hvalue]
      rw [Bool.not_eq_true] at hvalue
      have hrefers : style.refersBy key = Key.hasReference key.toList := by
        unfold Style.refersBy
        rw [hvalue]
        rfl
      have hkey : Key.isClosed key.toList = true := hkeys.1 hvalue
      rw [hrefers, Key.resolve]
      cases href : Key.hasReference key.toList with
      | true =>
          -- the entry moves up to where the enclosing key stands
          rw [href, if_pos rfl] at hentry
          have hresolved : Key.isClosed
              (String.ofList (Key.fillReferences outer.toList key.toList)).toList = true := by
            rw [String.toList_ofList]
            exact Key.isClosed_fillReferences houter hkey
          have hstyle := hinside hvalue _ key above _ hresolved hentry
          refine ⟨rfl, ?_⟩
          show _ = (style.clauses (some (.ofText above outer)) key).map some ++ _
          rw [← hstyle, ← List.map_append]
          rfl
      | false =>
          rw [href, if_neg (by simp)] at hentry
          have hstyle := hinside hvalue _ key (above ++ Key.path outer) key hkey hentry
          refine ⟨?_, rfl⟩
          show _ = (style.clauses (some (.ofText above outer)) key).map some ++ _
          rw [← hstyle, ← List.map_append]
          rfl
termination_by structural entries => entries

end

/-- At the root no entry moves, and what the sheet writes is what it says. -/
theorem Sheet.map_clause?_writings {sheet : Sheet m} (hplain : (Style.nested sheet).IsPlain)
    (hclosed : (Style.nested sheet).KeysClosed)
    (hroot : ∀ e ∈ sheet, e.2.refersBy e.1 = false) :
    sheet.writings.map Writing.clause? = sheet.clauses.map some := by
  suffices h : (Sheet.written none sheet).stay.map Writing.clause? =
      (Sheet.clausesOf none false sheet).map some ∧ (Sheet.written none sheet).rise = [] by
    unfold Sheet.writings
    rw [h.2, List.append_nil, h.1]
    rfl
  replace hplain := Style.forall_of_isPlain hplain
  obtain ⟨hkeys, hinside⟩ := Style.forall_of_keysClosed hclosed
  clear hclosed
  induction sheet with
  | nil => exact ⟨rfl, rfl⟩
  | cons head rest ih =>
      obtain ⟨key, style⟩ := head
      rw [List.forall_mem_cons] at hplain hkeys hinside hroot
      obtain ⟨hstay, hrise⟩ := ih hroot.2 hplain.2 hkeys.2 hinside.2
      rw [Sheet.written, Sheet.clausesOf, hroot.1, if_pos rfl, List.map_append, ← hstay]
      by_cases hvalue : style.isValue = true
      · rw [if_pos hvalue]
        obtain ⟨v, rfl⟩ := Style.exists_value_of_isValue hvalue
        exact ⟨rfl, hrise⟩
      · rw [if_neg hvalue]
        rw [Bool.not_eq_true] at hvalue
        refine ⟨?_, hrise⟩
        rw [← Style.map_clause?_writings style hplain.1 hinside.1 hvalue none key [] key
          (hkeys.1 hvalue) rfl]
        exact List.map_append

end StyleCascade
