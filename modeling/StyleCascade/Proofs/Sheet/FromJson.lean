/-
# StyleCascade.Proofs.Sheet.FromJson — what is read of a JSON value

A JSON value is read as a style sheet member by member. `Json.walk` lists all members of a document, at every
depth, in the order in which they are written, each before what stands in it. The fault reported is the first
array of that walk (`Sheet.ofJson_eq_error_iff`).

What is read if there is no fault is described by `Json.Says`: an object says what its members say, in their
order, and a null member says nothing. Where no object has a key twice, this is all there is to reading
(`Sheet.ofJson_eq_ok_iff`). A sheet of property values and nested sheets can be written down as JSON again, and
what is written down says the sheet (`Style.isWrittenDown`).
-/
import StyleCascade.Proofs.Sheet.Clauses
import StyleCascade.Proofs.Sheet.Refusal

namespace StyleCascade

variable {m : Type → Type}

namespace Json

/-! ## Documents -/

/-- The value is an array. -/
def isArray : Json → Bool
  | .array _ => true
  | _ => false

theorem exists_items_of_isArray {json : Json} (h : json.isArray = true) : ∃ items, json = .array items := by
  cases json with
  | array items => exact ⟨items, rfl⟩
  | null => exact absurd h nofun
  | bool value => exact absurd h nofun
  | number value => exact absurd h nofun
  | string value => exact absurd h nofun
  | object members => exact absurd h nofun

mutual

/-- The members inside of a value, at every depth, in the order of the document: each one before what stands
in it. Nothing stands in a value that is no object. -/
def walk : Json → List (String × Json)
  | .object members => walkMembers members
  | .null => []
  | .bool _ => []
  | .number _ => []
  | .string _ => []
  | .array _ => []
termination_by structural json => json

/-- The members of an object, each with those inside of it. -/
def walkMembers : List (String × Json) → List (String × Json)
  | [] => []
  | (key, json) :: rest => (key, json) :: (walk json ++ walkMembers rest)
termination_by structural members => members

end

/-- No object has a key twice, at any depth. -/
inductive UniqueKeys : Json → Prop
  | null : UniqueKeys .null
  | bool (value : Bool) : UniqueKeys (.bool value)
  | number (value : Number) : UniqueKeys (.number value)
  | string (value : String) : UniqueKeys (.string value)
  | array {items : List Json} : (∀ item ∈ items, UniqueKeys item) → UniqueKeys (.array items)
  | object {members : List (String × Json)} :
      (Keyed.keys members).Nodup → (∀ e ∈ members, UniqueKeys e.2) → UniqueKeys (.object members)

theorem uniqueKeys_object_iff {members : List (String × Json)} :
    UniqueKeys (.object members) ↔ (Keyed.keys members).Nodup ∧ ∀ e ∈ members, e.2.UniqueKeys := by
  constructor
  · intro h
    cases h with
    | object hkeys hmembers => exact ⟨hkeys, hmembers⟩
  · rintro ⟨hkeys, hmembers⟩
    exact .object hkeys hmembers

/-! ## What a document says -/

mutual

/-- What a value says of a style: a string and a number say themselves, a truth value its text, and an object
what its members say. Null says nothing, nor does an array. -/
inductive Says : Json → Style m → Prop
  | bool (value : Bool) : Says (.bool value) (.value (.text (if value then "true" else "false")))
  | number (value : Number) : Says (.number value) (.value (.number value))
  | string (value : String) : Says (.string value) (.value (.text value))
  | object {members : List (String × Json)} {entries : List (String × Style m)} :
      SayAll members entries → Says (.object members) (.nested entries)

/-- What members say in their order, each under its key; members that are null are passed over. -/
inductive SayAll : List (String × Json) → List (String × Style m) → Prop
  | nil : SayAll [] []
  | null (key : String) {rest : List (String × Json)} {entries : List (String × Style m)} :
      SayAll rest entries → SayAll ((key, .null) :: rest) entries
  | cons (key : String) {json : Json} {style : Style m} {rest : List (String × Json)}
      {entries : List (String × Style m)} :
      Says json style → SayAll rest entries → SayAll ((key, json) :: rest) ((key, style) :: entries)

end

/-- The keys that are said are keys of the members, in the same order. -/
theorem SayAll.keys_sublist {members : List (String × Json)} {entries : List (String × Style m)}
    (h : SayAll members entries) : (Keyed.keys entries).Sublist (Keyed.keys members) := by
  induction members generalizing entries with
  | nil =>
      cases h with
      | nil => exact .slnil
  | cons head rest ih =>
      cases h with
      | null key hrest => exact (ih hrest).cons key
      | cons key _ hrest => exact (ih hrest).cons_cons key

end Json

/-! ## Reading -/

/-- The fault of an array under a key, if the first array among some members is reported. -/
def DefinitionError.ofFirstArray? (members : List (String × Json)) : Option DefinitionError :=
  (members.find? fun e => e.2.isArray).map fun e => .arrayUnder e.1

theorem DefinitionError.ofFirstArray?_append (members more : List (String × Json)) :
    ofFirstArray? (members ++ more) = (ofFirstArray? members).or (ofFirstArray? more) := by
  unfold ofFirstArray?
  rw [List.find?_append]
  cases members.find? fun e => e.2.isArray <;> rfl

mutual

/-- A member is refused for the first array that it is or that stands in it. -/
theorem Style.ofJson_eq_error_iff : ∀ (json : Json) (key : String) (e : DefinitionError),
    (Style.ofJson key json : Except DefinitionError (Option (Style m))) = .error e ↔
      DefinitionError.ofFirstArray? ((key, json) :: json.walk) = some e
  | .null, _, _ => ⟨nofun, nofun⟩
  | .bool _, _, _ => ⟨nofun, nofun⟩
  | .number _, _, _ => ⟨nofun, nofun⟩
  | .string _, _, _ => ⟨nofun, nofun⟩
  | .array _, key, e => by
    show Except.error (DefinitionError.arrayUnder key) = .error e ↔ some (DefinitionError.arrayUnder key) = some e
    rw [Except.error.injEq, Option.some.injEq]
  | .object members, key, e => by
    have hmembers := Sheet.entriesOfJson_eq_error_iff members e
    show _ ↔ DefinitionError.ofFirstArray? (Json.walkMembers members) = some e
    rw [← hmembers, Style.ofJson]
    cases Sheet.entriesOfJson (m := m) members with
    | error e' => simp only [Except.error.injEq]
    | ok entries => exact ⟨nofun, nofun⟩
termination_by structural json => json

theorem Sheet.entriesOfJson_eq_error_iff : ∀ (members : List (String × Json)) (e : DefinitionError),
    (Sheet.entriesOfJson members : Except DefinitionError (List (String × Style m))) = .error e ↔
      DefinitionError.ofFirstArray? (Json.walkMembers members) = some e
  | [], _ => ⟨nofun, nofun⟩
  | (key, json) :: rest, e => by
    have hjson := Style.ofJson_eq_error_iff json key
    have hrest := Sheet.entriesOfJson_eq_error_iff rest e
    rw [Json.walkMembers, ← List.cons_append, DefinitionError.ofFirstArray?_append, Sheet.entriesOfJson]
    -- what is inside of the member comes before the members after it
    cases hfound : Style.ofJson (m := m) key json with
    | error e' =>
        rw [(hjson e').mp hfound, Except.error.injEq, Option.some_or, Option.some.injEq]
    | ok found =>
        have hnone : DefinitionError.ofFirstArray? ((key, json) :: json.walk) = none := by
          rw [Option.eq_none_iff_forall_ne_some]
          intro e' he'
          have herror := (hjson e').mpr he'
          rw [hfound] at herror
          exact absurd herror nofun
        rw [hnone, Option.none_or, ← hrest]
        cases Sheet.entriesOfJson (m := m) rest with
        | error e' => rfl
        | ok entries => exact ⟨nofun, nofun⟩
termination_by structural members => members

end

/-- Nothing is read of a member that is null, and of no other one. -/
theorem Style.ofJson_eq_ok_none_iff {json : Json} {key : String} :
    (Style.ofJson key json : Except DefinitionError (Option (Style m))) = .ok none ↔ json = .null := by
  cases json with
  | null => exact ⟨fun _ => rfl, fun _ => rfl⟩
  | bool value => exact ⟨nofun, nofun⟩
  | number value => exact ⟨nofun, nofun⟩
  | string value => exact ⟨nofun, nofun⟩
  | array items => exact ⟨nofun, nofun⟩
  | object members =>
      rw [Style.ofJson]
      cases Sheet.entriesOfJson (m := m) members with
      | error e => exact ⟨nofun, nofun⟩
      | ok entries => exact ⟨nofun, nofun⟩

/-- The first member is read and then the others. -/
theorem Sheet.entriesOfJson_cons_eq_ok_iff {key : String} {json : Json} {rest : List (String × Json)}
    {entries : List (String × Style m)} :
    Sheet.entriesOfJson ((key, json) :: rest) = .ok entries ↔
      ∃ found more, Style.ofJson key json = .ok found ∧ Sheet.entriesOfJson rest = .ok more ∧
        entries = (found.map fun style => (key, style)).toList ++ more := by
  rw [Sheet.entriesOfJson]
  cases Style.ofJson (m := m) key json with
  | error e => exact ⟨nofun, nofun⟩
  | ok found =>
      cases Sheet.entriesOfJson (m := m) rest with
      | error e => exact ⟨nofun, nofun⟩
      | ok more =>
          constructor
          · intro h
            exact ⟨found, more, rfl, rfl, (Except.ok.inj h).symm⟩
          · rintro ⟨found', more', hfound, hmore, rfl⟩
            rw [Except.ok.inj hfound, Except.ok.inj hmore]

mutual

/-- A style is read of a member exactly if the member says it. -/
theorem Style.ofJson_eq_ok_some_iff : ∀ {json : Json}, json.UniqueKeys → ∀ (key : String) (style : Style m),
    Style.ofJson key json = .ok (some style) ↔ json.Says style
  | .null, _, _, _ => ⟨nofun, nofun⟩
  | .bool value, _, _, style => by
    rw [Style.ofJson, Except.ok.injEq, Option.some.injEq]
    constructor
    · rintro rfl
      exact .bool value
    · rintro ⟨⟩
      rfl
  | .number value, _, _, style => by
    rw [Style.ofJson, Except.ok.injEq, Option.some.injEq]
    constructor
    · rintro rfl
      exact .number value
    · rintro ⟨⟩
      rfl
  | .string value, _, _, style => by
    rw [Style.ofJson, Except.ok.injEq, Option.some.injEq]
    constructor
    · rintro rfl
      exact .string value
    · rintro ⟨⟩
      rfl
  | .array _, _, _, _ => ⟨nofun, nofun⟩
  | .object members, hunique, _, style => by
    obtain ⟨hkeys, hmembers⟩ := Json.uniqueKeys_object_iff.mp hunique
    have hentries := Sheet.entriesOfJson_eq_ok_iff hmembers
    -- the entries have some of the keys of the members, so none is written twice
    have hself : ∀ {entries : List (String × Style m)}, Json.SayAll members entries →
        Keyed.ofList entries = entries := fun hsay =>
      Keyed.ofList_eq_self (hkeys.sublist hsay.keys_sublist)
    rw [Style.ofJson]
    constructor
    · intro h
      split at h
      · exact absurd h nofun
      · rename_i entries hread
        have hsay := (hentries entries).mp hread
        rw [Except.ok.injEq, Option.some.injEq, hself hsay] at h
        exact h ▸ .object hsay
    · intro h
      cases h with
      | @object _ entries hsay =>
          rw [(hentries entries).mpr hsay]
          show Except.ok (some (Style.nested (Keyed.ofList entries))) = _
          rw [hself hsay]
termination_by structural json => json

theorem Sheet.entriesOfJson_eq_ok_iff : ∀ {members : List (String × Json)}, (∀ e ∈ members, e.2.UniqueKeys) →
    ∀ entries : List (String × Style m), Sheet.entriesOfJson members = .ok entries ↔ Json.SayAll members entries
  | [], _, entries => by
    rw [Sheet.entriesOfJson, Except.ok.injEq]
    constructor
    · rintro rfl
      exact .nil
    · rintro ⟨⟩
      rfl
  | (key, json) :: rest, hunique, entries => by
    obtain ⟨hjson, hrest⟩ := List.forall_mem_cons.mp hunique
    have hsome := Style.ofJson_eq_ok_some_iff hjson key
    have hmore := Sheet.entriesOfJson_eq_ok_iff hrest
    rw [Sheet.entriesOfJson_cons_eq_ok_iff]
    constructor
    · rintro ⟨found, more, hfound, hread, rfl⟩
      cases found with
      | none =>
          obtain rfl := Style.ofJson_eq_ok_none_iff.mp hfound
          exact .null key ((hmore more).mp hread)
      | some style => exact .cons key ((hsome style).mp hfound) ((hmore more).mp hread)
    · intro hsay
      cases hsay with
      | null _ hsay => exact ⟨none, entries, rfl, (hmore entries).mpr hsay, rfl⟩
      | @cons _ _ style _ more hsaid hsay =>
          exact ⟨some style, more, (hsome style).mpr hsaid, (hmore more).mpr hsay, rfl⟩
termination_by structural members => members

end

theorem DefinitionError.ofFirstArray?_eq_some_iff {members : List (String × Json)} {e : DefinitionError} :
    ofFirstArray? members = some e ↔
      ∃ before key items after, members = before ++ (key, .array items) :: after ∧
        (∀ member ∈ before, member.2.isArray = false) ∧ e = .arrayUnder key := by
  unfold ofFirstArray?
  rw [Option.map_eq_some_iff]
  constructor
  · rintro ⟨⟨key, json⟩, hfound, rfl⟩
    obtain ⟨harray, before, after, rfl, hbefore⟩ := List.find?_eq_some_iff_append.mp hfound
    obtain ⟨items, rfl⟩ := Json.exists_items_of_isArray harray
    refine ⟨before, key, items, after, rfl, fun member hmember => ?_, rfl⟩
    simpa using hbefore member hmember
  · rintro ⟨before, key, items, after, rfl, hbefore, rfl⟩
    refine ⟨(key, .array items), List.find?_eq_some_iff_append.mpr ⟨rfl, before, after, rfl, ?_⟩, rfl⟩
    intro member hmember
    simpa using hbefore member hmember

namespace Sheet

/-- A value is refused if it is no object, or for the first array of the document. -/
theorem ofJson_eq_error_iff {json : Json} {e : DefinitionError} :
    (Sheet.ofJson json : Except DefinitionError (Sheet m)) = .error e ↔
      (∀ members, json ≠ .object members) ∧ e = .notAnObject ∨
      DefinitionError.ofFirstArray? json.walk = some e := by
  -- nothing stands in a value that is no object
  have hrefused : (∀ members, json ≠ .object members) → json.walk = [] →
      ((Except.error .notAnObject : Except DefinitionError (Sheet m)) = .error e ↔
        (∀ members, json ≠ .object members) ∧ e = .notAnObject ∨
        DefinitionError.ofFirstArray? json.walk = some e) := by
    intro hobject hwalk
    rw [hwalk, Except.error.injEq]
    constructor
    · rintro rfl
      exact .inl ⟨hobject, rfl⟩
    · rintro (⟨-, rfl⟩ | hfirst)
      · rfl
      · exact absurd hfirst (by simp [DefinitionError.ofFirstArray?])
  cases json with
  | object members =>
      have hmembers := Sheet.entriesOfJson_eq_error_iff (m := m) members e
      rw [ofJson, Json.walk, ← hmembers]
      have hnot : ¬((∀ others, Json.object members ≠ .object others) ∧ e = .notAnObject) :=
        fun h => h.1 members rfl
      cases Sheet.entriesOfJson (m := m) members with
      | error e' =>
          show Except.error e' = .error e ↔ _
          simp only [Except.error.injEq, hnot, false_or]
      | ok entries =>
          refine iff_of_false (by rintro ⟨⟩) ?_
          rintro (h | h)
          · exact absurd h hnot
          · exact absurd h (by rintro ⟨⟩)
  | null => exact hrefused (by rintro _ ⟨⟩) rfl
  | bool value => exact hrefused (by rintro _ ⟨⟩) rfl
  | number value => exact hrefused (by rintro _ ⟨⟩) rfl
  | string value => exact hrefused (by rintro _ ⟨⟩) rfl
  | array items => exact hrefused (by rintro _ ⟨⟩) rfl

/-- A sheet is read of a document exactly if it is what the document says. -/
theorem ofJson_eq_ok_iff {json : Json} (hunique : json.UniqueKeys) {sheet : Sheet m} :
    Sheet.ofJson json = .ok sheet ↔ json.Says (.nested sheet) := by
  cases json with
  | object members =>
      obtain ⟨hkeys, hmembers⟩ := Json.uniqueKeys_object_iff.mp hunique
      have hinside := Style.ofJson_eq_ok_some_iff hunique "" (.nested sheet)
      rw [← hinside, Style.ofJson, ofJson]
      cases Sheet.entriesOfJson (m := m) members with
      | error e => exact iff_of_false (by rintro ⟨⟩) (by rintro ⟨⟩)
      | ok entries =>
          show Except.ok (Keyed.ofList entries) = .ok sheet ↔
            Except.ok (some (Style.nested (Keyed.ofList entries))) = .ok (some (.nested sheet))
          simp only [Except.ok.injEq, Option.some.injEq, Style.nested.injEq]
  | null => exact iff_of_false (by rintro ⟨⟩) (by rintro ⟨⟩)
  | bool value => exact iff_of_false (by rintro ⟨⟩) (by rintro ⟨⟩)
  | number value => exact iff_of_false (by rintro ⟨⟩) (by rintro ⟨⟩)
  | string value => exact iff_of_false (by rintro ⟨⟩) (by rintro ⟨⟩)
  | array items => exact iff_of_false (by rintro ⟨⟩) (by rintro ⟨⟩)

end Sheet

/-! ## Writing down -/

mutual

/-- The JSON value of a style. A declaration and a dynamic style have none. -/
def Style.toJson? : Style m → Option Json
  | .value (.text text) => some (.string text)
  | .value (.number number) => some (.number number)
  | .nested entries => (Sheet.toMembers? entries).map .object
  | .declaration _ => none
  | .dynamic _ => none
termination_by structural style => style

/-- The members of the entries of a sheet, in their order. -/
def Sheet.toMembers? : List (String × Style m) → Option (List (String × Json))
  | [] => some []
  | (key, style) :: rest =>
    match style.toJson?, Sheet.toMembers? rest with
    | some json, some members => some ((key, json) :: members)
    | _, _ => none
termination_by structural entries => entries

end

/-- The JSON value of a sheet. -/
def Sheet.toJson? (sheet : Sheet m) : Option Json :=
  (Style.nested sheet).toJson?

/-- The style can be written down, with no key twice in an object, and what is written down says it. -/
def Style.IsWrittenDown (style : Style m) : Prop :=
  ∃ json, style.toJson? = some json ∧ json.UniqueKeys ∧ json.Says style

theorem Sheet.exists_toMembers? {entries : List (String × Style m)} (h : ∀ e ∈ entries, e.2.IsWrittenDown) :
    ∃ members, Sheet.toMembers? entries = some members ∧ Keyed.keys members = Keyed.keys entries ∧
      (∀ e ∈ members, e.2.UniqueKeys) ∧ Json.SayAll members entries := by
  induction entries with
  | nil => exact ⟨[], rfl, rfl, nofun, .nil⟩
  | cons head rest ih =>
      obtain ⟨key, style⟩ := head
      obtain ⟨⟨json, hjson, hunique, hsaid⟩, hrest⟩ := List.forall_mem_cons.mp h
      obtain ⟨members, hmembers, hkeys, hinside, hsay⟩ := ih hrest
      refine ⟨(key, json) :: members, ?_, ?_, ?_, .cons key hsaid hsay⟩
      · rw [Sheet.toMembers?, hjson, hmembers]
      · exact congrArg (key :: ·) hkeys
      · exact List.forall_mem_cons.mpr ⟨hunique, hinside⟩

/-- Property values and nested sheets can be written down. -/
theorem Style.isWrittenDown {style : Style m} (hplain : style.IsPlain) (htidy : style.Tidy) :
    style.IsWrittenDown := by
  induction hplain with
  | value v =>
      cases v with
      | text text => exact ⟨.string text, rfl, .string text, .string text⟩
      | number number => exact ⟨.number number, rfl, .number number, .number number⟩
  | @nested entries _ ih =>
      obtain ⟨hkeys, hinside⟩ := Style.tidy_nested_iff.mp htidy
      obtain ⟨members, hmembers, hsame, hunique, hsay⟩ :=
        Sheet.exists_toMembers? fun e he => ih e he (hinside e he)
      refine ⟨.object members, ?_, .object (hsame ▸ hkeys) hunique, .object hsay⟩
      rw [Style.toJson?, hmembers]
      rfl

/-! ## Documents and sheets -/

namespace Sheet

/-- What comes of reading a document.

- A sheet is read of it exactly if it is an object and no array stands in it, at any depth.
- Otherwise the fault reported is that it is no object, or else the first array in the order of the document, by
  its key.
- Where no object has a key twice, the sheet is what the document says: its members in their order, without those
  that are null; strings and numbers as they are, truth values as their text, and objects in the same way.
- A sheet that was read can be written down, and the same sheet is read of that again. -/
theorem ofJson_outcome (json : Json) :
    ((∃ sheet : Sheet m, Sheet.ofJson json = .ok sheet) ↔ json.IsDefinition) ∧
    (∀ e, (Sheet.ofJson json : Except DefinitionError (Sheet m)) = .error e ↔
      (∀ members, json ≠ .object members) ∧ e = .notAnObject ∨
      ∃ before key items after, json.walk = before ++ (key, .array items) :: after ∧
        (∀ member ∈ before, member.2.isArray = false) ∧ e = .arrayUnder key) ∧
    (json.UniqueKeys → ∀ sheet : Sheet m, Sheet.ofJson json = .ok sheet ↔ json.Says (.nested sheet)) ∧
    ∀ sheet : Sheet m, Sheet.ofJson json = .ok sheet →
      ∃ again, sheet.toJson? = some again ∧ Sheet.ofJson again = .ok sheet := by
  refine ⟨?_, fun e => ?_, fun hunique sheet => ofJson_eq_ok_iff hunique, fun sheet hread => ?_⟩
  · rw [← isOk_ofJson_iff (m := m)]
    cases Sheet.ofJson (m := m) json with
    | error e => exact ⟨nofun, nofun⟩
    | ok sheet => exact ⟨fun _ => rfl, fun _ => ⟨sheet, rfl⟩⟩
  · rw [ofJson_eq_error_iff, DefinitionError.ofFirstArray?_eq_some_iff]
  · obtain ⟨hplain, htidy⟩ := isPlain_and_tidy_ofJson hread
    obtain ⟨again, hagain, hunique, hsaid⟩ := Style.isWrittenDown hplain htidy
    exact ⟨again, hagain, (ofJson_eq_ok_iff hunique).mpr hsaid⟩

/-- A document with a null member and a truth value below its top level. -/
theorem ofJson_outcome_item :
    let two : Number := ⟨0x4000000000000000⟩
    let json : Json := .object
      [("item", .object [("bold", .bool true), ("hidden", .null), ("size", .number two)]), ("color", .string "red")]
    let sheet : Sheet Id :=
      [("item", .nested [("bold", .value (.text "true")), ("size", .value (.number two))]),
        ("color", .value (.text "red"))]
    json.UniqueKeys ∧ json.IsDefinition ∧ Sheet.ofJson json = .ok sheet ∧
      ∃ again, sheet.toJson? = some again ∧ Sheet.ofJson again = .ok sheet := by
  intro two json sheet
  have hunique : json.UniqueKeys := by
    refine .object (by decide) (List.forall_mem_cons.mpr ⟨?_, List.forall_mem_cons.mpr ⟨.string "red", nofun⟩⟩)
    refine .object (by decide) (List.forall_mem_cons.mpr ⟨.bool true, List.forall_mem_cons.mpr ⟨.null, ?_⟩⟩)
    exact List.forall_mem_cons.mpr ⟨.number two, nofun⟩
  obtain ⟨haccepted, -, hsaid, hagain⟩ := ofJson_outcome (m := Id) json
  have hread : Sheet.ofJson json = .ok sheet := by
    refine (hsaid hunique sheet).mpr (.object (.cons "item" (.object ?_) (.cons "color" (.string "red") .nil)))
    exact .cons "bold" (.bool true) (.null "hidden" (.cons "size" (.number two) .nil))
  exact ⟨hunique, haccepted.mp ⟨sheet, hread⟩, hread, hagain sheet hread⟩

/-- The array below the first member comes before the second member. -/
example :
    (Sheet.ofJson (.object [("item", .object [("size", .null), ("list", .array [])]), ("row", .array [])]) :
      Except DefinitionError (Sheet Id)) = .error (.arrayUnder "list") :=
  rfl

end Sheet

end StyleCascade
