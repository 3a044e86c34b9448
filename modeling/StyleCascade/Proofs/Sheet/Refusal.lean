/-
# StyleCascade.Proofs.Sheet.Refusal — which JSON is no style sheet

JSON is read as a style sheet member by member, and reading stops at the first fault. What is refused can
be told without reading: everything that is no object, and every object with an array in it, however deep
(`Sheet.isOk_ofJson_iff`).
-/
import StyleCascade.Sheet.OfJson

namespace StyleCascade

variable {m : Type → Type}

namespace Json

/-- A value stands in another one, at some depth; the way down is through members of objects. -/
inductive Inside (inner : Json) : Json → Prop
  | member {key : String} {members : List (String × Json)} :
      (key, inner) ∈ members → Inside inner (.object members)
  | deeper {key : String} {json : Json} {members : List (String × Json)} :
      (key, json) ∈ members → Inside inner json → Inside inner (.object members)

/-- The value is an object, and no array stands in it. -/
structure IsDefinition (json : Json) : Prop where
  isObject : ∃ members, json = .object members
  noArray : ∀ items, ¬Inside (.array items) json

/-- The value is an array, or one stands in it. -/
def HasArray (json : Json) : Prop :=
  ∃ items, json = .array items ∨ Inside (.array items) json

theorem not_hasArray_object_iff {members : List (String × Json)} :
    ¬HasArray (.object members) ↔ ∀ e ∈ members, ¬e.2.HasArray := by
  constructor
  · rintro h ⟨key, json⟩ hmem ⟨items, rfl | hinside⟩
    · exact h ⟨items, .inr (.member hmem)⟩
    · exact h ⟨items, .inr (.deeper hmem hinside)⟩
  · rintro h ⟨items, heq | hinside⟩
    · exact absurd heq nofun
    · cases hinside with
      | member hmem => exact h _ hmem ⟨items, .inl rfl⟩
      | deeper hmem hinside => exact h _ hmem ⟨items, .inr hinside⟩

theorem not_hasArray {json : Json} (hobject : ∀ members, json ≠ .object members)
    (harray : ∀ items, json ≠ .array items) : ¬json.HasArray := by
  rintro ⟨items, h | h⟩
  · exact harray items h
  · cases h with
    | member => exact hobject _ rfl
    | deeper => exact hobject _ rfl

theorem isDefinition_iff {json : Json} :
    json.IsDefinition ↔ (∃ members, json = .object members) ∧ ¬json.HasArray := by
  constructor
  · rintro ⟨⟨members, rfl⟩, hnone⟩
    refine ⟨⟨members, rfl⟩, ?_⟩
    rintro ⟨items, h | h⟩
    · exact absurd h (by simp)
    · exact hnone items h
  · rintro ⟨hobject, hnone⟩
    exact ⟨hobject, fun items h => hnone ⟨items, .inr h⟩⟩

end Json

/-! ## Reading -/

mutual

/-- A member is accepted exactly if it is no array and none stands in it. -/
theorem Style.isOk_ofJson : ∀ (json : Json) (key : String),
    (Style.ofJson key json : Except DefinitionError (Option (Style m))).isOk = true ↔ ¬json.HasArray
  | .null, _ => ⟨fun _ => Json.not_hasArray nofun nofun, fun _ => rfl⟩
  | .bool _, _ => ⟨fun _ => Json.not_hasArray nofun nofun, fun _ => rfl⟩
  | .number _, _ => ⟨fun _ => Json.not_hasArray nofun nofun, fun _ => rfl⟩
  | .string _, _ => ⟨fun _ => Json.not_hasArray nofun nofun, fun _ => rfl⟩
  | .array items, _ => ⟨nofun, fun h => absurd ⟨items, .inl rfl⟩ h⟩
  | .object members, _ => by
    rw [Json.not_hasArray_object_iff, ← Sheet.isOk_entriesOfJson members, Style.ofJson]
    cases Sheet.entriesOfJson (m := m) members <;> rfl
termination_by structural json => json

theorem Sheet.isOk_entriesOfJson : ∀ members : List (String × Json),
    (Sheet.entriesOfJson members : Except DefinitionError (List (String × Style m))).isOk = true ↔
      ∀ e ∈ members, ¬e.2.HasArray
  | [] => ⟨fun _ => nofun, fun _ => rfl⟩
  | (key, json) :: rest => by
    have hjson := Style.isOk_ofJson json key
    have hrest := Sheet.isOk_entriesOfJson rest
    rw [List.forall_mem_cons, ← hjson, ← hrest, Sheet.entriesOfJson]
    cases Style.ofJson (m := m) key json with
    | error e => exact ⟨nofun, fun h => h.1⟩
    | ok found =>
        cases Sheet.entriesOfJson (m := m) rest with
        | error e => exact ⟨nofun, fun h => h.2⟩
        | ok entries => exact ⟨fun _ => ⟨rfl, rfl⟩, fun _ => rfl⟩
termination_by structural members => members

end

/-- A value is read as a style sheet exactly if it is an object without arrays in it. -/
theorem Sheet.isOk_ofJson_iff (json : Json) :
    (Sheet.ofJson json : Except DefinitionError (Sheet m)).isOk = true ↔ json.IsDefinition := by
  rw [Json.isDefinition_iff]
  cases json with
  | object members =>
      rw [Json.not_hasArray_object_iff, ← Sheet.isOk_entriesOfJson (m := m) members, ofJson]
      cases Sheet.entriesOfJson (m := m) members with
      | error e => exact ⟨nofun, fun h => h.2⟩
      | ok entries => exact ⟨fun _ => ⟨⟨members, rfl⟩, rfl⟩, fun _ => rfl⟩
  | null => exact ⟨nofun, nofun⟩
  | bool _ => exact ⟨nofun, nofun⟩
  | number _ => exact ⟨nofun, nofun⟩
  | string _ => exact ⟨nofun, nofun⟩
  | array _ => exact ⟨nofun, nofun⟩

end StyleCascade
