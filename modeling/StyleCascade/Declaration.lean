/-
# StyleCascade.Declaration — name-sorted properties

A declaration is a finite map from property names to values. Its entries are kept in increasing name
order without repetition, so two declarations with the same content are equal however they were
built. The same type serves for the attributes of a node and for variables.

Main statements: `get?_set` says what a written property reads as, `get?_mapValues` what it reads as
once every value has been mapped, `get?_merge` what it reads as after a merge, and `get?_eq_some_iff`
that the entries are exactly the properties with what they read as.
-/
import StyleCascade.Keyed
import StyleCascade.Value
import StyleCascade.Text.Quoted

namespace StyleCascade

/-- Properties in increasing order of their names. -/
structure Declaration where
  /-- The properties. -/
  entries : List (String × Value) := []
  /-- Names increase strictly. -/
  increasing : entries.Pairwise (fun a b => a.1 < b.1) := by exact List.Pairwise.nil
deriving DecidableEq

/-- Numbers in JSON text keep a point and a digit when whole; from `1e16` on and below `1e-5` they
are written with an exponent. A word that is no finite number becomes the null literal, and a tie
goes to the even neighbour. -/
def Number.jsonLayout : Number.Layout where
  tie := .toEven
  inFull := fun power => decide (-5 ≤ power ∧ power < 16)
  keepsPoint := true
  nan := "null"
  infinity := "null"
  negativeInfinity := "null"

/-- A value as JSON text. -/
def Value.toJsonText : Value → List Char
  | .text content => Text.quote content.toList
  | .number content => (content.render Number.jsonLayout).toList

namespace Declaration

/-! ## Entries -/

/-- Puts a property at its place in a sorted list, replacing one of the same name. -/
def insertEntry (name : String) (value : Value) : List (String × Value) → List (String × Value)
  | [] => [(name, value)]
  | (n, v) :: rest =>
    if name < n then (name, value) :: (n, v) :: rest
    else if name = n then (name, value) :: rest
    else (n, v) :: insertEntry name value rest

/-- An entry of the list after an insertion is the new one or an old one. -/
theorem eq_or_mem_of_mem_insertEntry {name : String} {value : Value} {e : String × Value}
    {l : List (String × Value)} (h : e ∈ insertEntry name value l) : e = (name, value) ∨ e ∈ l := by
  induction l with
  | nil => simpa [insertEntry] using h
  | cons head rest ih =>
    simp only [insertEntry] at h
    split at h
    · simpa using h
    · split at h <;> simp only [List.mem_cons] at h ⊢
      · rcases h with h | h <;> simp [h]
      · rcases h with h | h
        · simp [h]
        · rcases ih h with h | h <;> simp [h]

/-- An insertion keeps the names increasing. -/
theorem increasing_insertEntry (name : String) (value : Value) {l : List (String × Value)}
    (h : l.Pairwise (fun a b => a.1 < b.1)) :
    (insertEntry name value l).Pairwise (fun a b => a.1 < b.1) := by
  induction l with
  | nil => simp [insertEntry]
  | cons head rest ih =>
    obtain ⟨hhead, hrest⟩ := List.pairwise_cons.mp h
    simp only [insertEntry]
    split
    · rename_i hlt
      refine List.pairwise_cons.mpr ⟨fun e he => ?_, h⟩
      rcases List.mem_cons.mp he with rfl | he
      · exact hlt
      · exact String.lt_trans hlt (hhead e he)
    · split
      · rename_i heq
        exact List.pairwise_cons.mpr ⟨fun e he => heq ▸ hhead e he, hrest⟩
      · rename_i hnlt hne
        refine List.pairwise_cons.mpr ⟨fun e he => ?_, ih hrest⟩
        rcases eq_or_mem_of_mem_insertEntry he with rfl | he
        · rcases Std.le_iff_lt_or_eq.mp (Std.not_lt.mp hnlt) with hlt | heq
          · exact hlt
          · exact absurd heq.symm hne
        · exact hhead e he

/-- What a name reads as after an insertion. -/
theorem lookup_insertEntry (name other : String) (value : Value) (l : List (String × Value)) :
    (insertEntry name value l).lookup other =
      if other = name then some value else l.lookup other := by
  induction l with
  | nil => simp [insertEntry, Keyed.lookup_cons]
  | cons head rest ih =>
    obtain ⟨n, v⟩ := head
    simp only [insertEntry]
    split
    · simp only [Keyed.lookup_cons]
    · split
      · rename_i heq
        simp only [Keyed.lookup_cons, heq]
        split <;> rfl
      · rename_i hne
        simp only [Keyed.lookup_cons, ih]
        split <;> split <;> simp_all

/-! ## Declarations -/

/-- No property. -/
def empty : Declaration := {}

instance : Inhabited Declaration := ⟨empty⟩

/-- Sets a property, replacing its previous value. -/
def set (d : Declaration) (name : String) (value : Value) : Declaration :=
  ⟨insertEntry name value d.entries, increasing_insertEntry name value d.increasing⟩

/-- The value of a property. -/
def get? (d : Declaration) (name : String) : Option Value :=
  d.entries.lookup name

/-- Sets properties one after the other; a later one replaces an earlier one of the same name. -/
def setAll (d : Declaration) (entries : List (String × Value)) : Declaration :=
  entries.foldl (fun d e => d.set e.1 e.2) d

/-- The declaration of a list of properties, later ones replacing earlier ones of the same name. -/
def ofList (entries : List (String × Value)) : Declaration :=
  empty.setAll entries

/-- The properties in name order. -/
def toList (d : Declaration) : List (String × Value) :=
  d.entries

/-- Copies every property of `other`, which wins where both have one. -/
def merge (d other : Declaration) : Declaration :=
  d.setAll other.entries

/-- The number of properties. -/
def size (d : Declaration) : Nat :=
  d.entries.length

/-- No property is set. -/
def isEmpty (d : Declaration) : Bool :=
  d.entries.isEmpty

/-- Applies a function to every value. -/
def mapValues (f : Value → Value) (d : Declaration) : Declaration :=
  ⟨d.entries.map fun e => (e.1, f e.2), d.increasing.map _ fun _ _ h => h⟩

/-- Equality of declarations with numbers compared as numbers. -/
def same (d other : Declaration) : Bool :=
  d.size == other.size &&
    (d.entries.zip other.entries).all fun (a, b) => a.1 == b.1 && a.2.same b.2

/-- The declaration as a JSON object in name order. -/
def toJsonText (d : Declaration) : String :=
  let members := d.entries.map fun (name, value) => Text.quote name.toList ++ ':' :: value.toJsonText
  String.ofList ('\x7b' :: (List.intercalate [','] members ++ ['\x7d']))

/-! ## What properties read as -/

@[simp] theorem get?_empty (name : String) : empty.get? name = none := rfl

/-- A property reads as what was written last. -/
theorem get?_set (d : Declaration) (name other : String) (value : Value) :
    (d.set name value).get? other = if other = name then some value else d.get? other :=
  lookup_insertEntry name other value d.entries

/-- Mapping the values maps what every property reads as. -/
theorem get?_mapValues (f : Value → Value) (d : Declaration) (name : String) :
    (d.mapValues f).get? name = (d.get? name).map f := by
  obtain ⟨l, _⟩ := d
  simp only [mapValues, get?]
  induction l with
  | nil => rfl
  | cons head rest ih =>
    obtain ⟨n, v⟩ := head
    simp only [List.map_cons, Keyed.lookup_cons]
    rw [ih (List.pairwise_cons.mp ‹_›).2]
    split <;> rfl

/-- An entry of a strictly increasing list reads as its own value. -/
theorem lookup_eq_some_iff_mem {l : List (String × Value)}
    (h : l.Pairwise (fun a b => a.1 < b.1)) {name : String} {value : Value} :
    l.lookup name = some value ↔ (name, value) ∈ l := by
  induction l with
  | nil => simp
  | cons head rest ih =>
    obtain ⟨n, v⟩ := head
    obtain ⟨hhead, hrest⟩ := List.pairwise_cons.mp h
    rw [Keyed.lookup_cons, List.mem_cons, Prod.mk.injEq]
    split
    · rename_i hn
      subst hn
      constructor
      · intro hv
        exact .inl ⟨rfl, (Option.some.inj hv).symm⟩
      · rintro (⟨_, rfl⟩ | hm)
        · rfl
        · exact absurd (hhead _ hm) (String.lt_irrefl _)
    · rename_i hn
      simp [hn, ih hrest]

/-- A declaration has a property with a value exactly when the pair is among its entries. -/
theorem get?_eq_some_iff {d : Declaration} {name : String} {value : Value} :
    d.get? name = some value ↔ (name, value) ∈ d.entries :=
  lookup_eq_some_iff_mem d.increasing

/-- Copied properties read as in the list they were copied from, and the others as before. -/
theorem get?_setAll {entries : List (String × Value)}
    (h : entries.Pairwise (fun a b => a.1 < b.1)) (d : Declaration) (name : String) :
    (d.setAll entries).get? name = (entries.lookup name).or (d.get? name) := by
  induction entries generalizing d with
  | nil => rfl
  | cons head rest ih =>
    obtain ⟨n, v⟩ := head
    obtain ⟨hhead, hrest⟩ := List.pairwise_cons.mp h
    have hset : d.setAll ((n, v) :: rest) = (d.set n v).setAll rest := rfl
    rw [hset, ih hrest, get?_set, Keyed.lookup_cons]
    split
    · rename_i hn
      have hfresh : rest.lookup name = none := by
        cases hl : rest.lookup name with
        | none => rfl
        | some w =>
          have hmem := (lookup_eq_some_iff_mem hrest).mp hl
          exact absurd (hn ▸ hhead _ hmem) (String.lt_irrefl _)
      rw [hfresh]
      rfl
    · rfl

/-- After a merge a property reads as in the second declaration if it has it, else as in the first. -/
theorem get?_merge (d other : Declaration) (name : String) :
    (d.merge other).get? name = (other.get? name).or (d.get? name) :=
  get?_setAll other.increasing d name

end Declaration

end StyleCascade
