/-
# StyleCascade.Proofs.Sheet.Faithfulness — expanding a sheet keeps what its source says

What a source says is a list of clauses. Merging follows it if no property goes by the name of a selector
below its path (`Clause.Apart`): then no property stands above anything else that is said
(`eq_of_slot_prefix`), the last writing that concerns the place of a property is the last one that writes
the property, and the expanded sheet has the properties that its source has clauses for, each with the
value of its last clause (`at?_expand_eq_value_iff`).
-/
import StyleCascade.Proofs.Sheet.Clauses
import StyleCascade.Proofs.Sheet.Rivals

namespace StyleCascade

variable {m : Type → Type}

namespace Clause

/-- The value of a property, if the clause is about it. -/
def value? (path : List String) (name : String) (c : Clause) : Option Value :=
  c.property.bind fun p => if c.path = path ∧ p.1 = name then some p.2 else none

/-- The value that the last clause about a property gives it. -/
def lastValue? (path : List String) (name : String) (cs : List Clause) : Option Value :=
  (cs.filterMap (value? path name)).getLast?

/-- No property goes by the name of a selector below its path. -/
def Apart (cs : List Clause) : Prop :=
  ∀ c ∈ cs, ∀ s ∈ cs, c.property.isSome = true → s.property = none → ¬c.slot <+: s.path

end Clause

/-! ## What clauses say of each other -/

mutual

/-- The path of a clause is that of the level it is read on, or of an entry below. -/
theorem Style.mem_clauses_cases : ∀ (style : Style m) (enclosing : Option Standing) (key : String),
    ∀ c ∈ style.clauses enclosing key,
      c.path = Standing.pathInside enclosing ∨ ⟨c.path, none⟩ ∈ style.clauses enclosing key
  | .value v, enclosing, key => fun c hc => by
    rw [Style.clauses, List.mem_singleton] at hc
    exact .inl (congrArg Clause.path hc)
  | .nested entries, enclosing, key => fun c hc => by
    rw [Style.clauses] at hc ⊢
    rcases List.mem_cons.mp hc with rfl | hc
    · exact .inr List.mem_cons_self
    · right
      have hinside : c.path = (Standing.ofEntry enclosing key).path ∨
          ⟨c.path, none⟩ ∈ Sheet.clausesOf (some (Standing.ofEntry enclosing key)) false entries ++
            Sheet.clausesOf (some (Standing.ofEntry enclosing key)) true entries := by
        rcases List.mem_append.mp hc with hc | hc
        · exact (Sheet.mem_clausesOf_cases entries _ _ c hc).imp id (List.mem_append_left _)
        · exact (Sheet.mem_clausesOf_cases entries _ _ c hc).imp id (List.mem_append_right _)
      rcases hinside with hpath | hmem
      · rw [hpath]
        exact List.mem_cons_self
      · exact List.mem_cons_of_mem _ hmem
  | .declaration _, _, _ => fun c hc => absurd hc List.not_mem_nil
  | .dynamic _, _, _ => fun c hc => absurd hc List.not_mem_nil
termination_by structural style => style

theorem Sheet.mem_clausesOf_cases : ∀ (entries : List (String × Style m))
    (enclosing : Option Standing) (referring : Bool),
    ∀ c ∈ Sheet.clausesOf enclosing referring entries,
      c.path = Standing.pathInside enclosing ∨
        ⟨c.path, none⟩ ∈ Sheet.clausesOf enclosing referring entries
  | [], _, _ => fun c hc => absurd hc List.not_mem_nil
  | (key, style) :: rest, enclosing, referring => fun c hc => by
    rw [Sheet.clausesOf, List.mem_append] at hc ⊢
    rcases hc with hc | hc
    · split at hc
      · rename_i href
        rw [if_pos href]
        exact (Style.mem_clauses_cases style enclosing key c hc).imp id .inl
      · exact absurd hc List.not_mem_nil
    · exact (Sheet.mem_clausesOf_cases rest enclosing referring c hc).imp id .inr
termination_by structural entries => entries

end

/-- Above everything that a sheet says there are selectors, or there is nothing. -/
theorem Sheet.mem_clauses_cases {sheet : Sheet m} {c : Clause} (h : c ∈ sheet.clauses) :
    c.path = [] ∨ ⟨c.path, none⟩ ∈ sheet.clauses :=
  Sheet.mem_clausesOf_cases sheet none false c h

namespace Clause

theorem slot_of_property {c : Clause} {name : String} {v : Value} (h : c.property = some (name, v)) :
    c.slot = c.path ++ [name] := by
  unfold slot
  rw [h]
  rfl

theorem slot_of_selector {c : Clause} (h : c.property = none) : c.slot = c.path := by
  unfold slot
  rw [h]
  exact List.append_nil _

theorem value?_eq_some_iff {path : List String} {name : String} {c : Clause} {v : Value} :
    c.value? path name = some v ↔ c = ⟨path, some (name, v)⟩ := by
  obtain ⟨p, property⟩ := c
  cases property with
  | none => simp [value?]
  | some q =>
      obtain ⟨n, w⟩ := q
      simp [value?, and_assoc]

/-- A property stands strictly above no clause. -/
theorem eq_of_slot_prefix {sheet : Sheet m} (hapart : Apart sheet.clauses) {c d : Clause}
    (hc : c ∈ sheet.clauses) (hd : d ∈ sheet.clauses) (hproperty : c.property.isSome = true)
    (h : c.slot <+: d.slot) : c.slot = d.slot ∧ d.property.isSome = true := by
  cases hd' : d.property with
  | none =>
      rw [slot_of_selector hd'] at h
      exact absurd h (hapart c hc d hd hproperty hd')
  | some p =>
      obtain ⟨name, v⟩ := p
      rw [slot_of_property hd', List.prefix_concat_iff] at h
      refine ⟨?_, rfl⟩
      rw [slot_of_property hd']
      rcases h with h | h
      · exact h
      · -- above a property there are selectors, and at the root there is no room for another
        rcases Sheet.mem_clauses_cases hd with hnil | hselector
        · rw [hnil, List.prefix_nil] at h
          obtain ⟨⟨name', v'⟩, hc'⟩ := Option.isSome_iff_exists.mp hproperty
          rw [slot_of_property hc'] at h
          exact absurd h (by simp)
        · exact absurd h (hapart c hc ⟨d.path, none⟩ hselector hproperty rfl)

end Clause

/-! ## The last clause stands -/

theorem findSome?_eq_bind_find? {α β : Type} {f : α → Option β} {p : α → Bool} {l : List α}
    (h : ∀ a ∈ l, p a = (f a).isSome) : l.findSome? f = (l.find? p).bind f := by
  induction l with
  | nil => rfl
  | cons a l ih =>
      rw [List.forall_mem_cons] at h
      cases hf : f a with
      | none => simp [hf, h.1, ih h.2]
      | some b => simp [hf, h.1]

namespace Writing

theorem slot_of_clause? {w : Writing m} {c : Clause} (h : w.clause? = some c) :
    c.slot = w.slot ∧ c.property.isSome = !w.content.isNested := by
  obtain ⟨path, name, content, hnamed, hplaced⟩ := w
  cases content with
  | value v =>
      obtain ⟨n, rfl, rfl⟩ := Option.map_eq_some_iff.mp h
      exact ⟨rfl, rfl⟩
  | nested entries =>
      obtain rfl := Option.some.inj h
      -- only property values have names
      obtain rfl : name = none := Option.isSome_eq_false_iff.mp hnamed |> Option.isNone_iff_eq_none.mp
      exact ⟨rfl, rfl⟩
  | declaration d => exact absurd h (by simp [clause?])
  | dynamic f => exact absurd h (by simp [clause?])

theorem content_of_clause? {w : Writing m} {path : List String} {name : String} {v : Value}
    (h : w.clause? = some ⟨path, some (name, v)⟩) : w.content = .value v := by
  obtain ⟨path', name', content, hnamed, hplaced⟩ := w
  cases content with
  | value v' =>
      obtain ⟨n, rfl, heq⟩ := Option.map_eq_some_iff.mp h
      injection heq with _ heq
      injection heq with heq
      injection heq with _ heq
      exact congrArg Style.value heq
  | nested entries => exact absurd h (by simp [clause?])
  | declaration d => exact absurd h (by simp [clause?])
  | dynamic f => exact absurd h (by simp [clause?])

theorem property_of_content {w : Writing m} {c : Clause} {v : Value} (h : w.clause? = some c)
    (hcontent : w.content = .value v) : ∃ name, c.property = some (name, v) := by
  unfold clause? at h
  rw [hcontent] at h
  obtain ⟨name, _, rfl⟩ := Option.map_eq_some_iff.mp h
  exact ⟨name, rfl⟩

end Writing

namespace Sheet

variable {sheet : Sheet m}

theorem exists_clause (hclauses : sheet.writings.map Writing.clause? = sheet.clauses.map some)
    {w : Writing m} (h : w ∈ sheet.writings) : ∃ c ∈ sheet.clauses, w.clause? = some c := by
  have hmem : w.clause? ∈ sheet.clauses.map some := by
    rw [← hclauses]
    exact List.mem_map_of_mem h
  obtain ⟨c, hc, heq⟩ := List.mem_map.mp hmem
  exact ⟨c, hc, heq.symm⟩

/-- A writing concerns the place of a property exactly if it writes that property. -/
theorem concerns_iff_of_apart (hapart : Clause.Apart sheet.clauses) {path : List String}
    {name : String} {v : Value} (h : ⟨path, some (name, v)⟩ ∈ sheet.clauses) {w : Writing m}
    {c : Clause} (hc : c ∈ sheet.clauses) (hw : w.clause? = some c) :
    w.concerns (path ++ [name]) = true ↔ (c.value? path name).isSome = true := by
  obtain ⟨hslot, hproperty⟩ := Writing.slot_of_clause? hw
  have hplace : (⟨path, some (name, v)⟩ : Clause).slot = path ++ [name] :=
    Clause.slot_of_property rfl
  rw [Writing.concerns_iff, ← hslot, ← hplace]
  constructor
  · intro hconcerns
    have hsame : c.slot = path ++ [name] ∧ c.property.isSome = true := by
      rw [← hplace]
      rcases hconcerns with hbelow | ⟨hleaf, habove⟩
      · obtain ⟨heq, hsome⟩ := Clause.eq_of_slot_prefix hapart h hc rfl hbelow
        exact ⟨heq.symm, hsome⟩
      · rw [hleaf] at hproperty
        exact ⟨(Clause.eq_of_slot_prefix hapart hc h hproperty habove).1, hproperty⟩
    obtain ⟨hsame, hsome⟩ := hsame
    obtain ⟨⟨name', v'⟩, hc'⟩ := Option.isSome_iff_exists.mp hsome
    rw [Clause.slot_of_property hc', List.append_singleton_inj] at hsame
    rw [Option.isSome_iff_exists]
    refine ⟨v', Clause.value?_eq_some_iff.mpr ?_⟩
    cases c
    exact Clause.mk.injEq .. ▸ ⟨hsame.1, hsame.2 ▸ hc'⟩
  · intro hvalue
    obtain ⟨v', hv'⟩ := Option.isSome_iff_exists.mp hvalue
    obtain rfl := Clause.value?_eq_some_iff.mp hv'
    exact .inl List.prefix_rfl

/-- What the last clause about a property says is what the last writing that concerns it writes. -/
theorem lastValue?_eq (hclauses : sheet.writings.map Writing.clause? = sheet.clauses.map some)
    (hapart : Clause.Apart sheet.clauses) {path : List String} {name : String} {v : Value}
    (h : ⟨path, some (name, v)⟩ ∈ sheet.clauses) :
    Clause.lastValue? path name sheet.clauses =
      (Writing.last? (path ++ [name]) sheet.writings).bind fun w =>
        w.clause?.bind (Clause.value? path name) := by
  have hfilter : sheet.clauses.filterMap (Clause.value? path name) =
      sheet.writings.filterMap fun w => w.clause?.bind (Clause.value? path name) := by
    have := congrArg (List.filterMap fun c => c.bind (Clause.value? path name)) hclauses
    rw [List.filterMap_map, List.filterMap_map] at this
    exact this.symm
  unfold Clause.lastValue? Writing.last?
  rw [hfilter, List.getLast?_filterMap]
  apply findSome?_eq_bind_find?
  intro w hw
  obtain ⟨c, hc, hwc⟩ := exists_clause hclauses (List.mem_reverse.mp hw)
  rw [Bool.eq_iff_iff, concerns_iff_of_apart hapart h hc hwc, hwc]
  rfl

/-- The last value that a clause gives a property stands in the expanded sheet. -/
theorem at?_expand_of_lastValue?
    (hclauses : sheet.writings.map Writing.clause? = sheet.clauses.map some)
    (hapart : Clause.Apart sheet.clauses) {path : List String} {name : String} {v : Value}
    (h : Clause.lastValue? path name sheet.clauses = some v) :
    (Style.nested sheet.expand).at? (path ++ [name]) = some (.value v) := by
  have hmem : ⟨path, some (name, v)⟩ ∈ sheet.clauses := by
    obtain ⟨c, hc, hvalue⟩ := List.mem_filterMap.mp (List.mem_of_getLast? h)
    rw [← Clause.value?_eq_some_iff.mp hvalue]
    exact hc
  rw [lastValue?_eq hclauses hapart hmem] at h
  obtain ⟨w, hlast, hvalue⟩ := Option.bind_eq_some_iff.mp h
  obtain ⟨c, hc, hvalue⟩ := Option.bind_eq_some_iff.mp hvalue
  obtain rfl := Clause.value?_eq_some_iff.mp hvalue
  have hslot : w.slot = path ++ [name] := by
    rw [← (Writing.slot_of_clause? hc).1, Clause.slot_of_property rfl]
  have hcontent : w.content = .value v := Writing.content_of_clause? hc
  obtain ⟨found, hfound, hleaves⟩ := sheet.shows_expand.shown (path ++ [name]) (by simp) w hlast
    (hslot ▸ List.prefix_rfl)
  unfold Writing.Leaves at hleaves
  rw [if_pos ⟨hslot, by rw [hcontent]; rfl⟩, hcontent] at hleaves
  rw [hfound, hleaves]

/-- A value that stands in the expanded sheet was written. -/
theorem mem_clauses_of_at?_expand
    (hclauses : sheet.writings.map Writing.clause? = sheet.clauses.map some) {path : List String}
    {name : String} {v : Value}
    (h : (Style.nested sheet.expand).at? (path ++ [name]) = some (.value v)) :
    ⟨path, some (name, v)⟩ ∈ sheet.clauses := by
  obtain ⟨t, ht, hslot, hcontent⟩ := sheet.explainedBy_expand.sourced _ _ rfl h
  have hmem : t.writing ∈ sheet.writings := by
    rw [← sheet.map_writing_traces]
    exact List.mem_map_of_mem ht
  obtain ⟨c, hc, hwc⟩ := exists_clause hclauses hmem
  obtain ⟨name', hproperty⟩ := Writing.property_of_content hwc hcontent
  have hplace : c.path ++ [name'] = path ++ [name] := by
    rw [← Clause.slot_of_property hproperty, (Writing.slot_of_clause? hwc).1, hslot]
  obtain ⟨rfl, rfl⟩ := List.append_singleton_inj.mp hplace
  rw [← hproperty]
  exact hc

/-- Take a sheet of property values and nested sheets whose other keys are closed and, at the root, refer
to nothing, and in which no property goes by the name of a selector below its path. The properties of the
expanded sheet are those that its source has clauses for, at the same paths, and each has the value of the
last clause about it. -/
theorem at?_expand_eq_value_iff (hplain : (Style.nested sheet).IsPlain)
    (hclosed : (Style.nested sheet).KeysClosed) (hroot : ∀ e ∈ sheet, e.2.refersBy e.1 = false)
    (hapart : Clause.Apart sheet.clauses) (path : List String) (name : String) :
    ((∃ v, (Style.nested sheet.expand).at? (path ++ [name]) = some (.value v)) ↔
      ∃ v, ⟨path, some (name, v)⟩ ∈ sheet.clauses) ∧
    ∀ v, (Style.nested sheet.expand).at? (path ++ [name]) = some (.value v) ↔
      Clause.lastValue? path name sheet.clauses = some v := by
  have hclauses := map_clause?_writings hplain hclosed hroot
  -- a property that has a clause has a last one
  have hlast : ∀ {v}, ⟨path, some (name, v)⟩ ∈ sheet.clauses →
      ∃ v', Clause.lastValue? path name sheet.clauses = some v' := by
    intro v hmem
    apply Option.isSome_iff_exists.mp
    rw [Clause.lastValue?, List.getLast?_isSome]
    exact List.ne_nil_of_mem (List.mem_filterMap.mpr ⟨_, hmem, Clause.value?_eq_some_iff.mpr rfl⟩)
  have hvalue : ∀ v, (Style.nested sheet.expand).at? (path ++ [name]) = some (.value v) ↔
      Clause.lastValue? path name sheet.clauses = some v := by
    intro v
    refine ⟨fun h => ?_, at?_expand_of_lastValue? hclauses hapart⟩
    obtain ⟨v', hv'⟩ := hlast (mem_clauses_of_at?_expand hclauses h)
    rw [at?_expand_of_lastValue? hclauses hapart hv'] at h
    obtain rfl : v' = v := by simpa using h
    exact hv'
  refine ⟨⟨?_, ?_⟩, hvalue⟩
  · rintro ⟨v, h⟩
    exact ⟨v, mem_clauses_of_at?_expand hclauses h⟩
  · rintro ⟨v, hmem⟩
    obtain ⟨v', hv'⟩ := hlast hmem
    exact ⟨v', (hvalue v').mpr hv'⟩

/-- The gap of a title is set twice. The entry that refers to its card is written first, moves up and is
split; it counts last. -/
theorem at?_expand_eq_value_iff_title :
    let title : Style Id := .nested [("gap", .value (.text "1"))]
    let referring : Style Id := .nested [("gap", .value (.text "2"))]
    let sheet : Sheet Id := [("card", .nested [("& title", referring), ("title", title)])]
    (Style.nested sheet).IsPlain ∧ (Style.nested sheet).KeysClosed ∧
      (∀ e ∈ sheet, e.2.refersBy e.1 = false) ∧ Clause.Apart sheet.clauses ∧
      (Style.nested sheet.expand).at? (["card", "title"] ++ ["gap"]) = some (.value (.text "2")) := by
  intro title referring sheet
  have hplain : (Style.nested sheet).IsPlain := by
    refine .nested (List.forall_mem_singleton.mpr (.nested ?_))
    rw [List.forall_mem_cons, List.forall_mem_singleton]
    exact ⟨.nested (List.forall_mem_singleton.mpr (.value _)),
      .nested (List.forall_mem_singleton.mpr (.value _))⟩
  have hgap : ∀ v : Value, (Style.nested [("gap", .value v)] : Style Id).KeysClosed := fun v =>
    .nested (List.forall_mem_singleton.mpr fun h => absurd h (by simp [Style.isValue]))
      (List.forall_mem_singleton.mpr (.value v))
  have hclosed : (Style.nested sheet).KeysClosed := by
    refine .nested (List.forall_mem_singleton.mpr fun _ => by decide +kernel)
      (List.forall_mem_singleton.mpr (.nested ?_ ?_))
    · rw [List.forall_mem_cons, List.forall_mem_singleton]
      exact ⟨fun _ => by decide +kernel, fun _ => by decide +kernel⟩
    · rw [List.forall_mem_cons, List.forall_mem_singleton]
      exact ⟨hgap _, hgap _⟩
  have hroot : ∀ e ∈ sheet, e.2.refersBy e.1 = false :=
    List.forall_mem_singleton.mpr (by decide +kernel)
  have hapart : Clause.Apart sheet.clauses := by
    unfold Clause.Apart
    decide +kernel
  have hlast : Clause.lastValue? ["card", "title"] "gap" sheet.clauses = some (.text "2") := by
    decide +kernel
  exact ⟨hplain, hclosed, hroot, hapart,
    ((at?_expand_eq_value_iff hplain hclosed hroot hapart ["card", "title"] "gap").2 _).mpr hlast⟩

end Sheet

end StyleCascade
