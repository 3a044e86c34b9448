/-
# StyleCascade.Proofs.Rule.Preorder — rules come in preorder

Rules are taken from a sheet in one walk. `Sheet.walk` is that walk with nothing taken: the list of the
entries it meets, each with the positions and the keys that lead to it. It meets every entry that is no
property value once (`mem_walk_iff`), and in the order of their positions (`pairwise_walkFrom`), where the
positions of an entry come before those of what is nested in it: this is preorder.

`Visit.IsRule` says what a rule taken from an entry is, and `Style.givesRule` which entries give one. The
rules of a sheet are the rules of those entries, one each, in the order of the walk
(`forall₂_rulesBelow`), and the table of the sheet stamps them with 0, 1, 2, … and files each under its
base class.
-/
import Mathlib.Algebra.Ring.Nat
import Mathlib.Data.List.Forall2
import Mathlib.Data.List.Lex
import StyleCascade.Proofs.Rule.Filing
import StyleCascade.Proofs.Sheet.Lookup
import StyleCascade.Rule.Extraction

namespace StyleCascade

variable {m : Type → Type}

/-! ## The walk -/

/-- An entry met on a walk through a sheet. -/
structure Visit (m : Type → Type) where
  /-- The positions of the entries around it, root first, and its own. -/
  place : List Nat
  /-- The keys of the entries around it, root first. -/
  above : List String
  /-- Its key. -/
  key : String
  /-- Its content. -/
  style : Style m

/-- A visit inside a nested sheet, seen from the level where that sheet is an entry. -/
def Visit.below (i : Nat) (key : String) (v : Visit m) : Visit m :=
  { v with place := i :: v.place, above := key :: v.above }

/-- The visit is one of an entry of the sheet, at any depth. -/
inductive Visit.IsOf : List (String × Style m) → Visit m → Prop
  | here {entries : List (String × Style m)} {i : Nat} {key : String} {style : Style m} :
      entries[i]? = some (key, style) → IsOf entries ⟨[i], [], key, style⟩
  | inside {entries inner : List (String × Style m)} {i : Nat} {key : String} {v : Visit m} :
      entries[i]? = some (key, .nested inner) → IsOf inner v → IsOf entries (v.below i key)

mutual

/-- The visits to the entry at a position and to what is nested in it. -/
def Style.visits (i : Nat) (key : String) : Style m → List (Visit m)
  | .value _ => []
  | .declaration d => [⟨[i], [], key, .declaration d⟩]
  | .dynamic f => [⟨[i], [], key, .dynamic f⟩]
  | .nested entries =>
    ⟨[i], [], key, .nested entries⟩ :: (Sheet.walkFrom 0 entries).map (Visit.below i key)
termination_by structural style => style

/-- The visits to the entries of a level, the first of which has a given position. -/
def Sheet.walkFrom (start : Nat) : List (String × Style m) → List (Visit m)
  | [] => []
  | (key, style) :: rest => style.visits start key ++ Sheet.walkFrom (start + 1) rest
termination_by structural entries => entries

end

/-- The walk through a sheet. Property values are not visited. -/
def Sheet.walk (sheet : Sheet m) : List (Visit m) :=
  Sheet.walkFrom 0 sheet

/-! ## The walk meets every entry once, in preorder -/

theorem Sheet.mem_walkFrom_iff {entries : List (String × Style m)} {start : Nat} {v : Visit m} :
    v ∈ walkFrom start entries ↔
      ∃ (i : Nat) (key : String) (style : Style m), entries[i]? = some (key, style) ∧
        v ∈ style.visits (start + i) key := by
  induction entries generalizing start with
  | nil => simp [walkFrom]
  | cons head rest ih =>
      obtain ⟨k, first⟩ := head
      rw [walkFrom, List.mem_append, ih]
      constructor
      · rintro (h | ⟨i, key, style, hi, h⟩)
        · exact ⟨0, k, first, rfl, h⟩
        · exact ⟨i + 1, key, style, hi, by rw [← Nat.add_right_comm, Nat.add_assoc] at h; exact h⟩
      · rintro ⟨i, key, style, hi, h⟩
        cases i with
        | zero =>
            obtain ⟨rfl, rfl⟩ := Prod.mk.inj (Option.some.inj hi)
            exact .inl h
        | succ i => exact .inr ⟨i, key, style, hi, by rw [Nat.add_right_comm]; exact h⟩

theorem Style.mem_visits_iff {style : Style m} {i : Nat} {key : String} {v : Visit m} :
    v ∈ style.visits i key ↔
      (style.isValue = false ∧ v = ⟨[i], [], key, style⟩) ∨
        ∃ inner w, style = .nested inner ∧ w ∈ Sheet.walkFrom 0 inner ∧ v = w.below i key := by
  cases style with
  | value u => simp [visits, isValue]
  | declaration d => simp [visits, isValue]
  | dynamic f => simp [visits, isValue]
  | nested entries => simp [visits, isValue, eq_comm]

/-- The walk meets exactly the entries that are no property values. -/
theorem Sheet.mem_walk_iff {sheet : Sheet m} {v : Visit m} :
    v ∈ sheet.walk ↔ v.IsOf sheet ∧ v.style.isValue = false := by
  constructor
  · intro h
    -- the place of a visit loses its first position on the way down
    generalize hplace : v.place = place
    induction place generalizing sheet v with
    | nil =>
        obtain ⟨i, key, style, _, h⟩ := mem_walkFrom_iff.mp h
        rcases Style.mem_visits_iff.mp h with ⟨_, rfl⟩ | ⟨_, w, _, _, rfl⟩
        · exact absurd hplace (by simp)
        · exact absurd hplace (by simp [Visit.below])
    | cons _ place ih =>
        obtain ⟨i, key, style, hi, h⟩ := mem_walkFrom_iff.mp h
        rcases Style.mem_visits_iff.mp h with ⟨hvalue, rfl⟩ | ⟨inner, w, rfl, hw, rfl⟩
        · rw [Nat.zero_add]
          exact ⟨.here hi, hvalue⟩
        · obtain ⟨hof, hvalue⟩ := ih hw (List.cons.inj hplace).2
          rw [Nat.zero_add]
          exact ⟨.inside hi hof, hvalue⟩
  · rintro ⟨hof, hvalue⟩
    induction hof with
    | @here entries i key style hi =>
        refine mem_walkFrom_iff.mpr ⟨i, key, style, hi, Style.mem_visits_iff.mpr (.inl ⟨hvalue, ?_⟩)⟩
        rw [Nat.zero_add]
    | @inside entries inner i key v hi _ ih =>
        refine mem_walkFrom_iff.mpr ⟨i, key, _, hi, Style.mem_visits_iff.mpr
          (.inr ⟨inner, v, rfl, ih hvalue, ?_⟩)⟩
        rw [Nat.zero_add]

theorem Style.place_of_mem_visits {style : Style m} {i : Nat} {key : String} {v : Visit m}
    (h : v ∈ style.visits i key) : ∃ rest, v.place = i :: rest := by
  rcases mem_visits_iff.mp h with ⟨_, rfl⟩ | ⟨_, w, _, _, rfl⟩
  · exact ⟨[], rfl⟩
  · exact ⟨w.place, rfl⟩

theorem Sheet.place_of_mem_walkFrom {entries : List (String × Style m)} {start : Nat} {v : Visit m}
    (h : v ∈ walkFrom start entries) : ∃ i rest, v.place = i :: rest ∧ start ≤ i := by
  obtain ⟨i, key, style, _, h⟩ := mem_walkFrom_iff.mp h
  obtain ⟨rest, hrest⟩ := Style.place_of_mem_visits h
  exact ⟨start + i, rest, hrest, Nat.le_add_right start i⟩

mutual

theorem Style.pairwise_visits : ∀ (style : Style m) (i : Nat) (key : String),
    (style.visits i key).Pairwise fun v w => v.place < w.place
  | .value _ => fun _ _ => .nil
  | .declaration _ => fun _ _ => List.pairwise_singleton _ _
  | .dynamic _ => fun _ _ => List.pairwise_singleton _ _
  | .nested entries => fun i key => by
    rw [Style.visits, List.pairwise_cons]
    refine ⟨fun w hw => ?_, ?_⟩
    · -- an entry comes before what is nested in it
      obtain ⟨inner, hinner, rfl⟩ := List.mem_map.mp hw
      obtain ⟨j, rest, hplace, _⟩ := Sheet.place_of_mem_walkFrom hinner
      rw [Visit.below, hplace]
      exact List.Lex.cons .nil
    · refine (Sheet.pairwise_walkFrom entries 0).map _ fun v w h => ?_
      exact List.Lex.cons h
termination_by structural style => style

/-- Positions increase along a walk. -/
theorem Sheet.pairwise_walkFrom : ∀ (entries : List (String × Style m)) (start : Nat),
    (Sheet.walkFrom start entries).Pairwise fun v w => v.place < w.place
  | [] => fun _ => .nil
  | (key, style) :: rest => fun start => by
    rw [Sheet.walkFrom, List.pairwise_append]
    refine ⟨Style.pairwise_visits style start key, Sheet.pairwise_walkFrom rest (start + 1), ?_⟩
    intro v hv w hw
    obtain ⟨inner, hv⟩ := Style.place_of_mem_visits hv
    obtain ⟨j, further, hw, hj⟩ := Sheet.place_of_mem_walkFrom hw
    rw [hv, hw]
    exact List.Lex.rel hj
termination_by structural entries => entries

end

/-! ## The rule of an entry -/

/-- The property value that the content is. -/
def Style.value? : Style m → Option Value
  | .value v => some v
  | _ => none

/-- The last property value under a name on a level. -/
def Sheet.lastValue? (name : String) : List (String × Style m) → Option Value
  | [] => none
  | (key, style) :: rest =>
    (Sheet.lastValue? name rest).or (if name = key then style.value? else none)

/-- The content gives a rule: it is a dynamic style, a declaration with a property, or a nested sheet with
a property value on its own level. -/
def Style.givesRule : Style m → Bool
  | .value _ => false
  | .dynamic _ => true
  | .declaration d => !d.isEmpty
  | .nested entries => entries.any fun e => e.2.isValue

/-- What the rule of some content does. A dynamic style computes; otherwise the properties are fixed, and
each has the value that the content gives it, with references to variables filled in. -/
inductive Style.Yields (vars : Variables) : Style m → RuleStyle m → Prop
  | dynamic (f : DynamicStyle m) : Yields vars (.dynamic f) (.computed f)
  | declaration {d properties : Declaration} :
      (∀ name, properties.get? name = (d.get? name).map vars.substitute) →
      Yields vars (.declaration d) (.fixed properties)
  | nested {entries : List (String × Style m)} {properties : Declaration} :
      (∀ name, properties.get? name = (Sheet.lastValue? name entries).map vars.substitute) →
      Yields vars (.nested entries) (.fixed properties)

/-- The weight of the selectors of some keys, on top of a weight. -/
def Sheet.weightAlong (above : Specificity) (keys : List String) : Specificity :=
  keys.foldl (fun weight key => weight + (Selector.ofString key).weight) above

/-- The weights of the selectors of some keys, added up to the ceiling. -/
def Selector.pathWeight (keys : List String) : Nat :=
  min (keys.map fun key => (ofString key).weight.value).sum Specificity.ceiling

/-- The rule is the one of the entry: its selector is the entry's key, its chain the keys above, and its
weight the sum of the weights of them all, which is at least what they weigh on any level above. -/
structure Visit.IsRule (vars : Variables) (v : Visit m) (r : Rule m) : Prop where
  selector : r.selector = Selector.ofString v.key
  chain : r.chain = v.above.map Selector.ofString
  weight : r.weight.value = Selector.pathWeight (v.above ++ [v.key])
  enclosing : ∀ keys, keys <+: v.above → Selector.pathWeight keys ≤ r.weight.value
  style : v.style.Yields vars r.style

theorem Selector.pathWeight_le {keys path : List String} (h : keys <+: path) :
    pathWeight keys ≤ pathWeight path := by
  obtain ⟨rest, rfl⟩ := h
  unfold pathWeight
  rw [List.map_append, List.sum_append]
  omega

theorem Selector.value_weightAlong (above : Specificity) (keys : List String) :
    (Sheet.weightAlong above keys).value =
      min (above.value + (keys.map fun key => (ofString key).weight.value).sum) Specificity.ceiling := by
  induction keys generalizing above with
  | nil =>
      have := above.value_le
      show above.value = min (above.value + 0) Specificity.ceiling
      unfold Specificity.ceiling
      omega
  | cons key keys ih =>
      show (Sheet.weightAlong (above + (ofString key).weight) keys).value = _
      rw [ih, Specificity.value_add, List.map_cons, List.sum_cons]
      omega

/-! ## Own properties -/

namespace Sheet

theorem lastValue?_eq_none {entries : List (String × Style m)} {name : String}
    (h : name ∉ Keyed.keys entries) : lastValue? name entries = none := by
  induction entries with
  | nil => rfl
  | cons head rest ih =>
      obtain ⟨key, style⟩ := head
      rw [Keyed.keys, List.map_cons, List.mem_cons, not_or] at h
      rw [lastValue?, ih h.2, if_neg h.1]
      rfl

/-- With unique keys the last value of a name is what the level has under it. -/
theorem lastValue?_eq_lookup {entries : List (String × Style m)} (h : (Keyed.keys entries).Nodup)
    (name : String) : lastValue? name entries = (entries.lookup name).bind Style.value? := by
  induction entries with
  | nil => rfl
  | cons head rest ih =>
      obtain ⟨key, style⟩ := head
      obtain ⟨hkey, hrest⟩ := List.nodup_cons.mp h
      rw [lastValue?, Keyed.lookup_cons]
      by_cases hname : name = key
      · rw [lastValue?_eq_none (hname ▸ hkey), if_pos hname, if_pos hname]
        rfl
      · rw [ih hrest, if_neg hname, if_neg hname, Option.or_none]

theorem isSome_lastValue? {entries : List (String × Style m)} {name : String} {v : Value}
    (h : (name, Style.value v) ∈ entries) : (lastValue? name entries).isSome = true := by
  induction entries with
  | nil => exact absurd h List.not_mem_nil
  | cons head rest ih =>
      obtain ⟨key, style⟩ := head
      rw [lastValue?, Option.isSome_or]
      rcases List.mem_cons.mp h with heq | hrest
      · obtain ⟨rfl, rfl⟩ := Prod.mk.inj heq
        rw [if_pos rfl]
        exact Bool.or_true _
      · rw [ih hrest]
        rfl

theorem get?_setAll_values (vars : Variables) (entries : Sheet m) (d : Declaration) (name : String) :
    (d.setAll (entries.filterMap fun e => match e.2 with
      | .value v => some (e.1, vars.substitute v)
      | _ => none)).get? name =
      ((lastValue? name entries).map vars.substitute).or (d.get? name) := by
  induction entries generalizing d with
  | nil => rfl
  | cons head rest ih =>
      obtain ⟨key, style⟩ := head
      have hskip : style.value? = none → lastValue? name ((key, style) :: rest) = lastValue? name rest := by
        intro hvalue
        rw [lastValue?, hvalue, ite_self, Option.or_none]
      cases style with
      | value v =>
          show ((d.set key (vars.substitute v)).setAll _).get? name = _
          rw [ih, Declaration.get?_set, lastValue?]
          cases lastValue? name rest with
          | some w => rfl
          | none => by_cases h : name = key <;> simp [h, Style.value?]
      | declaration _ =>
          rw [hskip rfl]
          exact ih d
      | dynamic _ =>
          rw [hskip rfl]
          exact ih d
      | nested _ =>
          rw [hskip rfl]
          exact ih d

/-- Own properties read as the last property value of their name. -/
theorem get?_ownProperties (vars : Variables) (entries : Sheet m) (name : String) :
    (ownProperties vars entries).get? name = (lastValue? name entries).map vars.substitute := by
  have := get?_setAll_values vars entries .empty name
  rw [Declaration.get?_empty, Option.or_none] at this
  exact this

end Sheet

theorem Declaration.isEmpty_eq_false_of_get? {d : Declaration} {name : String} {value : Value}
    (h : d.get? name = some value) : d.isEmpty = false := by
  unfold isEmpty
  rw [List.isEmpty_eq_false_iff]
  exact List.ne_nil_of_mem (get?_eq_some_iff.mp h)

/-- A level has own properties exactly if it has a property value. -/
theorem Sheet.isEmpty_ownProperties (vars : Variables) (entries : Sheet m) :
    (ownProperties vars entries).isEmpty = !(Style.nested entries).givesRule := by
  show _ = !entries.any fun e => e.2.isValue
  cases hany : entries.any fun e => e.2.isValue with
  | true =>
      obtain ⟨⟨name, style⟩, hmem, hvalue⟩ := List.any_eq_true.mp hany
      obtain ⟨v, rfl⟩ := Style.exists_value_of_isValue hvalue
      obtain ⟨w, hw⟩ := Option.isSome_iff_exists.mp (isSome_lastValue? hmem)
      have hget := get?_ownProperties vars entries name
      rw [hw, Option.map_some] at hget
      exact Declaration.isEmpty_eq_false_of_get? hget
  | false =>
      rw [List.any_eq_false] at hany
      unfold ownProperties
      rw [List.filterMap_eq_nil_iff.mpr]
      · rfl
      · rintro ⟨name, style⟩ hmem
        cases style with
        | value v => exact absurd rfl (hany _ hmem)
        | declaration _ => rfl
        | dynamic _ => rfl
        | nested _ => rfl

/-! ## Rules are taken in the order of the walk -/

/-- The rule is the one of an entry below a chain of selectors with a total weight. -/
structure Visit.IsRuleBelow (vars : Variables) (chain : List Selector) (above : Specificity)
    (v : Visit m) (r : Rule m) : Prop where
  selector : r.selector = Selector.ofString v.key
  chain : r.chain = chain ++ v.above.map Selector.ofString
  weight : r.weight = Sheet.weightAlong above (v.above ++ [v.key])
  style : v.style.Yields vars r.style

variable {vars : Variables} {chain : List Selector} {above : Specificity}

/-- Seen from the level above, the chain is longer by the key there. -/
theorem Visit.IsRuleBelow.below {key : String} {v : Visit m} {r : Rule m}
    (h : v.IsRuleBelow vars (chain ++ [Selector.ofString key])
      (above + (Selector.ofString key).weight) r) (i : Nat) :
    (v.below i key).IsRuleBelow vars chain above r where
  selector := h.selector
  chain := by
    rw [h.chain, List.append_assoc]
    rfl
  weight := h.weight
  style := h.style

theorem Visit.isRule_of_isRuleBelow {v : Visit m} {r : Rule m}
    (h : v.IsRuleBelow vars [] .zero r) : v.IsRule vars r := by
  have hweight : r.weight.value = Selector.pathWeight (v.above ++ [v.key]) := by
    rw [h.weight, Selector.value_weightAlong]
    show min (0 + _) _ = _
    rw [Nat.zero_add]
    rfl
  refine ⟨h.selector, h.chain, hweight, fun keys hkeys => ?_, h.style⟩
  rw [hweight]
  exact Selector.pathWeight_le (hkeys.trans (List.prefix_append _ _))

/-- An entry with fixed properties gives one rule, or none if it has no property. -/
theorem forall₂_ofProperties (chain : List Selector) (above : Specificity) (i : Nat) (key : String)
    {style : Style m} {properties : Declaration} (hempty : properties.isEmpty = !style.givesRule)
    (hyields : style.Yields vars (.fixed properties)) :
    List.Forall₂ (Visit.IsRuleBelow vars chain above)
      ([(⟨[i], [], key, style⟩ : Visit m)].filter fun v => v.style.givesRule)
      (Rule.ofProperties (Selector.ofString key) chain (above + (Selector.ofString key).weight)
        properties) := by
  unfold Rule.ofProperties
  rw [List.filter_singleton, hempty]
  cases style.givesRule with
  | false => exact .nil
  | true => exact .cons ⟨rfl, (List.append_nil chain).symm, rfl, hyields⟩ .nil

mutual

theorem Style.forall₂_rules (vars : Variables) : ∀ (style : Style m) (chain : List Selector)
    (above : Specificity) (i : Nat) (key : String),
    List.Forall₂ (Visit.IsRuleBelow vars chain above)
      ((style.visits i key).filter fun v => v.style.givesRule) (style.rules vars chain above key)
  | .value _ => fun _ _ _ _ => .nil
  | .dynamic f => fun chain _ _ _ =>
    .cons ⟨rfl, (List.append_nil chain).symm, rfl, .dynamic f⟩ .nil
  | .declaration d => fun chain above i key => by
    refine forall₂_ofProperties chain above i key ?_
      (.declaration fun name => Declaration.get?_mapValues _ d name)
    unfold Style.givesRule Declaration.isEmpty Declaration.mapValues
    rw [Bool.not_not, List.isEmpty_map]
  | .nested entries => fun chain above i key => by
    have hown := forall₂_ofProperties chain above i key
      (Sheet.isEmpty_ownProperties vars entries) (.nested (Sheet.get?_ownProperties vars entries))
    have hinside := Sheet.forall₂_rulesBelow vars entries (chain ++ [Selector.ofString key])
      (above + (Selector.ofString key).weight) 0
    rw [Style.visits, Style.rules, ← List.singleton_append, List.filter_append, List.filter_map]
    -- the own properties come before everything below
    refine List.rel_append hown (List.forall₂_map_left_iff.mpr (hinside.imp fun v r h => h.below i))
termination_by structural style => style

/-- The rules of a level are those of the entries met that give one, in the order of the walk. -/
theorem Sheet.forall₂_rulesBelow (vars : Variables) : ∀ (entries : List (String × Style m))
    (chain : List Selector) (above : Specificity) (start : Nat),
    List.Forall₂ (Visit.IsRuleBelow vars chain above)
      ((Sheet.walkFrom start entries).filter fun v => v.style.givesRule)
      (Sheet.rulesBelow vars chain above entries)
  | [] => fun _ _ _ => .nil
  | (key, style) :: rest => fun chain above start => by
    rw [Sheet.walkFrom, Sheet.rulesBelow, List.filter_append]
    exact List.rel_append (Style.forall₂_rules vars style chain above start key)
      (Sheet.forall₂_rulesBelow vars rest chain above (start + 1))
termination_by structural entries => entries

end

/-! ## The table of a sheet -/

theorem RuleTable.forall₂_stampFrom {R : Visit m → Rule m → Prop} {visits : List (Visit m)}
    {rules : List (Rule m)} (h : List.Forall₂ R visits rules) (start : Nat) :
    List.Forall₂ (fun v s => R v s.rule) visits (stampFrom start rules) := by
  induction h generalizing start with
  | nil => exact .nil
  | cons hrule _ ih => exact .cons hrule (ih (start + 1))

/-- The table of a sheet, whether or not it is in its plain nested form. Its rules in the order of their
positions are stamped with 0, 1, 2, …, and are the rules of the entries that give one, in the order of the
walk. The walk meets every entry that is no property value, an entry before what is nested in it and
earlier entries before later ones. Each rule is filed under its base class in the list of its kind. -/
theorem RuleTable.ofPlainSheet_preorder (vars : Variables) (sheet : Sheet m) :
    let table := RuleTable.ofPlainSheet vars sheet
    (sheet.walk.Pairwise fun v w => v.place < w.place) ∧
      (∀ v, v ∈ sheet.walk ↔ v.IsOf sheet ∧ v.style.isValue = false) ∧
      table.stamped.map (fun s => s.order) = List.range table.size ∧
      List.Forall₂ (fun v s => v.IsRule vars s.rule)
        (sheet.walk.filter fun v => v.style.givesRule) table.stamped ∧
      ∀ base,
        table.fixedUnder base =
          table.stamped.filter (fun s => !s.rule.isComputed && s.rule.selector.base == base) ∧
        table.computedUnder base =
          table.stamped.filter (fun s => s.rule.isComputed && s.rule.selector.base == base) := by
  have hfiled := filed_of_holds (holds_ofList (sheet.rules vars))
  have hstamped := stamped_of_filed hfiled
  have hrules := (Sheet.forall₂_rulesBelow vars sheet [] .zero 0).imp
    fun _ _ h => Visit.isRule_of_isRuleBelow h
  intro table
  refine ⟨Sheet.pairwise_walkFrom sheet 0, fun v => Sheet.mem_walk_iff, ?_, ?_, fun base => ⟨?_, ?_⟩⟩
  · rw [show table.stamped = _ from hstamped, map_order_stampFrom, show table.size = _ from hfiled.size,
      List.range_eq_range']
  · rw [show table.stamped = _ from hstamped]
    exact forall₂_stampFrom hrules 0
  · rw [show table.stamped = _ from hstamped]
    exact hfiled.fixed base
  · rw [show table.stamped = _ from hstamped]
    exact hfiled.computed base

/-- The own properties of the card come before its title, which is written before them. -/
example :
    let title : Style Id := .nested [("gap", .value (.text "1"))]
    let sheet : Sheet Id := [("card", .nested [("title", title), ("gap", .value (.text "2")),
      ("note", .declaration {}), ("icon", .dynamic fun _ _ => none)]), ("row", title)]
    (RuleTable.ofPlainSheet {} sheet).stamped.map (fun s => (s.order, s.rule.selector.source)) =
      [(0, "card"), (1, "title"), (2, "icon"), (3, "row")] := by
  decide +kernel

end StyleCascade
