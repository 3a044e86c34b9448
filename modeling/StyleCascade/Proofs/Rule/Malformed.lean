/-
# StyleCascade.Proofs.Rule.Malformed — keys that cannot be read do nothing

A key that is no selector still gives rules, and so does what is nested under it. `Sheet.pruned` is the
sheet without any of that: at every depth the entries under such keys are gone, and all that was nested in
them. Property values stay, since the key of a value is the name of a property and no selector.

The rules of the pruned sheet are those rules of the sheet that have no malformed selector on their path,
as they were and in their order (`Sheet.rules_pruned`). A rule that has one applies to no node: neither
does the selector match anything itself, nor can it be met among the ancestors, and it never is the bare
`*` that asks for nothing. So taking these rules out is a deletion that no cascade can see
(`Layer.cascade_pruned`).
-/
import StyleCascade.Proofs.Cascade.Deletion
import StyleCascade.Proofs.Rule.Preorder

namespace StyleCascade

variable {m : Type → Type}

/-! ## Pruning -/

mutual

/-- The content of a key without the entries under malformed keys, at every depth. -/
def Style.pruned : Style m → Style m
  | .nested entries => .nested (Sheet.pruned entries)
  | .value v => .value v
  | .declaration d => .declaration d
  | .dynamic f => .dynamic f
termination_by structural style => style

/-- The entries of a level without those under malformed keys, at every depth. Property values stay. -/
def Sheet.pruned : Sheet m → Sheet m
  | [] => []
  | (key, style) :: rest =>
    if style.isValue || !(Selector.ofString key).malformed then
      (key, style.pruned) :: Sheet.pruned rest
    else Sheet.pruned rest
termination_by structural entries => entries

end

/-- The selectors that the rule asks for, root first. -/
def Rule.path (r : Rule m) : List Selector :=
  r.chain ++ [r.selector]

/-- No selector on the path of the rule is malformed. -/
def Rule.isWellFormed (r : Rule m) : Bool :=
  r.path.all fun s => !s.malformed

/-! ## Paths -/

/-- What is in the second of two lists that correspond is related to something in the first. -/
theorem exists_left_of_forall₂ {α β : Type} {R : α → β → Prop} {l : List α} {l' : List β}
    (h : List.Forall₂ R l l') {b : β} (hb : b ∈ l') : ∃ a ∈ l, R a b := by
  induction h with
  | nil => exact absurd hb List.not_mem_nil
  | @cons a _ _ _ hab _ ih =>
      rcases List.mem_cons.mp hb with rfl | hb
      · exact ⟨a, List.mem_cons_self, hab⟩
      · obtain ⟨c, hc, hcb⟩ := ih hb
        exact ⟨c, List.mem_cons_of_mem a hc, hcb⟩

theorem Visit.IsRuleBelow.path {vars : Variables} {chain : List Selector} {above : Specificity}
    {v : Visit m} {r : Rule m} (h : v.IsRuleBelow vars chain above r) :
    r.path = chain ++ (v.above ++ [v.key]).map Selector.ofString := by
  rw [Rule.path, h.selector, h.chain, List.map_append, List.append_assoc]
  rfl

/-- The selector of a key is on the path of every rule that the content of the key gives. -/
theorem Style.path_of_mem_rules {vars : Variables} {style : Style m} {chain : List Selector}
    {above : Specificity} {key : String} {r : Rule m} (h : r ∈ style.rules vars chain above key) :
    ∃ keys, r.path = chain ++ Selector.ofString key :: List.map Selector.ofString keys := by
  obtain ⟨v, hv, hrule⟩ := exists_left_of_forall₂ (forall₂_rules vars style chain above 0 key) h
  rcases mem_visits_iff.mp (List.mem_of_mem_filter hv) with ⟨_, rfl⟩ | ⟨_, w, _, _, rfl⟩
  · exact ⟨[], hrule.path⟩
  · exact ⟨w.above ++ [w.key], hrule.path⟩

theorem Sheet.path_of_mem_rules {vars : Variables} {sheet : Sheet m} {r : Rule m}
    (h : r ∈ sheet.rules vars) : ∃ keys, r.path = List.map Selector.ofString keys := by
  obtain ⟨v, _, hrule⟩ := exists_left_of_forall₂ (forall₂_rulesBelow vars sheet [] .zero 0) h
  exact ⟨v.above ++ [v.key], hrule.path⟩

/-! ## The rules that are left -/

theorem Rule.isWellFormed_of_chain {r : Rule m} (hchain : ∀ s ∈ r.chain, s.malformed = false)
    (hselector : r.selector.malformed = false) : r.isWellFormed = true := by
  unfold isWellFormed path
  rw [List.all_eq_true]
  intro s hs
  rcases List.mem_append.mp hs with hs | hs
  · rw [hchain s hs]
    rfl
  · rw [List.mem_singleton.mp hs, hselector]
    rfl

theorem Rule.filter_ofProperties {selector : Selector} {chain : List Selector}
    (hchain : ∀ s ∈ chain, s.malformed = false) (hselector : selector.malformed = false)
    (weight : Specificity) (properties : Declaration) :
    (ofProperties selector chain weight properties : List (Rule m)).filter isWellFormed =
      ofProperties selector chain weight properties := by
  rw [List.filter_eq_self]
  unfold ofProperties
  intro r hr
  split at hr
  · exact absurd hr List.not_mem_nil
  · rw [List.mem_singleton.mp hr]
    exact isWellFormed_of_chain hchain hselector

/-- Under a malformed key no rule is left. -/
theorem Style.filter_rules_of_malformed {key : String} (h : (Selector.ofString key).malformed = true)
    (vars : Variables) (style : Style m) (chain : List Selector) (above : Specificity) :
    (style.rules vars chain above key).filter Rule.isWellFormed = [] := by
  rw [List.filter_eq_nil_iff]
  intro r hr
  obtain ⟨keys, hpath⟩ := path_of_mem_rules hr
  unfold Rule.isWellFormed
  rw [hpath, List.all_eq_true]
  intro hall
  have := hall (Selector.ofString key) (List.mem_append_right chain List.mem_cons_self)
  rw [h] at this
  exact absurd this (by decide)

/-- Pruning leaves the own properties of a level. -/
theorem Sheet.ownProperties_pruned (vars : Variables) (entries : Sheet m) :
    Sheet.ownProperties vars entries.pruned = Sheet.ownProperties vars entries := by
  unfold ownProperties
  congr 1
  induction entries with
  | nil => rfl
  | cons head rest ih =>
      obtain ⟨key, style⟩ := head
      rw [pruned]
      cases style with
      | value v =>
          show (key, vars.substitute v) :: List.filterMap _ (pruned rest) = _
          rw [ih]
          rfl
      | declaration _ => split <;> exact ih
      | dynamic _ => split <;> exact ih
      | nested _ => split <;> exact ih

mutual

theorem Style.rules_pruned (vars : Variables) : ∀ (style : Style m) {chain : List Selector}
    (above : Specificity) {key : String}, (∀ s ∈ chain, s.malformed = false) →
    (style.isValue = false → (Selector.ofString key).malformed = false) →
    style.pruned.rules vars chain above key =
      (style.rules vars chain above key).filter Rule.isWellFormed
  | .value _ => fun _ _ _ _ => rfl
  | .dynamic f => fun above key hchain hkey => by
    rw [Style.pruned, Style.rules, List.filter_eq_self.mpr]
    intro r hr
    rw [List.mem_singleton.mp hr]
    exact Rule.isWellFormed_of_chain hchain (hkey rfl)
  | .declaration d => fun above key hchain hkey => by
    rw [Style.pruned, Style.rules, Rule.filter_ofProperties hchain (hkey rfl)]
  | .nested entries => fun above key hchain hkey => by
    have hbelow : ∀ s ∈ _ ++ [Selector.ofString key], s.malformed = false :=
      List.forall_mem_append.mpr ⟨hchain, List.forall_mem_singleton.mpr (hkey rfl)⟩
    rw [Style.pruned, Style.rules, Style.rules, List.filter_append,
      Rule.filter_ofProperties hchain (hkey rfl), Sheet.ownProperties_pruned,
      Sheet.rulesBelow_pruned vars entries _ hbelow]
termination_by structural style => style

/-- Below a chain that can be read, pruning leaves the rules that have no malformed selector on their
path. -/
theorem Sheet.rulesBelow_pruned (vars : Variables) : ∀ (entries : List (String × Style m))
    {chain : List Selector} (above : Specificity), (∀ s ∈ chain, s.malformed = false) →
    Sheet.rulesBelow vars chain above (Sheet.pruned entries) =
      (Sheet.rulesBelow vars chain above entries).filter Rule.isWellFormed
  | [] => fun _ _ => rfl
  | (key, style) :: rest => fun above hchain => by
    rw [Sheet.pruned, Sheet.rulesBelow, List.filter_append]
    split
    · rename_i hkey
      have hselector : style.isValue = false → (Selector.ofString key).malformed = false := by
        intro hvalue
        simpa [hvalue] using hkey
      rw [Sheet.rulesBelow, Style.rules_pruned vars style above hchain hselector,
        Sheet.rulesBelow_pruned vars rest above hchain]
    · rename_i hkey
      rw [Bool.not_eq_true, Bool.or_eq_false_iff, Bool.not_eq_false'] at hkey
      obtain ⟨_, hmalformed⟩ := hkey
      rw [Style.filter_rules_of_malformed hmalformed, List.nil_append,
        Sheet.rulesBelow_pruned vars rest above hchain]
termination_by structural entries => entries

end

theorem Sheet.rules_pruned (vars : Variables) (sheet : Sheet m) :
    sheet.pruned.rules vars = (sheet.rules vars).filter Rule.isWellFormed :=
  rulesBelow_pruned vars sheet .zero fun _ hs => absurd hs List.not_mem_nil

/-! ## The rules that are gone -/

theorem Selector.matchesNode_of_malformed {s : Selector} (h : s.malformed = true) (n : Node) :
    s.matchesNode n = false := by
  cases s
  unfold matchesNode
  simp_all

@[simp]
theorem Selector.source_ofString (key : String) : (ofString key).source = key := by
  unfold ofString read
  exact String.ofList_toList

/-- A malformed key is not the bare `*`. -/
theorem Selector.isUniversal_of_malformed {key : String} (h : (ofString key).malformed = true) :
    (ofString key).isUniversal = false := by
  have hne : key ≠ universalClass := by
    rintro rfl
    exact absurd h (by decide +kernel)
  unfold isUniversal
  rw [source_ofString]
  exact beq_false_of_ne hne

/-- A rule with a malformed selector on its path applies to no node. -/
theorem Rule.matchesNode_of_not_isWellFormed {r : Rule m} {keys : List String}
    (hpath : r.path = keys.map Selector.ofString) (h : r.isWellFormed = false) (n : Node) :
    r.matchesNode n = false := by
  unfold isWellFormed at h
  rw [List.all_eq_false] at h
  obtain ⟨s, hs, hmalformed⟩ := h
  rw [Bool.not_eq_true, Bool.not_eq_false'] at hmalformed
  unfold matchesNode
  rw [Bool.and_eq_false_iff]
  have hkey := hs
  rw [hpath] at hkey
  obtain ⟨key, _, rfl⟩ := List.mem_map.mp hkey
  rcases List.mem_append.mp hs with hchain | hselector
  · right
    rw [List.all_eq_false]
    refine ⟨_, hchain, ?_⟩
    rw [Selector.isUniversal_of_malformed hmalformed]
    simp [Selector.matchesNode_of_malformed hmalformed]
  · left
    rw [← List.mem_singleton.mp hselector]
    exact Selector.matchesNode_of_malformed hmalformed n

/-! ## The law -/

/-- Whatever a sheet has under keys that cannot be read, at any depth, makes no difference to what any node
gets, among whatever rules of another scope. The other rules of the sheet keep their selectors, chains,
weights, properties and their order, and those that are gone apply to no node. -/
theorem Layer.cascade_pruned [Monad m] [LawfulMonad m] (vars : Variables) (sheet : Sheet m)
    {before after : List (Layer m)} {origin : Origin}
    (hbefore : ∀ layer ∈ before, layer.origin ≠ origin) (hafter : ∀ layer ∈ after, layer.origin ≠ origin)
    (bases : List String) (n : Node) :
    Layer.cascade (before ++ ⟨origin, .ofPlainSheet vars sheet.pruned⟩ :: after) bases n =
        Layer.cascade (before ++ ⟨origin, .ofPlainSheet vars sheet⟩ :: after) bases n ∧
      sheet.pruned.rules vars = (sheet.rules vars).filter Rule.isWellFormed ∧
      ∀ r ∈ sheet.rules vars, r.isWellFormed = false → ∀ other : Node, r.matchesNode other = false := by
  have hgone : ∀ r ∈ sheet.rules vars, r.isWellFormed = false → ∀ other : Node,
      r.matchesNode other = false := by
    intro r hr hform other
    obtain ⟨keys, hpath⟩ := Sheet.path_of_mem_rules hr
    exact Rule.matchesNode_of_not_isWellFormed hpath hform other
  refine ⟨?_, Sheet.rules_pruned vars sheet, hgone⟩
  unfold RuleTable.ofPlainSheet
  rw [Sheet.rules_pruned]
  exact cascade_filter hbefore hafter (fun r hr hform => hgone r hr hform n) bases

/-- Two rules of one weight keep their order when what stands between them is taken out. -/
theorem Layer.cascade_pruned_title :
    let gap (text : String) : Style Id := .nested [("gap", .value (.text text))]
    let sheet : Sheet Id := [("title", gap "1"),
      ("card[", .nested [("gap", .value (.text "2")), ("title", gap "3")]), (".title", gap "4")]
    let first : Layer Id := ⟨.globalScope, .ofPlainSheet {} [("title", gap "5")]⟩
    (∀ layer ∈ [first], layer.origin ≠ .localScope) ∧
      (∀ layer ∈ ([] : List (Layer Id)), layer.origin ≠ .localScope) ∧
      (Layer.cascade ([first] ++ ⟨.localScope, .ofPlainSheet {} sheet.pruned⟩ :: []) ["title", "*"]
          (Node.ofClasses ["title"]) =
        Layer.cascade ([first] ++ ⟨.localScope, .ofPlainSheet {} sheet⟩ :: []) ["title", "*"]
          (Node.ofClasses ["title"])) ∧
      (sheet.rules {}).map (fun r => r.path.map fun s => s.source) =
        [["title"], ["card["], ["card[", "title"], [".title"]] ∧
      (sheet.pruned.rules {}).map (fun r => r.path.map fun s => s.source) = [["title"], [".title"]] := by
  intro gap sheet first
  have hfirst : ∀ layer ∈ [first], layer.origin ≠ .localScope :=
    List.forall_mem_singleton.mpr (by decide)
  have hnone : ∀ layer ∈ ([] : List (Layer Id)), layer.origin ≠ .localScope :=
    fun _ hlayer => absurd hlayer List.not_mem_nil
  have hlaw := Layer.cascade_pruned {} sheet hfirst hnone ["title", "*"] (Node.ofClasses ["title"])
  exact ⟨hfirst, hnone, hlaw.1, by decide +kernel, by decide +kernel⟩

end StyleCascade
