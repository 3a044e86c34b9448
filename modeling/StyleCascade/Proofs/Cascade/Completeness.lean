/-
# StyleCascade.Proofs.Cascade.Completeness — filing rules by base class loses nothing

A cascade looks only at the rules filed under the base classes it is given. A plain pass would try every
rule of the global scope and then every rule of the local one, keep those that apply, and merge what they
say. `cascade_classes` says that over the classes of a node the two give the same properties, and that
the order and the repetitions of base classes never matter.

The argument has three parts. A rule that applies is filed under a class of the node, since every node
carries the universal class. Under a base class a table shows exactly the rules pushed with it, whatever
the pushes and appends that built it (`RuleTable.filed_of_holds`). And the priority of a contribution
names its rule, so neither the order of collection nor a second visit changes a merge
(`Contribution.mergeAll_eq_of_mem_iff`).
-/
import StyleCascade.Proofs.Cascade.Winner
import StyleCascade.Proofs.Rule.Filing
import StyleCascade.Resolver.Basic

namespace StyleCascade

/-! ## What rules offer -/

/-- The kind of a rule. -/
def Rule.kind {m : Type → Type} (r : Rule m) : RuleKind :=
  if r.isComputed then .computed else .fixed

/-- What a rule at a position of a scope gives a node, if it applies. -/
def StampedRule.offer? (origin : Origin) (n : Node) (s : StampedRule Id) : Option Contribution :=
  if s.rule.matchesNode n then
    (s.rule.evaluate n).map fun declaration =>
      ⟨⟨s.rule.weight, origin, s.rule.kind, s.order⟩, declaration⟩
  else none

/-- What all rules of a scope give a node: each is tried in turn, under its position. -/
def Contribution.offers (origin : Origin) (n : Node) (rules : List (Rule Id)) : List Contribution :=
  (RuleTable.stampFrom 0 rules).filterMap fun s => s.offer? origin n

/-- The properties of a node by trying every rule of the global scope and then every rule of the local
one. -/
def sweep (globalRules localRules : List (Rule Id)) (n : Node) : Declaration :=
  Contribution.mergeAll
    (Contribution.offers .globalScope n globalRules ++ Contribution.offers .localScope n localRules)

/-- The tables of a view were filled with these rules. A view without a local scope has no local rules. -/
structure View.Holds (view : View Id) (globalRules localRules : List (Rule Id)) : Prop where
  globalScope : view.globalTable.Holds globalRules
  localScope : ∀ table, view.localTable = some table → table.Holds localRules
  noLocalScope : view.localTable = none → localRules = []

theorem StampedRule.priority_of_offer? {origin : Origin} {n : Node} {s : StampedRule Id}
    {c : Contribution} (h : s.offer? origin n = some c) :
    c.priority = ⟨s.rule.weight, origin, s.rule.kind, s.order⟩ := by
  unfold offer? at h
  split at h
  · obtain ⟨declaration, _, rfl⟩ := Option.map_eq_some_iff.mp h
    rfl
  · exact absurd h (by simp)

theorem StampedRule.matchesNode_of_offer? {origin : Origin} {n : Node} {s : StampedRule Id}
    {c : Contribution} (h : s.offer? origin n = some c) : s.rule.matchesNode n = true := by
  unfold offer? at h
  split at h
  · assumption
  · exact absurd h (by simp)

namespace Contribution

theorem mem_offers {origin : Origin} {n : Node} {rules : List (Rule Id)} {c : Contribution} :
    c ∈ offers origin n rules ↔ ∃ s ∈ RuleTable.stampFrom 0 rules, s.offer? origin n = some c := by
  unfold offers
  rw [List.mem_filterMap]

theorem origin_of_mem_offers {origin : Origin} {n : Node} {rules : List (Rule Id)}
    {c : Contribution} (h : c ∈ offers origin n rules) : c.priority.origin = origin := by
  obtain ⟨s, _, hs⟩ := mem_offers.mp h
  rw [StampedRule.priority_of_offer? hs]

/-- In one scope a position belongs to one rule, so a priority belongs to one offer. -/
theorem eq_of_mem_offers {origin : Origin} {n : Node} {rules : List (Rule Id)} {c d : Contribution}
    (hc : c ∈ offers origin n rules) (hd : d ∈ offers origin n rules)
    (h : c.priority = d.priority) : c = d := by
  obtain ⟨s, hs, hsc⟩ := mem_offers.mp hc
  obtain ⟨t, ht, htd⟩ := mem_offers.mp hd
  rw [StampedRule.priority_of_offer? hsc, StampedRule.priority_of_offer? htd] at h
  have hst : s = t := RuleTable.eq_of_order_eq hs ht (congrArg Priority.order h)
  rw [hst] at hsc
  exact Option.some.inj (hsc.symm.trans htd)

/-- Over both scopes a priority still belongs to one offer: it names the scope. -/
theorem eq_of_mem_offers_append {n : Node} {globalRules localRules : List (Rule Id)}
    {c d : Contribution}
    (hc : c ∈ offers .globalScope n globalRules ++ offers .localScope n localRules)
    (hd : d ∈ offers .globalScope n globalRules ++ offers .localScope n localRules)
    (h : c.priority = d.priority) : c = d := by
  have horigin : c.priority.origin = d.priority.origin := congrArg Priority.origin h
  rcases List.mem_append.mp hc with hc | hc <;> rcases List.mem_append.mp hd with hd | hd
  · exact eq_of_mem_offers hc hd h
  · rw [origin_of_mem_offers hc, origin_of_mem_offers hd] at horigin
    exact absurd horigin (by decide)
  · rw [origin_of_mem_offers hc, origin_of_mem_offers hd] at horigin
    exact absurd horigin (by decide)
  · exact eq_of_mem_offers hc hd h

end Contribution

/-! ## What a cascade collects -/

/-- A rule that applies to a node is filed under a class the node carries. -/
theorem Rule.base_mem_classes {r : Rule Id} {n : Node} (huniversal : universalClass ∈ n.traits.classes)
    (h : r.matchesNode n = true) : r.base ∈ n.traits.classes := by
  unfold matchesNode at h
  rw [Bool.and_eq_true] at h
  have hselector := h.1
  unfold Rule.base
  cases hs : r.selector with
  | mk source base conditions malformed =>
      rw [hs, Selector.matchesNode] at hselector
      simp only [Bool.and_eq_true, Bool.or_eq_true, beq_iff_eq] at hselector
      rcases hselector.1.2 with hbase | hbase
      · show base ∈ n.traits.classes
        rw [hbase]
        exact huniversal
      · exact List.contains_iff_mem.mp hbase

theorem collectM_eq_filterMap {α β : Type} (action : α → Option β) (l : List α) :
    (collectM (m := Id) action l).run = l.filterMap action := by
  induction l with
  | nil => rfl
  | cons a rest ih =>
      show (action a).toList ++ (collectM (m := Id) action rest).run = _
      rw [ih, List.filterMap_cons]
      cases action a <;> rfl

theorem StampedRule.contribution?_eq_offer? (origin : Origin) (n : Node) (s : StampedRule Id)
    (kind : RuleKind) (h : s.rule.kind = kind) :
    (s.contribution? origin kind n).run = s.offer? origin n := by
  rw [← h]
  unfold contribution? offer?
  split <;> rfl

namespace Layer

theorem contributions_eq (layer : Layer Id) (base : String) (n : Node) :
    (layer.contributions base n).run =
      (layer.table.fixedUnder base).filterMap
          (fun s => (s.contribution? layer.origin .fixed n).run) ++
        (layer.table.computedUnder base).filterMap
          (fun s => (s.contribution? layer.origin .computed n).run) := by
  rw [← collectM_eq_filterMap, ← collectM_eq_filterMap]
  rfl

/-- Under a base class a scope contributes the offers of the rules with that base class. -/
theorem mem_contributions {layer : Layer Id} {rules : List (Rule Id)}
    (h : layer.table.Holds rules) (base : String) (n : Node) (c : Contribution) :
    c ∈ (layer.contributions base n).run ↔
      ∃ s ∈ RuleTable.stampFrom 0 rules, s.rule.base = base ∧
        s.offer? layer.origin n = some c := by
  have hfiled := RuleTable.filed_of_holds h
  -- each of the two lists is asked for its own kind, and that is the kind of the rules in it
  have hfixed : ∀ s : StampedRule Id, s.rule.isComputed = false →
      (s.contribution? layer.origin .fixed n).run = s.offer? layer.origin n := by
    intro s hkind
    exact s.contribution?_eq_offer? layer.origin n .fixed (by rw [Rule.kind, hkind]; rfl)
  have hcomputed : ∀ s : StampedRule Id, s.rule.isComputed = true →
      (s.contribution? layer.origin .computed n).run = s.offer? layer.origin n := by
    intro s hkind
    exact s.contribution?_eq_offer? layer.origin n .computed (by rw [Rule.kind, hkind]; rfl)
  rw [contributions_eq, hfiled.fixed, hfiled.computed, List.mem_append, List.mem_filterMap,
    List.mem_filterMap]
  simp only [List.mem_filter, Bool.and_eq_true, Bool.not_eq_true', beq_iff_eq]
  constructor
  · rintro (⟨s, ⟨hs, hkind, hbase⟩, hc⟩ | ⟨s, ⟨hs, hkind, hbase⟩, hc⟩)
    · rw [hfixed s hkind] at hc
      exact ⟨s, hs, hbase, hc⟩
    · rw [hcomputed s hkind] at hc
      exact ⟨s, hs, hbase, hc⟩
  · rintro ⟨s, hs, hbase, hc⟩
    cases hkind : s.rule.isComputed with
    | false =>
        refine .inl ⟨s, ⟨hs, hkind, hbase⟩, ?_⟩
        rw [hfixed s hkind]
        exact hc
    | true =>
        refine .inr ⟨s, ⟨hs, hkind, hbase⟩, ?_⟩
        rw [hcomputed s hkind]
        exact hc

theorem contributionsUnder_eq (n : Node) (base : String) (layers : List (Layer Id)) :
    (contributionsUnder n base layers).run =
      layers.flatMap fun layer => (layer.contributions base n).run := by
  induction layers with
  | nil => rfl
  | cons layer rest ih =>
      show (layer.contributions base n).run ++ (contributionsUnder n base rest).run = _
      rw [ih, List.flatMap_cons]

/-- Class by class and scope by scope, everything found is kept. -/
theorem contributionsUnderAll_eq (layers : List (Layer Id)) (n : Node) (bases : List String) :
    (contributionsUnderAll layers n bases).run =
      bases.flatMap fun base => layers.flatMap fun layer => (layer.contributions base n).run := by
  induction bases with
  | nil => rfl
  | cons base rest ih =>
      show (contributionsUnder n base layers).run ++ (contributionsUnderAll layers n rest).run = _
      rw [ih, contributionsUnder_eq, List.flatMap_cons]

end Layer

namespace View

variable {view : View Id} {globalRules localRules : List (Rule Id)}

/-- The contributions under some base classes are the offers of the rules with one of these. -/
theorem mem_contributions (h : view.Holds globalRules localRules) (bases : List String) (n : Node)
    (c : Contribution) :
    c ∈ (Layer.contributionsUnderAll view.layers n bases).run ↔
      (∃ s ∈ RuleTable.stampFrom 0 globalRules, s.rule.base ∈ bases ∧
        s.offer? .globalScope n = some c) ∨
      (∃ s ∈ RuleTable.stampFrom 0 localRules, s.rule.base ∈ bases ∧
        s.offer? .localScope n = some c) := by
  have hglobal := @Layer.mem_contributions ⟨.globalScope, view.globalTable⟩ _ h.globalScope
  rw [Layer.contributionsUnderAll_eq]
  simp only [List.mem_flatMap]
  unfold layers
  cases hlocal : view.localTable with
  | none =>
      rw [h.noLocalScope hlocal]
      simp only [Option.map_none, Option.toList_none, List.mem_singleton, exists_eq_left, hglobal]
      constructor
      · rintro ⟨base, hbase, s, hs, rfl, hc⟩
        exact .inl ⟨s, hs, hbase, hc⟩
      · rintro (⟨s, hs, hbase, hc⟩ | ⟨s, hs, _⟩)
        · exact ⟨_, hbase, s, hs, rfl, hc⟩
        · exact (List.not_mem_nil hs).elim
  | some table =>
      have hlayer := @Layer.mem_contributions ⟨.localScope, table⟩ _ (h.localScope table hlocal)
      simp only [Option.map_some, Option.toList_some, List.mem_cons, List.not_mem_nil, or_false,
        exists_eq_or_imp, exists_eq_left, hglobal, hlayer]
      constructor
      · rintro ⟨base, hbase, ⟨s, hs, rfl, hc⟩ | ⟨s, hs, rfl, hc⟩⟩
        · exact .inl ⟨s, hs, hbase, hc⟩
        · exact .inr ⟨s, hs, hbase, hc⟩
      · rintro (⟨s, hs, hbase, hc⟩ | ⟨s, hs, hbase, hc⟩)
        · exact ⟨_, hbase, .inl ⟨s, hs, rfl, hc⟩⟩
        · exact ⟨_, hbase, .inr ⟨s, hs, rfl, hc⟩⟩

theorem mem_offers_of_mem_contributions (h : view.Holds globalRules localRules) {bases : List String}
    {n : Node} {c : Contribution}
    (hc : c ∈ (Layer.contributionsUnderAll view.layers n bases).run) :
    c ∈ Contribution.offers .globalScope n globalRules ++
      Contribution.offers .localScope n localRules := by
  rw [List.mem_append, Contribution.mem_offers, Contribution.mem_offers]
  rcases (mem_contributions h bases n c).mp hc with ⟨s, hs, _, hc⟩ | ⟨s, hs, _, hc⟩
  · exact .inl ⟨s, hs, hc⟩
  · exact .inr ⟨s, hs, hc⟩

/-- Over the classes of a node nothing that applies is missed. -/
theorem mem_contributions_classes (h : view.Holds globalRules localRules) {n : Node}
    (huniversal : universalClass ∈ n.traits.classes) (c : Contribution) :
    c ∈ (Layer.contributionsUnderAll view.layers n n.traits.classes).run ↔
      c ∈ Contribution.offers .globalScope n globalRules ++
        Contribution.offers .localScope n localRules := by
  refine ⟨mem_offers_of_mem_contributions h, ?_⟩
  intro hc
  -- what applies has its base class among those that are asked for
  have hbase : ∀ {origin : Origin} {s : StampedRule Id},
      s.offer? origin n = some c → s.rule.base ∈ n.traits.classes :=
    fun hoffer => Rule.base_mem_classes huniversal (StampedRule.matchesNode_of_offer? hoffer)
  rw [mem_contributions h]
  rw [List.mem_append, Contribution.mem_offers, Contribution.mem_offers] at hc
  rcases hc with ⟨s, hs, hc⟩ | ⟨s, hs, hc⟩
  · exact .inl ⟨s, hs, hbase hc, hc⟩
  · exact .inr ⟨s, hs, hbase hc, hc⟩

/-- A cascade reads only which base classes are asked for. -/
theorem cascade_eq_of_mem_iff (h : view.Holds globalRules localRules) {bases bases' : List String}
    (hbases : ∀ base, base ∈ bases ↔ base ∈ bases') (n : Node) :
    (view.cascade bases n).run = (view.cascade bases' n).run := by
  show Contribution.mergeAll (Layer.contributionsUnderAll view.layers n bases).run =
    Contribution.mergeAll (Layer.contributionsUnderAll view.layers n bases').run
  apply Contribution.mergeAll_eq_of_mem_iff
  · intro c
    rw [mem_contributions h, mem_contributions h]
    simp only [hbases]
  · intro c hc d hd hprio
    exact Contribution.eq_of_mem_offers_append (mem_offers_of_mem_contributions h hc)
      (mem_offers_of_mem_contributions h hd) hprio

/-- Asking for all classes of a node gives what trying every rule gives, and the order and the
repetitions of base classes do not matter. -/
theorem cascade_classes (h : view.Holds globalRules localRules) :
    (∀ n : Node, universalClass ∈ n.traits.classes →
      (view.cascade (Resolver.requestedBases none n) n).run = sweep globalRules localRules n) ∧
    (∀ (bases bases' : List String) (n : Node), (∀ base, base ∈ bases ↔ base ∈ bases') →
      (view.cascade bases n).run = (view.cascade bases' n).run) := by
  refine ⟨fun n huniversal => ?_, fun bases bases' n hbases => cascade_eq_of_mem_iff h hbases n⟩
  show Contribution.mergeAll (Layer.contributionsUnderAll view.layers n n.traits.classes).run = _
  unfold sweep
  apply Contribution.mergeAll_eq_of_mem_iff (mem_contributions_classes h huniversal)
  intro c hc d hd hprio
  exact Contribution.eq_of_mem_offers_append (mem_offers_of_mem_contributions h hc)
    (mem_offers_of_mem_contributions h hd) hprio

/-- A scope of two kinds of rules below one that was filled by an append: the computed color of the class
rule decides, by the index as by trying every rule. -/
theorem cascade_classes_item :
    let plain : Rule Id := ⟨⟨"*", "*", [], false⟩, [], .zero,
      .fixed (Declaration.empty.set "color" (.text "red"))⟩
    let item : Rule Id := ⟨⟨"item", "item", [], false⟩, [], .one,
      .computed fun _ _ => some (Declaration.empty.set "color" (.text "blue"))⟩
    let view : View Id := ⟨(RuleTable.ofList [item]).push plain,
      some ((RuleTable.ofList [plain]).append (RuleTable.ofList [plain])), ⟨.initial, none⟩⟩
    let n := Node.ofClasses ["item"]
    (view.cascade (Resolver.requestedBases none n) n).run = sweep [item, plain] [plain, plain] n ∧
      (view.cascade ["item", "*"] n).run = (view.cascade ["*", "item", "*"] n).run ∧
      (sweep [item, plain] [plain, plain] n).get? "color" = some (.text "blue") := by
  intro plain item view n
  have h : view.Holds [item, plain] [plain, plain] := by
    refine ⟨(RuleTable.holds_ofList [item]).push plain, fun table htable => ?_, fun hnone => ?_⟩
    · obtain rfl := Option.some.inj htable
      exact (RuleTable.holds_ofList [plain]).append (RuleTable.holds_ofList [plain])
    · exact absurd hnone (by simp [view])
  have hbases : ∀ base, base ∈ ["item", "*"] ↔ base ∈ ["*", "item", "*"] := by
    intro base
    simp only [List.mem_cons, List.not_mem_nil, or_false]
    tauto
  exact ⟨(cascade_classes h).1 n (by decide), (cascade_classes h).2 _ _ n hbases, by decide +kernel⟩

end View

end StyleCascade
