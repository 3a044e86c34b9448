/-
# StyleCascade.Proofs.Rule.Reading — what rules read of a node

A rule respects a reading if nodes that agree are alike to it: it applies to both or to neither, and it
gives both the same properties. Tables of such rules, and the cascades over them, cannot tell agreeing
nodes apart either.

Selectors never look at remembered keys (`Selector.matchesNode_bare`), so under the exact reading only
dynamic styles have something to promise (`Rule.respects_exact`).
-/
import StyleCascade.Proofs.Cascade.Completeness
import StyleCascade.Proofs.Node.Agreement
import StyleCascade.Proofs.Selector.Likeness

namespace StyleCascade

variable {reading : Node.Reading} {a b : Node}

/-! ## Rules that respect a reading -/

/-- Nodes that agree are alike to the rule. -/
def Rule.Respects (reading : Node.Reading) (r : Rule Id) : Prop :=
  ∀ a b : Node, reading.agree a b →
    r.matchesNode a = r.matchesNode b ∧ (r.evaluate a).run = (r.evaluate b).run

/-- The rules the table was given respect a reading. -/
def RuleTable.Respects (reading : Node.Reading) (table : RuleTable Id) : Prop :=
  ∃ rules, table.Holds rules ∧ ∀ r ∈ rules, r.Respects reading

/-- Whatever the variables are, the rules taken from the sheet respect a reading. -/
def Sheet.Respects (reading : Node.Reading) (sheet : Sheet Id) : Prop :=
  ∀ vars, ∀ r ∈ Sheet.rules vars sheet.expand, r.Respects reading

/-- The rules of both scopes of the view respect a reading. -/
structure View.Respects (reading : Node.Reading) (view : View Id) : Prop where
  globalScope : view.globalTable.Respects reading
  localScope : ∀ table, view.localTable = some table → table.Respects reading

theorem RuleTable.respects_empty : RuleTable.Respects reading {} :=
  ⟨[], .empty, fun _ hr => absurd hr List.not_mem_nil⟩

theorem RuleTable.respects_ofSheet {sheet : Sheet Id} (h : sheet.Respects reading)
    (vars : Variables) : (RuleTable.ofSheet vars sheet).Respects reading :=
  ⟨_, holds_ofList _, h vars⟩

theorem RuleTable.respects_append {table other : RuleTable Id} (h : table.Respects reading)
    (hother : other.Respects reading) : (table.append other).Respects reading := by
  obtain ⟨rules, hrules, hr⟩ := h
  obtain ⟨more, hmore, hr'⟩ := hother
  refine ⟨rules ++ more, hrules.append hmore, ?_⟩
  intro r hmem
  rcases List.mem_append.mp hmem with hmem | hmem
  · exact hr r hmem
  · exact hr' r hmem

/-! ## Cascades over them -/

theorem StampedRule.contribution?_congr {s : StampedRule Id} (h : s.rule.Respects reading)
    (hab : reading.agree a b) (origin : Origin) (kind : RuleKind) :
    (s.contribution? origin kind a).run = (s.contribution? origin kind b).run := by
  obtain ⟨hmatches, hevaluate⟩ := h a b hab
  unfold contribution?
  rw [hmatches]
  split
  · show (s.rule.evaluate a).run.map _ = (s.rule.evaluate b).run.map _
    rw [hevaluate]
  · rfl

theorem Layer.contributions_congr {layer : Layer Id} (h : layer.table.Respects reading)
    (hab : reading.agree a b) (base : String) :
    (layer.contributions base a).run = (layer.contributions base b).run := by
  obtain ⟨rules, hholds, hrules⟩ := h
  have hfiled := RuleTable.filed_of_holds hholds
  have hrespects : ∀ s ∈ RuleTable.stampFrom 0 rules, s.rule.Respects reading := by
    intro s hs
    apply hrules
    rw [← RuleTable.map_rule_stampFrom 0 rules]
    exact List.mem_map_of_mem hs
  -- what is filed under the base class is the same for both nodes, and each rule in it answers alike
  rw [contributions_eq, contributions_eq, hfiled.fixed, hfiled.computed]
  congr 1
  · apply List.filterMap_congr
    intro s hs
    exact StampedRule.contribution?_congr (hrespects s (List.mem_of_mem_filter hs)) hab _ _
  · apply List.filterMap_congr
    intro s hs
    exact StampedRule.contribution?_congr (hrespects s (List.mem_of_mem_filter hs)) hab _ _

/-- A cascade over rules that respect a reading gives nodes that agree the same properties. -/
theorem View.cascade_congr {view : View Id} (h : view.Respects reading) (hab : reading.agree a b)
    (bases : List String) : (view.cascade bases a).run = (view.cascade bases b).run := by
  have hlayers : ∀ layer ∈ view.layers, layer.table.Respects reading :=
    forall_mem_layers h.globalScope h.localScope
  show Contribution.mergeAll (Layer.contributionsUnderAll view.layers a bases).run =
    Contribution.mergeAll (Layer.contributionsUnderAll view.layers b bases).run
  rw [Layer.contributionsUnderAll_eq, Layer.contributionsUnderAll_eq]
  congr 1
  apply List.flatMap_congr
  intro base _
  apply List.flatMap_congr
  intro layer hlayer
  exact Layer.contributions_congr (hlayers layer hlayer) hab base

/-! ## The exact reading -/

/-- A node is like itself without remembered keys. -/
theorem Node.likeness_bare : Likeness fun a b => b = a.bare := by
  refine .ofTraits ?_ ?_ ?_
  · rintro a _ rfl
    exact (traits_bare a).symm
  · rintro a _ rfl c hc
    rw [children_bare]
    exact ⟨c.bare, List.mem_map_of_mem hc, rfl⟩
  · rintro a _ rfl d hd
    rw [children_bare] at hd
    obtain ⟨c, hc, rfl⟩ := List.mem_map.mp hd
    exact ⟨c, hc, rfl⟩

/-- A selector does not see what keys a node remembers. -/
theorem Selector.matchesNode_bare (s : Selector) (n : Node) : s.matchesNode n.bare = s.matchesNode n :=
  (Node.likeness_bare.matchesNode_eq s rfl).symm

theorem Rule.matchesNode_bare (r : Rule Id) (n : Node) : r.matchesNode n.bare = r.matchesNode n := by
  unfold matchesNode
  rw [Selector.matchesNode_bare, Node.ancestors_bare]
  simp only [List.any_map, Function.comp_def, Selector.matchesNode_bare]

/-- Under the exact reading a rule has to promise nothing but that its dynamic style, if it has one,
does not look at remembered keys. -/
theorem Rule.respects_exact {r : Rule Id}
    (h : ∀ f, r.style = .computed f → ∀ index n, (f index n.bare).run = (f index n).run) :
    r.Respects Node.Reading.exact := by
  intro a b hab
  have hab' : a.bare = b.bare := hab
  refine ⟨by rw [← matchesNode_bare r a, hab', matchesNode_bare], ?_⟩
  unfold evaluate
  cases hstyle : r.style with
  | fixed declaration => rfl
  | computed f =>
      show (f a.traits.index a).run = (f b.traits.index b).run
      rw [← h f hstyle, hab', h f hstyle, ← Node.traits_bare a, hab', Node.traits_bare]

end StyleCascade
