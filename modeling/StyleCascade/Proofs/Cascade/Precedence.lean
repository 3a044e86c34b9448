/-
# StyleCascade.Proofs.Cascade.Precedence — the law of the winner

A merge gives a property the value that one contribution declares for it: the greatest of those that
declare it, and the last of these (`Decides`). Priorities are totally ordered, so where no two
contributions have one priority, the order in which they came does not matter.

A cascade never collects two contributions of one priority, if it is asked for no base class twice
(`nodup_priority_contributionsUnderAll`). What dynamic styles do while they are called has no part in
this: whether a rule gives a contribution is up to its style, but the priority of the contribution is
known before. So what is collected under a base class is a part of a fixed list of priorities
(`Layer.priorities`), and these lists repeat nothing and have nothing in common.
-/
import Mathlib
import StyleCascade.Proofs.Cascade.Winner
import StyleCascade.Proofs.Rule.Filing
import StyleCascade.Scope.Store

namespace StyleCascade

/-! ## Priorities are totally ordered -/

namespace Priority

theorem compare_swap (p q : Priority) : (p.compare q).swap = q.compare p := by
  unfold compare
  simp only [Ordering.swap_then, Nat.compare_swap]

theorem compare_ne_gt_iff {p q : Priority} : p.compare q ≠ .gt ↔ p.le q = true := by
  unfold le
  rw [Ordering.isLE_iff_ne_gt]

theorem compare_eq_lt_iff {p q : Priority} : p.compare q = .lt ↔ q.le p = false := by
  rw [← Bool.not_eq_true, ← compare_ne_gt_iff, ← compare_swap]
  cases q.compare p <;> decide

theorem compare_eq_iff {p q : Priority} : p.compare q = .eq ↔ p = q := by
  constructor
  · intro h
    have hpq : p.compare q ≠ .gt := by rw [h]; decide
    have hqp : q.compare p ≠ .gt := by rw [← compare_swap, h]; decide
    exact le_antisymm (compare_ne_gt_iff.mp hpq) (compare_ne_gt_iff.mp hqp)
  · rintro rfl
    unfold compare
    simp only [Nat.compare_eq_eq.mpr rfl, Ordering.then]

theorem compare_trans {p q r : Priority} (hpq : p.compare q ≠ .gt) (hqr : q.compare r ≠ .gt) :
    p.compare r ≠ .gt := by
  rw [compare_ne_gt_iff] at *
  exact le_trans p q r hpq hqr

/-- The order in which contributions are collected under one base class: scope by scope, fixed properties
before computed ones, and earlier rules before later ones. Weights have no part in it. -/
def Precedes (p q : Priority) : Prop :=
  p.origin.rank < q.origin.rank ∨ p.origin.rank = q.origin.rank ∧
    (p.kind.rank < q.kind.rank ∨ p.kind.rank = q.kind.rank ∧ p.order < q.order)

theorem Precedes.ne {p q : Priority} (h : p.Precedes q) : p ≠ q := by
  rintro rfl
  unfold Precedes at h
  omega

end Priority

/-! ## The contribution that decides -/

namespace Contribution

/-- The contribution decides a property: it sets it, nothing before it that sets it exceeds it, and
everything after it that sets it is below it. -/
def Decides (name : String) (cs : List Contribution) (w : Contribution) : Prop :=
  w.sets name = true ∧ ∃ before after, cs = before ++ w :: after ∧
    (∀ c ∈ before, c.sets name = true → c.priority.compare w.priority ≠ .gt) ∧
    (∀ c ∈ after, c.sets name = true → c.priority.compare w.priority = .lt)

variable {name : String} {cs : List Contribution}

theorem decides_of_winner? {w : Contribution} (h : winner? name cs = some w) : Decides name cs w := by
  obtain ⟨before, after, hcs, hset, hbefore, hafter⟩ := winner?_spec h
  refine ⟨hset, before, after, hcs, fun c hc hcset => ?_, fun c hc hcset => ?_⟩
  · exact Priority.compare_ne_gt_iff.mpr (hbefore c hc hcset)
  · exact Priority.compare_eq_lt_iff.mpr (hafter c hc hcset)

/-- One contribution at most decides a property. -/
theorem Decides.unique {v w : Contribution} (hv : Decides name cs v) (hw : Decides name cs w) :
    v = w := by
  obtain ⟨hvset, before, after, hcs, hbefore, hafter⟩ := hv
  obtain ⟨hwset, before', after', hcs', hbefore', hafter'⟩ := hw
  -- of two that stand at different places, the later one would be both below the other and not
  rw [hcs, List.append_eq_append_iff] at hcs'
  rcases hcs' with ⟨between, hbetween, hrest⟩ | ⟨between, hbetween, hrest⟩
  · cases between with
    | nil => exact (List.cons.inj hrest).1
    | cons u between =>
        obtain ⟨rfl, rfl⟩ := List.cons.inj hrest
        have hle := hbefore' v (by simp [hbetween]) hvset
        have hlt := hafter w (by simp) hwset
        rw [← Priority.compare_swap, hlt] at hle
        exact absurd rfl hle
  · cases between with
    | nil => exact (List.cons.inj hrest).1.symm
    | cons u between =>
        obtain ⟨rfl, rfl⟩ := List.cons.inj hrest
        have hle := hbefore w (by simp [hbetween]) hwset
        have hlt := hafter' v (by simp) hvset
        rw [← Priority.compare_swap, hlt] at hle
        exact absurd rfl hle

theorem winner?_eq_some_iff {w : Contribution} : winner? name cs = some w ↔ Decides name cs w := by
  refine ⟨decides_of_winner?, fun h => ?_⟩
  cases hcs : winner? name cs with
  | none =>
      obtain ⟨hset, before, after, rfl, _⟩ := h
      rw [winner?_eq_none_iff.mp hcs w (by simp)] at hset
      exact absurd hset (by simp)
  | some v => rw [(decides_of_winner? hcs).unique h]

theorem isSome_get?_mergeAll_iff (cs : List Contribution) (name : String) :
    ((mergeAll cs).get? name).isSome = true ↔ ∃ c ∈ cs, c.sets name = true := by
  rw [get?_mergeAll]
  constructor
  · intro h
    obtain ⟨v, hv⟩ := Option.isSome_iff_exists.mp h
    obtain ⟨w, hw, _⟩ := Option.bind_eq_some_iff.mp hv
    exact ⟨w, mem_of_winner? hw, (decides_of_winner? hw).1⟩
  · rintro ⟨c, hc, hset⟩
    cases hcs : winner? name cs with
    | none =>
        rw [winner?_eq_none_iff.mp hcs c hc] at hset
        exact absurd hset (by simp)
    | some w => exact (decides_of_winner? hcs).1

theorem get?_mergeAll_eq_some_iff (cs : List Contribution) (name : String) (v : Value) :
    (mergeAll cs).get? name = some v ↔
      ∃ w, Decides name cs w ∧ w.declaration.get? name = some v := by
  rw [get?_mergeAll, Option.bind_eq_some_iff]
  simp only [winner?_eq_some_iff]

theorem mergeAll_eq_of_perm {cs ds : List Contribution}
    (h : (cs.map Contribution.priority).Nodup) (hperm : cs.Perm ds) : mergeAll cs = mergeAll ds :=
  mergeAll_eq_of_mem_iff (fun _ => hperm.mem_iff) fun _ hc _ hd => List.inj_on_of_nodup_map h hc hd

end Contribution

/-! ## What a cascade can collect -/

variable {m : Type → Type}

/-- The priority of what a rule contributes, if it contributes anything. -/
def StampedRule.priority (origin : Origin) (kind : RuleKind) (s : StampedRule m) : Priority :=
  ⟨s.rule.weight, origin, kind, s.order⟩

/-- The priorities of what the rules of a scope under a base class can contribute. -/
def Layer.priorities (layer : Layer m) (base : String) : List Priority :=
  (layer.table.fixedUnder base).map (StampedRule.priority layer.origin .fixed) ++
    (layer.table.computedUnder base).map (StampedRule.priority layer.origin .computed)

section Collecting

variable [Monad m] [LawfulMonad m]

theorem StampedRule.satisfiesM_contribution? (origin : Origin) (kind : RuleKind) (n : Node)
    (s : StampedRule m) :
    SatisfiesM (fun found => ∀ c ∈ found, c.priority = s.priority origin kind)
      (s.contribution? origin kind n) := by
  unfold contribution?
  split
  · refine SatisfiesM.bind (SatisfiesM.trivial) fun found _ => SatisfiesM.pure ?_
    intro c hc
    obtain ⟨declaration, _, rfl⟩ := Option.map_eq_some_iff.mp hc
    rfl
  · exact SatisfiesM.pure fun c hc => absurd hc (by simp)

/-- What is collected from some rules has a part of their priorities, in their order. -/
theorem satisfiesM_collectM {α : Type} {action : α → m (Option Contribution)} {priority : α → Priority}
    (h : ∀ a, SatisfiesM (fun found => ∀ c ∈ found, c.priority = priority a) (action a))
    (l : List α) :
    SatisfiesM (fun cs => (cs.map Contribution.priority).Sublist (l.map priority))
      (collectM action l) := by
  induction l with
  | nil => exact SatisfiesM.pure (List.nil_sublist _)
  | cons a rest ih =>
      refine SatisfiesM.bind (h a) fun found hfound =>
        SatisfiesM.bind ih fun more hmore => SatisfiesM.pure ?_
      cases found with
      | none => exact hmore.cons _
      | some c =>
          rw [List.map_cons, ← hfound c rfl]
          exact hmore.cons_cons _

namespace Layer

theorem satisfiesM_contributions (layer : Layer m) (base : String) (n : Node) :
    SatisfiesM (fun cs => (cs.map Contribution.priority).Sublist (layer.priorities base))
      (layer.contributions base n) := by
  have hcollect := fun kind =>
    satisfiesM_collectM (StampedRule.satisfiesM_contribution? (m := m) layer.origin kind n)
  refine SatisfiesM.bind (hcollect .fixed _) fun fixed hfixed =>
    SatisfiesM.bind (hcollect .computed _) fun computed hcomputed => SatisfiesM.pure ?_
  rw [List.map_append]
  exact hfixed.append hcomputed

theorem satisfiesM_contributionsUnder (n : Node) (base : String) (layers : List (Layer m)) :
    SatisfiesM (fun cs => (cs.map Contribution.priority).Sublist
        (layers.flatMap fun layer => layer.priorities base))
      (contributionsUnder n base layers) := by
  induction layers with
  | nil => exact SatisfiesM.pure (List.nil_sublist _)
  | cons layer rest ih =>
      refine SatisfiesM.bind (layer.satisfiesM_contributions base n) fun found hfound =>
        SatisfiesM.bind ih fun more hmore => SatisfiesM.pure ?_
      rw [List.map_append, List.flatMap_cons]
      exact hfound.append hmore

theorem satisfiesM_contributionsUnderAll (layers : List (Layer m)) (n : Node) (bases : List String) :
    SatisfiesM (fun cs => (cs.map Contribution.priority).Sublist
        (bases.flatMap fun base => layers.flatMap fun layer => layer.priorities base))
      (contributionsUnderAll layers n bases) := by
  induction bases with
  | nil => exact SatisfiesM.pure (List.nil_sublist _)
  | cons base rest ih =>
      refine SatisfiesM.bind (satisfiesM_contributionsUnder n base layers) fun found hfound =>
        SatisfiesM.bind ih fun more hmore => SatisfiesM.pure ?_
      rw [List.map_append, List.flatMap_cons]
      exact hfound.append hmore

end Layer

end Collecting

/-! ## No priority is collected twice -/

namespace Layer

theorem origin_of_mem_priorities {layer : Layer m} {base : String} {p : Priority}
    (h : p ∈ layer.priorities base) : p.origin = layer.origin := by
  rcases List.mem_append.mp h with h | h <;> obtain ⟨s, _, rfl⟩ := List.mem_map.mp h <;> rfl

/-- The position in a priority is that of a rule with the base class. -/
theorem exists_stamped_of_mem_priorities {layer : Layer m} {rules : List (Rule m)}
    (h : layer.table.Holds rules) {base : String} {p : Priority} (hp : p ∈ layer.priorities base) :
    ∃ s ∈ RuleTable.stampFrom 0 rules, s.order = p.order ∧ s.rule.base = base := by
  have hfiled := RuleTable.filed_of_holds h
  unfold priorities at hp
  rw [hfiled.fixed, hfiled.computed, List.mem_append, List.mem_map, List.mem_map] at hp
  simp only [List.mem_filter, Bool.and_eq_true, beq_iff_eq] at hp
  rcases hp with ⟨s, ⟨hs, _, hbase⟩, rfl⟩ | ⟨s, ⟨hs, _, hbase⟩, rfl⟩
  · exact ⟨s, hs, rfl, hbase⟩
  · exact ⟨s, hs, rfl, hbase⟩

/-- Under two base classes a scope has no priority in common: a position belongs to one rule. -/
theorem disjoint_priorities {layer : Layer m} {rules : List (Rule m)} (h : layer.table.Holds rules)
    {base base' : String} (hne : base ≠ base') :
    (layer.priorities base).Disjoint (layer.priorities base') := by
  intro p hp hp'
  obtain ⟨s, hs, horder, hbase⟩ := exists_stamped_of_mem_priorities h hp
  obtain ⟨t, ht, horder', hbase'⟩ := exists_stamped_of_mem_priorities h hp'
  have hst : s = t := RuleTable.eq_of_order_eq hs ht (horder.trans horder'.symm)
  exact hne (by rw [← hbase, hst, hbase'])

theorem pairwise_map_priority (origin : Origin) (kind : RuleKind) (rules : List (Rule m))
    (p : StampedRule m → Bool) :
    (((RuleTable.stampFrom 0 rules).filter p).map (StampedRule.priority origin kind)).Pairwise
      Priority.Precedes := by
  rw [List.pairwise_map]
  exact ((RuleTable.stampFrom_increasing 0 rules).filter p).imp fun hlt => .inr ⟨rfl, .inr ⟨rfl, hlt⟩⟩

/-- The rules of a scope under a base class are collected in order. -/
theorem pairwise_priorities {layer : Layer m} {rules : List (Rule m)} (h : layer.table.Holds rules)
    (base : String) : (layer.priorities base).Pairwise Priority.Precedes := by
  have hfiled := RuleTable.filed_of_holds h
  unfold priorities
  rw [hfiled.fixed, hfiled.computed]
  refine List.pairwise_append.mpr ⟨pairwise_map_priority .., pairwise_map_priority .., ?_⟩
  -- all of the first list are of the lower kind
  intro p hp q hq
  obtain ⟨s, _, rfl⟩ := List.mem_map.mp hp
  obtain ⟨t, _, rfl⟩ := List.mem_map.mp hq
  exact .inr ⟨rfl, .inl Nat.zero_lt_one⟩

theorem nodup_priorities {layer : Layer m} {rules : List (Rule m)} (h : layer.table.Holds rules)
    (base : String) : (layer.priorities base).Nodup :=
  (pairwise_priorities h base).imp Priority.Precedes.ne

/-- Over scopes of different origins and over different base classes, every priority is there once. -/
theorem nodup_flatMap_priorities {layers : List (Layer m)}
    (horigins : layers.Pairwise fun a b => a.origin ≠ b.origin)
    (hholds : ∀ layer ∈ layers, ∃ rules, layer.table.Holds rules) {bases : List String}
    (hbases : bases.Nodup) :
    (bases.flatMap fun base => layers.flatMap fun layer => layer.priorities base).Nodup := by
  rw [List.nodup_flatMap]
  constructor
  · intro base _
    rw [List.nodup_flatMap]
    constructor
    · intro layer hlayer
      obtain ⟨rules, hrules⟩ := hholds layer hlayer
      exact nodup_priorities hrules base
    · refine horigins.imp fun hne p hp hp' => hne ?_
      rw [← origin_of_mem_priorities hp, ← origin_of_mem_priorities hp']
  · refine hbases.imp fun hne p hp hp' => ?_
    obtain ⟨layer, hlayer, hp⟩ := List.mem_flatMap.mp hp
    obtain ⟨layer', hlayer', hp'⟩ := List.mem_flatMap.mp hp'
    -- a priority names its scope, so both came from one scope
    have : Std.Symm fun a b : Layer m => a.origin ≠ b.origin := ⟨fun _ _ h => h.symm⟩
    have hsame : layer = layer' := by
      by_contra hlayers
      apply horigins.forall hlayer hlayer' hlayers
      rw [← origin_of_mem_priorities hp, ← origin_of_mem_priorities hp']
    obtain ⟨rules, hrules⟩ := hholds layer hlayer
    exact disjoint_priorities hrules hne hp (hsame ▸ hp')

end Layer

namespace View

theorem pairwise_origin_layers (view : View m) :
    view.layers.Pairwise fun a b => a.origin ≠ b.origin := by
  unfold layers
  cases view.localTable with
  | none => simp
  | some table => simp

/-- If no base class is asked for twice, no priority is collected twice. -/
theorem nodup_priority_contributionsUnderAll [Monad m] [LawfulMonad m] {view : View m}
    (hglobal : ∃ rules, view.globalTable.Holds rules)
    (hlocal : ∀ table, view.localTable = some table → ∃ rules, table.Holds rules)
    {bases : List String} (hbases : bases.Nodup) (n : Node) :
    SatisfiesM (fun cs => (cs.map Contribution.priority).Nodup)
      (Layer.contributionsUnderAll view.layers n bases) := by
  have hnodup := Layer.nodup_flatMap_priorities view.pairwise_origin_layers
    (forall_mem_layers hglobal hlocal) hbases
  exact (Layer.satisfiesM_contributionsUnderAll view.layers n bases).imp fun hsub =>
    hnodup.sublist hsub

end View

/-! ## The law -/

namespace Contribution

/-- A merge has a property exactly if some contribution declares it, with the value of the contribution
that decides it. Priorities are totally ordered, and level only if they are equal. Contributions of
distinct priorities can be merged in any order; and whatever its dynamic styles do, a view collects no
priority twice under base classes that are asked for once each. -/
theorem mergeAll_decided [Monad m] [LawfulMonad m] :
    (∀ (cs : List Contribution) (name : String),
      (((mergeAll cs).get? name).isSome = true ↔ ∃ c ∈ cs, c.sets name = true) ∧
      ∀ v, (mergeAll cs).get? name = some v ↔
        ∃ w, Decides name cs w ∧ w.declaration.get? name = some v) ∧
    (∀ p q : Priority, (p.compare q = .eq ↔ p = q) ∧ (p.compare q).swap = q.compare p) ∧
    (∀ p q r : Priority, p.compare q ≠ .gt → q.compare r ≠ .gt → p.compare r ≠ .gt) ∧
    (∀ cs ds : List Contribution, (cs.map Contribution.priority).Nodup → cs.Perm ds →
      mergeAll cs = mergeAll ds) ∧
    ∀ view : View m, (∃ rules, view.globalTable.Holds rules) →
      (∀ table, view.localTable = some table → ∃ rules, table.Holds rules) →
      ∀ (bases : List String) (n : Node), bases.Nodup →
        SatisfiesM (fun cs => (cs.map Contribution.priority).Nodup)
          (Layer.contributionsUnderAll view.layers n bases) := by
  refine ⟨fun cs name => ?_, fun p q => ?_, ?_, ?_, ?_⟩
  · exact ⟨isSome_get?_mergeAll_iff cs name, get?_mergeAll_eq_some_iff cs name⟩
  · exact ⟨Priority.compare_eq_iff, Priority.compare_swap p q⟩
  · intro p q r
    exact Priority.compare_trans
  · intro cs ds
    exact mergeAll_eq_of_perm
  · intro view hglobal hlocal bases n hbases
    exact View.nodup_priority_contributionsUnderAll hglobal hlocal hbases n

/-- Two scopes with a rule whose style counts its calls, twice in the global one: four contributions are
collected, of four priorities. -/
theorem mergeAll_decided_item :
    let counting : DynamicStyle (StateM Nat) := fun _ _ calls =>
      (some (Declaration.empty.set "color" (.text "blue")), calls + 1)
    let plain : Rule (StateM Nat) := ⟨⟨"*", "*", [], false⟩, [], .zero,
      .fixed (Declaration.empty.set "color" (.text "red"))⟩
    let item : Rule (StateM Nat) := ⟨⟨"item", "item", [], false⟩, [], .one, .computed counting⟩
    let view : View (StateM Nat) := ⟨(RuleTable.ofList [item, plain]).push item,
      some (RuleTable.ofList [item]), ⟨.initial, none⟩⟩
    let found := Layer.contributionsUnderAll view.layers (Node.ofClasses ["item"]) ["item", "*"]
    let low : Priority := ⟨.zero, .globalScope, .fixed, 1⟩
    let middle : Priority := ⟨.one, .globalScope, .computed, 2⟩
    let high : Priority := ⟨.one, .localScope, .computed, 0⟩
    SatisfiesM (fun cs => (cs.map Contribution.priority).Nodup) found ∧
      ((found.run 0).1.map Contribution.priority).length = 4 ∧ (found.run 0).2 = 3 ∧
      low.compare high ≠ .gt ∧
      mergeAll [⟨low, .empty⟩, ⟨middle, .empty⟩] = mergeAll [⟨middle, .empty⟩, ⟨low, .empty⟩] := by
  intro counting plain item view found low middle high
  obtain ⟨-, -, htrans, hperm, hcollected⟩ := mergeAll_decided (m := StateM Nat)
  refine ⟨hcollected view ?_ ?_ ["item", "*"] (Node.ofClasses ["item"]) (by decide), by decide +kernel,
    by decide +kernel, htrans low middle high (by decide) (by decide), ?_⟩
  · exact ⟨_, (RuleTable.holds_ofList [item, plain]).push item⟩
  · intro table htable
    obtain rfl := Option.some.inj htable
    exact ⟨_, RuleTable.holds_ofList [item]⟩
  · exact hperm _ _ (by decide) (.swap _ _ _)

end Contribution

end StyleCascade
