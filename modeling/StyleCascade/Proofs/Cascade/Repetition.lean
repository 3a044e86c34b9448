/-
# StyleCascade.Proofs.Cascade.Repetition — rules that a scope was given twice in a row

Rules that are given to a local scope again right away stand in its table twice: a first copy where they
were, and a second one at the end. The position of a rule in the second copy is higher, so a second copy
may stand above rules that the first one stood below. These are rules given with it, and their second
copies have moved on just as far: `later` takes every position to the last one at which the rule now
stands, and it keeps the order.

So a cascade collects what it collected without the repetition, and the same once more renumbered
(`View.mem_contributions_repeated`). What is collected under an old number is outdone by what is collected
for the same rule under the new one, and a merge sees neither what is outdone nor a renumbering
(`View.cascade_repeated`).
-/
import StyleCascade.Proofs.Cascade.Completeness
import StyleCascade.Proofs.Cascade.Deletion

namespace StyleCascade

/-! ## Positions of the second copy -/

namespace RuleTable

/-- The last position at which a rule stands once all but the first `kept` rules, `repeated` in number, are
given again. -/
def later (kept repeated position : Nat) : Nat :=
  if position < kept then position else position + repeated

theorem strictMono_later (kept repeated : Nat) : StrictMono (later kept repeated) := by
  intro i j hlt
  unfold later
  split <;> split <;> omega

theorem le_later (kept repeated position : Nat) : position ≤ later kept repeated position := by
  unfold later
  split <;> omega

variable {m : Type → Type}

theorem stampFrom_add (start distance : Nat) (rules : List (Rule m)) :
    stampFrom (start + distance) rules =
      (stampFrom start rules).map (StampedRule.moveTo (· + distance)) := by
  induction rules generalizing start with
  | nil => rfl
  | cons r rest ih =>
      rw [stampFrom, stampFrom, List.map_cons, ← ih, Nat.add_right_comm]
      rfl

theorem order_lt_of_mem_stampFrom {start : Nat} {rules : List (Rule m)} {s : StampedRule m}
    (h : s ∈ stampFrom start rules) : s.order < start + rules.length := by
  have horder : s.order ∈ (stampFrom start rules).map fun s => s.order := List.mem_map_of_mem h
  rw [map_order_stampFrom, List.mem_range'_1] at horder
  exact horder.2

theorem map_moveTo_congr {position : Nat → Nat} (position' : Nat → Nat) {l : List (StampedRule m)}
    (h : ∀ s ∈ l, position s.order = position' s.order) :
    l.map (StampedRule.moveTo position) = l.map (StampedRule.moveTo position') := by
  refine List.map_congr_left fun s hs => ?_
  unfold StampedRule.moveTo
  rw [h s hs]

/-- Moved to where they stand last, the rules are the kept ones where they were and the second copy. -/
theorem map_later_stampFrom (old new : List (Rule m)) :
    (stampFrom 0 (old ++ new)).map (StampedRule.moveTo (later old.length new.length)) =
      stampFrom 0 old ++ stampFrom (old.length + new.length) new := by
  have hold : (stampFrom 0 old).map (StampedRule.moveTo (later old.length new.length)) =
      stampFrom 0 old := by
    rw [map_moveTo_congr id fun s hs => ?_]
    · exact List.map_id _
    · have hlt := order_lt_of_mem_stampFrom hs
      exact if_pos (by omega)
  have hnew : (stampFrom old.length new).map (StampedRule.moveTo (later old.length new.length)) =
      stampFrom (old.length + new.length) new := by
    rw [stampFrom_add, map_moveTo_congr (· + new.length) fun s hs => ?_]
    have hle := le_order_of_mem_stampFrom hs
    exact if_neg (by omega)
  rw [stampFrom_append, List.map_append, Nat.zero_add, hold, hnew]

/-- After the repetition every rule stands where it stood and where it stands last, and nowhere else. -/
theorem mem_stampFrom_repeated (old new : List (Rule m)) (s : StampedRule m) :
    s ∈ stampFrom 0 (old ++ (new ++ new)) ↔ s ∈ stampFrom 0 (old ++ new) ∨
      ∃ t ∈ stampFrom 0 (old ++ new), t.moveTo (later old.length new.length) = s := by
  rw [← List.mem_map, map_later_stampFrom, stampFrom_append, stampFrom_append, stampFrom_append]
  simp only [List.mem_append, Nat.zero_add]
  tauto

end RuleTable

/-! ## What is collected a second time -/

namespace Contribution

theorem renumber_of_ne {origin : Origin} (position : Nat → Nat) {c : Contribution}
    (h : c.priority.origin ≠ origin) : c.renumber origin position = c := by
  unfold renumber
  rw [if_neg h]

/-- A contribution that is moved to a higher position does not lose to itself. -/
theorem le_renumber_self (origin : Origin) {position : Nat → Nat} (h : ∀ i, i ≤ position i)
    (c : Contribution) : c.priority.le (c.renumber origin position).priority = true := by
  rw [Priority.le_iff]
  unfold renumber
  split
  · exact .inr ⟨rfl, .inr ⟨rfl, .inr ⟨rfl, h _⟩⟩⟩
  · exact .inr ⟨rfl, .inr ⟨rfl, .inr ⟨rfl, Nat.le_refl _⟩⟩⟩

end Contribution

theorem StampedRule.offer?_moveTo (origin : Origin) (n : Node) (position : Nat → Nat)
    (s : StampedRule Id) : (s.moveTo position).offer? origin n =
      (s.offer? origin n).map (Contribution.renumber origin position) := by
  rw [← contribution?_eq_offer? origin n s _ rfl, ← contribution?_eq_offer? origin n _ _ rfl]
  exact congrArg Id.run (contribution?_moveTo origin s.rule.kind n position s)

namespace View

variable {view again : View Id} {globalRules old new : List (Rule Id)}

/-- With the rules that the local scope was given last there a second time, a cascade collects what it
collected before, and all of that once more as if every rule stood where it stands last. -/
theorem mem_contributions_repeated (h : view.Holds globalRules (old ++ new))
    (hagain : again.Holds globalRules (old ++ (new ++ new))) (bases : List String) (n : Node)
    (c : Contribution) :
    c ∈ (Layer.contributionsUnderAll again.layers n bases).run ↔
      c ∈ (Layer.contributionsUnderAll view.layers n bases).run ∨
      c ∈ ((Layer.contributionsUnderAll view.layers n bases).run).map
        (Contribution.renumber .localScope (RuleTable.later old.length new.length)) := by
  rw [mem_contributions hagain, mem_contributions h, List.mem_map]
  simp only [mem_contributions h, RuleTable.mem_stampFrom_repeated]
  constructor
  · rintro (hglobal | ⟨s, hs | ⟨t, ht, rfl⟩, hbase, hoffer⟩)
    · exact .inl (.inl hglobal)
    · exact .inl (.inr ⟨s, hs, hbase, hoffer⟩)
    · -- a second copy offers what the rule offered where it was
      rw [StampedRule.offer?_moveTo] at hoffer
      obtain ⟨d, hd, rfl⟩ := Option.map_eq_some_iff.mp hoffer
      exact .inr ⟨d, .inr ⟨t, ht, hbase, hd⟩, rfl⟩
  · rintro ((hglobal | ⟨s, hs, hbase, hoffer⟩) | ⟨d, ⟨s, hs, hbase, hoffer⟩ | ⟨s, hs, hbase, hoffer⟩, rfl⟩)
    · exact .inl hglobal
    · exact .inr ⟨s, .inl hs, hbase, hoffer⟩
    · -- the global rules keep their numbers
      have horigin : d.priority.origin ≠ .localScope := by
        rw [StampedRule.priority_of_offer? hoffer]
        show Origin.globalScope ≠ .localScope
        decide
      rw [Contribution.renumber_of_ne _ horigin]
      exact .inl ⟨s, hs, hbase, hoffer⟩
    · refine .inr ⟨s.moveTo _, .inr ⟨s, hs, rfl⟩, hbase, ?_⟩
      rw [StampedRule.offer?_moveTo, hoffer]
      rfl

/-- A cascade does not see that the rules a local scope was given last are there a second time. -/
theorem cascade_repeated (h : view.Holds globalRules (old ++ new))
    (hagain : again.Holds globalRules (old ++ (new ++ new))) (bases : List String) (n : Node) :
    (again.cascade bases n).run = (view.cascade bases n).run := by
  have hmem := mem_contributions_repeated h hagain bases n
  have hrenumbered : Contribution.mergeAll ((Layer.contributionsUnderAll view.layers n bases).run.map
      (Contribution.renumber .localScope (RuleTable.later old.length new.length))) =
      (view.cascade bases n).run :=
    Contribution.mergeAll_renumber (RuleTable.strictMono_later old.length new.length) _
  show Contribution.mergeAll (Layer.contributionsUnderAll again.layers n bases).run = _
  rw [← hrenumbered]
  symm
  refine Contribution.mergeAll_eq_of_outdone (fun c hc => (hmem c).mpr (.inr hc)) (fun d hd => ?_)
    fun c hc d hd hprio => ?_
  · rcases (hmem d).mp hd with hd | hd
    · -- what was there before is outdone by its own second copy
      exact ⟨_, List.mem_map_of_mem hd, Contribution.declaration_renumber _ _ d,
        Contribution.le_renumber_self _ (RuleTable.le_later _ _) d⟩
    · exact ⟨d, hd, rfl, Priority.le_refl _⟩
  · exact Contribution.eq_of_mem_offers_append (mem_offers_of_mem_contributions hagain hc)
      (mem_offers_of_mem_contributions hagain hd) hprio

end View

end StyleCascade
