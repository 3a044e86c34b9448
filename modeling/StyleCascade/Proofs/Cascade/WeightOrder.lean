/-
# StyleCascade.Proofs.Cascade.WeightOrder — under one base class only weights need sorting

Contributions are sorted by weight, scope, kind and position. Under one base class they are collected in
the order of scope, kind and position already, since a table files its rules in the order of their
positions (`pairwise_priorities_layers`). Whichever rules apply and whatever dynamic styles decline, the
rest keeps that order. A stable sort by weight alone leaves contributions of one weight as they came, so it
gives the same sequence (`sort_eq_byWeight`), and a node gets for one base class what merging in ascending
order of weights gives (`resolves_by_weight`).

Over several base classes this fails: what is collected under a later class may have lower positions.
-/
import StyleCascade.Proofs.Cascade.Precedence
import StyleCascade.Proofs.Engine.Memoization
import StyleCascade.Proofs.StableSort

namespace StyleCascade

namespace Contribution

/-- The weight of the rule that contributed. -/
def weight (c : Contribution) : Nat :=
  c.priority.weight.value

/-- Merges contributions in ascending order of their weights; those of one weight stay in their order. -/
def mergeByWeight (cs : List Contribution) : Declaration :=
  (stableSort (fun c d => decide (c.weight ≤ d.weight)) cs).foldl
    (fun merged c => merged.merge c.declaration) .empty

/-- For a contribution that was collected before another one the weights decide. -/
theorem le_eq_of_precedes {c d : Contribution} (h : c.priority.Precedes d.priority) :
    c.priority.le d.priority = decide (c.weight ≤ d.weight) := by
  unfold Priority.Precedes at h
  rw [Bool.eq_iff_iff, Priority.le_iff, decide_eq_true_eq, weight, weight]
  omega

/-- Contributions in the order of collection are sorted by priority as they are by weight. -/
theorem sort_eq_byWeight {cs : List Contribution}
    (h : cs.Pairwise fun c d => c.priority.Precedes d.priority) :
    stableSort (fun c d => c.priority.le d.priority) cs =
      stableSort (fun c d => decide (c.weight ≤ d.weight)) cs :=
  stableSort_congr (h.imp le_eq_of_precedes)

theorem mergeAll_eq_mergeByWeight {cs : List Contribution}
    (h : cs.Pairwise fun c d => c.priority.Precedes d.priority) : mergeAll cs = mergeByWeight cs := by
  unfold mergeAll mergeByWeight
  rw [sort_eq_byWeight h]

end Contribution

/-! ## The order of collection -/

variable {m : Type → Type}

namespace View

variable {view : View m}

/-- Under one base class the scopes of a view offer their priorities in the order of collection. -/
theorem pairwise_priorities_layers (hglobal : ∃ rules, view.globalTable.Holds rules)
    (hlocal : ∀ table, view.localTable = some table → ∃ rules, table.Holds rules) (base : String) :
    (view.layers.flatMap fun layer => layer.priorities base).Pairwise Priority.Precedes := by
  have hlayer (layer : Layer m) (hmem : layer ∈ view.layers) :
      (layer.priorities base).Pairwise Priority.Precedes := by
    obtain ⟨rules, hrules⟩ := forall_mem_layers hglobal hlocal layer hmem
    exact Layer.pairwise_priorities hrules base
  have horigins : view.layers.Pairwise fun a b => a.origin.rank < b.origin.rank := by
    unfold layers
    cases view.localTable with
    | none => simp
    | some table => simp [Origin.rank]
  refine List.pairwise_flatMap.mpr ⟨hlayer, horigins.imp fun {a b} hlt p hp q hq => ?_⟩
  rw [← Layer.origin_of_mem_priorities hp, ← Layer.origin_of_mem_priorities hq] at hlt
  exact .inl hlt

section Collecting

variable [Monad m] [LawfulMonad m]

/-- Whatever dynamic styles do, contributions come in the order of collection. -/
theorem pairwise_contributionsUnder (hglobal : ∃ rules, view.globalTable.Holds rules)
    (hlocal : ∀ table, view.localTable = some table → ∃ rules, table.Holds rules) (base : String)
    (n : Node) :
    SatisfiesM (fun cs => cs.Pairwise fun c d => c.priority.Precedes d.priority)
      (Layer.contributionsUnder n base view.layers) := by
  refine (Layer.satisfiesM_contributionsUnder n base view.layers).imp fun hsub => ?_
  exact List.pairwise_map.mp ((pairwise_priorities_layers hglobal hlocal base).sublist hsub)

/-- Functions that agree on all that an action can give make the same of it. -/
theorem map_congr_of_satisfiesM {α β : Type} {p : α → Prop} {action : m α} (h : SatisfiesM p action)
    {f g : α → β} (hfg : ∀ a, p a → f a = g a) : f <$> action = g <$> action := by
  obtain ⟨checked, rfl⟩ := h
  rw [← comp_map, ← comp_map]
  congr 1
  funext a
  exact hfg a.1 a.2

theorem cascade_singleton (view : View m) (base : String) (n : Node) :
    view.cascade [base] n =
      Contribution.mergeAll <$> Layer.contributionsUnder n base view.layers := by
  unfold cascade Layer.cascade Layer.contributionsUnderAll Layer.contributionsUnderAll
  simp

theorem cascade_singleton_byWeight (hglobal : ∃ rules, view.globalTable.Holds rules)
    (hlocal : ∀ table, view.localTable = some table → ∃ rules, table.Holds rules) (base : String)
    (n : Node) :
    view.cascade [base] n =
      Contribution.mergeByWeight <$> Layer.contributionsUnder n base view.layers := by
  rw [cascade_singleton]
  exact map_congr_of_satisfiesM (pairwise_contributionsUnder hglobal hlocal base n)
    fun _ => Contribution.mergeAll_eq_mergeByWeight

end Collecting

end View

/-- A resolver answers for a base class with what merging by weight gives, remembered or not. -/
theorem Resolver.resolve_byWeight {reading : Node.Reading} {requested : Node → Prop} {store : Store Id}
    {r : Resolver} (h : r.Remembers requested store) (hstore : store.Sound reading)
    (hadmits : reading.Admits requested) (serial : Nat) (base : String) {n : Node} (hn : requested n) :
    (r.resolve store serial (some base) n).run.2.declaration =
      Contribution.mergeByWeight (Layer.contributionsUnder n base (store.view r.scope).layers).run := by
  have hview := Store.respects_view hstore r.scope
  have hglobal : ∃ rules, (store.view r.scope).globalTable.Holds rules := by
    obtain ⟨rules, hrules, _⟩ := hview.globalScope
    exact ⟨rules, hrules⟩
  have hlocal : ∀ table, (store.view r.scope).localTable = some table → ∃ rules, table.Holds rules := by
    intro table htable
    obtain ⟨rules, hrules, _⟩ := hview.localScope table htable
    exact ⟨rules, hrules⟩
  rw [(resolve_spec h hstore hadmits serial (some base) hn).2]
  exact congrArg Id.run (View.cascade_singleton_byWeight hglobal hlocal base n)

/-! ## The law -/

namespace View

/-- What is collected under one base class comes scope by scope, fixed properties before computed ones and
earlier rules before later ones, and sorted by priority it is the one stable sort of it by weight. So a
cascade for one base class merges in ascending order of weights, whatever monad its dynamic styles run in;
and where they are functions of the node, so does every answer of a resolver. -/
theorem resolves_by_weight :
    (∀ (m : Type → Type) [Monad m] [LawfulMonad m] (view : View m),
      (∃ rules, view.globalTable.Holds rules) →
      (∀ table, view.localTable = some table → ∃ rules, table.Holds rules) →
      ∀ (base : String) (n : Node),
        SatisfiesM (fun cs => (cs.Pairwise fun c d => c.priority.Precedes d.priority) ∧
            ∀ sorted, IsStableSort Contribution.weight cs sorted ↔
              sorted = stableSort (fun c d => c.priority.le d.priority) cs)
          (Layer.contributionsUnder n base view.layers) ∧
        view.cascade [base] n =
          Contribution.mergeByWeight <$> Layer.contributionsUnder n base view.layers) ∧
    ∀ (reading : Node.Reading) (requested : Node → Prop), reading.Admits requested →
      ∀ (capacity : Nat) (operations later : List Engine.Operation),
        (∀ op ∈ operations ++ later, op.Respects reading requested) →
        ∀ (id : SubscriptionId) (scope : Option String),
          (Engine.run { capacity := capacity } operations).HasResolver id scope →
          .dropResolver id ∉ later →
          let engine := Engine.run { capacity := capacity } (operations ++ later)
          ∀ (base : String) (n : Node), requested n →
            ∃ answer, (engine.resolve id (some base) n).run.2 = some answer ∧
              answer.declaration = Contribution.mergeByWeight
                (Layer.contributionsUnder n base (engine.store.view scope).layers).run := by
  refine ⟨fun m _ _ view hglobal hlocal base n => ⟨?_, ?_⟩, ?_⟩
  · refine (pairwise_contributionsUnder hglobal hlocal base n).imp fun {cs} hcs => ⟨hcs, fun sorted => ?_⟩
    rw [isStableSort_iff, Contribution.sort_eq_byWeight hcs]
  · exact cascade_singleton_byWeight hglobal hlocal base n
  · intro reading requested hadmits capacity operations later hops id scope hmade hkept engine base n hn
    have hsound := Engine.sound_run (Engine.sound_empty capacity) hadmits hops
    obtain ⟨r, hr, rfl⟩ : engine.HasResolver id scope := by
      show (Engine.run _ (operations ++ later)).HasResolver id scope
      rw [Engine.run_append]
      exact Engine.hasResolver_run hmade hkept
    obtain ⟨computed, hresolve⟩ := Engine.resolve_of_resolver? hr (some base) n
    refine ⟨_, by rw [hresolve], ?_⟩
    exact Resolver.resolve_byWeight (Engine.remembers_of_resolver? hsound hr) hsound.store hadmits _ base hn

/-- A heavy rule with fixed properties before a light one whose style counts its calls, and another light
one in the local scope: the order by weight is not that of collection. And a resolver that answers from a
scope registered under a name after a global registration. -/
theorem resolves_by_weight_item :
    let counting : DynamicStyle (StateM Nat) := fun _ _ calls =>
      (some (Declaration.empty.set "color" (.text "green")), calls + 1)
    let heavy : Rule (StateM Nat) := ⟨⟨"item", "item", [], false⟩, [], .one + .one,
      .fixed (Declaration.empty.set "color" (.text "blue"))⟩
    let light : Rule (StateM Nat) := ⟨⟨"item", "item", [], false⟩, [], .one, .computed counting⟩
    let view : View (StateM Nat) := ⟨.ofList [heavy, light], some (.ofList [light]), ⟨.initial, none⟩⟩
    let n := Node.ofClasses ["item"]
    let found := Layer.contributionsUnder n "item" view.layers
    let style : DynamicStyle Id := fun _ _ => some (Declaration.empty.set "gap" (.text "4"))
    let later : List Engine.Operation := [.registerGlobal [("item", .dynamic style)],
      .resolve ⟨0⟩ (some "item") n, .registerLocal "menu" [("item", .dynamic style)]]
    let engine := Engine.run { capacity := 1 } ([.createResolver (some "menu") 1] ++ later)
    SatisfiesM (fun cs => (cs.Pairwise fun c d => c.priority.Precedes d.priority) ∧
        ∀ sorted, IsStableSort Contribution.weight cs sorted ↔
          sorted = stableSort (fun c d => c.priority.le d.priority) cs) found ∧
      view.cascade ["item"] n = Contribution.mergeByWeight <$> found ∧
      ((view.cascade ["item"] n).run 0).1.get? "color" = some (.text "blue") ∧
      ((found.run 0).1.map Contribution.weight = [2, 1, 1]) ∧ (found.run 0).2 = 2 ∧
      ∃ answer, (engine.resolve ⟨0⟩ (some "item") n).run.2 = some answer ∧
        answer.declaration = Contribution.mergeByWeight
          (Layer.contributionsUnder n "item" (engine.store.view (some "menu")).layers).run := by
  intro counting heavy light view n found style later engine
  obtain ⟨hview, hengine⟩ := resolves_by_weight
  obtain ⟨hsorted, hcascade⟩ := hview (StateM Nat) view ⟨_, RuleTable.holds_ofList _⟩
    (fun table htable => ⟨_, Option.some.inj htable ▸ RuleTable.holds_ofList [light]⟩) "item" n
  refine ⟨hsorted, hcascade, by decide +kernel, by decide +kernel, by decide +kernel, ?_⟩
  -- the node stands alone and goes by no identity, so its key says all of it
  have hadmits : Node.Reading.exact.Admits (· = n) := by
    refine ⟨by rintro _ rfl; rfl, fun a b ha _ hidentity _ _ => ?_⟩
    rw [Node.requested_of_within (by rintro _ rfl; exact ⟨rfl, rfl⟩) ha] at hidentity
    exact absurd hidentity (by decide)
  have hsheet : Sheet.Respects Node.Reading.exact [("item", .dynamic style)] := by
    intro vars r hr
    have hsegments : Key.segments ['i', 't', 'e', 'm'] = [['i', 't', 'e', 'm']] := by decide +kernel
    have hexpand : Sheet.expand [("item", .dynamic style)] = [("item", Style.dynamic style)] := by
      simp [Sheet.expand, Sheet.resolve, Style.resolve, Style.isValue, Key.resolve, Level.push,
        Sheet.ofPlaced, Sheet.place, Sheet.mergeAt, Sheet.nest, Style.over, Keyed.update, hsegments]
    rw [hexpand] at hr
    obtain rfl := List.mem_singleton.mp hr
    apply Rule.respects_exact
    intro f hf index m
    obtain rfl := RuleStyle.computed.inj hf
    rfl
  have hops : ∀ op ∈ [.createResolver (some "menu") 1] ++ later,
      op.Respects Node.Reading.exact (· = n) := by
    simp only [later, List.cons_append, List.nil_append, List.forall_mem_cons]
    exact ⟨trivial, hsheet, rfl, hsheet, fun _ h => absurd h List.not_mem_nil⟩
  exact hengine _ _ hadmits 1 [.createResolver (some "menu") 1] later hops ⟨0⟩ (some "menu")
    ⟨_, rfl, rfl⟩ (by simp [later]) "item" n rfl

end View

end StyleCascade
