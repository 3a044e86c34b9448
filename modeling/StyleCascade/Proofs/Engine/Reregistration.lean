/-
# StyleCascade.Proofs.Engine.Reregistration — registering a local sheet again changes nothing

Registering a sheet under a name once more appends its rules once more, and the table then holds each of
them twice (`View.holds_registerLocal`). What resolvers say stays the same (`registerLocal_twice`).

A resolver of another scope sees neither registration. A resolver of this scope has to compute its answers
after either of them, since what it remembers is of generations before (`upto_of_mem_answers`): after one
registration from the rules, after two from the rules with the last ones repeated, and to a cascade that is
the same (`View.cascade_repeated`).
-/
import StyleCascade.Proofs.Cascade.Repetition
import StyleCascade.Proofs.Engine.Memoization
import StyleCascade.Proofs.Engine.Retention

namespace StyleCascade

/-! ## Stores that grew by registrations -/

/-- What an operation can do to a store. -/
inductive StoreStep (store : Store Id) : Store Id → Prop
  | bound (bindings : Variables) : StoreStep store { store with bindings := bindings }
  | registerGlobal (sheet : Sheet Id) : StoreStep store (store.registerGlobal sheet)
  | registerLocal (name : String) (sheet : Sheet Id) :
      StoreStep store (store.registerLocal name sheet)

theorem Engine.storeStep_perform (engine : Engine Id) (operation : Operation) :
    StoreStep engine.store (engine.perform operation).store := by
  have heffect := effect_perform engine operation
  generalize engine.perform operation = changed at heffect
  cases heffect with
  | bound bindings => exact .bound bindings
  | registerGlobal sheet => exact .registerGlobal sheet
  | registerLocal name sheet => exact .registerLocal name sheet
  | createLocal name sheet => exact .registerLocal name sheet
  | _ => exact .bound engine.store.bindings

/-- The tables of a store were filled by pushes and appends, and its scopes were changed in the past. -/
structure Store.Grown (store : Store Id) : Prop where
  globalRules : ∃ rules, store.globalScope.table.Holds rules
  localRules : ∀ name s, store.localScopes.lookup name = some s → ∃ rules, s.table.Holds rules
  globalPast : store.globalScope.generation.ordinal ≤ store.generation.ordinal
  localPast : ∀ name s, store.localScopes.lookup name = some s →
    s.generation.ordinal ≤ store.generation.ordinal

theorem RuleTable.holds_ofSheet (vars : Variables) (sheet : Sheet Id) :
    (RuleTable.ofSheet vars sheet).Holds (Sheet.rules vars sheet.expand) :=
  holds_ofList _

namespace Store

variable {store : Store Id}

theorem grown_empty : Grown {} :=
  ⟨⟨[], .empty⟩, fun _ _ h => absurd h (by simp), Nat.le_refl _, fun _ _ h => absurd h (by simp)⟩

theorem grown_registerLocal (h : store.Grown) (name : String) (sheet : Sheet Id) :
    (store.registerLocal name sheet).Grown := by
  refine ⟨h.globalRules, ?_, Nat.le_succ_of_le h.globalPast, ?_⟩
  · intro other s hs
    rw [lookup_registerLocal] at hs
    split at hs
    · obtain rfl := Option.some.inj hs
      cases hpresent : store.localScopes.lookup name with
      | none => exact ⟨_, .append .empty (RuleTable.holds_ofSheet store.bindings sheet)⟩
      | some present =>
          obtain ⟨rules, hrules⟩ := h.localRules name present hpresent
          exact ⟨_, .append hrules (RuleTable.holds_ofSheet store.bindings sheet)⟩
    · exact h.localRules other s hs
  · intro other s hs
    rw [lookup_registerLocal] at hs
    split at hs
    · obtain rfl := Option.some.inj hs
      exact Nat.le_refl _
    · exact Nat.le_succ_of_le (h.localPast other s hs)

theorem grown_step {after : Store Id} (h : store.Grown) (hstep : StoreStep store after) :
    after.Grown ∧ store.generation.ordinal ≤ after.generation.ordinal := by
  cases hstep with
  | bound bindings => exact ⟨⟨h.globalRules, h.localRules, h.globalPast, h.localPast⟩, Nat.le_refl _⟩
  | registerGlobal sheet =>
      refine ⟨⟨⟨_, RuleTable.holds_ofSheet store.bindings sheet⟩, h.localRules, Nat.le_refl _, ?_⟩,
        Nat.le_succ _⟩
      exact fun name s hs => Nat.le_succ_of_le (h.localPast name s hs)
  | registerLocal name sheet => exact ⟨grown_registerLocal h name sheet, Nat.le_succ _⟩

theorem grown_run {engine : Engine Id} (h : engine.store.Grown) (operations : List Engine.Operation) :
    (engine.run operations).store.Grown ∧
      engine.store.generation.ordinal ≤ (engine.run operations).store.generation.ordinal := by
  induction operations generalizing engine with
  | nil => exact ⟨h, Nat.le_refl _⟩
  | cons operation rest ih =>
      obtain ⟨hgrown, hle⟩ := grown_step h (Engine.storeStep_perform engine operation)
      exact ⟨(ih hgrown).1, Nat.le_trans hle (ih hgrown).2⟩

/-- The rules of a view of a store that grew. -/
theorem exists_holds_view (h : store.Grown) (scope : Option String) :
    ∃ globalRules localRules, (store.view scope).Holds globalRules localRules := by
  obtain ⟨globalRules, hglobal⟩ := h.globalRules
  cases hlocal : (store.view scope).localTable with
  | none =>
      exact ⟨globalRules, [], hglobal, fun table htable => absurd (hlocal.symm.trans htable) nofun,
        fun _ => rfl⟩
  | some table =>
      obtain ⟨s, hs, rfl⟩ := Option.map_eq_some_iff.mp hlocal
      obtain ⟨name, _, hname⟩ := Option.bind_eq_some_iff.mp hs
      obtain ⟨localRules, hrules⟩ := h.localRules name s hname
      refine ⟨globalRules, localRules, hglobal, fun found hfound => ?_, fun hnone => ?_⟩
      · rw [hlocal] at hfound
        rw [← Option.some.inj hfound]
        exact hrules
      · exact absurd (hlocal.symm.trans hnone) nofun

theorem localTable_registerLocal (store : Store Id) (name : String) (sheet : Sheet Id) :
    ((store.registerLocal name sheet).view (some name)).localTable =
      some (((store.view (some name)).localTable.getD {}).append (.ofSheet store.bindings sheet)) := by
  show ((store.registerLocal name sheet).localScopes.lookup name).map Scope.table =
    some ((((store.localScopes.lookup name).map Scope.table).getD {}).append _)
  rw [lookup_registerLocal, if_pos rfl]
  cases store.localScopes.lookup name <;> rfl

end Store

/-- A local registration puts the rules of its sheet behind those of the scope. -/
theorem View.holds_registerLocal {store : Store Id} {name : String} {globalRules localRules : List (Rule Id)}
    (h : (store.view (some name)).Holds globalRules localRules) (sheet : Sheet Id) :
    ((store.registerLocal name sheet).view (some name)).Holds globalRules
      (localRules ++ Sheet.rules store.bindings sheet.expand) := by
  have hpresent : ((store.view (some name)).localTable.getD {}).Holds localRules := by
    cases hlocal : (store.view (some name)).localTable with
    | none =>
        rw [h.noLocalScope hlocal]
        exact .empty
    | some table => exact h.localScope table hlocal
  have hlocal := Store.localTable_registerLocal store name sheet
  refine ⟨h.globalScope, fun table htable => ?_, fun hnone => ?_⟩
  · rw [hlocal] at htable
    rw [← Option.some.inj htable]
    exact hpresent.append (RuleTable.holds_ofSheet store.bindings sheet)
  · rw [hlocal] at hnone
    exact absurd hnone nofun

theorem Store.map_toList_registerLocal {store : Store Id} (h : store.Grown) (name : String)
    (sheet : Sheet Id) :
    ((store.registerLocal name sheet).view (some name)).localTable.map RuleTable.toList =
      some (((store.view (some name)).localTable.map RuleTable.toList).getD [] ++
        Sheet.rules store.bindings sheet.expand) := by
  obtain ⟨globalRules, localRules, hholds⟩ := exists_holds_view h (some name)
  have hold : ((store.view (some name)).localTable.map RuleTable.toList).getD [] = localRules := by
    cases hlocal : (store.view (some name)).localTable with
    | none => exact (hholds.noLocalScope hlocal).symm
    | some table => exact RuleTable.toList_of_holds (hholds.localScope table hlocal)
  have hlocal := localTable_registerLocal store name sheet
  rw [hold, hlocal, Option.map_some]
  exact congrArg some
    (RuleTable.toList_of_holds ((View.holds_registerLocal hholds sheet).localScope _ hlocal))

/-- The second of two equal registrations changes no cascade. -/
theorem Store.cascade_registerLocal_twice {store : Store Id} (h : store.Grown) (name : String)
    (sheet : Sheet Id) (scope : Option String) (bases : List String) (n : Node) :
    ((((store.registerLocal name sheet).registerLocal name sheet).view scope).cascade bases n).run =
      (((store.registerLocal name sheet).view scope).cascade bases n).run := by
  by_cases hscope : scope = some name
  · rw [hscope]
    obtain ⟨globalRules, localRules, hholds⟩ := exists_holds_view h (some name)
    have honce := View.holds_registerLocal hholds sheet
    have htwice := View.holds_registerLocal honce sheet
    rw [List.append_assoc] at htwice
    exact View.cascade_repeated honce htwice bases n
  · rw [view_registerLocal_of_ne hscope]

/-! ## Resolvers after a registration -/

namespace Engine

variable {engine : Engine Id} {id : SubscriptionId} {operation : Operation} {operations : List Operation}
  {capacity : Nat} {e : Request × Answer} {r r' : Resolver}

theorem grown_run (capacity : Nat) (operations : List Operation) :
    (run { capacity := capacity } operations).store.Grown :=
  (Store.grown_run Store.grown_empty operations).1

/-- What is remembered was computed from scopes as they were in the past. -/
theorem upto_of_mem_answers (h : (run { capacity := capacity } operations).resolver? id = some r)
    (he : e ∈ r.memo.answers) :
    e.1.generation.Upto (run { capacity := capacity } operations).store.generation := by
  obtain ⟨before, operation, after, rfl, found, base, n, _, rfl, _, hrequest, _⟩ :=
    exists_computes_of_mem h he
  have hgrown := grown_run capacity before
  rw [hrequest, run_append]
  exact (Store.upto_view_of_past hgrown.globalPast hgrown.localPast found.scope).mono
    (Store.grown_run hgrown _).2

section Registered

variable {name : String} {sheet : Sheet Id}

theorem resolver?_registerLocal_of_none (h : engine.resolver? id = none) :
    (engine.registerLocal name sheet).resolver? id = none := by
  unfold registerLocal
  rw [resolver?_publish, Option.map_eq_none_iff]
  exact h

/-- A local registration adds nothing to what a resolver remembers. -/
theorem exists_resolver_registerLocal (h : engine.resolver? id = some r) (name : String)
    (sheet : Sheet Id) :
    ∃ r', (engine.registerLocal name sheet).resolver? id = some r' ∧ r'.scope = r.scope ∧
      ∀ e ∈ r'.memo.answers, e ∈ r.memo.answers := by
  have hkeep : Operation.registerLocal name sheet ≠ .dropResolver id := nofun
  obtain ⟨r', hr', hfares⟩ := exists_fares h hkeep
  refine ⟨r', hr', hfares.kept.1, fun e he => ?_⟩
  cases hfares with
  | heeds _ =>
      unfold Resolver.heed at he
      split at he
      · exact absurd he List.not_mem_nil
      · exact he
  | stays _ _ => exact he

/-- A resolver of another scope gives the very answer it would have given. -/
theorem answer_resolve_of_other_scope (h : engine.resolver? id = some r) (hscope : r.scope ≠ some name)
    (base : Option String) (n : Node) :
    ((engine.registerLocal name sheet).resolve id base n).run.2 =
      (engine.resolve id base n).run.2 := by
  have hevent : (Operation.registerLocal name sheet).event? = some (.localChanged name) := rfl
  have hsame : (engine.registerLocal name sheet).resolver? id = some r :=
    resolver?_of_other_scope h hscope hevent
  rw [answer_resolve hsame, answer_resolve h]
  show some (r.resolve (engine.store.registerLocal name sheet) engine.computed base n).run.2 = _
  unfold Resolver.resolve
  rw [Store.view_registerLocal_of_ne hscope]

/-- A resolver that remembers only the past computes what it says of a scope that was just registered. -/
theorem declaration_resolve_registerLocal (h : (engine.registerLocal name sheet).resolver? id = some r)
    (hscope : r.scope = some name)
    (hpast : ∀ e ∈ r.memo.answers, e.1.generation.Upto engine.store.generation)
    (base : Option String) (n : Node) :
    ((engine.registerLocal name sheet).resolve id base n).run.2.map Answer.declaration =
      some (((engine.store.registerLocal name sheet).view (some name)).cascade
        (Resolver.requestedBases base n) n).run := by
  have hmisses : r.Misses (engine.store.registerLocal name sheet) base n := by
    cases hget : r.memo.get? (r.request (engine.store.registerLocal name sheet) base n) with
    | none => exact hget
    | some answer =>
        have hupto := hpast _ (Memo.mem_of_get? hget)
        unfold Resolver.request at hupto
        rw [hscope] at hupto
        exact absurd hupto (Store.not_upto_view_registerLocal name sheet)
  rw [answer_resolve h]
  show some (r.resolve (engine.store.registerLocal name sheet) _ base n).run.2.declaration = _
  rw [Resolver.resolve_of_misses hmisses, hscope]

end Registered

/-- Registering a sheet under a name twice in a row puts its rules into the table twice, and this is all
that it does: every cascade gives what it gives after one registration, and every resolver says the same,
whatever it remembers and whether or not it is subscribed. -/
theorem registerLocal_twice (capacity : Nat) (operations : List Operation) (name : String)
    (sheet : Sheet Id) :
    let engine := run { capacity := capacity } operations
    let once := engine.registerLocal name sheet
    let twice := once.registerLocal name sheet
    let rules := Sheet.rules engine.store.bindings sheet.expand
    let old := ((engine.store.view (some name)).localTable.map RuleTable.toList).getD []
    (once.store.view (some name)).localTable.map RuleTable.toList = some (old ++ rules) ∧
      (twice.store.view (some name)).localTable.map RuleTable.toList = some (old ++ rules ++ rules) ∧
      (∀ scope bases n, ((twice.store.view scope).cascade bases n).run =
        ((once.store.view scope).cascade bases n).run) ∧
      ∀ id base n, (twice.resolve id base n).run.2.map Answer.declaration =
        (once.resolve id base n).run.2.map Answer.declaration := by
  intro engine once twice rules old
  have hgrown : engine.store.Grown := grown_run capacity operations
  have honce := Store.map_toList_registerLocal hgrown name sheet
  have htwice := Store.map_toList_registerLocal (Store.grown_registerLocal hgrown name sheet) name sheet
  have hcascade := Store.cascade_registerLocal_twice hgrown name sheet
  rw [honce, Option.getD_some] at htwice
  refine ⟨honce, htwice, hcascade, fun id base n => ?_⟩
  cases hr : engine.resolver? id with
  | none =>
      have hnone : once.resolver? id = none := resolver?_registerLocal_of_none hr
      rw [resolve_of_none hnone, resolve_of_none (resolver?_registerLocal_of_none hnone)]
  | some r =>
      obtain ⟨first, hfirst, hscope, hkept⟩ := exists_resolver_registerLocal hr name sheet
      by_cases hname : r.scope = some name
      · -- what it remembers is of generations before either registration
        obtain ⟨second, hsecond, hscope', hkept'⟩ := exists_resolver_registerLocal hfirst name sheet
        have hpast : ∀ e ∈ first.memo.answers, e.1.generation.Upto engine.store.generation :=
          fun e he => upto_of_mem_answers hr (hkept e he)
        have hpast' : ∀ e ∈ second.memo.answers, e.1.generation.Upto once.store.generation :=
          fun e he => (hpast e (hkept' e he)).mono (Nat.le_succ _)
        rw [declaration_resolve_registerLocal hfirst (hscope.trans hname) hpast,
          declaration_resolve_registerLocal hsecond (hscope'.trans (hscope.trans hname)) hpast']
        exact congrArg some (hcascade (some name) (Resolver.requestedBases base n) n)
      · rw [answer_resolve_of_other_scope hfirst (hscope ▸ hname)]

end Engine

end StyleCascade
