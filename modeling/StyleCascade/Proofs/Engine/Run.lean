/-
# StyleCascade.Proofs.Engine.Run — engines over time

An engine changes by operations, one after the other. A registration that fails changes nothing, so all
operations together can do no more to an engine than `Effect` lists. What an operation makes of the resolver
that goes by a number can be told from that resolver alone (`resolver?_publish` and its like).
-/
import Mathlib.Data.List.Basic
import StyleCascade.Engine.Operation
import StyleCascade.Proofs.Keyed

namespace StyleCascade.Engine

theorem run_append (engine : Engine Id) (operations more : List Operation) :
    engine.run (operations ++ more) = (engine.run operations).run more :=
  List.foldl_append

/-! ## Operations that can fail -/

theorem registerGlobalJson_cases (engine : Engine Id) (json : Json) :
    engine.perform (.registerGlobalJson json) = engine ∨
      ∃ sheet, Sheet.ofJson json = .ok sheet ∧
        engine.perform (.registerGlobalJson json) = engine.registerGlobal sheet := by
  rw [perform, registerGlobalJson]
  cases Sheet.ofJson (m := Id) json with
  | error e => exact .inl rfl
  | ok sheet => exact .inr ⟨sheet, rfl, rfl⟩

theorem createLocalJson_cases (engine : Engine Id) (name : String) (json : Json) :
    engine.perform (.createLocalJson name json) = engine ∨
      ∃ sheet, Sheet.ofJson json = .ok sheet ∧
        engine.perform (.createLocalJson name json) = engine.createLocal name sheet := by
  rw [perform, createLocalJson]
  cases Sheet.ofJson (m := Id) json with
  | error e => exact .inl rfl
  | ok sheet => exact .inr ⟨sheet, rfl, rfl⟩

theorem setVariable_cases (engine : Engine Id) (name : String) (value : Value) :
    engine.perform (.setVariable name value) = engine ∨
      ∃ bindings, engine.perform (.setVariable name value) = engine.withBindings bindings := by
  rw [perform, setVariable, Store.setVariable]
  cases engine.store.bindings.set name value with
  | error e => exact .inl rfl
  | ok bindings => exact .inr ⟨bindings, rfl⟩

theorem setVariables_cases (engine : Engine Id) (entries : List (String × Value)) :
    engine.perform (.setVariables entries) = engine ∨
      ∃ bindings, engine.perform (.setVariables entries) = engine.withBindings bindings := by
  rw [perform, setVariables, Store.setVariables]
  cases engine.store.bindings.setAll entries with
  | error e => exact .inl rfl
  | ok bindings => exact .inr ⟨bindings, rfl⟩

/-! ## Answers -/

/-- A resolver that is there answers, and what it remembers afterwards is put in its place. -/
theorem resolve_of_resolver? {engine : Engine Id} {id : SubscriptionId} {r : Resolver}
    (h : engine.resolver? id = some r) (base : Option String) (n : Node) :
    ∃ computed, (engine.resolve id base n).run =
      (({ engine with computed := computed } : Engine Id).putResolver id
        (r.resolve engine.store engine.computed base n).run.1,
        some (r.resolve engine.store engine.computed base n).run.2) := by
  unfold resolve
  rw [h]
  exact ⟨_, rfl⟩

theorem resolve_of_none {engine : Engine Id} {id : SubscriptionId}
    (h : engine.resolver? id = none) (base : Option String) (n : Node) :
    (engine.resolve id base n).run = (engine, none) := by
  unfold resolve
  rw [h]
  rfl

/-! ## What operations have in common -/

/-- What an operation can make of an engine. One that fails leaves it; a resolver that answers or forgets is
put back in a new state, and the number of computed answers never falls. -/
inductive Effect (engine : Engine Id) : Engine Id → Prop
  | same : Effect engine engine
  | bound (bindings : Variables) : Effect engine (engine.withBindings bindings)
  | registerGlobal (sheet : Sheet Id) : Effect engine (engine.registerGlobal sheet)
  | registerLocal (name : String) (sheet : Sheet Id) :
      Effect engine (engine.registerLocal name sheet)
  | createLocal (name : String) (sheet : Sheet Id) : Effect engine (engine.createLocal name sheet)
  | createResolver (scope : Option String) (capacity : Nat) :
      Effect engine (engine.createResolver scope capacity)
  | dropResolver (id : SubscriptionId) : Effect engine (engine.dropResolver id)
  | putResolver {computed : Nat} (id : SubscriptionId) (r : Resolver) : engine.computed ≤ computed →
      Effect engine (({ engine with computed := computed } : Engine Id).putResolver id r)
  | listen (label : String) (once : Bool) : Effect engine (engine.listen label once)
  | unlisten (id : SubscriptionId) : Effect engine (engine.unlisten id)
  | publish (event : Event) : Effect engine (engine.publish event)
  | clearBus : Effect engine engine.clearBus

theorem effect_perform (engine : Engine Id) (operation : Operation) :
    Effect engine (engine.perform operation) := by
  cases operation with
  | registerGlobal sheet => exact .registerGlobal sheet
  | registerGlobalJson json =>
      rcases registerGlobalJson_cases engine json with heq | ⟨sheet, _, heq⟩
      · rw [heq]
        exact .same
      · rw [heq]
        exact .registerGlobal sheet
  | registerLocal name sheet => exact .registerLocal name sheet
  | createLocal name sheet => exact .createLocal name sheet
  | createLocalJson name json =>
      rcases createLocalJson_cases engine name json with heq | ⟨sheet, _, heq⟩
      · rw [heq]
        exact .same
      · rw [heq]
        exact .createLocal name sheet
  | setVariable name value =>
      rcases setVariable_cases engine name value with heq | ⟨bindings, heq⟩
      · rw [heq]
        exact .same
      · rw [heq]
        exact .bound bindings
  | setVariables entries =>
      rcases setVariables_cases engine entries with heq | ⟨bindings, heq⟩
      · rw [heq]
        exact .same
      · rw [heq]
        exact .bound bindings
  | createResolver scope capacity => exact .createResolver scope capacity
  | dropResolver id => exact .dropResolver id
  | resolve id base n =>
      rw [perform, resolve]
      split
      · exact .same
      · exact .putResolver id _ (Nat.le_max_left _ _)
  | forget id =>
      rw [perform, forget]
      split
      · exact .same
      · exact .putResolver id _ (Nat.le_refl _)
  | listen label once => exact .listen label once
  | unlisten id => exact .unlisten id
  | publish event => exact .publish event
  | clearBus => exact .clearBus

/-! ## Resolvers by number -/

/-- A resolver that reads a scope goes by a number. -/
def HasResolver (engine : Engine Id) (id : SubscriptionId) (scope : Option String) : Prop :=
  ∃ r, engine.resolver? id = some r ∧ r.scope = scope

theorem lookup_map_of_fst {change : SubscriptionId × Resolver → SubscriptionId × Resolver}
    (hchange : ∀ e, (change e).1 = e.1) (entries : List (SubscriptionId × Resolver))
    (id : SubscriptionId) :
    (entries.map change).lookup id = (entries.lookup id).map fun r => (change (id, r)).2 := by
  induction entries with
  | nil => rfl
  | cons e rest ih =>
      rw [List.map_cons, List.lookup_cons, List.lookup_cons, hchange]
      split
      · rename_i hid
        rw [eq_of_beq hid]
        rfl
      · exact ih

theorem lookup_filter_ne (entries : List (SubscriptionId × Resolver)) (other id : SubscriptionId) :
    (entries.filter fun e => e.1 != other).lookup id =
      if id = other then none else entries.lookup id := by
  induction entries with
  | nil => simp
  | cons e rest ih =>
      rw [List.filter_cons]
      by_cases he : e.1 = other
      · rw [if_neg (by simp [he]), ih]
        split
        · rfl
        · rename_i hid
          rw [List.lookup_cons, beq_false_of_ne (he ▸ hid)]
      · rw [if_pos (bne_iff_ne.mpr he), List.lookup_cons, List.lookup_cons, ih]
        split
        · rename_i hid
          rw [if_neg (eq_of_beq hid ▸ he)]
        · rfl

theorem fst_heed (engine : Engine Id) (event : Event) (e : SubscriptionId × Resolver) :
    (engine.heed event e).1 = e.1 := by
  unfold heed
  split <;> rfl

theorem resolver?_publish (engine : Engine Id) (event : Event) (id : SubscriptionId) :
    (engine.publish event).resolver? id =
      (engine.resolver? id).map fun r => (engine.heed event (id, r)).2 :=
  lookup_map_of_fst (engine.fst_heed event) engine.resolvers id

theorem resolver?_createResolver (engine : Engine Id) (scope : Option String) (capacity : Nat)
    (id : SubscriptionId) :
    (engine.createResolver scope capacity).resolver? id =
      (engine.resolver? id).or
        (if id = engine.bus.nextId then some { scope := scope, capacity := capacity } else none) := by
  unfold createResolver resolver?
  rw [List.lookup_append, List.lookup_cons]
  by_cases hid : id = engine.bus.nextId
  · simp [hid]
  · simp [hid, beq_false_of_ne hid]

theorem resolver?_dropResolver (engine : Engine Id) (other id : SubscriptionId) :
    (engine.dropResolver other).resolver? id = if id = other then none else engine.resolver? id :=
  lookup_filter_ne engine.resolvers other id

theorem resolver?_putResolver (engine : Engine Id) (other : SubscriptionId) (r' : Resolver)
    (id : SubscriptionId) :
    (engine.putResolver other r').resolver? id =
      (engine.resolver? id).map fun r => if id = other then r' else r := by
  have hfst (e : SubscriptionId × Resolver) : (if e.1 = other then (other, r') else e).1 = e.1 := by
    split
    · rename_i he
      exact he.symm
    · rfl
  refine (lookup_map_of_fst hfst engine.resolvers id).trans ?_
  show (engine.resolver? id).map _ = _
  congr 1
  funext r
  show (if id = other then (other, r') else (id, r)).2 = _
  split <;> rfl

theorem resolver?_resolve (engine : Engine Id) (other : SubscriptionId) (base : Option String)
    (n : Node) (id : SubscriptionId) :
    (engine.resolve other base n).run.1.resolver? id = (engine.resolver? id).map fun r =>
      if id = other then (r.resolve engine.store engine.computed base n).run.1 else r := by
  by_cases hid : id = other
  · rw [← hid]
    cases hr : engine.resolver? id with
    | none => rw [resolve_of_none hr, hr, Option.map_none]
    | some r =>
        obtain ⟨computed, hresolve⟩ := resolve_of_resolver? hr base n
        rw [hresolve, resolver?_putResolver]
        show (engine.resolver? id).map _ = _
        rw [hr]
        simp
  · cases hr : engine.resolver? other with
    | none => simp [resolve_of_none hr, hid]
    | some r =>
        obtain ⟨computed, hresolve⟩ := resolve_of_resolver? hr base n
        rw [hresolve, resolver?_putResolver]
        simp only [hid, if_false]
        rfl

theorem resolver?_forget (engine : Engine Id) (other id : SubscriptionId) :
    (engine.forget other).resolver? id =
      (engine.resolver? id).map fun r => if id = other then r.forget else r := by
  unfold forget
  split
  · rename_i hr
    by_cases hid : id = other
    · rw [hid, hr, Option.map_none]
    · simp [hid]
  · rename_i r hr
    rw [resolver?_putResolver]
    by_cases hid : id = other
    · simp [hid, hr]
    · simp [hid]

end StyleCascade.Engine
