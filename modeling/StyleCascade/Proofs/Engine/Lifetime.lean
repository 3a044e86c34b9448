/-
# StyleCascade.Proofs.Engine.Lifetime — resolvers from their creation to the end

What an operation does to the resolver that goes by a number is one of few things (`Turns`): the resolver
is created, under a number that nobody had, or dropped; or it heeds an event that was delivered to it,
forgets, answers, or stays as it is (`Fares`).

What holds of a resolver when it is created and is kept by all of these holds whenever the resolver is
there (`resolver?_run_induction`). So it reads one scope all its life, with one capacity, and as numbers
are not given again nothing takes its place after it was dropped.
-/
import Mathlib.Data.List.Induction
import StyleCascade.Proofs.Engine.Atomicity
import StyleCascade.Proofs.Engine.Delivery

namespace StyleCascade.Engine

variable {engine : Engine Id} {id : SubscriptionId} {operation : Operation}

/-! ## One operation -/

/-- The resolver that an operation asks or tells to forget. -/
def Operation.addressee? : Operation → Option SubscriptionId
  | .resolve id _ _ => some id
  | .forget id => some id
  | _ => none

/-- The operation succeeds, and the subscriber of a number is told of an event. -/
def Delivers (engine : Engine Id) (operation : Operation) (id : SubscriptionId) (event : Event) :
    Prop :=
  (∃ changed, operation.outcome engine = .ok changed) ∧
    (id, event) ∈ engine.deliveries operation.event?

/-- What becomes of a resolver that is there before and after an operation. -/
inductive Fares (engine : Engine Id) (id : SubscriptionId) (r : Resolver) :
    Operation → Resolver → Prop
  | heeds {operation : Operation} {event : Event} :
      engine.Delivers operation id event → Fares engine id r operation (r.heed event)
  | forgets : Fares engine id r (.forget id) r.forget
  | answers (base : Option String) (n : Node) :
      Fares engine id r (.resolve id base n)
        (r.resolve engine.store engine.computed base n).run.1
  | stays {operation : Operation} : (∀ event, ¬engine.Delivers operation id event) →
      operation.addressee? ≠ some id → Fares engine id r operation r

/-- What an operation makes of the resolver that goes by a number, if there is one. -/
inductive Turns (engine : Engine Id) (id : SubscriptionId) :
    Operation → Option Resolver → Option Resolver → Prop
  | absent {operation : Operation} : Turns engine id operation none none
  | created {operation : Operation} (scope : Option String) (capacity : Nat) :
      id = engine.bus.nextId →
      Turns engine id operation none (some { scope := scope, capacity := capacity })
  | dropped (r : Resolver) : Turns engine id (.dropResolver id) (some r) none
  | fares {operation : Operation} {r r' : Resolver} :
      Fares engine id r operation r' → Turns engine id operation (some r) (some r')

theorem mem_deliveries_iff {event? : Option Event} {event : Event} :
    (id, event) ∈ engine.deliveries event? ↔ event? = some event ∧ engine.bus.has id = true := by
  cases event? with
  | none => simp [deliveries_none]
  | some told =>
      rw [deliveries_some, List.mem_map, Bus.has, List.any_eq_true]
      simp only [Prod.mk.injEq, Option.some.injEq, beq_iff_eq]
      constructor
      · rintro ⟨l, hl, hid, htold⟩
        exact ⟨htold, l, hl, hid⟩
      · rintro ⟨htold, l, hl, hid⟩
        exact ⟨l, hl, hid, htold⟩

theorem Delivers.event?_eq {event : Event} (h : engine.Delivers operation id event) :
    operation.event? = some event :=
  (mem_deliveries_iff.mp h.2).1

/-- A resolver that is subscribed heeds the event of an operation that succeeds. -/
theorem turns_publish {event : Event} (hok : ∃ changed, operation.outcome engine = .ok changed)
    (hevent : operation.event? = some event) {changed : Engine Id}
    (hchanged : changed.resolver? id =
      (engine.resolver? id).map fun r => (engine.heed event (id, r)).2) :
    engine.Turns id operation (engine.resolver? id) (changed.resolver? id) := by
  rw [hchanged]
  cases engine.resolver? id with
  | none => exact .absent
  | some r =>
      refine .fares ?_
      show Fares engine id r operation (engine.heed event (id, r)).2
      unfold heed
      split
      · rename_i hhas
        exact .heeds ⟨hok, mem_deliveries_iff.mpr ⟨hevent, hhas⟩⟩
      · rename_i hhas
        refine .stays (fun told h => hhas (mem_deliveries_iff.mp h.2).2) ?_
        -- an operation that has an event addresses nobody
        cases operation <;> simp_all [Operation.event?, Operation.addressee?]

theorem turns_refused (refusal : Refusal) (hrefused : operation.outcome engine = .error refusal) :
    engine.Turns id operation (engine.resolver? id) (engine.resolver? id) := by
  cases engine.resolver? id with
  | none => exact .absent
  | some r =>
      refine .fares (.stays (fun event h => ?_) ?_)
      · obtain ⟨changed, hchanged⟩ := h.1
        rw [hrefused] at hchanged
        exact absurd hchanged (by simp)
      · -- an operation that addresses a resolver is not refused
        cases operation <;> simp_all [Operation.outcome, Operation.addressee?]

theorem turns_quiet (operation : Operation) (hevent : operation.event? = none)
    (haddressee : operation.addressee? ≠ some id) {changed : Engine Id}
    (hchanged : changed.resolver? id = engine.resolver? id) :
    engine.Turns id operation (engine.resolver? id) (changed.resolver? id) := by
  rw [hchanged]
  cases engine.resolver? id with
  | none => exact .absent
  | some r =>
      refine .fares (.stays (fun event h => ?_) haddressee)
      exact absurd (hevent.symm.trans h.event?_eq) (by simp)

/-- A resolver that is created takes the next number, and the one that goes by a number already stays. -/
theorem turns_createResolver {changed : Engine Id}
    (h : engine.Turns id operation (engine.resolver? id) (changed.resolver? id))
    (hnumber : changed.bus.nextId = engine.bus.nextId)
    (hkept : engine.resolver? id = none ↔ changed.resolver? id = none) (scope : Option String)
    (capacity : Nat) :
    engine.Turns id operation (engine.resolver? id)
      ((changed.createResolver scope capacity).resolver? id) := by
  rw [resolver?_createResolver, hnumber]
  cases hchanged : changed.resolver? id with
  | none =>
      rw [hkept.mpr hchanged, Option.none_or]
      split
      · rename_i hid
        exact .created scope capacity hid
      · exact .absent
  | some r => rwa [hchanged] at h

theorem turns_createLocal {name : String} {sheet : Sheet Id}
    (hok : ∃ changed, operation.outcome engine = .ok changed)
    (hevent : operation.event? = some (.localChanged name)) :
    engine.Turns id operation (engine.resolver? id)
      ((engine.createLocal name sheet).resolver? id) := by
  have hregistered : (engine.registerLocal name sheet).resolver? id =
      (engine.resolver? id).map fun r => (engine.heed (.localChanged name) (id, r)).2 :=
    resolver?_publish _ _ id
  refine turns_createResolver (turns_publish hok hevent hregistered) rfl ?_ _ _
  rw [hregistered, Option.map_eq_none_iff]

theorem turns_perform (engine : Engine Id) (id : SubscriptionId) (operation : Operation) :
    engine.Turns id operation (engine.resolver? id) ((engine.perform operation).resolver? id) := by
  have hnobody : none ≠ some id := (Option.some_ne_none id).symm
  cases operation with
  | registerGlobal sheet => exact turns_publish ⟨_, rfl⟩ rfl (resolver?_publish _ _ id)
  | registerGlobalJson json =>
      rw [perform, registerGlobalJson]
      cases hsheet : Sheet.ofJson (m := Id) json with
      | error error =>
          refine turns_refused (.definition error) ?_
          rw [Operation.outcome, registerGlobalJson, hsheet]
          rfl
      | ok sheet =>
          refine turns_publish ⟨engine.registerGlobal sheet, ?_⟩ rfl (resolver?_publish _ _ id)
          rw [Operation.outcome, registerGlobalJson, hsheet]
          rfl
  | registerLocal name sheet => exact turns_publish ⟨_, rfl⟩ rfl (resolver?_publish _ _ id)
  | createLocal name sheet => exact turns_createLocal ⟨_, rfl⟩ rfl
  | createLocalJson name json =>
      rw [perform, createLocalJson]
      cases hsheet : Sheet.ofJson (m := Id) json with
      | error error =>
          refine turns_refused (.definition error) ?_
          rw [Operation.outcome, createLocalJson, hsheet]
          rfl
      | ok sheet =>
          refine turns_createLocal ⟨engine.createLocal name sheet, ?_⟩ rfl
          rw [Operation.outcome, createLocalJson, hsheet]
          rfl
  | setVariable name value =>
      refine turns_quiet (.setVariable name value) rfl hnobody ?_
      rcases setVariable_cases engine name value with heq | ⟨bindings, heq⟩
      · rw [heq]
      · rw [heq]
        rfl
  | setVariables entries =>
      refine turns_quiet (.setVariables entries) rfl hnobody ?_
      rcases setVariables_cases engine entries with heq | ⟨bindings, heq⟩
      · rw [heq]
      · rw [heq]
        rfl
  | createResolver scope capacity =>
      have hquiet : engine.Turns id (.createResolver scope capacity) (engine.resolver? id)
          (engine.resolver? id) := turns_quiet (.createResolver scope capacity) rfl hnobody rfl
      exact turns_createResolver hquiet rfl .rfl scope capacity
  | dropResolver other =>
      rw [perform, resolver?_dropResolver]
      split
      · rename_i hid
        rw [hid]
        cases engine.resolver? other with
        | none => exact .absent
        | some r => exact .dropped r
      · exact turns_quiet (.dropResolver other) rfl hnobody rfl
  | resolve other base n =>
      rw [perform, resolver?_resolve]
      by_cases hid : id = other
      · rw [← hid]
        cases engine.resolver? id with
        | none => exact .absent
        | some r =>
            refine .fares ?_
            simp only [if_true]
            exact .answers base n
      · simp only [hid, if_false, Option.map_id']
        exact turns_quiet (.resolve other base n) rfl (fun h => hid (Option.some.inj h).symm) rfl
  | forget other =>
      rw [perform, resolver?_forget]
      by_cases hid : id = other
      · rw [← hid]
        cases engine.resolver? id with
        | none => exact .absent
        | some r =>
            refine .fares ?_
            simp only [if_true]
            exact .forgets
      · simp only [hid, if_false, Option.map_id']
        exact turns_quiet (.forget other) rfl (fun h => hid (Option.some.inj h).symm) rfl
  | listen label once => exact turns_quiet (.listen label once) rfl hnobody rfl
  | unlisten other => exact turns_quiet (.unlisten other) rfl hnobody rfl
  | publish event => exact turns_publish ⟨_, rfl⟩ rfl (resolver?_publish _ _ id)
  | clearBus => exact turns_quiet .clearBus rfl hnobody rfl

/-! ## What stays -/

/-- A resolver keeps to its scope and its capacity. -/
theorem Fares.kept {r r' : Resolver} (h : engine.Fares id r operation r') :
    r'.scope = r.scope ∧ r'.capacity = r.capacity := by
  cases h with
  | heeds _ =>
      unfold Resolver.heed
      split <;> exact ⟨rfl, rfl⟩
  | forgets => exact ⟨rfl, rfl⟩
  | answers base n =>
      unfold Resolver.resolve
      dsimp only
      split <;> exact ⟨rfl, rfl⟩
  | stays _ _ => exact ⟨rfl, rfl⟩

theorem exists_fares {r : Resolver} (h : engine.resolver? id = some r)
    (hkeep : operation ≠ .dropResolver id) :
    ∃ r', (engine.perform operation).resolver? id = some r' ∧ engine.Fares id r operation r' := by
  have hturns := turns_perform engine id operation
  rw [h] at hturns
  generalize (engine.perform operation).resolver? id = found at hturns
  cases hturns with
  | dropped _ => exact absurd rfl hkeep
  | fares hfares => exact ⟨_, rfl, hfares⟩

/-- A resolver stays, and reads the scope it was created for, until it is dropped. -/
theorem hasResolver_run {scope : Option String} (h : engine.HasResolver id scope)
    {operations : List Operation} (hkeep : .dropResolver id ∉ operations) :
    (engine.run operations).HasResolver id scope := by
  induction operations generalizing engine with
  | nil => exact h
  | cons operation rest ih =>
      rw [List.mem_cons, not_or] at hkeep
      obtain ⟨r, hr, rfl⟩ := h
      obtain ⟨r', hr', hfares⟩ := exists_fares hr (Ne.symm hkeep.1)
      exact ih ⟨r', hr', hfares.kept.1⟩ hkeep.2

/-! ## A whole life -/

/-- What holds of a resolver at the start or when it is created, and is kept as it fares, holds of it
whenever it is there. -/
theorem resolver?_run_induction {P : List Operation → Resolver → Prop}
    (hstart : ∀ r, engine.resolver? id = some r → P [] r)
    (hcreated : ∀ before operation scope capacity, id = (engine.run before).bus.nextId →
      P (before ++ [operation]) { scope := scope, capacity := capacity })
    (hfares : ∀ before operation r r', (engine.run before).resolver? id = some r → P before r →
      (engine.run before).Fares id r operation r' → P (before ++ [operation]) r')
    {operations : List Operation} {r : Resolver}
    (h : (engine.run operations).resolver? id = some r) : P operations r := by
  induction operations using List.reverseRecOn generalizing r with
  | nil => exact hstart r h
  | append_singleton before operation ih =>
      have hturns := turns_perform (engine.run before) id operation
      rw [run_append] at h
      change ((engine.run before).perform operation).resolver? id = some r at h
      rw [h] at hturns
      generalize hbefore : (engine.run before).resolver? id = found at hturns
      cases hturns with
      | created scope capacity hid => exact hcreated before operation scope capacity hid
      | fares hr => exact hfares before operation _ r hbefore (ih hbefore) hr

/-- In an engine that starts empty a resolver is as it was created, and then as it fared. -/
theorem resolver?_start_induction {capacity : Nat} {P : List Operation → Resolver → Prop}
    (hcreated : ∀ before operation scope own,
      id = (run { capacity := capacity } before).bus.nextId →
        P (before ++ [operation]) { scope := scope, capacity := own })
    (hfares : ∀ before operation r r', (run { capacity := capacity } before).resolver? id = some r →
      P before r → (run { capacity := capacity } before).Fares id r operation r' →
        P (before ++ [operation]) r')
    {operations : List Operation} {r : Resolver}
    (h : (run { capacity := capacity } operations).resolver? id = some r) : P operations r :=
  resolver?_run_induction (fun _ hr => absurd hr (by simp [resolver?])) hcreated hfares h

theorem issued_le_step {bus bus' : Bus Subscriber} {ids ids' : List SubscriptionId}
    (h : BusStep bus ids bus' ids') : bus.issued ≤ bus'.issued := by
  cases h with
  | quiet _ _ => exact Nat.le_refl _
  | observer _ _ => exact Nat.le_succ _
  | resolver _ => exact Nat.le_succ _

theorem issued_le_run (engine : Engine Id) (operations : List Operation) :
    engine.bus.issued ≤ (engine.run operations).bus.issued := by
  induction operations generalizing engine with
  | nil => exact Nat.le_refl _
  | cons operation rest ih =>
      exact Nat.le_trans (issued_le_step (busStep_perform engine operation))
        (ih (engine.perform operation))

/-- The number of a resolver is never the next one, not even after the resolver was dropped. -/
theorem ne_nextId_of_resolver? (howned : Owned engine.bus engine.numbers) {r : Resolver}
    (h : engine.resolver? id = some r) (later : List Operation) :
    id ≠ (engine.run later).bus.nextId := by
  intro hid
  have hlt : id.index < (engine.run later).bus.issued :=
    Nat.lt_of_lt_of_le (howned.past id (mem_numbers_of_resolver? h)) (issued_le_run engine later)
  rw [hid] at hlt
  exact Nat.lt_irrefl _ hlt

/-- Whoever goes by the number of a resolver later on is that resolver still, with the same scope and the
same capacity. -/
theorem same_of_resolver? (howned : Owned engine.bus engine.numbers) {r : Resolver}
    (h : engine.resolver? id = some r) {later : List Operation} {r' : Resolver}
    (h' : (engine.run later).resolver? id = some r') :
    r'.scope = r.scope ∧ r'.capacity = r.capacity := by
  refine resolver?_run_induction
    (P := fun _ found => found.scope = r.scope ∧ found.capacity = r.capacity) ?_ ?_ ?_ h'
  · intro found hfound
    rw [h] at hfound
    obtain rfl := Option.some.inj hfound
    exact ⟨rfl, rfl⟩
  · intro before operation scope capacity hid
    exact absurd hid (ne_nextId_of_resolver? howned h before)
  · intro before operation found found' _ hsame hfares
    exact ⟨hfares.kept.1.trans hsame.1, hfares.kept.2.trans hsame.2⟩

/-- An engine that starts empty gives every number to its own subscriber. -/
theorem owned_start (capacity : Nat) (operations : List Operation) :
    Owned (run { capacity := capacity } operations).bus
      (run { capacity := capacity } operations).numbers := by
  have hempty : Owned ({ capacity := capacity } : Engine Id).bus
      ({ capacity := capacity } : Engine Id).numbers := ⟨nofun, nofun, nofun⟩
  exact owned_run hempty operations

end StyleCascade.Engine
