/-
# StyleCascade.Proofs.Engine.Delivery — whose subscription ends with a resolver

A resolver goes by the number of its subscription, and dropping it ends the subscription of that number.
Numbers are given in order and never again, so this is the resolver's own subscription or, if that has ended
before, nobody's: after the bus was cleared dropping an old resolver leaves it as it is.

Of all that an operation does to a bus only this matters: subscriptions end, and one may be made under the
next number, for an observer or for a resolver of that number (`BusStep`).
-/
import StyleCascade.Proofs.Engine.Run
import StyleCascade.Proofs.Scope.Reentrancy

namespace StyleCascade.Engine

/-- The numbers of the resolvers. -/
def numbers (engine : Engine Id) : List SubscriptionId :=
  engine.resolvers.map fun e => e.1

/-- What an operation does to a bus and to the numbers of the resolvers. -/
inductive BusStep (bus : Bus Subscriber) (ids : List SubscriptionId) :
    Bus Subscriber → List SubscriptionId → Prop
  | quiet {kept : List (Subscription Subscriber)} {others : List SubscriptionId} :
      kept.Sublist bus.subscriptions → others ⊆ ids →
      BusStep bus ids { bus with subscriptions := kept } others
  | observer (once : Bool) (label : String) :
      BusStep bus ids (bus.subscribe once (.observer label)) ids
  | resolver {kept : List (Subscription Subscriber)} :
      kept.Sublist bus.subscriptions →
      BusStep bus ids (Bus.subscribe { bus with subscriptions := kept } false .resolver)
        (ids ++ [bus.nextId])

theorem BusStep.same (bus : Bus Subscriber) {ids others : List SubscriptionId} (h : others = ids) :
    BusStep bus ids bus others :=
  h ▸ .quiet (.refl _) (List.Subset.refl _)

theorem numbers_publish (engine : Engine Id) (event : Event) :
    (engine.publish event).numbers = engine.numbers := by
  show (engine.resolvers.map (engine.heed event)).map (fun e => e.1) = _
  rw [List.map_map]
  exact List.map_congr_left fun e _ => engine.fst_heed event e

theorem numbers_putResolver (engine : Engine Id) (id : SubscriptionId) (r : Resolver) :
    (engine.putResolver id r).numbers = engine.numbers := by
  show (engine.resolvers.map fun e => if e.1 = id then (id, r) else e).map (fun e => e.1) = _
  rw [List.map_map]
  refine List.map_congr_left fun e _ => ?_
  show (if e.1 = id then (id, r) else e).1 = e.1
  split
  · rename_i hid
    exact hid.symm
  · rfl

theorem numbers_createResolver (engine : Engine Id) (scope : Option String) (capacity : Nat) :
    (engine.createResolver scope capacity).numbers = engine.numbers ++ [engine.bus.nextId] :=
  List.map_append

theorem busStep_publish (engine : Engine Id) (event : Event) :
    BusStep engine.bus engine.numbers (engine.publish event).bus (engine.publish event).numbers := by
  rw [numbers_publish]
  exact .quiet List.filter_sublist (List.Subset.refl _)

theorem busStep_createLocal (engine : Engine Id) (name : String) (sheet : Sheet Id) :
    BusStep engine.bus engine.numbers (engine.createLocal name sheet).bus
      (engine.createLocal name sheet).numbers := by
  have hregistered : (engine.registerLocal name sheet).numbers = engine.numbers :=
    numbers_publish { engine with store := engine.store.registerLocal name sheet } _
  rw [createLocal, numbers_createResolver, hregistered]
  exact .resolver List.filter_sublist

theorem busStep_perform (engine : Engine Id) (operation : Operation) :
    BusStep engine.bus engine.numbers (engine.perform operation).bus
      (engine.perform operation).numbers := by
  have hsame : BusStep engine.bus engine.numbers engine.bus engine.numbers := .same _ rfl
  have heffect := effect_perform engine operation
  generalize engine.perform operation = changed at heffect
  cases heffect with
  | same => exact hsame
  | bound bindings => exact hsame
  | registerGlobal sheet =>
      exact busStep_publish { engine with store := engine.store.registerGlobal sheet } _
  | registerLocal name sheet =>
      exact busStep_publish { engine with store := engine.store.registerLocal name sheet } _
  | createLocal name sheet => exact busStep_createLocal engine name sheet
  | createResolver scope capacity =>
      rw [numbers_createResolver]
      exact .resolver (.refl _)
  | dropResolver id =>
      exact .quiet List.filter_sublist (List.map_subset _ (List.filter_subset_self _))
  | putResolver id r _ => exact .same _ (numbers_putResolver _ id r)
  | listen label once => exact .observer once label
  | unlisten id => exact .quiet List.filter_sublist (List.Subset.refl _)
  | publish event => exact busStep_publish engine event
  | clearBus => exact .quiet (List.nil_sublist _) (List.Subset.refl _)

/-! ## Whose numbers they are -/

/-- The number of a resolver is its own: it was given, and no observer is subscribed under it. -/
structure Owned (bus : Bus Subscriber) (ids : List SubscriptionId) : Prop where
  given : ∀ l ∈ bus.subscriptions, l.id.index < bus.issued
  past : ∀ id ∈ ids, id.index < bus.issued
  own : ∀ l ∈ bus.subscriptions, l.id ∈ ids → l.subscriber = .resolver

/-- All subscriptions have numbers from a given one on, and so will the next. -/
structure Since (first : Nat) (bus : Bus Subscriber) : Prop where
  issued : first ≤ bus.issued
  later : ∀ l ∈ bus.subscriptions, first ≤ l.id.index

theorem owned_step {bus bus' : Bus Subscriber} {ids ids' : List SubscriptionId} (h : Owned bus ids)
    (hstep : BusStep bus ids bus' ids') : Owned bus' ids' := by
  cases hstep with
  | quiet hkept hids =>
      exact ⟨fun l hl => h.given l (hkept.subset hl), fun id hid => h.past id (hids hid),
        fun l hl hid => h.own l (hkept.subset hl) (hids hid)⟩
  | observer once label =>
      refine ⟨fun l hl => ?_, fun id hid => Nat.lt_succ_of_lt (h.past id hid), fun l hl hid => ?_⟩
      · rcases List.mem_append.mp hl with hl | hl
        · exact Nat.lt_succ_of_lt (h.given l hl)
        · rw [List.mem_singleton.mp hl]
          exact Nat.lt_succ_self _
      · rcases List.mem_append.mp hl with hl | hl
        · exact h.own l hl hid
        · -- the next number is no resolver's
          rw [List.mem_singleton.mp hl] at hid
          exact absurd (h.past _ hid) (Nat.lt_irrefl _)
  | resolver hkept =>
      refine ⟨fun l hl => ?_, fun id hid => ?_, fun l hl hid => ?_⟩
      · rcases List.mem_append.mp hl with hl | hl
        · exact Nat.lt_succ_of_lt (h.given l (hkept.subset hl))
        · rw [List.mem_singleton.mp hl]
          exact Nat.lt_succ_self _
      · rcases List.mem_append.mp hid with hid | hid
        · exact Nat.lt_succ_of_lt (h.past id hid)
        · rw [List.mem_singleton.mp hid]
          exact Nat.lt_succ_self _
      · rcases List.mem_append.mp hl with hl | hl
        · rcases List.mem_append.mp hid with hid | hid
          · exact h.own l (hkept.subset hl) hid
          · -- nobody is subscribed under the next number
            have hlt := h.given l (hkept.subset hl)
            rw [List.mem_singleton.mp hid] at hlt
            exact absurd hlt (Nat.lt_irrefl _)
        · rw [List.mem_singleton.mp hl]

theorem since_step {first : Nat} {bus bus' : Bus Subscriber} {ids ids' : List SubscriptionId}
    (h : Since first bus) (hstep : BusStep bus ids bus' ids') : Since first bus' := by
  have hmade {kept : List (Subscription Subscriber)} (hkept : kept.Sublist bus.subscriptions)
      (once : Bool) (subscriber : Subscriber) :
      Since first (Bus.subscribe { bus with subscriptions := kept } once subscriber) := by
    refine ⟨Nat.le_succ_of_le h.issued, fun l hl => ?_⟩
    rcases List.mem_append.mp hl with hl | hl
    · exact h.later l (hkept.subset hl)
    · rw [List.mem_singleton.mp hl]
      exact h.issued
  cases hstep with
  | quiet hkept _ => exact ⟨h.issued, fun l hl => h.later l (hkept.subset hl)⟩
  | observer once label => exact hmade (.refl _) once (.observer label)
  | resolver hkept => exact hmade hkept false .resolver

theorem owned_run {engine : Engine Id} (h : Owned engine.bus engine.numbers)
    (operations : List Operation) :
    Owned (engine.run operations).bus (engine.run operations).numbers := by
  induction operations generalizing engine with
  | nil => exact h
  | cons operation rest ih => exact ih (owned_step h (busStep_perform engine operation))

theorem since_run {first : Nat} {engine : Engine Id} (h : Since first engine.bus)
    (operations : List Operation) : Since first (engine.run operations).bus := by
  induction operations generalizing engine with
  | nil => exact h
  | cons operation rest ih => exact ih (since_step h (busStep_perform engine operation))

theorem mem_numbers_of_resolver? {engine : Engine Id} {id : SubscriptionId} {r : Resolver}
    (h : engine.resolver? id = some r) : id ∈ engine.numbers :=
  List.mem_map_of_mem (Keyed.mem_of_lookup h)

/-- Dropping a resolver ends its own subscription at most. -/
theorem eq_of_not_mem_dropResolver {engine : Engine Id} (h : Owned engine.bus engine.numbers)
    {id : SubscriptionId} (hid : id ∈ engine.numbers) {l : Subscription Subscriber}
    (hl : l ∈ engine.bus.subscriptions) (hgone : l ∉ (engine.dropResolver id).bus.subscriptions) :
    l.id = id ∧ l.subscriber = .resolver := by
  have heq : l.id = id := by
    by_contra hne
    exact hgone (List.mem_filter.mpr ⟨hl, bne_iff_ne.mpr hne⟩)
  exact ⟨heq, h.own l hl (heq ▸ hid)⟩

/-- Dropping a resolver from before leaves the bus as it is. -/
theorem bus_dropResolver_of_since {engine : Engine Id} {id : SubscriptionId} {first : Nat}
    (h : Since first engine.bus) (hid : id.index < first) :
    (engine.dropResolver id).bus = engine.bus := by
  have hall : engine.bus.subscriptions.filter (fun l => l.id != id) = engine.bus.subscriptions := by
    rw [List.filter_eq_self]
    intro l hl
    refine bne_iff_ne.mpr fun heq => ?_
    exact absurd (heq ▸ h.later l hl) (Nat.not_le_of_lt hid)
  show ({ engine.bus with subscriptions := engine.bus.subscriptions.filter fun l => l.id != id } :
    Bus Subscriber) = engine.bus
  rw [hall]

end StyleCascade.Engine

namespace StyleCascade

/-! ## The law -/

/-- What a bus promises, whatever its subscribers do while it delivers and however deep their calls nest.

A number is given to one subscription only. Those are in force that were made and not ended since, in the
order in which they were made. From the moment of a publication on, what was handed over and what is due of
it are the notices for the subscriptions present at that moment, in order; when the call has returned all of
them were handed over, and no other. A subscription to one event is told once at most. A call that ends a
subscription tells whether it was in force, and ends no other.

So it is in a session, at whatever depth a publication comes up. And dropping a resolver ends its own
subscription at most: if the bus was cleared in between, none. -/
theorem Bus.reaches_those_present :
    (∀ (α : Type) (x : Exchange α), Exchange.Runs {} x →
      ((Act.made x.history).map fun l => l.id).Nodup ∧
      (∀ l, l ∈ x.bus.subscriptions ↔ Act.Stands l x.history) ∧
      x.bus.subscriptions.Sublist (Act.made x.history) ∧
      (∀ (event : Event) (y : Exchange α), Exchange.Runs (x.afterPublish event) y →
        y.handed.filter (fun notice => notice.publication == Act.publications x.history) =
            x.bus.subscriptions.map (fun l => ⟨Act.publications x.history, l, event⟩) ∧
          (y.stack = x.stack →
            (Act.delivered y.history).filter
                (fun notice => notice.publication == Act.publications x.history) =
              x.bus.subscriptions.map fun l => ⟨Act.publications x.history, l, event⟩)) ∧
      (∀ l ∈ Act.made x.history, l.once = true →
        (Act.delivered x.history).countP (fun notice => notice.subscription.id == l.id) ≤ 1) ∧
      (∀ before id removed after, x.history = before ++ .unsubscribe id removed :: after →
        (removed = true ↔ ∃ l, l.id = id ∧ Act.Stands l before)) ∧
      ∀ l ∈ Act.made x.history, ∀ other ∈ x.bus.subscriptions,
        (other ∈ (x.bus.unsubscribe l.id).subscriptions ↔ other ≠ l)) ∧
    (∀ (s : Session) (event : Event) (agenda : List Task),
      Session.ComesUp s (.perform (.publish event) :: agenda) →
        (s.perform (.publish event)).log.filter (fun d => d.publication == s.publications) =
            s.deliveries event ∧
          s.run (.perform (.publish event) :: agenda) = (s.perform (.publish event)).run agenda ∧
          (s.run (.perform (.publish event) :: agenda)).log.filter
            (fun d => d.publication == s.publications) = s.deliveries event) ∧
    ∀ (capacity : Nat) (operations : List Engine.Operation) (id : SubscriptionId) (r : Resolver),
      let engine := ({ capacity := capacity } : Engine Id).run operations
      engine.resolver? id = some r →
        (∀ l ∈ engine.bus.subscriptions, l ∉ (engine.dropResolver id).bus.subscriptions →
          l.id = id ∧ l.subscriber = .resolver) ∧
        ∀ later : List Engine.Operation,
          let cleared := (engine.perform .clearBus).run later
          (cleared.dropResolver id).bus = cleared.bus := by
  refine ⟨fun α x hx => ?_, fun s event agenda h => Session.log_perform_publish h,
    fun capacity operations id r => ?_⟩
  · obtain ⟨hregistered, haccounted⟩ := Exchange.coherent_runs Exchange.coherent_start hx
    refine ⟨hregistered.nodup_ids, hregistered.mem_iff, hregistered.ordered, fun event y hy => ?_,
      fun l hl honce => Exchange.countP_delivered_le_one haccounted hl honce, hregistered.answered,
      fun l hl other hother => ?_⟩
    · exact ⟨Exchange.filter_handed_afterPublish haccounted event hy,
        Exchange.filter_delivered_of_returned haccounted event hy⟩
    · show other ∈ x.bus.subscriptions.filter (fun l' => l'.id != l.id) ↔ other ≠ l
      rw [List.mem_filter, bne_iff_ne, and_iff_right hother]
      constructor
      · exact fun hid heq => hid (congrArg (fun l => l.id) heq)
      · exact fun hne hid => hne (hregistered.eq_of_id_eq (hregistered.mem_made hother) hl hid)
  · intro engine hr
    have hstart : Engine.Owned ({ capacity := capacity } : Engine Id).bus
        ({ capacity := capacity } : Engine Id).numbers := ⟨nofun, nofun, nofun⟩
    have howned := Engine.owned_run hstart operations
    have hid : id ∈ engine.numbers := Engine.mem_numbers_of_resolver? hr
    refine ⟨fun l hl hgone => Engine.eq_of_not_mem_dropResolver howned hid hl hgone, fun later => ?_⟩
    have hcleared : Engine.Since engine.bus.issued (engine.perform .clearBus).bus :=
      ⟨Nat.le_refl _, nofun⟩
    exact Engine.bus_dropResolver_of_since (Engine.since_run hcleared later) (howned.past id hid)

/-- The first of two subscribers, told once, unsubscribes the second and publishes again; the second is
told all the same. A session of such subscribers, and a resolver that is dropped after the bus was
cleared. -/
theorem Bus.reaches_those_present_nested :
    let first : Subscription String := ⟨⟨0⟩, true, "first"⟩
    let second : Subscription String := ⟨⟨1⟩, false, "second"⟩
    let x : Exchange String :=
      ⟨⟨[first, second], 2⟩, [.active], [.subscribe first, .subscribe second]⟩
    let y : Exchange String := ⟨⟨[], 2⟩, [.active], [.subscribe first, .subscribe second,
      .publish .globalChanged, .deliver ⟨0, first, .globalChanged⟩, .unsubscribe ⟨1⟩ true,
      .publish (.localChanged "menu"), .deliver ⟨0, second, .globalChanged⟩]⟩
    let s : Session := ⟨⟨[first, second], 2⟩,
      [(⟨1⟩, []), (⟨0⟩, [[.unsubscribe "second", .publish (.localChanged "menu")]])],
      [("second", ⟨1⟩), ("first", ⟨0⟩)], 0, []⟩
    let engine := ({ capacity := 4 } : Engine Id).run [.createResolver none 4, .listen "log" false]
    Exchange.Runs {} x ∧ Exchange.Runs (x.afterPublish .globalChanged) y ∧
      (Act.delivered y.history).filter (fun notice => notice.publication == 0) =
        [⟨0, first, .globalChanged⟩, ⟨0, second, .globalChanged⟩] ∧
      first ∈ Act.made y.history ∧
      (Act.delivered y.history).countP (fun notice => notice.subscription.id == ⟨0⟩) ≤ 1 ∧
      Session.ComesUp s [.perform (.publish .globalChanged)] ∧
      (s.perform (.publish .globalChanged)).log.filter (fun d => d.publication == 0) =
        [⟨⟨0⟩, "first", .globalChanged, 0⟩, ⟨⟨1⟩, "second", .globalChanged, 0⟩] ∧
      engine.resolver? ⟨0⟩ = some { scope := none, capacity := 4 } ∧
      (((engine.perform .clearBus).run [.listen "late" false]).dropResolver ⟨0⟩).bus =
        ((engine.perform .clearBus).run [.listen "late" false]).bus := by
  intro first second x y s engine
  obtain ⟨hbus, hsession, hengine⟩ := Bus.reaches_those_present
  have hx : Exchange.Runs {} x :=
    .head (.subscribe _ _ _ true "first") <| .head (.subscribe _ _ _ false "second") .refl
  have hy : Exchange.Runs (x.afterPublish .globalChanged) y :=
    .head (.deliver _ _ _ _) <| .head (.unsubscribe _ _ _ ⟨1⟩) <|
      .head (.publish _ _ _ (.localChanged "menu")) <| .head (.finish _ _ _) <|
        .head (.deliver _ _ _ _) <| .head (.finish _ _ _) .refl
  have hpublish : Exchange.Runs x (x.afterPublish .globalChanged) := .single (.publish _ _ _ _)
  have hfirst : first ∈ Act.made y.history := List.mem_cons_self
  have hs : Session.ComesUp s [.perform (.publish .globalChanged)] :=
    .step <| .step <| .start [.subscribe "first" true
      [[.unsubscribe "second", .publish (.localChanged "menu")]], .subscribe "second" false [],
      .publish .globalChanged]
  have hr : engine.resolver? ⟨0⟩ = some { scope := none, capacity := 4 } := rfl
  refine ⟨hx, hy, ?_, hfirst, ?_, hs, (hsession s .globalChanged [] hs).1, hr,
    (hengine 4 _ ⟨0⟩ _ hr).2 [.listen "late" false]⟩
  · obtain ⟨_, _, _, hdelivered, _⟩ := hbus String x hx
    exact (hdelivered .globalChanged y hy).2 rfl
  · obtain ⟨_, _, _, _, honce, _⟩ := hbus String y (hx.trans (hpublish.trans hy))
    exact honce first hfirst rfl

end StyleCascade
