/-
# StyleCascade.Proofs.Scope.Exchange — calls to a bus while it delivers

Whoever is told of an event may call the bus before it returns, and so may those who are told of what it
publishes there. An exchange is a bus with the calls that have not returned: each is a frame on a stack, and
the frame on top is the one that acts. Of what an active frame does nothing is assumed: it may subscribe,
unsubscribe, publish and clear as often as it likes, and return when it likes. A publication puts one frame
for each subscription present on top of the stack, and these become active one after the other.

What was handed over and what is due add up. From the moment of a publication on, this sum is under its
number the list of the subscriptions that were present, in their order (`filter_handed_afterPublish`): a
delivery only moves one entry from what is due to what was handed over, and everything else leaves both as
they are (`handed_step`). When the call has returned nothing of it is due, and so all of it was handed over
(`filter_delivered_of_returned`).

Subscriptions are numbered 0, 1, 2, … in the order in which they are made, so no number is given twice, and
the bus has those in force that were made and not ended since (`Act.Registered`). A subscription to one
event is told of nothing while it is in force, and of one event when it ends (`Accounted.once`).
-/
import Mathlib.Data.List.Nodup
import Mathlib.Logic.Relation
import StyleCascade.Scope.Bus
import StyleCascade.Scope.Event

namespace StyleCascade

/-! ## Exchanges -/

/-- An event for a subscription. -/
structure Notice (α : Type) where
  /-- The number of the publication, counted from zero. -/
  publication : Nat
  /-- Whom it goes to. -/
  subscription : Subscription α
  /-- The event. -/
  event : Event

/-- Something that happened to a bus. -/
inductive Act (α : Type) where
  /-- A subscription was made. -/
  | subscribe (made : Subscription α)
  /-- A subscription was asked to end, and the call told whether there was one less afterwards. -/
  | unsubscribe (id : SubscriptionId) (removed : Bool)
  /-- An event was published. -/
  | publish (event : Event)
  /-- Every subscription was ended. -/
  | clear
  /-- An event was handed to a subscription. -/
  | deliver (notice : Notice α)

/-- A call that has not returned. -/
inductive Frame (α : Type) where
  /-- It acts when it is on top. -/
  | active
  /-- It has not begun: an event is still to be handed over. -/
  | due (notice : Notice α)

/-- A bus in use. -/
structure Exchange (α : Type) where
  /-- The bus. -/
  bus : Bus α := {}
  /-- The calls that have not returned, innermost first. -/
  stack : List (Frame α) := [.active]
  /-- What happened so far, in order. -/
  history : List (Act α) := []

variable {α : Type}

/-- The subscriptions that were made. -/
def Act.made (history : List (Act α)) : List (Subscription α) :=
  history.filterMap fun
    | .subscribe l => some l
    | _ => none

/-- The notices that were handed over. -/
def Act.delivered (history : List (Act α)) : List (Notice α) :=
  history.filterMap fun
    | .deliver notice => some notice
    | _ => none

/-- The number of publications. -/
def Act.publications (history : List (Act α)) : Nat :=
  history.countP fun
    | .publish _ => true
    | _ => false

/-- The notices still to be handed over. -/
def Frame.dues (stack : List (Frame α)) : List (Notice α) :=
  stack.filterMap fun
    | .due notice => some notice
    | .active => none

/-- The act ends a subscription. -/
def Act.Ends (l : Subscription α) : Act α → Prop
  | .unsubscribe id _ => id = l.id
  | .publish _ => l.once = true
  | .clear => True
  | _ => False

/-- A subscription was made, and nothing has ended it since. -/
def Act.Stands (l : Subscription α) (history : List (Act α)) : Prop :=
  ∃ before after, history = before ++ .subscribe l :: after ∧ ∀ act ∈ after, ¬act.Ends l

namespace Exchange

/-- The notices that a publication asks for. -/
def notices (x : Exchange α) (event : Event) : List (Notice α) :=
  x.bus.subscriptions.map fun l => ⟨Act.publications x.history, l, event⟩

/-- The exchange when a publication has just begun. -/
def afterPublish (x : Exchange α) (event : Event) : Exchange α where
  bus := x.bus.afterPublish
  stack := (x.notices event).map .due ++ x.stack
  history := x.history ++ [.publish event]

/-- What can happen next. An active frame calls the bus or returns; a frame that is due begins. -/
inductive Step : Exchange α → Exchange α → Prop
  | subscribe (bus : Bus α) (rest : List (Frame α)) (history : List (Act α)) (once : Bool)
      (subscriber : α) :
      Step ⟨bus, .active :: rest, history⟩
        ⟨bus.subscribe once subscriber, .active :: rest,
          history ++ [.subscribe ⟨bus.nextId, once, subscriber⟩]⟩
  | unsubscribe (bus : Bus α) (rest : List (Frame α)) (history : List (Act α)) (id : SubscriptionId) :
      Step ⟨bus, .active :: rest, history⟩
        ⟨bus.unsubscribe id, .active :: rest,
          history ++ [.unsubscribe id ((bus.unsubscribe id).count != bus.count)]⟩
  | publish (bus : Bus α) (rest : List (Frame α)) (history : List (Act α)) (event : Event) :
      Step ⟨bus, .active :: rest, history⟩
        ((⟨bus, .active :: rest, history⟩ : Exchange α).afterPublish event)
  | clear (bus : Bus α) (rest : List (Frame α)) (history : List (Act α)) :
      Step ⟨bus, .active :: rest, history⟩ ⟨bus.clear, .active :: rest, history ++ [.clear]⟩
  | deliver (bus : Bus α) (rest : List (Frame α)) (history : List (Act α)) (notice : Notice α) :
      Step ⟨bus, .due notice :: rest, history⟩ ⟨bus, .active :: rest, history ++ [.deliver notice]⟩
  | finish (bus : Bus α) (rest : List (Frame α)) (history : List (Act α)) :
      Step ⟨bus, .active :: rest, history⟩ ⟨bus, rest, history⟩

/-- What can happen in any number of steps. -/
abbrev Runs : Exchange α → Exchange α → Prop :=
  Relation.ReflTransGen Step

/-- The notices that were handed over or are due. -/
def handed (x : Exchange α) : List (Notice α) :=
  Act.delivered x.history ++ Frame.dues x.stack

end Exchange

/-! ## Histories -/

namespace Act

variable {history : List (Act α)}

@[simp] theorem made_concat (history : List (Act α)) (act : Act α) :
    made (history ++ [act]) = made history ++ made [act] :=
  List.filterMap_append

@[simp] theorem delivered_concat (history : List (Act α)) (act : Act α) :
    delivered (history ++ [act]) = delivered history ++ delivered [act] :=
  List.filterMap_append

@[simp] theorem publications_concat (history : List (Act α)) (act : Act α) :
    publications (history ++ [act]) = publications history + publications [act] :=
  List.countP_append

/-- A subscription stands after an act if the act makes it, or if it stood and the act does not end it. -/
theorem stands_concat_iff {l : Subscription α} {act : Act α} :
    Stands l (history ++ [act]) ↔ act = .subscribe l ∨ Stands l history ∧ ¬act.Ends l := by
  constructor
  · rintro ⟨before, after, heq, hafter⟩
    rcases List.eq_nil_or_concat after with rfl | ⟨later, last, rfl⟩
    · obtain ⟨_, hlast⟩ := List.append_inj' heq rfl
      exact .inl (List.cons.inj hlast).1
    · rw [List.concat_eq_append, ← List.cons_append, ← List.append_assoc] at heq
      obtain ⟨rfl, hlast⟩ := List.append_inj' heq rfl
      obtain rfl := (List.cons.inj hlast).1
      exact .inr ⟨⟨before, later, rfl, fun a ha => hafter a (by simp [ha])⟩, hafter act (by simp)⟩
  · rintro (rfl | ⟨⟨before, after, rfl, hafter⟩, hends⟩)
    · exact ⟨history, [], rfl, by simp⟩
    · refine ⟨before, after ++ [act], by simp, fun a ha => ?_⟩
      rcases List.mem_append.mp ha with ha | ha
      · exact hafter a ha
      · rw [List.mem_singleton.mp ha]
        exact hends

end Act

namespace Frame

theorem dues_append (top below : List (Frame α)) : dues (top ++ below) = dues top ++ dues below :=
  List.filterMap_append

theorem dues_map_due (notices : List (Notice α)) : dues (notices.map .due) = notices := by
  unfold dues
  rw [List.filterMap_map]
  exact List.filterMap_some

end Frame

/-! ## Who is subscribed -/

/-- A bus agrees with what happened to it: subscriptions were numbered in their order, those that stand are
in force in the order in which they were made, and whoever ended one was told so. -/
structure Act.Registered (bus : Bus α) (history : List (Act α)) : Prop where
  numbered : (made history).map (fun l => l.id) = (List.range bus.issued).map SubscriptionId.mk
  mem_iff : ∀ l, l ∈ bus.subscriptions ↔ Stands l history
  ordered : bus.subscriptions.Sublist (made history)
  answered : ∀ before id removed after, history = before ++ .unsubscribe id removed :: after →
    (removed = true ↔ ∃ l, l.id = id ∧ Stands l before)

namespace Act.Registered

variable {bus : Bus α} {history : List (Act α)}

/-- No number is given twice. -/
theorem nodup_ids (h : Registered bus history) : ((made history).map fun l => l.id).Nodup := by
  rw [h.numbered]
  exact List.nodup_range.map fun a b hab => (SubscriptionId.mk.inj hab)

theorem eq_of_id_eq (h : Registered bus history) {l other : Subscription α} (hl : l ∈ made history)
    (hother : other ∈ made history) (hid : l.id = other.id) : l = other :=
  List.inj_on_of_nodup_map h.nodup_ids hl hother hid

theorem ne_nextId (h : Registered bus history) {l : Subscription α} (hl : l ∈ made history) :
    l.id ≠ bus.nextId := by
  intro hid
  have hmem : l.id ∈ (List.range bus.issued).map SubscriptionId.mk :=
    h.numbered ▸ List.mem_map_of_mem hl
  obtain ⟨i, hi, heq⟩ := List.mem_map.mp hmem
  rw [hid] at heq
  exact absurd (SubscriptionId.mk.inj heq) (Nat.ne_of_lt (List.mem_range.mp hi))

theorem mem_made (h : Registered bus history) {l : Subscription α} (hl : l ∈ bus.subscriptions) :
    l ∈ made history :=
  h.ordered.subset hl

theorem answered_concat (h : Registered bus history) {act : Act α}
    (hanswer : ∀ id removed, act = .unsubscribe id removed →
      (removed = true ↔ ∃ l, l.id = id ∧ Stands l history))
    (before : List (Act α)) (id : SubscriptionId) (removed : Bool) (after : List (Act α))
    (heq : history ++ [act] = before ++ .unsubscribe id removed :: after) :
    removed = true ↔ ∃ l, l.id = id ∧ Stands l before := by
  rcases List.eq_nil_or_concat after with rfl | ⟨later, last, rfl⟩
  · obtain ⟨rfl, hlast⟩ := List.append_inj' heq rfl
    exact hanswer id removed (List.cons.inj hlast).1
  · rw [List.concat_eq_append, ← List.cons_append, ← List.append_assoc] at heq
    exact h.answered before id removed later (List.append_inj' heq rfl).1

theorem countP_id_le_one (h : Registered bus history) (id : SubscriptionId) :
    bus.subscriptions.countP (fun l => l.id == id) ≤ 1 := by
  have hnodup : (bus.subscriptions.map fun l => l.id).Nodup := h.nodup_ids.sublist (h.ordered.map _)
  have hcount := List.nodup_iff_count_le_one.mp hnodup id
  rw [List.count, List.countP_map] at hcount
  exact hcount

/-- An act that makes no subscription leaves those in force that it does not end. -/
theorem concat (h : Registered bus history) {act : Act α} (hact : ∀ l, act ≠ .subscribe l)
    {keep : Subscription α → Bool} (hkeep : ∀ l, keep l = true ↔ ¬act.Ends l)
    (hanswer : ∀ id removed, act = .unsubscribe id removed →
      (removed = true ↔ ∃ l, l.id = id ∧ Stands l history)) :
    Registered { bus with subscriptions := bus.subscriptions.filter keep } (history ++ [act]) := by
  have hmade : made [act] = [] := by
    cases act with
    | subscribe l => exact absurd rfl (hact l)
    | _ => rfl
  refine ⟨?_, fun l => ?_, ?_, h.answered_concat hanswer⟩
  · rw [made_concat, hmade, List.append_nil]
    exact h.numbered
  · rw [List.mem_filter, h.mem_iff, hkeep, stands_concat_iff]
    exact (or_iff_right (hact l)).symm
  · rw [made_concat, hmade, List.append_nil]
    exact List.filter_sublist.trans h.ordered

theorem subscribe (h : Registered bus history) (once : Bool) (subscriber : α) :
    Registered (bus.subscribe once subscriber)
      (history ++ [.subscribe ⟨bus.nextId, once, subscriber⟩]) := by
  refine ⟨?_, fun l => ?_, ?_, h.answered_concat nofun⟩
  · show _ = (List.range (bus.issued + 1)).map SubscriptionId.mk
    rw [made_concat, List.map_append, h.numbered, List.range_succ, List.map_append]
    rfl
  · show l ∈ bus.subscriptions ++ [⟨bus.nextId, once, subscriber⟩] ↔ _
    rw [List.mem_append, h.mem_iff, List.mem_singleton, stands_concat_iff]
    constructor
    · rintro (hl | rfl)
      · exact .inr ⟨hl, id⟩
      · exact .inl rfl
    · rintro (heq | ⟨hl, _⟩)
      · exact .inr (Act.subscribe.inj heq).symm
      · exact .inl hl
  · rw [made_concat]
    exact h.ordered.append (.refl _)

/-- A call that ends a subscription tells whether the subscription was in force. -/
theorem removed_iff (h : Registered bus history) (id : SubscriptionId) :
    ((bus.unsubscribe id).count != bus.count) = true ↔ ∃ l, l.id = id ∧ Stands l history := by
  show ((bus.subscriptions.filter fun l => l.id != id).length != bus.subscriptions.length) = true ↔ _
  rw [bne_iff_ne, Ne, List.length_filter_eq_length_iff]
  constructor
  · intro hnot
    by_contra hnone
    refine hnot fun l hl => bne_iff_ne.mpr fun hid => hnone ⟨l, hid, ?_⟩
    exact (h.mem_iff l).mp hl
  · rintro ⟨l, hid, hl⟩ hall
    exact bne_iff_ne.mp (hall l ((h.mem_iff l).mpr hl)) hid

end Act.Registered

/-! ## Who is told -/

namespace Exchange

/-- What was handed over or is due comes from publications and goes to subscriptions there were, and to one
that ends with the first event once at most, and not while it is in force. -/
structure Accounted (x : Exchange α) : Prop where
  past : ∀ notice ∈ x.handed, notice.publication < Act.publications x.history
  known : ∀ notice ∈ x.handed, notice.subscription ∈ Act.made x.history
  once : ∀ l ∈ Act.made x.history, l.once = true →
    x.handed.countP (fun notice => notice.subscription.id == l.id) ≤ 1 ∧
      (l ∈ x.bus.subscriptions → ∀ notice ∈ x.handed, notice.subscription.id ≠ l.id)

/-- An exchange as it comes to be. -/
structure Coherent (x : Exchange α) : Prop where
  registered : Act.Registered x.bus x.history
  accounted : x.Accounted

theorem coherent_start : Coherent ({} : Exchange α) where
  registered := by
    refine ⟨rfl, fun l => ⟨fun h => absurd h List.not_mem_nil, ?_⟩, .slnil, fun _ _ _ _ h => ?_⟩
    · rintro ⟨before, after, heq, _⟩
      exact absurd heq (by simp)
    · exact absurd h (by simp)
  accounted := ⟨nofun, nofun, nofun⟩

/-- An act that hands over nothing leaves what was handed over and what is due. -/
theorem handed_concat {act : Act α} (hact : Act.delivered [act] = []) (bus changed : Bus α)
    (stack : List (Frame α)) (history : List (Act α)) :
    handed ⟨changed, stack, history ++ [act]⟩ = handed ⟨bus, stack, history⟩ := by
  unfold handed
  rw [Act.delivered_concat, hact, List.append_nil]

/-- A delivery takes the first notice from those that are due. -/
theorem handed_deliver (bus : Bus α) (rest : List (Frame α)) (history : List (Act α))
    (notice : Notice α) :
    handed ⟨bus, .active :: rest, history ++ [.deliver notice]⟩ =
      handed ⟨bus, .due notice :: rest, history⟩ := by
  unfold handed
  rw [Act.delivered_concat, List.append_assoc]
  rfl

theorem handed_afterPublish (x : Exchange α) (event : Event) :
    (x.afterPublish event).handed =
      Act.delivered x.history ++ (x.notices event ++ Frame.dues x.stack) := by
  show Act.delivered (x.history ++ [.publish event]) ++
    Frame.dues ((x.notices event).map .due ++ x.stack) = _
  rw [Act.delivered_concat, Frame.dues_append, Frame.dues_map_due]
  exact congrArg (· ++ _) (List.append_nil _)

theorem handed_afterPublish_perm (x : Exchange α) (event : Event) :
    (x.afterPublish event).handed.Perm (x.notices event ++ x.handed) := by
  rw [handed_afterPublish, handed]
  exact List.perm_append_comm_assoc _ _ _

/-- An act that makes no subscription, publishes nothing and puts nobody in force keeps the account, if what
was handed over or is due stays. -/
theorem Accounted.concat {bus changed : Bus α} {stack left : List (Frame α)} {history : List (Act α)}
    {act : Act α} (h : Accounted ⟨bus, stack, history⟩)
    (hhanded : handed ⟨changed, left, history ++ [act]⟩ = handed ⟨bus, stack, history⟩)
    (hpublications : Act.publications [act] = 0) (hmade : Act.made [act] = [])
    (hsubscriptions : ∀ l ∈ changed.subscriptions, l ∈ bus.subscriptions) :
    Accounted ⟨changed, left, history ++ [act]⟩ := by
  have hsameMade : Act.made (history ++ [act]) = Act.made history := by
    rw [Act.made_concat, hmade, List.append_nil]
  have hsamePublications : Act.publications (history ++ [act]) = Act.publications history := by
    rw [Act.publications_concat, hpublications, Nat.add_zero]
  refine ⟨?_, ?_, ?_⟩
  · rw [hhanded, hsamePublications]
    exact h.past
  · rw [hhanded, hsameMade]
    exact h.known
  · rw [hhanded, hsameMade]
    intro l hl honce
    obtain ⟨hcount, hforce⟩ := h.once l hl honce
    exact ⟨hcount, fun hin => hforce (hsubscriptions l hin)⟩

theorem accounted_subscribe {bus : Bus α} {rest : List (Frame α)} {history : List (Act α)}
    (h : Coherent ⟨bus, .active :: rest, history⟩) (once : Bool) (subscriber : α) :
    Accounted ⟨bus.subscribe once subscriber, .active :: rest,
      history ++ [.subscribe ⟨bus.nextId, once, subscriber⟩]⟩ := by
  obtain ⟨hregistered, haccounted⟩ := h
  have hhanded : handed ⟨bus.subscribe once subscriber, .active :: rest,
      history ++ [.subscribe ⟨bus.nextId, once, subscriber⟩]⟩ =
      handed ⟨bus, .active :: rest, history⟩ := handed_concat rfl bus _ _ history
  -- nothing was ever handed to the new subscription, whose number is new
  have hnew : ∀ notice ∈ handed ⟨bus, .active :: rest, history⟩,
      notice.subscription.id ≠ bus.nextId :=
    fun notice hnotice => hregistered.ne_nextId (haccounted.known notice hnotice)
  refine ⟨?_, ?_, ?_⟩
  · rw [hhanded, Act.publications_concat]
    exact haccounted.past
  · rw [hhanded, Act.made_concat]
    exact fun notice hnotice => List.mem_append_left _ (haccounted.known notice hnotice)
  · rw [hhanded, Act.made_concat]
    intro l hl honce
    rcases List.mem_append.mp hl with hl | hl
    · obtain ⟨hcount, hforce⟩ := haccounted.once l hl honce
      refine ⟨hcount, fun hin => ?_⟩
      rcases List.mem_append.mp hin with hin | hin
      · exact hforce hin
      · rw [List.mem_singleton.mp hin]
        exact hnew
    · rw [List.mem_singleton.mp hl]
      refine ⟨?_, fun _ => hnew⟩
      rw [List.countP_eq_zero.mpr]
      · exact Nat.zero_le 1
      · exact fun notice hnotice heq => hnew notice hnotice (beq_iff_eq.mp heq)

theorem accounted_afterPublish {x : Exchange α} (h : x.Coherent) (event : Event) :
    (x.afterPublish event).Accounted := by
  obtain ⟨hregistered, haccounted⟩ := h
  have hperm := x.handed_afterPublish_perm event
  have hmem : ∀ notice ∈ (x.afterPublish event).handed,
      (∃ l ∈ x.bus.subscriptions, notice = ⟨Act.publications x.history, l, event⟩) ∨
        notice ∈ x.handed := by
    intro notice hnotice
    rcases List.mem_append.mp (hperm.mem_iff.mp hnotice) with hnew | hold
    · obtain ⟨l, hl, rfl⟩ := List.mem_map.mp hnew
      exact .inl ⟨l, hl, rfl⟩
    · exact .inr hold
  have hmade : Act.made (x.afterPublish event).history = Act.made x.history :=
    (Act.made_concat _ _).trans (List.append_nil _)
  refine ⟨fun notice hnotice => ?_, fun notice hnotice => ?_, ?_⟩
  · show _ < Act.publications (x.history ++ [.publish event])
    rw [Act.publications_concat]
    rcases hmem notice hnotice with ⟨l, _, rfl⟩ | hold
    · exact Nat.lt_succ_self _
    · exact Nat.lt_succ_of_lt (haccounted.past notice hold)
  · rw [hmade]
    rcases hmem notice hnotice with ⟨l, hl, rfl⟩ | hold
    · exact hregistered.mem_made hl
    · exact haccounted.known notice hold
  · rw [hmade]
    intro l hl honce
    obtain ⟨hcount, hforce⟩ := haccounted.once l hl honce
    refine ⟨?_, fun hin => ?_⟩
    · rw [hperm.countP_eq, List.countP_append, notices, List.countP_map]
      by_cases hin : l ∈ x.bus.subscriptions
      · -- it was handed nothing before, and is in force once
        have hbefore : x.handed.countP (fun notice => notice.subscription.id == l.id) = 0 :=
          List.countP_eq_zero.mpr fun notice hnotice heq => hforce hin notice hnotice (beq_iff_eq.mp heq)
        rw [hbefore]
        exact hregistered.countP_id_le_one l.id
      · have hnone : x.bus.subscriptions.countP (fun other => other.id == l.id) = 0 := by
          refine List.countP_eq_zero.mpr fun other hother heq => hin ?_
          rwa [← hregistered.eq_of_id_eq (hregistered.mem_made hother) hl (beq_iff_eq.mp heq)]
        show x.bus.subscriptions.countP (fun other => other.id == l.id) + _ ≤ 1
        rw [hnone, Nat.zero_add]
        exact hcount
    · -- the publication has ended it
      have hkept := (List.mem_filter.mp hin).2
      rw [honce] at hkept
      exact absurd hkept (by decide)

theorem coherent_step {x y : Exchange α} (h : x.Coherent) (hstep : Step x y) : y.Coherent := by
  obtain ⟨hregistered, haccounted⟩ := h
  cases hstep with
  | subscribe bus rest history once subscriber =>
      exact ⟨hregistered.subscribe once subscriber, accounted_subscribe ⟨hregistered, haccounted⟩ _ _⟩
  | unsubscribe bus rest history id =>
      refine ⟨hregistered.concat (by simp) (fun l => ?_) fun other removed heq => ?_,
        haccounted.concat (handed_concat rfl _ _ _ _) rfl rfl fun l hl => List.mem_of_mem_filter hl⟩
      · show (l.id != id) = true ↔ ¬id = l.id
        rw [bne_iff_ne, ne_comm]
      · obtain ⟨rfl, rfl⟩ := Act.unsubscribe.inj heq
        exact hregistered.removed_iff id
  | publish bus rest history event =>
      refine ⟨hregistered.concat (by simp) (fun l => ?_) (by simp),
        accounted_afterPublish ⟨hregistered, haccounted⟩ event⟩
      show (!l.once) = true ↔ ¬l.once = true
      rw [Bool.not_eq_true', Bool.not_eq_true]
  | clear bus rest history =>
      have hnone : bus.clear = { bus with subscriptions := bus.subscriptions.filter fun _ => false } := by
        rw [List.filter_false]
        rfl
      refine ⟨?_, haccounted.concat (handed_concat rfl _ _ _ _) rfl rfl fun l hl =>
        absurd hl List.not_mem_nil⟩
      show Act.Registered bus.clear (history ++ [.clear])
      rw [hnone]
      exact hregistered.concat (by simp) (fun l => by simp [Act.Ends]) (by simp)
  | deliver bus rest history notice =>
      have hall : bus = { bus with subscriptions := bus.subscriptions.filter fun _ => true } := by
        rw [List.filter_true]
      refine ⟨?_, haccounted.concat (handed_deliver _ _ _ _) rfl rfl fun l hl => hl⟩
      show Act.Registered bus (history ++ [.deliver notice])
      rw [hall]
      exact hregistered.concat (by simp) (fun l => by simp [Act.Ends]) (by simp)
  | finish bus rest history =>
      exact ⟨hregistered, haccounted.past, haccounted.known, haccounted.once⟩

/-- However calls nest, an exchange that started with an unused bus is coherent. -/
theorem coherent_runs {x y : Exchange α} (h : x.Coherent) (hruns : Runs x y) : y.Coherent := by
  induction hruns with
  | refl => exact h
  | tail _ hstep ih => exact coherent_step ih hstep

/-- Histories only grow. -/
theorem history_prefix_runs {x y : Exchange α} (hruns : Runs x y) : x.history <+: y.history := by
  induction hruns with
  | refl => exact List.prefix_rfl
  | tail _ hstep ih =>
      refine ih.trans ?_
      cases hstep with
      | finish => exact List.prefix_rfl
      | _ => exact List.prefix_append _ _

theorem mem_made_runs {x y : Exchange α} (hruns : Runs x y) {l : Subscription α}
    (hl : l ∈ Act.made x.history) : l ∈ Act.made y.history := by
  obtain ⟨later, hlater⟩ := history_prefix_runs hruns
  rw [← hlater, Act.made, List.filterMap_append]
  exact List.mem_append_left _ hl

/-! ## What one publication hands over -/

/-- Only a publication makes new notices. A delivery takes one from those that are due. -/
theorem handed_step {x y : Exchange α} (hstep : Step x y) :
    (y.handed = x.handed ∧ Act.publications y.history = Act.publications x.history) ∨
      ∃ event, y = x.afterPublish event := by
  cases hstep with
  | publish bus rest history event => exact .inr ⟨event, rfl⟩
  | subscribe bus rest history once subscriber =>
      exact .inl ⟨handed_concat rfl bus _ _ history, Act.publications_concat history _⟩
  | unsubscribe bus rest history id =>
      exact .inl ⟨handed_concat rfl bus _ _ history, Act.publications_concat history _⟩
  | clear bus rest history =>
      exact .inl ⟨handed_concat rfl bus _ _ history, Act.publications_concat history _⟩
  | deliver bus rest history notice =>
      exact .inl ⟨handed_deliver bus rest history notice, Act.publications_concat history _⟩
  | finish bus rest history => exact .inl ⟨rfl, rfl⟩

theorem publications_afterPublish (x : Exchange α) (event : Event) :
    Act.publications (x.afterPublish event).history = Act.publications x.history + 1 :=
  Act.publications_concat _ _

/-- What was handed over or is due under an earlier number stays as it is. -/
theorem filter_handed_runs {x y : Exchange α} (hruns : Runs x y) {number : Nat}
    (hnumber : number < Act.publications x.history) :
    number < Act.publications y.history ∧
      y.handed.filter (fun notice => notice.publication == number) =
        x.handed.filter (fun notice => notice.publication == number) := by
  induction hruns with
  | refl => exact ⟨hnumber, rfl⟩
  | @tail y z _ hstep ih =>
      obtain ⟨hlt, heq⟩ := ih
      rcases handed_step hstep with ⟨hhanded, hpublications⟩ | ⟨event, rfl⟩
      · rw [hhanded, hpublications]
        exact ⟨hlt, heq⟩
      · refine ⟨?_, ?_⟩
        · rw [publications_afterPublish]
          exact Nat.lt_succ_of_lt hlt
        · have hnew : (y.notices event).filter (fun notice => notice.publication == number) = [] := by
            rw [List.filter_eq_nil_iff]
            intro notice hnotice
            obtain ⟨l, _, rfl⟩ := List.mem_map.mp hnotice
            exact fun h => absurd (beq_iff_eq.mp h) (Nat.ne_of_gt hlt)
          rw [handed_afterPublish, List.filter_append, List.filter_append, hnew, ← heq]
          exact (List.filter_append ..).symm

theorem Accounted.filter_eq_nil {x : Exchange α} (h : x.Accounted) {notices : List (Notice α)}
    (hsub : ∀ notice ∈ notices, notice ∈ x.handed) :
    notices.filter (fun notice => notice.publication == Act.publications x.history) = [] := by
  rw [List.filter_eq_nil_iff]
  intro notice hnotice heq
  exact absurd (beq_iff_eq.mp heq) (Nat.ne_of_lt (h.past notice (hsub notice hnotice)))

/-- From the moment of the call on, what was handed over and what is due are under the number of the
publication the notices for the subscriptions that were present, in their order. -/
theorem filter_handed_afterPublish {x y : Exchange α} (h : x.Accounted) (event : Event)
    (hruns : Runs (x.afterPublish event) y) :
    y.handed.filter (fun notice => notice.publication == Act.publications x.history) =
      x.notices event := by
  have hnumber : Act.publications x.history < Act.publications (x.afterPublish event).history := by
    rw [publications_afterPublish]
    exact Nat.lt_succ_self _
  have hnew : (x.notices event).filter
      (fun notice => notice.publication == Act.publications x.history) = x.notices event := by
    rw [List.filter_eq_self]
    intro notice hnotice
    obtain ⟨l, _, rfl⟩ := List.mem_map.mp hnotice
    exact beq_self_eq_true _
  rw [(filter_handed_runs hruns hnumber).2, handed_afterPublish, List.filter_append, List.filter_append,
    hnew, h.filter_eq_nil fun _ => List.mem_append_left _,
    h.filter_eq_nil fun _ => List.mem_append_right _]
  exact List.append_nil _

/-- When the call has returned, every subscription that was present has been told, in order, and no other. -/
theorem filter_delivered_of_returned {x y : Exchange α} (h : x.Accounted) (event : Event)
    (hruns : Runs (x.afterPublish event) y) (hreturned : y.stack = x.stack) :
    (Act.delivered y.history).filter
        (fun notice => notice.publication == Act.publications x.history) = x.notices event := by
  have hall := filter_handed_afterPublish h event hruns
  have hnone : (Frame.dues y.stack).filter
      (fun notice => notice.publication == Act.publications x.history) = [] := by
    rw [hreturned]
    exact h.filter_eq_nil fun _ => List.mem_append_right _
  rw [handed, List.filter_append, hnone, List.append_nil] at hall
  exact hall

/-- A subscription to one event is told once at most. -/
theorem countP_delivered_le_one {x : Exchange α} (h : x.Accounted) {l : Subscription α}
    (hl : l ∈ Act.made x.history) (honce : l.once = true) :
    (Act.delivered x.history).countP (fun notice => notice.subscription.id == l.id) ≤ 1 := by
  have hcount := (h.once l hl honce).1
  rw [handed, List.countP_append] at hcount
  exact Nat.le_trans (Nat.le_add_right _ _) hcount

end Exchange

end StyleCascade
