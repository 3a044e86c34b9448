/-
# StyleCascade.Scope.Session — subscribers that act on events

In a session, subscribers have names and act: at each delivery a subscriber carries out the next of the
scripts it was subscribed with, and once these are used up it does nothing more. A script is a list of
commands to the same bus, so a subscriber may subscribe, unsubscribe and publish while an event is being
delivered.

The session works through an agenda of tasks, newest first. Publishing puts one delivery for each
subscriber present on top of the agenda; a delivery puts the commands of its script there. What is
published inside a delivery is therefore delivered in full before the outer event goes on to its next
subscriber.

The agenda empties: a command is carried out once, a script is taken up once, and a delivery is made
once. A step either uses up something of a command or a script, or it makes a delivery and leaves those
as they were.
-/
import StyleCascade.Scope.Bus
import StyleCascade.Scope.Event

namespace StyleCascade

/-- A command to the bus of a session. -/
inductive Command where
  /-- Subscribes a subscriber under a name, with the scripts of its deliveries in order. -/
  | subscribe (name : String) (once : Bool) (scripts : List (List Command))
  /-- Removes the subscriber last subscribed under a name. -/
  | unsubscribe (name : String)
  /-- Publishes an event. -/
  | publish (event : Event)
  /-- Removes every subscriber. -/
  | clear

/-- An event handed to a subscriber. -/
structure Delivery where
  /-- The subscription it goes to. -/
  subscription : SubscriptionId
  /-- Its name. -/
  name : String
  /-- The event. -/
  event : Event
  /-- The number of the publication, counted from zero over the session. -/
  publication : Nat
deriving DecidableEq

/-- Something a session has still to do. -/
inductive Task where
  /-- A command to carry out. -/
  | perform (command : Command)
  /-- A delivery to make. -/
  | deliver (delivery : Delivery)

/-- The state of a session. -/
structure Session where
  /-- The bus, with the names of its subscribers. -/
  bus : Bus String := {}
  /-- The scripts that subscribers have not yet carried out. -/
  scripts : List (SubscriptionId × List (List Command)) := []
  /-- The subscriber last subscribed under each name, newest first. -/
  names : List (String × SubscriptionId) := []
  /-- The number of publications so far. -/
  publications : Nat := 0
  /-- The deliveries made so far, in order. -/
  log : List Delivery := []

namespace Session

instance : Inhabited Session := ⟨{}⟩

/-- The subscriber last subscribed under a name. -/
def subscription? (s : Session) (name : String) : Option SubscriptionId :=
  s.names.lookup name

/-- Takes the next script of a subscriber out of those not yet carried out. -/
def takeScript (id : SubscriptionId) :
    List (SubscriptionId × List (List Command)) → List Command × List (SubscriptionId × List (List Command))
  | [] => ([], [])
  | (i, scripts) :: rest =>
    if i = id then
      match scripts with
      | [] => ([], (i, []) :: rest)
      | script :: later => (script, (i, later) :: rest)
    else
      let found := takeScript id rest
      (found.1, (i, scripts) :: found.2)

/-- The deliveries that publishing an event asks for. -/
def deliveries (s : Session) (event : Event) : List Delivery :=
  s.bus.subscriptions.map fun l => ⟨l.id, l.subscriber, event, s.publications⟩

/-- Carries out one task. The tasks it gives rise to come before all others. -/
def step (s : Session) : Task → Session × List Task
  | .perform (.subscribe name once scripts) =>
    ({ s with
      bus := s.bus.subscribe once name
      scripts := (s.bus.nextId, scripts) :: s.scripts
      names := (name, s.bus.nextId) :: s.names }, [])
  | .perform (.unsubscribe name) =>
    match s.subscription? name with
    | none => (s, [])
    | some id => ({ s with bus := s.bus.unsubscribe id }, [])
  | .perform (.publish event) =>
    ({ s with bus := s.bus.afterPublish, publications := s.publications + 1 },
      (s.deliveries event).map .deliver)
  | .perform .clear => ({ s with bus := s.bus.clear }, [])
  | .deliver d =>
    let found := takeScript d.subscription s.scripts
    ({ s with scripts := found.2, log := s.log ++ [d] }, found.1.map .perform)

/-! ## The agenda empties -/

mutual

/-- The size of a command: itself and the scripts in it. -/
def commandSize : Command → Nat
  | .subscribe _ _ scripts => scriptsSize scripts + 1
  | .unsubscribe _ => 1
  | .publish _ => 1
  | .clear => 1
termination_by structural c => c

/-- The size of a script: the sizes of its commands. -/
def scriptSize : List Command → Nat
  | [] => 0
  | c :: cs => commandSize c + scriptSize cs
termination_by structural cs => cs

/-- The size of a list of scripts. -/
def scriptsSize : List (List Command) → Nat
  | [] => 0
  | script :: later => scriptSize script + scriptsSize later
termination_by structural scripts => scripts

end

/-- The size of the scripts not yet carried out. -/
def pendingSize : List (SubscriptionId × List (List Command)) → Nat
  | [] => 0
  | (_, scripts) :: rest => scriptsSize scripts + pendingSize rest

/-- The size of the commands on an agenda. -/
def agendaSize : List Task → Nat
  | [] => 0
  | .perform c :: rest => commandSize c + agendaSize rest
  | .deliver _ :: rest => agendaSize rest

/-- The number of deliveries on an agenda. -/
def deliveryCount : List Task → Nat
  | [] => 0
  | .perform _ :: rest => deliveryCount rest
  | .deliver _ :: rest => deliveryCount rest + 1

theorem agendaSize_append (a b : List Task) : agendaSize (a ++ b) = agendaSize a + agendaSize b := by
  induction a with
  | nil => simp [agendaSize]
  | cons t rest ih => cases t <;> simp [agendaSize, ih, Nat.add_assoc]

theorem deliveryCount_append (a b : List Task) :
    deliveryCount (a ++ b) = deliveryCount a + deliveryCount b := by
  induction a with
  | nil => simp [deliveryCount]
  | cons t rest ih =>
    cases t
    · simp [deliveryCount, ih]
    · simp only [List.cons_append, deliveryCount, ih]
      omega

theorem agendaSize_map_perform (script : List Command) :
    agendaSize (script.map .perform) = scriptSize script := by
  induction script with
  | nil => rfl
  | cons c cs ih => simp [agendaSize, scriptSize, ih]

theorem deliveryCount_map_perform (script : List Command) :
    deliveryCount (script.map .perform) = 0 := by
  induction script with
  | nil => rfl
  | cons c cs ih => simp [deliveryCount, ih]

theorem agendaSize_map_deliver (ds : List Delivery) : agendaSize (ds.map .deliver) = 0 := by
  induction ds with
  | nil => rfl
  | cons d ds ih => simp [agendaSize, ih]

/-- Taking a script out moves its size from the scripts to the one taken. -/
theorem scriptSize_takeScript (id : SubscriptionId) (pending : List (SubscriptionId × List (List Command))) :
    scriptSize (takeScript id pending).1 + pendingSize (takeScript id pending).2 =
      pendingSize pending := by
  induction pending with
  | nil => rfl
  | cons head rest ih =>
    obtain ⟨i, scripts⟩ := head
    simp only [takeScript]
    split
    · cases scripts with
      | nil => simp [scriptSize, pendingSize, scriptsSize]
      | cons script later => simp [pendingSize, scriptsSize, Nat.add_assoc]
    · simp only [pendingSize]
      omega

/-- A command uses up something of what is left to be done. -/
theorem size_step_perform (s : Session) (c : Command) :
    agendaSize (s.step (.perform c)).2 + pendingSize (s.step (.perform c)).1.scripts <
      commandSize c + pendingSize s.scripts := by
  cases c with
  | subscribe name once scripts =>
    simp only [step, agendaSize, pendingSize, commandSize]
    omega
  | unsubscribe name =>
    simp only [step]
    split <;> simp [agendaSize, commandSize]
  | publish event =>
    simp only [step, agendaSize_map_deliver, commandSize]
    omega
  | clear => simp [step, agendaSize, commandSize]

/-- A delivery leaves what is left to be done as it is and is itself made. -/
theorem size_step_deliver (s : Session) (d : Delivery) :
    agendaSize (s.step (.deliver d)).2 + pendingSize (s.step (.deliver d)).1.scripts =
        pendingSize s.scripts ∧
      deliveryCount (s.step (.deliver d)).2 = 0 := by
  simp only [step, agendaSize_map_perform, deliveryCount_map_perform, and_true]
  exact scriptSize_takeScript d.subscription s.scripts

/-- Works through an agenda. -/
def run (s : Session) : List Task → Session
  | [] => s
  | task :: rest => run (s.step task).1 ((s.step task).2 ++ rest)
termination_by agenda => (agendaSize agenda + pendingSize s.scripts, deliveryCount agenda)
decreasing_by
  rw [agendaSize_append, deliveryCount_append]
  cases task with
  | perform c =>
    have := size_step_perform s c
    simp only [agendaSize]
    exact .left _ _ (by omega)
  | deliver d =>
    obtain ⟨hsize, hcount⟩ := size_step_deliver s d
    simp only [agendaSize, deliveryCount, hcount]
    rw [show agendaSize (s.step (.deliver d)).2 + agendaSize rest +
        pendingSize (s.step (.deliver d)).1.scripts = agendaSize rest + pendingSize s.scripts by omega]
    exact .right _ (by omega)

/-- Carries out a command and all that follows from it. -/
def perform (s : Session) (command : Command) : Session :=
  s.run [.perform command]

end Session

end StyleCascade
