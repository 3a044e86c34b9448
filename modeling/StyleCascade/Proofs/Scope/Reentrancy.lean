/-
# StyleCascade.Proofs.Scope.Reentrancy — sessions are exchanges

The subscribers of a session do what their scripts say, while those of an exchange do as they like. So what
is true of every exchange is true of every session, once a session is seen as an exchange: tasks become
frames (`Covers`), where one active frame may stand for any number of commands in a row and for none.
A step of the session is some steps of the exchange (`exists_runs_step`), and so is all that follows from a
command (`exists_runs_run`), whatever is left to be done after it.

A publication in a session is therefore complete when its command is done, at whatever depth it was given
(`log_perform_publish`), and a subscription to one event never gets a second one (`countP_log_le_one`).
-/
import StyleCascade.Proofs.Scope.Exchange
import StyleCascade.Scope.Session

namespace StyleCascade

/-- The delivery of a notice. -/
def Notice.delivery (notice : Notice String) : Delivery :=
  ⟨notice.subscription.id, notice.subscription.subscriber, notice.event, notice.publication⟩

namespace Session

open Exchange

/-! ## Tasks as frames -/

/-- An exchange with the bus of a session and the same past. -/
structure Shows (s : Session) (x : Exchange String) : Prop where
  bus : x.bus = s.bus
  publications : Act.publications x.history = s.publications
  log : (Act.delivered x.history).map Notice.delivery = s.log

/-- Frames that can do what an agenda asks for. -/
inductive Covers : List Task → List (Frame String) → Prop
  | nil : Covers [] []
  | idle {agenda : List Task} {frames : List (Frame String)} :
      Covers agenda frames → Covers agenda (.active :: frames)
  | perform {agenda : List Task} {frames : List (Frame String)} (command : Command) :
      Covers agenda (.active :: frames) → Covers (.perform command :: agenda) (.active :: frames)
  | deliver {agenda : List Task} {frames : List (Frame String)} (notice : Notice String) :
      Covers agenda frames → Covers (.deliver notice.delivery :: agenda) (.due notice :: frames)

variable {agenda : List Task} {frames : List (Frame String)}

theorem covers_map_perform (h : Covers agenda (.active :: frames)) (script : List Command) :
    Covers (script.map .perform ++ agenda) (.active :: frames) := by
  induction script with
  | nil => exact h
  | cons command rest ih => exact ih.perform command

theorem covers_map_deliver (h : Covers agenda frames) (notices : List (Notice String)) :
    Covers ((notices.map Notice.delivery).map .deliver ++ agenda) (notices.map .due ++ frames) := by
  induction notices with
  | nil => exact h
  | cons notice rest ih => exact ih.deliver notice

/-- Frames with nothing left to do return. -/
theorem runs_of_covers_nil (h : Covers [] frames) (bus : Bus String) (below : List (Frame String))
    (history : List (Act String)) : Runs ⟨bus, frames ++ below, history⟩ ⟨bus, below, history⟩ := by
  generalize hnone : ([] : List Task) = none at h
  induction h with
  | nil => exact .refl
  | idle _ ih => exact .head (.finish bus _ history) (ih hnone)
  | perform => exact absurd hnone (by simp)
  | deliver => exact absurd hnone (by simp)

/-- Frames with a command to carry out return until the frame that does so is on top. -/
theorem exists_runs_of_covers_perform {command : Command} (h : Covers (.perform command :: agenda) frames)
    (bus : Bus String) (below : List (Frame String)) (history : List (Act String)) :
    ∃ rest, Covers agenda (.active :: rest) ∧
      Runs ⟨bus, frames ++ below, history⟩ ⟨bus, .active :: (rest ++ below), history⟩ := by
  generalize htasks : Task.perform command :: agenda = tasks at h
  induction h with
  | nil => exact absurd htasks (by simp)
  | idle _ ih =>
      obtain ⟨rest, hrest, hruns⟩ := ih htasks
      exact ⟨rest, hrest, .head (.finish bus _ history) hruns⟩
  | perform _ hrest =>
      obtain ⟨_, rfl⟩ := List.cons.inj htasks
      exact ⟨_, hrest, .refl⟩
  | deliver => exact absurd htasks (by simp)

/-- Frames with a delivery to make return until it is on top. -/
theorem exists_runs_of_covers_deliver {d : Delivery} (h : Covers (.deliver d :: agenda) frames)
    (bus : Bus String) (below : List (Frame String)) (history : List (Act String)) :
    ∃ notice rest, notice.delivery = d ∧ Covers agenda rest ∧
      Runs ⟨bus, frames ++ below, history⟩ ⟨bus, .due notice :: (rest ++ below), history⟩ := by
  generalize htasks : Task.deliver d :: agenda = tasks at h
  induction h with
  | nil => exact absurd htasks (by simp)
  | idle _ ih =>
      obtain ⟨notice, rest, hnotice, hrest, hruns⟩ := ih htasks
      exact ⟨notice, rest, hnotice, hrest, .head (.finish bus _ history) hruns⟩
  | perform => exact absurd htasks (by simp)
  | deliver notice hrest =>
      obtain ⟨htask, rfl⟩ := List.cons.inj htasks
      exact ⟨notice, _, (Task.deliver.inj htask).symm, hrest, .refl⟩

/-! ## Steps -/

variable {s : Session} {x : Exchange String} {below : List (Frame String)}

theorem Shows.map_delivery_notices (h : s.Shows x) (event : Event) :
    (x.notices event).map Notice.delivery = s.deliveries event := by
  unfold Exchange.notices deliveries
  rw [List.map_map, h.bus, h.publications]
  rfl

/-- Session and exchange go on together: one more act on one side is what was counted and logged on the
other. -/
theorem Shows.concat (h : s.Shows x) {t : Session} {y : Exchange String} {act : Act String}
    (hhistory : y.history = x.history ++ [act]) (hbus : y.bus = t.bus)
    (hpublications : t.publications = s.publications + Act.publications [act])
    (hlog : t.log = s.log ++ (Act.delivered [act]).map Notice.delivery) : t.Shows y where
  bus := hbus
  publications := by rw [hhistory, Act.publications_concat, h.publications, hpublications]
  log := by rw [hhistory, Act.delivered_concat, List.map_append, h.log, hlog]

/-- What a session does in a step, an exchange does in some steps, whatever is below. -/
theorem exists_runs_step {task : Task} (hshows : s.Shows x) (hcovers : Covers (task :: agenda) frames)
    (hstack : x.stack = frames ++ below) :
    ∃ y rest, Runs x y ∧ (s.step task).1.Shows y ∧ Covers ((s.step task).2 ++ agenda) rest ∧
      y.stack = rest ++ below := by
  obtain ⟨bus, stack, history⟩ := x
  obtain rfl : stack = frames ++ below := hstack
  obtain rfl : bus = s.bus := hshows.bus
  have hquiet : s.log = s.log ++ [] := (List.append_nil _).symm
  cases task with
  | perform command =>
      obtain ⟨rest, hrest, hruns⟩ := exists_runs_of_covers_perform hcovers s.bus below history
      cases command with
      | subscribe name once scripts =>
          exact ⟨_, .active :: rest, hruns.tail (.subscribe _ _ _ once name),
            hshows.concat rfl rfl rfl hquiet, hrest, rfl⟩
      | unsubscribe name =>
          rw [step]
          cases s.subscription? name with
          | none => exact ⟨_, .active :: rest, hruns, ⟨rfl, hshows.publications, hshows.log⟩, hrest, rfl⟩
          | some id =>
              exact ⟨_, .active :: rest, hruns.tail (.unsubscribe _ _ _ id),
                hshows.concat rfl rfl rfl hquiet, hrest, rfl⟩
      | publish event =>
          have hnotices := hshows.map_delivery_notices event
          refine ⟨_, (Exchange.notices ⟨s.bus, frames ++ below, history⟩ event).map .due ++ .active :: rest,
            hruns.tail (.publish _ _ _ event), hshows.concat rfl rfl rfl hquiet, ?_, ?_⟩
          · rw [step, ← hnotices]
            exact covers_map_deliver hrest _
          · rw [List.append_assoc]
            rfl
      | clear =>
          exact ⟨_, .active :: rest, hruns.tail (.clear _ _ _), hshows.concat rfl rfl rfl hquiet, hrest,
            rfl⟩
  | deliver d =>
      obtain ⟨notice, rest, rfl, hrest, hruns⟩ :=
        exists_runs_of_covers_deliver hcovers s.bus below history
      exact ⟨_, .active :: rest, hruns.tail (.deliver _ _ _ notice), hshows.concat rfl rfl rfl rfl,
        covers_map_perform hrest.idle _, rfl⟩

/-- All that follows from an agenda, an exchange does in some steps and comes back to what is below. -/
theorem exists_runs_run (hshows : s.Shows x) (hcovers : Covers agenda frames)
    (hstack : x.stack = frames ++ below) :
    ∃ y, Runs x y ∧ (s.run agenda).Shows y ∧ y.stack = below := by
  induction s, agenda using Session.run.induct generalizing x frames with
  | case1 s =>
      obtain ⟨bus, stack, history⟩ := x
      obtain rfl : stack = _ := hstack
      rw [run]
      exact ⟨⟨bus, below, history⟩, runs_of_covers_nil hcovers bus below history,
        ⟨hshows.bus, hshows.publications, hshows.log⟩, rfl⟩
  | case2 s task agenda ih =>
      obtain ⟨y, rest, hruns, hshows', hcovers', hstack'⟩ := exists_runs_step hshows hcovers hstack
      obtain ⟨z, hruns', hshows'', hstack''⟩ := ih hshows' hcovers' hstack'
      rw [run]
      exact ⟨z, hruns.trans hruns', hshows'', hstack''⟩

/-! ## Publications in sessions -/

theorem run_append (s : Session) (agenda later : List Task) :
    s.run (agenda ++ later) = (s.run agenda).run later := by
  induction s, agenda using Session.run.induct with
  | case1 s => rw [run, List.nil_append]
  | case2 s task agenda ih => rw [List.cons_append, run, run, ← ih, List.append_assoc]

/-- A session and its agenda as they come up when commands are carried out, at whatever depth. -/
inductive ComesUp : Session → List Task → Prop
  | start (commands : List Command) : ComesUp {} (commands.map .perform)
  | step {s : Session} {task : Task} {agenda : List Task} :
      ComesUp s (task :: agenda) → ComesUp (s.step task).1 ((s.step task).2 ++ agenda)

theorem ComesUp.exists_runs (h : ComesUp s agenda) :
    ∃ x, Runs {} x ∧ s.Shows x ∧ Covers agenda x.stack := by
  induction h with
  | start commands =>
      have hcovers := covers_map_perform (.idle .nil) commands
      rw [List.append_nil] at hcovers
      exact ⟨{}, .refl, ⟨rfl, rfl, rfl⟩, hcovers⟩
  | step _ ih =>
      obtain ⟨x, hruns, hshows, hcovers⟩ := ih
      obtain ⟨y, rest, hfurther, hshows', hcovers', hstack⟩ :=
        exists_runs_step hshows hcovers (List.append_nil x.stack).symm
      rw [List.append_nil] at hstack
      exact ⟨y, hruns.trans hfurther, hshows', hstack ▸ hcovers'⟩

theorem Shows.filter_log (h : s.Shows x) (number : Nat) :
    s.log.filter (fun d => d.publication == number) =
      ((Act.delivered x.history).filter fun notice => notice.publication == number).map
        Notice.delivery := by
  rw [← h.log, List.filter_map]
  rfl

/-- A publication in a session, at whatever depth, has been delivered when its command is done: once to
every subscription that was there, in their order, and to no other. What the session does later adds
nothing to that. -/
theorem log_perform_publish {event : Event} (h : ComesUp s (.perform (.publish event) :: agenda)) :
    (s.perform (.publish event)).log.filter (fun d => d.publication == s.publications) =
        s.deliveries event ∧
      s.run (.perform (.publish event) :: agenda) = (s.perform (.publish event)).run agenda ∧
      (s.run (.perform (.publish event) :: agenda)).log.filter
        (fun d => d.publication == s.publications) = s.deliveries event := by
  obtain ⟨⟨bus, stack, history⟩, hruns, hshows, hcovers⟩ := h.exists_runs
  obtain rfl : bus = s.bus := hshows.bus
  obtain ⟨rest, hrest, hactive⟩ := exists_runs_of_covers_perform hcovers s.bus [] history
  rw [List.append_nil, List.append_nil] at hactive
  -- the exchange at the moment of the call
  let x : Exchange String := ⟨s.bus, .active :: rest, history⟩
  have hx : s.Shows x := ⟨rfl, hshows.publications, hshows.log⟩
  have haccounted : x.Accounted := (coherent_runs coherent_start (hruns.trans hactive)).accounted
  have hnumber : s.publications = Act.publications x.history := hshows.publications.symm
  have hnotices := hx.map_delivery_notices event
  have hbegun : (s.step (.perform (.publish event))).1.Shows (x.afterPublish event) :=
    hx.concat rfl rfl rfl (List.append_nil _).symm
  have hdue := covers_map_deliver .nil (x.notices event)
  rw [List.append_nil, List.append_nil, hnotices] at hdue
  obtain ⟨y, hy, hshowsY, hreturned⟩ := exists_runs_run hbegun hdue rfl
  have hperform : s.perform (.publish event) =
      (s.step (.perform (.publish event))).1.run ((s.deliveries event).map .deliver) := by
    rw [perform, run, List.append_nil]
    rfl
  have hsplit : s.run (.perform (.publish event) :: agenda) =
      (s.perform (.publish event)).run agenda := s.run_append [.perform (.publish event)] agenda
  refine ⟨?_, hsplit, ?_⟩
  · rw [hperform, hshowsY.filter_log, hnumber, filter_delivered_of_returned haccounted event hy hreturned,
      hnotices]
  · obtain ⟨z, hz, hshowsZ, hdone⟩ := exists_runs_run hshowsY hrest
      (hreturned.trans (List.append_nil (.active :: rest)).symm)
    have hall := filter_handed_afterPublish haccounted event (hy.trans hz)
    rw [handed, hdone] at hall
    rw [hsplit, hperform, hshowsZ.filter_log, hnumber, ← hnotices, ← hall]
    exact congrArg _ (congrArg _ (List.append_nil _).symm)

/-- A subscription to one event is told once at most in a session, at whatever depth it is published. -/
theorem countP_log_le_one (h : ComesUp s agenda) {l : Subscription String}
    (hl : l ∈ s.bus.subscriptions) (honce : l.once = true) :
    (s.run agenda).log.countP (fun d => d.subscription == l.id) ≤ 1 := by
  obtain ⟨x, hruns, hshows, hcovers⟩ := h.exists_runs
  obtain ⟨y, hy, hshowsY, _⟩ := exists_runs_run hshows hcovers (List.append_nil x.stack).symm
  have hx := coherent_runs coherent_start hruns
  have hmade := mem_made_runs hy (hx.registered.mem_made (hshows.bus ▸ hl))
  rw [← hshowsY.log, List.countP_map]
  exact countP_delivered_le_one (coherent_runs hx hy).accounted hmade honce

end Session

end StyleCascade
