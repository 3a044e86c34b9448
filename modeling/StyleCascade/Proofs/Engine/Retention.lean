/-
# StyleCascade.Proofs.Engine.Retention — what is remembered, and for how long

A resolver forgets everything at once or nothing. It is wiped (`Wipes`) when an event that affects its
scope is delivered to it, when it is told to forget, and when it stores a computed answer while the others
are of another generation or as many as it may remember. What it remembers is what it computed since it was
wiped last (`ComputedSinceWipe`): one operation adds what it computes to what was there, unless it wipes it
(`mem_answers_step`), and a run does so operation by operation (`mem_answers_run`).

So a request that is repeated with no wipe in between is answered with the very answer that was given
before, and not with another one that says the same (`resolve_again`).
-/
import StyleCascade.Proofs.Engine.Lifetime
import StyleCascade.Proofs.Resolver.Memory

namespace StyleCascade.Engine

variable {engine : Engine Id} {id : SubscriptionId} {operation : Operation} {operations : List Operation}
  {e : Request × Answer} {r r' : Resolver}

/-! ## Computing and wiping -/

/-- The operation makes a resolver compute an answer that it does not remember, and this is the request with
the answer given. -/
def Computes (engine : Engine Id) (id : SubscriptionId) (operation : Operation)
    (e : Request × Answer) : Prop :=
  ∃ r base n, engine.resolver? id = some r ∧ operation = .resolve id base n ∧
    r.Misses engine.store base n ∧ e.1 = r.request engine.store base n ∧
    (engine.resolve id base n).run.2 = some e.2

/-- The operation makes a resolver drop all that it remembers. -/
def Wipes (engine : Engine Id) (id : SubscriptionId) (operation : Operation) : Prop :=
  ∃ r, engine.resolver? id = some r ∧
    ((∃ event, engine.Delivers operation id event ∧ event.affects r.scope = true) ∨
      operation = .forget id ∨
      ∃ base n, operation = .resolve id base n ∧ r.Overflows engine.store base n)

/-- Some of the operations wipes the memory of a resolver. -/
def Wiped (engine : Engine Id) (id : SubscriptionId) (operations : List Operation) : Prop :=
  ∃ before operation after, operations = before ++ operation :: after ∧
    (engine.run before).Wipes id operation

/-- An answer was computed by one of the operations, and none after it wipes the memory of the resolver. -/
def ComputedSinceWipe (engine : Engine Id) (id : SubscriptionId) (operations : List Operation)
    (e : Request × Answer) : Prop :=
  ∃ before operation after, operations = before ++ operation :: after ∧
    (engine.run before).Computes id operation e ∧
    ¬(engine.run (before ++ [operation])).Wiped id after

/-- A list with one more element is taken apart at that element or at an earlier one. -/
theorem exists_split_concat {α : Type} {l : List α} {last : α} {P : List α → α → List α → Prop} :
    (∃ before a after, l ++ [last] = before ++ a :: after ∧ P before a after) ↔
      P l last [] ∨ ∃ before a after, l = before ++ a :: after ∧ P before a (after ++ [last]) := by
  constructor
  · rintro ⟨before, a, after, hsplit, h⟩
    rcases List.eq_nil_or_concat after with rfl | ⟨init, b, rfl⟩
    · obtain ⟨rfl, hlast⟩ := List.append_inj' hsplit rfl
      obtain rfl := (List.cons.inj hlast).1
      exact .inl h
    · rw [List.concat_eq_append, ← List.cons_append, ← List.append_assoc] at hsplit
      obtain ⟨rfl, hlast⟩ := List.append_inj' hsplit rfl
      obtain rfl := (List.cons.inj hlast).1
      rw [List.concat_eq_append] at h
      exact .inr ⟨before, a, init, rfl, h⟩
  · rintro (h | ⟨before, a, after, rfl, h⟩)
    · exact ⟨l, last, [], rfl, h⟩
    · exact ⟨before, a, after ++ [last], by simp, h⟩

theorem wiped_concat : engine.Wiped id (operations ++ [operation]) ↔
    engine.Wiped id operations ∨ (engine.run operations).Wipes id operation := by
  unfold Wiped
  rw [exists_split_concat, or_comm]

theorem not_wiped_nil : ¬engine.Wiped id [] := by
  rintro ⟨before, operation, after, hsplit, _⟩
  exact absurd hsplit.symm (by simp)

/-- One more operation adds what it computes, and leaves what was there if it does not wipe it. -/
theorem computedSinceWipe_concat : engine.ComputedSinceWipe id (operations ++ [operation]) e ↔
    (engine.run operations).Computes id operation e ∨
      (engine.ComputedSinceWipe id operations e ∧ ¬(engine.run operations).Wipes id operation) := by
  unfold ComputedSinceWipe
  rw [exists_split_concat]
  refine or_congr (and_iff_left not_wiped_nil) ?_
  simp only [wiped_concat, not_or]
  constructor
  · rintro ⟨before, computing, after, rfl, hcomputes, hnot, hlast⟩
    rw [← run_append, List.append_assoc] at hlast
    exact ⟨⟨before, computing, after, rfl, hcomputes, hnot⟩, hlast⟩
  · rintro ⟨⟨before, computing, after, rfl, hcomputes, hnot⟩, hlast⟩
    refine ⟨before, computing, after, rfl, hcomputes, hnot, ?_⟩
    rw [← run_append, List.append_assoc]
    exact hlast

theorem computedSinceWipe_append (h : engine.ComputedSinceWipe id operations e) {later : List Operation}
    (hnot : ¬(engine.run operations).Wiped id later) :
    engine.ComputedSinceWipe id (operations ++ later) e := by
  induction later using List.reverseRecOn with
  | nil => rwa [List.append_nil]
  | append_singleton before operation ih =>
      rw [wiped_concat, not_or, ← run_append] at hnot
      rw [← List.append_assoc, computedSinceWipe_concat]
      exact .inr ⟨ih hnot.1, hnot.2⟩

/-! ## One operation -/

theorem answer_resolve (h : engine.resolver? id = some r) (base : Option String) (n : Node) :
    (engine.resolve id base n).run.2 =
      some (r.resolve engine.store engine.computed base n).run.2 := by
  obtain ⟨computed, hresolve⟩ := resolve_of_resolver? h base n
  rw [hresolve]

theorem computes_resolve_iff (h : engine.resolver? id = some r) {base : Option String} {n : Node} :
    engine.Computes id (.resolve id base n) e ↔ r.Misses engine.store base n ∧
      e.1 = r.request engine.store base n ∧
      e.2 = (r.resolve engine.store engine.computed base n).run.2 := by
  constructor
  · rintro ⟨found, base', n', hfound, hop, hmisses, hrequest, hanswer⟩
    rw [h] at hfound
    obtain rfl := Option.some.inj hfound
    obtain ⟨_, rfl, rfl⟩ := Operation.resolve.inj hop
    rw [answer_resolve h] at hanswer
    exact ⟨hmisses, hrequest, (Option.some.inj hanswer).symm⟩
  · rintro ⟨hmisses, hrequest, hanswer⟩
    refine ⟨r, base, n, h, rfl, hmisses, hrequest, ?_⟩
    rw [answer_resolve h, hanswer]

theorem not_computes (hop : ∀ base n, operation ≠ .resolve id base n) :
    ¬engine.Computes id operation e := by
  rintro ⟨_, base, n, _, heq, _⟩
  exact hop base n heq

theorem wipes_iff (h : engine.resolver? id = some r) : engine.Wipes id operation ↔
    (∃ event, engine.Delivers operation id event ∧ event.affects r.scope = true) ∨
      operation = .forget id ∨
      ∃ base n, operation = .resolve id base n ∧ r.Overflows engine.store base n := by
  constructor
  · rintro ⟨found, hfound, hwipes⟩
    rw [h] at hfound
    obtain rfl := Option.some.inj hfound
    exact hwipes
  · exact fun hwipes => ⟨r, h, hwipes⟩

/-- An operation that tells a resolver of an event wipes its memory exactly if the event affects its
scope. -/
theorem wipes_iff_of_delivers (h : engine.resolver? id = some r) {event : Event}
    (hdelivers : engine.Delivers operation id event) :
    engine.Wipes id operation ↔ event.affects r.scope = true := by
  have hevent := hdelivers.event?_eq
  rw [wipes_iff h]
  constructor
  · rintro (⟨told, htold, haffects⟩ | rfl | ⟨base, n, rfl, _⟩)
    · obtain rfl := Option.some.inj (hevent.symm.trans htold.event?_eq)
      exact haffects
    · exact absurd hevent nofun
    · exact absurd hevent nofun
  · exact fun haffects => .inl ⟨event, hdelivers, haffects⟩

theorem wipes_resolve_iff (h : engine.resolver? id = some r) {base : Option String} {n : Node} :
    engine.Wipes id (.resolve id base n) ↔ r.Overflows engine.store base n := by
  rw [wipes_iff h]
  constructor
  · rintro (⟨event, hdelivers, _⟩ | heq | ⟨base', n', heq, hoverflows⟩)
    · exact absurd hdelivers.event?_eq nofun
    · exact absurd heq nofun
    · obtain ⟨_, rfl, rfl⟩ := Operation.resolve.inj heq
      exact hoverflows
  · exact fun hoverflows => .inr (.inr ⟨base, n, rfl, hoverflows⟩)

/-- After an operation a resolver remembers what it computed by it, and what it remembered before unless
that was wiped. -/
theorem mem_answers_step (h : engine.resolver? id = some r) (hkept : r.WellKept)
    (hcapacity : 0 < r.capacity) (hfares : engine.Fares id r operation r') :
    e ∈ r'.memo.answers ↔ engine.Computes id operation e ∨
      (e ∈ r.memo.answers ∧ ¬engine.Wipes id operation) := by
  cases hfares with
  | heeds hdelivers =>
      rw [wipes_iff_of_delivers h hdelivers, or_iff_right (not_computes ?_)]
      · unfold Resolver.heed
        split
        · rename_i haffects
          exact iff_of_false List.not_mem_nil fun hmem => hmem.2 haffects
        · rename_i haffects
          rw [and_iff_left haffects]
      · rintro base n rfl
        exact absurd hdelivers.event?_eq nofun
  | forgets =>
      have hwipes : engine.Wipes id (.forget id) := (wipes_iff h).mpr (.inr (.inl rfl))
      have hquiet : ¬engine.Computes id (.forget id) e := not_computes nofun
      rw [or_iff_right hquiet]
      exact iff_of_false List.not_mem_nil fun hmem => hmem.2 hwipes
  | answers base n =>
      rw [Resolver.mem_answers_resolve hkept hcapacity, computes_resolve_iff h, wipes_resolve_iff h]
  | stays hquiet haddressee =>
      rw [or_iff_right (not_computes ?_), wipes_iff h]
      · refine (and_iff_left ?_).symm
        rintro (⟨event, hdelivers, _⟩ | rfl | ⟨base, n, rfl, _⟩)
        · exact hquiet event hdelivers
        · exact haddressee rfl
        · exact haddressee rfl
      · rintro base n rfl
        exact haddressee rfl

theorem wellKept_fares (h : r.WellKept) (hfares : engine.Fares id r operation r') : r'.WellKept := by
  cases hfares with
  | heeds _ => exact Resolver.wellKept_heed h _
  | forgets => exact Memo.wellKept_empty _
  | answers base n => exact Resolver.wellKept_resolve h _ _ _ _
  | stays _ _ => exact h

/-! ## A run -/

section Run

variable {capacity : Nat}

/-- The memory of a resolver is always well kept. -/
theorem wellKept_run (h : (run { capacity := capacity } operations).resolver? id = some r) :
    r.WellKept := by
  refine resolver?_start_induction (P := fun _ found => found.WellKept) ?_ ?_ h
  · intro before operation scope capacity _
    exact Memo.wellKept_empty _
  · intro before operation found found' _ hkept hfares
    exact wellKept_fares hkept hfares

/-- The resolver that has computed something has a number of its own. -/
theorem ne_nextId_of_computed (h : ({ capacity := capacity } : Engine Id).ComputedSinceWipe id operations e) :
    id ≠ (run { capacity := capacity } operations).bus.nextId := by
  obtain ⟨before, operation, after, rfl, ⟨found, _, _, hfound, _⟩, _⟩ := h
  rw [run_append]
  exact ne_nextId_of_resolver? (owned_start capacity before) hfound (operation :: after)

/-- A resolver remembers what it computed since it was wiped last, and nothing else. -/
theorem mem_answers_run (h : (run { capacity := capacity } operations).resolver? id = some r)
    (hcapacity : 0 < r.capacity) (e : Request × Answer) :
    e ∈ r.memo.answers ↔
      ({ capacity := capacity } : Engine Id).ComputedSinceWipe id operations e := by
  refine resolver?_start_induction (P := fun operations found => 0 < found.capacity →
    (e ∈ found.memo.answers ↔
      ({ capacity := capacity } : Engine Id).ComputedSinceWipe id operations e)) ?_ ?_ h hcapacity
  · -- a new resolver remembers nothing, and its number has computed nothing
    intro before operation scope capacity' hid _
    refine iff_of_false List.not_mem_nil fun hcomputed => ?_
    rcases computedSinceWipe_concat.mp hcomputed with ⟨found, _, _, hfound, _⟩ | ⟨hbefore, _⟩
    · exact ne_nextId_of_resolver? (owned_start capacity before) hfound [] hid
    · exact ne_nextId_of_computed hbefore hid
  · intro before operation found found' hfound ih hfares hpositive
    rw [hfares.kept.2] at hpositive
    rw [computedSinceWipe_concat, mem_answers_step hfound (wellKept_run hfound) hpositive hfares,
      ih hpositive]

/-! ## One and the same answer -/

/-- The answer that a resolver gives was computed just now, or before and not wiped since. -/
theorem computedSinceWipe_resolve
    (h : (run { capacity := capacity } operations).resolver? id = some r) (hcapacity : 0 < r.capacity)
    (base : Option String) (n : Node) :
    let engine := run { capacity := capacity } operations
    ({ capacity := capacity } : Engine Id).ComputedSinceWipe id (operations ++ [.resolve id base n])
      (r.request engine.store base n,
        (r.resolve engine.store engine.computed base n).run.2) := by
  intro engine
  rw [computedSinceWipe_concat]
  cases hget : r.memo.get? (r.request engine.store base n) with
  | none => exact .inl ((computes_resolve_iff h).mpr ⟨hget, rfl, rfl⟩)
  | some answer =>
      rw [Resolver.resolve_of_get? hget]
      refine .inr ⟨(mem_answers_run h hcapacity _).mp (Memo.mem_of_get? hget), ?_⟩
      rw [wipes_resolve_iff h]
      exact fun hoverflows => absurd (hget.symm.trans hoverflows.1) nofun

/-- A request that is repeated with no wipe in between is answered with the answer that was given. -/
theorem resolve_again (h : (run { capacity := capacity } operations).resolver? id = some r)
    (hcapacity : 0 < r.capacity) {base base' : Option String} {n n' : Node} {later : List Operation} :
    let engine := run { capacity := capacity } operations
    let again := engine.run (.resolve id base n :: later)
    ¬(engine.perform (.resolve id base n)).Wiped id later → again.resolver? id = some r' →
      r'.request again.store base' n' = r.request engine.store base n →
        (again.resolve id base' n').run.2 = (engine.resolve id base n).run.2 := by
  intro engine again hnot h' hrequest
  have hagain : again =
      run { capacity := capacity } (operations ++ [.resolve id base n] ++ later) := by
    rw [run_append, run_append]
    rfl
  have hasked : engine.perform (.resolve id base n) =
      run { capacity := capacity } (operations ++ [.resolve id base n]) := by
    rw [run_append]
    rfl
  have hcapacity' : 0 < r'.capacity := by
    rw [(same_of_resolver? (owned_start capacity operations) h h').2]
    exact hcapacity
  rw [hasked] at hnot
  rw [answer_resolve h, answer_resolve h']
  rw [hagain] at h'
  have hcomputed := computedSinceWipe_append (computedSinceWipe_resolve h hcapacity base n) hnot
  have hget := (Memo.get?_eq_some_iff (wellKept_run h')).mpr
    ((mem_answers_run h' hcapacity' _).mpr hcomputed)
  rw [← hrequest] at hget
  rw [Resolver.resolve_of_get? hget]

/-- What is remembered was computed at some time. -/
theorem exists_computes_of_mem (h : (run { capacity := capacity } operations).resolver? id = some r)
    (he : e ∈ r.memo.answers) : ∃ before operation after, operations = before ++ operation :: after ∧
      (run { capacity := capacity } before).Computes id operation e := by
  have hcapacity : 0 < r.capacity :=
    Nat.lt_of_lt_of_le (List.length_pos_of_mem he) (wellKept_run h).bounded
  obtain ⟨before, operation, after, hsplit, hcomputes, _⟩ := (mem_answers_run h hcapacity e).mp he
  exact ⟨before, operation, after, hsplit, hcomputes⟩

end Run

/-! ## Every computed answer is a new one -/

theorem computed_resolve (h : engine.resolver? id = some r) (base : Option String) (n : Node) :
    (engine.resolve id base n).run.1.computed = max engine.computed
      ((r.resolve engine.store engine.computed base n).run.2.serial + 1) := by
  unfold resolve
  rw [h]
  rfl

theorem computed_le_perform (engine : Engine Id) (operation : Operation) :
    engine.computed ≤ (engine.perform operation).computed := by
  have heffect := effect_perform engine operation
  generalize engine.perform operation = changed at heffect
  cases heffect with
  | putResolver _ _ hle => exact hle
  | _ => exact Nat.le_refl _

theorem computed_le_run (engine : Engine Id) (operations : List Operation) :
    engine.computed ≤ (engine.run operations).computed := by
  induction operations generalizing engine with
  | nil => exact Nat.le_refl _
  | cons operation rest ih =>
      exact Nat.le_trans (computed_le_perform engine operation) (ih (engine.perform operation))

/-- A computed answer takes the next number, which is then used up. -/
theorem serial_of_computes (h : engine.Computes id operation e) :
    e.2.serial = engine.computed ∧ e.2.serial < (engine.perform operation).computed := by
  obtain ⟨r, base, n, hr, rfl, hmisses, _, hanswer⟩ := h
  rw [answer_resolve hr] at hanswer
  have hserial : e.2.serial = engine.computed := by
    rw [← Option.some.inj hanswer, Resolver.resolve_of_misses hmisses]
  refine ⟨hserial, ?_⟩
  show _ < (engine.resolve id base n).run.1.computed
  rw [computed_resolve hr, Option.some.inj hanswer]
  exact Nat.lt_of_lt_of_le (Nat.lt_succ_self _) (Nat.le_max_right _ _)

theorem serial_lt_computed {capacity : Nat}
    (h : (run { capacity := capacity } operations).resolver? id = some r) (he : e ∈ r.memo.answers) :
    e.2.serial < (run { capacity := capacity } operations).computed := by
  obtain ⟨before, operation, after, rfl, hcomputes⟩ := exists_computes_of_mem h he
  rw [run_append]
  exact Nat.lt_of_lt_of_le (serial_of_computes hcomputes).2 (computed_le_run _ after)

/-! ## The law -/

/-- An event of another local scope leaves a resolver as it is. -/
theorem resolver?_of_other_scope (h : engine.resolver? id = some r) {name : String}
    (hscope : r.scope ≠ some name) (hevent : operation.event? = some (.localChanged name)) :
    (engine.perform operation).resolver? id = some r := by
  have hkeep : operation ≠ .dropResolver id := by
    rintro rfl
    exact absurd hevent nofun
  obtain ⟨r', hr', hfares⟩ := exists_fares h hkeep
  rw [hr']
  cases hfares with
  | heeds hdelivers =>
      obtain rfl := Option.some.inj (hevent.symm.trans hdelivers.event?_eq)
      unfold Resolver.heed Event.affects
      simp [hscope]
  | forgets => exact absurd hevent nofun
  | answers base n => exact absurd hevent nofun
  | stays _ _ => rfl

/-- A resolver never remembers more than its capacity, and all of one generation. If it may remember
anything, it remembers no request twice, and exactly what it computed since it was wiped last; and a request
that is repeated with no wipe in between gets the very answer it got before. A computed answer is none that
any resolver remembers already, and an event of another local scope changes nothing. -/
theorem retains_since_wipe (capacity : Nat) {operations : List Operation} {id : SubscriptionId}
    {r : Resolver} (h : (run { capacity := capacity } operations).resolver? id = some r) :
    let start : Engine Id := { capacity := capacity }
    let engine := start.run operations
    r.memo.size ≤ r.capacity ∧
      (∀ e ∈ r.memo.answers, r.memo.generation = some e.1.generation) ∧
      (0 < r.capacity →
        (r.memo.answers.map fun e => e.1).Nodup ∧
        (∀ e, e ∈ r.memo.answers ↔ start.ComputedSinceWipe id operations e) ∧
        ∀ base base' n n' later r',
          let again := engine.run (.resolve id base n :: later)
          ¬(engine.perform (.resolve id base n)).Wiped id later → again.resolver? id = some r' →
            r'.request again.store base' n' = r.request engine.store base n →
              ∃ answer, (engine.resolve id base n).run.2 = some answer ∧
                (again.resolve id base' n').run.2 = some answer) ∧
      (∀ operation e, engine.Computes id operation e →
        ∀ other found, engine.resolver? other = some found →
          ∀ e' ∈ found.memo.answers, e'.2 ≠ e.2) ∧
      ∀ name operation, r.scope ≠ some name → operation.event? = some (.localChanged name) →
        (engine.perform operation).resolver? id = some r := by
  intro start engine
  have hkept := wellKept_run h
  refine ⟨hkept.bounded, hkept.generation, fun hcapacity => ⟨hkept.distinct, ?_, ?_⟩, ?_, ?_⟩
  · exact mem_answers_run h hcapacity
  · intro base base' n n' later r' again hnot h' hrequest
    refine ⟨_, answer_resolve h base n, ?_⟩
    rw [← answer_resolve h]
    exact resolve_again h hcapacity hnot h' hrequest
  · intro operation e hcomputes other found hfound e' he' heq
    have hlt := serial_lt_computed hfound he'
    rw [heq, (serial_of_computes hcomputes).1] at hlt
    exact Nat.lt_irrefl _ hlt
  · intro name operation hscope hevent
    exact resolver?_of_other_scope h hscope hevent

/-- A resolver with room for two answers, asked for a class and then for the whole node. Another scope is
registered and the whole node is asked about again; the memory is full by then, but nothing is stored. -/
theorem retains_since_wipe_full :
    let n := Node.ofClasses ["item"]
    let operations : List Operation := [.createResolver (some "menu") 2, .resolve ⟨0⟩ (some "item") n]
    let later : List Operation := [.registerLocal "other" [], .resolve ⟨0⟩ none n]
    let g : ViewGeneration := ⟨.initial, none⟩
    let first : Request × Answer := (⟨g, n.key, some "item"⟩, ⟨0, .empty⟩)
    let second : Request × Answer := (⟨g, n.key, none⟩, ⟨1, .empty⟩)
    let r : Resolver := ⟨some "menu", 2, ⟨some g, [first]⟩⟩
    let full : Resolver := ⟨some "menu", 2, ⟨some g, [second, first]⟩⟩
    let engine := run { capacity := 4 } operations
    let again := engine.run (.resolve ⟨0⟩ none n :: later)
    engine.resolver? ⟨0⟩ = some r ∧ again.resolver? ⟨0⟩ = some full ∧
      ¬(engine.perform (.resolve ⟨0⟩ none n)).Wiped ⟨0⟩ later ∧
      full.request again.store none n = r.request engine.store none n ∧
      (∃ answer, (engine.resolve ⟨0⟩ none n).run.2 = some answer ∧
        (again.resolve ⟨0⟩ none n).run.2 = some answer) ∧
      (engine.perform (.registerLocal "other" [])).resolver? ⟨0⟩ = some r := by
  intro n operations later g first second r full engine again
  let asked := engine.perform (.resolve ⟨0⟩ none n)
  let registered := asked.perform (.registerLocal "other" [])
  have hr : engine.resolver? ⟨0⟩ = some r := rfl
  have hasked : asked.resolver? ⟨0⟩ = some full := rfl
  have hregistered : registered.resolver? ⟨0⟩ = some full := rfl
  have hagain : again.resolver? ⟨0⟩ = some full := rfl
  have hnot : ¬asked.Wiped ⟨0⟩ later := by
    rw [show later = [] ++ [.registerLocal "other" []] ++ [.resolve ⟨0⟩ none n] from rfl,
      wiped_concat, wiped_concat, List.nil_append]
    rintro ((hnil | hother) | hfull)
    · exact not_wiped_nil hnil
    · have hdelivers : asked.Delivers (.registerLocal "other" []) ⟨0⟩ (.localChanged "other") :=
        ⟨⟨_, rfl⟩, mem_deliveries_iff.mpr ⟨rfl, rfl⟩⟩
      exact absurd ((wipes_iff_of_delivers hasked hdelivers).mp hother) (by decide)
    · have hmisses := ((wipes_resolve_iff hregistered).mp hfull).1
      have hget : full.memo.get? (full.request registered.store none n) = some second.2 := rfl
      exact absurd (hget.symm.trans hmisses) nofun
  have hrequest : full.request again.store none n = r.request engine.store none n := rfl
  obtain ⟨-, -, hretains, -, hother⟩ := retains_since_wipe 4 hr
  obtain ⟨-, -, hagain'⟩ := hretains (by decide)
  exact ⟨hr, hagain, hnot, hrequest, hagain' none none n n later full hnot hagain hrequest,
    hother "other" (.registerLocal "other" []) (by decide) rfl⟩

end StyleCascade.Engine
