/-
# StyleCascade.Proofs.Engine.Memoization — remembered answers are never stale

Whatever was done with an engine, a resolver answers as a cascade over the store as it is now would
(`resolve_eq_cascade`). Events play no part in this: they only make resolvers forget earlier than they
have to.

The invariant is `Sound`. What a resolver remembers names the generations it was computed from, all of
them past (`ViewGeneration.Upto`). A registration gives the scope it touches a generation that is not past
yet, so either nothing that is remembered can be asked for any more, or the rules a resolver reads are
the same as before. And where a remembered answer can be asked for, `Resolver.Remembers` says that it is
what a cascade gives now to every node with that key.
-/
import StyleCascade.Proofs.Engine.Lifetime
import StyleCascade.Proofs.Resolver.Memory
import StyleCascade.Proofs.Rule.Reading

namespace StyleCascade

variable {reading : Node.Reading} {requested : Node → Prop}

/-! ## Stores -/

/-- What a view was made of lies in the past. -/
structure ViewGeneration.Upto (g : ViewGeneration) (now : Generation) : Prop where
  globalScope : g.globalScope.ordinal ≤ now.ordinal
  localScope : ∀ l, g.localScope = some l → l.ordinal ≤ now.ordinal

theorem ViewGeneration.Upto.mono {g : ViewGeneration} {now later : Generation} (h : g.Upto now)
    (hle : now.ordinal ≤ later.ordinal) : g.Upto later :=
  ⟨Nat.le_trans h.globalScope hle, fun l hl => Nat.le_trans (h.localScope l hl) hle⟩

namespace Store

/-- The rules of every scope respect a reading, and every scope was last changed in the past. -/
structure Sound (reading : Node.Reading) (store : Store Id) : Prop where
  globalRules : store.globalScope.table.Respects reading
  localRules : ∀ name s, store.localScopes.lookup name = some s → s.table.Respects reading
  globalPast : store.globalScope.generation.ordinal ≤ store.generation.ordinal
  localPast : ∀ name s, store.localScopes.lookup name = some s →
    s.generation.ordinal ≤ store.generation.ordinal

variable {store : Store Id}

theorem sound_empty : Sound reading {} :=
  ⟨RuleTable.respects_empty, fun _ _ h => absurd h (by simp), Nat.le_refl _,
    fun _ _ h => absurd h (by simp)⟩

theorem respects_view (h : store.Sound reading) (scope : Option String) :
    (store.view scope).Respects reading := by
  refine ⟨h.globalRules, ?_⟩
  intro table htable
  obtain ⟨s, hs, rfl⟩ := Option.map_eq_some_iff.mp htable
  obtain ⟨name, _, hname⟩ := Option.bind_eq_some_iff.mp hs
  exact h.localRules name s hname

/-- A view of scopes that were last changed in the past is of the past. -/
theorem upto_view_of_past
    (hglobal : store.globalScope.generation.ordinal ≤ store.generation.ordinal)
    (hlocal : ∀ name s, store.localScopes.lookup name = some s →
      s.generation.ordinal ≤ store.generation.ordinal) (scope : Option String) :
    (store.view scope).generation.Upto store.generation := by
  refine ⟨hglobal, ?_⟩
  intro l hl
  obtain ⟨s, hs, rfl⟩ := Option.map_eq_some_iff.mp hl
  obtain ⟨name, _, hname⟩ := Option.bind_eq_some_iff.mp hs
  exact hlocal name s hname

theorem upto_view (h : store.Sound reading) (scope : Option String) :
    (store.view scope).generation.Upto store.generation :=
  upto_view_of_past h.globalPast h.localPast scope

theorem sound_registerGlobal (h : store.Sound reading) {sheet : Sheet Id}
    (hsheet : sheet.Respects reading) : (store.registerGlobal sheet).Sound reading where
  globalRules := RuleTable.respects_ofSheet hsheet store.bindings
  localRules := h.localRules
  globalPast := Nat.le_refl _
  localPast := fun name s hs => Nat.le_succ_of_le (h.localPast name s hs)

/-- A local registration appends to the scope of its name, made new if need be, and to no other. -/
theorem lookup_registerLocal (store : Store Id) (name : String) (sheet : Sheet Id) (other : String) :
    (store.registerLocal name sheet).localScopes.lookup other =
      if other = name then
        some ⟨((store.localScopes.lookup name).getD {}).table.append (.ofSheet store.bindings sheet),
          store.generation.next⟩
      else store.localScopes.lookup other :=
  Keyed.lookup_update name other _ store.localScopes

theorem sound_registerLocal (h : store.Sound reading) (name : String) {sheet : Sheet Id}
    (hsheet : sheet.Respects reading) : (store.registerLocal name sheet).Sound reading := by
  refine ⟨h.globalRules, ?_, Nat.le_succ_of_le h.globalPast, ?_⟩
  · intro other s hs
    rw [lookup_registerLocal] at hs
    split at hs
    · obtain rfl := Option.some.inj hs
      apply RuleTable.respects_append
      · cases hpresent : store.localScopes.lookup name with
        | none => exact RuleTable.respects_empty
        | some present => exact h.localRules name present hpresent
      · exact RuleTable.respects_ofSheet hsheet store.bindings
    · exact h.localRules other s hs
  · intro other s hs
    rw [lookup_registerLocal] at hs
    split at hs
    · obtain rfl := Option.some.inj hs
      exact Nat.le_refl _
    · exact Nat.le_succ_of_le (h.localPast other s hs)

/-- After a global registration no view is of the past. -/
theorem not_upto_view_registerGlobal (sheet : Sheet Id) (scope : Option String) :
    ¬((store.registerGlobal sheet).view scope).generation.Upto store.generation := by
  intro h
  have hle : store.generation.ordinal + 1 ≤ store.generation.ordinal := h.globalScope
  exact Nat.not_succ_le_self _ hle

/-- After a local registration no view of that scope is of the past, existed it before or not. -/
theorem not_upto_view_registerLocal (name : String) (sheet : Sheet Id) :
    ¬((store.registerLocal name sheet).view (some name)).generation.Upto store.generation := by
  intro h
  have hlocal : ((store.registerLocal name sheet).view (some name)).generation.localScope =
      some store.generation.next := by
    show Option.map (fun s : Scope Id => s.generation)
      ((store.registerLocal name sheet).localScopes.lookup name) = _
    rw [lookup_registerLocal, if_pos rfl]
    rfl
  exact Nat.not_succ_le_self _ (h.localScope _ hlocal)

/-- A local registration leaves the views of other scopes alone. -/
theorem view_registerLocal_of_ne {scope : Option String} {name : String} (h : scope ≠ some name)
    (sheet : Sheet Id) : (store.registerLocal name sheet).view scope = store.view scope := by
  cases scope with
  | none => rfl
  | some other =>
      have hne : other ≠ name := fun heq => h (congrArg some heq)
      have hlookup := lookup_registerLocal store name sheet other
      rw [if_neg hne] at hlookup
      unfold view
      simp only [Option.bind_some, hlookup]
      rfl

end Store

/-! ## Resolvers -/

namespace Resolver

/-- What a resolver remembers was computed in the past, and as far as it can still be asked for it is
what a cascade gives now. -/
structure Remembers (requested : Node → Prop) (store : Store Id) (r : Resolver) : Prop where
  past : ∀ e ∈ r.memo.answers, e.1.generation.Upto store.generation
  current : ∀ e ∈ r.memo.answers, e.1.generation = (store.view r.scope).generation →
    ∀ n, requested n → n.key = e.1.node →
      e.2.declaration = ((store.view r.scope).cascade (requestedBases e.1.base n) n).run

variable {store : Store Id} {r : Resolver}

theorem remembers_forget : r.forget.Remembers requested store :=
  ⟨fun _ h => absurd h List.not_mem_nil, fun _ h => absurd h List.not_mem_nil⟩

theorem remembers_heed (h : r.Remembers requested store) (event : Event) :
    (r.heed event).Remembers requested store := by
  unfold heed
  split
  · exact remembers_forget
  · exact h

/-- What is remembered stays true while the store grows, if the view is the same as before or is not of
the past that is remembered. -/
theorem remembers_of_view {store' : Store Id} (h : r.Remembers requested store)
    (hlater : store.generation.ordinal ≤ store'.generation.ordinal)
    (hview : store'.view r.scope = store.view r.scope ∨
      ¬(store'.view r.scope).generation.Upto store.generation) :
    r.Remembers requested store' := by
  refine ⟨fun e he => (h.past e he).mono hlater, ?_⟩
  intro e he hgeneration n hn hkey
  rcases hview with hview | hnew
  · -- the view is the same, and so is what a cascade over it gives
    rw [hview] at hgeneration ⊢
    exact h.current e he hgeneration n hn hkey
  · -- the view is newer than all that is remembered, so nothing remembered is asked for
    rw [← hgeneration] at hnew
    exact absurd (h.past e he) hnew

/-- Nodes with one key are asked about the same classes and get the same properties. -/
theorem cascade_eq_of_key_eq (hstore : store.Sound reading) (hadmits : reading.Admits requested)
    (scope base : Option String) {m n : Node} (hm : requested m) (hn : requested n)
    (hkey : m.key = n.key) :
    ((store.view scope).cascade (requestedBases base m) m).run =
      ((store.view scope).cascade (requestedBases base n) n).run := by
  have hagree := Node.Reading.agree_of_key_eq hadmits hm hn hkey
  have hbases : requestedBases base m = requestedBases base n := by
    cases base with
    | none => exact reading.classes hagree
    | some name => rfl
  rw [hbases]
  exact View.cascade_congr (Store.respects_view hstore scope) hagree _

/-- Remembered or not, the answer is what a cascade gives, and what is remembered afterwards is true. -/
theorem resolve_spec (h : r.Remembers requested store) (hstore : store.Sound reading)
    (hadmits : reading.Admits requested) (serial : Nat) (base : Option String) {n : Node}
    (hn : requested n) :
    (r.resolve store serial base n).run.1.Remembers requested store ∧
      (r.resolve store serial base n).run.2.declaration =
        ((store.view r.scope).cascade (requestedBases base n) n).run := by
  unfold resolve
  dsimp only
  split
  · -- a hit: the request names the generations of the view as it is now
    rename_i answer hget
    exact ⟨h, h.current _ (Memo.mem_of_get? hget) rfl n hn rfl⟩
  · -- a miss: what is stored was computed just now, for any node with this key
    refine ⟨⟨?_, ?_⟩, rfl⟩
    · intro e he
      rcases Memo.mem_of_mem_store he with rfl | he
      · exact Store.upto_view hstore r.scope
      · exact h.past e he
    · intro e he hgeneration m hm hkey
      rcases Memo.mem_of_mem_store he with rfl | he
      · exact cascade_eq_of_key_eq hstore hadmits r.scope base hn hm hkey.symm
      · exact h.current e he hgeneration m hm hkey

end Resolver

/-! ## Engines -/

namespace Engine

/-- The scopes of the engine are sound, and what its resolvers remember is true. -/
structure Sound (reading : Node.Reading) (requested : Node → Prop) (engine : Engine Id) :
    Prop where
  store : engine.store.Sound reading
  remembers : ∀ e ∈ engine.resolvers, e.2.Remembers requested engine.store

/-- The rules an operation registers respect a reading, and the nodes it asks about are among the
requested ones. -/
def Operation.Respects (reading : Node.Reading) (requested : Node → Prop) : Operation → Prop
  | .registerGlobal sheet => sheet.Respects reading
  | .registerLocal _ sheet => sheet.Respects reading
  | .createLocal _ sheet => sheet.Respects reading
  | .registerGlobalJson json => ∀ sheet, Sheet.ofJson json = .ok sheet → sheet.Respects reading
  | .createLocalJson _ json => ∀ sheet, Sheet.ofJson json = .ok sheet → sheet.Respects reading
  | .resolve _ _ n => requested n
  | _ => True

variable {engine : Engine Id}

theorem sound_empty (capacity : Nat) :
    Sound reading requested ({ capacity := capacity } : Engine Id) :=
  ⟨Store.sound_empty, fun _ h => absurd h List.not_mem_nil⟩

theorem sound_publish (h : engine.Sound reading requested) (event : Event) :
    (engine.publish event).Sound reading requested := by
  refine ⟨h.store, ?_⟩
  intro e he
  obtain ⟨old, hold, rfl⟩ := List.mem_map.mp he
  show (engine.heed event old).2.Remembers requested engine.store
  unfold heed
  split
  · exact Resolver.remembers_heed (h.remembers old hold) event
  · exact h.remembers old hold

theorem sound_registerGlobal (h : engine.Sound reading requested) {sheet : Sheet Id}
    (hsheet : sheet.Respects reading) : (engine.registerGlobal sheet).Sound reading requested := by
  apply sound_publish
  refine ⟨Store.sound_registerGlobal h.store hsheet, ?_⟩
  intro e he
  exact Resolver.remembers_of_view (h.remembers e he) (Nat.le_succ _)
    (.inr (Store.not_upto_view_registerGlobal sheet e.2.scope))

theorem sound_registerLocal (h : engine.Sound reading requested) (name : String) {sheet : Sheet Id}
    (hsheet : sheet.Respects reading) :
    (engine.registerLocal name sheet).Sound reading requested := by
  apply sound_publish
  refine ⟨Store.sound_registerLocal h.store name hsheet, ?_⟩
  intro e he
  apply Resolver.remembers_of_view (h.remembers e he) (Nat.le_succ _)
  -- the resolver reads the scope that was touched, or a view that was not
  by_cases hscope : e.2.scope = some name
  · rw [hscope]
    exact .inr (Store.not_upto_view_registerLocal name sheet)
  · exact .inl (Store.view_registerLocal_of_ne hscope sheet)

theorem sound_withBindings (h : engine.Sound reading requested) (bindings : Variables) :
    (engine.withBindings bindings).Sound reading requested := by
  refine ⟨⟨h.store.globalRules, h.store.localRules, h.store.globalPast, h.store.localPast⟩,
    fun e he => ?_⟩
  exact Resolver.remembers_of_view (h.remembers e he) (Nat.le_refl _) (.inl rfl)

theorem sound_createResolver (h : engine.Sound reading requested) (scope : Option String)
    (capacity : Nat) : (engine.createResolver scope capacity).Sound reading requested := by
  refine ⟨h.store, ?_⟩
  intro e he
  rcases List.mem_append.mp he with he | he
  · exact h.remembers e he
  · obtain rfl := List.mem_singleton.mp he
    exact ⟨fun _ hanswer => absurd hanswer List.not_mem_nil,
      fun _ hanswer => absurd hanswer List.not_mem_nil⟩

theorem sound_createLocal (h : engine.Sound reading requested) (name : String) {sheet : Sheet Id}
    (hsheet : sheet.Respects reading) :
    (engine.createLocal name sheet).Sound reading requested :=
  sound_createResolver (sound_registerLocal h name hsheet) _ _

theorem sound_dropResolver (h : engine.Sound reading requested) (id : SubscriptionId) :
    (engine.dropResolver id).Sound reading requested :=
  ⟨h.store, fun e he => h.remembers e (List.mem_of_mem_filter he)⟩

theorem sound_putResolver (h : engine.Sound reading requested) (id : SubscriptionId) {r : Resolver}
    (hr : r.Remembers requested engine.store) : (engine.putResolver id r).Sound reading requested := by
  refine ⟨h.store, ?_⟩
  intro e he
  obtain ⟨old, hold, rfl⟩ := List.mem_map.mp he
  split
  · exact hr
  · exact h.remembers old hold

theorem remembers_of_resolver? (h : engine.Sound reading requested) {id : SubscriptionId}
    {r : Resolver} (hr : engine.resolver? id = some r) : r.Remembers requested engine.store :=
  h.remembers (id, r) (Keyed.mem_of_lookup hr)

theorem sound_forget (h : engine.Sound reading requested) (id : SubscriptionId) :
    (engine.forget id).Sound reading requested := by
  unfold forget
  split
  · exact h
  · exact sound_putResolver h id Resolver.remembers_forget

theorem sound_resolve (h : engine.Sound reading requested) (hadmits : reading.Admits requested)
    (id : SubscriptionId) (base : Option String) {n : Node} (hn : requested n) :
    (engine.resolve id base n).run.1.Sound reading requested := by
  cases hr : engine.resolver? id with
  | none =>
      rw [resolve_of_none hr]
      exact h
  | some r =>
      obtain ⟨computed, hresolve⟩ := resolve_of_resolver? hr base n
      rw [hresolve]
      have hcounted : ({ engine with computed := computed } : Engine Id).Sound reading requested :=
        ⟨h.store, h.remembers⟩
      exact sound_putResolver hcounted id
        (Resolver.resolve_spec (remembers_of_resolver? h hr) h.store hadmits _ base hn).1

/-- Every operation keeps an engine sound. -/
theorem sound_perform (h : engine.Sound reading requested) (hadmits : reading.Admits requested)
    {operation : Operation} (hop : operation.Respects reading requested) :
    (engine.perform operation).Sound reading requested := by
  cases operation with
  | registerGlobal sheet => exact sound_registerGlobal h hop
  | registerGlobalJson json =>
      rcases registerGlobalJson_cases engine json with heq | ⟨sheet, hsheet, heq⟩
      · rw [heq]
        exact h
      · rw [heq]
        exact sound_registerGlobal h (hop sheet hsheet)
  | registerLocal name sheet => exact sound_registerLocal h name hop
  | createLocal name sheet => exact sound_createLocal h name hop
  | createLocalJson name json =>
      rcases createLocalJson_cases engine name json with heq | ⟨sheet, hsheet, heq⟩
      · rw [heq]
        exact h
      · rw [heq]
        exact sound_createLocal h name (hop sheet hsheet)
  | setVariable name value =>
      rcases setVariable_cases engine name value with heq | ⟨bindings, heq⟩
      · rw [heq]
        exact h
      · rw [heq]
        exact sound_withBindings h bindings
  | setVariables entries =>
      rcases setVariables_cases engine entries with heq | ⟨bindings, heq⟩
      · rw [heq]
        exact h
      · rw [heq]
        exact sound_withBindings h bindings
  | createResolver scope capacity => exact sound_createResolver h scope capacity
  | dropResolver id => exact sound_dropResolver h id
  | resolve id base n => exact sound_resolve h hadmits id base hop
  | forget id => exact sound_forget h id
  | listen label once => exact ⟨h.store, h.remembers⟩
  | unlisten id => exact ⟨h.store, h.remembers⟩
  | publish event => exact sound_publish h event
  | clearBus => exact ⟨h.store, h.remembers⟩

theorem sound_run (h : engine.Sound reading requested) (hadmits : reading.Admits requested)
    {operations : List Operation} (hops : ∀ op ∈ operations, op.Respects reading requested) :
    (engine.run operations).Sound reading requested := by
  induction operations generalizing engine with
  | nil => exact h
  | cons operation rest ih =>
      rw [List.forall_mem_cons] at hops
      exact ih (sound_perform h hadmits hops.1) hops.2

/-- A resolver that is there after some operations answers, whatever is done then short of dropping
it, with what a cascade gives over the scope it reads as the store is by then. -/
theorem resolve_eq_cascade (hadmits : reading.Admits requested) (capacity : Nat)
    {operations later : List Operation}
    (hops : ∀ op ∈ operations ++ later, op.Respects reading requested)
    {id : SubscriptionId} {scope : Option String}
    (hmade : (run { capacity := capacity } operations).HasResolver id scope)
    (hkept : .dropResolver id ∉ later) (base : Option String) {n : Node} (hn : requested n) :
    ∃ answer, ((run { capacity := capacity } (operations ++ later)).resolve id base n).run.2 =
        some answer ∧
      answer.declaration =
        (((run { capacity := capacity } (operations ++ later)).store.view scope).cascade
          (Resolver.requestedBases base n) n).run := by
  have hsound := sound_run (sound_empty capacity) hadmits hops
  -- the resolver is still there at the end, and still reads its scope
  obtain ⟨r, hr, rfl⟩ : (run { capacity := capacity } (operations ++ later)).HasResolver id scope := by
    rw [run_append]
    exact hasResolver_run hmade hkept
  obtain ⟨computed, hresolve⟩ := resolve_of_resolver? hr base n
  refine ⟨_, by rw [hresolve], ?_⟩
  exact (Resolver.resolve_spec (remembers_of_resolver? hsound hr) hsound.store hadmits _ base hn).2

/-- A resolver bound to a scope that is registered only after its first answer and after its subscription
is gone. Asked again for a node whose key stands for an identity, it answers from the scope as it is by
then, although it remembers an answer for that key. -/
theorem resolve_eq_cascade_late_scope :
    let style : DynamicStyle Id := fun _ _ => some (Declaration.empty.set "color" (.text "blue"))
    let n := (Node.ofClasses ["item"]).withIdentity "first"
    let later := [.resolve ⟨0⟩ none n, .clearBus, .registerLocal "late" [("item", .dynamic style)],
      .resolve ⟨0⟩ (some "item") n.remember]
    let engine := run { capacity := 1 } ([.createResolver (some "late") 1] ++ later)
    (∃ answer, (engine.resolve ⟨0⟩ none n).run.2 = some answer ∧
      answer.declaration = ((engine.store.view (some "late")).cascade
        (Resolver.requestedBases none n) n).run) ∧
      (((engine.store.view (some "late")).cascade
        (Resolver.requestedBases none n) n).run).get? "color" = some (.text "blue") := by
  intro style n later engine
  let asked : Node → Prop := fun m => m = n ∨ m = n.remember
  have hadmits : Node.Reading.exact.Admits asked := by
    refine ⟨?_, fun a b ha hb _ _ _ => ?_⟩
    · rintro m (rfl | rfl) <;> rfl
    · -- both nodes stand alone and differ only in the key that one of them remembers
      have halone : ∀ m, asked m → m.ancestors = [] ∧ m.children = [] := by
        rintro m (rfl | rfl) <;> exact ⟨rfl, rfl⟩
      have hbare : ∀ m, asked m → m.bare = n.bare := by
        rintro m (rfl | rfl) <;> rfl
      show a.bare = b.bare
      rw [hbare a (Node.requested_of_within halone ha), hbare b (Node.requested_of_within halone hb)]
  have hsheet : Sheet.Respects Node.Reading.exact [("item", .dynamic style)] := by
    intro vars r hr
    have hsegments : Key.segments ['i', 't', 'e', 'm'] = [['i', 't', 'e', 'm']] := by decide +kernel
    have hexpand : Sheet.expand [("item", .dynamic style)] = [("item", Style.dynamic style)] := by
      simp [Sheet.expand, Sheet.resolve, Style.resolve, Style.isValue, Key.resolve, Level.push,
        Sheet.ofPlaced, Sheet.place, Sheet.mergeAt, Sheet.nest, Style.over, Keyed.update, hsegments]
    rw [hexpand] at hr
    obtain rfl := List.mem_singleton.mp hr
    apply Rule.respects_exact
    intro f hf index m
    obtain rfl := RuleStyle.computed.inj hf
    rfl
  have hops : ∀ op ∈ [.createResolver (some "late") 1] ++ later,
      op.Respects Node.Reading.exact asked := by
    simp only [later, List.cons_append, List.nil_append, List.forall_mem_cons]
    exact ⟨trivial, .inl rfl, trivial, hsheet, .inr rfl, fun _ h => absurd h List.not_mem_nil⟩
  have hmade : (run { capacity := 1 } [.createResolver (some "late") 1]).HasResolver ⟨0⟩ (some "late") :=
    ⟨_, rfl, rfl⟩
  have hkept : .dropResolver ⟨0⟩ ∉ later := by
    simp [later]
  refine ⟨resolve_eq_cascade hadmits 1 hops hmade hkept none (.inl rfl), ?_⟩
  decide +kernel

end Engine

end StyleCascade
