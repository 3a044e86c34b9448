/-
# StyleCascade.Proofs.Engine.Atomicity — operations that fail change nothing

An operation on an engine is a program of steps, and nothing takes back what the steps before a failure
have written. Programs that fail still leave engine and subscribers as they were, because in each of them every
check stands before the first write (`Operation.on_program`). So an operation is all or nothing, and the engine
after it is the one that `Engine.perform` gives. What an operation needs to succeed can be told from the
operation alone (`Operation.IsValid`).

Names are checked before every write of variables, so an engine that was started without variables never
has one whose name does not start with two dashes (`namesVariables_run`).
-/
import StyleCascade.Proofs.Engine.Run
import StyleCascade.Proofs.Sheet.Refusal

namespace StyleCascade.Engine

/-! ## Steps -/

namespace Steps

variable {α β : Type} {scene : Scene}

/-- What comes next starts from where the first steps ended, and only if they did not fail. -/
theorem on_bind (steps : Steps α) (next : α → Steps β) (scene : Scene) :
    (steps >>= next).on scene =
      match steps.on scene with
      | (.ok a, after) => (next a).on after
      | (.error refusal, after) => (.error refusal, after) := by
  show (StateT.bind (ExceptT.run steps) fun r => ExceptT.bindCont next r) scene = _
  rcases h : steps.on scene with ⟨refusal | a, after⟩
  · show (match steps.on scene with | (r, after) => ExceptT.bindCont next r after) = _
    rw [h]
    rfl
  · show (match steps.on scene with | (r, after) => ExceptT.bindCont next r after) = _
    rw [h]
    rfl

theorem on_write (change : Engine Id → Engine Id) (scene : Scene) :
    (write change).on scene = (.ok (), { scene with engine := change scene.engine }) := rfl

theorem on_checkName (name : String) (scene : Scene) :
    (checkName name).on scene =
      (if isVariableName name then .ok () else .error (.variable (.invalidName name)), scene) := by
  unfold checkName
  split <;> rfl

theorem on_parse (json : Json) (scene : Scene) :
    (parse json).on scene = ((Sheet.ofJson json).mapError .definition, scene) := by
  unfold parse
  split <;> rename_i h <;> rw [h] <;> rfl

/-- Checking names writes nothing. The first name that is no variable name is the reason of a failure. -/
theorem on_forM_checkName (entries : List (String × Value)) (scene : Scene) :
    (entries.forM fun e => checkName e.1).on scene =
      (match entries.find? fun e => !isVariableName e.1 with
        | some e => .error (.variable (.invalidName e.1))
        | none => .ok (), scene) := by
  induction entries with
  | nil => rfl
  | cons e rest ih =>
      show (checkName e.1 >>= fun _ => rest.forM fun e => checkName e.1).on scene = _
      rw [on_bind, on_checkName, List.find?_cons]
      cases isVariableName e.1 with
      | true => exact ih
      | false => rfl

theorem on_forM_writeVariable (entries : List (String × Value)) (scene : Scene) :
    (entries.forM fun e => writeVariable e.1 e.2).on scene =
      (.ok (), { scene with
        engine := scene.engine.withBindings ⟨scene.engine.store.bindings.values.setAll entries⟩ }) := by
  induction entries generalizing scene with
  | nil => rfl
  | cons e rest ih =>
      show (writeVariable e.1 e.2 >>= fun _ => rest.forM fun e => writeVariable e.1 e.2).on scene = _
      rw [on_bind, writeVariable, on_write]
      exact ih _

end Steps

namespace Operation

/-- What an engine makes of an operation, or why it refuses it. -/
def outcome (engine : Engine Id) : Operation → Except Refusal (Engine Id)
  | .registerGlobalJson json => (engine.registerGlobalJson json).mapError .definition
  | .createLocalJson name json => (engine.createLocalJson name json).mapError .definition
  | .setVariable name value => (engine.setVariable name value).mapError .variable
  | .setVariables entries => (engine.setVariables entries).mapError .variable
  | operation => .ok (engine.perform operation)

/-- The event that an operation publishes if it succeeds. -/
def event? : Operation → Option Event
  | .registerGlobal _ => some .globalChanged
  | .registerGlobalJson _ => some .globalChanged
  | .registerLocal name _ => some (.localChanged name)
  | .createLocal name _ => some (.localChanged name)
  | .createLocalJson name _ => some (.localChanged name)
  | .publish event => some event
  | _ => none

/-- The operation has nothing in it that has to be refused: variables have names that start with two
dashes, and JSON is an object without arrays in it. -/
def IsValid : Operation → Prop
  | .registerGlobalJson json => json.IsDefinition
  | .createLocalJson _ json => json.IsDefinition
  | .setVariable name _ => "--".toList <+: name.toList
  | .setVariables entries => ∀ e ∈ entries, "--".toList <+: e.1.toList
  | _ => True

end Operation

/-- What every subscriber is told of an event, if there is one. -/
def deliveries (engine : Engine Id) (event? : Option Event) : List (SubscriptionId × Event) :=
  event?.toList.flatMap fun event => engine.bus.subscriptions.map fun l => (l.id, event)

theorem deliveries_none (engine : Engine Id) : engine.deliveries none = [] := rfl

theorem deliveries_some (engine : Engine Id) (event : Event) :
    engine.deliveries (some event) = engine.bus.subscriptions.map fun l => (l.id, event) :=
  List.append_nil _

theorem perform_eq_orSame (engine : Engine Id) (operation : Operation) :
    engine.perform operation = engine.orSame (operation.outcome engine) := by
  cases operation with
  | registerGlobalJson json =>
      rw [perform, Operation.outcome]
      cases engine.registerGlobalJson json <;> rfl
  | createLocalJson name json =>
      rw [perform, Operation.outcome]
      cases engine.createLocalJson name json <;> rfl
  | setVariable name value =>
      rw [perform, Operation.outcome]
      cases engine.setVariable name value <;> rfl
  | setVariables entries =>
      rw [perform, Operation.outcome]
      cases engine.setVariables entries <;> rfl
  | _ => rfl

/-! ## All or nothing -/

/-- An operation that succeeds makes of the engine what it should and tells the subscribers of its event;
one that fails leaves everything. -/
theorem Operation.on_program (operation : Operation) (scene : Scene) :
    operation.program.on scene =
      match operation.outcome scene.engine with
      | .ok changed => (.ok (), ⟨changed, scene.told ++ scene.engine.deliveries operation.event?⟩)
      | .error refusal => (.error refusal, scene) := by
  have hquiet (changed : Engine Id) : ((.ok (), ⟨changed, scene.told⟩) : Except Refusal Unit × Scene) =
      (.ok (), ⟨changed, scene.told ++ scene.engine.deliveries none⟩) := by
    rw [deliveries_none, List.append_nil]
  have htold (changed : Engine Id) (event : Event) :
      ((.ok (), ⟨changed, scene.told ++ scene.engine.bus.subscriptions.map fun l => (l.id, event)⟩) :
        Except Refusal Unit × Scene) =
        (.ok (), ⟨changed, scene.told ++ scene.engine.deliveries (some event)⟩) := by
    rw [deliveries_some]
  cases operation with
  | registerGlobal sheet => exact htold _ _
  | registerGlobalJson json =>
      rw [program, Steps.on_bind, Steps.on_parse, outcome, Engine.registerGlobalJson]
      cases Sheet.ofJson json with
      | error error => rfl
      | ok sheet => exact htold _ _
  | registerLocal name sheet => exact htold _ _
  | createLocal name sheet => exact htold _ _
  | createLocalJson name json =>
      rw [program, Steps.on_bind, Steps.on_parse, outcome, Engine.createLocalJson]
      cases Sheet.ofJson json with
      | error error => rfl
      | ok sheet => exact htold _ _
  | setVariable name value =>
      rw [program, Steps.on_bind, Steps.on_checkName, outcome, Engine.setVariable, Store.setVariable,
        Variables.set]
      cases isVariableName name with
      | true => exact hquiet _
      | false => rfl
  | setVariables entries =>
      rw [program, Steps.on_bind, Steps.on_forM_checkName, outcome, Engine.setVariables,
        Store.setVariables, Variables.setAll]
      cases entries.find? fun e => !isVariableName e.1 with
      | some e => rfl
      | none => exact (Steps.on_forM_writeVariable entries scene).trans (hquiet _)
  | publish event => exact htold _ _
  | _ => exact hquiet _

/-! ## What is refused -/

theorem isVariableName_iff {name : String} : isVariableName name = true ↔ "--".toList <+: name.toList := by
  unfold isVariableName
  rw [List.isPrefixOf_iff_prefix]
  rfl

theorem find?_invalid_eq_none_iff {entries : List (String × Value)} :
    entries.find? (fun e => !isVariableName e.1) = none ↔ ∀ e ∈ entries, "--".toList <+: e.1.toList := by
  rw [List.find?_eq_none]
  refine forall₂_congr fun e _ => ?_
  rw [Bool.not_eq_true, Bool.not_eq_false', isVariableName_iff]

/-- Whether an operation is refused does not depend on the engine. -/
theorem Operation.exists_ok_outcome_iff (operation : Operation) (engine : Engine Id) :
    (∃ changed, operation.outcome engine = .ok changed) ↔ operation.IsValid := by
  have hfails (refusal : Refusal) :
      ¬∃ changed, (.error refusal : Except Refusal (Engine Id)) = .ok changed := by
    rintro ⟨changed, h⟩
    exact absurd h (by simp)
  cases operation with
  | registerGlobalJson json =>
      rw [IsValid, ← Sheet.isOk_ofJson_iff (m := Id), outcome, Engine.registerGlobalJson]
      cases Sheet.ofJson (m := Id) json with
      | error error => exact iff_of_false (hfails _) Bool.false_ne_true
      | ok sheet => exact iff_of_true ⟨_, rfl⟩ rfl
  | createLocalJson name json =>
      rw [IsValid, ← Sheet.isOk_ofJson_iff (m := Id), outcome, Engine.createLocalJson]
      cases Sheet.ofJson (m := Id) json with
      | error error => exact iff_of_false (hfails _) Bool.false_ne_true
      | ok sheet => exact iff_of_true ⟨_, rfl⟩ rfl
  | setVariable name value =>
      rw [IsValid, ← isVariableName_iff, outcome, Engine.setVariable, Store.setVariable, Variables.set]
      cases isVariableName name with
      | false => exact iff_of_false (hfails _) Bool.false_ne_true
      | true => exact iff_of_true ⟨_, rfl⟩ rfl
  | setVariables entries =>
      rw [IsValid, ← find?_invalid_eq_none_iff, outcome, Engine.setVariables, Store.setVariables,
        Variables.setAll]
      cases entries.find? fun e => !isVariableName e.1 with
      | some e => exact iff_of_false (hfails _) (Option.some_ne_none e)
      | none => exact iff_of_true ⟨_, rfl⟩ rfl
  | _ => exact iff_of_true ⟨_, rfl⟩ trivial

/-! ## Names of variables -/

/-- Variables change by writes under variable names, and in no other way. -/
theorem exists_written (engine : Engine Id) (operation : Operation) :
    ∃ entries : List (String × Value), (∀ e ∈ entries, isVariableName e.1 = true) ∧
      (engine.perform operation).store.bindings.values =
        engine.store.bindings.values.setAll entries := by
  have hnone {changed : Engine Id} (h : changed.store.bindings = engine.store.bindings) :
      ∃ entries : List (String × Value), (∀ e ∈ entries, isVariableName e.1 = true) ∧
        changed.store.bindings.values = engine.store.bindings.values.setAll entries := by
    refine ⟨[], fun e he => absurd he List.not_mem_nil, ?_⟩
    rw [h]
    rfl
  cases operation with
  | registerGlobalJson json =>
      rcases registerGlobalJson_cases engine json with heq | ⟨sheet, _, heq⟩
      · exact hnone (congrArg (fun e => e.store.bindings) heq)
      · exact hnone (congrArg (fun e => e.store.bindings) heq)
  | createLocalJson name json =>
      rcases createLocalJson_cases engine name json with heq | ⟨sheet, _, heq⟩
      · exact hnone (congrArg (fun e => e.store.bindings) heq)
      · exact hnone (congrArg (fun e => e.store.bindings) heq)
  | setVariable name value =>
      rw [perform, setVariable, Store.setVariable, Variables.set]
      cases hname : isVariableName name with
      | false => exact hnone rfl
      | true => exact ⟨[(name, value)], List.forall_mem_singleton.mpr hname, rfl⟩
  | setVariables entries =>
      rw [perform, setVariables, Store.setVariables, Variables.setAll]
      cases hfind : entries.find? fun e => !isVariableName e.1 with
      | some e => exact hnone rfl
      | none =>
          refine ⟨entries, fun e he => ?_, rfl⟩
          exact isVariableName_iff.mpr (find?_invalid_eq_none_iff.mp hfind e he)
  | resolve id base n =>
      refine hnone ?_
      show (engine.resolve id base n).run.1.store.bindings = _
      cases h : engine.resolver? id with
      | none => rw [resolve_of_none h]
      | some r =>
          obtain ⟨computed, heq⟩ := resolve_of_resolver? h base n
          rw [heq]
          rfl
  | forget id =>
      refine hnone ?_
      show (engine.forget id).store.bindings = _
      unfold forget
      split <;> rfl
  | _ => exact hnone rfl

theorem mem_keys_of_get?_setAll {entries : List (String × Value)} {d : Declaration} {name : String}
    {value : Value} (h : (d.setAll entries).get? name = some value) :
    (∃ e ∈ entries, e.1 = name) ∨ d.get? name = some value := by
  induction entries generalizing d with
  | nil => exact .inr h
  | cons e rest ih =>
      rcases ih (d := d.set e.1 e.2) h with ⟨other, hmem, hname⟩ | hset
      · exact .inl ⟨other, List.mem_cons_of_mem e hmem, hname⟩
      · rw [Declaration.get?_set] at hset
        split at hset
        · rename_i hname
          exact .inl ⟨e, List.mem_cons_self, hname.symm⟩
        · exact .inr hset

/-- Every variable of the engine has a variable name. -/
def NamesVariables (engine : Engine Id) : Prop :=
  ∀ name value, engine.store.bindings.get? name = some value → isVariableName name = true

theorem namesVariables_perform {engine : Engine Id} (h : engine.NamesVariables)
    (operation : Operation) : (engine.perform operation).NamesVariables := by
  intro name value hget
  obtain ⟨entries, hentries, hvalues⟩ := exists_written engine operation
  unfold Variables.get? at hget
  rw [hvalues] at hget
  rcases mem_keys_of_get?_setAll hget with ⟨e, hmem, rfl⟩ | hold
  · exact hentries e hmem
  · exact h name value hold

theorem namesVariables_run {engine : Engine Id} (h : engine.NamesVariables)
    (operations : List Operation) : (engine.run operations).NamesVariables := by
  induction operations generalizing engine with
  | nil => exact h
  | cons operation rest ih => exact ih (namesVariables_perform h operation)

/-! ## Several variables at once -/

/-- Setting variables at once gives what setting them one by one gives, failures included. -/
theorem setVariables_eq_foldlM (engine : Engine Id) (entries : List (String × Value)) :
    engine.setVariables entries =
      entries.foldlM (fun engine e => engine.setVariable e.1 e.2) engine := by
  induction entries generalizing engine with
  | nil => rfl
  | cons e rest ih =>
      rw [List.foldlM_cons, setVariables, Store.setVariables, Variables.setAll, List.find?_cons,
        setVariable, Store.setVariable, Variables.set]
      cases isVariableName e.1 with
      | false => rfl
      | true =>
          show _ = rest.foldlM (fun engine e => engine.setVariable e.1 e.2)
            (engine.withBindings ⟨engine.store.bindings.values.set e.1 e.2⟩)
          rw [← ih, setVariables, Store.setVariables, Variables.setAll]
          simp only [Bool.not_true]
          cases rest.find? fun e => !isVariableName e.1 <;> rfl

theorem Steps.on_forM_setVariable {entries : List (String × Value)}
    (h : ∀ e ∈ entries, isVariableName e.1 = true) (scene : Scene) :
    (entries.forM fun e => (Operation.setVariable e.1 e.2).program).on scene =
      (entries.forM fun e => writeVariable e.1 e.2).on scene := by
  induction entries generalizing scene with
  | nil => rfl
  | cons e rest ih =>
      obtain ⟨he, hrest⟩ := List.forall_mem_cons.mp h
      show ((Operation.setVariable e.1 e.2).program >>= fun _ =>
          rest.forM fun e => (Operation.setVariable e.1 e.2).program).on scene =
        (writeVariable e.1 e.2 >>= fun _ => rest.forM fun e => writeVariable e.1 e.2).on scene
      rw [on_bind, on_bind, Operation.program, on_bind, on_checkName, he]
      exact ih hrest _

/-- Step by step, too, several variables are set as they would be one by one if no name is refused. -/
theorem Operation.on_setVariables {entries : List (String × Value)}
    (h : ∀ e ∈ entries, isVariableName e.1 = true) (scene : Scene) :
    (setVariables entries).program.on scene =
      (entries.forM fun e => (setVariable e.1 e.2).program).on scene := by
  have hcheck : entries.find? (fun e => !isVariableName e.1) = none :=
    find?_invalid_eq_none_iff.mpr fun e he => isVariableName_iff.mp (h e he)
  rw [Steps.on_forM_setVariable h, program, Steps.on_bind, Steps.on_forM_checkName, hcheck]

/-! ## The law -/

/-- Operations are all or nothing. Carried out step by step, an operation fails exactly if it has something
in it that has to be refused, with the reason that the engine gives; it then leaves the engine and what
subscribers were told as they were, and otherwise makes of the engine what the operation is. Whatever was
done with an engine, the names of its variables start with two dashes. Several variables are set at once
exactly if each of their names does, and then as if they were set one by one in their order. -/
theorem program_atomic :
    (∀ (operation : Operation) (scene : Scene),
      (operation.program.on scene).1 = (operation.outcome scene.engine).map (fun _ => ()) ∧
        (operation.program.on scene).2.engine = scene.engine.perform operation ∧
        ((∃ refusal, (operation.program.on scene).1 = .error refusal) ↔ ¬operation.IsValid) ∧
        ∀ refusal, (operation.program.on scene).1 = .error refusal →
          (operation.program.on scene).2 = scene) ∧
    (∀ (capacity : Nat) (operations : List Operation) (name : String) (value : Value),
      (({ capacity := capacity } : Engine Id).run operations).store.bindings.get? name = some value →
        "--".toList <+: name.toList) ∧
    ∀ entries : List (String × Value),
      (∀ engine : Engine Id,
        ((∃ changed, engine.setVariables entries = .ok changed) ↔
          ∀ e ∈ entries, "--".toList <+: e.1.toList) ∧
        engine.setVariables entries =
          entries.foldlM (fun engine e => engine.setVariable e.1 e.2) engine) ∧
      ((∀ e ∈ entries, "--".toList <+: e.1.toList) → ∀ scene : Scene,
        (Operation.setVariables entries).program.on scene =
          (entries.forM fun e => (Operation.setVariable e.1 e.2).program).on scene) := by
  refine ⟨fun operation scene => ?_, fun capacity operations name value hget => ?_, fun entries =>
    ⟨fun engine => ⟨?_, setVariables_eq_foldlM engine entries⟩, fun h scene => ?_⟩⟩
  · have hvalid := operation.exists_ok_outcome_iff scene.engine
    rw [operation.on_program, perform_eq_orSame, ← hvalid]
    cases operation.outcome scene.engine with
    | ok changed =>
        refine ⟨rfl, rfl, iff_of_false ?_ (not_not_intro ⟨changed, rfl⟩), fun refusal h => ?_⟩
        · rintro ⟨refusal, h⟩
          exact absurd h (by simp)
        · exact absurd h (by simp)
    | error refusal =>
        refine ⟨rfl, rfl, iff_of_true ⟨refusal, rfl⟩ ?_, fun _ _ => rfl⟩
        rintro ⟨changed, h⟩
        exact absurd h (by simp)
  · have hstart : ({ capacity := capacity } : Engine Id).NamesVariables :=
      fun _ _ h => absurd h (by simp [Variables.get?])
    exact isVariableName_iff.mp (namesVariables_run hstart operations name value hget)
  · have hvalid := (Operation.setVariables entries).exists_ok_outcome_iff engine
    rw [Operation.IsValid] at hvalid
    rw [← hvalid, Operation.outcome]
    cases engine.setVariables entries with
    | ok changed => exact iff_of_true ⟨changed, rfl⟩ ⟨changed, rfl⟩
    | error error =>
        refine iff_of_false ?_ ?_
        · rintro ⟨changed, h⟩
          exact absurd h (by simp)
        · rintro ⟨changed, h⟩
          exact absurd h (by simp [Except.mapError])
  · exact Operation.on_setVariables (fun e he => isVariableName_iff.mpr (h e he)) scene

/-- A batch whose last name is refused, and an array two levels down: neither leaves a trace. -/
theorem program_atomic_brand :
    let operations : List Operation := [.setVariable "--gap" (.text "4"), .listen "log" false]
    let scene : Scene := ⟨({ capacity := 2 } : Engine Id).run operations, []⟩
    let batch : List (String × Value) := [("--brand", .text "red"), ("brand", .text "blue")]
    let valid : List (String × Value) := [("--brand", .text "red"), ("--gap", .text "8")]
    let json : Json := .object [("item", .object [("gap", .array [])])]
    ((Operation.setVariables batch).program.on scene).1 = .error (.variable (.invalidName "brand")) ∧
      ((Operation.setVariables batch).program.on scene).2 = scene ∧
      ((Operation.registerGlobalJson json).program.on scene).1 =
        .error (.definition (.arrayUnder "gap")) ∧
      ((Operation.registerGlobalJson json).program.on scene).2 = scene ∧
      scene.engine.store.bindings.get? "--gap" = some (.text "4") ∧ "--".toList <+: "--gap".toList ∧
      (∀ e ∈ valid, "--".toList <+: e.1.toList) ∧
      (Operation.setVariables valid).program.on scene =
        (valid.forM fun e => (Operation.setVariable e.1 e.2).program).on scene := by
  intro operations scene batch valid json
  obtain ⟨hatomic, hnames, hseveral⟩ := program_atomic
  have hbatch : ((Operation.setVariables batch).program.on scene).1 =
      .error (.variable (.invalidName "brand")) := rfl
  have hjson : ((Operation.registerGlobalJson json).program.on scene).1 =
      .error (.definition (.arrayUnder "gap")) := rfl
  have hget : scene.engine.store.bindings.get? "--gap" = some (.text "4") := rfl
  have hvalid : ∀ e ∈ valid, "--".toList <+: e.1.toList := by decide
  exact ⟨hbatch, (hatomic _ scene).2.2.2 _ hbatch, hjson, (hatomic _ scene).2.2.2 _ hjson, hget,
    hnames 2 operations _ _ hget, hvalid, (hseveral valid).2 hvalid scene⟩

end StyleCascade.Engine
