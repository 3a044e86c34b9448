/-
# StyleCascade.Proofs.Scope.History — what a store shows is decided by its history

A store changes by operations, one after the other: registrations and changes of variables. The history
of a store is the list of its registrations, each with the variables in force when it was made
(`registrations`). What a view shows is a function of that list (`View.ofHistory`): the rules of the last
global registration; under a name the rules of every registration there, in order and with their positions
counted anew; and the ordinals of the last registrations on both sides.

`Describes` says so of a single store and is kept by every operation (`describes_perform`), so it holds
after every run (`view_run_eq_ofHistory`). What does not enter that function does not change what is shown:
registrations under other names, changes of variables that no registration shown comes after, and global
registrations that another one comes after. Registrations in different scopes can be swapped.
-/
import StyleCascade.Proofs.Rule.Filing
import StyleCascade.Scope.Store

namespace StyleCascade

variable {m : Type → Type}

namespace Store

/-! ## Stores over time -/

/-- What can be done with a store. -/
inductive Operation (m : Type → Type) where
  /-- Registers a sheet globally, or under a name. -/
  | register (scope : Option String) (sheet : Sheet m)
  | setVariable (name : String) (value : Value)
  | setVariables (entries : List (String × Value))

/-- What a fallible operation made of a store, or the store as it was. -/
def orSame {ε : Type} (store : Store m) (outcome : Except ε (Store m)) : Store m :=
  match outcome with
  | .ok changed => changed
  | .error _ => store

/-- The store after an operation. -/
def perform (store : Store m) : Operation m → Store m
  | .register none sheet => store.registerGlobal sheet
  | .register (some name) sheet => store.registerLocal name sheet
  | .setVariable name value => store.orSame (store.setVariable name value)
  | .setVariables entries => store.orSame (store.setVariables entries)

/-- The store after operations, one after the other. -/
def run (store : Store m) (operations : List (Operation m)) : Store m :=
  operations.foldl perform store

end Store

/-! ## Histories -/

/-- A sheet registered globally or under a name, with the variables in force at that moment. -/
structure Registration (m : Type → Type) where
  scope : Option String
  bindings : Variables
  sheet : Sheet m

namespace Registration

/-- The table of the registered sheet's rules. -/
def table (r : Registration m) : RuleTable m :=
  .ofSheet r.bindings r.sheet

/-- The rules of the registered sheet, brought into its plain nested form, in order. -/
def rules (r : Registration m) : List (Rule m) :=
  Sheet.rules r.bindings r.sheet.expand

/-- The table has just these rules. -/
theorem toList_table (r : Registration m) : r.table.toList = r.rules :=
  RuleTable.toList_of_holds (RuleTable.holds_ofList r.rules)

end Registration

namespace Store.Operation

/-- The variables after an operation. A change that is refused changes nothing. -/
def bindingsAfter (vars : Variables) : Operation m → Variables
  | .register _ _ => vars
  | .setVariable name value => (vars.set name value).toOption.getD vars
  | .setVariables entries => (vars.setAll entries).toOption.getD vars

/-- The registration that an operation makes, if it makes one. -/
def registration? (vars : Variables) : Operation m → Option (Registration m)
  | .register scope sheet => some ⟨scope, vars, sheet⟩
  | .setVariable _ _ => none
  | .setVariables _ => none

/-- The operation is a registration in a scope. -/
def registersIn (scope : Option String) : Operation m → Bool
  | .register target _ => target == scope
  | .setVariable _ _ => false
  | .setVariables _ => false

end Store.Operation

/-- The registrations that operations make, with the variables in force from the start. -/
def registrations (vars : Variables) : List (Store.Operation m) → List (Registration m)
  | [] => []
  | op :: rest => (op.registration? vars).toList ++ registrations (op.bindingsAfter vars) rest

namespace Registration

/-- The registrations in one scope. -/
def inScope (scope : Option String) (rs : List (Registration m)) : List (Registration m) :=
  rs.filter fun r => r.scope == scope

/-- The number of the last registration in a scope, all registrations being counted from one. -/
def lastOrdinal? (scope : Option String) (rs : List (Registration m)) : Option Nat :=
  (((rs.map fun r => r.scope).zipIdx 1).filter fun e => e.1 == scope).getLast?.map fun e => e.2

/-- The rules of the last global registration, and none before there was one. -/
def globalTable (rs : List (Registration m)) : RuleTable m :=
  ((inScope none rs).getLast?.map table).getD {}

/-- The rules of all registrations under a name, one after the other, if there was one. -/
def localTable? (name : String) (rs : List (Registration m)) : Option (RuleTable m) :=
  if (inScope (some name) rs).isEmpty then none
  else some (.ofList ((inScope (some name) rs).flatMap rules))

end Registration

open Registration

/-- What a history shows of the global scope and a local one. -/
def View.ofHistory (rs : List (Registration m)) (scope : Option String) : View m where
  globalTable := Registration.globalTable rs
  localTable := scope.bind fun name => localTable? name rs
  generation :=
    { globalScope := ⟨(lastOrdinal? none rs).getD 0⟩
      localScope := scope.bind fun name => (lastOrdinal? (some name) rs).map Generation.mk }

/-- Two views show the same rules, whatever their generations. -/
structure View.SameRules (v w : View m) : Prop where
  globalTable : v.globalTable = w.globalTable
  localTable : v.localTable = w.localTable

/-! ## More registrations -/

namespace Registration

variable {scope : Option String} {rs more : List (Registration m)} {r : Registration m}

theorem inScope_append (scope : Option String) (rs more : List (Registration m)) :
    inScope scope (rs ++ more) = inScope scope rs ++ inScope scope more :=
  List.filter_append rs more

theorem inScope_singleton_of_eq (h : r.scope = scope) : inScope scope [r] = [r] := by
  simp [inScope, h]

theorem inScope_singleton_of_ne (h : r.scope ≠ scope) : inScope scope [r] = [] := by
  simp [inScope, h]

theorem lastOrdinal?_append_self (r : Registration m) :
    lastOrdinal? r.scope (rs ++ [r]) = some (rs.length + 1) := by
  unfold lastOrdinal?
  rw [List.map_append, List.zipIdx_append, List.filter_append, List.length_map]
  simp [Nat.add_comm]

theorem lastOrdinal?_append_of_nil (h : inScope scope more = []) :
    lastOrdinal? scope (rs ++ more) = lastOrdinal? scope rs := by
  have hnone : ∀ e ∈ (more.map fun r => r.scope).zipIdx (1 + rs.length), ¬(e.1 == scope) = true := by
    intro e he heq
    obtain ⟨r, hr, hscope⟩ := List.mem_map.mp (List.fst_mem_of_mem_zipIdx he)
    exact List.filter_eq_nil_iff.mp h r hr (hscope ▸ heq)
  unfold lastOrdinal?
  rw [List.map_append, List.zipIdx_append, List.filter_append, List.length_map,
    List.filter_eq_nil_iff.mpr hnone, List.append_nil]

/-- A table made of the rules of other tables is made of all their rules. -/
theorem append_ofList (rules : List (Rule m)) (other : RuleTable m) :
    (RuleTable.ofList rules).append other = .ofList (rules ++ other.toList) :=
  List.foldl_append.symm

theorem globalTable_append_of_eq (h : r.scope = none) : globalTable (rs ++ [r]) = r.table := by
  unfold globalTable
  rw [inScope_append, inScope_singleton_of_eq h, List.getLast?_concat]
  rfl

theorem globalTable_append_of_nil (h : inScope none more = []) :
    globalTable (rs ++ more) = globalTable rs := by
  unfold globalTable
  rw [inScope_append, h, List.append_nil]

theorem isSome_localTable? (name : String) (rs : List (Registration m)) :
    (localTable? name rs).isSome = true ↔ inScope (some name) rs ≠ [] := by
  unfold localTable?
  split <;> simp_all

theorem getD_localTable? (name : String) (rs : List (Registration m)) :
    (localTable? name rs).getD {} = .ofList ((inScope (some name) rs).flatMap rules) := by
  unfold localTable?
  split
  · rename_i h
    rw [List.isEmpty_iff.mp h]
    rfl
  · rfl

theorem localTable?_append_of_eq {name : String} (h : r.scope = some name) :
    localTable? name (rs ++ [r]) = some (((localTable? name rs).getD {}).append r.table) := by
  rw [getD_localTable?, append_ofList, toList_table]
  unfold localTable?
  rw [inScope_append, inScope_singleton_of_eq h, if_neg (by simp), List.flatMap_append]
  simp only [List.flatMap_cons, List.flatMap_nil, List.append_nil]

theorem localTable?_append_of_nil {name : String} (h : inScope (some name) more = []) :
    localTable? name (rs ++ more) = localTable? name rs := by
  unfold localTable?
  rw [inScope_append, h, List.append_nil]

end Registration

/-! ## The history describes the store -/

namespace Store

/-- The store is what a history and the variables after it make it. -/
structure Describes (rs : List (Registration m)) (vars : Variables) (store : Store m) : Prop where
  bindings : store.bindings = vars
  globalTable : store.globalScope.table = Registration.globalTable rs
  globalOrdinal : store.globalScope.generation = ⟨(lastOrdinal? none rs).getD 0⟩
  localTable : ∀ name, (store.localScopes.lookup name).map (fun s => s.table) = localTable? name rs
  localOrdinal : ∀ name, (store.localScopes.lookup name).map (fun s => s.generation) =
    (lastOrdinal? (some name) rs).map Generation.mk
  count : store.generation = ⟨rs.length⟩

variable {rs : List (Registration m)} {vars : Variables} {store : Store m}

theorem describes_empty : Describes [] {} ({} : Store m) :=
  ⟨rfl, rfl, rfl, fun _ => rfl, fun _ => rfl, rfl⟩

theorem describes_registerGlobal (h : Describes rs vars store) (sheet : Sheet m) :
    Describes (rs ++ [⟨none, vars, sheet⟩]) vars (store.registerGlobal sheet) where
  bindings := h.bindings
  globalTable := by
    rw [globalTable_append_of_eq rfl, ← h.bindings]
    rfl
  globalOrdinal := by
    have hlast : lastOrdinal? none (rs ++ [⟨none, vars, sheet⟩]) = some (rs.length + 1) :=
      lastOrdinal?_append_self ⟨none, vars, sheet⟩
    show store.generation.next = _
    rw [hlast, h.count]
    rfl
  localTable name := by
    rw [localTable?_append_of_nil (inScope_singleton_of_ne (by simp))]
    exact h.localTable name
  localOrdinal name := by
    rw [lastOrdinal?_append_of_nil (inScope_singleton_of_ne (by simp))]
    exact h.localOrdinal name
  count := by
    show store.generation.next = _
    rw [h.count, List.length_append]
    rfl

theorem describes_registerLocal (h : Describes rs vars store) (name : String) (sheet : Sheet m) :
    Describes (rs ++ [⟨some name, vars, sheet⟩]) vars (store.registerLocal name sheet) := by
  have hlookup : ∀ other, (store.registerLocal name sheet).localScopes.lookup other =
      if other = name then
        some ⟨((store.localScopes.lookup name).getD {}).table.append (.ofSheet store.bindings sheet),
          store.generation.next⟩
      else store.localScopes.lookup other :=
    fun other => Keyed.lookup_update name other _ store.localScopes
  have hne : ∀ {other : String}, other ≠ name → some name ≠ some other :=
    fun hother heq => hother (Option.some.inj heq).symm
  refine ⟨h.bindings, ?_, ?_, fun other => ?_, fun other => ?_, ?_⟩
  · rw [globalTable_append_of_nil (inScope_singleton_of_ne (by simp))]
    exact h.globalTable
  · rw [lastOrdinal?_append_of_nil (inScope_singleton_of_ne (by simp))]
    exact h.globalOrdinal
  · rw [hlookup]
    by_cases hother : other = name
    · -- the rules go behind those that the scope has, and a scope that is new has none
      have hpresent : ((store.localScopes.lookup name).getD {}).table =
          (localTable? name rs).getD {} := by
        rw [← h.localTable name]
        cases store.localScopes.lookup name <;> rfl
      rw [if_pos hother, hother, localTable?_append_of_eq rfl, ← hpresent, ← h.bindings]
      rfl
    · rw [if_neg hother, localTable?_append_of_nil (inScope_singleton_of_ne (hne hother))]
      exact h.localTable other
  · rw [hlookup]
    by_cases hother : other = name
    · have hlast : lastOrdinal? (some name) (rs ++ [⟨some name, vars, sheet⟩]) =
          some (rs.length + 1) :=
        lastOrdinal?_append_self ⟨some name, vars, sheet⟩
      rw [if_pos hother, hother, hlast, h.count]
      rfl
    · rw [if_neg hother, lastOrdinal?_append_of_nil (inScope_singleton_of_ne (hne hother))]
      exact h.localOrdinal other
  · show store.generation.next = _
    rw [h.count, List.length_append]
    rfl

theorem describes_withBindings (h : Describes rs vars store) (bindings : Variables) :
    Describes rs bindings { store with bindings := bindings } :=
  ⟨rfl, h.globalTable, h.globalOrdinal, h.localTable, h.localOrdinal, h.count⟩

/-- Every operation adds its registration to the history, if it makes one, and changes the variables. -/
theorem describes_perform (h : Describes rs vars store) (op : Operation m) :
    Describes (rs ++ (op.registration? vars).toList) (op.bindingsAfter vars) (store.perform op) := by
  cases op with
  | register scope sheet =>
      cases scope with
      | none => exact describes_registerGlobal h sheet
      | some name => exact describes_registerLocal h name sheet
  | setVariable name value =>
      rw [Operation.registration?, Option.toList_none, List.append_nil, perform, setVariable,
        Operation.bindingsAfter, h.bindings]
      cases vars.set name value with
      | error e => exact h
      | ok bindings => exact describes_withBindings h bindings
  | setVariables entries =>
      rw [Operation.registration?, Option.toList_none, List.append_nil, perform, setVariables,
        Operation.bindingsAfter, h.bindings]
      cases vars.setAll entries with
      | error e => exact h
      | ok bindings => exact describes_withBindings h bindings

/-- The variables after operations, one after the other. -/
def bindingsAfter (vars : Variables) (ops : List (Operation m)) : Variables :=
  ops.foldl Operation.bindingsAfter vars

theorem describes_run (h : Describes rs vars store) (ops : List (Operation m)) :
    Describes (rs ++ registrations vars ops) (bindingsAfter vars ops) (store.run ops) := by
  induction ops generalizing rs vars store with
  | nil =>
      rw [registrations, List.append_nil]
      exact h
  | cons op rest ih =>
      rw [registrations, ← List.append_assoc]
      exact ih (describes_perform h op)

theorem view_of_describes (h : Describes rs vars store) (scope : Option String) :
    store.view scope = View.ofHistory rs scope := by
  unfold view View.ofHistory
  cases scope with
  | none =>
      rw [h.globalTable, h.globalOrdinal]
      rfl
  | some name =>
      simp only [Option.bind_some]
      rw [h.globalTable, h.globalOrdinal, h.localTable, h.localOrdinal]

/-- After any operations a view shows what the history says. -/
theorem view_run (ops : List (Operation m)) (scope : Option String) :
    (run {} ops).view scope = View.ofHistory (registrations {} ops) scope :=
  view_of_describes (describes_run describes_empty ops) scope

/-! ## Histories that show the same -/

theorem registrations_append (vars : Variables) (ops more : List (Operation m)) :
    registrations vars (ops ++ more) =
      registrations vars ops ++ registrations (bindingsAfter vars ops) more := by
  induction ops generalizing vars with
  | nil => rfl
  | cons op rest ih =>
      rw [List.cons_append, registrations, registrations, ih, List.append_assoc]
      rfl

theorem inScope_registration? (scope : Option String) (vars : Variables) (op : Operation m) :
    inScope scope (op.registration? vars).toList = [] ↔ op.registersIn scope = false := by
  cases op with
  | register target sheet => simp [Operation.registration?, Operation.registersIn, inScope]
  | setVariable name value => simp [Operation.registration?, Operation.registersIn, inScope]
  | setVariables entries => simp [Operation.registration?, Operation.registersIn, inScope]

/-- The history has nothing in a scope if and only if no operation registers anything there. -/
theorem inScope_registrations_eq_nil_iff (scope : Option String) (vars : Variables)
    (ops : List (Operation m)) :
    inScope scope (registrations vars ops) = [] ↔ ∀ op ∈ ops, op.registersIn scope = false := by
  induction ops generalizing vars with
  | nil => simp [registrations, inScope]
  | cons op rest ih =>
      rw [registrations, inScope_append, List.append_eq_nil_iff, inScope_registration?, ih,
        List.forall_mem_cons]

theorem inScope_registrations_ne_nil_iff (scope : Option String) (vars : Variables)
    (ops : List (Operation m)) :
    inScope scope (registrations vars ops) ≠ [] ↔ ∃ op ∈ ops, op.registersIn scope = true := by
  rw [Ne, inScope_registrations_eq_nil_iff]
  simp

/-- The rules that a view shows are decided by the last global registration and those under the name. -/
theorem sameRules_ofHistory {rs ts : List (Registration m)} {scope : Option String}
    (hglobal : (inScope none rs).getLast? = (inScope none ts).getLast?)
    (hlocal : ∀ name, scope = some name → inScope (some name) rs = inScope (some name) ts) :
    View.SameRules (.ofHistory rs scope) (.ofHistory ts scope) where
  globalTable := by
    simp only [View.ofHistory, Registration.globalTable, hglobal]
  localTable := by
    cases scope with
    | none => rfl
    | some name => simp only [View.ofHistory, Option.bind_some, localTable?, hlocal name rfl]

theorem ofHistory_append_of_nil {rs more : List (Registration m)} {scope : Option String}
    (hglobal : inScope none more = []) (hlocal : inScope scope more = []) :
    View.ofHistory (rs ++ more) scope = View.ofHistory rs scope := by
  unfold View.ofHistory
  rw [globalTable_append_of_nil hglobal, lastOrdinal?_append_of_nil hglobal]
  cases scope with
  | none => rfl
  | some name =>
      simp only [Option.bind_some, localTable?_append_of_nil hlocal, lastOrdinal?_append_of_nil hlocal]

theorem registrations_register (ops more : List (Operation m)) (target : Option String)
    (sheet : Sheet m) :
    registrations {} (ops ++ .register target sheet :: more) =
      registrations {} ops ++ ⟨target, bindingsAfter {} ops, sheet⟩ ::
        registrations (bindingsAfter {} ops) more :=
  registrations_append {} ops _

theorem inScope_cons_of_ne {scope : Option String} {r : Registration m} (h : r.scope ≠ scope)
    (rs : List (Registration m)) : inScope scope (r :: rs) = inScope scope rs :=
  List.filter_cons_of_neg (by simpa using h)

/-- A registration in another scope does not enter what a scope shows. -/
theorem sameRules_of_otherScope (ops more : List (Operation m)) {scope : Option String}
    {name : String} (sheet : Sheet m) (h : scope ≠ some name) :
    View.SameRules ((run {} (ops ++ .register (some name) sheet :: more)).view scope)
      ((run {} (ops ++ more)).view scope) := by
  rw [view_run, view_run, registrations_register, registrations_append]
  refine sameRules_ofHistory ?_ fun other hother => ?_
  · rw [inScope_append, inScope_append, inScope_cons_of_ne (by simp)]
  · rw [inScope_append, inScope_append, inScope_cons_of_ne fun heq => h (hother.trans heq.symm)]

/-- A global registration does not enter what is shown after a later one. -/
theorem sameRules_of_laterGlobal (ops more : List (Operation m)) (scope : Option String)
    (sheet : Sheet m) (h : ∃ op ∈ more, op.registersIn none = true) :
    View.SameRules ((run {} (ops ++ .register none sheet :: more)).view scope)
      ((run {} (ops ++ more)).view scope) := by
  rw [view_run, view_run, registrations_register, registrations_append]
  refine sameRules_ofHistory ?_ fun other _ => ?_
  · have hlater := (inScope_registrations_ne_nil_iff none (bindingsAfter {} ops) more).mpr h
    rw [inScope_append, inScope_append, List.getLast?_append_of_ne_nil _ hlater]
    rw [← List.singleton_append, inScope_append, ← List.append_assoc,
      List.getLast?_append_of_ne_nil _ hlater]
  · rw [inScope_append, inScope_append, inScope_cons_of_ne (by simp)]

/-- Registrations in two scopes that follow each other can be swapped. -/
theorem sameRules_of_swap (ops more : List (Operation m)) {scope first second : Option String}
    (sheet other : Sheet m) (h : first ≠ second) :
    View.SameRules
      ((run {} (ops ++ .register first sheet :: .register second other :: more)).view scope)
      ((run {} (ops ++ .register second other :: .register first sheet :: more)).view scope) := by
  have hswap : ∀ (target : Option String) (vars : Variables) (rs : List (Registration m)),
      inScope target (⟨first, vars, sheet⟩ :: ⟨second, vars, other⟩ :: rs) =
        inScope target (⟨second, vars, other⟩ :: ⟨first, vars, sheet⟩ :: rs) := by
    intro target vars rs
    -- one of the two is not in the scope, and then it does not matter where it stands
    by_cases hfirst : first = target
    · have hsecond : second ≠ target := fun heq => h (hfirst.trans heq.symm)
      simp [inScope, hfirst, hsecond]
    · simp [inScope, List.filter_cons, hfirst]
  rw [view_run, view_run, registrations_register, registrations_register]
  refine sameRules_ofHistory ?_ fun name _ => ?_
  · rw [inScope_append, inScope_append]
    exact congrArg (fun l => (inScope none _ ++ l).getLast?) (hswap none _ _)
  · rw [inScope_append, inScope_append]
    exact congrArg (fun l => inScope (some name) _ ++ l) (hswap (some name) _ _)

/-- What a store shows of a scope is a function of its history: the rules of the last global
registration, the rules of every registration under the name in their order and with positions counted
from zero, and the ordinals of the last registrations. Operations that register nothing in either scope
change nothing; registrations under other names and global ones that are replaced do not enter the rules,
and registrations in different scopes can be swapped. -/
theorem view_run_eq_ofHistory (ops more : List (Operation m)) (scope : Option String) :
    (run {} ops).view scope = View.ofHistory (registrations {} ops) scope ∧
    (∀ name, (localTable? name (registrations {} ops)).isSome = true ↔
      ∃ op ∈ ops, op.registersIn (some name) = true) ∧
    (∀ name table, localTable? name (registrations {} ops) = some table →
      table.stamped = RuleTable.stampFrom 0
        ((inScope (some name) (registrations {} ops)).flatMap rules)) ∧
    ((∀ op ∈ more, op.registersIn none = false ∧ op.registersIn scope = false) →
      (run {} (ops ++ more)).view scope = (run {} ops).view scope) ∧
    (∀ name sheet, scope ≠ some name →
      View.SameRules ((run {} (ops ++ .register (some name) sheet :: more)).view scope)
        ((run {} (ops ++ more)).view scope)) ∧
    (∀ sheet, (∃ op ∈ more, op.registersIn none = true) →
      View.SameRules ((run {} (ops ++ .register none sheet :: more)).view scope)
        ((run {} (ops ++ more)).view scope)) ∧
    (∀ first second sheet other, first ≠ second →
      View.SameRules
        ((run {} (ops ++ .register first sheet :: .register second other :: more)).view scope)
        ((run {} (ops ++ .register second other :: .register first sheet :: more)).view scope)) := by
  refine ⟨view_run ops scope, fun name => ?_, fun name table htable => ?_, fun hmore => ?_,
    fun name sheet h => sameRules_of_otherScope ops more sheet h,
    fun sheet h => sameRules_of_laterGlobal ops more scope sheet h,
    fun first second sheet other h => sameRules_of_swap ops more sheet other h⟩
  · rw [← inScope_registrations_ne_nil_iff (some name) {} ops, isSome_localTable?]
  · have hlist : table =
        .ofList ((inScope (some name) (registrations {} ops)).flatMap rules) := by
      rw [← getD_localTable?, htable, Option.getD_some]
    rw [hlist]
    exact RuleTable.stamped_of_filed (RuleTable.filed_of_holds (RuleTable.holds_ofList _))
  · rw [view_run, view_run, registrations_append]
    exact ofHistory_append_of_nil
      ((inScope_registrations_eq_nil_iff none _ more).mpr fun op hop => (hmore op hop).1)
      ((inScope_registrations_eq_nil_iff scope _ more).mpr fun op hop => (hmore op hop).2)

/-- A card with an icon, registered twice with a list in between. Its scope has the rule of the icon twice, at the
first position and at the second. -/
theorem view_run_eq_ofHistory_card :
    let icon : Sheet Id := [("icon", .nested [("gap", .value (.text "0"))])]
    let row : Sheet Id := [("row", .nested [("gap", .value (.text "1"))])]
    let card : Operation Id := .register (some "card") icon
    let list : Operation Id := .register (some "list") row
    let page : Operation Id := .register none row
    let rule : Rule Id := ⟨Selector.ofString "icon", [], (Selector.ofString "icon").weight,
      .fixed (Declaration.ofList [("gap", .text "0")])⟩
    ((run {} ([card] ++ [list])).view (some "card") = (run {} [card]).view (some "card")) ∧
      View.SameRules ((run {} ([card] ++ list :: [page])).view (some "card"))
        ((run {} ([card] ++ [page])).view (some "card")) ∧
      View.SameRules ((run {} ([card] ++ .register none icon :: [page])).view (some "card"))
        ((run {} ([card] ++ [page])).view (some "card")) ∧
      View.SameRules ((run {} ([card] ++ list :: page :: [page])).view (some "card"))
        ((run {} ([card] ++ page :: list :: [page])).view (some "card")) ∧
      ∃ table, localTable? "card" (registrations {} [card, list, card]) = some table ∧
        table.stamped = [⟨0, rule⟩, ⟨1, rule⟩] := by
  intro icon row card list page rule
  obtain ⟨-, -, -, hquiet, -, -, -⟩ := view_run_eq_ofHistory [card] [list] (some "card")
  obtain ⟨-, -, -, -, hother, hreplaced, hswap⟩ := view_run_eq_ofHistory [card] [page] (some "card")
  obtain ⟨-, hpresent, hstamped, -, -, -, -⟩ := view_run_eq_ofHistory [card, list, card] [] (some "card")
  have hexpand : Sheet.expand icon = icon := by
    have hsegments : Key.segments ['i', 'c', 'o', 'n'] = [['i', 'c', 'o', 'n']] := by decide +kernel
    simp [icon, Sheet.expand, Sheet.resolve, Style.resolve, Style.isValue, Key.resolve, Level.push,
      Sheet.ofPlaced, Sheet.place, Sheet.mergeAt, Sheet.nest, Style.over, Keyed.update, Keyed.set, hsegments]
  have hrules : rules ⟨some "card", {}, icon⟩ = [rule] := by
    have hvalue : ({} : Variables).substitute (.text "0") = .text "0" := by decide +kernel
    have hnonempty : (Declaration.ofList [("gap", Value.text "0")]).isEmpty = false := by decide +kernel
    rw [rules, hexpand]
    simp [icon, rule, Sheet.rules, Sheet.rulesBelow, Style.rules, Rule.ofProperties, Sheet.ownProperties,
      Specificity.zero_add, hvalue, hnonempty]
  have hscope : inScope (some "card") (registrations {} [card, list, card]) =
      [⟨some "card", {}, icon⟩, ⟨some "card", {}, icon⟩] := rfl
  obtain ⟨table, htable⟩ :=
    Option.isSome_iff_exists.mp ((hpresent "card").mpr ⟨card, List.mem_cons_self, by decide⟩)
  refine ⟨hquiet (by decide), hother "list" row (by decide), hreplaced icon ⟨page, by simp, by decide⟩,
    hswap (some "list") none row row (by decide), table, htable, ?_⟩
  rw [hstamped "card" table htable, hscope, List.flatMap_cons, List.flatMap_singleton, hrules]
  rfl

end Store

end StyleCascade
