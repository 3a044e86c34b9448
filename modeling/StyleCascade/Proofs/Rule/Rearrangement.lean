/-
# StyleCascade.Proofs.Rule.Rearrangement — a table is the sequence of its rules

The order in which the base classes of a table stand means nothing, and it may be another one after every
push. Tables that differ in nothing else are `Rearranged`; `Assembled table rules` says that a table was
filled with rules by pushes and appends while its base classes were put into any order at any time.

An append takes the other table apart list by list, so it meets the rules in no particular order and has
only their positions to go by. A position is given to one rule, over the lists of both kinds, and that is
kept through all pushes and appends, also of a table to itself. So an assembled table is the table of one
sequence of rules pushed one by one, but for the order of its base classes (`eq_pushed_sequence`).
-/
import Mathlib.Data.List.Induction
import StyleCascade.Proofs.Keyed
import StyleCascade.Proofs.Rule.Filing

namespace StyleCascade.RuleTable

variable {m : Type → Type} {table other : RuleTable m} {rules : List (Rule m)}

/-! ## Tables in another order -/

/-- The tables differ at most in the order in which their base classes stand. -/
structure Rearranged (table other : RuleTable m) : Prop where
  fixed : table.fixed.Perm other.fixed
  computed : table.computed.Perm other.computed
  size : table.size = other.size

/-- The table was filled by pushes and appends, its base classes standing in any order at any time, and
these are the rules it was given. -/
inductive Assembled : RuleTable m → List (Rule m) → Prop
  | empty : Assembled {} []
  | push {table : RuleTable m} {rules : List (Rule m)} (r : Rule m) :
      Assembled table rules → Assembled (table.push r) (rules ++ [r])
  | append {table other : RuleTable m} {rules more : List (Rule m)} :
      Assembled table rules → Assembled other more → Assembled (table.append other) (rules ++ more)
  | rearrange {table other : RuleTable m} {rules : List (Rule m)} :
      Assembled table rules → other.Rearranged table → Assembled other rules

/-- Among the lists of one kind every base class has one. -/
structure HasUniqueBases (table : RuleTable m) : Prop where
  fixed : (Keyed.keys table.fixed).Nodup
  computed : (Keyed.keys table.computed).Nodup

theorem Rearranged.refl (table : RuleTable m) : table.Rearranged table :=
  ⟨.refl _, .refl _, rfl⟩

theorem Rearranged.trans {third : RuleTable m} (h : table.Rearranged other)
    (h' : other.Rearranged third) : table.Rearranged third :=
  ⟨h.fixed.trans h'.fixed, h.computed.trans h'.computed, h.size.trans h'.size⟩

theorem Rearranged.hasUniqueBases (h : table.Rearranged other) (hother : other.HasUniqueBases) :
    table.HasUniqueBases :=
  ⟨(h.fixed.map _).nodup_iff.mpr hother.fixed, (h.computed.map _).nodup_iff.mpr hother.computed⟩

theorem hasUniqueBases_push (h : table.HasUniqueBases) (r : Rule m) :
    (table.push r).HasUniqueBases := by
  unfold push
  split
  · exact ⟨h.fixed, Keyed.nodup_keys_update _ _ h.computed⟩
  · exact ⟨Keyed.nodup_keys_update _ _ h.fixed, h.computed⟩

theorem hasUniqueBases_pushAll (h : table.HasUniqueBases) (rules : List (Rule m)) :
    (table.pushAll rules).HasUniqueBases := by
  induction rules generalizing table with
  | nil => exact h
  | cons r rest ih => exact ih (hasUniqueBases_push h r)

theorem hasUniqueBases_ofList (rules : List (Rule m)) : (ofList rules).HasUniqueBases := by
  have hempty : ({} : RuleTable m).HasUniqueBases := ⟨List.nodup_nil, List.nodup_nil⟩
  exact hasUniqueBases_pushAll hempty rules

/-- A push files its rule in the same list of both tables. -/
theorem rearranged_push (h : table.Rearranged other) (hother : other.HasUniqueBases) (r : Rule m) :
    (table.push r).Rearranged (other.push r) := by
  have htable := h.hasUniqueBases hother
  unfold push file
  rw [h.size]
  split
  · exact ⟨h.fixed, Keyed.update_perm _ _ h.computed htable.computed, rfl⟩
  · exact ⟨Keyed.update_perm _ _ h.fixed htable.fixed, h.computed, rfl⟩

theorem rearranged_pushAll (h : table.Rearranged other) (hother : other.HasUniqueBases)
    (rules : List (Rule m)) : (table.pushAll rules).Rearranged (other.pushAll rules) := by
  induction rules generalizing table other with
  | nil => exact h
  | cons r rest ih => exact ih (rearranged_push h hother r) (hasUniqueBases_push hother r)

/-- What is read off a table does not depend on the order of its base classes. -/
theorem Rearranged.filed (h : table.Rearranged other) (hother : other.HasUniqueBases)
    (hfiled : Filed other rules) : Filed table rules := by
  have htable := h.hasUniqueBases hother
  refine ⟨h.size.trans hfiled.size, fun base => ?_, fun base => ?_, ?_⟩
  · rw [← hfiled.fixed, fixedUnder, fixedUnder, Keyed.lookup_eq_of_perm h.fixed htable.fixed]
  · rw [← hfiled.computed, computedUnder, computedUnder,
      Keyed.lookup_eq_of_perm h.computed htable.computed]
  · exact ((h.fixed.append h.computed).flatMap_right _).trans hfiled.all

theorem filed_of_rearranged (h : table.Rearranged (ofList rules)) : Filed table rules :=
  h.filed (hasUniqueBases_ofList rules) (filed_of_holds (holds_ofList rules))

theorem ofList_append (rules more : List (Rule m)) :
    ofList (rules ++ more) = (ofList rules).pushAll more :=
  List.foldl_append

/-- However a table was assembled, it is that of its rules pushed one by one, in some order of the base
classes. -/
theorem rearranged_ofList (h : Assembled table rules) : table.Rearranged (ofList rules) := by
  induction h with
  | empty => exact .refl _
  | push r _ ih =>
      rw [ofList_append]
      exact rearranged_push ih (hasUniqueBases_ofList _) r
  | append _ _ ih ihOther =>
      -- the other table gives its rules back in the order in which it was given them
      rw [ofList_append, append, toList_of_filed (filed_of_rearranged ihOther)]
      exact rearranged_pushAll ih (hasUniqueBases_ofList _) _
  | rearrange _ hother ih => exact hother.trans ih

theorem filed_of_assembled (h : Assembled table rules) : Filed table rules :=
  filed_of_rearranged (rearranged_ofList h)

theorem hasUniqueBases_of_assembled (h : Assembled table rules) : table.HasUniqueBases :=
  (rearranged_ofList h).hasUniqueBases (hasUniqueBases_ofList rules)

/-! ## Positions and lists -/

/-- Over all lists together the positions are 0, 1, 2, …, each of them once. -/
theorem map_order_perm_range (h : Filed table rules) :
    (((table.fixed ++ table.computed).flatMap fun e => e.2).map fun s => s.order).Perm
      (List.range table.size) := by
  rw [h.size, List.range_eq_range', ← map_order_stampFrom]
  exact h.all.map _

theorem eq_fixedUnder_of_mem (h : table.HasUniqueBases) {e : String × List (StampedRule m)}
    (he : e ∈ table.fixed) : e.2 = table.fixedUnder e.1 := by
  rw [fixedUnder, (Keyed.lookup_eq_some_iff h.fixed).mpr he, Option.getD_some]

theorem eq_computedUnder_of_mem (h : table.HasUniqueBases) {e : String × List (StampedRule m)}
    (he : e ∈ table.computed) : e.2 = table.computedUnder e.1 := by
  rw [computedUnder, (Keyed.lookup_eq_some_iff h.computed).mpr he, Option.getD_some]

/-! ## Base classes -/

theorem nodup_eraseDups (names : List String) : names.eraseDups.Nodup := by
  cases names with
  | nil => simp
  | cons head rest =>
      rw [List.eraseDups_cons, List.nodup_cons, List.mem_eraseDups, List.mem_filter]
      exact ⟨by simp, nodup_eraseDups _⟩
termination_by names.length
decreasing_by
  have hle := List.length_filter_le (fun name => !name == head) rest
  simp only [List.length_cons]
  omega

theorem mem_bases {base : String} : base ∈ table.bases ↔
    base ∈ Keyed.keys table.fixed ∨ base ∈ Keyed.keys table.computed := by
  unfold bases
  rw [(stableSort_perm _ _).mem_iff, List.mem_eraseDups, List.mem_append]

/-- The base classes of a table are listed in increasing order, each of them once. -/
theorem bases_increasing (table : RuleTable m) : table.bases.Pairwise (· < ·) := by
  have hsorted : table.bases.Pairwise fun a b => decide (a ≤ b) = true := by
    apply stableSort_sorted
    · intro a b
      simpa using String.le_total a b
    · intro a b c hab hbc
      simp only [decide_eq_true_eq] at hab hbc ⊢
      exact String.le_trans hab hbc
  have hnodup : table.bases.Nodup := (stableSort_perm _ _).nodup_iff.mpr (nodup_eraseDups _)
  refine (hsorted.and hnodup).imp fun {a b} h => ?_
  by_contra hlt
  exact h.2 (String.le_antisymm (of_decide_eq_true h.1) (String.not_lt.mp hlt))

theorem mem_bases_push (table : RuleTable m) (r : Rule m) (base : String) :
    base ∈ (table.push r).bases ↔ base ∈ table.bases ∨ base = r.base := by
  have hkeys (s : StampedRule m) (lists : List (String × List (StampedRule m))) :
      base ∈ Keyed.keys (file r.base s lists) ↔ base ∈ Keyed.keys lists ∨ base = r.base := by
    rw [file, Keyed.keys_update]
    split
    · rename_i hmem
      exact ⟨.inl, fun h => h.elim id fun heq => heq ▸ hmem⟩
    · simp
  rw [mem_bases, mem_bases]
  unfold push
  split
  · rw [hkeys, or_assoc]
  · rw [hkeys, or_right_comm]

theorem mem_bases_ofList (base : String) : base ∈ (ofList rules).bases ↔ ∃ r ∈ rules, r.base = base := by
  induction rules using List.reverseRecOn with
  | nil => simp [mem_bases, ofList, pushAll, Keyed.keys]
  | append_singleton rest r ih =>
      rw [ofList_append, pushAll, List.foldl_cons, List.foldl_nil, mem_bases_push, ih]
      simp [or_and_right, exists_or, eq_comm]

theorem Rearranged.mem_bases_iff (h : table.Rearranged other) (base : String) :
    base ∈ table.bases ↔ base ∈ other.bases := by
  rw [mem_bases, mem_bases]
  exact or_congr (h.fixed.map _).mem_iff (h.computed.map _).mem_iff

/-! ## The law -/

/-- A table that was assembled from rules in any way is the table of these rules pushed one by one, but for
the order of its base classes. Its positions are 0, 1, 2, …, each given once over both kinds, and the i-th
is that of the i-th rule; along every list they increase, and every list holds rules of its base class and
kind only. Its base classes are those of the rules. And an append neither sees the order of base classes
in the table that is appended nor how appends are grouped. -/
theorem eq_pushed_sequence (h : Assembled table rules) :
    table.Rearranged (ofList rules) ∧
    (((table.fixed ++ table.computed).flatMap fun e => e.2).map fun s => s.order).Perm
      (List.range table.size) ∧
    (table.size = rules.length ∧ table.stamped = stampFrom 0 rules ∧ table.toList = rules) ∧
    (∀ e ∈ table.fixed ++ table.computed, e.2.Pairwise fun s t => s.order < t.order) ∧
    (∀ e ∈ table.fixed, ∀ s ∈ e.2, s.rule.base = e.1 ∧ s.rule.isComputed = false) ∧
    (∀ e ∈ table.computed, ∀ s ∈ e.2, s.rule.base = e.1 ∧ s.rule.isComputed = true) ∧
    (∀ base, table.fixedUnder base = (ofList rules).fixedUnder base ∧
      table.computedUnder base = (ofList rules).computedUnder base) ∧
    (table.bases.Pairwise (· < ·) ∧ ∀ base, base ∈ table.bases ↔ ∃ r ∈ rules, r.base = base) ∧
    ∀ {other : RuleTable m} {more : List (Rule m)}, Assembled other more →
      (∀ other' : RuleTable m, other'.Rearranged other → table.append other' = table.append other) ∧
      ∀ {third : RuleTable m} {most : List (Rule m)}, Assembled third most →
        (table.append other).append third = table.append (other.append third) := by
  have hfiled := filed_of_assembled h
  have hunique := hasUniqueBases_of_assembled h
  have hpushed := filed_of_holds (holds_ofList rules)
  refine ⟨rearranged_ofList h, map_order_perm_range hfiled,
    ⟨hfiled.size, stamped_of_filed hfiled, toList_of_filed hfiled⟩, fun e he => ?_, fun e he s hs => ?_,
    fun e he s hs => ?_, fun base => ⟨?_, ?_⟩, ⟨bases_increasing table, fun base => ?_⟩,
    fun hother => ⟨fun other' hother' => ?_, fun hthird => ?_⟩⟩
  · rcases List.mem_append.mp he with he | he
    · rw [eq_fixedUnder_of_mem hunique he, hfiled.fixed]
      exact (stampFrom_increasing 0 rules).filter _
    · rw [eq_computedUnder_of_mem hunique he, hfiled.computed]
      exact (stampFrom_increasing 0 rules).filter _
  · rw [eq_fixedUnder_of_mem hunique he, hfiled.fixed, List.mem_filter] at hs
    simpa [and_comm] using hs.2
  · rw [eq_computedUnder_of_mem hunique he, hfiled.computed, List.mem_filter] at hs
    simpa [and_comm] using hs.2
  · rw [hfiled.fixed, hpushed.fixed]
  · rw [hfiled.computed, hpushed.computed]
  · rw [(rearranged_ofList h).mem_bases_iff, mem_bases_ofList]
  · have hlist := toList_of_filed (filed_of_assembled (hother.rearrange hother'))
    rw [append, append, hlist, toList_of_filed (filed_of_assembled hother)]
  · -- either way the rules of both tables are pushed, first those of the one and then those of the other
    rw [append, append, append, toList_of_filed (filed_of_assembled (hother.append hthird)),
      toList_of_filed (filed_of_assembled hother), toList_of_filed (filed_of_assembled hthird)]
    exact List.foldl_append.symm

/-- A rule of either kind, the lists in an order of their own, and the table appended to itself. -/
theorem eq_pushed_sequence_twice :
    let plain : Rule Id := ⟨⟨"*", "*", [], false⟩, [], .zero, .fixed .empty⟩
    let row : Rule Id := ⟨⟨"row", "row", [], false⟩, [], .one, .fixed .empty⟩
    let item : Rule Id := ⟨⟨"item", "item", [], false⟩, [], .one, .computed fun _ _ => none⟩
    let table := ofList [row, item, plain]
    let turned : RuleTable Id := { table with fixed := table.fixed.reverse }
    Assembled (turned.append turned) [row, item, plain, row, item, plain] ∧
      (turned.append turned).toList = [row, item, plain, row, item, plain] ∧
      (turned.append turned).bases = ["*", "item", "row"] ∧
      turned.append turned = turned.append table ∧
      (turned.append turned).append table = turned.append (turned.append table) := by
  intro plain row item table turned
  have htable : Assembled table [row, item, plain] := ((Assembled.empty.push row).push item).push plain
  have hturned : turned.Rearranged table := ⟨List.reverse_perm _, .refl _, rfl⟩
  have hlaw := eq_pushed_sequence (htable.rearrange hturned)
  have htwice := (htable.rearrange hturned).append (htable.rearrange hturned)
  obtain ⟨-, -, ⟨-, -, hlist⟩, -⟩ := eq_pushed_sequence htwice
  obtain ⟨-, -, -, -, -, -, -, -, happend⟩ := hlaw
  exact ⟨htwice, hlist, by decide +kernel, (happend htable).1 turned hturned,
    (happend (htable.rearrange hturned)).2 htable⟩

end StyleCascade.RuleTable
