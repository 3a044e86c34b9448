/-
# StyleCascade.Proofs.Rule.Filing — what a rule table holds

A table is filled by pushing rules and by appending other tables. `Holds table rules` says that a table
was filled so and that `rules` are the rules it was given, in their order. Everything that is read off a
table is then a function of that list:

- the rules filed under a base class are the given ones with that base class, in order and with their
  positions (`Filed`);
- all rules in the order of their positions are the given ones (`toList_of_holds`).

So filing loses no rule, adds none, and stamps the i-th one with i.
-/
import Mathlib.Data.List.Sort
import StyleCascade.Rule.Table

namespace StyleCascade.RuleTable

variable {m : Type → Type}

/-! ## Positions -/

/-- Rules stamped with consecutive positions. -/
def stampFrom (start : Nat) : List (Rule m) → List (StampedRule m)
  | [] => []
  | r :: rest => ⟨start, r⟩ :: stampFrom (start + 1) rest

theorem stampFrom_append (start : Nat) (rules more : List (Rule m)) :
    stampFrom start (rules ++ more) =
      stampFrom start rules ++ stampFrom (start + rules.length) more := by
  induction rules generalizing start with
  | nil => rfl
  | cons r rest ih =>
      show (⟨start, r⟩ : StampedRule m) :: stampFrom (start + 1) (rest ++ more) = _
      rw [ih, List.length_cons, show start + 1 + rest.length = start + (rest.length + 1) by omega]
      rfl

theorem map_rule_stampFrom (start : Nat) (rules : List (Rule m)) :
    (stampFrom start rules).map (fun s => s.rule) = rules := by
  induction rules generalizing start with
  | nil => rfl
  | cons r rest ih =>
      rw [stampFrom, List.map_cons, ih]

theorem map_order_stampFrom (start : Nat) (rules : List (Rule m)) :
    (stampFrom start rules).map (fun s => s.order) = List.range' start rules.length := by
  induction rules generalizing start with
  | nil => rfl
  | cons r rest ih => rw [stampFrom, List.map_cons, ih, List.length_cons, List.range'_succ]

theorem le_order_of_mem_stampFrom {start : Nat} {rules : List (Rule m)} {s : StampedRule m}
    (h : s ∈ stampFrom start rules) : start ≤ s.order := by
  induction rules generalizing start with
  | nil => exact absurd h (by simp [stampFrom])
  | cons r rest ih =>
      rw [stampFrom] at h
      rcases List.mem_cons.mp h with rfl | h
      · exact Nat.le_refl _
      · exact Nat.le_of_succ_le (ih h)

/-- Positions increase strictly along the list. -/
theorem stampFrom_increasing (start : Nat) (rules : List (Rule m)) :
    (stampFrom start rules).Pairwise (fun s t => s.order < t.order) := by
  induction rules generalizing start with
  | nil => exact .nil
  | cons r rest ih =>
      rw [stampFrom]
      exact List.pairwise_cons.mpr ⟨fun s hs => le_order_of_mem_stampFrom hs, ih _⟩

/-- A position is given to one rule only. -/
theorem eq_of_order_eq {start : Nat} {rules : List (Rule m)} {s t : StampedRule m}
    (hs : s ∈ stampFrom start rules) (ht : t ∈ stampFrom start rules) (h : s.order = t.order) :
    s = t := by
  induction rules generalizing start with
  | nil => exact absurd hs (by simp [stampFrom])
  | cons r rest ih =>
      rw [stampFrom] at hs ht
      rcases List.mem_cons.mp hs with rfl | hs <;> rcases List.mem_cons.mp ht with rfl | ht
      · rfl
      · -- positions further on are past `start`
        have := le_order_of_mem_stampFrom ht
        simp only at h
        omega
      · have := le_order_of_mem_stampFrom hs
        simp only at h
        omega
      · exact ih hs ht

/-! ## Filing -/

/-- The table was filled by pushes and appends, and these are the rules it was given. -/
inductive Holds : RuleTable m → List (Rule m) → Prop
  | empty : Holds {} []
  | push {table : RuleTable m} {rules : List (Rule m)} (r : Rule m) :
      Holds table rules → Holds (table.push r) (rules ++ [r])
  | append {table other : RuleTable m} {rules more : List (Rule m)} :
      Holds table rules → Holds other more → Holds (table.append other) (rules ++ more)

/-- What is read off a table that was given a list of rules. -/
structure Filed (table : RuleTable m) (rules : List (Rule m)) : Prop where
  size : table.size = rules.length
  fixed : ∀ base, table.fixedUnder base =
    (stampFrom 0 rules).filter fun s => !s.rule.isComputed && s.rule.base == base
  computed : ∀ base, table.computedUnder base =
    (stampFrom 0 rules).filter fun s => s.rule.isComputed && s.rule.base == base
  all : ((table.fixed ++ table.computed).flatMap fun e => e.2).Perm (stampFrom 0 rules)

theorem lookup_file (base other : String) (s : StampedRule m)
    (lists : List (String × List (StampedRule m))) :
    ((file base s lists).lookup other).getD [] =
      (lists.lookup other).getD [] ++ (if other = base then [s] else []) := by
  rw [file, Keyed.lookup_update]
  split
  · rename_i h
    rw [h]
    rfl
  · simp

theorem flatMap_file_perm (base : String) (s : StampedRule m)
    (lists : List (String × List (StampedRule m))) :
    ((file base s lists).flatMap fun e => e.2).Perm ((lists.flatMap fun e => e.2) ++ [s]) := by
  unfold file
  induction lists with
  | nil => simp [Keyed.update]
  | cons head rest ih =>
      obtain ⟨k, old⟩ := head
      rw [Keyed.update]
      split
      · simp only [List.flatMap_cons, Option.getD_some, List.append_assoc]
        exact List.Perm.append_left old List.perm_append_comm
      · simp only [List.flatMap_cons, List.append_assoc]
        exact List.Perm.append_left old ih

@[simp] theorem size_push (table : RuleTable m) (r : Rule m) :
    (table.push r).size = table.size + 1 := by
  unfold push
  split <;> rfl

theorem fixedUnder_push (table : RuleTable m) (r : Rule m) (base : String) :
    (table.push r).fixedUnder base = table.fixedUnder base ++
      [(⟨table.size, r⟩ : StampedRule m)].filter fun s => !s.rule.isComputed && s.rule.base == base := by
  unfold push
  split
  · rename_i hr
    simp [fixedUnder, hr]
  · rename_i hr
    show ((file r.base _ table.fixed).lookup base).getD [] = _
    rw [lookup_file]
    by_cases hb : base = r.base
    · simp [fixedUnder, hr, hb]
    · simp [fixedUnder, hb, beq_false_of_ne (Ne.symm hb)]

theorem computedUnder_push (table : RuleTable m) (r : Rule m) (base : String) :
    (table.push r).computedUnder base = table.computedUnder base ++
      [(⟨table.size, r⟩ : StampedRule m)].filter fun s => s.rule.isComputed && s.rule.base == base := by
  unfold push
  split
  · rename_i hr
    show ((file r.base _ table.computed).lookup base).getD [] = _
    rw [lookup_file]
    by_cases hb : base = r.base
    · simp [computedUnder, hr, hb]
    · simp [computedUnder, hb, beq_false_of_ne (Ne.symm hb)]
  · rename_i hr
    simp [computedUnder, hr]

theorem flatMap_push_perm (table : RuleTable m) (r : Rule m) :
    (((table.push r).fixed ++ (table.push r).computed).flatMap fun e => e.2).Perm
      (((table.fixed ++ table.computed).flatMap fun e => e.2) ++ [⟨table.size, r⟩]) := by
  unfold push
  split
  · simp only [List.flatMap_append, List.append_assoc]
    exact (flatMap_file_perm r.base _ table.computed).append_left _
  · simp only [List.flatMap_append, List.append_assoc]
    refine ((flatMap_file_perm r.base _ table.fixed).append_right _).trans ?_
    rw [List.append_assoc]
    exact List.perm_append_comm.append_left _

theorem filed_empty : Filed ({} : RuleTable m) [] :=
  ⟨rfl, fun _ => rfl, fun _ => rfl, .nil⟩

/-- A push files its rule at the end. -/
theorem filed_push {table : RuleTable m} {rules : List (Rule m)} (h : Filed table rules)
    (r : Rule m) : Filed (table.push r) (rules ++ [r]) := by
  -- the size of the table is the position the rule gets
  have hstamp : stampFrom 0 (rules ++ [r]) = stampFrom 0 rules ++ [⟨table.size, r⟩] := by
    rw [stampFrom_append, h.size, Nat.zero_add]
    rfl
  refine ⟨?_, fun base => ?_, fun base => ?_, ?_⟩
  · rw [size_push, h.size, List.length_append, List.length_singleton]
  · rw [fixedUnder_push, h.fixed, hstamp, List.filter_append]
  · rw [computedUnder_push, h.computed, hstamp, List.filter_append]
  · rw [hstamp]
    exact (flatMap_push_perm table r).trans (h.all.append_right _)

theorem filed_pushAll {table : RuleTable m} {rules : List (Rule m)} (h : Filed table rules)
    (more : List (Rule m)) : Filed (table.pushAll more) (rules ++ more) := by
  induction more generalizing table rules with
  | nil => simpa [pushAll] using h
  | cons r rest ih =>
      have := ih (filed_push h r)
      rwa [List.append_assoc] at this

theorem stamped_of_filed {table : RuleTable m} {rules : List (Rule m)} (h : Filed table rules) :
    table.stamped = stampFrom 0 rules := by
  have hsorted : table.stamped.Pairwise fun a b => decide (a.order ≤ b.order) = true := by
    apply stableSort_sorted
    · intro a b
      simpa using Nat.le_total a.order b.order
    · intro a b c hab hbc
      simp only [decide_eq_true_eq] at hab hbc ⊢
      exact Nat.le_trans hab hbc
  have hperm : table.stamped.Perm (stampFrom 0 rules) := (stableSort_perm _ _).trans h.all
  -- positions are distinct, so the sorted list is the only one
  refine List.Perm.eq_of_pairwise ?_ hsorted
    ((stampFrom_increasing 0 rules).imp fun hlt => by simpa using Nat.le_of_lt hlt) hperm
  intro s t hs ht hst hts
  simp only [decide_eq_true_eq] at hst hts
  exact eq_of_order_eq (hperm.mem_iff.mp hs) ht (Nat.le_antisymm hst hts)

theorem toList_of_filed {table : RuleTable m} {rules : List (Rule m)} (h : Filed table rules) :
    table.toList = rules := by
  rw [toList, stamped_of_filed h, map_rule_stampFrom]

/-- Whatever the order of pushes and appends, a table files what it was given. -/
theorem filed_of_holds {table : RuleTable m} {rules : List (Rule m)} (h : Holds table rules) :
    Filed table rules := by
  induction h with
  | empty => exact filed_empty
  | push r _ ih => exact filed_push ih r
  | append _ _ ih ihOther =>
      -- appending pushes what the other table gives back, which is what it was given
      rw [append, toList_of_filed ihOther]
      exact filed_pushAll ih _

theorem toList_of_holds {table : RuleTable m} {rules : List (Rule m)} (h : Holds table rules) :
    table.toList = rules :=
  toList_of_filed (filed_of_holds h)

theorem holds_pushAll {table : RuleTable m} {rules : List (Rule m)} (h : Holds table rules)
    (more : List (Rule m)) : Holds (table.pushAll more) (rules ++ more) := by
  induction more generalizing table rules with
  | nil => simpa [pushAll] using h
  | cons r rest ih =>
      have := ih (h.push r)
      rwa [List.append_assoc] at this

/-- A table made from a list holds that list. -/
theorem holds_ofList (rules : List (Rule m)) : Holds (ofList rules) rules :=
  holds_pushAll .empty rules

end StyleCascade.RuleTable
