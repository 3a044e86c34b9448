/-
# StyleCascade.Proofs.Cascade.Winner — which contribution decides a property

Merging sorts the contributions and lets later ones overwrite earlier ones. Seen from one property, all
of that comes down to a single contribution: of those that set the property, the one of the greatest
priority, and the last of them where priorities are equal. `winner?` picks it in one pass without any
sorting, and `get?_mergeAll` says that a merge reads as its winners say.

Since the winner is picked by priority, it does not matter in which order contributions came, or how
often, as long as a priority belongs to one contribution only (`mergeAll_eq_of_mem_iff`).
-/
import Mathlib.Data.List.Sort
import StyleCascade.Cascade.Merge

namespace StyleCascade

/-! ## The order of priorities -/

namespace Priority

theorem isLE_then_compare_iff {a b : Nat} {o : Ordering} :
    ((Ord.compare a b).then o).isLE = true ↔ a < b ∨ a = b ∧ o.isLE = true := by
  rcases Nat.lt_trichotomy a b with h | h | h
  · rw [Nat.compare_eq_lt.mpr h]
    simp [Ordering.then, h]
  · rw [Nat.compare_eq_eq.mpr h]
    simp [Ordering.then, h]
  · rw [Nat.compare_eq_gt.mpr h]
    simp [Ordering.then]
    omega

/-- Weight decides first, then the scope, then the kind, then the position. -/
theorem le_iff (p q : Priority) : p.le q = true ↔
    p.weight.value < q.weight.value ∨ p.weight.value = q.weight.value ∧
      (p.origin.rank < q.origin.rank ∨ p.origin.rank = q.origin.rank ∧
        (p.kind.rank < q.kind.rank ∨ p.kind.rank = q.kind.rank ∧ p.order ≤ q.order)) := by
  unfold le compare
  rw [isLE_then_compare_iff, isLE_then_compare_iff, isLE_then_compare_iff, Nat.isLE_compare]

theorem le_total (p q : Priority) : p.le q = true ∨ q.le p = true := by
  rw [le_iff, le_iff]
  omega

theorem le_refl (p : Priority) : p.le p = true :=
  (le_total p p).elim id id

theorem le_trans (p q r : Priority) (hpq : p.le q = true) (hqr : q.le r = true) :
    p.le r = true := by
  rw [le_iff] at *
  omega

theorem rank_origin_injective {a b : Origin} (h : a.rank = b.rank) : a = b := by
  cases a <;> cases b <;> first | rfl | exact absurd h (by decide)

theorem rank_kind_injective {a b : RuleKind} (h : a.rank = b.rank) : a = b := by
  cases a <;> cases b <;> first | rfl | exact absurd h (by decide)

theorem le_antisymm {p q : Priority} (hpq : p.le q = true) (hqp : q.le p = true) : p = q := by
  rw [le_iff] at hpq hqp
  have hweight : p.weight = q.weight := Specificity.ext (by omega)
  have horigin : p.origin = q.origin := rank_origin_injective (by omega)
  have hkind : p.kind = q.kind := rank_kind_injective (by omega)
  have horder : p.order = q.order := by omega
  cases p
  cases q
  simp_all

end Priority

/-! ## Declarations that read alike -/

/-- A declaration is determined by what its properties read as. -/
theorem Declaration.eq_of_get? {d e : Declaration} (h : ∀ name, d.get? name = e.get? name) :
    d = e := by
  have hmem : ∀ entry : String × Value, entry ∈ d.entries ↔ entry ∈ e.entries := by
    rintro ⟨name, value⟩
    rw [← get?_eq_some_iff, ← get?_eq_some_iff, h]
  -- names increase, so the entries are without repetitions and there is one way to order them
  have hnodup : ∀ c : Declaration, c.entries.Nodup := fun c =>
    c.increasing.imp fun {a b} hlt heq => by
      rw [heq] at hlt
      exact String.lt_irrefl _ hlt
  have hperm : d.entries.Perm e.entries :=
    (List.perm_ext_iff_of_nodup (hnodup d) (hnodup e)).mpr hmem
  have heq : d.entries = e.entries :=
    hperm.eq_of_pairwise (fun a b _ _ hab hba => absurd (String.lt_trans hab hba) (String.lt_irrefl _))
      d.increasing e.increasing
  cases d
  cases e
  simp_all

namespace Contribution

/-! ## The winner -/

/-- The contribution sets a property. -/
def sets (name : String) (c : Contribution) : Bool :=
  (c.declaration.get? name).isSome

/-- The contribution that decides a property: of those that set it one of the greatest priority, and
the last of these. -/
def winner? (name : String) : List Contribution → Option Contribution
  | [] => none
  | c :: rest =>
    match winner? name rest with
    | some w => if c.sets name && !c.priority.le w.priority then some c else some w
    | none => if c.sets name then some c else none

theorem winner?_eq_none_iff {name : String} {cs : List Contribution} :
    winner? name cs = none ↔ ∀ c ∈ cs, c.sets name = false := by
  induction cs with
  | nil => simp [winner?]
  | cons c rest ih =>
      rw [List.forall_mem_cons, ← ih, winner?]
      cases winner? name rest with
      | none => simp
      | some w =>
          simp only [reduceCtorEq, and_false, iff_false]
          split <;> simp

/-- Before the winner nothing exceeds it, and after it nothing comes up to it. -/
theorem winner?_spec {name : String} {cs : List Contribution} {w : Contribution}
    (h : winner? name cs = some w) :
    ∃ before after, cs = before ++ w :: after ∧ w.sets name = true ∧
      (∀ c ∈ before, c.sets name = true → c.priority.le w.priority = true) ∧
      (∀ c ∈ after, c.sets name = true → w.priority.le c.priority = false) := by
  induction cs generalizing w with
  | nil => exact absurd h (by simp [winner?])
  | cons c rest ih =>
      rw [winner?] at h
      cases hrest : winner? name rest with
      | none =>
          rw [hrest] at h
          have hnone := winner?_eq_none_iff.mp hrest
          simp only [Option.ite_none_right_eq_some, Option.some.injEq] at h
          obtain ⟨hsets, rfl⟩ := h
          refine ⟨[], rest, rfl, hsets, by simp, ?_⟩
          intro d hd hset
          rw [hnone d hd] at hset
          exact absurd hset (by simp)
      | some v =>
          rw [hrest] at h
          obtain ⟨before, after, hsplit, hset, hbefore, hafter⟩ := ih hrest
          simp only at h
          split at h
          · -- the head exceeds the winner of the rest, and with it everything there
            rename_i hc
            obtain rfl := Option.some.inj h
            simp only [Bool.and_eq_true, Bool.not_eq_true'] at hc
            refine ⟨[], rest, rfl, hc.1, by simp, ?_⟩
            intro d hd hdset
            have hdv : d.priority.le v.priority = true := by
              rw [hsplit] at hd
              rcases List.mem_append.mp hd with hd | hd
              · exact hbefore d hd hdset
              · rcases List.mem_cons.mp hd with rfl | hd
                · exact Priority.le_refl _
                · exact (Priority.le_total _ _).resolve_right (by simp [hafter d hd hdset])
            by_contra hcd
            rw [Bool.not_eq_false] at hcd
            rw [Priority.le_trans _ _ _ hcd hdv] at hc
            exact absurd hc.2 (by simp)
          · -- the winner of the rest stays, and the head, if it sets the property, is below it
            rename_i hc
            obtain rfl := Option.some.inj h
            refine ⟨c :: before, after, by rw [hsplit]; rfl, hset, ?_, hafter⟩
            rw [List.forall_mem_cons]
            refine ⟨fun hcset => ?_, hbefore⟩
            simpa [hcset] using hc

theorem mem_of_winner? {name : String} {cs : List Contribution} {w : Contribution}
    (h : winner? name cs = some w) : w ∈ cs := by
  obtain ⟨before, after, rfl, _⟩ := winner?_spec h
  simp

/-- Nothing that sets the property exceeds its winner. -/
theorem le_winner? {name : String} {cs : List Contribution} {w c : Contribution}
    (h : winner? name cs = some w) (hc : c ∈ cs) (hset : c.sets name = true) :
    c.priority.le w.priority = true := by
  obtain ⟨before, after, rfl, _, hbefore, hafter⟩ := winner?_spec h
  rcases List.mem_append.mp hc with hc | hc
  · exact hbefore c hc hset
  · rcases List.mem_cons.mp hc with rfl | hc
    · exact Priority.le_refl _
    · exact (Priority.le_total _ _).resolve_right (by simp [hafter c hc hset])

/-! ## What a merge reads as -/

/-- After merging in a given order a property reads as in the last contribution that sets it. -/
theorem get?_foldl_merge (cs : List Contribution) (d : Declaration) (name : String) :
    (cs.foldl (fun merged c => merged.merge c.declaration) d).get? name =
      ((cs.reverse.find? (sets name)).bind fun c => c.declaration.get? name).or (d.get? name) := by
  induction cs generalizing d with
  | nil => rfl
  | cons c rest ih =>
      rw [List.foldl_cons, ih, Declaration.get?_merge, List.reverse_cons, List.find?_append]
      cases hlast : rest.reverse.find? (sets name) with
      | some w =>
          -- a later one sets the property, so it does not matter what the head says
          have hw : w.sets name = true := List.find?_some hlast
          unfold sets at hw
          obtain ⟨v, hv⟩ := Option.isSome_iff_exists.mp hw
          simp [hv]
      | none =>
          cases hc : c.declaration.get? name <;> simp [sets, hc]

/-- Sorting a contribution in puts it last for a property exactly if it sets the property and exceeds
the one that was last. -/
theorem find?_insertSorted {name : String} (c : Contribution) {l : List Contribution}
    (h : l.Pairwise fun a b => a.priority.le b.priority = true) :
    (insertSorted (fun a b => a.priority.le b.priority) c l).reverse.find? (sets name) =
      match l.reverse.find? (sets name) with
      | some w => if c.sets name && !c.priority.le w.priority then some c else some w
      | none => if c.sets name then some c else none := by
  induction l with
  | nil =>
      cases hc : c.sets name <;> simp [insertSorted, hc]
  | cons b rest ih =>
      obtain ⟨hb, hrest⟩ := List.pairwise_cons.mp h
      rw [insertSorted]
      split
      · -- the new one goes first, below all of the list
        rename_i hcb
        rw [List.reverse_cons (a := c), List.find?_append]
        cases hlast : (b :: rest).reverse.find? (sets name) with
        | none => cases hc : c.sets name <;> simp [hc]
        | some w =>
            have hw : w ∈ b :: rest := List.mem_reverse.mp (List.mem_of_find?_eq_some hlast)
            have hcw : c.priority.le w.priority = true := by
              rcases List.mem_cons.mp hw with rfl | hw
              · exact hcb
              · exact Priority.le_trans _ _ _ hcb (hb w hw)
            simp [hcw]
      · rename_i hcb
        rw [Bool.not_eq_true] at hcb
        rw [List.reverse_cons, List.reverse_cons, List.find?_append, List.find?_append, ih hrest]
        cases rest.reverse.find? (sets name) with
        | some w => by_cases hc : (c.sets name && !c.priority.le w.priority) = true <;> simp [hc]
        | none =>
            cases c.sets name <;> cases hbset : b.sets name <;> simp [hbset, hcb]

theorem find?_stableSort (name : String) (cs : List Contribution) :
    (stableSort (fun a b => a.priority.le b.priority) cs).reverse.find? (sets name) =
      winner? name cs := by
  induction cs with
  | nil => rfl
  | cons c rest ih =>
      have hsorted : (stableSort (fun a b => a.priority.le b.priority) rest).Pairwise
          fun a b => a.priority.le b.priority = true := by
        apply stableSort_sorted
        · intro a b
          exact Priority.le_total a.priority b.priority
        · intro a b c
          exact Priority.le_trans a.priority b.priority c.priority
      rw [stableSort, find?_insertSorted c hsorted, ih, winner?]

/-- A merge reads as its winners say. -/
theorem get?_mergeAll (cs : List Contribution) (name : String) :
    (mergeAll cs).get? name = (winner? name cs).bind fun w => w.declaration.get? name := by
  unfold mergeAll
  rw [get?_foldl_merge, find?_stableSort, Declaration.get?_empty, Option.or_none]

/-! ## Merges of the same contributions -/

/-- A merge does not see contributions that are outdone: for each of them, one that stays declares the same
with no lower priority. It is the winner's own declaration that stays, if no two have one priority. -/
theorem mergeAll_eq_of_outdone {cs ds : List Contribution} (hsub : cs ⊆ ds)
    (houtdone : ∀ d ∈ ds, ∃ c ∈ cs,
      c.declaration = d.declaration ∧ d.priority.le c.priority = true)
    (hinj : ∀ c ∈ ds, ∀ d ∈ ds, c.priority = d.priority → c = d) : mergeAll cs = mergeAll ds := by
  apply Declaration.eq_of_get?
  intro name
  rw [get?_mergeAll, get?_mergeAll]
  suffices hw : winner? name cs = winner? name ds by rw [hw]
  cases hds : winner? name ds with
  | none =>
      have hnone := winner?_eq_none_iff.mp hds
      exact winner?_eq_none_iff.mpr fun c hc => hnone c (hsub hc)
  | some w =>
      obtain ⟨_, _, _, hset, _⟩ := winner?_spec hds
      have hwmem : w ∈ ds := mem_of_winner? hds
      -- nothing exceeds the winner, so what outdoes it is the winner itself
      have hmem : w ∈ cs := by
        obtain ⟨c, hc, hdeclaration, hle⟩ := houtdone w hwmem
        have hcset : c.sets name = true := by
          unfold sets
          rw [hdeclaration]
          exact hset
        have hprio : c.priority = w.priority :=
          Priority.le_antisymm (le_winner? hds (hsub hc) hcset) hle
        rwa [← hinj c (hsub hc) w hwmem hprio]
      cases hcs : winner? name cs with
      | none =>
          rw [winner?_eq_none_iff.mp hcs w hmem] at hset
          exact absurd hset (by simp)
      | some v =>
          obtain ⟨_, _, _, hvset, _⟩ := winner?_spec hcs
          have hvmem : v ∈ ds := hsub (mem_of_winner? hcs)
          -- each winner is among the contributions of the other, so neither exceeds the other
          have hprio : v.priority = w.priority :=
            Priority.le_antisymm (le_winner? hds hvmem hvset) (le_winner? hcs hmem hset)
          rw [hinj v hvmem w hwmem hprio]

/-- Lists of the same contributions merge to the same properties, whatever their order and their
repetitions, if no two of them have one priority. -/
theorem mergeAll_eq_of_mem_iff {cs ds : List Contribution} (h : ∀ c, c ∈ cs ↔ c ∈ ds)
    (hinj : ∀ c ∈ cs, ∀ d ∈ cs, c.priority = d.priority → c = d) : mergeAll cs = mergeAll ds := by
  refine mergeAll_eq_of_outdone (fun c hc => (h c).mp hc) (fun d hd => ?_) fun c hc d hd => ?_
  · exact ⟨d, (h d).mpr hd, rfl, Priority.le_refl _⟩
  · exact hinj c ((h c).mpr hc) d ((h d).mpr hd)

end Contribution

end StyleCascade
