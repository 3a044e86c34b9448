/-
# StyleCascade.Proofs.StableSort — what a stable sort is

A list sorted by a key is known from what it has of each key: of two sorted lists that have the same
elements of each key in the same order, neither can be ahead of the other (`eq_of_sorted_of_sameByKey`).
So there is one stable sort of a list by a key, and `stableSort` gives it (`isStableSort_iff`).

Sorting by insertion compares an element with later ones only. So two tests that agree wherever the first
element stands before the second sort the list alike (`stableSort_congr`), and it does not matter what they
say of an element and one before it.
-/
import Mathlib.Data.List.Basic
import StyleCascade.StableSort

namespace StyleCascade

variable {α β : Type}

/-! ## Tests that agree -/

theorem insertSorted_congr {le le' : α → α → Bool} {a : α} {l : List α}
    (h : ∀ b ∈ l, le a b = le' a b) : insertSorted le a l = insertSorted le' a l := by
  induction l with
  | nil => rfl
  | cons b rest ih =>
      obtain ⟨hb, hrest⟩ := List.forall_mem_cons.mp h
      rw [insertSorted, insertSorted, hb, ih hrest]

/-- Tests that agree on every element and those after it sort alike. -/
theorem stableSort_congr {le le' : α → α → Bool} {l : List α}
    (h : l.Pairwise fun a b => le a b = le' a b) : stableSort le l = stableSort le' l := by
  induction l with
  | nil => rfl
  | cons a rest ih =>
      obtain ⟨ha, hrest⟩ := List.pairwise_cons.mp h
      rw [stableSort, stableSort, ih hrest]
      exact insertSorted_congr fun b hb => ha b ((stableSort_perm le' rest).mem_iff.mp hb)

theorem insertSorted_map {le : α → α → Bool} {le' : β → β → Bool} {f : α → β}
    (h : ∀ a b, le' (f a) (f b) = le a b) (a : α) (l : List α) :
    insertSorted le' (f a) (l.map f) = (insertSorted le a l).map f := by
  induction l with
  | nil => rfl
  | cons b rest ih =>
      rw [List.map_cons, insertSorted, insertSorted, h, ih]
      split <;> rfl

/-- Sorting goes along with a map that keeps the comparison. -/
theorem stableSort_map {le : α → α → Bool} {le' : β → β → Bool} {f : α → β}
    (h : ∀ a b, le' (f a) (f b) = le a b) (l : List α) :
    stableSort le' (l.map f) = (stableSort le l).map f := by
  induction l with
  | nil => rfl
  | cons a rest ih => rw [List.map_cons, stableSort, stableSort, ih, insertSorted_map h]

/-! ## Sorting by a key -/

section Key

variable {key : α → Nat} {l l' sorted : List α}

/-- Two lists have the same elements of each key, in the same order. -/
def SameByKey (key : α → Nat) (l l' : List α) : Prop :=
  ∀ k, (l.filter fun a => key a == k) = l'.filter fun a => key a == k

/-- A list in ascending order of keys that has the elements of another one, those of one key in the order
in which they stand there. -/
structure IsStableSort (key : α → Nat) (l sorted : List α) : Prop where
  ascending : sorted.Pairwise fun a b => key a ≤ key b
  stable : SameByKey key sorted l

theorem SameByKey.mem_iff (h : SameByKey key l l') (a : α) : a ∈ l ↔ a ∈ l' := by
  have hkey : a ∈ l.filter (fun b => key b == key a) ↔ a ∈ l'.filter fun b => key b == key a := by
    rw [h (key a)]
  simpa using hkey

theorem SameByKey.tail {a : α} (h : SameByKey key (a :: l) (a :: l')) : SameByKey key l l' := by
  intro k
  have hk := h k
  rw [List.filter_cons, List.filter_cons] at hk
  split at hk
  · exact (List.cons.inj hk).2
  · exact hk

/-- A sorted list is known from what it has of each key. -/
theorem eq_of_sorted_of_sameByKey (hl : l.Pairwise fun a b => key a ≤ key b)
    (hl' : l'.Pairwise fun a b => key a ≤ key b) (h : SameByKey key l l') : l = l' := by
  induction l generalizing l' with
  | nil =>
      cases l' with
      | nil => rfl
      | cons b l' => exact absurd ((h.mem_iff b).mpr List.mem_cons_self) List.not_mem_nil
  | cons a l ih =>
      cases l' with
      | nil => exact absurd ((h.mem_iff a).mp List.mem_cons_self) List.not_mem_nil
      | cons b l' =>
          rw [List.pairwise_cons] at hl hl'
          -- each head is in the other list, so neither has a greater key than the other
          have hle : key a ≤ key b := by
            rcases List.mem_cons.mp ((h.mem_iff b).mpr List.mem_cons_self) with rfl | hb
            · exact Nat.le_refl _
            · exact hl.1 b hb
          have hge : key b ≤ key a := by
            rcases List.mem_cons.mp ((h.mem_iff a).mp List.mem_cons_self) with rfl | ha
            · exact Nat.le_refl _
            · exact hl'.1 a ha
          -- and then both are the first of one key
          have hhead := h (key a)
          rw [List.filter_cons_of_pos (by simp),
            List.filter_cons_of_pos (by simp [Nat.le_antisymm hge hle])] at hhead
          obtain ⟨rfl, -⟩ := List.cons.inj hhead
          rw [ih hl.2 hl'.2 h.tail]

/-- An insertion by a key leaves the elements of each key in their order. -/
theorem filter_insertSorted (k : Nat) (a : α) (l : List α) :
    (insertSorted (fun a b => decide (key a ≤ key b)) a l).filter (fun b => key b == k) =
      (a :: l).filter fun b => key b == k := by
  induction l with
  | nil => rfl
  | cons b rest ih =>
      rw [insertSorted]
      split
      · rfl
      · rename_i hlt
        rw [decide_eq_true_eq, Nat.not_le] at hlt
        by_cases hb : key b = k
        · -- an element that goes past `b` has a greater key
          have ha : ¬key a = k := by omega
          rw [List.filter_cons, ih]
          simp only [List.filter_cons, beq_iff_eq, hb, ha, if_true, if_false]
        · rw [List.filter_cons, ih]
          simp only [List.filter_cons, beq_iff_eq, hb, if_false]

/-- Sorting by a key gives a stable sort. -/
theorem isStableSort_stableSort (key : α → Nat) (l : List α) :
    IsStableSort key l (stableSort (fun a b => decide (key a ≤ key b)) l) where
  ascending := by
    refine (stableSort_sorted ?_ ?_ l).imp fun {a b} h => of_decide_eq_true h
    · intro a b
      simpa using Nat.le_total (key a) (key b)
    · intro a b c hab hbc
      simp only [decide_eq_true_eq] at hab hbc ⊢
      exact Nat.le_trans hab hbc
  stable := by
    intro k
    induction l with
    | nil => rfl
    | cons a rest ih => rw [stableSort, filter_insertSorted, List.filter_cons, List.filter_cons, ih]

/-- A list has one stable sort. -/
theorem isStableSort_iff : IsStableSort key l sorted ↔
    sorted = stableSort (fun a b => decide (key a ≤ key b)) l := by
  have hsort := isStableSort_stableSort key l
  constructor
  · intro h
    refine eq_of_sorted_of_sameByKey h.ascending hsort.ascending fun k => ?_
    rw [h.stable, hsort.stable]
  · rintro rfl
    exact hsort

end Key

end StyleCascade
