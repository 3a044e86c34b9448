/-
# StyleCascade.Proofs.Node.Descent — what a search finds

A search goes from level to level until it comes to a node that satisfies the test or to a level without
nodes. The nodes of the levels are the nodes below the start, each as many steps down as its level
(`mem_levelsDown_iff`), so the search finds one exactly when there is one (`anyBelow_iff`). It stops within as many
levels as there are nodes (`exists_stopsAt`), and what it has seen by then settles the answer.
-/
import StyleCascade.Node.Descendants

namespace StyleCascade.Node

/-- A node is so many steps below another. -/
inductive Descends : Node → Nat → Node → Prop
  | self (n : Node) : Descends n 0 n
  | child {n c d : Node} {k : Nat} : c ∈ n.children → Descends c k d → Descends n (k + 1) d

/-- The nodes so many levels down from a level. -/
def levelsDown : Nat → List Node → List Node
  | 0, level => level
  | k + 1, level => levelsDown k (nextLevel level)

variable {n d : Node} {k : Nat} {level : List Node} {test : Node → Bool}

theorem mem_nextLevel {d : Node} : d ∈ nextLevel level ↔ ∃ n ∈ level, d ∈ n.children :=
  List.mem_flatMap

/-- The levels hold what is below the nodes of the first one. -/
theorem mem_levelsDown_iff : d ∈ levelsDown k level ↔ ∃ n ∈ level, Descends n k d := by
  induction k generalizing level with
  | zero =>
      constructor
      · intro hd
        exact ⟨d, hd, .self d⟩
      · rintro ⟨n, hn, hd⟩
        cases hd
        exact hn
  | succ k ih =>
      show d ∈ levelsDown k (nextLevel level) ↔ _
      rw [ih]
      constructor
      · rintro ⟨c, hc, hd⟩
        obtain ⟨n, hn, hchild⟩ := mem_nextLevel.mp hc
        exact ⟨n, hn, .child hchild hd⟩
      · rintro ⟨n, hn, hd⟩
        cases hd with
        | child hchild hd => exact ⟨_, mem_nextLevel.mpr ⟨n, hn, hchild⟩, hd⟩

theorem mem_levelsDown_children_iff : d ∈ levelsDown k n.children ↔ Descends n (k + 1) d := by
  rw [mem_levelsDown_iff]
  constructor
  · rintro ⟨c, hc, hd⟩
    exact .child hc hd
  · intro h
    cases h with
    | child hc hd => exact ⟨_, hc, hd⟩

theorem subtreeSize_le_forestSize (h : n ∈ level) : n.subtreeSize ≤ forestSize level := by
  induction level with
  | nil => exact absurd h List.not_mem_nil
  | cons m level ih =>
      rw [forestSize]
      rcases List.mem_cons.mp h with rfl | h
      · omega
      · have := ih h
        omega

/-- What is further down is smaller. -/
theorem Descends.subtreeSize_add_le (h : Descends n k d) : d.subtreeSize + k ≤ n.subtreeSize := by
  induction h with
  | self n => exact Nat.le_refl _
  | @child n c d k hc _ ih =>
      have hchild := subtreeSize_le_forestSize hc
      have hsize := subtreeSize_eq n
      omega

/-- No node is below itself. -/
theorem Descends.ne (h : Descends n (k + 1) d) : d ≠ n := by
  rintro rfl
  have := h.subtreeSize_add_le
  omega

/-! ## The search -/

theorem anyFromLevel_nil (test : Node → Bool) : anyFromLevel test [] = false := by
  rw [anyFromLevel, if_pos rfl]

theorem anyFromLevel_of_ne_nil (test : Node → Bool) (h : level ≠ []) :
    anyFromLevel test level = (level.any test || anyFromLevel test (nextLevel level)) := by
  rw [anyFromLevel, if_neg h]

theorem levelsDown_nil (k : Nat) : levelsDown k [] = [] := by
  induction k with
  | zero => rfl
  | succ k ih => exact ih

/-- The search finds a node on one of the levels. -/
theorem anyFromLevel_iff :
    anyFromLevel test level = true ↔ ∃ k, (levelsDown k level).any test = true := by
  induction level using anyFromLevel.induct with
  | case1 => simp [anyFromLevel_nil, levelsDown_nil]
  | case2 level hlevel ih =>
      rw [anyFromLevel_of_ne_nil test hlevel, Bool.or_eq_true, ih]
      constructor
      · rintro (hany | ⟨k, hany⟩)
        · exact ⟨0, hany⟩
        · exact ⟨k + 1, hany⟩
      · rintro ⟨k, hany⟩
        cases k with
        | zero => exact .inl hany
        | succ k => exact .inr ⟨k, hany⟩

/-- The search finds a node exactly when there is one below the start, at whatever depth. -/
theorem anyBelow_iff :
    n.anyBelow test = true ↔ ∃ k d, Descends n (k + 1) d ∧ test d = true := by
  unfold anyBelow
  rw [anyFromLevel_iff]
  simp only [List.any_eq_true, mem_levelsDown_children_iff]

/-- A search has come to a level when none before it was empty and the test failed on all of them. It stops there
if the level is empty, or else with a node that satisfies the test. -/
structure StopsAt (test : Node → Bool) (level : List Node) (k : Nat) : Prop where
  goesOn : ∀ j < k, levelsDown j level ≠ [] ∧ (levelsDown j level).any test = false
  stops : levelsDown k level = [] ∨ (levelsDown k level).any test = true

theorem stopsAt_zero (h : level = [] ∨ level.any test = true) : StopsAt test level 0 where
  goesOn j hj := absurd hj (Nat.not_lt_zero j)
  stops := h

theorem StopsAt.succ (hlevel : level ≠ []) (hany : level.any test = false)
    (h : StopsAt test (nextLevel level) k) : StopsAt test level (k + 1) where
  goesOn j hj := by
    cases j with
    | zero => exact ⟨hlevel, hany⟩
    | succ j => exact h.goesOn j (Nat.lt_of_succ_lt_succ hj)
  stops := h.stops

/-- A search stops, and the level where it does gives the answer. Each level it passes has a node of its own, so
there are no more of them than nodes. -/
theorem exists_stopsAt (test : Node → Bool) (level : List Node) :
    ∃ k ≤ forestSize level, StopsAt test level k ∧
      anyFromLevel test level = (levelsDown k level).any test := by
  induction level using anyFromLevel.induct with
  | case1 => exact ⟨0, Nat.zero_le _, stopsAt_zero (.inl rfl), anyFromLevel_nil test⟩
  | case2 level hlevel ih =>
      rw [anyFromLevel_of_ne_nil test hlevel]
      cases hany : level.any test with
      | true => exact ⟨0, Nat.zero_le _, stopsAt_zero (.inr hany), hany.symm⟩
      | false =>
          obtain ⟨k, hk, hstops, hanswer⟩ := ih
          have hsize := forestSize_nextLevel level
          have hpos := List.length_pos_iff.mpr hlevel
          exact ⟨k + 1, by omega, hstops.succ hlevel hany, hanswer⟩

end StyleCascade.Node
