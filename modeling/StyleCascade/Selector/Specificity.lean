/-
# StyleCascade.Selector.Specificity — selector weights

The weight of a selector is a natural number that is at most `2^32 - 1`. Weights are added with that
number as ceiling, so a sum depends neither on the order nor on the grouping of its terms.
-/

namespace StyleCascade

/-- A selector weight. -/
structure Specificity where
  /-- The weight as a number. -/
  value : Nat
  /-- Weights have a ceiling. -/
  value_le : value ≤ UInt32.size - 1 := by decide
deriving DecidableEq

namespace Specificity

/-- The largest weight. -/
def ceiling : Nat := UInt32.size - 1

/-- The weight of a natural number, cut at the ceiling. -/
def ofNat (n : Nat) : Specificity :=
  ⟨min n ceiling, Nat.min_le_right _ _⟩

/-- The weight of the universal selector. -/
def zero : Specificity := ⟨0, by decide⟩

/-- The weight of one condition. -/
def one : Specificity := ⟨1, by decide⟩

instance : Inhabited Specificity := ⟨zero⟩

instance : Add Specificity := ⟨fun a b => ofNat (a.value + b.value)⟩

/-- The sum of a list of weights. -/
def sum (weights : List Specificity) : Specificity :=
  weights.foldl (· + ·) zero

/-- Weights are equal when their numbers are. -/
@[ext] theorem ext {a b : Specificity} (h : a.value = b.value) : a = b := by
  cases a
  cases b
  simp_all

/-- The number of a sum is the sum of the numbers, cut at the ceiling. -/
theorem value_add (a b : Specificity) : (a + b).value = min (a.value + b.value) ceiling := rfl

theorem add_assoc (a b c : Specificity) : a + b + c = a + (b + c) := by
  ext
  simp only [value_add]
  omega

theorem add_comm (a b : Specificity) : a + b = b + a := by
  ext
  simp only [value_add]
  omega

theorem zero_add (a : Specificity) : zero + a = a := by
  ext
  have h := a.value_le
  simp only [value_add, zero, ceiling]
  omega

theorem add_zero (a : Specificity) : a + zero = a := by
  rw [add_comm, zero_add]

end Specificity

end StyleCascade
