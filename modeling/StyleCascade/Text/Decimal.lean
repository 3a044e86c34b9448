/-
# StyleCascade.Text.Decimal — runs of decimal digits

A run of digits is read as the natural number it denotes; leading zeros are allowed and no sign or
blank is. `readWord?` accepts the numbers that fit a word of sixty-four bits.
-/

namespace StyleCascade.Text

/-- The number denoted by digits that follow on from `start`. -/
def digitsValue (start : Nat) (cs : List Char) : Nat :=
  cs.foldl (fun n c => 10 * n + (c.toNat - '0'.toNat)) start

/-- The number denoted by a non-empty run of decimal digits. -/
def readNat? (cs : List Char) : Option Nat :=
  if cs ≠ [] ∧ cs.all Char.isDigit then some (digitsValue 0 cs) else none

/-- The number denoted by a non-empty run of decimal digits, if it is below `2^64`. -/
def readWord? (cs : List Char) : Option UInt64 :=
  (readNat? cs).bind fun n =>
    if h : n < UInt64.size then some (UInt64.ofNatLT n h) else none

/-- A run of digits is read exactly when it is non-empty and digits only. -/
theorem readNat?_eq_some_iff {cs : List Char} {n : Nat} :
    readNat? cs = some n ↔ cs ≠ [] ∧ cs.all Char.isDigit ∧ digitsValue 0 cs = n := by
  simp only [readNat?]
  split
  · rename_i h
    simp [h.1, h.2]
  · rename_i h
    constructor
    · intro hn
      simp at hn
    · intro hn
      exact absurd ⟨hn.1, hn.2.1⟩ h

/-- A word is read exactly when its number is, and then it is that number. -/
theorem readWord?_eq_some_iff {cs : List Char} {w : UInt64} :
    readWord? cs = some w ↔ readNat? cs = some w.toNat := by
  simp only [readWord?, Option.bind_eq_some_iff]
  constructor
  · rintro ⟨n, hn, hw⟩
    split at hw
    · rw [hn, ← Option.some.inj hw]
      simp
    · simp at hw
  · intro h
    exact ⟨_, h, by simp [w.toNat_lt]⟩

end StyleCascade.Text
