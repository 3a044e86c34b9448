/-
# StyleCascade.Number.Binary — numbers as binary64 words

A style number is a 64-bit floating-point word. The word itself is kept, so two numbers are equal as
data exactly when their bit patterns are: `0` and `-0` differ, and so do two NaNs with different
payloads. Numeric equality, which identifies the zeros and no NaN, is the separate test `same`.

A finite word is read as `± m · 2^q` with a natural mantissa `m`, which is all that writing a number
down in decimal needs.
-/

namespace StyleCascade

/-- A binary64 number, given by its word. -/
structure Number where
  /-- Sign, biased exponent and fraction, from the top bit down. -/
  bits : UInt64
deriving DecidableEq, Inhabited, Repr

namespace Number

/-- The sign bit is set. -/
def isNegative (x : Number) : Bool :=
  decide (Nat.pow 2 63 ≤ x.bits.toNat)

/-- The eleven-bit biased exponent. -/
def biasedExponent (x : Number) : Nat :=
  x.bits.toNat / Nat.pow 2 52 % Nat.pow 2 11

/-- The fifty-two-bit fraction. -/
def fraction (x : Number) : Nat :=
  x.bits.toNat % Nat.pow 2 52

/-- The word denotes a real number: its exponent is not the all-ones one. -/
def isFinite (x : Number) : Bool :=
  decide (x.biasedExponent ≠ 2047)

/-- The word denotes no number at all. -/
def isNaN (x : Number) : Bool :=
  !x.isFinite && decide (x.fraction ≠ 0)

/-- The word denotes one of the two zeros. -/
def isZero (x : Number) : Bool :=
  decide (x.biasedExponent = 0 ∧ x.fraction = 0)

/-- The mantissa `m` of a finite number `± m · 2^q`: an implicit leading bit stands before the
fraction unless the biased exponent is zero. -/
def mantissa (x : Number) : Nat :=
  if x.biasedExponent = 0 then x.fraction else Nat.pow 2 52 + x.fraction

/-- The exponent `q` of a finite number `± m · 2^q`. -/
def exponent (x : Number) : Int :=
  if x.biasedExponent = 0 then -1074 else (x.biasedExponent : Int) - 1075

/-- The number one step below in magnitude is only half as far away as the one above: the mantissa
is the least of its binade, and there is a binade below. -/
def isBinadeBottom (x : Number) : Bool :=
  decide (x.fraction = 0 ∧ 1 < x.biasedExponent)

/-- Numeric equality: no NaN equals anything, and the two zeros are equal. -/
def same (x y : Number) : Bool :=
  !x.isNaN && !y.isNaN && (decide (x = y) || (x.isZero && y.isZero))

/-- Numeric equality holds of a number and itself exactly when it is not a NaN. -/
theorem same_self (x : Number) : x.same x = !x.isNaN := by
  simp [same]

/-- Numeric equality does not depend on the order of its arguments. -/
theorem same_comm (x y : Number) : x.same y = y.same x := by
  simp only [same, eq_comm (a := x), Bool.and_comm (x := x.isZero),
    Bool.and_comm (x := !x.isNaN)]

end Number

end StyleCascade
