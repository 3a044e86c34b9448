/-
# StyleCascade.Number.Shortest — the fewest decimal digits that read back

A binary number `m · 2^q` owns the interval of reals that round to it. Its shortest decimal is the
point of the coarsest decimal grid that falls into that interval; of two such points on one grid the
nearer is taken, and an exact tie goes as the caller says.

Everything is exact arithmetic on naturals. The value and the ends of its interval are brought over
the unit `2^(q-2)`, in which the value is `4m` and the ends are whole. On the grid with `n` digits
only the two neighbours of the value need a look: if any point of the grid lies in the interval, one
of them does.
-/
import StyleCascade.Number.Binary

namespace StyleCascade.Number

/-- Where an exact tie between two neighbouring decimals goes. -/
inductive Tie where
  /-- To the neighbour with the even last digit. -/
  | toEven
  /-- To the larger neighbour. -/
  | up
deriving DecidableEq, Repr

/-- A positive decimal, the digits of `digits` followed by a power of ten: `digits · 10^exponent`. -/
structure Decimal where
  /-- The significant digits, read as one natural. -/
  digits : Nat
  /-- The power of ten of the last digit. -/
  exponent : Int
deriving DecidableEq, Repr

/-- A fraction of naturals, with the half-open or closed interval of those that round to it. All
three numerators are over the one denominator. -/
structure Rounding where
  /-- Numerator of the value. -/
  value : Nat
  /-- Numerator of the lower end of the interval. -/
  low : Nat
  /-- Numerator of the upper end of the interval. -/
  high : Nat
  /-- The common denominator. -/
  denominator : Nat
  /-- The ends belong to the interval. -/
  closed : Bool

/-- The value of a finite number and the interval that rounds to it. -/
def rounding (x : Number) : Rounding :=
  let power := x.exponent - 2
  let scale := Nat.pow 2 power.toNat
  let below := if x.isBinadeBottom then 1 else 2
  { value := 4 * x.mantissa * scale
    low := (4 * x.mantissa - below) * scale
    high := (4 * x.mantissa + 2) * scale
    denominator := Nat.pow 2 (-power).toNat
    closed := x.mantissa % 2 == 0 }

/-- The number of decimal digits of a natural, none for zero. -/
def digitCount (n : Nat) : Nat :=
  if h : n = 0 then 0 else digitCount (n / 10) + 1
termination_by n
decreasing_by omega

namespace Rounding

/-- The power of ten just above the leading digit: the value is below `10^magnitude` and not below a
tenth of it. -/
def magnitude (r : Rounding) : Int :=
  if r.denominator ≤ r.value then
    digitCount (r.value / r.denominator)
  else
    1 - (digitCount ((r.denominator + r.value - 1) / r.value - 1) : Int)

/-- The same fraction and interval in units of `10^power`. -/
def inUnits (r : Rounding) (power : Int) : Rounding :=
  let scale := Nat.pow 10 (-power).toNat
  { value := r.value * scale
    low := r.low * scale
    high := r.high * scale
    denominator := r.denominator * Nat.pow 10 power.toNat
    closed := r.closed }

/-- A whole number lies in the interval. -/
def holds (r : Rounding) (n : Nat) : Bool :=
  let point := n * r.denominator
  if r.closed then decide (r.low ≤ point ∧ point ≤ r.high)
  else decide (r.low < point ∧ point < r.high)

/-- Of the value's two whole neighbours, the nearer one that lies in the interval. -/
def nearestWhole? (tie : Tie) (r : Rounding) : Option Nat :=
  let floor := r.value / r.denominator
  let twice := 2 * (r.value % r.denominator)
  let prefersFloor :=
    decide (twice < r.denominator) ||
      (decide (twice = r.denominator) && tie == .toEven && floor % 2 == 0)
  match r.holds floor, r.holds (floor + 1) with
  | true, true => some (if prefersFloor then floor else floor + 1)
  | true, false => some floor
  | false, true => some (floor + 1)
  | false, false => none

/-- The hit on the grid of `count` significant digits, if the grid has one. -/
def onGrid? (tie : Tie) (r : Rounding) (count : Nat) : Option Decimal :=
  let power := r.magnitude - count
  ((r.inUnits power).nearestWhole? tie).map fun n => ⟨n, power⟩

/-- The hit on the coarsest grid from `count` digits on, trying `tries` grids. -/
def coarsest? (tie : Tie) (r : Rounding) (count : Nat) : Nat → Option Decimal
  | 0 => none
  | tries + 1 => (r.onGrid? tie count).or (coarsest? tie r (count + 1) tries)

end Rounding

/-- Decimal digits of a natural without the zeros at its end, and how many of those there were. -/
def Decimal.trimZeros (d : Decimal) : Decimal :=
  if h : d.digits ≠ 0 ∧ d.digits % 10 = 0 then
    trimZeros ⟨d.digits / 10, d.exponent + 1⟩
  else d
termination_by d.digits
decreasing_by omega

/-- The shortest decimal that reads back as the magnitude of a finite number other than zero. A grid
of seventeen digits always has a hit. -/
def shortest (tie : Tie) (x : Number) : Decimal :=
  ((x.rounding.coarsest? tie 1 17).getD ⟨0, 0⟩).trimZeros

end StyleCascade.Number
