/-
# StyleCascade.Selector.Nth — position expressions

A position expression is the argument of the `nth-child` condition: one position, every multiple of a
step, or a step with an offset to either side. Blanks are ignored wherever they stand, and every
number must fit a word of sixty-four bits. A step of zero admits no position.
-/
import StyleCascade.Text.Decimal
import StyleCascade.Text.Search
import StyleCascade.Text.Space

namespace StyleCascade

/-- A position expression. -/
inductive Nth where
  /-- `N`: the one position. -/
  | exact (position : UInt64)
  /-- `kn`: the multiples of a step. -/
  | every (step : UInt64)
  /-- `kn+m` if `plus`, and `kn-m` if not. -/
  | shifted (step offset : UInt64) (plus : Bool)
deriving DecidableEq, Repr

namespace Nth

/-- Reads the coefficient before the `n`; none stands for one. -/
def readStep? (coefficient : List Char) : Option UInt64 :=
  if coefficient = [] then some 1 else Text.readWord? coefficient

/-- Reads what follows the `n` of an expression with a given step. -/
def readTail? (step : UInt64) : List Char → Option Nth
  | [] => some (every step)
  | '+' :: offset => (Text.readWord? offset).map fun o => shifted step o true
  | '-' :: offset => (Text.readWord? offset).map fun o => shifted step o false
  | _ => none

/-- Reads an expression with an `n`. -/
def readStepped? (cs : List Char) : Option Nth :=
  match Text.cutAt? ['n'] cs with
  | none => none
  | some (coefficient, tail) => (readStep? coefficient).bind fun step => readTail? step tail

/-- Reads an expression without blanks. -/
def readCompact? (cs : List Char) : Option Nth :=
  if cs = ['o', 'd', 'd'] then some (shifted 2 1 true)
  else if cs = ['e', 'v', 'e', 'n'] then some (every 2)
  else
    match Text.readWord? cs with
    | some position => some (exact position)
    | none => readStepped? cs

/-- Reads an expression, ignoring blanks. -/
def read? (cs : List Char) : Option Nth :=
  readCompact? (Text.squeeze cs)

/-- The expression of a text, if it is one. -/
def ofString? (s : String) : Option Nth :=
  read? s.toList

/-- A position satisfies the expression. -/
def admits : Nth → Nat → Bool
  | exact position, index => index == position.toNat
  | every step, index => step != 0 && index % step.toNat == 0
  | shifted step offset true, index => step != 0 && index % step.toNat == offset.toNat
  | shifted step offset false, index => step != 0 && index % step.toNat + offset.toNat == 0

end Nth

end StyleCascade
