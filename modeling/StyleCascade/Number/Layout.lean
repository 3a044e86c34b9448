/-
# StyleCascade.Number.Layout — writing a number down

`Number.render` writes a number in a given layout. The digits come from `Number.shortest`; a layout
holds the choices that remain: which powers of ten are written out in full, whether a whole number
keeps its point, where ties go, and how the words that are no finite number read.
-/
import StyleCascade.Number.Shortest

namespace StyleCascade.Number

/-- The choices of a number format that the digits leave open. -/
structure Layout where
  /-- Where a tie between two shortest decimals goes. -/
  tie : Tie
  /-- Whether a number whose leading digit counts `10^power` is written in full. -/
  inFull : Int → Bool
  /-- A whole number written in full ends in a point and a zero. -/
  keepsPoint : Bool
  /-- The word that is no number. -/
  nan : String
  /-- Positive infinity. -/
  infinity : String
  /-- Negative infinity. -/
  negativeInfinity : String

/-- Digits in full, with zeros filled in between them and the point. -/
def renderInFull (layout : Layout) (digits : List Char) (exponent : Int) : List Char :=
  if 0 ≤ exponent then
    digits ++ List.replicate exponent.toNat '0' ++ (if layout.keepsPoint then ['.', '0'] else [])
  else
    let places := (-exponent).toNat
    if places < digits.length then
      digits.take (digits.length - places) ++ '.' :: digits.drop (digits.length - places)
    else
      '0' :: '.' :: List.replicate (places - digits.length) '0' ++ digits

/-- Digits with a point after the first, and the power of ten with its sign. -/
def renderScientific (digits : List Char) (power : Int) : List Char :=
  let mantissa := match digits with
    | first :: second :: rest => first :: '.' :: second :: rest
    | short => short
  mantissa ++ 'e' :: (if power < 0 then '-' else '+') :: Nat.toDigits 10 power.natAbs

/-- The magnitude of a finite number in a layout. -/
def renderMagnitude (layout : Layout) (x : Number) : List Char :=
  if x.isZero then renderInFull layout ['0'] 0
  else
    let decimal := x.shortest layout.tie
    let digits := Nat.toDigits 10 decimal.digits
    let power := decimal.exponent + digits.length - 1
    if layout.inFull power then renderInFull layout digits decimal.exponent
    else renderScientific digits power

/-- The text of a number in a layout. -/
def render (layout : Layout) (x : Number) : String :=
  if x.isNaN then layout.nan
  else if x.isFinite then
    let magnitude := renderMagnitude layout x
    String.ofList (if x.isNegative then '-' :: magnitude else magnitude)
  else if x.isNegative then layout.negativeInfinity
  else layout.infinity

end StyleCascade.Number
