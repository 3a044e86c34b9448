/-
# StyleCascade.Value — property values

A property value is a piece of text or a bare number. Both have a display text, which is what
attribute conditions compare and what a variable contributes to the text around it.
-/
import StyleCascade.Number.Layout

namespace StyleCascade

/-- A primitive property value. -/
inductive Value where
  /-- Free-form text. -/
  | text (content : String)
  /-- A bare number. -/
  | number (content : Number)
deriving DecidableEq, Inhabited, Repr

/-- Numbers display their shortest digits in full, with no exponent at any magnitude and no point
after a whole number; a tie goes to the larger neighbour. -/
def Number.displayLayout : Number.Layout where
  tie := .up
  inFull := fun _ => true
  keepsPoint := false
  nan := "NaN"
  infinity := "inf"
  negativeInfinity := "-inf"

namespace Value

/-- The display text: text as it stands, a number in the display layout. -/
def display : Value → String
  | text content => content
  | number content => content.render Number.displayLayout

/-- The content of a text value. -/
def asText? : Value → Option String
  | text content => some content
  | number _ => none

/-- The value is a number. -/
def isNumber : Value → Bool
  | text _ => false
  | number _ => true

/-- Equality of values, numbers being compared as numbers: a NaN is unequal to itself, and the two
zeros are equal. -/
def same : Value → Value → Bool
  | text a, text b => a == b
  | number a, number b => a.same b
  | _, _ => false

end Value

end StyleCascade
