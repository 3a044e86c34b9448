/-
# StyleCascade.Text.Bytes — texts as bytes

A text is stored as the UTF-8 bytes of its characters, and a place in it is given by the number of bytes before
it. A byte is looked at without regard to characters (`byteAt?`); the text between two places is only there if
neither of them is inside of a character (`slice?`).
-/

namespace StyleCascade.Text

/-- The bytes of a text. -/
def bytes (cs : List Char) : List UInt8 :=
  cs.flatMap String.utf8EncodeChar

/-- The number of bytes of a text. -/
def byteSize (cs : List Char) : Nat :=
  (bytes cs).length

/-- The place at which the rest of a text begins. -/
def offset (source rest : List Char) : Nat :=
  byteSize source - byteSize rest

/-- The byte at a place, as the character with its number. -/
def byteAt? (source : List Char) (index : Nat) : Option Char :=
  (bytes source)[index]?.map Char.ofUInt8

/-- A text cut behind a number of bytes, unless that is inside of a character or behind the end. -/
def splitBytes? : Nat → List Char → Option (List Char × List Char)
  | 0, cs => some ([], cs)
  | _ + 1, [] => none
  | n + 1, c :: cs =>
    if c.utf8Size ≤ n + 1 then
      (splitBytes? (n + 1 - c.utf8Size) cs).map fun (front, rest) => (c :: front, rest)
    else none
termination_by structural _ cs => cs

/-- The text between two places. -/
def slice? (source : List Char) (start stop : Nat) : Option (List Char) :=
  if start ≤ stop then
    (splitBytes? start source).bind fun front => (splitBytes? (stop - start) front.2).map fun text => text.1
  else none

end StyleCascade.Text
