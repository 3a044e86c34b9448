/-
# StyleCascade.Text.Quoted — text between double quotes

The quoted form of a text escapes the quote, the backslash and the control characters below the
space, and writes every other character as itself. Five control characters have an escape of one
letter; the rest are written as four hexadecimal digits.
-/

namespace StyleCascade.Text

/-- The two lower hexadecimal digits of a code point below 256. -/
def hexPair (n : Nat) : List Char :=
  [Nat.digitChar (n / 16 % 16), Nat.digitChar (n % 16)]

/-- A character as it stands between quotes. -/
def quoteChar (c : Char) : List Char :=
  match c.toNat with
  | 0x22 => ['\\', '"']
  | 0x5C => ['\\', '\\']
  | 0x08 => ['\\', 'b']
  | 0x09 => ['\\', 't']
  | 0x0A => ['\\', 'n']
  | 0x0C => ['\\', 'f']
  | 0x0D => ['\\', 'r']
  | n => if n < 0x20 then '\\' :: 'u' :: '0' :: '0' :: hexPair n else [c]

/-- A text between double quotes. -/
def quote (cs : List Char) : List Char :=
  '"' :: cs.flatMap quoteChar ++ ['"']

end StyleCascade.Text
