/-
# StyleCascade.Text.Space — white space

The white space of style texts is the Unicode property `White_Space`: twenty-five code points, of
which the ASCII blanks are six. Trimming and the removal of blanks are defined on lists of
characters, where the readers of this library work.
-/

namespace StyleCascade.Text

/-- The code points with the Unicode property `White_Space`, as closed ranges in increasing order. -/
def spaceRanges : List (Nat × Nat) :=
  [(0x09, 0x0D), (0x20, 0x20), (0x85, 0x85), (0xA0, 0xA0), (0x1680, 0x1680), (0x2000, 0x200A),
    (0x2028, 0x2029), (0x202F, 0x202F), (0x205F, 0x205F), (0x3000, 0x3000)]

/-- A character is white space. -/
def isSpace (c : Char) : Bool :=
  spaceRanges.any fun range => decide (range.1 ≤ c.toNat ∧ c.toNat ≤ range.2)

/-- The text from its first character that is no white space. -/
def trimStart (cs : List Char) : List Char :=
  cs.dropWhile isSpace

/-- The text up to its last character that is no white space. -/
def trimEnd (cs : List Char) : List Char :=
  (cs.reverse.dropWhile isSpace).reverse

/-- The text without white space at either end. -/
def trim (cs : List Char) : List Char :=
  trimEnd (trimStart cs)

/-- The text without any white space. -/
def squeeze (cs : List Char) : List Char :=
  cs.filter fun c => !isSpace c

/-- Trimming at the start never makes a text longer. -/
theorem length_trimStart_le (cs : List Char) : (trimStart cs).length ≤ cs.length :=
  (List.dropWhile_sublist isSpace).length_le

/-- Trimming at the end never makes a text longer. -/
theorem length_trimEnd_le (cs : List Char) : (trimEnd cs).length ≤ cs.length := by
  have h := (List.dropWhile_sublist isSpace (l := cs.reverse)).length_le
  simpa [trimEnd] using h

/-- Trimming never makes a text longer. -/
theorem length_trim_le (cs : List Char) : (trim cs).length ≤ cs.length :=
  Nat.le_trans (length_trimEnd_le _) (length_trimStart_le _)

end StyleCascade.Text
