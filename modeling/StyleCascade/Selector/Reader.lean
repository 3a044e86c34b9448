/-
# StyleCascade.Selector.Reader — reading selectors

A selector key is a base class followed by conditions:

- `.name`, a further class;
- `[name]`, `[name=text]`, `[name*=text]`, `[name^=text]`, `[name$=text]`, a test of an attribute;
- `:first-child`, `:last-child`, `:only-child`, `:empty`, a positional flag;
- `:nth-child(expression)`, a position expression;
- `:not(selector)` and `:has(selector)`.

Reading goes in two layers. `readPiece?` takes one condition off the front of the text and leaves
the argument of a negation or a search unread; it is not recursive. `Selector.read` reads the pieces
one after the other and their arguments as selectors. Every argument is shorter than the text it was
taken from, which is why reading ends. A negation of a search, and a search for a negation, is read as
the one condition that no descendant matches.

Reading never fails. A text that cannot be read to its end gives a malformed selector with the
conditions found up to there.
-/
import StyleCascade.Selector.Basic
import StyleCascade.Selector.Bracket

namespace StyleCascade

namespace Selector

/-! ## Names and attribute tests -/

/-- A character may stand in a class or attribute name: ASCII letters and digits, `-` and `_`. -/
def isNameChar (c : Char) : Bool :=
  c.isAlphanum || c == '-' || c == '_'

/-- Splits off the base class; without one the base is the universal class. -/
def splitBase : List Char → List Char × List Char
  | '*' :: rest => (['*'], rest)
  | cs =>
    if cs.takeWhile isNameChar = [] then (['*'], cs)
    else (cs.takeWhile isNameChar, cs.dropWhile isNameChar)

/-- The text without one pair of equal quotes around it. -/
def unquote : List Char → List Char
  | [] => []
  | c :: cs => if isQuote c && cs.getLast? == some c then cs.dropLast else c :: cs

/-- Reads the test and the text after an attribute's name. -/
def readTest? : List Char → Option (AttributeTest × List Char)
  | [] => some (.present, [])
  | '=' :: text => some (.equals, unquote (Text.trim text))
  | '*' :: '=' :: text => some (.contains, unquote (Text.trim text))
  | '^' :: '=' :: text => some (.startsWith, unquote (Text.trim text))
  | '$' :: '=' :: text => some (.endsWith, unquote (Text.trim text))
  | _ => none

/-- Reads the inside of square brackets. -/
def readAttribute? (body : List Char) : Option Condition :=
  let body := Text.trim body
  let name := body.takeWhile isNameChar
  if name = [] then none
  else
    (readTest? (Text.trimStart (body.dropWhile isNameChar))).map fun (test, text) =>
      .attr (String.ofList name) test (String.ofList text)

/-! ## Pieces -/

/-- One condition as it is taken off the text, with an argument that is a selector left unread. -/
inductive Piece where
  /-- A condition without a selector in it. -/
  | plain (condition : Condition)
  /-- A negation with its argument. -/
  | negation (argument : List Char)
  /-- A search among the descendants with its argument. -/
  | search (argument : List Char)

/-- The length of the argument that is left unread. -/
def Piece.size : Piece → Nat
  | plain _ => 0
  | negation argument => argument.length
  | search argument => argument.length

/-- Splits off an argument in round brackets. -/
def splitArgument? : List Char → Option (List Char × List Char)
  | '(' :: cs => splitGroup? ')' [] none cs
  | _ => none

/-- Takes a condition that starts with a colon, after the colon. -/
def readPseudo? (cs : List Char) : Option (Piece × List Char) :=
  let rest := cs.dropWhile isNameChar
  match String.ofList (cs.takeWhile isNameChar) with
  | "first-child" => some (.plain (.flag .firstChild), rest)
  | "last-child" => some (.plain (.flag .lastChild), rest)
  | "only-child" => some (.plain (.flag .onlyChild), rest)
  | "empty" => some (.plain (.flag .empty), rest)
  | "nth-child" =>
    (splitArgument? rest).bind fun (argument, rest) =>
      (Nth.read? argument).map fun e => (.plain (.nth e), rest)
  | "not" => (splitArgument? rest).map fun (argument, rest) => (.negation (Text.trim argument), rest)
  | "has" => (splitArgument? rest).map fun (argument, rest) => (.search (Text.trim argument), rest)
  | _ => none

/-- Takes one condition off the front of a text. -/
def readPiece? : List Char → Option (Piece × List Char)
  | '.' :: cs =>
    let name := cs.takeWhile isNameChar
    if name = [] then none
    else some (.plain (.hasClass (String.ofList name)), cs.dropWhile isNameChar)
  | '[' :: cs =>
    (splitGroup? ']' [] none cs).bind fun (body, rest) =>
      (readAttribute? body).map fun c => (.plain c, rest)
  | ':' :: cs => readPseudo? cs
  | _ => none

/-- The argument of a call that is the whole text: `:name(argument)` and nothing after it. -/
def wholeCall? (name cs : List Char) : Option (List Char) :=
  match (Text.dropMark? (':' :: name) cs).bind splitArgument? with
  | some (argument, []) => some argument
  | _ => none

/-! ## Lengths -/

/-- Splitting off the base never makes a text longer. -/
theorem length_splitBase_le (cs : List Char) : (splitBase cs).2.length ≤ cs.length := by
  fun_cases splitBase cs
  · simp
  · simp
  · exact (List.dropWhile_sublist isNameChar).length_le

/-- An argument and what follows it are shorter than the text by two brackets. -/
theorem length_of_splitArgument? {cs argument rest : List Char}
    (h : splitArgument? cs = some (argument, rest)) :
    argument.length + rest.length + 2 = cs.length := by
  fun_cases splitArgument? cs
  · have := length_of_splitGroup? h
    simp only [List.length_cons]
    omega
  · simp_all [splitArgument?]

/-- What a colon condition leaves unread, in it or after it, fits into the text. -/
theorem length_of_readPseudo? {cs rest : List Char} {piece : Piece}
    (h : readPseudo? cs = some (piece, rest)) :
    piece.size ≤ cs.length ∧ rest.length ≤ cs.length := by
  have hdrop := (List.dropWhile_sublist isNameChar (l := cs)).length_le
  simp only [readPseudo?] at h
  split at h <;> simp only [Option.some.injEq, Prod.mk.injEq, Option.bind_eq_some_iff,
    Option.map_eq_some_iff, Prod.exists, reduceCtorEq] at h
  · obtain ⟨rfl, rfl⟩ := h
    exact ⟨Nat.zero_le _, hdrop⟩
  · obtain ⟨rfl, rfl⟩ := h
    exact ⟨Nat.zero_le _, hdrop⟩
  · obtain ⟨rfl, rfl⟩ := h
    exact ⟨Nat.zero_le _, hdrop⟩
  · obtain ⟨rfl, rfl⟩ := h
    exact ⟨Nat.zero_le _, hdrop⟩
  · obtain ⟨argument, rest', hsplit, _, _, rfl, rfl⟩ := h
    have := length_of_splitArgument? hsplit
    exact ⟨Nat.zero_le _, by omega⟩
  · obtain ⟨argument, rest', hsplit, rfl, rfl⟩ := h
    have := length_of_splitArgument? hsplit
    have := Text.length_trim_le argument
    exact ⟨by simp only [Piece.size]; omega, by omega⟩
  · obtain ⟨argument, rest', hsplit, rfl, rfl⟩ := h
    have := length_of_splitArgument? hsplit
    have := Text.length_trim_le argument
    exact ⟨by simp only [Piece.size]; omega, by omega⟩

/-- What a condition leaves unread, in it or after it, is shorter than the text. -/
theorem length_of_readPiece? {cs rest : List Char} {piece : Piece}
    (h : readPiece? cs = some (piece, rest)) :
    piece.size < cs.length ∧ rest.length < cs.length := by
  fun_cases readPiece? cs
  · rename_i cs name hname
    have hname : cs.takeWhile isNameChar = [] := hname
    simp [readPiece?, hname] at h
  · rename_i cs name hname
    have hdrop := (List.dropWhile_sublist isNameChar (l := cs)).length_le
    have hname : ¬cs.takeWhile isNameChar = [] := hname
    simp only [readPiece?, hname, if_false, Option.some.injEq, Prod.mk.injEq] at h
    obtain ⟨rfl, rfl⟩ := h
    exact ⟨Nat.succ_pos _, Nat.lt_succ_of_le hdrop⟩
  · rename_i cs
    simp only [readPiece?, Option.bind_eq_some_iff, Option.map_eq_some_iff, Prod.exists,
      Prod.mk.injEq] at h
    obtain ⟨body, rest', hsplit, _, _, rfl, rfl⟩ := h
    have := length_of_splitGroup? hsplit
    exact ⟨Nat.succ_pos _, by simp only [List.length_cons]; omega⟩
  · have := length_of_readPseudo? h
    exact ⟨Nat.lt_succ_of_le this.1, Nat.lt_succ_of_le this.2⟩
  · simp_all [readPiece?]

/-- The argument of a whole call is shorter than the text. -/
theorem length_of_wholeCall? {name cs argument : List Char}
    (h : wholeCall? name cs = some argument) : argument.length < cs.length := by
  simp only [wholeCall?] at h
  split at h
  · rename_i found hcall
    obtain ⟨rfl⟩ := Option.some.inj h
    obtain ⟨after, hmark, hsplit⟩ := Option.bind_eq_some_iff.mp hcall
    have := length_of_splitArgument? hsplit
    have := congrArg List.length (Text.dropMark?_eq_some_iff.mp hmark)
    simp only [List.length_append, List.length_cons, List.length_nil] at *
    omega
  · simp at h

/-! ## Selectors -/

/-- A condition on a selector, unless the selector is malformed. -/
def conditionOn? (wrap : Selector → Condition) (inner : Selector) : Option Condition :=
  if inner.malformed then none else some (wrap inner)

mutual

/-- Reads a selector. -/
def read (cs : List Char) : Selector :=
  let found := readConditions (splitBase cs).2
  { source := String.ofList cs
    base := String.ofList (splitBase cs).1
    conditions := Condition.sortByRank found.1
    malformed := cs.isEmpty || !found.2 }
termination_by 3 * cs.length + 1
decreasing_by
  have := length_splitBase_le cs
  omega

/-- Reads conditions up to the first that cannot be read, in the order in which they stand, and
tells whether the text was read to its end. -/
def readConditions (cs : List Char) : List Condition × Bool :=
  match _h : readPiece? cs with
  | none => ([], cs.isEmpty)
  | some (piece, rest) =>
    match readCondition? piece with
    | none => ([], false)
    | some condition =>
      let more := readConditions rest
      (condition :: more.1, more.2)
termination_by 3 * cs.length
decreasing_by
  · have := length_of_readPiece? _h
    omega
  · have := length_of_readPiece? _h
    omega

/-- Reads the argument of a piece. -/
def readCondition? : Piece → Option Condition
  | .plain condition => some condition
  | .negation argument =>
    match _h : wholeCall? ['h', 'a', 's'] argument with
    | some inner => conditionOn? .hasNone (read (Text.trim inner))
    | none => conditionOn? .not (read argument)
  | .search argument =>
    match _h : wholeCall? ['n', 'o', 't'] argument with
    | some inner => conditionOn? .hasNone (read (Text.trim inner))
    | none => conditionOn? .has (read argument)
termination_by piece => 3 * piece.size + 2
decreasing_by
  · have := length_of_wholeCall? _h
    have := Text.length_trim_le inner
    simp only [Piece.size]
    omega
  · simp only [Piece.size]
    omega
  · have := length_of_wholeCall? _h
    have := Text.length_trim_le inner
    simp only [Piece.size]
    omega
  · simp only [Piece.size]
    omega

end

/-- The selector of a key. -/
def ofString (key : String) : Selector :=
  read key.toList

end Selector

end StyleCascade
