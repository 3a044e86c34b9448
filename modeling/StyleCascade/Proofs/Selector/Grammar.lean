/-
# StyleCascade.Proofs.Selector.Grammar — the grammar of selectors

The texts of selectors, given without a reader: `Derives` relates a text to a tree of what it says. A
selector is an optional base and then fragments. A fragment is a condition without a selector in it
(`IsPlain`), or a negation or a search of a selector, around which white space does not count.
`Tree.toSelector` is the selector that a tree stands for.
-/
import StyleCascade.Proofs.Selector.Group
import StyleCascade.Selector.Reader

namespace StyleCascade

/-! ## Names, words and signs -/

/-- The word for a positional flag. -/
def Flag.word : Flag → String
  | .firstChild => "first-child"
  | .lastChild => "last-child"
  | .onlyChild => "only-child"
  | .empty => "empty"

/-- The sign between an attribute's name and the text it is compared with. -/
def AttributeTest.sign : AttributeTest → List Char
  | .present => []
  | .equals => ['=']
  | .contains => ['*', '=']
  | .startsWith => ['^', '=']
  | .endsWith => ['$', '=']

namespace Selector

/-- A run of name characters that is not empty. -/
def IsName (name : List Char) : Prop :=
  name ≠ [] ∧ ∀ c ∈ name, isNameChar c = true

/-- A name that stands before the text ends there. -/
def EndsName (rest : List Char) : Prop :=
  ∀ c ∈ rest.head?, isNameChar c = false

/-- A text without one pair of equal quotes around it. -/
inductive Unquoted : List Char → List Char → Prop
  | quoted {q : Char} {text : List Char} : isQuote q = true → Unquoted (q :: text ++ [q]) text
  | bare {text : List Char} :
      (∀ q inner, isQuote q = true → text ≠ q :: inner ++ [q]) → Unquoted text text

/-! ## The grammar -/

/-- The inside of square brackets: a name, or a name, a sign and the text it is compared with. White
space at the ends, before the sign and around the text does not count. -/
inductive IsAttribute : List Char → Condition → Prop
  | present {body name : List Char} :
      IsName name → Text.trim body = name → IsAttribute body (.attr (String.ofList name) .present "")
  | compared {body name space value text : List Char} {test : AttributeTest} :
      IsName name → (∀ c ∈ space, Text.isSpace c = true) → test ≠ .present →
      Text.trim body = name ++ (space ++ (test.sign ++ value)) → Unquoted (Text.trim value) text →
      IsAttribute body (.attr (String.ofList name) test (String.ofList text))

/-- A colon, a word and an argument in round brackets. -/
def call (word : String) (argument : List Char) : List Char :=
  ':' :: (word.toList ++ '(' :: (argument ++ [')']))

/-- The text of a condition without a selector in it. -/
inductive IsPlain : List Char → Condition → Prop
  | hasClass {name : List Char} : IsName name → IsPlain ('.' :: name) (.hasClass (String.ofList name))
  | bracket {body : List Char} {c : Condition} :
      Inside body → IsAttribute body c → IsPlain ('[' :: (body ++ [']'])) c
  | flag (flag : Flag) : IsPlain (':' :: flag.word.toList) (.flag flag)
  | nth {argument : List Char} {e : Nth} :
      Inside argument → Nth.read? argument = some e →
      IsPlain (call "nth-child" argument) (.nth e)

/-- A base, if there is one, before the rest of a selector: a star, or a name as long as it can be. -/
def IsBase (rest : List Char) : Option (List Char) → Prop
  | none => True
  | some base => base = ['*'] ∨ IsName base ∧ EndsName rest

mutual

/-- What the text of a selector says. -/
structure Tree where
  /-- The text. -/
  source : List Char
  /-- The base, if there is one. -/
  base : Option (List Char)
  /-- The fragments in the order in which they stand. -/
  fragments : List Fragment

/-- What a fragment of a selector says. -/
inductive Fragment where
  /-- A condition without a selector in it. -/
  | plain (condition : Condition)
  /-- `:not(…)` or `:has(…)`. -/
  | nested (nesting : Nesting) (inner : Tree)

end

mutual

/-- A text is a selector that says what a tree holds. -/
inductive Derives : List Char → Tree → Prop
  | selector {cs rest : List Char} {base : Option (List Char)} {fragments : List Fragment} :
      cs ≠ [] → IsBase rest base → cs = base.getD [] ++ rest → DerivesAll rest fragments →
      Derives cs ⟨cs, base, fragments⟩

/-- A text is a sequence of fragments. -/
inductive DerivesAll : List Char → List Fragment → Prop
  | nil : DerivesAll [] []
  | plain {text rest : List Char} {c : Condition} {more : List Fragment} :
      IsPlain text c → DerivesAll rest more → DerivesAll (text ++ rest) (.plain c :: more)
  | nested {argument rest : List Char} (nesting : Nesting) {inner : Tree} {more : List Fragment} :
      Inside argument → Derives (Text.trim argument) inner → DerivesAll rest more →
      DerivesAll (call nesting.word argument ++ rest) (.nested nesting inner :: more)

end

/-! ## What a tree stands for -/

mutual

/-- The selector a tree stands for. -/
def Tree.toSelector : Tree → Selector
  | ⟨source, base, fragments⟩ =>
    { source := String.ofList source
      base := String.ofList (base.getD ['*'])
      conditions := Condition.sortByRank (Fragment.conditions fragments)
      malformed := false }
termination_by structural t => t

/-- The condition a fragment stands for. A negation of nothing but a search, and a search for nothing
but a negation, is one condition: no descendant matches. -/
def Fragment.condition : Fragment → Condition
  | .plain c => c
  | .nested .not ⟨_, none, [.nested .has inner]⟩ => .hasNone inner.toSelector
  | .nested .has ⟨_, none, [.nested .not inner]⟩ => .hasNone inner.toSelector
  | .nested nesting inner => nesting.wrap inner.toSelector
termination_by structural f => f

/-- The conditions fragments stand for, in their order. -/
def Fragment.conditions : List Fragment → List Condition
  | [] => []
  | f :: more => f.condition :: Fragment.conditions more
termination_by structural fs => fs

end

/-- The two nestings, one directly in the other, are one condition. -/
theorem Fragment.condition_fused (nesting : Nesting) (source : List Char) (inner : Tree) :
    (Fragment.nested nesting ⟨source, none, [.nested nesting.other inner]⟩).condition =
      .hasNone inner.toSelector := by
  cases nesting with
  | not => rfl
  | has => rfl

/-- Around any other tree a nesting is a condition of its own. -/
theorem Fragment.condition_nested {nesting : Nesting} {t : Tree}
    (h : ∀ source inner, t ≠ ⟨source, none, [.nested nesting.other inner]⟩) :
    (Fragment.nested nesting t).condition = nesting.wrap t.toSelector := by
  rw [Fragment.condition.eq_def]
  split
  · rename_i heq
    cases heq
  · rename_i source inner heq
    injection heq with hnesting htree
    subst hnesting
    exact absurd htree (h source inner)
  · rename_i source inner heq
    injection heq with hnesting htree
    subst hnesting
    exact absurd htree (h source inner)
  · rename_i heq
    injection heq with hnesting htree
    subst hnesting
    subst htree
    rfl

theorem Tree.toSelector_malformed (t : Tree) : t.toSelector.malformed = false := by
  cases t
  rfl

end Selector

end StyleCascade
