/-
# StyleCascade.Selector.Basic — selectors

A selector is a base class followed by conditions. Conditions are kept in the order in which they are
tried: what a node shows of itself first, searches among its descendants last.

The weight of a selector is one for a named base and one for each plain condition. A negation weighs
what its argument weighs; a search among descendants weighs one more than its argument. A malformed
selector weighs nothing.
-/
import StyleCascade.Selector.Nth
import StyleCascade.Selector.Specificity
import StyleCascade.Node.Traits
import StyleCascade.StableSort

namespace StyleCascade

/-- How an attribute's text is compared. -/
inductive AttributeTest where
  /-- The attribute is present. -/
  | present
  /-- Its text is the given one. -/
  | equals
  /-- Its text contains the given one. -/
  | contains
  /-- Its text starts with the given one. -/
  | startsWith
  /-- Its text ends with the given one. -/
  | endsWith
deriving DecidableEq, Repr

/-- The positional flags a selector can ask for. -/
inductive Flag where
  /-- The first child. -/
  | firstChild
  /-- The last child. -/
  | lastChild
  /-- The only child. -/
  | onlyChild
  /-- No children. -/
  | empty
deriving DecidableEq, Repr

mutual

/-- A selector: its source text, its base class, its conditions, and whether the text could not be
read to its end. -/
structure Selector where
  /-- The text the selector was read from. -/
  source : String
  /-- The leading class token, or the universal class. -/
  base : String
  /-- The conditions in the order in which they are tried. -/
  conditions : List Condition
  /-- The text could not be read to its end; the selector then matches no node. -/
  malformed : Bool

/-- One condition of a selector beyond its base class. -/
inductive Condition where
  /-- A further class token. -/
  | hasClass (name : String)
  /-- A test of an attribute's text. -/
  | attr (name : String) (test : AttributeTest) (text : String)
  /-- A positional flag. -/
  | flag (flag : Flag)
  /-- A position expression. -/
  | nth (expression : Nth)
  /-- No descendant matches. -/
  | hasNone (inner : Selector)
  /-- The node itself does not match. -/
  | not (inner : Selector)
  /-- Some descendant matches. -/
  | has (inner : Selector)

end

namespace Condition

/-- The place of a condition in the order of trying: cheap local checks before searches. -/
def rank : Condition → Nat
  | hasClass _ => 0
  | attr _ _ _ => 1
  | flag _ => 2
  | nth _ => 3
  | hasNone _ => 4
  | not _ => 5
  | has _ => 6

/-- Sorts conditions by rank; those of one rank keep their order. -/
def sortByRank (conditions : List Condition) : List Condition :=
  stableSort (fun c d => decide (c.rank ≤ d.rank)) conditions

end Condition

mutual

/-- The weight of a selector. -/
def Selector.weight : Selector → Specificity
  | ⟨_, base, conditions, malformed⟩ =>
    if malformed then .zero
    else (if base = universalClass then .zero else .one) + Condition.totalWeight conditions
termination_by structural s => s

/-- The weight of a condition. -/
def Condition.weight : Condition → Specificity
  | .hasClass _ => .one
  | .attr _ _ _ => .one
  | .flag _ => .one
  | .nth _ => .one
  | .hasNone inner => .one + inner.weight
  | .not inner => inner.weight
  | .has inner => .one + inner.weight
termination_by structural c => c

/-- The weight of a list of conditions. -/
def Condition.totalWeight : List Condition → Specificity
  | [] => .zero
  | c :: cs => c.weight + Condition.totalWeight cs
termination_by structural cs => cs

end

/-- The selector is the bare universal one, by its source text. -/
def Selector.isUniversal (s : Selector) : Bool :=
  s.source == universalClass

/-! ## Conditions on a selector -/

namespace Selector

/-- What a condition asks of the selector in it. -/
inductive Nesting where
  /-- The node does not match it. -/
  | not
  /-- Some descendant matches it. -/
  | has
deriving DecidableEq

namespace Nesting

/-- The word for it. -/
def word : Nesting → String
  | not => "not"
  | has => "has"

/-- The one with which it makes up the condition that no descendant matches. -/
def other : Nesting → Nesting
  | not => has
  | has => not

/-- The condition on a selector. -/
def wrap : Nesting → Selector → Condition
  | not => .not
  | has => .has

end Nesting

end Selector

end StyleCascade
