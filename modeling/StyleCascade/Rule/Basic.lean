/-
# StyleCascade.Rule.Basic — rules

A rule says that a node matched by a selector, below ancestors matched by the selectors of a chain,
has certain properties. The properties are fixed, or they are computed for the node by a dynamic
style, which may decline.
-/
import StyleCascade.Selector.Matching
import StyleCascade.Sheet.Basic

namespace StyleCascade

/-- Where the properties of a rule come from. -/
inductive RuleStyle (m : Type → Type) where
  /-- They are the same for every node. -/
  | fixed (declaration : Declaration)
  /-- They are computed for each node. -/
  | computed (style : DynamicStyle m)

/-- A rule. -/
structure Rule (m : Type → Type) where
  /-- The selector of the styled node. -/
  selector : Selector
  /-- The selectors asked of the ancestors, root first. -/
  chain : List Selector
  /-- The weight of the rule. -/
  weight : Specificity
  /-- The properties. -/
  style : RuleStyle m

namespace Rule

variable {m : Type → Type}

/-- The base class under which the rule is filed. -/
def base (r : Rule m) : String :=
  r.selector.base

/-- The properties of the rule are computed for each node. -/
def isComputed (r : Rule m) : Bool :=
  match r.style with
  | .fixed _ => false
  | .computed _ => true

/-- The rule applies to a node: its selector matches the node, and each selector of the chain matches
some ancestor. A bare universal selector in the chain asks for nothing. -/
def matchesNode (r : Rule m) (n : Node) : Bool :=
  r.selector.matchesNode n &&
    r.chain.all fun required =>
      required.isUniversal || n.ancestors.any fun ancestor => required.matchesNode ancestor

/-- The properties the rule gives a node. -/
def evaluate [Monad m] (r : Rule m) (n : Node) : m (Option Declaration) :=
  match r.style with
  | .fixed declaration => pure (some declaration)
  | .computed style => style n.traits.index n

end Rule

end StyleCascade
