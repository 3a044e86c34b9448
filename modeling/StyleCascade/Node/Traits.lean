/-
# StyleCascade.Node.Traits — what a node shows of itself

The traits of a node are the facts about it that selectors and dynamic styles can read without
looking at its parent or its children: its place among its siblings, the positional flags, its
classes and attributes, and what its siblings show.
-/
import StyleCascade.Declaration

namespace StyleCascade

/-- The class every node carries. -/
def universalClass : String := "*"

/-- A node's own observable facts. -/
structure Traits where
  /-- Position among the siblings, counted from one. -/
  index : Nat := 1
  /-- Number of siblings, the node included. -/
  count : Nat := 1
  /-- The node answers to being the first child. -/
  isFirst : Bool := true
  /-- The node answers to being the last child. -/
  isLast : Bool := true
  /-- The node stands at an odd position. -/
  isOdd : Bool := true
  /-- The node stands at an even position. -/
  isEven : Bool := false
  /-- The node answers to having no children. -/
  isEmpty : Bool := true
  /-- The node answers to being the only child. -/
  isOnlyChild : Bool := true
  /-- Class tokens in order. -/
  classes : List String := [universalClass]
  /-- Attributes by name. -/
  attributes : Declaration := .empty
  /-- Class tokens of the other children of the same parent. -/
  siblingClasses : List (List String) := []
  /-- Attributes of the other children of the same parent. -/
  siblingAttributes : List Declaration := []
deriving DecidableEq

end StyleCascade
