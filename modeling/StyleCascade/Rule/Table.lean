/-
# StyleCascade.Rule.Table — rules filed by base class

A rule table keeps rules in the order in which they were pushed. Each rule is stamped with its
position in that order and filed under its base class, rules with fixed properties apart from those
with computed ones. Appending a table pushes its rules in their order, so they come after all rules
that are present.

Positions are natural numbers. A counter of 32 bits that stays at its highest value gives the same
positions to the first `2 ^ 32` rules, and one and the same to all later ones.
-/
import StyleCascade.Keyed
import StyleCascade.Rule.Basic

namespace StyleCascade

/-- A rule with its position in a table. -/
structure StampedRule (m : Type → Type) where
  /-- The position, counted from zero over the whole table. -/
  order : Nat
  /-- The rule. -/
  rule : Rule m

/-- Rules by base class, each list in the order of its positions. -/
structure RuleTable (m : Type → Type) where
  /-- The rules with fixed properties. -/
  fixed : List (String × List (StampedRule m)) := []
  /-- The rules with computed properties. -/
  computed : List (String × List (StampedRule m)) := []
  /-- The number of rules, which is the position of the next one as long as it is below `2 ^ 32`, where a counter of
  32 bits would stop. -/
  size : Nat := 0

namespace RuleTable

variable {m : Type → Type}

instance : Inhabited (RuleTable m) := ⟨{}⟩

/-- Files a rule at the end of the list under a key. -/
def file (base : String) (stamped : StampedRule m) (lists : List (String × List (StampedRule m))) :
    List (String × List (StampedRule m)) :=
  Keyed.update base (fun present => present.getD [] ++ [stamped]) lists

/-- Adds a rule after all that are present. -/
def push (table : RuleTable m) (rule : Rule m) : RuleTable m :=
  let stamped := ⟨table.size, rule⟩
  if rule.isComputed then
    { table with computed := file rule.base stamped table.computed, size := table.size + 1 }
  else
    { table with fixed := file rule.base stamped table.fixed, size := table.size + 1 }

/-- Adds rules one after the other. -/
def pushAll (table : RuleTable m) (rules : List (Rule m)) : RuleTable m :=
  rules.foldl push table

/-- The table of rules pushed one after the other. -/
def ofList (rules : List (Rule m)) : RuleTable m :=
  pushAll {} rules

/-- The rules with their positions, in order of position. -/
def stamped (table : RuleTable m) : List (StampedRule m) :=
  stableSort (fun a b => decide (a.order ≤ b.order))
    ((table.fixed ++ table.computed).flatMap fun e => e.2)

/-- The rules in order of position. -/
def toList (table : RuleTable m) : List (Rule m) :=
  table.stamped.map fun s => s.rule

/-- Adds the rules of another table, in their order, after all that are present. -/
def append (table other : RuleTable m) : RuleTable m :=
  table.pushAll other.toList

/-- The rules with fixed properties under a base class. -/
def fixedUnder (table : RuleTable m) (base : String) : List (StampedRule m) :=
  (table.fixed.lookup base).getD []

/-- The rules with computed properties under a base class. -/
def computedUnder (table : RuleTable m) (base : String) : List (StampedRule m) :=
  (table.computed.lookup base).getD []

/-- The base classes that have a rule, in increasing order. -/
def bases (table : RuleTable m) : List String :=
  stableSort (fun a b => decide (a ≤ b)) (Keyed.keys table.fixed ++ Keyed.keys table.computed).eraseDups

/-- No rule was pushed. -/
def isEmpty (table : RuleTable m) : Bool :=
  table.size == 0

end RuleTable

end StyleCascade
