/-
# StyleCascade.Cascade.Merge — from matching rules to properties

The rules that apply to a node are collected scope by scope and brought into the order of their
priorities; contributions of one priority keep the order in which they were collected. Their properties
are then merged, so that for each property the last contribution that has it decides.

Dynamic styles are called while contributions are collected, in the order of collection.
-/
import StyleCascade.Cascade.Priority
import StyleCascade.Rule.Table

namespace StyleCascade

/-- The properties that a rule gives a node, with the rule's priority. -/
structure Contribution where
  /-- The priority of the rule. -/
  priority : Priority
  /-- The properties. -/
  declaration : Declaration

/-- The rules of one scope. -/
structure Layer (m : Type → Type) where
  /-- The scope. -/
  origin : Origin
  /-- Its rules. -/
  table : RuleTable m

/-- Merges contributions in the order of their priorities. -/
def Contribution.mergeAll (contributions : List Contribution) : Declaration :=
  (stableSort (fun a b => a.priority.le b.priority) contributions).foldl
    (fun merged c => merged.merge c.declaration) .empty

variable {m : Type → Type} [Monad m]

/-- Runs an action on each element in turn and keeps what the actions give. -/
def collectM {α β : Type} (action : α → m (Option β)) : List α → m (List β)
  | [] => pure []
  | a :: rest => do
    let found ← action a
    let more ← collectM action rest
    return found.toList ++ more

/-- The contribution of a rule of a scope, if the rule applies to the node and gives it properties. -/
def StampedRule.contribution? (origin : Origin) (kind : RuleKind) (n : Node) (s : StampedRule m) :
    m (Option Contribution) := do
  if s.rule.matchesNode n then
    let found ← s.rule.evaluate n
    return found.map fun declaration =>
      { priority := ⟨s.rule.weight, origin, kind, s.order⟩, declaration := declaration }
  else return none

/-- The contributions of one scope under a base class: rules with fixed properties first. -/
def Layer.contributions (layer : Layer m) (base : String) (n : Node) : m (List Contribution) := do
  let fixed ← collectM (StampedRule.contribution? layer.origin .fixed n) (layer.table.fixedUnder base)
  let computed ←
    collectM (StampedRule.contribution? layer.origin .computed n) (layer.table.computedUnder base)
  return fixed ++ computed

/-- The contributions under a base class, scope by scope. -/
def Layer.contributionsUnder (n : Node) (base : String) : List (Layer m) → m (List Contribution)
  | [] => pure []
  | layer :: rest => do
    let found ← layer.contributions base n
    let more ← Layer.contributionsUnder n base rest
    return found ++ more

/-- The contributions under several base classes, one class after the other. -/
def Layer.contributionsUnderAll (layers : List (Layer m)) (n : Node) :
    List String → m (List Contribution)
  | [] => pure []
  | base :: rest => do
    let found ← Layer.contributionsUnder n base layers
    let more ← Layer.contributionsUnderAll layers n rest
    return found ++ more

/-- The properties of a node under the given base classes. -/
def Layer.cascade (layers : List (Layer m)) (bases : List String) (n : Node) : m Declaration := do
  let contributions ← Layer.contributionsUnderAll layers n bases
  return Contribution.mergeAll contributions

end StyleCascade
