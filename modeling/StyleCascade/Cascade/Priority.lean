/-
# StyleCascade.Cascade.Priority — which rule wins

Of two rules that set one property the one with the higher priority decides it. Priorities are compared
by weight first. Among equal weights a rule of the local scope stands above one of the global scope;
in one scope a rule with computed properties stands above one with fixed properties; and of two rules
of one kind the later one stands above the earlier one.
-/
import StyleCascade.Selector.Specificity

namespace StyleCascade

/-- The scope a rule was registered in. -/
inductive Origin where
  /-- The scope every node is in. -/
  | globalScope
  /-- A scope with a name. -/
  | localScope
deriving DecidableEq, Repr

/-- Whether a rule's properties are fixed or computed for each node. -/
inductive RuleKind where
  /-- The properties are fixed. -/
  | fixed
  /-- The properties are computed. -/
  | computed
deriving DecidableEq, Repr

/-- The place of an origin among the origins, lowest first. -/
def Origin.rank : Origin → Nat
  | globalScope => 0
  | localScope => 1

/-- The place of a kind among the kinds, lowest first. -/
def RuleKind.rank : RuleKind → Nat
  | fixed => 0
  | computed => 1

/-- The priority of a rule that applies. -/
structure Priority where
  /-- The weight of the rule. -/
  weight : Specificity
  /-- The scope of the rule. -/
  origin : Origin
  /-- The kind of the rule. -/
  kind : RuleKind
  /-- The position of the rule in its table. -/
  order : Nat
deriving DecidableEq

/-- Compares priorities; the greater one wins. -/
def Priority.compare (p q : Priority) : Ordering :=
  (Ord.compare p.weight.value q.weight.value).then <|
    (Ord.compare p.origin.rank q.origin.rank).then <|
      (Ord.compare p.kind.rank q.kind.rank).then <|
        Ord.compare p.order q.order

/-- A priority that does not win over another. -/
def Priority.le (p q : Priority) : Bool :=
  (p.compare q).isLE

end StyleCascade
