/-
# StyleCascade.Selector.Matching — which nodes a selector matches

A selector matches a node that carries its base class and satisfies each of its conditions; the
universal base asks nothing. Attribute conditions compare the display text of the attribute's value.
A malformed selector matches nothing.
-/
import StyleCascade.Node.Descendants
import StyleCascade.Selector.Basic

namespace StyleCascade

/-- The text of an attribute passes a test. -/
def AttributeTest.accepts (test : AttributeTest) (expected actual : String) : Bool :=
  match test with
  | .present => true
  | .equals => actual == expected
  | .contains => Text.contains expected.toList actual.toList
  | .startsWith => expected.toList.isPrefixOf actual.toList
  | .endsWith => expected.toList.isSuffixOf actual.toList

/-- A node answers to a positional flag. -/
def Flag.holds (flag : Flag) (n : Node) : Bool :=
  match flag with
  | .firstChild => n.traits.isFirst
  | .lastChild => n.traits.isLast
  | .onlyChild => n.traits.isOnlyChild
  | .empty => n.traits.isEmpty

mutual

/-- A selector matches a node. -/
def Selector.matchesNode : Selector → Node → Bool
  | ⟨_, base, conditions, malformed⟩, n =>
    !malformed && (base == universalClass || n.hasClass base) && Condition.allHold conditions n
termination_by structural s => s

/-- A condition holds of a node. -/
def Condition.holds : Condition → Node → Bool
  | .hasClass name, n => n.hasClass name
  | .attr name test text, n =>
    match n.attribute? name with
    | none => false
    | some value => test.accepts text value.display
  | .flag flag, n => flag.holds n
  | .nth expression, n => expression.admits n.traits.index
  | .hasNone inner, n => !n.anyBelow fun d => inner.matchesNode d
  | .not inner, n => !inner.matchesNode n
  | .has inner, n => n.anyBelow fun d => inner.matchesNode d
termination_by structural c => c

/-- Every condition of a list holds of a node. -/
def Condition.allHold : List Condition → Node → Bool
  | [], _ => true
  | c :: cs, n => c.holds n && Condition.allHold cs n
termination_by structural cs => cs

end

/-- The conditions of a list hold together when each of them does. -/
theorem Condition.allHold_eq_all (cs : List Condition) (n : Node) :
    Condition.allHold cs n = cs.all fun c => c.holds n := by
  induction cs with
  | nil => rfl
  | cons c cs ih => simp [allHold, ih]

end StyleCascade
