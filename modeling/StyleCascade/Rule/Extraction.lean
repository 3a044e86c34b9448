/-
# StyleCascade.Rule.Extraction — the rules of a sheet

The rules of a sheet are taken in a walk that visits an entry before what is nested in it and earlier
entries before later ones.

- A dynamic style gives one rule with computed properties.
- A declaration gives one rule with fixed properties, unless it is empty.
- A nested sheet gives one rule with its own property values, unless it has none, and then the rules
  of its other entries; the key joins the chain of these.

References to variables are filled in on the way. Property values at the root belong to no selector
and give nothing. The weight of a rule is the sum of the weights of all selectors on its path.
-/
import StyleCascade.Rule.Table
import StyleCascade.Selector.Reader
import StyleCascade.Sheet.Expansion
import StyleCascade.Variables.Expansion

namespace StyleCascade

variable {m : Type → Type}

/-- The property values of a level, with references to variables filled in. -/
def Sheet.ownProperties (vars : Variables) (sheet : Sheet m) : Declaration :=
  Declaration.ofList <| sheet.filterMap fun e =>
    match e.2 with
    | .value v => some (e.1, vars.substitute v)
    | _ => none

/-- The rule with fixed properties, unless there are none. -/
def Rule.ofProperties (selector : Selector) (chain : List Selector) (weight : Specificity)
    (properties : Declaration) : List (Rule m) :=
  if properties.isEmpty then [] else [⟨selector, chain, weight, .fixed properties⟩]

mutual

/-- The rules of the content of a key, below a chain of selectors with a total weight. -/
def Style.rules (vars : Variables) (chain : List Selector) (above : Specificity) (key : String) :
    Style m → List (Rule m)
  | .value _ => []
  | .dynamic f =>
    let selector := Selector.ofString key
    [⟨selector, chain, above + selector.weight, .computed f⟩]
  | .declaration d =>
    let selector := Selector.ofString key
    Rule.ofProperties selector chain (above + selector.weight) (d.mapValues vars.substitute)
  | .nested entries =>
    let selector := Selector.ofString key
    let weight := above + selector.weight
    Rule.ofProperties selector chain weight (Sheet.ownProperties vars entries) ++
      Sheet.rulesBelow vars (chain ++ [selector]) weight entries
termination_by structural style => style

/-- The rules of the entries of a level, below a chain of selectors with a total weight. -/
def Sheet.rulesBelow (vars : Variables) (chain : List Selector) (above : Specificity) :
    List (String × Style m) → List (Rule m)
  | [] => []
  | (key, style) :: rest =>
    style.rules vars chain above key ++ Sheet.rulesBelow vars chain above rest
termination_by structural entries => entries

end

/-- The rules of a sheet as it stands. -/
def Sheet.rules (vars : Variables) (sheet : Sheet m) : List (Rule m) :=
  Sheet.rulesBelow vars [] .zero sheet

/-- The table of the rules of a sheet as it stands. -/
def RuleTable.ofPlainSheet (vars : Variables) (sheet : Sheet m) : RuleTable m :=
  .ofList (sheet.rules vars)

/-- The table of the rules of a sheet brought into its plain nested form. -/
def RuleTable.ofSheet (vars : Variables) (sheet : Sheet m) : RuleTable m :=
  .ofPlainSheet vars sheet.expand

end StyleCascade
