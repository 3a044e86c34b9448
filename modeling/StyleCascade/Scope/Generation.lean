/-
# StyleCascade.Scope.Generation — points in the history of registrations

Every registration advances a counter, and the scope it touched is stamped with the new generation.
What was computed from a scope is current as long as the scope's stamp has not changed.

The counter is a natural number here. A counter of 64 bits, which comes round to zero, gives the same
generations up to the registration number `2 ^ 64 - 1`.
-/

namespace StyleCascade

/-- A point in the history of registrations; the later one has the higher ordinal. -/
structure Generation where
  /-- The number of registrations up to this point, which a counter of 64 bits holds while it is below `2 ^ 64`. -/
  ordinal : Nat := 0
deriving DecidableEq, Repr

namespace Generation

/-- The point before any registration. -/
def initial : Generation := {}

/-- The point after one more registration. -/
def next (g : Generation) : Generation :=
  ⟨g.ordinal + 1⟩

/-- A point comes after another. -/
def isNewerThan (g other : Generation) : Bool :=
  decide (other.ordinal < g.ordinal)

end Generation

/-- The generations of what a resolver reads: the global scope and, if there is one, a local scope. -/
structure ViewGeneration where
  /-- The generation of the global scope. -/
  globalScope : Generation
  /-- The generation of the local scope. -/
  localScope : Option Generation
deriving DecidableEq

end StyleCascade
