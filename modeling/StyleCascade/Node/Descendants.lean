/-
# StyleCascade.Node.Descendants — searching below a node

A search below a node goes level by level: first the children, then their children, and so on. It
ends because the subtrees of a level together hold more nodes than those of the level below.
-/
import StyleCascade.Node.Basic

namespace StyleCascade.Node

mutual

/-- The number of nodes in the subtree of a node. -/
def subtreeSize : Node → Nat
  | ⟨_, _, _, children, _⟩ => forestSize children + 1
termination_by structural n => n

/-- The number of nodes in the subtrees of a list of nodes. -/
def forestSize : List Node → Nat
  | [] => 0
  | n :: ns => n.subtreeSize + forestSize ns
termination_by structural ns => ns

end

/-- The nodes one level below a list of nodes. -/
def nextLevel (level : List Node) : List Node :=
  level.flatMap fun (n : Node) => n.children

/-- A subtree is its node and the subtrees of the children. -/
theorem subtreeSize_eq (n : Node) : n.subtreeSize = forestSize n.children + 1 := by
  cases n
  simp [subtreeSize]

/-- The size of joined forests is the sum of their sizes. -/
theorem forestSize_append (ms ns : List Node) :
    forestSize (ms ++ ns) = forestSize ms + forestSize ns := by
  induction ms with
  | nil => simp [forestSize]
  | cons m ms ih => simp only [List.cons_append, forestSize, ih, Nat.add_assoc]

/-- A level is larger than the one below it by its own nodes. -/
theorem forestSize_nextLevel (level : List Node) :
    forestSize (nextLevel level) + level.length = forestSize level := by
  induction level with
  | nil => rfl
  | cons n ns ih =>
    have h : nextLevel (n :: ns) = n.children ++ nextLevel ns := rfl
    rw [h, forestSize_append, forestSize, subtreeSize_eq, List.length_cons]
    omega

/-- Some node of a level or of a level below it satisfies a test. -/
def anyFromLevel (test : Node → Bool) (level : List Node) : Bool :=
  if level = [] then false
  else level.any test || anyFromLevel test (nextLevel level)
termination_by forestSize level
decreasing_by
  have h := forestSize_nextLevel level
  have hpos : 0 < level.length := List.length_pos_iff.mpr ‹_›
  omega

/-- Some node strictly below this one satisfies a test. -/
def anyBelow (test : Node → Bool) (n : Node) : Bool :=
  anyFromLevel test n.children

end StyleCascade.Node
