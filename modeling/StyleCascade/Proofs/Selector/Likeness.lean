/-
# StyleCascade.Proofs.Selector.Likeness — nodes that selectors cannot tell apart

A likeness relates nodes that show selectors the same of themselves, and whose children it relates, each to some
child of the other. What is below one node is then like something below the other, as far down
(`Likeness.descends`), so that no search can tell the two apart, and no selector (`Likeness.matchesNode_eq`).

Neither the order of children nor anything that is kept for the parent is part of that. So a search depends on
what is below a node and on nothing else (`Selector.search_is_exact`).
-/
import Mathlib.Logic.Relation
import StyleCascade.Proofs.Node.Descent
import StyleCascade.Selector.Matching
import StyleCascade.Selector.Reader

namespace StyleCascade

open Relation (ReflTransGen)

/-- Nodes that are related show selectors the same of themselves, and their children are related. -/
structure Likeness (like : Node → Node → Prop) : Prop where
  classes : ∀ {a b : Node}, like a b → ∀ name, a.hasClass name = b.hasClass name
  attributes : ∀ {a b : Node}, like a b → ∀ name, a.attribute? name = b.attribute? name
  flags : ∀ {a b : Node}, like a b → ∀ flag : Flag, flag.holds a = flag.holds b
  index : ∀ {a b : Node}, like a b → a.traits.index = b.traits.index
  forth : ∀ {a b : Node}, like a b → ∀ c ∈ a.children, ∃ d ∈ b.children, like c d
  back : ∀ {a b : Node}, like a b → ∀ d ∈ b.children, ∃ c ∈ a.children, like c d

/-- Nodes of the same traits show selectors the same of themselves. -/
theorem Likeness.ofTraits {like : Node → Node → Prop}
    (traits : ∀ {a b : Node}, like a b → a.traits = b.traits)
    (forth : ∀ {a b : Node}, like a b → ∀ c ∈ a.children, ∃ d ∈ b.children, like c d)
    (back : ∀ {a b : Node}, like a b → ∀ d ∈ b.children, ∃ c ∈ a.children, like c d) :
    Likeness like where
  classes hab name := by
    unfold Node.hasClass
    rw [traits hab]
  attributes hab name := by
    unfold Node.attribute?
    rw [traits hab]
  flags hab flag := by
    unfold Flag.holds
    rw [traits hab]
  index hab := by rw [traits hab]
  forth := forth
  back := back

namespace Likeness

variable {like : Node → Node → Prop} {a b : Node}

theorem symm (h : Likeness like) : Likeness fun b a => like a b where
  classes hab name := (h.classes hab name).symm
  attributes hab name := (h.attributes hab name).symm
  flags hab flag := (h.flags hab flag).symm
  index hab := (h.index hab).symm
  forth hab := h.back hab
  back hab := h.forth hab

/-- What is below a node is like something as far below any node like it. -/
theorem descends (h : Likeness like) {k : Nat} {c : Node} (hc : a.Descends k c) :
    ∀ {b : Node}, like a b → ∃ d, b.Descends k d ∧ like c d := by
  induction hc with
  | self a =>
      intro b hab
      exact ⟨b, .self b, hab⟩
  | child hchild _ ih =>
      intro b hab
      obtain ⟨d, hd, hlike⟩ := h.forth hab _ hchild
      obtain ⟨e, he, hlike⟩ := ih hlike
      exact ⟨e, .child hd he, hlike⟩

theorem anyBelow_of_anyBelow (h : Likeness like) {test : Node → Bool}
    (htest : ∀ {a b : Node}, like a b → test a = test b) (hab : like a b)
    (ha : a.anyBelow test = true) : b.anyBelow test = true := by
  obtain ⟨k, c, hc, hpasses⟩ := Node.anyBelow_iff.mp ha
  obtain ⟨d, hd, hlike⟩ := h.descends hc hab
  exact Node.anyBelow_iff.mpr ⟨k, d, hd, htest hlike ▸ hpasses⟩

/-- Searches for what looks the same in nodes that are alike have the same outcome below such nodes. -/
theorem anyBelow_eq (h : Likeness like) {test : Node → Bool}
    (htest : ∀ {a b : Node}, like a b → test a = test b) (hab : like a b) :
    a.anyBelow test = b.anyBelow test :=
  Bool.eq_iff_iff.mpr ⟨h.anyBelow_of_anyBelow htest hab,
    h.symm.anyBelow_of_anyBelow (fun hlike => (htest hlike).symm) hab⟩

end Likeness

variable {like : Node → Node → Prop}

mutual

/-- A selector cannot tell nodes apart that are alike. -/
theorem Likeness.matchesNode_eq (h : Likeness like) : ∀ (s : Selector) {a b : Node}, like a b →
    s.matchesNode a = s.matchesNode b
  | ⟨_, base, conditions, _⟩, _, _ => fun hab => by
    rw [Selector.matchesNode, Selector.matchesNode, h.classes hab base, h.allHold_eq conditions hab]
termination_by structural s => s

theorem Likeness.holds_eq (h : Likeness like) : ∀ (c : Condition) {a b : Node}, like a b →
    c.holds a = c.holds b
  | .hasClass name, _, _ => fun hab => h.classes hab name
  | .attr name _ _, _, _ => fun hab => by
    rw [Condition.holds, Condition.holds, h.attributes hab name]
  | .flag flag, _, _ => fun hab => h.flags hab flag
  | .nth _, _, _ => fun hab => by
    rw [Condition.holds, Condition.holds, h.index hab]
  | .hasNone inner, _, _ => fun hab => by
    rw [Condition.holds, Condition.holds, h.anyBelow_eq (h.matchesNode_eq inner) hab]
  | .not inner, _, _ => fun hab => by
    rw [Condition.holds, Condition.holds, h.matchesNode_eq inner hab]
  | .has inner, _, _ => fun hab => h.anyBelow_eq (h.matchesNode_eq inner) hab
termination_by structural c => c

theorem Likeness.allHold_eq (h : Likeness like) : ∀ (cs : List Condition) {a b : Node}, like a b →
    Condition.allHold cs a = Condition.allHold cs b
  | [], _, _ => fun _ => rfl
  | c :: cs, _, _ => fun hab => by
    rw [Condition.allHold, Condition.allHold, h.holds_eq c hab, h.allHold_eq cs hab]
termination_by structural cs => cs

end

/-! ## Children in another order -/

/-- The children of one node are put in another order: of the node itself, or of one that it holds above or
below it, at whatever depth. -/
inductive Node.Reorders : Node → Node → Prop
  | here {n : Node} {children : List Node} :
      n.children.Perm children → Reorders n { n with children := children }
  | inChild {n c d : Node} {before after : List Node} :
      n.children = before ++ c :: after → Reorders c d →
      Reorders n { n with children := before ++ d :: after }
  | inAncestor {n p q : Node} {before after : List Node} :
      n.ancestors = before ++ p :: after → Reorders p q →
      Reorders n { n with ancestors := before ++ q :: after }

namespace Node

variable {a b : Node}

theorem Reorders.traits (h : Reorders a b) : a.traits = b.traits := by
  cases h with
  | here _ => rfl
  | inChild _ _ => rfl
  | inAncestor _ _ => rfl

/-- The children can be put back. -/
theorem Reorders.symm (h : Reorders a b) : Reorders b a := by
  induction h with
  | @here n _ hperm =>
      obtain ⟨traits, identity, ancestors, children, remembered⟩ := n
      exact .here hperm.symm
  | @inChild n c d before after hsplit _ ih =>
      obtain ⟨traits, identity, ancestors, children, remembered⟩ := n
      obtain rfl : children = before ++ c :: after := hsplit
      exact .inChild rfl ih
  | @inAncestor n p q before after hsplit _ ih =>
      obtain ⟨traits, identity, ancestors, children, remembered⟩ := n
      obtain rfl : ancestors = before ++ p :: after := hsplit
      exact .inAncestor rfl ih

/-- Where one member of a list takes the place of another, the others stay. -/
theorem mem_replace_cases {α : Type} {a c d : α} {before after : List α} (h : a ∈ before ++ d :: after) :
    a = d ∨ a ∈ before ++ c :: after := by
  rcases List.mem_append.mp h with h | h
  · exact .inr (List.mem_append_left _ h)
  · rcases List.mem_cons.mp h with rfl | h
    · exact .inl rfl
    · exact .inr (List.mem_append_right _ (List.mem_cons_of_mem _ h))

/-- A child is still there, perhaps with the children of some node below it in another order. -/
theorem Reorders.exists_child (h : Reorders a b) {c : Node} (hc : c ∈ a.children) :
    ∃ d ∈ b.children, c = d ∨ Reorders c d := by
  cases h with
  | here hperm => exact ⟨c, hperm.mem_iff.mp hc, .inl rfl⟩
  | @inChild _ c' d before after hsplit h =>
      rw [hsplit] at hc
      rcases mem_replace_cases hc with rfl | hc
      · exact ⟨d, List.mem_append_right _ List.mem_cons_self, .inr h⟩
      · exact ⟨c, hc, .inl rfl⟩
  | inAncestor _ _ => exact ⟨c, hc, .inl rfl⟩

/-- Nodes are alike if they are the same, or else with the children of one node in another order. -/
theorem likeness_reorders : Likeness fun a b => a = b ∨ a.Reorders b := by
  refine .ofTraits ?_ ?_ ?_
  · rintro a b (rfl | h)
    · rfl
    · exact h.traits
  · rintro a b (rfl | h) c hc
    · exact ⟨c, hc, .inl rfl⟩
    · exact h.exists_child hc
  · rintro a b (rfl | h) d hd
    · exact ⟨d, hd, .inl rfl⟩
    · obtain ⟨c, hc, hlike⟩ := h.symm.exists_child hd
      exact ⟨c, hc, hlike.imp Eq.symm Reorders.symm⟩

end Node

/-- The order of children makes no difference to a condition, however often it is changed. -/
theorem Condition.holds_eq_of_reorders (c : Condition) {a b : Node} (h : ReflTransGen Node.Reorders a b) :
    c.holds a = c.holds b := by
  induction h with
  | refl => rfl
  | tail _ hstep ih => exact ih.trans (Node.likeness_reorders.holds_eq c (.inr hstep))

/-! ## The law -/

/-- A search for a selector below a node finds exactly what is there: some node, at whatever depth, that is
matched.

- It stops on a level above the last one, and what is on that level is the answer.
- A condition that some descendant matches, and one that none does, hold accordingly, so that on every node
  exactly one of the two holds.
- The node itself is not below itself; and nothing but the children matters, neither what the node shows nor what
  it holds above. Nor does it matter in what order the children of the node are, or those of any node it holds. -/
theorem Selector.search_is_exact (x : Selector) (n : Node) :
    (n.anyBelow x.matchesNode = true ↔ ∃ k d, n.Descends (k + 1) d ∧ x.matchesNode d = true) ∧
    (∃ k < n.subtreeSize, Node.StopsAt x.matchesNode n.children k ∧
      n.anyBelow x.matchesNode = (Node.levelsDown k n.children).any x.matchesNode) ∧
    ((Condition.has x).holds n = true ↔ ∃ k d, n.Descends (k + 1) d ∧ x.matchesNode d = true) ∧
    ((Condition.hasNone x).holds n = true ↔ ¬∃ k d, n.Descends (k + 1) d ∧ x.matchesNode d = true) ∧
    (Condition.hasNone x).holds n = !(Condition.has x).holds n ∧
    (∀ k d, n.Descends (k + 1) d → d ≠ n) ∧
    (∀ m : Node, m.children = n.children → (Condition.has x).holds m = (Condition.has x).holds n ∧
      (Condition.hasNone x).holds m = (Condition.hasNone x).holds n) ∧
    ∀ m : Node, ReflTransGen Node.Reorders n m → (Condition.has x).holds m = (Condition.has x).holds n ∧
      (Condition.hasNone x).holds m = (Condition.hasNone x).holds n := by
  have hnone : ∀ m : Node, (Condition.hasNone x).holds m = !(Condition.has x).holds m := fun _ => rfl
  refine ⟨Node.anyBelow_iff, ?_, Node.anyBelow_iff, ?_, hnone n, fun _ _ hd => hd.ne, fun m hm => ?_,
    fun m hm => ?_⟩
  · obtain ⟨k, hk, hstops, hanswer⟩ := Node.exists_stopsAt x.matchesNode n.children
    rw [Node.subtreeSize_eq]
    exact ⟨k, Nat.lt_succ_of_le hk, hstops, hanswer⟩
  · rw [hnone, Bool.not_eq_true', Bool.eq_false_iff]
    exact not_congr Node.anyBelow_iff
  · have hhas : (Condition.has x).holds m = (Condition.has x).holds n := by
      show Node.anyFromLevel x.matchesNode m.children = Node.anyFromLevel x.matchesNode n.children
      rw [hm]
    exact ⟨hhas, by rw [hnone, hnone, hhas]⟩
  · exact ⟨((Condition.has x).holds_eq_of_reorders hm).symm,
      ((Condition.hasNone x).holds_eq_of_reorders hm).symm⟩

/-- An item in a list in a card is found from the card, whatever else the card is and in whatever order its children
are. -/
theorem Selector.search_is_exact_card :
    let item := Node.ofClasses ["item"]
    let list := (Node.ofClasses ["list"]).withChildren [Node.ofClasses ["title"], item]
    let icon := Node.ofClasses ["icon"]
    let card := (Node.ofClasses ["card"]).withChildren [icon, list]
    let plain : Node := { children := [icon, list] }
    let turned : Node := { card with children := [list, icon] }
    let hasItem := Condition.has (Selector.ofString "item")
    (card.Descends 2 item ∧ item ≠ card) ∧ hasItem.holds card = true ∧
      (plain.children = card.children ∧ hasItem.holds plain = true) ∧
      ReflTransGen Node.Reorders card turned ∧ hasItem.holds turned = true := by
  intro item list icon card plain turned hasItem
  obtain ⟨-, -, hhas, -, -, hne, hchildren, hreorders⟩ :=
    Selector.search_is_exact (Selector.ofString "item") card
  have hlist : list ∈ card.children := List.mem_cons_of_mem _ List.mem_cons_self
  have hitem : item ∈ list.children := List.mem_cons_of_mem _ List.mem_cons_self
  have hdescends : card.Descends 2 item := .child hlist (.child hitem (.self item))
  have hfound : hasItem.holds card = true := hhas.mpr ⟨1, item, hdescends, by decide +kernel⟩
  have hturned : ReflTransGen Node.Reorders card turned := .single (.here (.swap list icon []))
  exact ⟨⟨hdescends, hne 1 item hdescends⟩, hfound, ⟨rfl, (hchildren plain rfl).1.trans hfound⟩,
    hturned, (hreorders turned hturned).1.trans hfound⟩

end StyleCascade
