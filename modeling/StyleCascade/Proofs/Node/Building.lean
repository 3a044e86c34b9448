/-
# StyleCascade.Proofs.Node.Building — ancestors and flags of nodes that are built

A list of ancestors can be any list of nodes, but builders only make a lineage of it: every ancestor stands below
those before it (`Lineal`). A new node stands below nothing, and a node that is put below a lineal one gets that
one's lineage and then that one itself, so every node is lineal whose parents are (`lineal_built`). The key of
such a node says of all its ancestors what their short form says, the key of its parent
(`Lineal.shorten_contentKeysAbove`).

The positional flags of a node are kept beside what they are read off, and different builders set them. They go
together in a new node, and no builder takes them apart (`Consistent.apply`), so they do in whatever node is
built (`consistent_built`).

Selectors get at the same facts by other ways: `:nth-child` by arithmetic on the position, `:has` by a search. On
a node whose flags go together they say the same as the flags (`Consistent.selectors_agree`).
-/
import StyleCascade.Proofs.Node.Agreement
import StyleCascade.Proofs.Node.Descent
import StyleCascade.Proofs.Selector.Negation

namespace StyleCascade

namespace Node

/-! ## Builders in sequence -/

/-- A call of a builder, or the copying of the node. -/
inductive Builder where
  | placedAt (index count : Nat)
  | within (parent : Node)
  | withAttribute (name : String) (value : Value)
  | withAttributes (attributes : Declaration)
  | withChildren (children : List Node)
  | withSiblings (siblings : List Node)
  | withIdentity (identity : String)
  | copy

/-- The node that a builder makes of a node. -/
def Builder.apply : Builder → Node → Node
  | placedAt index count, n => n.placedAt index count
  | within parent, n => n.within parent
  | withAttribute name value, n => n.withAttribute name value
  | withAttributes attributes, n => n.withAttributes attributes
  | withChildren children, n => n.withChildren children
  | withSiblings siblings, n => n.withSiblings siblings
  | withIdentity identity, n => n.withIdentity identity
  | copy, n => n.copy

/-- The node that comes out when builders are applied one after the other to a new node. -/
def built (classes : List String) (builders : List Builder) : Node :=
  builders.foldl (fun n builder => builder.apply n) (ofClasses classes)

/-! ## Lineage -/

/-- The ancestors are a lineage: each of them has for its own ancestors those before it. -/
def Lineal (n : Node) : Prop :=
  ∀ before p after, n.ancestors = before ++ p :: after → p.ancestors = before

/-- A node is lineal exactly when it stands below nothing, or below a lineal node and what is above that. -/
theorem lineal_iff (n : Node) :
    n.Lineal ↔ n.ancestors = [] ∨ ∃ p : Node, p.Lineal ∧ n.ancestors = p.ancestors ++ [p] := by
  constructor
  · intro h
    rcases List.eq_nil_or_concat' n.ancestors with hnil | ⟨before, p, hsplit⟩
    · exact .inl hnil
    · obtain rfl : p.ancestors = before := h before p [] hsplit
      refine .inr ⟨p, fun before q after hp => ?_, hsplit⟩
      exact h before q (after ++ [p]) (by rw [hsplit, hp, List.append_assoc, List.cons_append])
  · rintro (hnil | ⟨p, hp, hsplit⟩) before q after hq
    · exact absurd (hnil.symm.trans hq) (by simp)
    · rw [hsplit] at hq
      -- the last ancestor is the parent, and any other is one of the parent's
      rcases List.eq_nil_or_concat' after with rfl | ⟨after, r, rfl⟩
      · obtain ⟨hbefore, hlast⟩ := List.append_inj' hq rfl
        obtain rfl := List.singleton_inj.mp hlast
        exact hbefore
      · rw [← List.cons_append, ← List.append_assoc] at hq
        exact hp before q after (List.append_inj' hq rfl).1

/-- No builder puts a node elsewhere than below nothing, below a given node, or where it was. -/
theorem Lineal.apply {n : Node} (h : n.Lineal) (builder : Builder)
    (hparent : ∀ parent, builder = .within parent → parent.Lineal) : (builder.apply n).Lineal := by
  cases builder with
  | within parent => exact (lineal_iff _).mpr (.inr ⟨parent, hparent parent rfl, rfl⟩)
  | copy =>
      cases n
      exact h
  | placedAt index count => exact h
  | withAttribute name value => exact h
  | withAttributes attributes => exact h
  | withChildren children => exact h
  | withSiblings siblings => exact h
  | withIdentity identity => exact h

theorem Lineal.foldl_apply {n : Node} (h : n.Lineal) (builders : List Builder)
    (hparents : ∀ parent, .within parent ∈ builders → parent.Lineal) :
    (builders.foldl (fun n builder => builder.apply n) n).Lineal := by
  induction builders generalizing n with
  | nil => exact h
  | cons builder builders ih =>
      refine ih (h.apply builder fun parent hparent => ?_) fun parent hparent => ?_
      · exact hparents parent (hparent ▸ List.mem_cons_self)
      · exact hparents parent (List.mem_cons_of_mem _ hparent)

theorem lineal_ofClasses (classes : List String) : (ofClasses classes).Lineal :=
  (lineal_iff _).mpr (.inl rfl)

/-- Whatever builders make of a new node is lineal, if the nodes are that it is put below. -/
theorem lineal_built (classes : List String) (builders : List Builder)
    (hparents : ∀ parent, .within parent ∈ builders → parent.Lineal) : (built classes builders).Lineal :=
  (lineal_ofClasses classes).foldl_apply builders hparents

/-- The key of a lineal node has the key of its parent for all of its ancestors. -/
theorem Lineal.shorten_contentKeysAbove {n parent : Node} (h : n.Lineal)
    (hparent : n.ancestors.getLast? = some parent) :
    NodeKey.shorten n.contentKeysAbove = .lineage parent.contentKey := by
  obtain ⟨before, hsplit⟩ := List.getLast?_eq_some_iff.mp hparent
  obtain rfl : parent.ancestors = before := h before parent [] hsplit
  have hkeys : n.contentKeysAbove = parent.contentKeysAbove ++ [parent.contentKey] := by
    rw [contentKeysAbove, hsplit, List.map_append]
    rfl
  rw [hkeys, NodeKey.shorten, List.getLast?_concat]
  exact if_pos (by rw [ancestors_contentKey])

/-! ## Flags that go together -/

/-- The node has the universal class, and its flags are what its position and its children say. -/
structure Consistent (n : Node) : Prop where
  universal : universalClass ∈ n.traits.classes
  isFirst : n.traits.isFirst = (n.traits.index == 1)
  isLast : n.traits.isLast = (n.traits.index == n.traits.count)
  isOdd : n.traits.isOdd = (n.traits.index % 2 == 1)
  isEven : n.traits.isEven = !n.traits.isOdd
  isOnlyChild : n.traits.isOnlyChild = (n.traits.count == 1)
  isEmpty : n.traits.isEmpty = n.children.isEmpty

theorem mod_two_beq_zero (index : Nat) : (index % 2 == 0) = !(index % 2 == 1) := by
  rcases Nat.mod_two_eq_zero_or_one index with h | h
  · rw [h]
    rfl
  · rw [h]
    rfl

/-- Wherever a node is put, its flags go together if it has the universal class and says whether it is empty. -/
theorem consistent_placedAt {n : Node} (huniversal : universalClass ∈ n.traits.classes)
    (hempty : n.traits.isEmpty = n.children.isEmpty) (index count : Nat) :
    (n.placedAt index count).Consistent where
  universal := huniversal
  isFirst := rfl
  isLast := rfl
  isOdd := rfl
  isEven := mod_two_beq_zero index
  isOnlyChild := rfl
  isEmpty := hempty

theorem consistent_ofClasses (classes : List String) : (ofClasses classes).Consistent := by
  refine consistent_placedAt ?_ rfl 1 1
  show universalClass ∈ if universalClass ∈ classes then classes else universalClass :: classes
  split
  · assumption
  · exact List.mem_cons_self

theorem isEmpty_copies (ns : List Node) : (copies ns).isEmpty = ns.isEmpty := by
  cases ns with
  | nil => rfl
  | cons n ns => rfl

/-- No builder takes the flags apart. -/
theorem Consistent.apply {n : Node} (h : n.Consistent) (builder : Builder) :
    (builder.apply n).Consistent := by
  cases builder with
  | placedAt index count => exact consistent_placedAt h.universal h.isEmpty index count
  | withChildren children => exact { h with isEmpty := rfl }
  | copy =>
      cases n
      exact { h with isEmpty := h.isEmpty.trans (isEmpty_copies _).symm }
  -- the others set neither a flag nor anything that a flag is read off
  | within parent => exact { h with }
  | withAttribute name value => exact { h with }
  | withAttributes attributes => exact { h with }
  | withSiblings siblings => exact { h with }
  | withIdentity identity => exact { h with }

theorem Consistent.foldl_apply {n : Node} (h : n.Consistent) (builders : List Builder) :
    (builders.foldl (fun n builder => builder.apply n) n).Consistent := by
  induction builders generalizing n with
  | nil => exact h
  | cons builder builders ih => exact ih (h.apply builder)

theorem consistent_built (classes : List String) (builders : List Builder) :
    (built classes builders).Consistent :=
  (consistent_ofClasses classes).foldl_apply builders

end Node

namespace Selector

/-! ## Selectors of one condition -/

theorem IsPlain.ne_nil {text : List Char} {c : Condition} (h : IsPlain text c) : text ≠ [] := by
  cases h with
  | hasClass _ => exact List.cons_ne_nil _ _
  | bracket _ _ => exact List.cons_ne_nil _ _
  | flag _ => exact List.cons_ne_nil _ _
  | nth _ _ => exact List.cons_ne_nil _ _

/-- The text of a condition is a selector that matches where the condition holds. -/
theorem matchesNode_of_isPlain {s : String} {c : Condition} (h : IsPlain s.toList c) (n : Node) :
    (ofString s).matchesNode n = c.holds n := by
  have hall := DerivesAll.plain h .nil
  rw [List.append_nil] at hall
  have hderives : Derives s.toList ⟨s.toList, none, [.plain c]⟩ := .selector h.ne_nil trivial rfl hall
  have hread : ofString s = _ := read_of_derives hderives
  rw [hread, matchesNode_of_single]
  rfl

theorem matchesNode_flag {s : String} (flag : Flag) (h : s.toList = ':' :: flag.word.toList) (n : Node) :
    (ofString s).matchesNode n = flag.holds n := by
  have hplain : IsPlain s.toList (.flag flag) := h ▸ IsPlain.flag flag
  exact matchesNode_of_isPlain hplain n

theorem matchesNode_nthChild {s : String} (argument : String) {e : Nth}
    (h : s.toList = call "nth-child" argument.toList) (hinside : Inside argument.toList)
    (hread : Nth.ofString? argument = some e) (n : Node) :
    (ofString s).matchesNode n = e.admits n.traits.index := by
  have hplain : IsPlain s.toList (.nth e) := h ▸ IsPlain.nth hinside hread
  exact matchesNode_of_isPlain hplain n

theorem derives_star : Derives ['*'] ⟨['*'], some ['*'], []⟩ :=
  .selector (List.cons_ne_nil _ _) (.inl rfl) rfl .nil

/-- A search for any node at all finds one unless there are no children. -/
theorem matchesNode_has_star (n : Node) : (ofString ":has(*)").matchesNode n = !n.children.isEmpty := by
  have hread : ofString ":has(*)" = _ := read_of_derives (derives_star.nested .has)
  have hcondition : ∀ source inner,
      (⟨['*'], some ['*'], []⟩ : Tree) ≠ ⟨source, none, [.nested Nesting.has.other inner]⟩ := by
    intro source inner h
    exact absurd (congrArg Tree.base h) (by simp)
  rw [hread, matchesNode_of_single, Fragment.condition_nested hcondition]
  show n.anyBelow (fun d => (Tree.toSelector ⟨['*'], some ['*'], []⟩).matchesNode d) = _
  cases hchildren : n.children with
  | nil => exact anyBelow_of_no_children hchildren _
  | cons c cs =>
      have hc : n.Descends 1 c := .child (hchildren ▸ List.mem_cons_self) (.self c)
      exact Node.anyBelow_iff.mpr ⟨0, c, hc, rfl⟩

end Selector

namespace Node

/-! ## The law -/

/-- Selectors that find out for themselves agree with the flags, where these go together. -/
theorem Consistent.selectors_agree {n : Node} (h : n.Consistent) :
    (Selector.ofString ":first-child").matchesNode n = (Selector.ofString ":nth-child(1)").matchesNode n ∧
    (Selector.ofString ":nth-child(odd)").matchesNode n = n.traits.isOdd ∧
    (Selector.ofString ":nth-child(even)").matchesNode n = n.traits.isEven ∧
    (Selector.ofString ":empty").matchesNode n = !(Selector.ofString ":has(*)").matchesNode n ∧
    ((Selector.ofString ":only-child").matchesNode n = true → 1 ≤ n.traits.index →
      n.traits.index ≤ n.traits.count →
      (Selector.ofString ":first-child").matchesNode n = true ∧
        (Selector.ofString ":last-child").matchesNode n = true) := by
  have hinside : ∀ argument : String, argument.toList.all Selector.isNameChar = true →
      Selector.Inside argument.toList := fun argument hall =>
    Selector.inside_of_isNameChar (List.all_eq_true.mp hall)
  have hone : (Selector.ofString ":nth-child(1)").matchesNode n = (Nth.exact 1).admits n.traits.index :=
    Selector.matchesNode_nthChild "1" rfl (hinside _ (by rfl)) (by decide) n
  have hodd : (Selector.ofString ":nth-child(odd)").matchesNode n =
      (Nth.shifted 2 1 true).admits n.traits.index :=
    Selector.matchesNode_nthChild "odd" rfl (hinside _ (by rfl)) (by decide) n
  have heven : (Selector.ofString ":nth-child(even)").matchesNode n =
      (Nth.every 2).admits n.traits.index :=
    Selector.matchesNode_nthChild "even" rfl (hinside _ (by rfl)) (by decide) n
  have hfirst : (Selector.ofString ":first-child").matchesNode n = n.traits.isFirst :=
    Selector.matchesNode_flag .firstChild rfl n
  have hlast : (Selector.ofString ":last-child").matchesNode n = n.traits.isLast :=
    Selector.matchesNode_flag .lastChild rfl n
  have honly : (Selector.ofString ":only-child").matchesNode n = n.traits.isOnlyChild :=
    Selector.matchesNode_flag .onlyChild rfl n
  have hempty : (Selector.ofString ":empty").matchesNode n = n.traits.isEmpty :=
    Selector.matchesNode_flag .empty rfl n
  rw [hfirst, hone, hodd, heven, hempty, Selector.matchesNode_has_star, hlast, honly, Bool.not_not]
  refine ⟨h.isFirst, h.isOdd.symm, ?_, h.isEmpty, fun hflag hlow hhigh => ?_⟩
  · show (n.traits.index % 2 == 0) = _
    rw [h.isEven, h.isOdd, mod_two_beq_zero]
  · rw [h.isOnlyChild, beq_iff_eq] at hflag
    have hindex : n.traits.index = 1 := by omega
    rw [h.isFirst, h.isLast, hindex, hflag]
    exact ⟨rfl, rfl⟩

/-- Whatever builders have made a node, it has the universal class and its flags are what its position and its
children say. So the position is first as a flag and as a number alike; odd and even positions are the ones that
are flagged so; a node is empty when no search finds anything below it; and an only child at a position that there
is comes first and last. -/
theorem flags_and_selectors_of_built (classes : List String) (builders : List Builder) :
    let n := built classes builders
    n.Consistent ∧
    (Selector.ofString ":first-child").matchesNode n = (Selector.ofString ":nth-child(1)").matchesNode n ∧
    (Selector.ofString ":nth-child(odd)").matchesNode n = n.traits.isOdd ∧
    (Selector.ofString ":nth-child(even)").matchesNode n = n.traits.isEven ∧
    (Selector.ofString ":empty").matchesNode n = !(Selector.ofString ":has(*)").matchesNode n ∧
    ((Selector.ofString ":only-child").matchesNode n = true → 1 ≤ n.traits.index →
      n.traits.index ≤ n.traits.count →
      (Selector.ofString ":first-child").matchesNode n = true ∧
        (Selector.ofString ":last-child").matchesNode n = true) :=
  ⟨consistent_built classes builders, (consistent_built classes builders).selectors_agree⟩

/-- A node that is moved twice and then copied is an only child again. -/
theorem flags_and_selectors_of_built_moved :
    let child := Node.ofClasses ["item"]
    let n := built ["list"] [.placedAt 3 4, .withChildren [child], .withSiblings [child], .placedAt 1 1, .copy]
    n.traits.classes = ["*", "list"] ∧ n.traits.isOdd = true ∧
      (Selector.ofString ":nth-child(odd)").matchesNode n = true ∧
      (Selector.ofString ":only-child").matchesNode n = true ∧
      (Selector.ofString ":first-child").matchesNode n = true ∧
      (Selector.ofString ":last-child").matchesNode n = true := by
  intro child n
  obtain ⟨-, -, hodd, -, -, honly⟩ := flags_and_selectors_of_built ["list"]
    [.placedAt 3 4, .withChildren [child], .withSiblings [child], .placedAt 1 1, .copy]
  have hflag : (Selector.ofString ":only-child").matchesNode n = true := by decide +kernel
  obtain ⟨hfirst, hlast⟩ := honly hflag (by decide) (by decide)
  exact ⟨by decide +kernel, by rfl, hodd, hflag, hfirst, hlast⟩

end Node

end StyleCascade
