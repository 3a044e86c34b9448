/-
# StyleCascade.Proofs.Rule.Dependence — what it may depend on whether a rule applies

Of a node itself, selectors read its classes as a set, its attributes, its index and four of its flags
(`Traits.ShowsAs`); below it they read the same of every node, and in what order the children are makes no
difference. Nodes that correspond in all of that are `Alike`, and to be alike is a likeness (`likeness_alike`),
negation and nested searches notwithstanding.

A rule asks some ancestor for each entry of its chain, and never asks that there be none. So whether it applies
depends on what the ancestors are like, taken as a set, and more of them never make it stop to apply
(`Likeness.applies_of_applies`); nor does it matter in what order or how often the chain names its entries.
-/
import StyleCascade.Proofs.Rule.Malformed
import StyleCascade.Proofs.Selector.Likeness

namespace StyleCascade

/-! ## Nodes that correspond -/

/-- What selectors read of a node itself is the same. -/
structure Traits.ShowsAs (s t : Traits) : Prop where
  classes : ∀ name, name ∈ s.classes ↔ name ∈ t.classes
  attributes : s.attributes = t.attributes
  index : s.index = t.index
  isFirst : s.isFirst = t.isFirst
  isLast : s.isLast = t.isLast
  isOnlyChild : s.isOnlyChild = t.isOnlyChild
  isEmpty : s.isEmpty = t.isEmpty

theorem Traits.ShowsAs.refl (t : Traits) : t.ShowsAs t :=
  ⟨fun _ => Iff.rfl, rfl, rfl, rfl, rfl, rfl, rfl⟩

namespace Node

/-- Nodes that show selectors the same of themselves, and whose children correspond one to one in the same way, in
whatever order. -/
inductive Alike : Node → Node → Prop
  | intro {a b : Node} {children : List Node} : a.traits.ShowsAs b.traits →
      a.children.Perm children → List.Forall₂ Alike children b.children → Alike a b

mutual

theorem Alike.refl : ∀ n : Node, n.Alike n
  | ⟨traits, _, _, children, _⟩ => .intro (.refl traits) (.refl children) (forall₂_alike_refl children)
termination_by structural n => n

theorem forall₂_alike_refl : ∀ ns : List Node, List.Forall₂ Alike ns ns
  | [] => .nil
  | n :: ns => .cons (Alike.refl n) (forall₂_alike_refl ns)
termination_by structural ns => ns

end

/-- Nodes that correspond cannot be told apart by selectors. -/
theorem likeness_alike : Likeness Alike where
  classes hab name := by
    obtain ⟨hshows, -, -⟩ := hab
    unfold hasClass
    rw [Bool.eq_iff_iff, List.contains_iff_mem, List.contains_iff_mem]
    exact hshows.classes name
  attributes hab name := by
    obtain ⟨hshows, -, -⟩ := hab
    unfold attribute?
    rw [hshows.attributes]
  flags hab flag := by
    obtain ⟨hshows, -, -⟩ := hab
    cases flag with
    | firstChild => exact hshows.isFirst
    | lastChild => exact hshows.isLast
    | onlyChild => exact hshows.isOnlyChild
    | empty => exact hshows.isEmpty
  index hab := by
    obtain ⟨hshows, -, -⟩ := hab
    exact hshows.index
  forth hab c hc := by
    obtain ⟨-, hperm, hchildren⟩ := hab
    exact exists_left_of_forall₂ hchildren.flip (hperm.mem_iff.mp hc)
  back hab d hd := by
    obtain ⟨-, hperm, hchildren⟩ := hab
    obtain ⟨c, hc, hcd⟩ := exists_left_of_forall₂ hchildren hd
    exact ⟨c, hperm.mem_iff.mpr hc, hcd⟩

end Node

/-! ## Rules -/

variable {m : Type → Type}

/-- If a rule applies to a node, then so does every rule of the same selector whose chain asks for no more, to
every node that is like it and has ancestors like its own among the ancestors. -/
theorem Likeness.applies_of_applies {like : Node → Node → Prop} (h : Likeness like) {r r' : Rule m}
    (hselector : r.selector = r'.selector) (hchain : ∀ s ∈ r'.chain, s ∈ r.chain) {a b : Node}
    (hab : like a b) (habove : ∀ p ∈ a.ancestors, ∃ q ∈ b.ancestors, like p q)
    (ha : r.matchesNode a = true) : r'.matchesNode b = true := by
  unfold Rule.matchesNode at ha ⊢
  rw [Bool.and_eq_true, List.all_eq_true] at ha ⊢
  refine ⟨?_, fun s hs => ?_⟩
  · rw [← hselector, ← h.matchesNode_eq r.selector hab]
    exact ha.1
  · have hasked := ha.2 s (hchain s hs)
    rw [Bool.or_eq_true, List.any_eq_true] at hasked ⊢
    refine hasked.imp_right fun hfound => ?_
    obtain ⟨p, hp, hmatches⟩ := hfound
    obtain ⟨q, hq, hlike⟩ := habove p hp
    exact ⟨q, hq, (h.matchesNode_eq s hlike).symm.trans hmatches⟩

/-- Take two rules of the same selector whose chains name the same selectors, in whatever order and however often.

- On nodes that are alike, and whose ancestors are alike as sets, both apply or neither does.
- With ancestors added a rule that applied still applies.
- So it makes no difference in what order and how often the classes of a node or its ancestors are listed, in what
  order its children are, what the node and its siblings show otherwise, and what identity it goes by. -/
theorem Rule.applies_alike {r r' : Rule m} (hselector : r.selector = r'.selector)
    (hchain : ∀ s, s ∈ r.chain ↔ s ∈ r'.chain) :
    (∀ a b : Node, a.Alike b → (∀ p ∈ a.ancestors, ∃ q ∈ b.ancestors, p.Alike q) →
      (∀ q ∈ b.ancestors, ∃ p ∈ a.ancestors, p.Alike q) → r.matchesNode a = r'.matchesNode b) ∧
    (∀ a b : Node, a.Alike b → (∀ p ∈ a.ancestors, ∃ q ∈ b.ancestors, p.Alike q) →
      r.matchesNode a = true → r'.matchesNode b = true) ∧
    ∀ a b : Node, a.traits.ShowsAs b.traits → a.children.Perm b.children →
      (∀ p, p ∈ a.ancestors ↔ p ∈ b.ancestors) → r.matchesNode a = r'.matchesNode b := by
  have hgrows : ∀ a b : Node, a.Alike b → (∀ p ∈ a.ancestors, ∃ q ∈ b.ancestors, p.Alike q) →
      r.matchesNode a = true → r'.matchesNode b = true :=
    fun _ _ hab habove => Node.likeness_alike.applies_of_applies hselector (fun s => (hchain s).mpr) hab habove
  have hsame : ∀ a b : Node, a.Alike b → (∀ p ∈ a.ancestors, ∃ q ∈ b.ancestors, p.Alike q) →
      (∀ q ∈ b.ancestors, ∃ p ∈ a.ancestors, p.Alike q) → r.matchesNode a = r'.matchesNode b := by
    intro a b hab hforth hback
    refine Bool.eq_iff_iff.mpr ⟨hgrows a b hab hforth, ?_⟩
    -- the other way round, nodes that are alike are so from the side of the second one
    exact Node.likeness_alike.symm.applies_of_applies hselector.symm (fun s => (hchain s).mp) hab hback
  refine ⟨hsame, hgrows, fun a b hshows hperm habove => ?_⟩
  refine hsame a b (.intro hshows hperm (Node.forall₂_alike_refl _)) (fun p hp => ?_) fun q hq => ?_
  · exact ⟨p, (habove p).mp hp, .refl p⟩
  · exact ⟨q, (habove q).mpr hq, .refl q⟩

/-- The item is styled below another list and page just the same: there the list is the outer one of the two, the item
has its classes in another order and one of them twice, it has more siblings, and it goes by an identity. A node
above all of these does not change that either. -/
theorem Rule.applies_alike_item :
    let item := Selector.ofString "item:not(:has(icon))"
    let page := Selector.ofString "page"
    let list := Selector.ofString "list"
    let r : Rule Id := ⟨item, [page, list], .zero, .fixed .empty⟩
    let r' : Rule Id := ⟨item, [list, page, list], .zero, .fixed .empty⟩
    let pageNode := Node.ofClasses ["page"]
    let listNode := Node.ofClasses ["list"]
    let a := ((Node.ofClasses ["item", "new"]).placedAt 2 3).within (listNode.within pageNode)
    let b := (((Node.ofClasses ["new", "item", "new"]).placedAt 2 4).withIdentity "row-7").within
      (pageNode.within listNode)
    let c := a.within (listNode.within (pageNode.within (Node.ofClasses ["app"])))
    a.Alike b ∧ r.matchesNode a = true ∧ r'.matchesNode b = true ∧ r'.matchesNode c = true := by
  intro item page list r r' pageNode listNode a b c
  have hchain : ∀ s, s ∈ r.chain ↔ s ∈ r'.chain := by
    intro s
    show s ∈ [page, list] ↔ s ∈ [list, page, list]
    simp only [List.mem_cons, List.not_mem_nil, or_false]
    tauto
  have hselector : r.selector = r'.selector := rfl
  obtain ⟨hsame, hgrows, -⟩ := Rule.applies_alike hselector hchain
  have hab : a.Alike b := by
    refine .intro ⟨fun name => ?_, rfl, rfl, rfl, rfl, rfl, rfl⟩ (.refl []) .nil
    show name ∈ ["*", "item", "new"] ↔ name ∈ ["*", "new", "item", "new"]
    simp only [List.mem_cons, List.not_mem_nil, or_false]
    tauto
  -- a node without children is like every other one that shows the same
  have hleaf : ∀ n p : Node, n.traits = p.traits → n.children = [] → p.children = [] → n.Alike p := by
    intro n p htraits hn hp
    exact .intro (htraits ▸ .refl _) (.refl _) (by rw [hn, hp]; exact .nil)
  have hforth : ∀ p ∈ a.ancestors, ∃ q ∈ b.ancestors, p.Alike q := by
    show ∀ p ∈ [pageNode, listNode.within pageNode], ∃ q ∈ [listNode, pageNode.within listNode], p.Alike q
    rw [List.forall_mem_cons, List.forall_mem_singleton]
    exact ⟨⟨_, List.mem_cons_of_mem _ List.mem_cons_self, hleaf _ _ rfl rfl rfl⟩,
      ⟨_, List.mem_cons_self, hleaf _ _ rfl rfl rfl⟩⟩
  have hback : ∀ q ∈ b.ancestors, ∃ p ∈ a.ancestors, p.Alike q := by
    show ∀ q ∈ [listNode, pageNode.within listNode], ∃ p ∈ [pageNode, listNode.within pageNode], p.Alike q
    rw [List.forall_mem_cons, List.forall_mem_singleton]
    exact ⟨⟨_, List.mem_cons_of_mem _ List.mem_cons_self, hleaf _ _ rfl rfl rfl⟩,
      ⟨_, List.mem_cons_self, hleaf _ _ rfl rfl rfl⟩⟩
  have hadded : ∀ p ∈ a.ancestors, ∃ q ∈ c.ancestors, p.Alike q := by
    let app := Node.ofClasses ["app"]
    show ∀ p ∈ [pageNode, listNode.within pageNode],
      ∃ q ∈ [app, pageNode.within app, listNode.within (pageNode.within app)], p.Alike q
    rw [List.forall_mem_cons, List.forall_mem_singleton]
    exact ⟨⟨_, List.mem_cons_of_mem _ List.mem_cons_self, hleaf _ _ rfl rfl rfl⟩,
      ⟨_, List.mem_cons_of_mem _ (List.mem_cons_of_mem _ List.mem_cons_self), hleaf _ _ rfl rfl rfl⟩⟩
  have happlies : r.matchesNode a = true := by decide +kernel
  exact ⟨hab, happlies, (hsame a b hab hforth hback).symm.trans happlies,
    hgrows a c (hleaf a c rfl rfl rfl) hadded happlies⟩

end StyleCascade
