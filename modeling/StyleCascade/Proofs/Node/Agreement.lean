/-
# StyleCascade.Proofs.Node.Agreement — what equal keys say of two nodes

A key leaves out of a node what its owner says an identity stands for. So equal keys do not make two nodes
equal; they make them agree on what is read of them, provided that nodes going by one identity in one
place agree on that.

A `Reading` is such a notion of agreement: it only has to follow from agreement of all parts. What is left
to the owners of nodes is `Reading.Admits`: keys are current, and an identity stands for one thing.
`Reading.agree_of_key_eq` then goes up the ancestors and down the subtree of a node by induction.
-/
import Mathlib.Data.List.Forall2
import StyleCascade.Node.Basic

namespace StyleCascade.Node

/-! ## Nodes without remembered keys -/

mutual

/-- The node, with no key remembered by it or by any node it holds. -/
def bare : Node → Node
  | ⟨traits, identity, ancestors, children, _⟩ =>
    ⟨traits, identity, bareAll ancestors, bareAll children, none⟩
termination_by structural n => n

/-- A list of nodes with no key remembered. -/
def bareAll : List Node → List Node
  | [] => []
  | n :: ns => n.bare :: bareAll ns
termination_by structural ns => ns

end

theorem bareAll_eq_map (ns : List Node) : bareAll ns = ns.map bare := by
  induction ns with
  | nil => rfl
  | cons n ns ih => rw [bareAll, ih, List.map_cons]

@[simp] theorem traits_bare (n : Node) : n.bare.traits = n.traits := by
  cases n
  rfl

@[simp] theorem ancestors_bare (n : Node) : n.bare.ancestors = n.ancestors.map bare := by
  cases n
  exact bareAll_eq_map _

@[simp] theorem children_bare (n : Node) : n.bare.children = n.children.map bare := by
  cases n
  exact bareAll_eq_map _

/-- Two nodes are the same but for remembered keys if all their parts are. -/
theorem bare_eq_iff (a b : Node) : a.bare = b.bare ↔
    a.traits = b.traits ∧ a.identity = b.identity ∧
      a.ancestors.map bare = b.ancestors.map bare ∧ a.children.map bare = b.children.map bare := by
  cases a
  cases b
  simp only [bare, mk.injEq, bareAll_eq_map, and_true]

/-! ## Keys of content -/

/-- The key of the content of a node, whatever it remembers. -/
def contentKey (n : Node) : NodeKey :=
  n.bare.key

/-- The keys of the content of the ancestors. -/
def contentKeysAbove (n : Node) : List NodeKey :=
  n.ancestors.map contentKey

/-- The key of a node is that of its content. -/
def IsCurrent (n : Node) : Prop :=
  n.key = n.contentKey

theorem contentKey_of_identity {n : Node} {identity : String} (h : n.identity = some identity) :
    n.contentKey = .ofIdentity (NodeKey.shorten n.contentKeysAbove) identity := by
  cases n with
  | mk traits identity' ancestors children remembered =>
      obtain rfl : identity' = some identity := h
      show key ⟨traits, some identity, bareAll ancestors, bareAll children, none⟩ = _
      rw [key, keys_eq_map, bareAll_eq_map, List.map_map]
      rfl

theorem contentKey_of_no_identity {n : Node} (h : n.identity = none) :
    n.contentKey =
      .ofContent (NodeKey.shorten n.contentKeysAbove) n.traits (n.children.map contentKey) := by
  cases n with
  | mk traits identity ancestors children remembered =>
      obtain rfl : identity = none := h
      show key ⟨traits, none, bareAll ancestors, bareAll children, none⟩ = _
      rw [key, keys_eq_map, keys_eq_map, bareAll_eq_map, bareAll_eq_map, List.map_map, List.map_map]
      rfl

/-- The keys of the ancestors can be read off the key of a node. -/
theorem ancestors_contentKey (n : Node) : n.contentKey.ancestors = n.contentKeysAbove := by
  cases hidentity : n.identity with
  | none => rw [contentKey_of_no_identity hidentity, NodeKey.ancestors, NodeKey.aboveKeys_shorten]
  | some identity => rw [contentKey_of_identity hidentity, NodeKey.ancestors, NodeKey.aboveKeys_shorten]

/-- Equal keys of content are keys of one kind: of one identity, or of equal traits and of children
with equal keys. -/
theorem contentKey_eq_iff (a b : Node) : a.contentKey = b.contentKey ↔
    a.identity = b.identity ∧ a.contentKeysAbove = b.contentKeysAbove ∧
      (a.identity = none →
        a.traits = b.traits ∧ a.children.map contentKey = b.children.map contentKey) := by
  -- a key shows whether there is an identity, so keys of different kinds are never equal
  cases ha : a.identity with
  | none =>
      cases hb : b.identity with
      | none =>
          rw [contentKey_of_no_identity ha, contentKey_of_no_identity hb, NodeKey.ofContent.injEq,
            NodeKey.shorten_inj]
          simp
      | some identity =>
          rw [contentKey_of_no_identity ha, contentKey_of_identity hb]
          simp
  | some identity =>
      cases hb : b.identity with
      | none =>
          rw [contentKey_of_identity ha, contentKey_of_no_identity hb]
          simp
      | some identity' =>
          rw [contentKey_of_identity ha, contentKey_of_identity hb, NodeKey.ofIdentity.injEq,
            NodeKey.shorten_inj]
          simp [and_comm]

/-! ## Agreement -/

/-- The nodes that are looked at when some nodes are styled: these, and whatever node is an ancestor or a
child of one that is looked at. -/
inductive Within (requested : Node → Prop) : Node → Prop
  | root {n : Node} : requested n → Within requested n
  | ancestor {n a : Node} : Within requested n → a ∈ n.ancestors → Within requested a
  | child {n child : Node} : Within requested n → child ∈ n.children → Within requested child

/-- What holds of the requested nodes, and of whatever a node of that kind holds, is so of all that is looked at. -/
theorem Within.induct {requested property : Node → Prop} (hrequested : ∀ n, requested n → property n)
    (hheld : ∀ n, property n → ∀ m, m ∈ n.ancestors ∨ m ∈ n.children → property m) {n : Node}
    (hn : Within requested n) : property n := by
  induction hn with
  | root hn => exact hrequested _ hn
  | ancestor _ ha ih => exact hheld _ ih _ (.inl ha)
  | child _ hc ih => exact hheld _ ih _ (.inr hc)

/-- Nodes that stand alone are all that is looked at. -/
theorem requested_of_within {requested : Node → Prop}
    (h : ∀ n, requested n → n.ancestors = [] ∧ n.children = []) {n : Node}
    (hn : Within requested n) : requested n := by
  refine hn.induct (fun _ => id) fun n hn m hm => ?_
  rw [(h n hn).1, (h n hn).2] at hm
  exact hm.elim (absurd · List.not_mem_nil) (absurd · List.not_mem_nil)

/-- Agreement of nodes on everything that is read of them. Nodes that agree have the same classes, and
nodes of equal traits and one identity agree when their ancestors and their children do. -/
structure Reading where
  /-- Two nodes agree. -/
  agree : Node → Node → Prop
  classes : ∀ {a b : Node}, agree a b → a.traits.classes = b.traits.classes
  ofParts : ∀ {a b : Node}, a.traits = b.traits → a.identity = b.identity →
    List.Forall₂ agree a.ancestors b.ancestors → List.Forall₂ agree a.children b.children → agree a b

namespace Reading

variable {reading : Reading} {requested : Node → Prop}

/-- The keys of the requested nodes are current, and an identity in one place stands for one thing:
nodes that go by it below ancestors of the same keys agree. -/
structure Admits (reading : Reading) (requested : Node → Prop) : Prop where
  current : ∀ n, requested n → n.IsCurrent
  identified : ∀ a b : Node, Within requested a → Within requested b →
    a.identity.isSome = true → a.identity = b.identity → a.contentKeysAbove = b.contentKeysAbove →
    reading.agree a b

mutual

/-- Nodes with equal keys of content agree. -/
theorem agree_of_contentKey_eq (h : reading.Admits requested) : ∀ a b : Node,
    Within requested a → Within requested b → a.contentKey = b.contentKey → reading.agree a b
  | ⟨traits, identity, ancestors, children, remembered⟩, b => fun ha hb hkey => by
    obtain ⟨hidentity, habove, hcontent⟩ := (contentKey_eq_iff _ b).mp hkey
    cases identity with
    -- what an identity stands for is up to the owner of the nodes
    | some name => exact h.identified _ b ha hb rfl hidentity habove
    | none =>
        -- no identity: everything the node shows is in its key
        obtain ⟨htraits, hchildren⟩ := hcontent rfl
        apply reading.ofParts htraits hidentity
        · exact agreeAll_of_contentKey_eq h ancestors b.ancestors (fun p hp => ha.ancestor hp)
            (fun p hp => hb.ancestor hp) habove
        · exact agreeAll_of_contentKey_eq h children b.children (fun c hc => ha.child hc)
            (fun c hc => hb.child hc) hchildren
termination_by structural a => a

theorem agreeAll_of_contentKey_eq (h : reading.Admits requested) : ∀ ns ns' : List Node,
    (∀ c ∈ ns, Within requested c) → (∀ c ∈ ns', Within requested c) →
    ns.map contentKey = ns'.map contentKey → List.Forall₂ reading.agree ns ns'
  | [], [] => fun _ _ _ => .nil
  | [], _ :: _ => fun _ _ hkey => absurd hkey (by simp)
  | _ :: _, [] => fun _ _ hkey => absurd hkey (by simp)
  | c :: cs, d :: ds => fun hc hd hkey => by
    rw [List.map_cons, List.map_cons, List.cons.injEq] at hkey
    rw [List.forall_mem_cons] at hc hd
    exact .cons (agree_of_contentKey_eq h c d hc.1 hd.1 hkey.1)
      (agreeAll_of_contentKey_eq h cs ds hc.2 hd.2 hkey.2)
termination_by structural ns => ns

end

/-- Requested nodes with equal keys agree. -/
theorem agree_of_key_eq (h : reading.Admits requested) {a b : Node} (ha : requested a)
    (hb : requested b) (hkey : a.key = b.key) : reading.agree a b := by
  apply agree_of_contentKey_eq h a b (.root ha) (.root hb)
  rw [← h.current a ha, ← h.current b hb, hkey]

theorem map_bare_of_forall₂ {ns ns' : List Node}
    (h : List.Forall₂ (fun a b => a.bare = b.bare) ns ns') : ns.map bare = ns'.map bare := by
  induction h with
  | nil => rfl
  | cons h _ ih => rw [List.map_cons, List.map_cons, h, ih]

/-- The closest reading: nodes agree when they are the same but for remembered keys. -/
def exact : Reading where
  agree a b := a.bare = b.bare
  classes := fun {a b} h => by
    rw [← traits_bare a, h, traits_bare]
  ofParts := fun {a b} htraits hidentity habove hbelow =>
    (bare_eq_iff a b).mpr
      ⟨htraits, hidentity, map_bare_of_forall₂ habove, map_bare_of_forall₂ hbelow⟩

end Reading

end StyleCascade.Node
