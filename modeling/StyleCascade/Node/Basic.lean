/-
# StyleCascade.Node.Basic — nodes of the styled tree

A node carries its traits, an optional identity, its ancestors and its children. Nodes are values: what
a node holds as ancestors or children is a copy that later edits elsewhere do not reach.

The list of ancestors is a field of its own. A node that is put below another by `within` has that node
and the ancestors of that node in it; where the field is written directly, any nodes may stand there,
whatever ancestors they have themselves.

A node may also remember its key. The builders below drop the remembered key; a field that is
edited in place keeps it, and then the key stays what it was until `forgetKey`.

Main statement: `key_remember` says that remembering a key does not change it.
-/
import StyleCascade.Node.Key

namespace StyleCascade

/-- A node of the styled tree. -/
structure Node where
  /-- The node's own observable facts. -/
  traits : Traits := {}
  /-- A name that stands for the node's own facts in its key. -/
  identity : Option String := none
  /-- The nodes above this one, root first. -/
  ancestors : List Node := []
  /-- The nodes below this one. -/
  children : List Node := []
  /-- The key remembered from an earlier reading. -/
  rememberedKey : Option NodeKey := none

namespace Node

/-! ## What a node shows -/

/-- The class tokens of the ancestors, root first. -/
def ancestorClasses (n : Node) : List (List String) :=
  n.ancestors.map fun a => a.traits.classes

/-- The attributes of the ancestors, root first. -/
def ancestorAttributes (n : Node) : List Declaration :=
  n.ancestors.map fun a => a.traits.attributes

/-- The node carries a class token. -/
def hasClass (n : Node) (name : String) : Bool :=
  n.traits.classes.contains name

/-- The value of an attribute. -/
def attribute? (n : Node) (name : String) : Option Value :=
  n.traits.attributes.get? name

/-! ## Keys -/

mutual

/-- The key of a node: the remembered one if there is one, else the key of its content. -/
def key : Node → NodeKey
  | ⟨_, _, _, _, some remembered⟩ => remembered
  | ⟨_, some identity, ancestors, _, none⟩ => .ofIdentity (NodeKey.shorten (keys ancestors)) identity
  | ⟨traits, none, ancestors, children, none⟩ =>
    .ofContent (NodeKey.shorten (keys ancestors)) traits (keys children)
termination_by structural n => n

/-- The keys of a list of nodes. -/
def keys : List Node → List NodeKey
  | [] => []
  | n :: ns => n.key :: keys ns
termination_by structural ns => ns

end

/-- The node with its key remembered. -/
def remember (n : Node) : Node :=
  { n with rememberedKey := some n.key }

/-- The node without a remembered key. -/
def forgetKey (n : Node) : Node :=
  { n with rememberedKey := none }

/-- Remembering the key does not change it. -/
theorem key_remember (n : Node) : n.remember.key = n.key := by
  simp [remember, key]

/-- The key of a list of nodes is the list of their keys. -/
theorem keys_eq_map (ns : List Node) : keys ns = ns.map key := by
  induction ns with
  | nil => rfl
  | cons n ns ih => simp [keys, ih]

mutual

/-- A copy that may be edited freely: neither it nor the copies of its children remember a key. -/
def copy : Node → Node
  | ⟨traits, identity, ancestors, children, _⟩ =>
    ⟨traits, identity, ancestors, copies children, none⟩
termination_by structural n => n

/-- Copies of a list of nodes. -/
def copies : List Node → List Node
  | [] => []
  | n :: ns => n.copy :: copies ns
termination_by structural ns => ns

end

/-! ## Builders -/

/-- The node at a position among a number of siblings, with the positional flags to match. -/
def placedAt (n : Node) (index count : Nat) : Node :=
  let traits := { n.traits with
    index := index
    count := count
    isFirst := index == 1
    isLast := index == count
    isOdd := index % 2 == 1
    isEven := index % 2 == 0
    isOnlyChild := count == 1 }
  { n with traits := traits }.forgetKey

/-- A lone node with the given classes. The universal class is put first unless it is among them. -/
def ofClasses (classes : List String) : Node :=
  let classes := if universalClass ∈ classes then classes else universalClass :: classes
  placedAt { traits := { classes := classes } } 1 1

/-- The node below a parent: it has the parent's ancestors and then the parent. -/
def within (n parent : Node) : Node :=
  { n with ancestors := parent.ancestors ++ [parent] }.forgetKey

/-- The node with one attribute set. -/
def withAttribute (n : Node) (name : String) (value : Value) : Node :=
  { n with traits := { n.traits with
    attributes := n.traits.attributes.set name value } }.forgetKey

/-- The node with further attributes, which win over those it has. -/
def withAttributes (n : Node) (attributes : Declaration) : Node :=
  { n with traits := { n.traits with
    attributes := n.traits.attributes.merge attributes } }.forgetKey

/-- The node with other children, and the flag for having none to match. -/
def withChildren (n : Node) (children : List Node) : Node :=
  { n with
    traits := { n.traits with isEmpty := children.isEmpty }
    children := children }.forgetKey

/-- The node among siblings that show their classes and attributes. -/
def withSiblings (n : Node) (siblings : List Node) : Node :=
  { n with traits := { n.traits with
    siblingClasses := siblings.map fun (s : Node) => s.traits.classes
    siblingAttributes := siblings.map fun (s : Node) => s.traits.attributes } }.forgetKey

/-- The node going by an identity. -/
def withIdentity (n : Node) (identity : String) : Node :=
  { n with identity := some identity }.forgetKey

/-- A chain of nodes, root first: each is put below the one before it, whose key is read by then. -/
def chain? : List Node → Option Node
  | [] => none
  | root :: rest => some (rest.foldl (fun above n => n.within above.remember) root)

/-- The node below the last of a chain of nodes; an empty chain changes nothing. -/
def withinAll (n : Node) (parents : List Node) : Node :=
  match chain? parents with
  | none => n
  | some parent => n.within parent.remember

end Node

end StyleCascade
