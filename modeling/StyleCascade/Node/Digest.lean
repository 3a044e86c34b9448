/-
# StyleCascade.Node.Digest — keys as digests

A key may be kept as a digest: a hash of the digests of the ancestors and of either the identity or
everything the node shows of itself together with the digests of its children (`message`). How the items
of a message are hashed is left open; `FxHash` is one way.

The digest of a node is computed anew (`Node.digest`), or it is read off the node (`Node.readDigest`): a
node that remembers its key has the digest of that key (`NodeKey.digest`), and the digest of any other is
put together from what is read off each of its ancestors and children.
-/
import StyleCascade.Node.Basic

namespace StyleCascade

/-! ## Items -/

/-- What a hash is fed with: a word, or the bytes of a text. -/
inductive HashItem where
  | word (value : Nat)
  | text (content : String)
deriving DecidableEq

/-- A hash of a sequence of items. -/
abbrev Hash : Type :=
  List HashItem → UInt64

namespace HashItem

/-- A flag as a word. -/
def ofFlag (flag : Bool) : HashItem :=
  .word flag.toNat

/-- A digest as a word. -/
def ofDigest (digest : UInt64) : HashItem :=
  .word digest.toNat

/-- A value: a word for its kind, and then its text or its bits. -/
def ofValue : Value → List HashItem
  | .text content => [.word 0, .text content]
  | .number content => [.word 1, .word content.bits.toNat]

/-- The members of a list with their number in front. -/
def counted {α : Type} (write : α → List HashItem) (l : List α) : List HashItem :=
  .word l.length :: l.flatMap write

/-- A list of class tokens. -/
def ofClasses (classes : List String) : List HashItem :=
  counted (fun name => [.text name]) classes

/-- A property: its name and its value. -/
def ofProperty (property : String × Value) : List HashItem :=
  .text property.1 :: ofValue property.2

/-- Properties in the order of their names. -/
def ofProperties (properties : Declaration) : List HashItem :=
  counted ofProperty properties.entries

/-- Digests one after the other. -/
def ofDigests (digests : List UInt64) : List HashItem :=
  counted (fun digest => [ofDigest digest]) digests

/-- The positional flags of a node. -/
def ofFlags (traits : Traits) : List HashItem :=
  counted (fun flag => [ofFlag flag]) [traits.isFirst, traits.isLast, traits.isOdd, traits.isEven,
    traits.isEmpty, traits.isOnlyChild]

/-- Everything a node shows of itself. -/
def ofTraits (traits : Traits) : List HashItem :=
  .word traits.index :: .word traits.count :: (ofFlags traits ++ (ofClasses traits.classes ++
    (ofProperties traits.attributes ++ (counted ofClasses traits.siblingClasses ++
      counted ofProperties traits.siblingAttributes))))

/-- A node: the digests of its ancestors, and then its identity or its traits with the digests of its
children. -/
def message (above : List UInt64) (identity : Option String) (traits : Traits) (below : List UInt64) :
    List HashItem :=
  ofDigests above ++
    match identity with
    | some name => [ofFlag true, .text name]
    | none => ofFlag false :: (ofTraits traits ++ ofDigests below)

end HashItem

/-! ## A hash

The multiplicative hash of `FxHasher` on 64-bit words: every word is added to the state, which is then
multiplied, and a text enters as one word made from its bytes.
-/

namespace FxHash

/-- A word is added to the state, which is then multiplied. -/
def feedWord (state word : UInt64) : UInt64 :=
  (state + word) * 0xf1357aea2e62a9c5

/-- The halves of the product of two words, one laid over the other. -/
def foldedProduct (x y : UInt64) : UInt64 :=
  UInt64.ofNat (x.toNat * y.toNat) ^^^ UInt64.ofNat (x.toNat * y.toNat >>> 64)

/-- Bytes as a word, the lowest byte first. -/
def wordOf (bytes : List UInt8) : UInt64 :=
  bytes.foldr (fun byte word => word * 256 + byte.toUInt64) 0

/-- The bytes at both ends of a text as two words, which overlap in a short text. -/
def ends (bytes : List UInt8) : UInt64 × UInt64 :=
  let size := bytes.length
  if 16 < size then
    (wordOf ((bytes.drop (size - 16)).take 8), wordOf (bytes.drop (size - 8)))
  else if 8 ≤ size then
    (wordOf (bytes.take 8), wordOf (bytes.drop (size - 8)))
  else if 4 ≤ size then
    (wordOf (bytes.take 4), wordOf (bytes.drop (size - 4)))
  else if 0 < size then
    (wordOf (bytes.take 1), wordOf ((bytes.drop (size / 2)).take 1 ++ bytes.drop (size - 1)))
  else (0, 0)

/-- Two words of state after a block of sixteen bytes. -/
def feedBlock (bytes : List UInt8) (state : UInt64 × UInt64) (block : Nat) : UInt64 × UInt64 :=
  let x := wordOf ((bytes.drop (16 * block)).take 8)
  let y := wordOf ((bytes.drop (16 * block + 8)).take 8)
  (state.2, foldedProduct (state.1 ^^^ x) (0xa4093822299f31d0 ^^^ y))

/-- The bytes of a text as one word. -/
def ofBytes (bytes : List UInt8) : UInt64 :=
  let state := (List.range ((bytes.length - 1) / 16)).foldl (feedBlock bytes)
    (0x243f6a8885a308d3, 0x13198a2e03707344)
  foldedProduct (state.1 ^^^ (ends bytes).1) (state.2 ^^^ (ends bytes).2) ^^^
    UInt64.ofNat bytes.length

/-- An item is added to the state; a text ends with a byte that no text has. -/
def feed (state : UInt64) : HashItem → UInt64
  | .word value => feedWord state (UInt64.ofNat value)
  | .text content => feedWord (feedWord state (ofBytes content.toUTF8.toList)) 0xff

/-- The state after all items, rotated by 26 places. -/
def hash (items : List HashItem) : UInt64 :=
  let state := items.foldl feed 0
  state <<< 26 ||| state >>> 38

end FxHash

/-! ## Digests -/

namespace NodeKey

mutual

/-- The digest that a key stands for. -/
def digest (hash : Hash) : NodeKey → UInt64
  | .ofIdentity above identity =>
    hash (HashItem.message (digestsAbove hash above) (some identity) {} [])
  | .ofContent above traits children =>
    hash (HashItem.message (digestsAbove hash above) none traits (digests hash children))
termination_by structural k => k

/-- The digests that the keys of ancestors stand for, root first. -/
def digestsAbove (hash : Hash) : KeysAbove NodeKey → List UInt64
  | .nothing => []
  | .lineage (.ofIdentity above identity) =>
    digestsAbove hash above ++ [digest hash (.ofIdentity above identity)]
  | .lineage (.ofContent above traits children) =>
    digestsAbove hash above ++ [digest hash (.ofContent above traits children)]
  | .listed keys => digests hash keys
termination_by structural above => above

/-- The digests that some keys stand for. -/
def digests (hash : Hash) : List NodeKey → List UInt64
  | [] => []
  | k :: ks => digest hash k :: digests hash ks
termination_by structural ks => ks

end

theorem digests_eq_map (hash : Hash) (ks : List NodeKey) : digests hash ks = ks.map (digest hash) := by
  induction ks with
  | nil => rfl
  | cons k ks ih => rw [digests, ih, List.map_cons]

mutual

theorem digestsAbove_lineage (hash : Hash) : ∀ parent : NodeKey,
    digestsAbove hash (.lineage parent) = (parent.ancestors ++ [parent]).map (digest hash)
  | .ofIdentity above identity => by
    rw [digestsAbove, digestsAbove_eq_map hash above, ancestors, List.map_append, List.map_singleton]
  | .ofContent above traits children => by
    rw [digestsAbove, digestsAbove_eq_map hash above, ancestors, List.map_append, List.map_singleton]
termination_by structural parent => parent

/-- The digests of ancestors are those of all their keys, one after the other. -/
theorem digestsAbove_eq_map (hash : Hash) : ∀ above : KeysAbove NodeKey,
    digestsAbove hash above = (aboveKeys above).map (digest hash)
  | .nothing => rfl
  | .lineage parent => digestsAbove_lineage hash parent
  | .listed keys => digests_eq_map hash keys
termination_by structural above => above

end

end NodeKey

namespace Node

mutual

/-- The digest of a node, computed anew whatever keys are remembered. -/
def digest (hash : Hash) : Node → UInt64
  | ⟨traits, identity, ancestors, children, _⟩ =>
    hash (HashItem.message (digests hash ancestors) identity traits (digests hash children))
termination_by structural n => n

/-- The digests of a list of nodes. -/
def digests (hash : Hash) : List Node → List UInt64
  | [] => []
  | n :: ns => digest hash n :: digests hash ns
termination_by structural ns => ns

end

mutual

/-- The digest that is read off a node: that of the remembered key, or else one that is put together from those
that are read off each of its ancestors and children. -/
def readDigest (hash : Hash) : Node → UInt64
  | ⟨_, _, _, _, some remembered⟩ => remembered.digest hash
  | ⟨traits, identity, ancestors, children, none⟩ =>
    hash (HashItem.message (readDigests hash ancestors) identity traits (readDigests hash children))
termination_by structural n => n

/-- The digests that are read off some nodes. -/
def readDigests (hash : Hash) : List Node → List UInt64
  | [] => []
  | n :: ns => readDigest hash n :: readDigests hash ns
termination_by structural ns => ns

end

/-- The items a node is hashed from. -/
def message (hash : Hash) (n : Node) : List HashItem :=
  HashItem.message (n.ancestors.map (digest hash)) n.identity n.traits (n.children.map (digest hash))

theorem digests_eq_map (hash : Hash) (ns : List Node) : digests hash ns = ns.map (digest hash) := by
  induction ns with
  | nil => rfl
  | cons n ns ih => rw [digests, ih, List.map_cons]

theorem readDigests_eq_map (hash : Hash) (ns : List Node) :
    readDigests hash ns = ns.map (readDigest hash) := by
  induction ns with
  | nil => rfl
  | cons n ns ih => rw [readDigests, ih, List.map_cons]

/-- The digest of a node is the hash of its message. -/
theorem digest_eq_hash (hash : Hash) (n : Node) : n.digest hash = hash (n.message hash) := by
  unfold message
  rw [← digests_eq_map, ← digests_eq_map]
  cases n
  rw [digest]

end Node

end StyleCascade
