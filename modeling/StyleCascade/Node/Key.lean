/-
# StyleCascade.Node.Key — what stands for a node in a memo

A key stands for everything a selector or a dynamic style may observe about a node: the keys of
its ancestors, and either the identity its owner gave it or its own traits together with the keys of
its children. Keys are compared structurally, so two nodes have one key exactly when they agree in all
of that.

The keys of ancestors are kept short where the ancestors are a lineage: the key of the parent has those
further up in it already. Without that a key would double in size with every ancestor.

Main statement: `NodeKey.aboveKeys_shorten` says that any list of keys can be read off its short form again.
-/
import StyleCascade.Node.Traits

namespace StyleCascade

/-- The keys of the ancestors of a node, in short. -/
inductive KeysAbove (Key : Type) where
  /-- There are no ancestors. -/
  | nothing
  /-- The last ancestor has this key, and the others are its own ancestors. -/
  | lineage (parent : Key)
  /-- The ancestors have these keys, root first. -/
  | listed (keys : List Key)

/-- The key of a node. -/
inductive NodeKey where
  /-- A node that goes by an identity below ancestors with the keys `above`. -/
  | ofIdentity (above : KeysAbove NodeKey) (identity : String)
  /-- A node that goes by its traits and its children's keys below ancestors with the keys `above`. -/
  | ofContent (above : KeysAbove NodeKey) (traits : Traits) (children : List NodeKey)

namespace NodeKey

/-! ## Comparison -/

mutual

/-- Keys are equal or not. -/
def decEq : (a b : NodeKey) → Decidable (a = b)
  | ofIdentity _ _, ofContent _ _ _ => .isFalse (by simp)
  | ofContent _ _ _, ofIdentity _ _ => .isFalse (by simp)
  | ofIdentity above identity, ofIdentity above' identity' =>
    if hi : identity = identity' then
      match decEqAbove above above' with
      | .isTrue ha => .isTrue (by rw [hi, ha])
      | .isFalse ha => .isFalse (by simp [ha])
    else .isFalse (by simp [hi])
  | ofContent above traits children, ofContent above' traits' children' =>
    if ht : traits = traits' then
      match decEqAbove above above' with
      | .isFalse ha => .isFalse (by simp [ha])
      | .isTrue ha =>
        match decEqAll children children' with
        | .isTrue hc => .isTrue (by rw [ht, ha, hc])
        | .isFalse hc => .isFalse (by simp [hc])
    else .isFalse (by simp [ht])
termination_by structural a => a

/-- Keys of ancestors are the same in short or not. -/
def decEqAbove : (a b : KeysAbove NodeKey) → Decidable (a = b)
  | .nothing, .nothing => .isTrue rfl
  | .nothing, .lineage _ => .isFalse (by simp)
  | .nothing, .listed _ => .isFalse (by simp)
  | .lineage _, .nothing => .isFalse (by simp)
  | .lineage parent, .lineage parent' =>
    match decEq parent parent' with
    | .isTrue h => .isTrue (by rw [h])
    | .isFalse h => .isFalse (by simp [h])
  | .lineage _, .listed _ => .isFalse (by simp)
  | .listed _, .nothing => .isFalse (by simp)
  | .listed _, .lineage _ => .isFalse (by simp)
  | .listed keys, .listed keys' =>
    match decEqAll keys keys' with
    | .isTrue h => .isTrue (by rw [h])
    | .isFalse h => .isFalse (by simp [h])
termination_by structural a => a

/-- Lists of keys are equal or not. -/
def decEqAll : (as bs : List NodeKey) → Decidable (as = bs)
  | [], [] => .isTrue rfl
  | [], _ :: _ => .isFalse (by simp)
  | _ :: _, [] => .isFalse (by simp)
  | a :: as, b :: bs =>
    match decEq a b with
    | .isFalse h => .isFalse (by simp [h])
    | .isTrue h =>
      match decEqAll as bs with
      | .isTrue hs => .isTrue (by rw [h, hs])
      | .isFalse hs => .isFalse (by simp [hs])
termination_by structural as => as

end

instance : DecidableEq NodeKey := decEq

/-! ## Keys of ancestors -/

mutual

/-- The keys of the ancestors of the node that a key stands for, root first. -/
def ancestors : NodeKey → List NodeKey
  | ofIdentity above _ => aboveKeys above
  | ofContent above _ _ => aboveKeys above
termination_by structural k => k

/-- The keys that are given in short, root first. -/
def aboveKeys : KeysAbove NodeKey → List NodeKey
  | .nothing => []
  | .lineage parent => parent.ancestors ++ [parent]
  | .listed keys => keys
termination_by structural above => above

end

/-- A list of keys in short. -/
def shorten (keys : List NodeKey) : KeysAbove NodeKey :=
  match keys.getLast? with
  | none => .nothing
  | some parent => if parent.ancestors ++ [parent] = keys then .lineage parent else .listed keys

/-- The keys can be read off their short form. -/
@[simp] theorem aboveKeys_shorten (keys : List NodeKey) : aboveKeys (shorten keys) = keys := by
  unfold shorten
  split
  · next hnone => exact (List.getLast?_eq_none_iff.mp hnone).symm
  · split
    · next hlineage => exact hlineage
    · rfl

/-- Lists of keys are equal if they are so in short. -/
theorem shorten_inj {keys keys' : List NodeKey} : shorten keys = shorten keys' ↔ keys = keys' := by
  constructor
  · intro h
    rw [← aboveKeys_shorten keys, h, aboveKeys_shorten]
  · exact congrArg shorten

end NodeKey

end StyleCascade
