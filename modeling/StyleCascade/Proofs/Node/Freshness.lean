/-
# StyleCascade.Proofs.Node.Freshness — remembered keys that never go stale

A key is remembered where it is read: by the node, and by the ancestors and children whose keys went into it. It
is not read off the node again until it is forgotten. Builders forget it and copies never had it, but a field that
is written directly leaves it in place, so whoever writes one has to reset the key before it is read next.

`Disciplined` lists what may be done to a node by those who keep to that, and it asks the same of every node that
becomes an ancestor or a child. Any list of such nodes may be written as the ancestors, whatever they stand below
themselves. What the discipline keeps is `Coherent`: whatever key is remembered, by the node or by any node it
holds, is the key of the content as it is now (`Disciplined.coherent`). A key that is put together from remembered
keys is then the key of a node that was built in one go and never read (`key_is_fresh`), and so is a digest, which
is put together from what every single ancestor and child remembers.
-/
import StyleCascade.Proofs.Node.Building
import StyleCascade.Proofs.Node.Digest

namespace StyleCascade

namespace Node

/-! ## What may be done to a node -/

/-- The other node is an ancestor or a child. -/
def Holds (n other : Node) : Prop :=
  other ∈ n.ancestors ∨ other ∈ n.children

/-- A key is read: that of the node, or that of a node held by it, in which case the node then holds one that
remembers its key. The key of a node is put together by reading those of its ancestors and children one after the
other. -/
inductive Reads : Node → Node → Prop
  | own (n : Node) : Reads n n.remember
  | ofAncestor {n p q : Node} {before after : List Node} :
      n.ancestors = before ++ p :: after → Reads p q → Reads n { n with ancestors := before ++ q :: after }
  | ofChild {n c d : Node} {before after : List Node} :
      n.children = before ++ c :: after → Reads c d → Reads n { n with children := before ++ d :: after }

/-- The nodes that a builder puts above or below a node. The ancestors of a parent come with it, and what siblings
show is copied from them. -/
def Builder.supplied : Builder → List Node
  | within parent => [parent]
  | withChildren children => children
  | placedAt _ _ => []
  | withAttribute _ _ => []
  | withAttributes _ => []
  | withSiblings _ => []
  | withIdentity _ => []
  | copy => []

/-- The direct writing of a field. -/
inductive Edit where
  | ofTraits (traits : Traits)
  | ofIdentity (identity : Option String)
  | ofAncestors (ancestors : List Node)
  | ofChildren (children : List Node)

/-- The node with the field written; a key that it remembers stays. -/
def Edit.apply : Edit → Node → Node
  | ofTraits traits, n => { n with traits := traits }
  | ofIdentity identity, n => { n with identity := identity }
  | ofAncestors ancestors, n => { n with ancestors := ancestors }
  | ofChildren children, n => { n with children := children }

/-- The nodes that are put above or below a node when a field is written. -/
def Edit.supplied : Edit → List Node
  | ofTraits _ => []
  | ofIdentity _ => []
  | ofAncestors ancestors => ancestors
  | ofChildren children => children

/-- Nodes that come about with care for remembered keys. A node is `edited` from when a field of it is written until
its key is dropped. In that time its own key is not read, and it is not put above or below another node; keys of
the nodes it holds may be read, as others can hold them too. -/
inductive Disciplined : (edited : Bool) → Node → Prop
  | new (classes : List String) : Disciplined false (ofClasses classes)
  | build {edited : Bool} {n : Node} (builder : Builder) : Disciplined edited n →
      (∀ s ∈ builder.supplied, Disciplined false s) → Disciplined false (builder.apply n)
  | edit {edited : Bool} {n : Node} (edit : Edit) : Disciplined edited n →
      (∀ s ∈ edit.supplied, Disciplined false s) → Disciplined true (edit.apply n)
  | reset {edited : Bool} {n : Node} : Disciplined edited n → Disciplined false n.forgetKey
  | read {edited : Bool} {n after : Node} : Disciplined edited n → Reads n after →
      (edited = true → after.rememberedKey = n.rememberedKey) → Disciplined edited after
  | held {edited : Bool} {n other : Node} : Disciplined edited n → n.Holds other → Disciplined false other

/-! ## Coherence -/

/-- Whatever key is remembered, by the node or by a node it holds, is the key of the content. -/
inductive Coherent : Node → Prop
  | intro {n : Node} : (∀ k, n.rememberedKey = some k → k = n.contentKey) →
      (∀ other, n.Holds other → Coherent other) → Coherent n

variable {n : Node}

theorem Coherent.held (h : n.Coherent) : ∀ other, n.Holds other → other.Coherent := by
  cases h with
  | intro _ hheld => exact hheld

/-- A node that remembers nothing is coherent if those are that it holds. -/
theorem coherent_of_forgotten (hforgotten : n.rememberedKey = none)
    (hheld : ∀ other, n.Holds other → other.Coherent) : n.Coherent := by
  refine .intro (fun k hk => ?_) hheld
  rw [hforgotten] at hk
  exact absurd hk (by simp)

/-- A key that is not remembered is put together from the keys of ancestors and children. -/
theorem key_of_forgotten (hforgotten : n.rememberedKey = none)
    (hheld : ∀ other, n.Holds other → other.IsCurrent) : n.IsCurrent := by
  have habove : n.ancestors.map key = n.contentKeysAbove :=
    List.map_congr_left fun p hp => hheld p (.inl hp)
  have hbelow : n.children.map key = n.children.map contentKey :=
    List.map_congr_left fun c hc => hheld c (.inr hc)
  unfold IsCurrent
  obtain ⟨traits, identity, ancestors, children, remembered⟩ := n
  obtain rfl : remembered = none := hforgotten
  cases identity with
  | none => rw [contentKey_of_no_identity rfl, ← habove, ← hbelow, key, keys_eq_map, keys_eq_map]
  | some identity => rw [contentKey_of_identity rfl, ← habove, key, keys_eq_map]

/-- The key of a coherent node is that of its content. -/
theorem Coherent.isCurrent (h : n.Coherent) : n.IsCurrent := by
  induction h with
  | @intro n hremembered _ ih =>
      cases hkey : n.rememberedKey with
      | none => exact key_of_forgotten hkey ih
      | some k =>
          have hread : n.key = k := by
            cases n
            obtain rfl : _ = some k := hkey
            rw [key]
          rw [IsCurrent, hread]
          exact hremembered k hkey

/-! ## What each step keeps -/

theorem bare_eq_of_parts {a b : Node} (htraits : a.traits = b.traits) (hidentity : a.identity = b.identity)
    (habove : a.ancestors.map bare = b.ancestors.map bare)
    (hbelow : a.children.map bare = b.children.map bare) : a.bare = b.bare :=
  (bare_eq_iff a b).mpr ⟨htraits, hidentity, habove, hbelow⟩

theorem map_bare_replace {c d : Node} (h : d.bare = c.bare) (before after : List Node) :
    (before ++ d :: after).map bare = (before ++ c :: after).map bare := by
  rw [List.map_append, List.map_append, List.map_cons, List.map_cons, h]

/-- Reading keys changes nothing but what is remembered. -/
theorem Reads.bare_eq {after : Node} (h : Reads n after) : after.bare = n.bare := by
  induction h with
  | own n => exact bare_eq_of_parts rfl rfl rfl rfl
  | @ofAncestor n p q before after hsplit _ ih =>
      refine bare_eq_of_parts rfl rfl ?_ rfl
      rw [hsplit]
      exact map_bare_replace ih before after
  | @ofChild n c d before after hsplit _ ih =>
      refine bare_eq_of_parts rfl rfl rfl ?_
      rw [hsplit]
      exact map_bare_replace ih before after

/-- What is held after keys are read was held before, perhaps with fewer of them remembered. -/
theorem Reads.holds_cases {after other : Node} (h : Reads n after) (hother : after.Holds other) :
    n.Holds other ∨ ∃ earlier, n.Holds earlier ∧ Reads earlier other := by
  cases h with
  | own => exact .inl hother
  | @ofAncestor _ p q before after hsplit hreads =>
      rcases hother with hother | hother
      · rcases mem_replace_cases hother with rfl | hother
        · exact .inr ⟨p, .inl (hsplit ▸ List.mem_append_right _ List.mem_cons_self), hreads⟩
        · exact .inl (.inl (hsplit ▸ hother))
      · exact .inl (.inr hother)
  | @ofChild _ c d before after hsplit hreads =>
      rcases hother with hother | hother
      · exact .inl (.inl hother)
      · rcases mem_replace_cases hother with rfl | hother
        · exact .inr ⟨c, .inr (hsplit ▸ List.mem_append_right _ List.mem_cons_self), hreads⟩
        · exact .inl (.inr (hsplit ▸ hother))

/-- The key that a node remembers after keys are read is the one it remembered before, or its key. -/
theorem Reads.rememberedKey_cases {after : Node} (h : Reads n after) :
    after.rememberedKey = n.rememberedKey ∨ after.rememberedKey = some n.key := by
  cases h with
  | own => exact .inr rfl
  | ofAncestor _ _ => exact .inl rfl
  | ofChild _ _ => exact .inl rfl

/-- Reading keys of coherent nodes leaves them coherent. -/
theorem Coherent.reads (h : n.Coherent) : ∀ {after : Node}, Reads n after → after.Coherent := by
  induction h with
  | @intro n hremembered hheld ih =>
      intro after hreads
      have hcurrent : n.IsCurrent := (Coherent.intro hremembered hheld).isCurrent
      have hcontent : after.contentKey = n.contentKey := congrArg key hreads.bare_eq
      refine .intro (fun k hk => ?_) fun other hother => ?_
      · rw [hcontent]
        rcases hreads.rememberedKey_cases with heq | heq
        · exact hremembered k (heq.symm.trans hk)
        · rw [heq] at hk
          rw [← Option.some.inj hk]
          exact hcurrent
      · rcases hreads.holds_cases hother with hother | ⟨earlier, hearlier, hreads⟩
        · exact hheld other hother
        · exact ih earlier hearlier hreads

theorem copies_eq_map (ns : List Node) : copies ns = ns.map copy := by
  induction ns with
  | nil => rfl
  | cons n ns ih => rw [copies, ih, List.map_cons]

/-- A copy remembers nothing, and holds the ancestors and copies of the children. -/
theorem copy_eq (n : Node) : n.copy = { n with children := n.children.map copy, rememberedKey := none } := by
  cases n
  rw [copy, copies_eq_map]

theorem Coherent.copy (h : n.Coherent) : n.copy.Coherent := by
  induction h with
  | @intro n _ hheld ih =>
      rw [copy_eq]
      refine coherent_of_forgotten rfl fun other hother => ?_
      rcases hother with hother | hother
      · exact hheld other (.inl hother)
      · obtain ⟨c, hc, rfl⟩ := List.mem_map.mp hother
        exact ih c (.inr hc)

/-- What a builder makes of a node is coherent if the nodes are that it holds and that it is given. -/
theorem coherent_build (builder : Builder) (hheld : ∀ other, n.Holds other → other.Coherent)
    (hsupplied : ∀ s ∈ builder.supplied, s.Coherent) : (builder.apply n).Coherent := by
  cases builder with
  | within parent =>
      refine coherent_of_forgotten rfl fun other hother => ?_
      have hparent : parent.Coherent := hsupplied parent List.mem_cons_self
      rcases hother with hother | hother
      · rcases List.mem_append.mp hother with hother | hother
        · exact hparent.held other (.inl hother)
        · exact List.mem_singleton.mp hother ▸ hparent
      · exact hheld other (.inr hother)
  | withChildren children =>
      refine coherent_of_forgotten rfl fun other hother => ?_
      rcases hother with hother | hother
      · exact hheld other (.inl hother)
      · exact hsupplied other hother
  | copy =>
      have hcopy := (coherent_of_forgotten (n := n.forgetKey) rfl hheld).copy
      rw [copy_eq] at hcopy
      show n.copy.Coherent
      rw [copy_eq]
      exact hcopy
  -- the others hold what the node held
  | placedAt index count => exact coherent_of_forgotten rfl hheld
  | withAttribute name value => exact coherent_of_forgotten rfl hheld
  | withAttributes attributes => exact coherent_of_forgotten rfl hheld
  | withSiblings siblings => exact coherent_of_forgotten rfl hheld
  | withIdentity identity => exact coherent_of_forgotten rfl hheld

/-- A node whose fields are written holds what it held and what it is given. -/
theorem holds_edit {edit : Edit} {other : Node} (h : (edit.apply n).Holds other) :
    n.Holds other ∨ other ∈ edit.supplied := by
  cases edit with
  | ofTraits traits => exact .inl h
  | ofIdentity identity => exact .inl h
  | ofAncestors ancestors => exact h.elim .inr fun hc => .inl (.inr hc)
  | ofChildren children => exact h.elim (fun hp => .inl (.inl hp)) .inr

/-- The discipline keeps everything coherent that a node holds, and the node too, unless it is edited. -/
theorem Disciplined.coherent {edited : Bool} (h : Disciplined edited n) :
    (∀ other, n.Holds other → other.Coherent) ∧ (edited = false → n.Coherent) := by
  induction h with
  | new classes =>
      have hnone : ∀ other, ¬(ofClasses classes).Holds other := by
        rintro other (hother | hother)
        · exact absurd hother (by simp [ofClasses, placedAt, forgetKey])
        · exact absurd hother (by simp [ofClasses, placedAt, forgetKey])
      have hheld : ∀ other, (ofClasses classes).Holds other → other.Coherent :=
        fun other hother => absurd hother (hnone other)
      exact ⟨hheld, fun _ => coherent_of_forgotten rfl hheld⟩
  | build builder _ _ ih ihsupplied =>
      have hbuilt := coherent_build builder ih.1 fun s hs => (ihsupplied s hs).2 rfl
      exact ⟨hbuilt.held, fun _ => hbuilt⟩
  | edit edit _ _ ih ihsupplied =>
      refine ⟨fun other hother => ?_, fun hedited => absurd hedited (by simp)⟩
      rcases holds_edit hother with hother | hother
      · exact ih.1 other hother
      · exact (ihsupplied other hother).2 rfl
  | reset _ ih => exact ⟨ih.1, fun _ => coherent_of_forgotten rfl ih.1⟩
  | read _ hreads _ ih =>
      refine ⟨fun other hother => ?_, fun hedited => (ih.2 hedited).reads hreads⟩
      rcases hreads.holds_cases hother with hother | ⟨earlier, hearlier, hreads⟩
      · exact ih.1 other hother
      · exact (ih.1 earlier hearlier).reads hreads
  | held _ hother ih =>
      have hcoherent := ih.1 _ hother
      exact ⟨hcoherent.held, fun _ => hcoherent⟩

/-! ## Nodes that are built anew -/

mutual

/-- Every node can be built without reading a key. -/
theorem disciplined_bare : ∀ n : Node, Disciplined false n.bare
  | ⟨traits, identity, ancestors, children, _⟩ => by
    have habove := disciplined_bareAll ancestors
    have hbelow := disciplined_bareAll children
    rw [bare]
    have hnothing : ∀ s ∈ ([] : List Node), Disciplined false s := fun s hs => absurd hs List.not_mem_nil
    have htraits := (Disciplined.new []).edit (.ofTraits traits) hnothing
    have hidentity := htraits.edit (.ofIdentity identity) hnothing
    have hancestors := hidentity.edit (.ofAncestors (bareAll ancestors)) habove
    exact (hancestors.edit (.ofChildren (bareAll children)) hbelow).reset
termination_by structural n => n

theorem disciplined_bareAll : ∀ ns : List Node, ∀ c ∈ bareAll ns, Disciplined false c
  | [] => fun _ hc => absurd hc List.not_mem_nil
  | n :: ns => fun c hc => by
    rw [bareAll] at hc
    rcases List.mem_cons.mp hc with rfl | hc
    · exact disciplined_bare n
    · exact disciplined_bareAll ns c hc
termination_by structural ns => ns

end

/-! ## Digests that are remembered -/

mutual

/-- The digest of a node is what its key stands for. -/
theorem digest_contentKey (hash : Hash) : ∀ n : Node, n.contentKey.digest hash = n.digest hash
  | ⟨traits, identity, ancestors, children, remembered⟩ => by
    have habove : NodeKey.digestsAbove hash (NodeKey.shorten (ancestors.map contentKey)) =
        digests hash ancestors := by
      rw [NodeKey.digestsAbove_eq_map, NodeKey.aboveKeys_shorten, ← NodeKey.digests_eq_map,
        digests_map_contentKey hash ancestors]
    have hbelow := digests_map_contentKey hash children
    rw [digest, ← habove, ← hbelow]
    cases identity with
    | none =>
        rw [contentKey_of_no_identity rfl, NodeKey.digest]
        rfl
    | some identity =>
        rw [contentKey_of_identity rfl, NodeKey.digest]
        rfl
termination_by structural n => n

theorem digests_map_contentKey (hash : Hash) : ∀ ns : List Node,
    NodeKey.digests hash (ns.map contentKey) = digests hash ns
  | [] => rfl
  | n :: ns => by
    rw [List.map_cons, NodeKey.digests, digests, digest_contentKey hash n, digests_map_contentKey hash ns]
termination_by structural ns => ns

end

/-- What is read off a coherent node is its digest. -/
theorem Coherent.readDigest_eq (hash : Hash) (h : n.Coherent) : n.readDigest hash = n.digest hash := by
  induction h with
  | @intro n hremembered _ ih =>
      have habove : n.ancestors.map (readDigest hash) = n.ancestors.map (digest hash) :=
        List.map_congr_left fun p hp => ih p (.inl hp)
      have hbelow : n.children.map (readDigest hash) = n.children.map (digest hash) :=
        List.map_congr_left fun c hc => ih c (.inr hc)
      obtain ⟨traits, identity, ancestors, children, remembered⟩ := n
      cases remembered with
      | none =>
          rw [readDigest, digest, readDigests_eq_map, readDigests_eq_map, digests_eq_map, digests_eq_map]
          rw [habove, hbelow]
      | some k =>
          rw [readDigest, ← digest_contentKey]
          exact congrArg (NodeKey.digest hash) (hremembered k rfl)

/-! ## The law -/

/-- A node that is handled under the discipline, and that is not being edited, has the key of its content, whatever
was remembered on the way.

- Its key is that of the same node without any remembered key, and that one can be built without reading a key.
- Any node with the same traits, identity, ancestors and children that is handled so has the same key.
- The same goes for digests, whatever the hash: what is read off the node is its digest computed anew.
- All of that stays so when any other list of such nodes is written as its ancestors, whatever they stand below
  themselves, and the key is dropped. -/
theorem key_is_fresh (h : Disciplined false n) :
    (n.key = n.bare.key ∧ Disciplined false n.bare) ∧
    (∀ other : Node, Disciplined false other → other.traits = n.traits → other.identity = n.identity →
      other.ancestors.map bare = n.ancestors.map bare → other.children.map bare = n.children.map bare →
      other.key = n.key) ∧
    (∀ hash : Hash, n.readDigest hash = n.digest hash) ∧
    ∀ above : List Node, (∀ p ∈ above, Disciplined false p) →
      let moved := { n with ancestors := above }.forgetKey
      moved.key = moved.bare.key ∧ ∀ hash : Hash, moved.readDigest hash = moved.digest hash := by
  have hcoherent := h.coherent.2 rfl
  refine ⟨⟨hcoherent.isCurrent, disciplined_bare n⟩, ?_, fun hash => hcoherent.readDigest_eq hash, ?_⟩
  · intro other hother htraits hidentity habove hbelow
    have hbare := bare_eq_of_parts htraits hidentity habove hbelow
    calc other.key = other.bare.key := (hother.coherent.2 rfl).isCurrent
      _ = n.bare.key := congrArg key hbare
      _ = n.key := hcoherent.isCurrent.symm
  · intro above habove moved
    have hmoved : moved.Coherent := (h.edit (.ofAncestors above) habove).reset.coherent.2 rfl
    exact ⟨hmoved.isCurrent, fun hash => hmoved.readDigest_eq hash⟩

/-- An item whose key is read, that is no longer said to be first and whose key is reset then, has the key of an
item that was never first. Its list remembers its own key all the while. -/
theorem key_is_fresh_item :
    let list := (ofClasses ["list"]).remember
    let item := ((ofClasses ["item"]).within list).remember
    let traits := { item.traits with isFirst := false }
    let edited := { item with traits := traits }
    let anew : Node := { traits := traits, ancestors := [ofClasses ["list"]] }
    Disciplined false edited.forgetKey ∧ edited.key = item.key ∧ edited.forgetKey.key ≠ item.key ∧
      edited.forgetKey.key = anew.key := by
  intro list item traits edited anew
  have hlist : Disciplined false list := .read (.new ["list"]) (.own _) fun h => absurd h (by simp)
  have hwithin : Disciplined false ((ofClasses ["item"]).within list) :=
    .build (.within list) (.new ["item"]) (List.forall_mem_singleton.mpr hlist)
  have hitem : Disciplined false item := .read hwithin (.own _) fun h => absurd h (by simp)
  have hedited : Disciplined true edited :=
    .edit (.ofTraits traits) hitem fun s hs => absurd hs List.not_mem_nil
  have hfresh := key_is_fresh hedited.reset
  have hanew : edited.forgetKey.bare = anew := rfl
  exact ⟨hedited.reset, rfl, by decide +kernel, hfresh.1.1.trans (congrArg key hanew)⟩

end Node

end StyleCascade
