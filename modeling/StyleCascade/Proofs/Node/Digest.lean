/-
# StyleCascade.Proofs.Node.Digest — digests are as good as keys

A message can be read back. Whatever can be of any length has its length in front of it, so that every
part is `SelfDelimiting`, and parts put one after the other are so again; nothing about the hash enters
this. As long as the hash tells the messages apart that come up (`TellsApart`), digests are therefore as
good as keys: they are equal exactly when the keys are (`digest_eq_iff_key_eq`). Without identities that is
agreement on everything but remembered keys, and then no selector, no rule and no dynamic style can tell
the two nodes apart.

The ancestors of a node may be any list of nodes here. Every one of them goes into the message with its own
digest, so nothing is asked of how the ancestors of one node and those of its ancestors go together.
-/
import StyleCascade.Node.Digest
import StyleCascade.Proofs.Rule.Reading

namespace StyleCascade

namespace HashItem

/-! ## Reading items back -/

/-- What is written can be told from the items, whatever comes after it. -/
def SelfDelimiting {α : Type} (write : α → List HashItem) : Prop :=
  ∀ ⦃a b : α⦄ ⦃rest rest' : List HashItem⦄, write a ++ rest = write b ++ rest' → a = b ∧ rest = rest'

theorem selfDelimiting_single {α : Type} {write : α → HashItem} (h : Function.Injective write) :
    SelfDelimiting fun a => [write a] := by
  intro a b rest rest' heq
  obtain ⟨hhead, hrest⟩ := List.cons.inj heq
  exact ⟨h hhead, hrest⟩

/-- A list with its length in front can be told if its members can. -/
theorem selfDelimiting_counted {α : Type} {write : α → List HashItem} (h : SelfDelimiting write) :
    SelfDelimiting (counted write) := by
  intro l l' rest rest' heq
  obtain ⟨hlength, htail⟩ := List.cons.inj heq
  replace hlength : l.length = l'.length := HashItem.word.inj hlength
  replace htail : l.flatMap write ++ rest = l'.flatMap write ++ rest' := htail
  clear heq
  -- the lists are as long as each other, so their members are told in step
  induction l generalizing l' with
  | nil =>
      obtain rfl := List.length_eq_zero_iff.mp hlength.symm
      exact ⟨rfl, htail⟩
  | cons a l ih =>
      obtain _ | ⟨b, l'⟩ := l'
      · exact absurd hlength (by simp)
      · rw [List.flatMap_cons, List.flatMap_cons, List.append_assoc, List.append_assoc] at htail
        obtain ⟨rfl, hmembers⟩ := h htail
        obtain ⟨rfl, hrest⟩ := ih (Nat.succ.inj hlength) hmembers
        exact ⟨rfl, hrest⟩

theorem selfDelimiting_text : SelfDelimiting fun content => [HashItem.text content] :=
  selfDelimiting_single fun _ _ => HashItem.text.inj

theorem selfDelimiting_flag : SelfDelimiting fun flag => [ofFlag flag] :=
  selfDelimiting_single fun a b h => by cases a <;> cases b <;> simp_all [ofFlag]

theorem selfDelimiting_ofDigests : SelfDelimiting ofDigests :=
  selfDelimiting_counted <|
    selfDelimiting_single fun _ _ h => UInt64.toNat_inj.mp (HashItem.word.inj h)

/-- A value tells its kind first. -/
theorem selfDelimiting_ofValue : SelfDelimiting ofValue := by
  intro v w rest rest' heq
  cases v with
  | text content =>
      cases w with
      | text content' => simpa [ofValue] using heq
      | number number => exact absurd heq (by simp [ofValue])
  | number number =>
      cases w with
      | text content => exact absurd heq (by simp [ofValue])
      | number number' =>
          simp only [ofValue, List.cons_append, List.nil_append, List.cons.injEq, word.injEq,
            true_and, UInt64.toNat_inj] at heq
          obtain ⟨hbits, hrest⟩ := heq
          cases number
          cases number'
          exact ⟨congrArg (fun bits => Value.number ⟨bits⟩) hbits, hrest⟩

theorem selfDelimiting_ofProperty : SelfDelimiting ofProperty := by
  intro p q rest rest' heq
  obtain ⟨hname, htail⟩ := List.cons.inj heq
  obtain ⟨hvalue, hrest⟩ := selfDelimiting_ofValue htail
  exact ⟨Prod.ext (HashItem.text.inj hname) hvalue, hrest⟩

theorem selfDelimiting_ofClasses : SelfDelimiting ofClasses :=
  selfDelimiting_counted selfDelimiting_text

theorem selfDelimiting_ofProperties : SelfDelimiting ofProperties := by
  intro d d' rest rest' heq
  obtain ⟨hentries, hrest⟩ := selfDelimiting_counted selfDelimiting_ofProperty heq
  cases d
  cases d'
  obtain rfl : _ = _ := hentries
  exact ⟨rfl, hrest⟩

/-- Every field of the traits can be told from what is written of them. -/
theorem selfDelimiting_ofTraits : SelfDelimiting ofTraits := by
  intro t t' rest rest' heq
  unfold ofTraits at heq
  simp only [List.cons_append, List.append_assoc, List.cons.injEq, word.injEq] at heq
  obtain ⟨hindex, hcount, heq⟩ := heq
  obtain ⟨hflags, heq⟩ := selfDelimiting_counted selfDelimiting_flag heq
  obtain ⟨hclasses, heq⟩ := selfDelimiting_ofClasses heq
  obtain ⟨hattributes, heq⟩ := selfDelimiting_ofProperties heq
  obtain ⟨hsiblingClasses, heq⟩ := selfDelimiting_counted selfDelimiting_ofClasses heq
  obtain ⟨hsiblingAttributes, hrest⟩ := selfDelimiting_counted selfDelimiting_ofProperties heq
  simp only [List.cons.injEq, and_true] at hflags
  obtain ⟨hfirst, hlast, hodd, heven, hempty, honly⟩ := hflags
  cases t
  cases t'
  exact ⟨Traits.mk.injEq .. ▸ ⟨hindex, hcount, hfirst, hlast, hodd, heven, hempty, honly, hclasses,
    hattributes, hsiblingClasses, hsiblingAttributes⟩, hrest⟩

/-- What a message says of a node. An identity hides what the node shows of itself. -/
theorem message_eq_iff (above above' : List UInt64) (identity identity' : Option String)
    (traits traits' : Traits) (below below' : List UInt64) :
    message above identity traits below = message above' identity' traits' below' ↔
      identity = identity' ∧ above = above' ∧
        (identity = none → traits = traits' ∧ below = below') := by
  constructor
  · intro heq
    obtain ⟨habove, heq⟩ := selfDelimiting_ofDigests heq
    cases identity with
    | none =>
        cases identity' with
        | none =>
            obtain ⟨htraits, heq⟩ := selfDelimiting_ofTraits (List.cons.inj heq).2
            rw [← List.append_nil (ofDigests below), ← List.append_nil (ofDigests below')] at heq
            exact ⟨rfl, habove, fun _ => ⟨htraits, (selfDelimiting_ofDigests heq).1⟩⟩
        | some name => exact absurd (List.cons.inj heq).1 (by simp [ofFlag])
    | some name =>
        cases identity' with
        | none => exact absurd (List.cons.inj heq).1 (by simp [ofFlag])
        | some name' =>
            have hname : name = name' := by simpa using heq
            exact ⟨congrArg some hname, habove, fun hnone => absurd hnone (by simp)⟩
  · rintro ⟨rfl, rfl, hcontent⟩
    cases identity with
    | none =>
        obtain ⟨rfl, rfl⟩ := hcontent rfl
        rfl
    | some name => rfl

end HashItem

namespace Node

variable {hash : Hash}

/-! ## Digests and keys -/

/-- No two messages that come up when some nodes are hashed collide. -/
def TellsApart (hash : Hash) (requested : Node → Prop) : Prop :=
  ∀ a b : Node, Within requested a → Within requested b →
    hash (a.message hash) = hash (b.message hash) → a.message hash = b.message hash

variable {requested : Node → Prop}

/-- What a digest depends on. -/
theorem digest_eq_iff (h : TellsApart hash requested) {a b : Node} (ha : Within requested a)
    (hb : Within requested b) : a.digest hash = b.digest hash ↔
      a.identity = b.identity ∧ a.ancestors.map (digest hash) = b.ancestors.map (digest hash) ∧
        (a.identity = none →
          a.traits = b.traits ∧ a.children.map (digest hash) = b.children.map (digest hash)) := by
  rw [digest_eq_hash, digest_eq_hash, ← HashItem.message_eq_iff]
  exact ⟨h a b ha hb, congrArg hash⟩

mutual

/-- Digests are equal exactly when keys of content are. -/
theorem digest_eq_iff_contentKey_eq (h : TellsApart hash requested) : ∀ a b : Node,
    Within requested a → Within requested b →
    (a.digest hash = b.digest hash ↔ a.contentKey = b.contentKey)
  | ⟨traits, identity, ancestors, children, remembered⟩, b => fun ha hb => by
    have habove := digests_eq_iff h ancestors b.ancestors (fun p hp => ha.ancestor hp)
      fun p hp => hb.ancestor hp
    have hbelow := digests_eq_iff h children b.children (fun c hc => ha.child hc)
      fun c hc => hb.child hc
    rw [digest_eq_iff h ha hb, contentKey_eq_iff]
    show _ ∧ ancestors.map (digest hash) = _ ∧ (_ → _ ∧ children.map (digest hash) = _) ↔ _
    rw [habove, hbelow]
    rfl
termination_by structural a => a

theorem digests_eq_iff (h : TellsApart hash requested) : ∀ ns ns' : List Node,
    (∀ c ∈ ns, Within requested c) → (∀ c ∈ ns', Within requested c) →
    (ns.map (digest hash) = ns'.map (digest hash) ↔ ns.map contentKey = ns'.map contentKey)
  | [], [] => fun _ _ => by simp
  | [], _ :: _ => fun _ _ => by simp
  | _ :: _, [] => fun _ _ => by simp
  | c :: cs, d :: ds => fun hc hd => by
    rw [List.forall_mem_cons] at hc hd
    rw [List.map_cons, List.map_cons, List.map_cons, List.map_cons, List.cons.injEq, List.cons.injEq,
      digest_eq_iff_contentKey_eq h c d hc.1 hd.1, digests_eq_iff h cs ds hc.2 hd.2]
termination_by structural ns => ns

end

/-! ## What digests cover -/

/-- Without identities equal keys of content are equal content. -/
theorem contentKey_eq_iff_bare_eq {a b : Node} (ha : a.IsCurrent) (hb : b.IsCurrent)
    (h : ∀ n, Within (fun m => m = a ∨ m = b) n → n.identity = none) :
    a.contentKey = b.contentKey ↔ a.bare = b.bare := by
  have hadmits : Reading.exact.Admits fun m => m = a ∨ m = b := by
    refine ⟨?_, fun x _ hx _ hsome => ?_⟩
    · rintro n (rfl | rfl)
      · exact ha
      · exact hb
    · rw [h x hx] at hsome
      exact absurd hsome (by simp)
  exact ⟨Reading.agree_of_contentKey_eq hadmits a b (.root (.inl rfl)) (.root (.inr rfl)),
    congrArg key⟩

/-- Without remembered keys two nodes of equal content are one to everything that reads them. -/
theorem indistinguishable_of_bare_eq {a b : Node} (h : a.bare = b.bare) :
    (∀ s : Selector, s.matchesNode a = s.matchesNode b) ∧
    (∀ r : Rule Id, r.matchesNode a = r.matchesNode b) ∧
    (∀ f : DynamicStyle Id, (∀ index n, f index n.bare = f index n) →
      ∀ index, f index a = f index b) := by
  refine ⟨fun s => ?_, fun r => ?_, fun f hf index => ?_⟩
  · rw [← Selector.matchesNode_bare s a, h, Selector.matchesNode_bare]
  · rw [← Rule.matchesNode_bare r a, h, Rule.matchesNode_bare]
  · rw [← hf index a, h, hf]

/-- A hash that tells the messages of some nodes apart does so whenever these hold all that is looked at. -/
theorem tellsApart_of_list (nodes : List Node) (hrequested : ∀ n, requested n → n ∈ nodes)
    (hheld : ∀ n ∈ nodes, n.ancestors ⊆ nodes ∧ n.children ⊆ nodes)
    (h : ∀ a ∈ nodes, ∀ b ∈ nodes, a.digest hash = b.digest hash → a.message hash = b.message hash) :
    TellsApart hash requested := by
  have hwithin : ∀ n, Within requested n → n ∈ nodes := fun n hn =>
    hn.induct hrequested fun n hn m hm => hm.elim (fun ha => (hheld n hn).1 ha) fun hc => (hheld n hn).2 hc
  intro a b ha hb heq
  rw [← digest_eq_hash hash a, ← digest_eq_hash hash b] at heq
  exact h a (hwithin a ha) b (hwithin b hb) heq

/-- Digests are equal exactly when keys are, as long as the hash tells apart what it is fed with. Without
identities that is agreement in all fields, those of ancestors and children included, and nothing that
reads nodes can then tell the two apart. With an identity it is agreement in the identity and in the
digests of the ancestors. -/
theorem digest_eq_iff_key_eq (hash : Hash) {a b : Node} (ha : a.IsCurrent) (hb : b.IsCurrent)
    (htells : TellsApart hash fun n => n = a ∨ n = b) :
    (a.digest hash = b.digest hash ↔ a.key = b.key) ∧
    ((∀ n, Within (fun m => m = a ∨ m = b) n → n.identity = none) →
      (a.digest hash = b.digest hash ↔ a.traits = b.traits ∧
        a.ancestors.map bare = b.ancestors.map bare ∧ a.children.map bare = b.children.map bare) ∧
      (a.digest hash = b.digest hash →
        (∀ s : Selector, s.matchesNode a = s.matchesNode b) ∧
        (∀ r : Rule Id, r.matchesNode a = r.matchesNode b) ∧
        (∀ f : DynamicStyle Id, (∀ index n, f index n.bare = f index n) →
          ∀ index, f index a = f index b))) ∧
    (a.identity.isSome = true → (a.digest hash = b.digest hash ↔
      a.identity = b.identity ∧ a.ancestors.map (digest hash) = b.ancestors.map (digest hash))) := by
  have hwithin : Within (fun n => n = a ∨ n = b) a ∧ Within (fun n => n = a ∨ n = b) b :=
    ⟨.root (.inl rfl), .root (.inr rfl)⟩
  have hkey := digest_eq_iff_contentKey_eq htells a b hwithin.1 hwithin.2
  refine ⟨by rw [ha, hb, hkey], fun hnone => ?_, fun hsome => ?_⟩
  · have hbare := hkey.trans (contentKey_eq_iff_bare_eq ha hb hnone)
    refine ⟨?_, fun heq => indistinguishable_of_bare_eq (hbare.mp heq)⟩
    rw [hbare, bare_eq_iff, hnone a hwithin.1, hnone b hwithin.2]
    simp
  · rw [digest_eq_iff htells hwithin.1 hwithin.2]
    have hcontent : a.identity ≠ none := Option.isSome_iff_ne_none.mp hsome
    simp [hcontent]

/-- The hash shows an attribute, and the row that moved goes by its identity. Of two cells with the same row right
above them, which stands below nothing itself, each shows what else is written among its ancestors. -/
theorem digest_eq_iff_key_eq_row :
    let row := ofClasses ["row"]
    let opened := row.withAttribute "open" (.text "yes")
    let named := row.withIdentity "row-7"
    let moved := (row.placedAt 3 4).withIdentity "row-7"
    let table := ofClasses ["table"]
    let grid := ofClasses ["grid"]
    let inTable : Node := { traits := row.traits, ancestors := [table, row] }
    let inGrid : Node := { traits := row.traits, ancestors := [grid, row] }
    (row.digest FxHash.hash ≠ opened.digest FxHash.hash ∧ row.key ≠ opened.key ∧
      ¬(row.traits = opened.traits ∧ row.ancestors.map bare = opened.ancestors.map bare ∧
        row.children.map bare = opened.children.map bare)) ∧
    (named.digest FxHash.hash = moved.digest FxHash.hash ∧ named.key = moved.key) ∧
    (inTable.digest FxHash.hash ≠ inGrid.digest FxHash.hash ∧ inTable.key ≠ inGrid.key ∧
      inTable.ancestors.map bare ≠ inGrid.ancestors.map bare) := by
  intro row opened named moved table grid inTable inGrid
  have hrow : TellsApart FxHash.hash fun n => n = row ∨ n = opened := by
    refine tellsApart_of_list [row, opened] (by simp) ?_ (by decide +kernel)
    rw [List.forall_mem_cons, List.forall_mem_singleton]
    exact ⟨⟨List.nil_subset _, List.nil_subset _⟩, List.nil_subset _, List.nil_subset _⟩
  have hnamed : TellsApart FxHash.hash fun n => n = named ∨ n = moved := by
    refine tellsApart_of_list [named, moved] (by simp) ?_ (by decide +kernel)
    rw [List.forall_mem_cons, List.forall_mem_singleton]
    exact ⟨⟨List.nil_subset _, List.nil_subset _⟩, List.nil_subset _, List.nil_subset _⟩
  have hcells : TellsApart FxHash.hash fun n => n = inTable ∨ n = inGrid := by
    refine tellsApart_of_list [inTable, inGrid, table, grid, row] (by simp) ?_ (by decide +kernel)
    have htable : [table, row] ⊆ [inTable, inGrid, table, grid, row] := by simp
    have hgrid : [grid, row] ⊆ [inTable, inGrid, table, grid, row] := by simp
    rw [List.forall_mem_cons, List.forall_mem_cons, List.forall_mem_cons, List.forall_mem_cons,
      List.forall_mem_singleton]
    exact ⟨⟨htable, List.nil_subset _⟩, ⟨hgrid, List.nil_subset _⟩,
      ⟨List.nil_subset _, List.nil_subset _⟩, ⟨List.nil_subset _, List.nil_subset _⟩,
      List.nil_subset _, List.nil_subset _⟩
  obtain ⟨hkey, hcontent, -⟩ :=
    digest_eq_iff_key_eq FxHash.hash (a := row) (b := opened) rfl rfl hrow
  obtain ⟨hkey', -, hidentity⟩ :=
    digest_eq_iff_key_eq FxHash.hash (a := named) (b := moved) rfl rfl hnamed
  obtain ⟨hkey'', -, -⟩ :=
    digest_eq_iff_key_eq FxHash.hash (a := inTable) (b := inGrid) rfl rfl hcells
  have hnone : ∀ n, Within (fun m => m = row ∨ m = opened) n → n.identity = none := by
    have halone : ∀ n, n = row ∨ n = opened → n.ancestors = [] ∧ n.children = [] := by
      rintro n (rfl | rfl) <;> exact ⟨rfl, rfl⟩
    intro n hn
    rcases requested_of_within halone hn with rfl | rfl <;> rfl
  have hopened : row.digest FxHash.hash ≠ opened.digest FxHash.hash := by decide +kernel
  have hcell : inTable.digest FxHash.hash ≠ inGrid.digest FxHash.hash := by decide +kernel
  have hsame := (hidentity rfl).mpr ⟨rfl, rfl⟩
  refine ⟨⟨hopened, fun h => hopened (hkey.mpr h), fun h => hopened ((hcontent hnone).1.mpr h)⟩,
    ⟨hsame, hkey'.mp hsame⟩, hcell, fun h => hcell (hkey''.mpr h), fun h => ?_⟩
  exact absurd (congrArg (List.map fun (n : Node) => n.traits.classes) h) (by decide +kernel)

end Node

end StyleCascade
