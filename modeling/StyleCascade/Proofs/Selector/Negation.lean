/-
# StyleCascade.Proofs.Selector.Negation — what the negation of a selector matches

Every selector can be negated: it is an inside, no white space stands at its ends, and so `:not(…)` around
it is a selector again (`Derives.nested`). What that selector asks of a node is read off the tree of the
one that is negated. A negation of nothing but a search is the one condition that no descendant matches
(`holds_negation_of_search`), and of anything else a condition that the node does not match.

So a negation matches where its argument does not, with one exception (`matchesNode_negation_iff`). A
search for nothing but a negation is itself the condition that no descendant matches what is negated
(`matchesNode_search_of_negation`), and the reader does not look into it when a negation stands around it.
Both then match a node without children.
-/
import StyleCascade.Proofs.Selector.Acceptance
import StyleCascade.Selector.Matching

namespace StyleCascade.Selector

/-! ## Selectors as arguments -/

theorem Inside.append {cs ds : List Char} (h : Inside cs) (hds : Inside ds) : Inside (cs ++ ds) := by
  induction h with
  | nil => exact hds
  | char hquote hopen hclose _ ih => exact .char hquote hopen hclose ih
  | @quoted q text cs hquote htext _ ih =>
      rw [List.append_assoc]
      exact .quoted hquote htext ih
  | @group opener closer inner cs hopener hinner _ _ ih =>
      rw [List.append_assoc]
      exact .group hopener hinner ih

/-- Names are no quotes and no brackets. -/
theorem inside_of_isNameChar {cs : List Char} (h : ∀ c ∈ cs, isNameChar c = true) : Inside cs := by
  induction cs with
  | nil => exact .nil
  | cons c cs ih =>
      rw [List.forall_mem_cons] at h
      obtain ⟨hquote, hopen, hclose⟩ := plain_of_forall (by rfl) h.1
      exact .char hquote hopen hclose (ih h.2)

theorem inside_call {word : String} {argument : List Char}
    (hword : ∀ c ∈ word.toList, isNameChar c = true) (h : Inside argument) :
    Inside (call word argument) :=
  .char (by decide) rfl (by decide) ((inside_of_isNameChar hword).append (.group rfl h .nil))

theorem IsPlain.inside {text : List Char} {c : Condition} (h : IsPlain text c) : Inside text := by
  cases h with
  | hasClass hname => exact .char (by decide) rfl (by decide) (inside_of_isNameChar hname.2)
  | bracket hbody _ => exact .group rfl hbody .nil
  | flag flag => exact .char (by decide) rfl (by decide) (inside_of_isNameChar (isNameChar_flag flag))
  | nth hargument _ => exact inside_call (List.all_eq_true.mp rfl) hargument

theorem DerivesAll.inside {cs : List Char} {fs : List Fragment} (h : DerivesAll cs fs) :
    Inside cs := by
  induction fs generalizing cs with
  | nil =>
      obtain rfl := derivesAll_nil_iff.mp h
      exact .nil
  | cons f fs ih =>
      cases h with
      | plain hplain hmore => exact hplain.inside.append (ih hmore)
      | nested nesting hargument _ hmore =>
          exact (inside_call (isNameChar_nesting nesting) hargument).append (ih hmore)

/-- A selector can stand in brackets. -/
theorem Derives.inside {cs : List Char} {t : Tree} (h : Derives cs t) : Inside cs := by
  cases h with
  | @selector _ rest base fs _ hbase hcs hall =>
      subst hcs
      refine Inside.append ?_ hall.inside
      cases base with
      | none => exact .nil
      | some base =>
          rcases hbase with rfl | ⟨hname, _⟩
          · exact .char (by decide) rfl (by decide) .nil
          · exact inside_of_isNameChar hname.2

/-- No white space stands at the end of a text. -/
def EndsSolid (cs : List Char) : Prop :=
  ∀ c ∈ cs.getLast?, Text.isSpace c = false

theorem EndsSolid.append {cs ds : List Char} (h : EndsSolid cs) (hds : EndsSolid ds) :
    EndsSolid (cs ++ ds) := by
  intro c hc
  rw [List.getLast?_append, Option.mem_def, Option.or_eq_some_iff] at hc
  rcases hc with hc | ⟨_, hc⟩
  · exact hds c hc
  · exact h c hc

theorem endsSolid_concat {c : Char} (h : Text.isSpace c = false) (cs : List Char) :
    EndsSolid (cs ++ [c]) := by
  intro d hd
  rw [List.getLast?_concat] at hd
  rw [← Option.some.inj hd]
  exact h

theorem isSpace_of_isNameChar {c : Char} (h : isNameChar c = true) : Text.isSpace c = false := by
  rw [← Bool.not_eq_true]
  intro hspace
  rw [isNameChar_of_isSpace hspace] at h
  exact absurd h (by simp)

theorem endsSolid_of_isNameChar {cs : List Char} (h : ∀ c ∈ cs, isNameChar c = true) :
    EndsSolid cs :=
  fun c hc => isSpace_of_isNameChar (h c (List.mem_of_mem_getLast? hc))

theorem endsSolid_call (word : String) (argument : List Char) : EndsSolid (call word argument) := by
  have h := endsSolid_concat (c := ')') (by decide) (':' :: (word.toList ++ '(' :: argument))
  rw [List.cons_append, List.append_assoc] at h
  exact h

theorem IsPlain.endsSolid {text : List Char} {c : Condition} (h : IsPlain text c) :
    EndsSolid text := by
  cases h with
  | @hasClass name hname =>
      exact (endsSolid_concat (by decide) []).append (endsSolid_of_isNameChar hname.2)
  | @bracket body _ _ _ => exact endsSolid_concat (by decide) ('[' :: body)
  | flag flag =>
      exact (endsSolid_concat (by decide) []).append (endsSolid_of_isNameChar (isNameChar_flag flag))
  | nth _ _ => exact endsSolid_call _ _

theorem DerivesAll.endsSolid {cs : List Char} {fs : List Fragment} (h : DerivesAll cs fs) :
    EndsSolid cs := by
  induction fs generalizing cs with
  | nil =>
      obtain rfl := derivesAll_nil_iff.mp h
      exact fun c hc => absurd hc (by simp)
  | cons f fs ih =>
      cases h with
      | plain hplain hmore => exact hplain.endsSolid.append (ih hmore)
      | nested nesting _ _ hmore => exact (endsSolid_call _ _).append (ih hmore)

theorem Derives.endsSolid {cs : List Char} {t : Tree} (h : Derives cs t) : EndsSolid cs := by
  cases h with
  | @selector _ rest base fs _ hbase hcs hall =>
      subst hcs
      refine EndsSolid.append ?_ hall.endsSolid
      cases base with
      | none => exact fun c hc => absurd hc (by simp)
      | some base =>
          rcases hbase with rfl | ⟨hname, _⟩
          · exact endsSolid_concat (by decide) []
          · exact endsSolid_of_isNameChar hname.2

theorem DerivesAll.startsSolid {cs : List Char} {fs : List Fragment} (h : DerivesAll cs fs) :
    ∀ c ∈ cs.head?, Text.isSpace c = false := by
  intro c hc
  rcases h.starts c hc with rfl | rfl | rfl
  · decide
  · decide
  · decide

theorem Derives.startsSolid {cs : List Char} {t : Tree} (h : Derives cs t) :
    ∀ c ∈ cs.head?, Text.isSpace c = false := by
  cases h with
  | @selector _ rest base fs _ hbase hcs hall =>
      subst hcs
      cases base with
      | none => exact hall.startsSolid
      | some base =>
          rcases hbase with rfl | ⟨hname, _⟩
          · exact forall_mem_head?_cons (by decide) _
          · intro c hc
            rw [Option.getD_some, List.head?_append_of_ne_nil base hname.1] at hc
            exact isSpace_of_isNameChar (hname.2 c (List.mem_of_mem_head? hc))

/-- Trimming leaves a selector as it is. -/
theorem Derives.trim {cs : List Char} {t : Tree} (h : Derives cs t) : Text.trim cs = cs :=
  trim_eq_self h.startsSolid h.endsSolid

/-- A negation or a search of a selector is a selector, whatever the selector holds. -/
theorem Derives.nested (nesting : Nesting) {cs : List Char} {t : Tree} (h : Derives cs t) :
    Derives (call nesting.word cs) ⟨call nesting.word cs, none, [.nested nesting t]⟩ :=
  derives_call nesting h.inside (by rw [h.trim]; exact h)

/-! ## What a negation asks of a node -/

theorem read_of_derives {cs : List Char} {t : Tree} (h : Derives cs t) : read cs = t.toSelector :=
  (agrees cs).2 t h

/-- A selector of one fragment and no base matches the nodes of which the fragment's condition holds. -/
theorem matchesNode_of_single (source : List Char) (f : Fragment) (n : Node) :
    (Tree.toSelector ⟨source, none, [f]⟩).matchesNode n = f.condition.holds n := by
  have huniversal : (String.ofList ['*'] == universalClass) = true := rfl
  show (!false && (String.ofList ['*'] == universalClass || n.hasClass (String.ofList ['*'])) &&
    Condition.allHold [f.condition] n) = _
  rw [huniversal, Condition.allHold, Condition.allHold]
  simp only [Bool.not_false, Bool.true_or, Bool.true_and, Bool.and_true]

/-- A search for nothing but a negation, up to white space around the negation. -/
def SearchesNegation (cs : List Char) : Prop :=
  ∃ argument inner, Inside argument ∧ Inside inner ∧
    cs = call "has" argument ∧ Text.trim argument = call "not" inner

/-- A search for nothing but a negation, as a tree. -/
def Tree.SearchesNegation (t : Tree) : Prop :=
  ∃ source source' inner,
    t = ⟨source, none, [.nested .has ⟨source', none, [.nested .not inner]⟩]⟩

theorem Derives.searchesNegation_iff {cs : List Char} {t : Tree} (h : Derives cs t) :
    SearchesNegation cs ↔ t.SearchesNegation := by
  constructor
  · rintro ⟨argument, inner, hargument, hinner, rfl, htrim⟩
    obtain ⟨source, u, rfl, hu⟩ := @eq_of_derives_call .has argument _ hargument h
    rw [htrim] at hu
    obtain ⟨source', v, rfl, _⟩ := @eq_of_derives_call .not inner _ hinner hu
    exact ⟨source, source', v, rfl⟩
  · rintro ⟨source, source', inner, rfl⟩
    obtain ⟨argument, hargument, rfl⟩ := call_of_derives h
    obtain ⟨_, u, heq, hu⟩ := @eq_of_derives_call .has argument _ hargument h
    injection heq with _ _ heq
    injection heq with heq _
    injection heq with _ heq
    subst heq
    obtain ⟨inner', hinner, htrim⟩ := call_of_derives hu
    exact ⟨argument, inner', hargument, hinner, rfl, htrim⟩

theorem condition_search_of_negation (source : List Char) (u : Tree) :
    (Fragment.nested .has ⟨source, none, [.nested .not u]⟩).condition = .hasNone u.toSelector :=
  Fragment.condition_fused .has source u

theorem condition_negation_of_search (source : List Char) (u : Tree) :
    (Fragment.nested .not ⟨source, none, [.nested .has u]⟩).condition = .hasNone u.toSelector :=
  Fragment.condition_fused .not source u

/-- The negation of a search is the condition that no descendant matches. -/
theorem holds_negation_of_search (source : List Char) (u : Tree) (n : Node) :
    (Fragment.nested .not ⟨source, none, [.nested .has u]⟩).condition.holds n =
      !n.anyBelow fun d => u.toSelector.matchesNode d := by
  rw [condition_negation_of_search, Condition.holds]

/-- A negation does not match where its argument does, unless that is a search for a negation. -/
theorem holds_negation {t : Tree} (h : ¬t.SearchesNegation) (n : Node) :
    (Fragment.nested .not t).condition.holds n = !t.toSelector.matchesNode n := by
  by_cases hsearch : ∃ source u, t = ⟨source, none, [.nested .has u]⟩
  · obtain ⟨source, u, rfl⟩ := hsearch
    -- the search in the argument is not fused with anything in it, so it is what it is
    have hnested : (Fragment.nested .has u).condition = .has u.toSelector := by
      refine Fragment.condition_nested ?_
      rintro source' inner rfl
      exact h ⟨source, source', inner, rfl⟩
    rw [holds_negation_of_search, matchesNode_of_single, hnested, Condition.holds]
  · have hnested : (Fragment.nested .not t).condition = .not t.toSelector := by
      refine Fragment.condition_nested ?_
      rintro source u rfl
      exact hsearch ⟨source, u, rfl⟩
    rw [hnested, Condition.holds]

/-- Nothing matches below a node without children. -/
theorem anyBelow_of_no_children {n : Node} (h : n.children = []) (test : Node → Bool) :
    n.anyBelow test = false := by
  unfold Node.anyBelow
  rw [h, Node.anyFromLevel, if_pos rfl]

/-! ## The law of negation -/

theorem toList_negation (s : String) : (":not(" ++ s ++ ")").toList = call "not" s.toList := by
  rw [String.toList_append, String.toList_append, List.append_assoc]
  rfl

variable {s : String} {t : Tree}

theorem ofString_negation (ht : Derives s.toList t) :
    ofString (":not(" ++ s ++ ")") = Tree.toSelector ⟨call "not" s.toList, none, [.nested .not t]⟩ := by
  unfold ofString
  rw [toList_negation]
  exact read_of_derives (ht.nested .not)

theorem matchesNode_negation (ht : Derives s.toList t) (n : Node) :
    (ofString (":not(" ++ s ++ ")")).matchesNode n = (Fragment.nested .not t).condition.holds n := by
  rw [ofString_negation ht, matchesNode_of_single]

/-- The negation of a search matches where no descendant matches what is searched for. -/
theorem matchesNode_negation_of_search (ht : Derives s.toList t) {argument : List Char}
    (hargument : Inside argument) (hcall : s.toList = call "has" argument) (n : Node) :
    (ofString (":not(" ++ s ++ ")")).matchesNode n =
      !n.anyBelow fun d => (read (Text.trim argument)).matchesNode d := by
  have hsearch : Derives (call "has" argument) t := hcall ▸ ht
  obtain ⟨source, u, rfl, hu⟩ := @eq_of_derives_call .has argument _ hargument hsearch
  rw [matchesNode_negation ht, holds_negation_of_search, read_of_derives hu]

/-- A search for a negation matches where no descendant matches what is negated. -/
theorem matchesNode_search_of_negation (ht : Derives s.toList t) {argument inner : List Char}
    (hargument : Inside argument) (hinner : Inside inner) (hcall : s.toList = call "has" argument)
    (htrim : Text.trim argument = call "not" inner) (n : Node) :
    (ofString s).matchesNode n = !n.anyBelow fun d => (read (Text.trim inner)).matchesNode d := by
  have hself : ofString s = t.toSelector := read_of_derives ht
  have hsearch : Derives (call "has" argument) t := hcall ▸ ht
  obtain ⟨source, u, rfl, hu⟩ := @eq_of_derives_call .has argument _ hargument hsearch
  rw [htrim] at hu
  obtain ⟨source', v, rfl, hv⟩ := @eq_of_derives_call .not inner _ hinner hu
  rw [hself, matchesNode_of_single, condition_search_of_negation, Condition.holds, read_of_derives hv]

/-- So both match a node without children. -/
theorem matches_leaf_of_searchesNegation (ht : Derives s.toList t) {argument inner : List Char}
    (hargument : Inside argument) (hinner : Inside inner) (hcall : s.toList = call "has" argument)
    (htrim : Text.trim argument = call "not" inner) {leaf : Node} (hleaf : leaf.children = []) :
    (ofString s).matchesNode leaf = true ∧ (ofString (":not(" ++ s ++ ")")).matchesNode leaf = true := by
  rw [matchesNode_search_of_negation ht hargument hinner hcall htrim,
    matchesNode_negation_of_search ht hargument hcall, anyBelow_of_no_children hleaf,
    anyBelow_of_no_children hleaf]
  exact ⟨rfl, rfl⟩

/-- Take a selector that can be read.

- Its negation can be read too.
- The negation matches exactly the nodes that the selector does not match, unless the selector is a
  search for nothing but a negation.
- The negation of a search matches exactly the nodes below which nothing matches the argument of the
  search, be that a negation or not.
- An excepted selector, which is a search for nothing but a negation, matches exactly the nodes below
  which nothing matches what is negated; it and its negation both match every node without children. -/
theorem matchesNode_negation_iff (s : String) (hs : (ofString s).malformed = false) :
    (ofString (":not(" ++ s ++ ")")).malformed = false ∧
    ((∀ n, (ofString (":not(" ++ s ++ ")")).matchesNode n = !(ofString s).matchesNode n) ↔
      ¬SearchesNegation s.toList) ∧
    (∀ argument, Inside argument → s.toList = call "has" argument → ∀ n,
      (ofString (":not(" ++ s ++ ")")).matchesNode n =
        !n.anyBelow fun d => (read (Text.trim argument)).matchesNode d) ∧
    (∀ argument inner, Inside argument → Inside inner → s.toList = call "has" argument →
      Text.trim argument = call "not" inner →
      (∀ n, (ofString s).matchesNode n =
        !n.anyBelow fun d => (read (Text.trim inner)).matchesNode d) ∧
      ∀ leaf : Node, leaf.children = [] → (ofString s).matchesNode leaf = true ∧
        (ofString (":not(" ++ s ++ ")")).matchesNode leaf = true) := by
  obtain ⟨t, ht⟩ := (agrees s.toList).1 hs
  refine ⟨by rw [ofString_negation ht, Tree.toSelector_malformed], ⟨?_, ?_⟩, ?_, ?_⟩
  · rintro hall ⟨argument, inner, hargument, hinner, hcall, htrim⟩
    obtain ⟨hsearch, hnot⟩ :=
      matches_leaf_of_searchesNegation ht hargument hinner hcall htrim (rfl : ({} : Node).children = [])
    have hboth := hall {}
    rw [hsearch, hnot] at hboth
    exact absurd hboth (by simp)
  · intro hsearch n
    have hself : ofString s = t.toSelector := read_of_derives ht
    rw [ht.searchesNegation_iff] at hsearch
    rw [matchesNode_negation ht, holds_negation hsearch, hself]
  · intro argument hargument hcall n
    exact matchesNode_negation_of_search ht hargument hcall n
  · intro argument inner hargument hinner hcall htrim
    exact ⟨matchesNode_search_of_negation ht hargument hinner hcall htrim,
      fun leaf => matches_leaf_of_searchesNegation ht hargument hinner hcall htrim⟩

/-- The negation of a search for a class is read as one condition, and it still is the negation. A search for the
negation of a class matches where no descendant has that class. -/
theorem matchesNode_negation_iff_search :
    (ofString ":has(item)").malformed = false ∧
      (ofString (":not(" ++ ":has(item)" ++ ")")).malformed = false ∧
      (∀ n, (ofString (":not(" ++ ":has(item)" ++ ")")).matchesNode n =
        !(ofString ":has(item)").matchesNode n) ∧
      (∀ n, (ofString (":not(" ++ ":has(item)" ++ ")")).matchesNode n =
        !n.anyBelow fun d => (read (Text.trim "item".toList)).matchesNode d) ∧
      ∀ n, (ofString ":has(:not(item))").matchesNode n =
        !n.anyBelow fun d => (read (Text.trim "item".toList)).matchesNode d := by
  have hwell : (ofString ":has(item)").malformed = false := by decide +kernel
  have hinside : Inside "item".toList := inside_of_isNameChar (List.all_eq_true.mp rfl)
  have hsearch : ¬SearchesNegation ":has(item)".toList := by
    rintro ⟨argument, inner, _, _, hcall, htrim⟩
    have hargument : "item".toList ++ [')'] = argument ++ [')'] := congrArg (List.drop 5) hcall
    rw [← List.append_cancel_right hargument] at htrim
    have htrim' : Text.trim "item".toList = "item".toList := by decide
    rw [htrim'] at htrim
    exact absurd htrim (by simp [call])
  have hnot : Inside (call "not" "item".toList) := inside_call (List.all_eq_true.mp rfl) hinside
  obtain ⟨hnegation, hlaw, hbelow, -⟩ := matchesNode_negation_iff ":has(item)" hwell
  obtain ⟨-, -, -, hexcepted⟩ := matchesNode_negation_iff ":has(:not(item))" (by decide +kernel)
  exact ⟨hwell, hnegation, hlaw.mpr hsearch, hbelow _ hinside rfl,
    (hexcepted _ _ hnot hinside rfl (by decide)).1⟩

/-- A search for a negation and its negation both match a node without children. -/
theorem not_negated_search_for_negation :
    (ofString ":has(:not(icon))").malformed = false ∧
      (ofString ":has(:not(icon))").matchesNode (Node.ofClasses ["row"]) = true ∧
      (ofString (":not(" ++ ":has(:not(icon))" ++ ")")).matchesNode (Node.ofClasses ["row"]) = true := by
  decide +kernel

end StyleCascade.Selector
