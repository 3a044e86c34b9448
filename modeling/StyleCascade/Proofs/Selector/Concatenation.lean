/-
# StyleCascade.Proofs.Selector.Concatenation — a selector is put together from its fragments

A qualifier is a text that can be read and starts as a fragment does: with a dot, an opening square bracket
or a colon. Written behind a selector it makes a longer one (`ofString_append`), which asks of a node what
the two ask and weighs what the two weigh. The reader is not met on the way: what it reads is what the grammar
derives, and there a qualifier is a sequence of fragments, which can stand behind any other one, since no name
goes on into its first character.

Sorting by rank is not touched by this either. A list sorted by rank is known from what it has of each rank
(`eq_of_sorted_of_sameByRank`), so it does not matter that the conditions of the two are sorted already.

Therefore qualifiers can change places. And every selector is a base, if it has one, with qualifiers of one
condition each behind it (`exists_join_of_accepted`), so this is about every selector.
-/
import StyleCascade.Proofs.Selector.Negation

namespace StyleCascade

/-! ## Lists of conditions -/

namespace Condition

variable {cs ds : List Condition}

/-- Two lists have the same conditions of each rank, in the same order. -/
def SameByRank (cs ds : List Condition) : Prop :=
  ∀ rank, (cs.filter fun c => c.rank == rank) = ds.filter fun c => c.rank == rank

/-- A list sorted by rank is known from what it has of each rank. -/
theorem eq_of_sorted_of_sameByRank (hcs : cs.Pairwise fun c d => c.rank ≤ d.rank)
    (hds : ds.Pairwise fun c d => c.rank ≤ d.rank) (h : SameByRank cs ds) : cs = ds :=
  eq_of_sorted_of_sameByKey hcs hds h

/-- Sorting by rank can be done to the parts of a list first. -/
theorem sortByRank_append_sortByRank (cs ds : List Condition) :
    sortByRank (sortByRank cs ++ sortByRank ds) = sortByRank (cs ++ ds) := by
  refine eq_of_sorted_of_sameByRank (Selector.sortByRank_sorted _) (Selector.sortByRank_sorted _)
    fun rank => ?_
  rw [Selector.filter_sortByRank, Selector.filter_sortByRank, List.filter_append, List.filter_append,
    Selector.filter_sortByRank, Selector.filter_sortByRank]

theorem sortByRank_perm (cs : List Condition) : (sortByRank cs).Perm cs :=
  stableSort_perm _ cs

theorem totalWeight_append (cs ds : List Condition) :
    totalWeight (cs ++ ds) = totalWeight cs + totalWeight ds := by
  induction cs with
  | nil => exact (Specificity.zero_add _).symm
  | cons c cs ih => rw [List.cons_append, totalWeight, totalWeight, ih, Specificity.add_assoc]

/-- The order of conditions does not matter for their weight. -/
theorem totalWeight_perm (h : cs.Perm ds) : totalWeight cs = totalWeight ds := by
  induction h with
  | nil => rfl
  | cons c _ ih => rw [totalWeight, totalWeight, ih]
  | swap c d cs =>
      simp only [totalWeight]
      rw [← Specificity.add_assoc, ← Specificity.add_assoc, Specificity.add_comm d.weight]
  | trans _ _ ih ih' => exact ih.trans ih'

/-- Nor does it matter for whether they hold. -/
theorem allHold_perm (h : cs.Perm ds) (n : Node) : allHold cs n = allHold ds n := by
  rw [allHold_eq_all, allHold_eq_all, h.all_eq]

theorem allHold_append (cs ds : List Condition) (n : Node) :
    allHold (cs ++ ds) n = (allHold cs n && allHold ds n) := by
  rw [allHold_eq_all, allHold_eq_all, allHold_eq_all, List.all_append]

end Condition

namespace Selector

/-! ## What a selector that was read asks and weighs -/

theorem weight_of_wellFormed {selector : Selector} (h : selector.malformed = false) :
    selector.weight = (if selector.base = universalClass then .zero else .one) +
      Condition.totalWeight selector.conditions := by
  obtain ⟨source, base, conditions, malformed⟩ := selector
  rw [weight, if_neg (by simpa using h)]

theorem matchesNode_of_wellFormed {selector : Selector} (h : selector.malformed = false) (n : Node) :
    selector.matchesNode n = ((selector.base == universalClass || n.hasClass selector.base) &&
      Condition.allHold selector.conditions n) := by
  obtain ⟨source, base, conditions, malformed⟩ := selector
  obtain rfl : malformed = false := h
  rw [matchesNode, Bool.not_false, Bool.true_and]

/-! ## Concatenation in the grammar -/

theorem Fragment.conditions_append (fs gs : List Fragment) :
    Fragment.conditions (fs ++ gs) = Fragment.conditions fs ++ Fragment.conditions gs := by
  induction fs with
  | nil => rfl
  | cons f fs ih => rw [List.cons_append, Fragment.conditions, ih]; rfl

theorem DerivesAll.append {cs ds : List Char} {fs gs : List Fragment} (h : DerivesAll cs fs)
    (hds : DerivesAll ds gs) : DerivesAll (cs ++ ds) (fs ++ gs) := by
  induction fs generalizing cs with
  | nil =>
      obtain rfl := derivesAll_nil_iff.mp h
      exact hds
  | cons f fs ih =>
      cases h with
      | plain hplain hmore =>
          rw [List.append_assoc]
          exact .plain hplain (ih hmore)
      | nested nesting hinside hinner hmore =>
          rw [List.append_assoc]
          exact .nested nesting hinside hinner (ih hmore)

/-- More fragments behind a selector are fragments of it; its base ends where it did. -/
theorem Derives.append {cs ds : List Char} {t : Tree} {gs : List Fragment} (h : Derives cs t)
    (hds : DerivesAll ds gs) : Derives (cs ++ ds) ⟨cs ++ ds, t.base, t.fragments ++ gs⟩ := by
  cases h with
  | @selector _ rest base fs hne hbase hcs hall =>
      have hmore := hall.append hds
      refine .selector (List.append_ne_nil_of_left_ne_nil hne _) ?_ ?_ hmore
      · cases base with
        | none => trivial
        | some base => exact hbase.imp_right fun hname => ⟨hname.1, hmore.endsName⟩
      · rw [← List.append_assoc, ← hcs]

/-! ## Qualifiers -/

/-- A text that can be read, and starts as a fragment does. -/
structure IsQualifier (text : String) : Prop where
  accepted : (ofString text).malformed = false
  starts : ∃ c ∈ text.toList.head?, c = '.' ∨ c = '[' ∨ c = ':'

/-- A qualifier has no base. -/
theorem IsQualifier.derivesAll {text : String} (h : IsQualifier text) :
    ∃ fs, DerivesAll text.toList fs ∧ ofString text = Tree.toSelector ⟨text.toList, none, fs⟩ := by
  obtain ⟨t, ht⟩ := (agrees text.toList).1 h.accepted
  have hread : ofString text = t.toSelector := read_of_derives ht
  obtain ⟨first, hfirst, hstarts⟩ := h.starts
  cases ht with
  | @selector _ rest base fs _ hbase hcs hall =>
      cases base with
      | none =>
          obtain rfl : text.toList = rest := hcs
          exact ⟨fs, hall, hread⟩
      | some base =>
          exfalso
          rw [hcs] at hfirst
          rcases hbase with rfl | ⟨hname, -⟩
          · obtain rfl : '*' = first := Option.some.inj hfirst
            exact absurd hstarts (by decide)
          · rw [Option.getD_some, List.head?_append_of_ne_nil base hname.1] at hfirst
            have hchar := hname.2 first (List.mem_of_mem_head? hfirst)
            rcases hstarts with rfl | rfl | rfl
            · exact absurd hchar (by decide)
            · exact absurd hchar (by decide)
            · exact absurd hchar (by decide)

theorem IsQualifier.base {text : String} (h : IsQualifier text) :
    (ofString text).base = universalClass := by
  obtain ⟨fs, -, hread⟩ := h.derivesAll
  rw [hread]
  rfl

/-! ## A qualifier behind a selector -/

variable {s q : String}

/-- What is read of a selector with a qualifier behind it. -/
theorem ofString_append_eq (hs : (ofString s).malformed = false) (hq : IsQualifier q) :
    ofString (s ++ q) =
      { source := s ++ q
        base := (ofString s).base
        conditions := Condition.sortByRank ((ofString s).conditions ++ (ofString q).conditions)
        malformed := false } := by
  obtain ⟨⟨source, base, fs⟩, ht⟩ := (agrees s.toList).1 hs
  obtain ⟨gs, hall, hread⟩ := hq.derivesAll
  have hself : ofString s = Tree.toSelector ⟨source, base, fs⟩ := read_of_derives ht
  have hboth := read_of_derives (ht.append hall)
  rw [← String.toList_append] at hboth
  rw [hself, hread]
  refine hboth.trans ?_
  simp only [Tree.toSelector, String.ofList_toList, Fragment.conditions_append,
    Condition.sortByRank_append_sortByRank]

theorem accepted_append (hs : (ofString s).malformed = false) (hq : IsQualifier q) :
    (ofString (s ++ q)).malformed = false := by
  rw [ofString_append_eq hs hq]

theorem weight_append (hs : (ofString s).malformed = false) (hq : IsQualifier q) :
    (ofString (s ++ q)).weight = (ofString s).weight + (ofString q).weight := by
  rw [weight_of_wellFormed (accepted_append hs hq), weight_of_wellFormed hs,
    weight_of_wellFormed hq.accepted, ofString_append_eq hs hq, hq.base]
  simp only [if_true, Specificity.zero_add]
  rw [Condition.totalWeight_perm (Condition.sortByRank_perm _), Condition.totalWeight_append,
    Specificity.add_assoc]

theorem matchesNode_append (hs : (ofString s).malformed = false) (hq : IsQualifier q) (n : Node) :
    (ofString (s ++ q)).matchesNode n = ((ofString s).matchesNode n && (ofString q).matchesNode n) := by
  rw [matchesNode_of_wellFormed (accepted_append hs hq), matchesNode_of_wellFormed hs,
    matchesNode_of_wellFormed hq.accepted, ofString_append_eq hs hq, hq.base]
  simp only [beq_self_eq_true, Bool.true_or, Bool.true_and]
  rw [Condition.allHold_perm (Condition.sortByRank_perm _), Condition.allHold_append, Bool.and_assoc]

/-! ## Qualifiers in any order -/

variable {front : String} {qs rs : List String}

/-- A selector with qualifiers behind it weighs what all of them weigh, and asks what all of them ask. -/
theorem weight_and_matchesNode_join (hfront : (ofString front).malformed = false)
    (hqs : ∀ q ∈ qs, IsQualifier q) :
    (ofString (front ++ String.join qs)).weight =
        qs.foldl (fun total q => total + (ofString q).weight) (ofString front).weight ∧
      ∀ n, (ofString (front ++ String.join qs)).matchesNode n =
        ((ofString front).matchesNode n && qs.all fun q => (ofString q).matchesNode n) := by
  induction qs generalizing front with
  | nil =>
      rw [String.join_nil, String.append_empty]
      exact ⟨rfl, fun n => (Bool.and_true _).symm⟩
  | cons q qs ih =>
      rw [List.forall_mem_cons] at hqs
      obtain ⟨hweight, hmatches⟩ := ih (accepted_append hfront hqs.1) hqs.2
      rw [String.join_cons, ← String.append_assoc, hweight, weight_append hfront hqs.1]
      refine ⟨rfl, fun n => ?_⟩
      rw [hmatches, matchesNode_append hfront hqs.1, List.all_cons, Bool.and_assoc]

/-- Without a selector in front, the first qualifier is the one in front of the others. -/
theorem weight_and_matchesNode_join_of_ne_nil (hne : qs ≠ []) (hqs : ∀ q ∈ qs, IsQualifier q) :
    (ofString (String.join qs)).weight =
        qs.foldl (fun total q => total + (ofString q).weight) .zero ∧
      ∀ n, (ofString (String.join qs)).matchesNode n = qs.all fun q => (ofString q).matchesNode n := by
  cases qs with
  | nil => exact absurd rfl hne
  | cons q qs =>
      rw [List.forall_mem_cons] at hqs
      have hjoin := weight_and_matchesNode_join hqs.1.accepted hqs.2
      rw [String.join_cons, List.foldl_cons, Specificity.zero_add]
      exact hjoin

/-- Qualifiers can change places, with or without a selector in front of them. -/
theorem weight_and_matchesNode_perm (hfront : front = "" ∨ (ofString front).malformed = false)
    (h : qs.Perm rs) (hqs : ∀ q ∈ qs, IsQualifier q) :
    (ofString (front ++ String.join qs)).weight = (ofString (front ++ String.join rs)).weight ∧
      ∀ n, (ofString (front ++ String.join qs)).matchesNode n =
        (ofString (front ++ String.join rs)).matchesNode n := by
  have hrs : ∀ r ∈ rs, IsQualifier r := fun r hr => hqs r (h.mem_iff.mpr hr)
  have hfold (total : Specificity) : qs.foldl (fun total q => total + (ofString q).weight) total =
      rs.foldl (fun total q => total + (ofString q).weight) total := by
    refine h.foldl_eq' (fun q _ r _ total => ?_) total
    rw [Specificity.add_assoc, Specificity.add_assoc, Specificity.add_comm (ofString q).weight]
  rcases hfront with rfl | hfront
  · rw [String.empty_append, String.empty_append]
    by_cases hne : qs = []
    · obtain rfl := hne
      rw [List.nil_perm.mp h]
      exact ⟨rfl, fun n => rfl⟩
    · have hne' : rs ≠ [] := fun hnil => hne (List.perm_nil.mp (hnil ▸ h))
      obtain ⟨hweight, hmatches⟩ := weight_and_matchesNode_join_of_ne_nil hne hqs
      obtain ⟨hweight', hmatches'⟩ := weight_and_matchesNode_join_of_ne_nil hne' hrs
      refine ⟨by rw [hweight, hweight', hfold], fun n => ?_⟩
      rw [hmatches, hmatches', h.all_eq]
  · obtain ⟨hweight, hmatches⟩ := weight_and_matchesNode_join hfront hqs
    obtain ⟨hweight', hmatches'⟩ := weight_and_matchesNode_join hfront hrs
    refine ⟨by rw [hweight, hweight', hfold], fun n => ?_⟩
    rw [hmatches, hmatches', h.all_eq]

/-! ## Selectors as qualifiers behind a base -/

/-- The first fragment of a sequence has a text of its own. -/
theorem DerivesAll.exists_cons {cs : List Char} {f : Fragment} {fs : List Fragment}
    (h : DerivesAll cs (f :: fs)) :
    ∃ text rest, cs = text ++ rest ∧ DerivesAll text [f] ∧ DerivesAll rest fs := by
  cases h with
  | @plain text rest c _ hplain hmore =>
      have hone := DerivesAll.plain hplain .nil
      rw [List.append_nil] at hone
      exact ⟨text, rest, rfl, hone, hmore⟩
  | @nested argument rest nesting inner _ hinside hinner hmore =>
      have hone := DerivesAll.nested nesting hinside hinner .nil
      rw [List.append_nil] at hone
      exact ⟨call nesting.word argument, rest, rfl, hone, hmore⟩

/-- The text of one fragment is a qualifier of one condition. -/
theorem isQualifier_of_derivesAll {cs : List Char} {f : Fragment} (h : DerivesAll cs [f]) :
    IsQualifier (String.ofList cs) ∧ (ofString (String.ofList cs)).conditions = [f.condition] := by
  cases cs with
  | nil =>
      obtain ⟨_, _, hnone, _⟩ := derivesAll_cons_iff.mp h
      exact absurd hnone (by simp [readPiece?])
  | cons first cs =>
      have hderives : Derives (first :: cs) ⟨first :: cs, none, [f]⟩ :=
        .selector (List.cons_ne_nil _ _) trivial rfl h
      have hself : ofString (String.ofList (first :: cs)) =
          Tree.toSelector ⟨first :: cs, none, [f]⟩ := by
        rw [ofString, String.toList_ofList, read_of_derives hderives]
      refine ⟨⟨?_, first, ?_, h.starts first rfl⟩, ?_⟩
      · rw [hself, Tree.toSelector_malformed]
      · rw [String.toList_ofList]
        rfl
      · rw [hself]
        rfl

/-- A sequence of fragments is made of qualifiers of one condition each. -/
theorem DerivesAll.exists_join {cs : List Char} {fs : List Fragment} (h : DerivesAll cs fs) :
    ∃ qs : List String, String.ofList cs = String.join qs ∧
      ∀ q ∈ qs, IsQualifier q ∧ ∃ c, (ofString q).conditions = [c] := by
  induction fs generalizing cs with
  | nil =>
      obtain rfl := derivesAll_nil_iff.mp h
      exact ⟨[], rfl, fun q hq => absurd hq List.not_mem_nil⟩
  | cons f fs ih =>
      obtain ⟨text, rest, rfl, hone, hmore⟩ := h.exists_cons
      obtain ⟨qs, hjoin, hqs⟩ := ih hmore
      obtain ⟨hqualifier, hcondition⟩ := isQualifier_of_derivesAll hone
      refine ⟨String.ofList text :: qs, ?_, ?_⟩
      · rw [String.ofList_append, hjoin, String.join_cons]
      · rw [List.forall_mem_cons]
        exact ⟨⟨hqualifier, f.condition, hcondition⟩, hqs⟩

/-- Every selector is a bare base, or none, with qualifiers of one condition each behind it. -/
theorem exists_join_of_accepted (hs : (ofString s).malformed = false) :
    ∃ (front : String) (qs : List String), s = front ++ String.join qs ∧
      (front = "" ∨ (ofString front).malformed = false ∧ (ofString front).conditions = []) ∧
      ∀ q ∈ qs, IsQualifier q ∧ ∃ c, (ofString q).conditions = [c] := by
  obtain ⟨t, ht⟩ := (agrees s.toList).1 hs
  cases ht with
  | @selector _ rest base fs _ hbase hcs hall =>
      obtain ⟨qs, hjoin, hqs⟩ := hall.exists_join
      refine ⟨String.ofList (base.getD []), qs, ?_, ?_, hqs⟩
      · rw [← hjoin, ← String.ofList_append, ← hcs, String.ofList_toList]
      · cases base with
        | none => exact .inl rfl
        | some base =>
            right
            have hbare : IsBase [] (some base) := hbase.imp_right fun hname => ⟨hname.1, endsName_nil⟩
            have hread := read_of_derives
              (.selector hbare.ne_nil hbare (List.append_nil base).symm .nil)
            have hself : ofString (String.ofList base) = Tree.toSelector ⟨base, some base, []⟩ := by
              rw [ofString, String.toList_ofList, hread]
            rw [Option.getD_some, hself]
            exact ⟨rfl, rfl⟩

/-! ## The law of concatenation -/

/-- Take a selector that can be read, and a qualifier.

- The one with the other behind it can be read too. It has the base of the selector, and the conditions of
  the selector and then those of the qualifier, sorted by rank with those of one rank in their order.
- Its weight is the sum of the two weights, cut at the ceiling.
- It matches exactly the nodes that both match.
- So qualifiers can be written in any order, behind the selector or with nothing in front of them, for the
  same weight and the same nodes. -/
theorem ofString_append (hs : (ofString s).malformed = false) (hq : IsQualifier q) :
    ofString (s ++ q) =
        { source := s ++ q
          base := (ofString s).base
          conditions := Condition.sortByRank ((ofString s).conditions ++ (ofString q).conditions)
          malformed := false } ∧
      (ofString (s ++ q)).weight = (ofString s).weight + (ofString q).weight ∧
      (∀ n, (ofString (s ++ q)).matchesNode n =
        ((ofString s).matchesNode n && (ofString q).matchesNode n)) ∧
      ∀ front, front = "" ∨ front = s → ∀ qs rs : List String, qs.Perm rs →
        (∀ q ∈ qs, IsQualifier q) →
          (ofString (front ++ String.join qs)).weight = (ofString (front ++ String.join rs)).weight ∧
          ∀ n, (ofString (front ++ String.join qs)).matchesNode n =
            (ofString (front ++ String.join rs)).matchesNode n := by
  refine ⟨ofString_append_eq hs hq, weight_append hs hq, matchesNode_append hs hq, ?_⟩
  rintro front hfront qs rs hperm hqs
  refine weight_and_matchesNode_perm (hfront.imp_right ?_) hperm hqs
  rintro rfl
  exact hs

/-- Behind a base, a search and a class, the new negation goes in front of the search, and the new class
behind the one that was there. The negation and the class can change places. -/
theorem ofString_append_card :
    (ofString "card:has(icon).a").malformed = false ∧ IsQualifier ":not(.b).c" ∧
      (ofString ("card:has(icon).a" ++ ":not(.b).c")).malformed = false ∧
      (ofString ("card:has(icon).a" ++ ":not(.b).c")).conditions.map Condition.rank = [0, 0, 5, 6] ∧
      (ofString ("card:has(icon).a" ++ ":not(.b).c")).weight.value = 1 + 2 + 1 + 1 + 1 ∧
      (∀ n, (ofString ("card:has(icon).a" ++ ":not(.b).c")).matchesNode n =
        ((ofString "card:has(icon).a").matchesNode n && (ofString ":not(.b).c").matchesNode n)) ∧
      ∀ n, (ofString ":not(.b).c").matchesNode n = (ofString ".c:not(.b)").matchesNode n := by
  have hs : (ofString "card:has(icon).a").malformed = false := by decide +kernel
  have hq : IsQualifier ":not(.b).c" := ⟨by decide +kernel, ':', rfl, .inr (.inr rfl)⟩
  have hparts : ∀ q ∈ [":not(.b)", ".c"], IsQualifier q := by
    rw [List.forall_mem_cons, List.forall_mem_singleton]
    exact ⟨⟨by decide +kernel, ':', rfl, .inr (.inr rfl)⟩, by decide +kernel, '.', rfl, .inl rfl⟩
  obtain ⟨hread, hweight, hmatches, hperm⟩ := ofString_append hs hq
  refine ⟨hs, hq, by rw [hread], by decide +kernel, by decide +kernel, hmatches, fun n => ?_⟩
  exact (hperm "" (.inl rfl) [":not(.b)", ".c"] [".c", ":not(.b)"] (.swap ..) hparts).2 n

end Selector

end StyleCascade
