/-
# StyleCascade.Proofs.Sheet.SelectorKeys — selectors as keys

Keys and selectors are read by two scanners. The one for keys counts open brackets without looking at their
kind, and knows quotes everywhere. The one for selectors keeps the open brackets on a stack, and knows
quotes inside brackets only. On the text of a selector they agree: what stands in brackets there is closed
in matching pairs, so counting them is enough, and outside of brackets a selector has no quote.

So a selector that is read is one segment of a key and refers to nothing (`Derives.sealed`), selectors with
white space between them are the segments of the key they make up, and a sheet in which every key is a
selector is in normal form.
-/
import StyleCascade.Proofs.Selector.Negation
import StyleCascade.Proofs.Sheet.NormalForm

namespace StyleCascade

/-! ## The inside of a group in a key -/

namespace Key

open Selector (Inside closerOf? isCloser isQuote)

namespace Surround

theorem after_plain {c : Char} (hquote : isQuote c = false) (hopen : closerOf? c = none)
    (hclose : isCloser c = false) (depth : Nat) : after ⟨depth, none⟩ c = ⟨depth, none⟩ := by
  simp [after, hquote, hopen, hclose]

theorem after_quote {q : Char} (h : isQuote q = true) (depth : Nat) :
    after ⟨depth, none⟩ q = ⟨depth, some q⟩ := by
  simp [after, h]

theorem after_opener {opener closer : Char} (h : closerOf? opener = some closer) (depth : Nat) :
    after ⟨depth, none⟩ opener = ⟨depth + 1, none⟩ := by
  simp [after, Selector.isQuote_of_closerOf? h, h]

theorem after_closer {closer : Char} (h : isCloser closer = true) (depth : Nat) :
    after ⟨depth + 1, none⟩ closer = ⟨depth, none⟩ := by
  obtain ⟨hquote, hopen⟩ := Selector.plain_of_isCloser h
  simp [after, hquote, hopen, h]

theorem after_endQuote (q : Char) (depth : Nat) : after ⟨depth, some q⟩ q = ⟨depth, none⟩ := by
  simp [after]

theorem after_of_ne {q c : Char} (h : c ≠ q) (depth : Nat) :
    after ⟨depth, some q⟩ c = ⟨depth, some q⟩ := by
  simp [after, h]

theorem foldl_after_of_not_mem {q : Char} {text : List Char} (h : q ∉ text) (depth : Nat) :
    text.foldl after ⟨depth, some q⟩ = ⟨depth, some q⟩ := by
  induction text with
  | nil => rfl
  | cons c text ih =>
      rw [List.mem_cons, not_or] at h
      rw [List.foldl_cons, after_of_ne (Ne.symm h.1), ih h.2]

/-- The inside of a group leaves open what was open before it. -/
theorem foldl_after_of_inside {cs : List Char} (h : Inside cs) (depth : Nat) :
    cs.foldl after ⟨depth, none⟩ = ⟨depth, none⟩ := by
  induction h generalizing depth with
  | nil => rfl
  | char hquote hopen hclose _ ih => rw [List.foldl_cons, after_plain hquote hopen hclose, ih]
  | quoted hquote htext _ ih =>
      rw [List.cons_append, List.foldl_cons, List.foldl_append, List.foldl_cons,
        after_quote hquote, foldl_after_of_not_mem htext, after_endQuote, ih]
  | group hopener _ _ ihinner ih =>
      rw [List.cons_append, List.foldl_cons, List.foldl_append, List.foldl_cons,
        after_opener hopener, ihinner, after_closer (Selector.isCloser_of_closerOf? hopener), ih]

/-- Below an open bracket nothing stands at top level. -/
theorem isTop_below (depth : Nat) (c : Char) : isTop ⟨depth + 1, none⟩ c = false := by
  simp [isTop]

/-- In an open quote nothing stands at top level. -/
theorem isTop_quoted (depth : Nat) (q c : Char) : isTop ⟨depth, some q⟩ c = false := by
  simp [isTop]

end Surround

theorem forall_marked_quote {q : Char} (text : List Char) (h : q ∉ text) (depth : Nat) :
    ∀ mark ∈ marked ⟨depth, some q⟩ text, mark.2 = false := by
  induction text with
  | nil => exact fun mark hmark => absurd hmark List.not_mem_nil
  | cons c text ih =>
      rw [List.mem_cons, not_or] at h
      rw [marked, Surround.after_of_ne (Ne.symm h.1), List.forall_mem_cons]
      exact ⟨Surround.isTop_quoted depth q c, ih h.2⟩

/-- Below an open bracket, the inside of a group has no character at top level. -/
theorem forall_marked_inside {cs : List Char} (h : Inside cs) (depth : Nat) :
    ∀ mark ∈ marked ⟨depth + 1, none⟩ cs, mark.2 = false := by
  induction h generalizing depth with
  | nil => exact fun mark hmark => absurd hmark List.not_mem_nil
  | @char c cs hquote hopen hclose _ ih =>
      rw [marked, Surround.after_plain hquote hopen hclose, List.forall_mem_cons]
      exact ⟨Surround.isTop_below depth c, ih depth⟩
  | @quoted q text cs hquote htext _ ih =>
      rw [List.cons_append, marked, Surround.after_quote hquote, marked_append,
        Surround.foldl_after_of_not_mem htext, marked, Surround.after_endQuote,
        List.forall_mem_cons, List.forall_mem_append, List.forall_mem_cons]
      exact ⟨Surround.isTop_below depth q, forall_marked_quote text htext _,
        Surround.isTop_quoted (depth + 1) q q, ih depth⟩
  | @group opener closer inner cs hopener hinner _ ihinner ih =>
      rw [List.cons_append, marked, Surround.after_opener hopener, marked_append,
        Surround.foldl_after_of_inside hinner, marked,
        Surround.after_closer (Selector.isCloser_of_closerOf? hopener), List.forall_mem_cons,
        List.forall_mem_append, List.forall_mem_cons]
      exact ⟨Surround.isTop_below depth opener, ihinner (depth + 1),
        Surround.isTop_below (depth + 1) closer, ih depth⟩

/-! ## Sealed texts -/

/-- A text that is closed and has no gap and no reference. -/
structure Sealed (cs : List Char) : Prop where
  closed : cs.foldl Surround.after {} = {}
  solid : ∀ mark ∈ marked {} cs, isGap mark = false ∧ isReference mark = false

namespace Sealed

theorem nil : Sealed [] :=
  ⟨rfl, fun _ hmark => absurd hmark List.not_mem_nil⟩

theorem append {cs ds : List Char} (h : Sealed cs) (hds : Sealed ds) : Sealed (cs ++ ds) := by
  constructor
  · rw [List.foldl_append, h.closed, hds.closed]
  · rw [marked_append, h.closed, List.forall_mem_append]
    exact ⟨h.solid, hds.solid⟩

theorem cons {c : Char} (hafter : Surround.after {} c = {}) (hspace : Text.isSpace c = false)
    (href : c ≠ '&') {cs : List Char} (h : Sealed cs) : Sealed (c :: cs) := by
  constructor
  · rw [List.foldl_cons, hafter, h.closed]
  · rw [marked, hafter, List.forall_mem_cons]
    refine ⟨⟨?_, ?_⟩, h.solid⟩
    · rw [isGap, hspace, Bool.and_false]
    · rw [isReference, beq_false_of_ne href, Bool.and_false]

theorem group {opener closer : Char} (hopener : closerOf? opener = some closer) {inner : List Char}
    (hinner : Inside inner) : Sealed (opener :: (inner ++ [closer])) := by
  have hopen := Surround.after_opener hopener 0
  have hclose := Surround.after_closer (Selector.isCloser_of_closerOf? hopener) 0
  -- the brackets themselves are not at top level either
  have hbracket : ∀ s : Surround, s.isTop opener = false := fun s => by
    simp [Surround.isTop, hopener]
  constructor
  · rw [List.foldl_cons, List.foldl_append, hopen, Surround.foldl_after_of_inside hinner]
    exact hclose
  · have hflat : ∀ mark ∈ marked {} (opener :: (inner ++ [closer])), mark.2 = false := by
      rw [marked, hopen, marked_append, Surround.foldl_after_of_inside hinner,
        List.forall_mem_cons, List.forall_mem_append]
      refine ⟨hbracket {}, forall_marked_inside hinner 0, ?_⟩
      exact List.forall_mem_singleton.mpr (Surround.isTop_below 0 closer)
    intro mark hmark
    rw [isGap, isReference, hflat mark hmark]
    exact ⟨rfl, rfl⟩

theorem of_isNameChar {cs : List Char} (h : ∀ c ∈ cs, Selector.isNameChar c = true) :
    Sealed cs := by
  induction cs with
  | nil => exact nil
  | cons c cs ih =>
      rw [List.forall_mem_cons] at h
      obtain ⟨hquote, hopen, hclose⟩ := Selector.plain_of_forall (by rfl) h.1
      refine cons (Surround.after_plain hquote hopen hclose 0) (Selector.isSpace_of_isNameChar h.1)
        ?_ (ih h.2)
      rintro rfl
      exact absurd h.1 (by decide)

end Sealed

end Key

/-! ## Selectors are sealed -/

namespace Selector

open Key (Sealed)

theorem sealed_call {word : String} {argument : List Char}
    (hword : ∀ c ∈ word.toList, isNameChar c = true) (h : Inside argument) :
    Sealed (call word argument) :=
  .cons (by decide) (by decide) (by decide) ((Sealed.of_isNameChar hword).append (.group rfl h))

theorem IsPlain.sealed {text : List Char} {c : Condition} (h : IsPlain text c) : Sealed text := by
  cases h with
  | hasClass hname =>
      exact .cons (by decide) (by decide) (by decide) (.of_isNameChar hname.2)
  | bracket hbody _ => exact .group rfl hbody
  | flag flag =>
      exact .cons (by decide) (by decide) (by decide) (.of_isNameChar (isNameChar_flag flag))
  | nth hargument _ => exact sealed_call (List.all_eq_true.mp rfl) hargument

theorem DerivesAll.sealed {cs : List Char} {fs : List Fragment} (h : DerivesAll cs fs) :
    Sealed cs := by
  induction fs generalizing cs with
  | nil =>
      obtain rfl := derivesAll_nil_iff.mp h
      exact .nil
  | cons f fs ih =>
      cases h with
      | plain hplain hmore => exact hplain.sealed.append (ih hmore)
      | nested nesting hargument _ hmore =>
          exact (sealed_call (isNameChar_nesting nesting) hargument).append (ih hmore)

/-- The text of a selector is sealed and not empty. -/
theorem Derives.sealed {cs : List Char} {t : Tree} (h : Derives cs t) : Sealed cs ∧ cs ≠ [] := by
  cases h with
  | @selector _ rest base fs hne hbase hcs hall =>
      refine ⟨?_, hne⟩
      subst hcs
      refine Sealed.append ?_ hall.sealed
      cases base with
      | none => exact .nil
      | some base =>
          rcases hbase with rfl | ⟨hname, _⟩
          · exact .cons (by decide) (by decide) (by decide) .nil
          · exact .of_isNameChar hname.2

theorem sealed_of_accepted {s : String} (h : (ofString s).malformed = false) :
    Sealed s.toList ∧ s.toList ≠ [] := by
  obtain ⟨t, ht⟩ := (agrees s.toList).1 h
  exact ht.sealed

end Selector

/-! ## Selectors as segments -/

namespace Key

/-- Nothing of a sealed text is split off, whatever follows. -/
theorem segments_append_of_sealed {cs : List Char} (h : Sealed cs) (rest : List Char) :
    segments (cs ++ rest) = runs cs (marked {} rest) := by
  unfold segments
  rw [marked_append, h.closed, runs_append_of_no_gap (fun mark hmark => (h.solid mark hmark).1),
    map_fst_marked, List.nil_append]

theorem segments_of_sealed {cs : List Char} (h : Sealed cs) (hne : cs ≠ []) : segments cs = [cs] := by
  have := segments_append_of_sealed h []
  rw [List.append_nil, marked, runs, if_neg hne] at this
  exact this

/-- White space ends the segment before it. -/
theorem segments_append_of_spaces {cs gap : List Char} (h : Sealed cs) (hne : cs ≠ [])
    (hgap : gap ≠ []) (hspaces : ∀ c ∈ gap, Text.isSpace c = true) (rest : List Char) :
    segments (cs ++ (gap ++ rest)) = cs :: segments rest := by
  obtain ⟨hgaps, hafter⟩ := marked_of_spaces hspaces
  have hmarked : marked {} gap ≠ [] := by
    intro hnil
    have := map_fst_marked {} gap
    rw [hnil] at this
    exact hgap this.symm
  rw [segments_append_of_sealed h, marked_append, hafter, runs_append_of_gaps hgaps hmarked, runs,
    if_neg hne]
  rfl

/-- Texts one after the other, each of them but the first with a gap in front of it. -/
def joined (first : String) (rest : List (List Char × String)) : List Char :=
  first.toList ++ rest.flatMap fun p => p.1 ++ p.2.toList

theorem segments_joined {first : String} {rest : List (List Char × String)}
    (hfirst : Sealed first.toList ∧ first.toList ≠ [])
    (hrest : ∀ p ∈ rest, (p.1 ≠ [] ∧ ∀ c ∈ p.1, Text.isSpace c = true) ∧
      Sealed p.2.toList ∧ p.2.toList ≠ []) :
    segments (joined first rest) = first.toList :: rest.map fun p => p.2.toList := by
  unfold joined
  -- each text that follows is the first one of what is left
  induction rest generalizing first with
  | nil =>
      rw [List.flatMap_nil, List.append_nil, List.map_nil]
      exact segments_of_sealed hfirst.1 hfirst.2
  | cons next rest ih =>
      rw [List.forall_mem_cons] at hrest
      obtain ⟨⟨⟨hgap, hspaces⟩, hnext⟩, hrest⟩ := hrest
      rw [List.flatMap_cons, List.append_assoc,
        segments_append_of_spaces hfirst.1 hfirst.2 hgap hspaces, ih hnext hrest, List.map_cons]

/-- A selector is settled as a key. -/
theorem settled_of_accepted {key : String} (h : (Selector.ofString key).malformed = false) :
    Settled key := by
  obtain ⟨hsealed, _⟩ := Selector.sealed_of_accepted h
  exact settled_of_forall hsealed.solid

end Key

/-! ## Selectors as the keys of a sheet -/

variable {m : Type → Type}

namespace Sheet

/-- A selector that is read without fault refers to nothing as a key, and is one segment. Such selectors
with any white space between them are split into themselves. So a sheet is its own expansion if its keys,
property names aside, are such selectors at every depth, and none stands twice on one level. -/
theorem selectors_stay_whole :
    (∀ s : String, (Selector.ofString s).malformed = false →
      Key.hasReference s.toList = false ∧ Key.segments s.toList = [s.toList]) ∧
    (∀ (first : String) (rest : List (List Char × String)),
      (Selector.ofString first).malformed = false →
      (∀ p ∈ rest, (p.1 ≠ [] ∧ ∀ c ∈ p.1, Text.isSpace c = true) ∧
        (Selector.ofString p.2).malformed = false) →
      Key.segments (Key.joined first rest) = first.toList :: rest.map fun p => p.2.toList) ∧
    ∀ sheet : Sheet m, (Style.nested sheet).Tidy →
      (Style.nested sheet).EveryKey (fun key => (Selector.ofString key).malformed = false) →
      sheet.expand = sheet := by
  refine ⟨fun s hs => ?_, fun first rest hfirst hrest => ?_, fun sheet htidy hkeys => ?_⟩
  · obtain ⟨hsealed, hne⟩ := Selector.sealed_of_accepted hs
    exact ⟨(Key.settled_of_accepted hs).refers, Key.segments_of_sealed hsealed hne⟩
  · refine Key.segments_joined (Selector.sealed_of_accepted hfirst) fun p hp => ?_
    obtain ⟨hgap, hp⟩ := hrest p hp
    exact ⟨hgap, Selector.sealed_of_accepted hp⟩
  · exact expand_eq_self htidy (hkeys.mono fun _ => Key.settled_of_accepted)

/-- Brackets and quotes hide a space, an `&` and a closing bracket. -/
theorem selectors_stay_whole_card :
    let card := "card[title='a & b']"
    let search := ".list:not(:has(row[end=')']))"
    let sheet : Sheet Id := [("gap", .value (.text "1")), (card, .nested [(search, .declaration {})])]
    (Selector.ofString card).malformed = false ∧ (Selector.ofString search).malformed = false ∧
      Key.segments card.toList = [card.toList] ∧
      Key.segments (Key.joined card [([' ', '\n'], search)]) = [card.toList, search.toList] ∧
      sheet.expand = sheet := by
  intro card search sheet
  have hcard : (Selector.ofString card).malformed = false := by decide +kernel
  have hsearch : (Selector.ofString search).malformed = false := by decide +kernel
  have hinner : (Style.nested [(search, .declaration {})] : Style Id).Tidy :=
    .nested (by decide +kernel) (List.forall_mem_singleton.mpr (.declaration _))
  have htidy : (Style.nested sheet).Tidy :=
    .nested (by decide +kernel) (List.forall_mem_cons.mpr
      ⟨.value _, List.forall_mem_singleton.mpr hinner⟩)
  have hkeys : (Style.nested sheet).EveryKey fun key => (Selector.ofString key).malformed = false := by
    refine .nested (List.forall_mem_cons.mpr ⟨fun h => absurd h (by simp [Style.isValue]),
      List.forall_mem_singleton.mpr fun _ => hcard⟩) (List.forall_mem_cons.mpr ⟨.value _,
      List.forall_mem_singleton.mpr (.nested ?_ ?_)⟩)
    · exact List.forall_mem_singleton.mpr fun _ => hsearch
    · exact List.forall_mem_singleton.mpr (.declaration _)
  obtain ⟨hwhole, hsplit, hexpand⟩ := @selectors_stay_whole Id
  exact ⟨hcard, hsearch, (hwhole card hcard).2, hsplit card _ hcard
    (List.forall_mem_singleton.mpr ⟨⟨by decide, List.all_eq_true.mp rfl⟩, hsearch⟩), hexpand sheet htidy hkeys⟩

end Sheet

end StyleCascade
