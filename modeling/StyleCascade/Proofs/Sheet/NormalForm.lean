/-
# StyleCascade.Proofs.Sheet.NormalForm — expanding brings a sheet into normal form

A key is settled if it refers to nothing and has no gap, or is white space only. A sheet is in normal form
if all of its keys are settled, at every depth.

Expanding gives a normal form (`everyKey_settled_expand`). Resolving leaves no reference behind, since what
is filled into a key is a key that refers to nothing itself; splitting a key without references gives
segments that are settled, since a gap stands where nothing is open and each segment is read as it was
read inside the key; and merging brings in no key of its own.

Expanding leaves a normal form as it is (`expand_eq_self`): nothing moves, and every entry is placed under
its own key, behind the entries before it. So expanding twice is expanding once.
-/
import StyleCascade.Proofs.Selector.Group
import StyleCascade.Proofs.Sheet.Clauses

namespace StyleCascade

/-! ## Settled keys -/

namespace Key

/-- The key refers to nothing and has no gap, or is white space only. -/
structure Settled (key : String) : Prop where
  refers : hasReference key.toList = false
  unbroken : (marks key).any isGap = true → ∀ c ∈ key.toList, Text.isSpace c = true

theorem hasReference_eq_false_iff {cs : List Char} :
    hasReference cs = false ↔ ∀ mark ∈ marked {} cs, isReference mark = false := by
  simp only [hasReference, List.any_eq_false, Bool.not_eq_true]

/-- A key is settled if no character of it is a gap or a reference. -/
theorem settled_of_forall {key : String}
    (h : ∀ mark ∈ marks key, isGap mark = false ∧ isReference mark = false) : Settled key := by
  refine ⟨hasReference_eq_false_iff.mpr fun mark hmark => (h mark hmark).2, fun hgap => ?_⟩
  obtain ⟨mark, hmark, hgap⟩ := List.any_eq_true.mp hgap
  rw [(h mark hmark).1] at hgap
  exact absurd hgap Bool.false_ne_true

/-- Marked characters without a gap are one run. -/
theorem runs_append_of_no_gap {ms : Marks} (h : ∀ mark ∈ ms, isGap mark = false) (word : List Char)
    (rest : Marks) : runs word (ms ++ rest) = runs (word ++ ms.map fun mark => mark.1) rest := by
  induction ms generalizing word with
  | nil => rw [List.nil_append, List.map_nil, List.append_nil]
  | cons mark ms ih =>
      rw [List.forall_mem_cons] at h
      rw [List.cons_append, runs, h.1, if_neg Bool.false_ne_true, ih h.2, List.map_cons,
        List.append_assoc]
      rfl

/-- Gaps end the run before them, if there is one. -/
theorem runs_append_of_gaps {ms : Marks} (h : ∀ mark ∈ ms, isGap mark = true) (hne : ms ≠ [])
    (word : List Char) (rest : Marks) : runs word (ms ++ rest) = runs word [] ++ runs [] rest := by
  induction ms generalizing word with
  | nil => exact absurd rfl hne
  | cons mark ms ih =>
      rw [List.forall_mem_cons] at h
      have hrest : runs [] (ms ++ rest) = runs [] rest := by
        cases ms with
        | nil => rfl
        | cons next ms => exact ih h.2 (List.cons_ne_nil _ _) []
      rw [List.cons_append, runs.eq_def word [], runs.eq_def word (mark :: _)]
      simp only [h.1, if_true, hrest]
      split
      · rfl
      · rfl

theorem forall_isGap_of_runs_eq_nil {word : List Char} {ms : Marks} (h : runs word ms = []) :
    word = [] ∧ ∀ mark ∈ ms, isGap mark = true := by
  induction ms generalizing word with
  | nil =>
      rw [runs, ite_eq_left_iff] at h
      refine ⟨?_, fun mark hmark => absurd hmark List.not_mem_nil⟩
      by_contra hword
      exact absurd (h hword) (by simp)
  | cons mark ms ih =>
      rw [runs] at h
      split at h
      · rename_i hgap
        split at h
        · rename_i hword
          exact ⟨hword, List.forall_mem_cons.mpr ⟨hgap, (ih h).2⟩⟩
        · exact absurd h (by simp)
      · exact absurd (ih h).1 (by simp)

/-- White space stands where it is a gap. -/
theorem isGap_of_isSpace {c : Char} (h : Text.isSpace c = true) :
    isGap (c, Surround.isTop {} c) = true ∧ Surround.after {} c = {} := by
  obtain ⟨hquote, hopener, hcloser⟩ := Selector.plain_of_forall (by rfl) h
  have htop : Surround.isTop {} c = true := by
    simp [Surround.isTop, hquote, hopener, hcloser]
  exact ⟨by rw [isGap, htop, h]; rfl, (Surround.of_isTop htop).2⟩

theorem marked_of_spaces {cs : List Char} (h : ∀ c ∈ cs, Text.isSpace c = true) :
    (∀ mark ∈ marked {} cs, isGap mark = true) ∧ cs.foldl Surround.after {} = {} := by
  induction cs with
  | nil => exact ⟨fun mark hmark => absurd hmark List.not_mem_nil, rfl⟩
  | cons c cs ih =>
      rw [List.forall_mem_cons] at h
      obtain ⟨hgap, hafter⟩ := isGap_of_isSpace h.1
      rw [marked, List.foldl_cons, List.forall_mem_cons, hafter]
      exact ⟨⟨hgap, (ih h.2).1⟩, (ih h.2).2⟩

/-- A key without a gap stands for itself. -/
theorem path_of_unbroken {key : String} (h : ∀ mark ∈ marks key, isGap mark = false) :
    path key = [key] := by
  have hmarks : ∀ mark ∈ marked {} key.toList, isGap mark = false := h
  have hsegments : segments key.toList = if key.toList = [] then [] else [key.toList] := by
    unfold segments
    rw [← List.append_nil (marked {} key.toList), runs_append_of_no_gap hmarks, map_fst_marked,
      List.nil_append, runs]
  unfold path
  rw [hsegments]
  by_cases hempty : key.toList = []
  · rw [if_pos hempty]
  · rw [if_neg hempty]
    show [String.ofList key.toList] = [key]
    rw [String.ofList_toList]

/-- A settled key stands for itself. -/
theorem path_of_settled {key : String} (h : Settled key) : path key = [key] := by
  cases hgap : (marks key).any isGap with
  | true =>
      -- white space only has gaps only
      have hspaces := (marked_of_spaces (h.unbroken hgap)).1
      have hne : marked {} key.toList ≠ [] := by
        intro hnil
        rw [marks, hnil] at hgap
        exact absurd hgap (by simp)
      have hsegments : segments key.toList = [] := by
        unfold segments
        rw [← List.append_nil (marked {} key.toList), runs_append_of_gaps hspaces hne]
        rfl
      unfold path
      rw [hsegments]
  | false =>
      rw [List.any_eq_false] at hgap
      exact path_of_unbroken fun mark hmark => by simpa using hgap mark hmark

/-! ## The segments of a key -/

/-- Each run is read by itself as it was read in the key: without gaps, and with no other marks. -/
theorem unbroken_of_mem_runs {p : Char × Bool → Prop} (word : List Char) {cs : List Char}
    (hword : ∀ mark ∈ marked {} word, isGap mark = false ∧ p mark)
    (hcs : ∀ mark ∈ marked (word.foldl Surround.after {}) cs, p mark) :
    ∀ run ∈ runs word (marked (word.foldl Surround.after {}) cs),
      ∀ mark ∈ marked {} run, isGap mark = false ∧ p mark := by
  induction cs generalizing word with
  | nil =>
      intro run hrun
      rw [marked, runs] at hrun
      split at hrun
      · exact absurd hrun List.not_mem_nil
      · rw [List.mem_singleton.mp hrun]
        exact hword
  | cons c cs ih =>
      rw [marked, List.forall_mem_cons] at hcs
      rw [marked, runs]
      by_cases hgap : isGap (c, (word.foldl Surround.after {}).isTop c) = true
      · -- after a gap nothing is open, so the next run is read as from the start
        have htop : (word.foldl Surround.after {}).isTop c = true := by
          unfold isGap at hgap
          exact (Bool.and_eq_true _ _ ▸ hgap).1
        obtain ⟨hempty, hafter⟩ := Surround.of_isTop htop
        have hfresh := ih [] (fun mark hmark => absurd hmark List.not_mem_nil)
        rw [List.foldl_nil] at hfresh
        rw [hafter, hempty] at hcs ⊢
        rw [if_pos (by rw [hempty] at hgap; exact hgap)]
        intro run hrun
        split at hrun
        · exact hfresh hcs.2 run hrun
        · rcases List.mem_cons.mp hrun with rfl | hrun
          · exact hword
          · exact hfresh hcs.2 run hrun
      · rw [if_neg hgap]
        rw [Bool.not_eq_true] at hgap
        have hnext := ih (word ++ [c])
        rw [List.foldl_append, marked_append] at hnext
        refine hnext (fun mark hmark => ?_) hcs.2
        rcases List.mem_append.mp hmark with hmark | hmark
        · exact hword mark hmark
        · rw [List.mem_singleton.mp hmark]
          exact ⟨hgap, hcs.1⟩

/-- A key is placed under keys whose marks are its own: under the key itself if it is white space only, and else
under keys without a gap. -/
theorem marks_of_mem_path {p : Char × Bool → Prop} {key : String} (hp : ∀ mark ∈ marks key, p mark) :
    ∀ k ∈ path key, (k = key ∧ ∀ mark ∈ marks key, isGap mark = true) ∨
      ∀ mark ∈ marks k, isGap mark = false ∧ p mark := by
  intro k hk
  unfold path at hk
  split at hk
  · -- without segments there are gaps only
    rename_i hnil
    exact .inl ⟨List.mem_singleton.mp hk, (forall_isGap_of_runs_eq_nil hnil).2⟩
  · obtain ⟨run, hrun, rfl⟩ := List.mem_map.mp hk
    have hmarks := unbroken_of_mem_runs [] (fun mark hmark => absurd hmark List.not_mem_nil) hp run hrun
    refine .inr fun mark hmark => hmarks mark ?_
    rwa [marks, String.toList_ofList] at hmark

/-- A key without references is placed under settled keys. -/
theorem settled_of_mem_path {key : String} (h : hasReference key.toList = false) :
    ∀ k ∈ path key, Settled k := by
  intro k hk
  rcases marks_of_mem_path (hasReference_eq_false_iff.mp h) k hk with ⟨rfl, hgaps⟩ | hmarks
  · refine ⟨h, fun _ c hc => ?_⟩
    rw [← map_fst_marked {} k.toList] at hc
    obtain ⟨mark, hmark, rfl⟩ := List.mem_map.mp hc
    have hgap := hgaps mark hmark
    unfold isGap at hgap
    exact (Bool.and_eq_true _ _ ▸ hgap).2
  · exact settled_of_forall hmarks

/-! ## Resolved keys -/

/-- The key is closed and refers to nothing. -/
structure Resolved (key : String) : Prop where
  closed : isClosed key.toList = true
  refers : hasReference key.toList = false

/-- A key that refers to nothing stands for itself below any other one. -/
theorem resolve_of_not_hasReference {key : String} (h : hasReference key.toList = false)
    (enclosing : Option String) : resolve enclosing key = (key, false) := by
  unfold resolve
  cases enclosing with
  | none => rfl
  | some outer => simp only [h, Bool.false_eq_true, if_false]

/-- Filling in a resolved key leaves no reference. -/
theorem hasReference_fillReferences {outer : String} (houter : Resolved outer) (key : String) :
    hasReference (fillReferences outer.toList key.toList) = false := by
  have hmarks := marks_fillReferences houter.closed key
  have hfilled : ((marks key).fill (marks outer)).any isReference = false := by
    rw [List.any_eq_false]
    intro mark hmark
    obtain ⟨own, _, hmark⟩ := List.mem_flatMap.mp hmark
    -- a mark stands for a reference, and comes from the enclosing key, or is none itself
    split at hmark
    · rw [hasReference_eq_false_iff.mp houter.refers mark hmark]
      exact Bool.false_ne_true
    · rename_i hown
      rw [List.mem_singleton.mp hmark]
      exact hown
  rwa [← hmarks, marks, String.toList_ofList] at hfilled

/-- Resolving a closed key below a resolved one gives a resolved key. -/
theorem resolved_resolve {outer key : String} (houter : Resolved outer)
    (hkey : isClosed key.toList = true) : Resolved (resolve (some outer) key).1 := by
  unfold resolve
  cases href : hasReference key.toList with
  | false => exact ⟨hkey, href⟩
  | true =>
      simp only [if_true]
      refine ⟨?_, ?_⟩
      · rw [String.toList_ofList]
        exact isClosed_fillReferences houter.closed hkey
      · rw [String.toList_ofList]
        exact hasReference_fillReferences houter key

end Key

/-! ## Keys at every depth -/

variable {m : Type → Type} {p : String → Prop}

/-- Every key inside that is no property name has a property, at every depth. -/
inductive Style.EveryKey (p : String → Prop) : Style m → Prop
  | value (v : Value) : EveryKey p (.value v)
  | declaration (d : Declaration) : EveryKey p (.declaration d)
  | dynamic (f : DynamicStyle m) : EveryKey p (.dynamic f)
  | nested {entries : List (String × Style m)} :
      (∀ e ∈ entries, e.2.isValue = false → p e.1) → (∀ e ∈ entries, e.2.EveryKey p) →
      EveryKey p (.nested entries)

namespace Style

theorem everyKey_nested_iff {entries : List (String × Style m)} :
    (Style.nested entries).EveryKey p ↔
      ∀ e ∈ entries, (e.2.isValue = false → p e.1) ∧ e.2.EveryKey p := by
  constructor
  · intro h
    cases h with
    | nested hkeys hinside => exact fun e he => ⟨hkeys e he, hinside e he⟩
  · intro h
    exact .nested (fun e he => (h e he).1) fun e he => (h e he).2

theorem EveryKey.mono {q : String → Prop} (hpq : ∀ key, p key → q key) {style : Style m}
    (h : style.EveryKey p) : style.EveryKey q := by
  induction h with
  | value v => exact .value v
  | declaration d => exact .declaration d
  | dynamic f => exact .dynamic f
  | nested hkeys _ ih => exact .nested (fun e he hvalue => hpq _ (hkeys e he hvalue)) ih

theorem isValue_over (style : Style m) (current : Option (Style m)) :
    (style.over current).isValue = style.isValue := by
  cases style with
  | value v => rw [Style.over]
  | declaration d => rw [Style.over]
  | dynamic f => rw [Style.over]
  | nested entries =>
      cases current with
      | none => rw [over_none]
      | some present =>
          rcases isNested_or_eq present with hleaf | ⟨present, rfl⟩
          · rw [over_some_of_not_nested _ hleaf]
          · rw [over_nested]
            rfl

/-- Merging brings in no key of its own. -/
theorem everyKey_over {incoming current : Style m} (hincoming : incoming.EveryKey p)
    (hcurrent : current.EveryKey p) : (incoming.over (some current)).EveryKey p := by
  induction hincoming generalizing current with
  | value v => rw [Style.over]; exact .value v
  | declaration d => rw [Style.over]; exact .declaration d
  | dynamic f => rw [Style.over]; exact .dynamic f
  | @nested entries hkeys hinside ih =>
      rcases isNested_or_eq current with hleaf | ⟨present, rfl⟩
      · rw [over_some_of_not_nested _ hleaf]
        exact .nested hkeys hinside
      · rw [over_nested]
        -- the entries are merged in one after the other
        induction entries generalizing present with
        | nil => exact hcurrent
        | cons head rest ihrest =>
            obtain ⟨k, style⟩ := head
            rw [List.forall_mem_cons] at hkeys hinside ih
            rw [Sheet.over]
            refine ihrest hkeys.2 hinside.2 ih.2 _ (everyKey_nested_iff.mpr fun e he => ?_)
            rw [everyKey_nested_iff] at hcurrent
            rcases mem_of_mem_update he with he | rfl | ⟨old, hold, rfl⟩
            · exact hcurrent e he
            · rw [over_none]
              exact ⟨hkeys.1, hinside.1⟩
            · rw [isValue_over]
              exact ⟨hkeys.1, ih.1 (hcurrent _ hold).2⟩

theorem everyKey_under {style : Style m} (h : style.EveryKey p) {path : List String}
    (hpath : ∀ key ∈ path, p key) : (under path style).EveryKey p := by
  induction path with
  | nil => exact h
  | cons key path ih =>
      rw [List.forall_mem_cons] at hpath
      rw [under, everyKey_nested_iff, List.forall_mem_singleton]
      exact ⟨fun _ => hpath.1, ih hpath.2⟩

end Style

/-! ## Expanding gives a normal form -/

/-- Entries that can be placed: their keys refer to nothing, and what they hold is in normal form. -/
def Sheet.Placeable (entries : List (String × Style m)) : Prop :=
  ∀ e ∈ entries, (e.2.isValue = false → Key.hasReference e.1.toList = false) ∧
    e.2.EveryKey Key.Settled

namespace Sheet

theorem Placeable.append {entries others : List (String × Style m)} (h : Placeable entries)
    (hothers : Placeable others) : Placeable (entries ++ others) := by
  intro e he
  rcases List.mem_append.mp he with he | he
  · exact h e he
  · exact hothers e he

theorem placeable_singleton {key : String} {style : Style m}
    (hkey : style.isValue = false → Key.hasReference key.toList = false)
    (h : style.EveryKey Key.Settled) : Placeable [(key, style)] :=
  List.forall_mem_singleton.mpr ⟨hkey, h⟩

theorem everyKey_place {sheet : Sheet m} (hsheet : (Style.nested sheet).EveryKey Key.Settled)
    {key : String} {style : Style m}
    (hkey : style.isValue = false → Key.hasReference key.toList = false)
    (hstyle : style.EveryKey Key.Settled) :
    (Style.nested (place sheet key style)).EveryKey Key.Settled := by
  rw [nested_place]
  refine Style.everyKey_over ?_ hsheet
  unfold Style.pathOf
  by_cases hvalue : style.isValue = true
  · -- the key of a property value is a name
    rw [if_pos hvalue, Style.under, Style.everyKey_nested_iff, List.forall_mem_singleton]
    exact ⟨fun h => absurd (hvalue.symm.trans h) (by simp), hstyle⟩
  · rw [if_neg hvalue]
    rw [Bool.not_eq_true] at hvalue
    exact Style.everyKey_under hstyle (Key.settled_of_mem_path (hkey hvalue))

theorem everyKey_ofPlaced {entries : List (String × Style m)} (h : Placeable entries) :
    (Style.nested (ofPlaced entries)).EveryKey Key.Settled := by
  suffices hfold : ∀ sheet : Sheet m, (Style.nested sheet).EveryKey Key.Settled →
      (Style.nested (entries.foldl (fun sheet e => place sheet e.1 e.2) sheet)).EveryKey Key.Settled
    from hfold [] (Style.everyKey_nested_iff.mpr fun e he => absurd he List.not_mem_nil)
  induction entries with
  | nil => exact fun _ hsheet => hsheet
  | cons head rest ih =>
      unfold Placeable at h
      rw [List.forall_mem_cons] at h
      exact fun sheet hsheet => ih h.2 _ (everyKey_place hsheet h.1.1 h.1.2)

end Sheet

mutual

/-- Resolving closed keys below a resolved one leaves entries that can be placed. -/
theorem Style.placeable_resolve : ∀ (style : Style m), style.KeysClosed → ∀ key : String,
    Key.Resolved key → Sheet.Placeable (style.resolve key)
  | .nested entries, hclosed => fun key hkey => by
    obtain ⟨hkeys, hinside⟩ := Style.forall_of_keysClosed hclosed
    obtain ⟨hstay, hrise⟩ := Sheet.placeable_resolve entries hinside (some key)
      fun e he hvalue => Key.resolved_resolve hkey (hkeys e he hvalue)
    rw [Style.resolve]
    exact (Sheet.placeable_singleton (fun _ => hkey.refers) (Sheet.everyKey_ofPlaced hstay)).append
      hrise
  | .value v, _ => fun key hkey => by
    rw [Style.resolve]
    exact Sheet.placeable_singleton (fun _ => hkey.refers) (.value v)
  | .declaration d, _ => fun key hkey => by
    rw [Style.resolve]
    exact Sheet.placeable_singleton (fun _ => hkey.refers) (.declaration d)
  | .dynamic f, _ => fun key hkey => by
    rw [Style.resolve]
    exact Sheet.placeable_singleton (fun _ => hkey.refers) (.dynamic f)
termination_by structural style => style

theorem Sheet.placeable_resolve : ∀ (entries : List (String × Style m)),
    (∀ e ∈ entries, e.2.KeysClosed) → ∀ enclosing : Option String,
      (∀ e ∈ entries, e.2.isValue = false → Key.Resolved (Key.resolve enclosing e.1).1) →
      Sheet.Placeable (Sheet.resolve enclosing entries).stay ∧
        Sheet.Placeable (Sheet.resolve enclosing entries).rise
  | [], _ => fun _ _ => ⟨fun e he => absurd he List.not_mem_nil, fun e he => absurd he List.not_mem_nil⟩
  | (key, style) :: rest, hclosed => fun enclosing hkeys => by
    rw [List.forall_mem_cons] at hclosed hkeys
    obtain ⟨hstay, hrise⟩ := Sheet.placeable_resolve rest hclosed.2 enclosing hkeys.2
    rw [Sheet.resolve]
    by_cases hvalue : style.isValue = true
    · rw [if_pos hvalue]
      obtain ⟨v, rfl⟩ := Style.exists_value_of_isValue hvalue
      refine ⟨(Sheet.placeable_singleton (fun h => ?_) (.value v)).append hstay, hrise⟩
      exact absurd h (by simp [Style.isValue])
    · rw [if_neg hvalue]
      rw [Bool.not_eq_true] at hvalue
      have hkey : Key.Resolved (Key.resolve enclosing key).1 := hkeys.1 hvalue
      -- on its own level or on the one above, what comes of the entry can be placed
      cases hres : Key.resolve enclosing key with
      | mk resolved rises =>
          rw [hres] at hkey
          have hstyle := Style.placeable_resolve style hclosed.1 resolved hkey
          cases rises with
          | true => exact ⟨hstay, hstyle.append hrise⟩
          | false => exact ⟨hstyle.append hstay, hrise⟩
termination_by structural entries => entries

end

/-! ## Expanding leaves a normal form as it is -/

namespace Sheet

/-- Where nothing stands under the first of its keys, an entry is placed behind the others. -/
theorem place_of_pathOf {sheet : Sheet m} {key first : String} {rest : List String} {style : Style m}
    (hpath : style.pathOf key = first :: rest) (hfirst : first ∉ Keyed.keys sheet) :
    place sheet key style = sheet ++ [(first, Style.under rest style)] := by
  have hplace := nested_place sheet key style
  rw [hpath, Style.under, Style.over_nested, Sheet.over, Sheet.over, Keyed.update_of_not_mem hfirst,
    Style.over_none] at hplace
  exact Style.nested.inj hplace

theorem ofPlaced_eq_self {entries : List (String × Style m)} (hnodup : (Keyed.keys entries).Nodup)
    (hpath : ∀ e ∈ entries, e.2.pathOf e.1 = [e.1]) : ofPlaced entries = entries := by
  suffices hfold : ∀ sheet : Sheet m, (Keyed.keys (sheet ++ entries)).Nodup →
      entries.foldl (fun sheet e => place sheet e.1 e.2) sheet = sheet ++ entries from
    hfold [] hnodup
  clear hnodup
  induction entries with
  | nil => exact fun sheet _ => (List.append_nil sheet).symm
  | cons head rest ih =>
      intro sheet hnodup
      rw [List.forall_mem_cons] at hpath
      have hkey : head.1 ∉ Keyed.keys sheet := by
        intro hmem
        unfold Keyed.keys at hnodup hmem
        rw [List.map_append, List.map_cons] at hnodup
        exact (List.nodup_append.mp hnodup).2.2 _ hmem _ List.mem_cons_self rfl
      rw [List.foldl_cons, place_of_pathOf hpath.1 hkey]
      have := ih hpath.2 (sheet ++ [head])
      rw [List.append_assoc, List.singleton_append] at this
      exact this hnodup

end Sheet

theorem Style.pathOf_of_settled {key : String} {style : Style m}
    (h : style.isValue = false → Key.Settled key) : style.pathOf key = [key] := by
  unfold pathOf
  cases hvalue : style.isValue with
  | true => rfl
  | false => exact Key.path_of_settled (h hvalue)

mutual

theorem Style.resolve_eq_self : ∀ (style : Style m), style.Tidy → style.EveryKey Key.Settled →
    ∀ key : String, style.resolve key = [(key, style)]
  | .nested entries, htidy, hkeys => fun key => by
    obtain ⟨hnodup, hmembers⟩ := Style.tidy_nested_iff.mp htidy
    rw [Style.everyKey_nested_iff] at hkeys
    rw [Style.resolve, Sheet.resolve_eq_self entries hmembers hkeys (some key)]
    simp only
    rw [Sheet.ofPlaced_eq_self hnodup fun e he => Style.pathOf_of_settled (hkeys e he).1]
  | .value v, _, _ => fun key => by rw [Style.resolve]
  | .declaration d, _, _ => fun key => by rw [Style.resolve]
  | .dynamic f, _, _ => fun key => by rw [Style.resolve]
termination_by structural style => style

/-- Where keys refer to nothing, every entry stays as it is. -/
theorem Sheet.resolve_eq_self : ∀ (entries : List (String × Style m)), (∀ e ∈ entries, e.2.Tidy) →
    (∀ e ∈ entries, (e.2.isValue = false → Key.Settled e.1) ∧ e.2.EveryKey Key.Settled) →
    ∀ enclosing : Option String, Sheet.resolve enclosing entries = ⟨entries, []⟩
  | [], _, _ => fun _ => rfl
  | (key, style) :: rest, htidy, hkeys => fun enclosing => by
    rw [List.forall_mem_cons] at htidy hkeys
    rw [Sheet.resolve, Sheet.resolve_eq_self rest htidy.2 hkeys.2 enclosing]
    by_cases hvalue : style.isValue = true
    · rw [if_pos hvalue]
      rfl
    · rw [if_neg hvalue]
      rw [Bool.not_eq_true] at hvalue
      rw [Key.resolve_of_not_hasReference (hkeys.1.1 hvalue).refers]
      simp only
      rw [Style.resolve_eq_self style htidy.1 hkeys.1.2 key]
      rfl
termination_by structural entries => entries

end

namespace Sheet

variable {sheet : Sheet m}

/-- Expanding leaves a sheet in normal form as it is, if no key is on one level twice. -/
theorem expand_eq_self (htidy : (Style.nested sheet).Tidy)
    (h : (Style.nested sheet).EveryKey Key.Settled) : sheet.expand = sheet := by
  obtain ⟨hnodup, hmembers⟩ := Style.tidy_nested_iff.mp htidy
  rw [Style.everyKey_nested_iff] at h
  unfold expand
  rw [resolve_eq_self sheet hmembers h none]
  simp only
  rw [List.append_nil]
  exact ofPlaced_eq_self hnodup fun e he => Style.pathOf_of_settled (h e he).1

/-- Expanding closed keys of which none refers out of the root gives a normal form. -/
theorem everyKey_settled_expand (hclosed : (Style.nested sheet).KeysClosed)
    (hroot : ∀ e ∈ sheet, e.2.refersBy e.1 = false) :
    (Style.nested sheet.expand).EveryKey Key.Settled := by
  obtain ⟨hkeys, hinside⟩ := Style.forall_of_keysClosed hclosed
  obtain ⟨hstay, hrise⟩ := placeable_resolve sheet hinside none fun e he hvalue =>
    ⟨hkeys e he hvalue, by
      have := hroot e he
      unfold Style.refersBy at this
      rw [hvalue] at this
      exact this⟩
  exact everyKey_ofPlaced (hstay.append hrise)

/-- Take a sheet whose keys, property names aside, are closed at every depth, and at the root refer to
nothing. In the expanded sheet every such key is settled, and expanding it again changes nothing. -/
theorem expand_expand (hclosed : (Style.nested sheet).KeysClosed)
    (hroot : ∀ e ∈ sheet, e.2.refersBy e.1 = false) :
    (Style.nested sheet.expand).EveryKey Key.Settled ∧ sheet.expand.expand = sheet.expand := by
  have hsettled := everyKey_settled_expand hclosed hroot
  exact ⟨hsettled, expand_eq_self sheet.shows_expand.tidy hsettled⟩

/-- The reference is filled with a key that has a gap, so the title moves up and is split; the `&` and the
gap in brackets stay. -/
theorem expand_expand_title :
    let gap : Style Id := .nested [("gap", .value (.text "1"))]
    let sheet : Sheet Id := [("list  card", .nested [("& > title", gap), (":has(& icon)", gap)])]
    (Style.nested sheet).KeysClosed ∧ (∀ e ∈ sheet, e.2.refersBy e.1 = false) ∧
      (sheet.expand.clauses.filter fun clause => clause.property.isSome).map Clause.path =
        [["list", "card", ":has(& icon)"], ["list", "card", ">", "title"]] ∧
      (Style.nested sheet.expand).EveryKey Key.Settled ∧ sheet.expand.expand = sheet.expand := by
  intro gap sheet
  have hgap : gap.KeysClosed :=
    .nested (List.forall_mem_singleton.mpr fun h => absurd h (by simp [Style.isValue]))
      (List.forall_mem_singleton.mpr (.value _))
  have hclosed : (Style.nested sheet).KeysClosed := by
    refine .nested (List.forall_mem_singleton.mpr fun _ => by decide +kernel)
      (List.forall_mem_singleton.mpr (.nested ?_ ?_))
    · rw [List.forall_mem_cons, List.forall_mem_singleton]
      exact ⟨fun _ => by decide +kernel, fun _ => by decide +kernel⟩
    · rw [List.forall_mem_cons, List.forall_mem_singleton]
      exact ⟨hgap, hgap⟩
  have hroot : ∀ e ∈ sheet, e.2.refersBy e.1 = false :=
    List.forall_mem_singleton.mpr (by decide +kernel)
  exact ⟨hclosed, hroot, by decide +kernel, expand_expand hclosed hroot⟩

end Sheet

end StyleCascade
