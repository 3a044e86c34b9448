/-
# StyleCascade.Proofs.Sheet.Rivals — what is merged over a writing

A nested sheet is expanded by itself before it is merged into the level around it. So whether a style is
kept is not decided by the list of writings alone: a later writing that would take its place can be lost
itself while its own nested sheet is expanded. What decides are the contents that are merged over the
style afterwards, on its own level and on every level around it: its rivals.

`Sheet.traces` lists the writings of a sheet with their rivals. Where nothing else writes the same, a
writing without keys stands in the expanded sheet exactly if none of its rivals covers its place
(`Style.ExplainedBy`, `Sheet.explainedBy_expand`).
-/
import Mathlib.Data.List.Forall2
import StyleCascade.Proofs.Sheet.Writings

namespace StyleCascade

variable {m : Type → Type}

/-! ## Traces -/

/-- A writing with what is merged over it after it is placed. -/
structure Trace (m : Type → Type) where
  writing : Writing m
  /-- The contents merged later, seen from the level that the writing is seen from. -/
  rivals : List (Style m)

/-- An entry that is to be placed: its content put under its keys, and what is written in there. -/
structure Placing (m : Type → Type) where
  content : Style m
  traces : List (Trace m)

namespace Trace

/-- The trace seen from a level above. -/
def below (path : List String) (t : Trace m) : Trace m :=
  ⟨t.writing.below path, t.rivals.map (Style.under path)⟩

/-- The trace with rivals that come later than those it has. -/
def against (later : List (Style m)) (t : Trace m) : Trace m :=
  ⟨t.writing, t.rivals ++ later⟩

/-- None of the rivals covers the place that is written. -/
def Unrivalled (t : Trace m) : Prop :=
  ∀ r ∈ t.rivals, r.covers t.writing.slot = false

/-- Another trace writes the same content in the same place. -/
def Repeats (t u : Trace m) : Prop :=
  u.writing.slot = t.writing.slot ∧ u.writing.content = t.writing.content

end Trace

/-- What entries write that are placed one after the other: each entry is a rival of those before it. -/
def Placing.tracesOf : List (Placing m) → List (Trace m)
  | [] => []
  | p :: rest =>
    p.traces.map (Trace.against (rest.map fun q => q.content)) ++ Placing.tracesOf rest

/-- An entry without keys, as it is to be placed. -/
def Placing.ofEntry (key : String) (style : Style m) : Placing m :=
  ⟨Style.under (style.pathOf key) style, [⟨.ofEntry key style, []⟩]⟩

mutual

/-- The entries that come of the content of a key, as they are to be placed. -/
def Style.placings (key : String) : Style m → List (Placing m)
  | .nested entries =>
    let inside := Sheet.ofPlaced (Sheet.resolve (some key) entries).stay
    let level := Sheet.placings (some key) entries
    ⟨Style.under (Key.path key) (.nested inside),
      ⟨.ofEntry key (.nested entries), []⟩ ::
        (Placing.tracesOf level.stay).map (Trace.below (Key.path key))⟩ :: level.rise
  | .value v => [.ofEntry key (.value v)]
  | .declaration d => [.ofEntry key (.declaration d)]
  | .dynamic f => [.ofEntry key (.dynamic f)]
termination_by structural style => style

/-- The entries that come of a level below an enclosing key, as they are to be placed. -/
def Sheet.placings (enclosing : Option String) : List (String × Style m) → Written (Placing m)
  | [] => ⟨[], []⟩
  | (key, style) :: rest =>
    let level := Sheet.placings enclosing rest
    if style.isValue then level.push (style.placings key) false
    else
      let (resolved, rises) := Key.resolve enclosing key
      level.push (style.placings resolved) rises
termination_by structural entries => entries

end

/-- Everything a sheet writes, with what is merged over it when the sheet is expanded. -/
def Sheet.traces (sheet : Sheet m) : List (Trace m) :=
  Placing.tracesOf ((Sheet.placings none sheet).stay ++ (Sheet.placings none sheet).rise)

/-! ## The writings of the traces are those of the sheet -/

/-- What entries write, without rivals. -/
def Placing.writingsOf (ps : List (Placing m)) : List (Writing m) :=
  ps.flatMap fun p => p.traces.map fun t => t.writing

theorem Placing.map_writing_tracesOf (ps : List (Placing m)) :
    (Placing.tracesOf ps).map (fun t => t.writing) = Placing.writingsOf ps := by
  induction ps with
  | nil => rfl
  | cons p rest ih =>
      rw [tracesOf, List.map_append, ih, List.map_map]
      rfl

theorem Placing.writingsOf_append (ps qs : List (Placing m)) :
    Placing.writingsOf (ps ++ qs) = Placing.writingsOf ps ++ Placing.writingsOf qs :=
  List.flatMap_append

mutual

theorem Style.writingsOf_placings : ∀ (style : Style m) (key : String),
    Placing.writingsOf (style.placings key) = style.writings key
  | .nested entries, key => by
    obtain ⟨hstay, hrise⟩ := Sheet.writingsOf_placings entries (some key)
    have hinside := Placing.map_writing_tracesOf (Sheet.placings (some key) entries).stay
    rw [hstay] at hinside
    show _ :: ((Placing.tracesOf _).map (Trace.below (Key.path key))).map (fun t => t.writing) ++
      Placing.writingsOf _ = _
    rw [Style.writings, ← hinside, hrise, List.map_map, List.map_map]
    rfl
  | .value _, _ => rfl
  | .declaration _, _ => rfl
  | .dynamic _, _ => rfl
termination_by structural style => style

theorem Sheet.writingsOf_placings : ∀ (entries : List (String × Style m)) (enclosing : Option String),
    Placing.writingsOf (Sheet.placings enclosing entries).stay =
        (Sheet.written enclosing entries).stay ∧
      Placing.writingsOf (Sheet.placings enclosing entries).rise =
        (Sheet.written enclosing entries).rise
  | [], _ => ⟨rfl, rfl⟩
  | (key, style) :: rest, enclosing => by
    obtain ⟨hstay, hrise⟩ := Sheet.writingsOf_placings rest enclosing
    rw [Sheet.placings, Sheet.written]
    by_cases hvalue : style.isValue = true
    · rw [if_pos hvalue, if_pos hvalue]
      refine ⟨?_, hrise⟩
      show Placing.writingsOf (style.placings key ++ _) = style.writings key ++ _
      rw [Placing.writingsOf_append, Style.writingsOf_placings style key, hstay]
    · rw [if_neg hvalue, if_neg hvalue]
      obtain ⟨resolved, rises⟩ := Key.resolve enclosing key
      have hstyle := Style.writingsOf_placings style resolved
      cases rises with
      | true =>
          refine ⟨hstay, ?_⟩
          show Placing.writingsOf (style.placings resolved ++ _) = style.writings resolved ++ _
          rw [Placing.writingsOf_append, hstyle, hrise]
      | false =>
          refine ⟨?_, hrise⟩
          show Placing.writingsOf (style.placings resolved ++ _) = style.writings resolved ++ _
          rw [Placing.writingsOf_append, hstyle, hstay]
termination_by structural entries => entries

end

theorem Sheet.map_writing_traces (sheet : Sheet m) :
    sheet.traces.map (fun t => t.writing) = sheet.writings := by
  obtain ⟨hstay, hrise⟩ := Sheet.writingsOf_placings sheet none
  unfold Sheet.traces Sheet.writings
  rw [Placing.map_writing_tracesOf, Placing.writingsOf_append, hstay, hrise]

/-! ## Lists taken apart at an element -/

theorem append_eq_append_cons {α : Type} {as bs before after : List α} {a : α}
    (h : as ++ bs = before ++ a :: after) :
    (∃ mid, as = before ++ a :: mid ∧ after = mid ++ bs) ∨
      ∃ mid, before = as ++ mid ∧ bs = mid ++ a :: after := by
  rcases List.append_eq_append_iff.mp h with ⟨mid, hbefore, hbs⟩ | ⟨mid, has, hafter⟩
  · exact .inr ⟨mid, hbefore, hbs⟩
  · cases mid with
    | nil => exact .inr ⟨[], by rw [has, List.append_nil, List.append_nil], hafter.symm⟩
    | cons b mid =>
        obtain ⟨rfl, rfl⟩ := List.cons.inj hafter
        exact .inl ⟨mid, has, rfl⟩

theorem exists_of_map_eq_append_cons {α β : Type} {f : α → β} {l : List α} {before after : List β}
    {b : β} (h : l.map f = before ++ b :: after) :
    ∃ l₁ a l₂, l = l₁ ++ a :: l₂ ∧ l₁.map f = before ∧ f a = b ∧ l₂.map f = after := by
  obtain ⟨l₁, l', rfl, hbefore, hrest⟩ := List.map_eq_append_iff.mp h
  obtain ⟨a, l₂, rfl, ha, hafter⟩ := List.map_eq_cons_iff.mp hrest
  exact ⟨l₁, a, l₂, rfl, hbefore, ha, hafter⟩

/-! ## What stands is explained by the traces -/

namespace Trace

theorem unrivalled_against {later : List (Style m)} {t : Trace m} :
    (t.against later).Unrivalled ↔
      t.Unrivalled ∧ ∀ r ∈ later, r.covers t.writing.slot = false := by
  unfold Unrivalled against
  exact List.forall_mem_append

theorem unrivalled_below {path : List String} {t : Trace m} :
    (t.below path).Unrivalled ↔ t.Unrivalled := by
  unfold Unrivalled below
  simp only [List.forall_mem_map, Writing.slot_below, Style.covers_under_append]

theorem repeats_below {path : List String} {t u : Trace m} (h : t.Repeats u) :
    (t.below path).Repeats (u.below path) := by
  refine ⟨?_, h.2⟩
  show (u.writing.below path).slot = (t.writing.below path).slot
  rw [Writing.slot_below, Writing.slot_below, h.1]

end Trace

namespace Style

/-- What stands in the content without keys was written by one of the traces, and what a trace writes
stands, unless another one repeats it, exactly if the trace is unrivalled. -/
structure ExplainedBy (style : Style m) (ts : List (Trace m)) : Prop where
  tidy : style.Tidy
  sourced : ∀ place found, found.isNested = false → style.at? place = some found →
    ∃ t ∈ ts, t.writing.slot = place ∧ t.writing.content = found
  kept : ∀ before t after, ts = before ++ t :: after → t.writing.content.isNested = false →
    (∀ u ∈ before ++ after, ¬t.Repeats u) →
    (style.at? t.writing.slot = some t.writing.content ↔ t.Unrivalled)

theorem explainedBy_empty : (Style.nested [] : Style m).ExplainedBy [] := by
  refine ⟨.nested List.nodup_nil (fun e he => absurd he List.not_mem_nil), ?_, ?_⟩
  · intro place found hfound h
    cases place with
    | nil =>
        obtain rfl := Option.some.inj h
        exact absurd hfound (by simp [isNested])
    | cons key place => exact absurd h (by simp [at?])
  · intro before t after h
    exact absurd h (by simp)

/-- What comes in is one more rival of all that is there. -/
theorem explainedBy_over {current incoming : Style m} {ts more : List (Trace m)}
    (hcurrent : current.ExplainedBy ts) (hincoming : incoming.ExplainedBy more) :
    (incoming.over (some current)).ExplainedBy (ts.map (Trace.against [incoming]) ++ more) := by
  refine ⟨tidy_over hincoming.tidy hcurrent.tidy, ?_, ?_⟩
  · intro place found hfound h
    rcases (at?_over_eq_some_iff hincoming.tidy hfound place).mp h with h | ⟨_, h⟩
    · obtain ⟨t, ht, hwrites⟩ := hincoming.sourced place found hfound h
      exact ⟨t, List.mem_append.mpr (.inr ht), hwrites⟩
    · obtain ⟨t, ht, hwrites⟩ := hcurrent.sourced place found hfound h
      exact ⟨t.against [incoming], List.mem_append.mpr (.inl (List.mem_map_of_mem ht)), hwrites⟩
  · intro before t after hsplit hleaf halone
    rw [at?_over_eq_some_iff hincoming.tidy hleaf]
    rcases append_eq_append_cons hsplit with ⟨mid, hts, rfl⟩ | ⟨mid, rfl, rfl⟩
    · -- the trace was there: it has the incoming content as a rival, which does not write the same
      obtain ⟨l₁, s, l₂, rfl, rfl, rfl, rfl⟩ := exists_of_map_eq_append_cons hts
      have hs := hcurrent.kept l₁ s l₂ rfl hleaf <| by
        intro u hu hrepeats
        refine halone (u.against [incoming]) ?_ hrepeats
        rw [← List.append_assoc, ← List.map_append]
        exact List.mem_append.mpr (.inl (List.mem_map_of_mem hu))
      have hnot : ¬incoming.at? s.writing.slot = some s.writing.content := by
        intro h
        obtain ⟨u, hu, hwrites⟩ := hincoming.sourced _ _ hleaf h
        exact halone u (by simp [hu]) hwrites
      rw [Trace.unrivalled_against, List.forall_mem_singleton, ← hs]
      show incoming.at? s.writing.slot = some s.writing.content ∨ _ ↔ _
      rw [or_iff_right hnot]
      exact and_comm
    · -- the trace comes in: what was there neither is its rival nor writes the same
      have ht := hincoming.kept mid t after rfl hleaf <| by
        intro u hu
        apply halone u
        rw [List.append_assoc]
        exact List.mem_append.mpr (.inr hu)
      have hnot : ¬(incoming.covers t.writing.slot = false ∧
          current.at? t.writing.slot = some t.writing.content) := by
        rintro ⟨_, h⟩
        obtain ⟨u, hu, hwrites⟩ := hcurrent.sourced _ _ hleaf h
        refine halone (u.against [incoming]) ?_ hwrites
        rw [List.append_assoc]
        exact List.mem_append.mpr (.inl (List.mem_map_of_mem hu))
      rw [or_iff_left hnot]
      exact ht

/-- Content without keys, put under the slot of its writing, is explained by that writing alone. -/
theorem explainedBy_under_leaf {style : Style m} (htidy : style.Tidy) (hleaf : style.isNested = false)
    {w : Writing m} (hcontent : w.content = style) : (under w.slot style).ExplainedBy [⟨w, []⟩] := by
  refine ⟨tidy_under htidy _, ?_, ?_⟩
  · intro place found hfound h
    obtain ⟨rest, rfl, hrest⟩ := exists_of_at?_under hfound h
    refine ⟨⟨w, []⟩, List.mem_singleton_self _, ?_⟩
    cases rest with
    | nil =>
        obtain rfl := Option.some.inj hrest
        exact ⟨(List.append_nil _).symm, hcontent⟩
    | cons key rest =>
        rw [at?_cons_of_not_nested hleaf] at hrest
        exact absurd hrest (by simp)
  · intro before t after hsplit _ _
    obtain ⟨rfl, rfl, rfl⟩ : before = [] ∧ t = ⟨w, []⟩ ∧ after = [] := by
      cases before with
      | nil =>
          obtain ⟨rfl, rfl⟩ := List.cons.inj hsplit
          exact ⟨rfl, rfl, rfl⟩
      | cons b before => exact absurd hsplit (by simp)
    have hat := at?_under_append w.slot [] style
    rw [List.append_nil] at hat
    have hstands : (under w.slot style).at? w.slot = some w.content := by
      rw [hat, hcontent]
      rfl
    exact ⟨fun _ r hr => absurd hr List.not_mem_nil, fun _ => hstands⟩

/-- A nested sheet put under a path is explained by its traces seen from there. That the sheet is there
itself makes no difference to what stands without keys. -/
theorem explainedBy_under_nested {inner : Style m} {ts : List (Trace m)} (h : inner.ExplainedBy ts)
    (path : List String) {w : Writing m} (hnested : w.content.isNested = true) :
    (under path inner).ExplainedBy (⟨w, []⟩ :: ts.map (Trace.below path)) := by
  refine ⟨tidy_under h.tidy _, ?_, ?_⟩
  · intro place found hfound hat
    obtain ⟨rest, rfl, hrest⟩ := exists_of_at?_under hfound hat
    obtain ⟨t, ht, rfl, hcontent⟩ := h.sourced rest found hfound hrest
    refine ⟨t.below path, List.mem_cons_of_mem _ (List.mem_map_of_mem ht), ?_, hcontent⟩
    exact Writing.slot_below path t.writing
  · intro before t after hsplit hleaf halone
    cases before with
    | nil =>
        obtain ⟨rfl, _⟩ := List.cons.inj hsplit
        rw [hnested] at hleaf
        exact absurd hleaf (by simp)
    | cons b before =>
        obtain ⟨_, hts⟩ := List.cons.inj hsplit
        obtain ⟨l₁, s, l₂, rfl, rfl, rfl, rfl⟩ := exists_of_map_eq_append_cons hts
        have hs := h.kept l₁ s l₂ rfl hleaf <| by
          intro u hu hrepeats
          refine halone (u.below path) ?_ (Trace.repeats_below hrepeats)
          rw [List.cons_append, ← List.map_append]
          exact List.mem_cons_of_mem _ (List.mem_map_of_mem hu)
        rw [Trace.unrivalled_below, ← hs]
        show (under path inner).at? (s.writing.below path).slot = some s.writing.content ↔ _
        rw [Writing.slot_below, at?_under_append]

end Style

/-! ## The expanded sheet is explained by its traces -/

/-- The content is that of the entry under its keys, and the traces explain it. -/
structure Placing.Of (entry : String × Style m) (p : Placing m) : Prop where
  content : p.content = Style.under (entry.2.pathOf entry.1) entry.2
  explained : p.content.ExplainedBy p.traces

/-- Placing entries one after the other makes each a rival of those before it. -/
theorem Placing.explainedBy_ofPlaced {entries : List (String × Style m)} {ps : List (Placing m)}
    (h : List.Forall₂ Placing.Of entries ps) :
    (Style.nested (Sheet.ofPlaced entries)).ExplainedBy (Placing.tracesOf ps) := by
  suffices hfold : ∀ (sheet : Sheet m) (ts : List (Trace m)), (Style.nested sheet).ExplainedBy ts →
      (Style.nested (entries.foldl (fun sheet e => Sheet.place sheet e.1 e.2) sheet)).ExplainedBy
        (ts.map (Trace.against (ps.map fun q => q.content)) ++ Placing.tracesOf ps) from
    hfold [] [] Style.explainedBy_empty
  induction h with
  | nil =>
      intro sheet ts hsheet
      have hsame : ts.map (Trace.against []) = ts := by
        refine (List.map_congr_left ?_).trans (List.map_id ts)
        intro t _
        show Trace.mk t.writing (t.rivals ++ []) = t
        rw [List.append_nil]
      rw [tracesOf, List.append_nil, List.map_nil, hsame]
      exact hsheet
  | @cons entry p entries ps hentry _ ih =>
      intro sheet ts hsheet
      have hplaced : (Style.nested (Sheet.place sheet entry.1 entry.2)).ExplainedBy
          (ts.map (Trace.against [p.content]) ++ p.traces) := by
        rw [Sheet.nested_place, ← hentry.content]
        exact Style.explainedBy_over hsheet hentry.explained
      have hrest := ih _ _ hplaced
      rw [List.map_append, List.map_map, List.append_assoc] at hrest
      have hagainst : Trace.against (ps.map fun q => q.content) ∘ Trace.against [p.content] =
          Trace.against ((p :: ps).map fun q => q.content) := by
        funext t
        show Trace.mk t.writing (t.rivals ++ [p.content] ++ _) = _
        rw [List.append_assoc]
        rfl
      rw [hagainst] at hrest
      exact hrest

/-- An entry without keys is explained by its own writing. -/
theorem Placing.of_leaf {key : String} {style : Style m} (htidy : style.Tidy)
    (hleaf : style.isNested = false) : Placing.Of (key, style) (.ofEntry key style) := by
  refine ⟨rfl, ?_⟩
  unfold Placing.ofEntry
  rw [← Writing.slot_ofEntry]
  exact Style.explainedBy_under_leaf htidy hleaf (Writing.content_ofEntry key style)

mutual

theorem Style.placings_of_resolve : ∀ (style : Style m) (key : String),
    List.Forall₂ Placing.Of (style.resolve key) (style.placings key)
  | .nested entries, key => by
    obtain ⟨hstay, hrise⟩ := Sheet.placings_of_resolve entries (some key)
    rw [Style.resolve, Style.placings]
    exact .cons ⟨rfl, Style.explainedBy_under_nested (Placing.explainedBy_ofPlaced hstay) _ rfl⟩ hrise
  | .value v, key => by
    rw [Style.resolve, Style.placings]
    exact .cons (Placing.of_leaf (.value v) rfl) .nil
  | .declaration d, key => by
    rw [Style.resolve, Style.placings]
    exact .cons (Placing.of_leaf (.declaration d) rfl) .nil
  | .dynamic f, key => by
    rw [Style.resolve, Style.placings]
    exact .cons (Placing.of_leaf (.dynamic f) rfl) .nil
termination_by structural style => style

theorem Sheet.placings_of_resolve : ∀ (entries : List (String × Style m)) (enclosing : Option String),
    List.Forall₂ Placing.Of (Sheet.resolve enclosing entries).stay
        (Sheet.placings enclosing entries).stay ∧
      List.Forall₂ Placing.Of (Sheet.resolve enclosing entries).rise
        (Sheet.placings enclosing entries).rise
  | [], _ => ⟨.nil, .nil⟩
  | (key, style) :: rest, enclosing => by
    obtain ⟨hstay, hrise⟩ := Sheet.placings_of_resolve rest enclosing
    rw [Sheet.resolve, Sheet.placings]
    by_cases hvalue : style.isValue = true
    · rw [if_pos hvalue, if_pos hvalue]
      obtain ⟨v, rfl⟩ := Style.exists_value_of_isValue hvalue
      exact ⟨.cons (Placing.of_leaf (.value v) rfl) hstay, hrise⟩
    · rw [if_neg hvalue, if_neg hvalue]
      obtain ⟨resolved, rises⟩ := Key.resolve enclosing key
      have hstyle := Style.placings_of_resolve style resolved
      cases rises with
      | true => exact ⟨hstay, List.rel_append hstyle hrise⟩
      | false => exact ⟨List.rel_append hstyle hstay, hrise⟩
termination_by structural entries => entries

end

/-- What stands after expanding a sheet is explained by its traces. -/
theorem Sheet.explainedBy_expand (sheet : Sheet m) :
    (Style.nested sheet.expand).ExplainedBy sheet.traces := by
  obtain ⟨hstay, hrise⟩ := Sheet.placings_of_resolve sheet none
  exact Placing.explainedBy_ofPlaced (List.rel_append hstay hrise)

end StyleCascade
