/-
# StyleCascade.Proofs.Sheet.Marks — keys as marked characters

Expanding a sheet reads keys again and again as text: a key that refers to its enclosing key is filled in,
and the text that comes of it is read for segments, and for the references of what is nested in it. For
closed keys one reading is enough. Every character is marked once, in the key it is written in, and a key
with the marked characters of the enclosing key in the place of its references is marked as its text is
(`marks_fillReferences`), because neither side leaves a bracket or a quote open to the other.

So the segments of a key can be told from marked characters alone: they are what stands between its gaps
(`path_eq_path_marks`).
-/
import StyleCascade.Proofs.Sheet.Lookup

namespace StyleCascade.Key

/-! ## Marked keys -/

/-- A key as its characters, each with whether it stands at top level. -/
abbrev Marks : Type :=
  List (Char × Bool)

/-- The marks of a key read by itself. -/
def marks (key : String) : Marks :=
  marked {} key.toList

namespace Marks

/-- The text of the key. -/
def text (ms : Marks) : String :=
  String.ofList (ms.map fun mark => mark.1)

/-- The key refers to the enclosing key. -/
def refers (ms : Marks) : Bool :=
  ms.any isReference

/-- The key with the enclosing key in the place of its references. -/
def fill (ms enclosing : Marks) : Marks :=
  ms.flatMap fun mark => if isReference mark then enclosing else [mark]

/-- What stands between the gaps of the key. -/
def segments (ms : Marks) : List (List Char) :=
  ((ms.splitOnP isGap).map fun run => run.map fun mark => mark.1).filter fun run => run ≠ []

/-- The selectors that the key stands for: its segments, or the key itself where there are none. -/
def path (ms : Marks) : List String :=
  if ms.segments = [] then [ms.text] else ms.segments.map String.ofList

end Marks

/-! ## Segments -/

theorem runs_eq (word : List Char) (ms : Marks) :
    runs word ms = (((ms.splitOnP isGap).map fun run => run.map fun mark => mark.1).modifyHead
      (word ++ ·)).filter fun run => run ≠ [] := by
  induction ms generalizing word with
  | nil => by_cases h : word = [] <;> simp [runs, h]
  | cons mark rest ih =>
      rw [runs, List.splitOnP_cons_eq_if_modifyHead]
      cases isGap mark with
      | true =>
          -- a gap ends the run that was begun
          by_cases h : word = [] <;> cases hs : rest.splitOnP isGap <;> simp [ih, h, hs]
      | false =>
          rw [if_neg (by simp), if_neg (by simp), ih]
          cases rest.splitOnP isGap <;> simp

theorem segments_marks (key : String) : (marks key).segments = Key.segments key.toList := by
  unfold Key.segments
  rw [runs_eq]
  cases h : ((marked {} key.toList).splitOnP isGap) <;> simp [Marks.segments, marks, h]

theorem text_marks (key : String) : (marks key).text = key := by
  unfold Marks.text marks
  rw [map_fst_marked, String.ofList_toList]

theorem path_eq_path_marks (key : String) : Key.path key = (marks key).path := by
  unfold Key.path Marks.path
  rw [segments_marks, text_marks]
  split <;> simp_all

/-! ## References -/

namespace Surround

/-- A character stands at top level only where nothing is open, and leaves it so. -/
theorem of_isTop {s : Surround} {c : Char} (h : s.isTop c = true) : s = {} ∧ s.after c = s := by
  obtain ⟨depth, quote⟩ := s
  unfold isTop at h
  simp only [Bool.and_eq_true, Option.isNone_iff_eq_none, beq_iff_eq, Bool.not_eq_true'] at h
  obtain ⟨⟨⟨⟨rfl, rfl⟩, hquote⟩, hopener⟩, hcloser⟩ := h
  refine ⟨rfl, ?_⟩
  simp [after, hquote, hopener, hcloser]

end Surround

variable {outer : List Char}

/-- Filling in a closed key leaves the surroundings as they were, and every character as it was marked in
the key that it comes from. -/
theorem marked_fillReferences (houter : isClosed outer = true) (s : Surround) (cs : List Char) :
    marked s ((marked s cs).flatMap fun mark => if isReference mark then outer else [mark.1]) =
        Marks.fill (marked s cs) (marked {} outer) ∧
      ((marked s cs).flatMap fun mark => if isReference mark then outer else [mark.1]).foldl
        Surround.after s = cs.foldl Surround.after s := by
  induction cs generalizing s with
  | nil => exact ⟨rfl, rfl⟩
  | cons c cs ih =>
      obtain ⟨hmarked, hafter⟩ := ih (s.after c)
      rw [marked, List.flatMap_cons, Marks.fill, List.flatMap_cons]
      by_cases href : isReference (c, s.isTop c) = true
      · -- a reference stands where nothing is open, and the enclosing key closes what it opens
        have htop : s.isTop c = true := by
          unfold isReference at href
          exact (Bool.and_eq_true _ _ ▸ href).1
        obtain ⟨hempty, hsame⟩ := Surround.of_isTop htop
        have hclosed : outer.foldl Surround.after s = s := by
          rw [hempty]
          exact eq_of_beq houter
        rw [if_pos href, if_pos href, marked_append, List.foldl_append, hclosed, List.foldl_cons]
        rw [hsame] at hmarked hafter ⊢
        rw [hmarked, hafter, hempty]
        exact ⟨rfl, rfl⟩
      · rw [if_neg href, if_neg href, List.singleton_append, List.singleton_append, marked,
          List.foldl_cons, List.foldl_cons, hmarked, hafter]
        exact ⟨rfl, rfl⟩

/-- A key with a closed enclosing key filled in is marked as the two are by themselves. -/
theorem marks_fillReferences {enclosing : String} (h : isClosed enclosing.toList = true)
    (key : String) :
    marks (String.ofList (fillReferences enclosing.toList key.toList)) =
      (marks key).fill (marks enclosing) := by
  unfold marks fillReferences
  rw [String.toList_ofList]
  exact (marked_fillReferences h {} key.toList).1

/-- Filling in a closed key keeps a key closed. -/
theorem isClosed_fillReferences {cs : List Char} (h : isClosed outer = true)
    (hcs : isClosed cs = true) : isClosed (fillReferences outer cs) = true := by
  unfold isClosed fillReferences at *
  rw [(marked_fillReferences h {} cs).2]
  exact hcs

end StyleCascade.Key
