/-
# StyleCascade.Proofs.Rule.Weight — no weight meets the ceiling

The weight of a selector is at most the size of its key in bytes, so the weights along a path of keys add up
to no more than the sizes of the keys do. Where these are below `2^32` together, the weight of a rule is the
sum of the weights of the selectors on its path (`Rule.weights_never_saturate`).
-/
import Mathlib.Algebra.Order.BigOperators.Group.List
import Mathlib.Data.String.Basic
import StyleCascade.Proofs.Rule.Malformed
import StyleCascade.Proofs.Selector.Weight

namespace StyleCascade

variable {m : Type → Type}

namespace Selector

/-- A text has at least as many bytes as characters. -/
theorem length_toList_le (s : String) : s.toList.length ≤ s.utf8ByteSize := by
  rw [← String.utf8Len_toList]
  induction s.toList with
  | nil => exact Nat.le_refl _
  | cons c cs ih =>
      have hpos := c.utf8Size_pos
      rw [String.utf8Len_cons, List.length_cons]
      omega

theorem value_weight_ofString_le (key : String) : (ofString key).weight.value ≤ key.utf8ByteSize := by
  have hle := contribution_read_le key.toList
  have hbytes := length_toList_le key
  have hvalue := value_weight (ofString key)
  have hread : ofString key = read key.toList := rfl
  rw [← hread] at hle
  omega

/-- Weights that are added up stay below the ceiling if the keys are short enough. -/
theorem pathWeight_eq_sum {keys : List String} (h : (keys.map String.utf8ByteSize).sum < 2 ^ 32) :
    pathWeight keys = (keys.map fun key => (ofString key).weight.value).sum := by
  have hle : (keys.map fun key => (ofString key).weight.value).sum ≤
      (keys.map String.utf8ByteSize).sum :=
    List.sum_le_sum fun key _ => value_weight_ofString_le key
  have hceiling : Specificity.ceiling = 2 ^ 32 - 1 := rfl
  unfold pathWeight
  omega

end Selector

/-- The selectors on the path of a rule are read from keys, and its weight is theirs together. -/
theorem Sheet.weight_of_mem_rules {vars : Variables} {sheet : Sheet m} {r : Rule m}
    (h : r ∈ sheet.rules vars) :
    ∃ keys, r.path = keys.map Selector.ofString ∧ r.weight.value = Selector.pathWeight keys := by
  obtain ⟨v, _, hrule⟩ := exists_left_of_forall₂ (forall₂_rulesBelow vars sheet [] .zero 0) h
  exact ⟨v.above ++ [v.key], hrule.path, (Visit.isRule_of_isRuleBelow hrule).weight⟩

/-- No weight is more than the number of bytes of its text.

- When a text of less than `2^32` bytes is read, be it a selector or not, then no addition meets the ceiling in
  weighing any of the texts that are read for it; and each of them that is a selector weighs what its
  parts contribute. One that is none is the reason that the text as a whole is none.
- Nor does the weight of a rule meet the ceiling if the keys on its path have less than `2^32` bytes
  together: it is the sum of their weights. -/
theorem Rule.weights_never_saturate :
    (∀ s : String, (Selector.ofString s).weight.value ≤ s.utf8ByteSize) ∧
    (∀ s : String, s.utf8ByteSize < 2 ^ 32 → ∀ cs, Selector.IsReadFor s.toList cs →
      (Selector.read cs).weightUnder? Specificity.ceiling = some (Selector.read cs).weight.value ∧
      ((Selector.read cs).malformed = false →
        ∃ t, Selector.Derives cs t ∧ (Selector.read cs).weight.value = t.contribution) ∧
      ((Selector.read cs).malformed = true → (Selector.ofString s).malformed = true)) ∧
    ∀ (vars : Variables) (sheet : Sheet m), ∀ r ∈ sheet.rules vars,
      (∀ s ∈ r.path, s = Selector.ofString s.source) ∧
      ((r.path.map fun s => s.source.utf8ByteSize).sum < 2 ^ 32 →
        r.weight.value = (r.path.map fun s => s.weight.value).sum) := by
  refine ⟨Selector.value_weight_ofString_le, fun s hs cs hcs => ?_, fun vars sheet r hr => ?_⟩
  · have hlength := hcs.length_le
    have hbytes := Selector.length_toList_le s
    have hceiling : Specificity.ceiling = 2 ^ 32 - 1 := rfl
    have hunder : (Selector.read cs).weightUnder? Specificity.ceiling =
        some (Selector.read cs).weight.value := Selector.weightUnder?_eq_weight (by omega)
    refine ⟨hunder, fun hwell => ?_, hcs.malformed⟩
    obtain ⟨t, ht⟩ := (Selector.agrees cs).1 hwell
    obtain ⟨hcontribution, hle⟩ := ht.contribution
    refine ⟨t, ht, ?_⟩
    rw [Selector.value_weight, Selector.read_of_derives ht, hcontribution]
    omega
  · obtain ⟨keys, hpath, hweight⟩ := Sheet.weight_of_mem_rules hr
    rw [hpath]
    constructor
    · intro s hs
      obtain ⟨key, -, rfl⟩ := List.mem_map.mp hs
      rw [Selector.source_ofString]
    · intro hsum
      simp only [List.map_map, Function.comp_def, Selector.source_ofString] at hsum ⊢
      exact hweight.trans (Selector.pathWeight_eq_sum hsum)

/-- A class in a negation is weighed although the selector around it cannot be read; and the own properties of
the icon weigh what the two selectors weigh. -/
theorem Rule.weights_never_saturate_icon :
    let text := "row:not(.b.c):hover"
    let sheet : Sheet Id := [("card:has(row)", .nested [("icon", .nested [("gap", .value (.text "2"))])])]
    (text.utf8ByteSize < 2 ^ 32 ∧ Selector.IsReadFor text.toList ".b.c".toList ∧
      (Selector.ofString text).malformed = true ∧ (Selector.ofString text).weight.value = 0 ∧
      (Selector.read ".b.c".toList).weightUnder? Specificity.ceiling = some 2 ∧
      (Selector.read ".b.c".toList).malformed = false ∧
      ∃ t, Selector.Derives ".b.c".toList t ∧ t.contribution = 2) ∧
    ∃ r ∈ sheet.rules {}, (r.path.map fun s => s.source) = ["card:has(row)", "icon"] ∧
      (r.path.map fun s => s.source.utf8ByteSize).sum = 17 ∧
      r.weight.value = (r.path.map fun s => s.weight.value).sum ∧ r.weight.value = 4 := by
  intro text sheet
  obtain ⟨-, htexts, hrules⟩ := Rule.weights_never_saturate (m := Id)
  have hsize : text.utf8ByteSize < 2 ^ 32 := by decide
  have hinner : Selector.splitGroup? ')' [] none ".b.c):hover".toList =
      some (".b.c".toList, ":hover".toList) := by decide
  obtain ⟨hinside, -⟩ := (Selector.splitGroup?_eq_some_iff (by decide)).mp hinner
  have hbase : (Selector.splitBase text.toList).2 =
      Selector.call "not" ".b.c".toList ++ ":hover".toList := by decide +kernel
  have hpiece : Selector.readPiece? (Selector.splitBase text.toList).2 =
      some (.negation ".b.c".toList, ":hover".toList) :=
    hbase ▸ Selector.readPiece?_of_isPiece (.nested .not hinside (by rfl))
      (Selector.endsName_cons (by decide) _)
  have hread : Selector.IsReadFor text.toList ".b.c".toList :=
    .argument (.here hpiece (by decide +kernel)) (.self _)
  obtain ⟨hunder, hparts, -⟩ := htexts text hsize _ hread
  have hwell : (Selector.read ".b.c".toList).malformed = false := by decide +kernel
  have hvalue : (Selector.read ".b.c".toList).weight.value = 2 := by decide +kernel
  obtain ⟨t, ht, hcount⟩ := hparts hwell
  rw [hvalue] at hunder hcount
  refine ⟨⟨hsize, hread, by decide +kernel, by decide +kernel, hunder, hwell, t, ht, hcount.symm⟩, ?_⟩
  refine ⟨_, List.mem_singleton_self _, ?_⟩
  obtain ⟨-, hsum⟩ := hrules {} sheet _ (List.mem_singleton_self _)
  exact ⟨by decide +kernel, by decide +kernel, hsum (by decide +kernel), by decide +kernel⟩

end StyleCascade
