/-
# StyleCascade.Proofs.Selector.Weight — weights count what is written

A weight has a ceiling, and adding at the ceiling loses what is added. It is never reached in practice. What
the parts of a text contribute, counted as natural numbers (`Tree.contribution`), is at most the length of
the text, since every part that contributes one is written with a character of its own.

The count does not know of the condition that no descendant matches: a negation contributes what is in it, a
search one more, and one directly in the other the same as the condition that the reader makes of the two
(`Derives.contribution`). So the weight of a selector is the count, up to the ceiling. And if the
text is short enough, then no addition meets the ceiling on the way, not even in an argument
(`weightUnder?_eq_weight`): adding up in the order of trying, with every sum looked at, gives the same.
-/
import StyleCascade.Proofs.Selector.Concatenation

namespace StyleCascade

/-! ## What conditions contribute -/

mutual

/-- What a selector contributes to a weight, as a natural number. -/
def Selector.contribution : Selector → Nat
  | ⟨_, base, conditions, malformed⟩ =>
    if malformed then 0
    else (if base = universalClass then 0 else 1) + Condition.totalContribution conditions
termination_by structural s => s

/-- What a condition contributes. -/
def Condition.contribution : Condition → Nat
  | .hasClass _ => 1
  | .attr _ _ _ => 1
  | .flag _ => 1
  | .nth _ => 1
  | .hasNone inner => 1 + inner.contribution
  | .not inner => inner.contribution
  | .has inner => 1 + inner.contribution
termination_by structural c => c

/-- What the conditions of a list contribute together. -/
def Condition.totalContribution : List Condition → Nat
  | [] => 0
  | c :: cs => c.contribution + Condition.totalContribution cs
termination_by structural cs => cs

end

/-- The sum of two numbers, unless it is above a limit. -/
def Specificity.addUnder? (limit m n : Nat) : Option Nat :=
  if m + n ≤ limit then some (m + n) else none

mutual

/-- The weight of a selector with every sum looked at: nothing if one of them is above a limit. -/
def Selector.weightUnder? (limit : Nat) : Selector → Option Nat
  | ⟨_, base, conditions, malformed⟩ =>
    if malformed then some 0
    else Condition.addAllUnder? limit (if base = universalClass then 0 else 1) conditions
termination_by structural s => s

/-- The weight of a condition with every sum looked at. -/
def Condition.weightUnder? (limit : Nat) : Condition → Option Nat
  | .hasClass _ => some 1
  | .attr _ _ _ => some 1
  | .flag _ => some 1
  | .nth _ => some 1
  | .hasNone inner => (inner.weightUnder? limit).bind (Specificity.addUnder? limit 1)
  | .not inner => inner.weightUnder? limit
  | .has inner => (inner.weightUnder? limit).bind (Specificity.addUnder? limit 1)
termination_by structural c => c

/-- The weights of conditions are added to a total, one after the other. -/
def Condition.addAllUnder? (limit total : Nat) : List Condition → Option Nat
  | [] => some total
  | c :: cs =>
    (c.weightUnder? limit).bind fun weight =>
      (Specificity.addUnder? limit total weight).bind fun sum => Condition.addAllUnder? limit sum cs
termination_by structural cs => cs

end

mutual

/-- A weight is what the selector contributes, up to the ceiling. -/
theorem Selector.value_weight : ∀ s : Selector,
    s.weight.value = min s.contribution Specificity.ceiling
  | ⟨_, base, conditions, malformed⟩ => by
    rw [Selector.weight, Selector.contribution]
    cases malformed with
    | true => rfl
    | false =>
        have htotal := Condition.value_totalWeight conditions
        simp only [Bool.false_eq_true, if_false, Specificity.value_add, htotal]
        split
        · show min (0 + _) _ = _
          omega
        · show min (1 + _) _ = _
          omega
termination_by structural s => s

theorem Condition.value_weight : ∀ c : Condition,
    c.weight.value = min c.contribution Specificity.ceiling
  | .hasClass _ => rfl
  | .attr _ _ _ => rfl
  | .flag _ => rfl
  | .nth _ => rfl
  | .hasNone inner => by
    rw [Condition.weight, Condition.contribution, Specificity.value_add, Selector.value_weight inner]
    show min (1 + _) _ = _
    omega
  | .not inner => Selector.value_weight inner
  | .has inner => by
    rw [Condition.weight, Condition.contribution, Specificity.value_add, Selector.value_weight inner]
    show min (1 + _) _ = _
    omega
termination_by structural c => c

theorem Condition.value_totalWeight : ∀ cs : List Condition,
    (Condition.totalWeight cs).value = min (Condition.totalContribution cs) Specificity.ceiling
  | [] => rfl
  | c :: cs => by
    rw [Condition.totalWeight, Condition.totalContribution, Specificity.value_add,
      Condition.value_weight c, Condition.value_totalWeight cs]
    omega
termination_by structural cs => cs

end

variable {limit : Nat}

theorem Specificity.addUnder?_eq {m n : Nat} (h : m + n ≤ limit) :
    addUnder? limit m n = some (m + n) :=
  if_pos h

mutual

/-- Under a limit that the contributions keep to, no sum is above it. -/
theorem Selector.weightUnder?_eq_contribution : ∀ s : Selector, s.contribution ≤ limit →
    s.weightUnder? limit = some s.contribution
  | ⟨_, base, conditions, malformed⟩ => fun h => by
    rw [Selector.weightUnder?]
    rw [Selector.contribution] at h ⊢
    cases malformed with
    | true => rfl
    | false => exact Condition.addAllUnder?_eq conditions _ h
termination_by structural s => s

theorem Condition.weightUnder?_eq_contribution : ∀ c : Condition, c.contribution ≤ limit →
    c.weightUnder? limit = some c.contribution
  | .hasClass _ => fun _ => rfl
  | .attr _ _ _ => fun _ => rfl
  | .flag _ => fun _ => rfl
  | .nth _ => fun _ => rfl
  | .hasNone inner => fun h => by
    rw [Condition.contribution] at h
    rw [Condition.weightUnder?, Selector.weightUnder?_eq_contribution inner (by omega), Option.bind_some,
      Specificity.addUnder?_eq h, Condition.contribution]
  | .not inner => fun h => Selector.weightUnder?_eq_contribution inner h
  | .has inner => fun h => by
    rw [Condition.contribution] at h
    rw [Condition.weightUnder?, Selector.weightUnder?_eq_contribution inner (by omega), Option.bind_some,
      Specificity.addUnder?_eq h, Condition.contribution]
termination_by structural c => c

theorem Condition.addAllUnder?_eq : ∀ (cs : List Condition) (total : Nat),
    total + Condition.totalContribution cs ≤ limit →
    Condition.addAllUnder? limit total cs = some (total + Condition.totalContribution cs)
  | [] => fun _ _ => rfl
  | c :: cs => fun total h => by
    rw [Condition.totalContribution] at h ⊢
    rw [Condition.addAllUnder?, Condition.weightUnder?_eq_contribution c (by omega), Option.bind_some,
      Specificity.addUnder?_eq (by omega), Option.bind_some,
      Condition.addAllUnder?_eq cs _ (by omega), Nat.add_assoc]
termination_by structural cs => cs

end

/-- The order of conditions does not matter for what they contribute. -/
theorem Condition.totalContribution_perm {cs ds : List Condition} (h : cs.Perm ds) :
    totalContribution cs = totalContribution ds := by
  induction h with
  | nil => rfl
  | cons c _ ih => rw [totalContribution, totalContribution, ih]
  | swap c d cs =>
      simp only [totalContribution]
      omega
  | trans _ _ ih ih' => exact ih.trans ih'

namespace Selector

/-! ## What a text contributes -/

/-- A search contributes one, and a negation nothing of its own. -/
def Nesting.contribution : Nesting → Nat
  | not => 0
  | has => 1

mutual

/-- What the parts of a text contribute: one for a name as base, and what the fragments contribute. -/
def Tree.contribution : Tree → Nat
  | ⟨_, base, fragments⟩ =>
    (if base.getD ['*'] = ['*'] then 0 else 1) + Fragment.totalContribution fragments
termination_by structural t => t

/-- What a fragment contributes: one if there is no selector in it, and otherwise what the selector in it
contributes, with one more for a search. -/
def Fragment.contribution : Fragment → Nat
  | .plain _ => 1
  | .nested nesting inner => nesting.contribution + inner.contribution
termination_by structural f => f

/-- What fragments contribute together. -/
def Fragment.totalContribution : List Fragment → Nat
  | [] => 0
  | f :: more => f.contribution + Fragment.totalContribution more
termination_by structural fs => fs

end

theorem IsPlain.contribution {text : List Char} {c : Condition} (h : IsPlain text c) :
    c.contribution = 1 ∧ 1 ≤ text.length := by
  cases h with
  | hasClass _ => exact ⟨rfl, Nat.succ_pos _⟩
  | bracket _ hc =>
      refine ⟨?_, Nat.succ_pos _⟩
      cases hc with
      | present _ _ => rfl
      | compared _ _ _ _ _ => rfl
  | flag _ => exact ⟨rfl, Nat.succ_pos _⟩
  | nth _ _ => exact ⟨rfl, Nat.succ_pos _⟩

theorem Nesting.contribution_wrap (nesting : Nesting) (s : Selector) :
    (nesting.wrap s).contribution = nesting.contribution + s.contribution := by
  cases nesting with
  | not => exact (Nat.zero_add _).symm
  | has => rfl

/-- A nesting and the other one contribute one together. -/
theorem Nesting.contribution_other (nesting : Nesting) :
    nesting.contribution + nesting.other.contribution = 1 := by
  cases nesting with
  | not => rfl
  | has => rfl

/-- One nesting directly in the other contributes one more than what is in them. -/
theorem Fragment.contribution_fused (nesting : Nesting) (source : List Char) (inner : Tree) :
    (Fragment.nested nesting ⟨source, none, [.nested nesting.other inner]⟩).contribution =
      1 + inner.contribution := by
  have hone := nesting.contribution_other
  show nesting.contribution + (0 + (nesting.other.contribution + inner.contribution + 0)) = _
  omega

/-- Texts below a length are read as selectors that contribute what the texts do, and that is no more than
their length. -/
def CountedBelow (n : Nat) : Prop :=
  ∀ ds : List Char, ds.length < n → ∀ t, Derives ds t →
    t.toSelector.contribution = t.contribution ∧ t.contribution ≤ ds.length

theorem length_call (word : String) (argument : List Char) :
    (call word argument).length = word.toList.length + argument.length + 3 := by
  unfold call
  simp only [List.length_cons, List.length_append, List.length_nil]
  omega

theorem contribution_nested {n : Nat} (hbelow : CountedBelow n) (nesting : Nesting)
    {ds : List Char} (hds : ds.length < n) {t : Tree} (h : Derives ds t) :
    (Fragment.nested nesting t).condition.contribution = (Fragment.nested nesting t).contribution := by
  by_cases hfused : ∃ source inner, t = ⟨source, none, [.nested nesting.other inner]⟩
  · -- the selector in the other nesting is read from a shorter text still
    obtain ⟨source, inner, rfl⟩ := hfused
    obtain ⟨argument, hinside, rfl⟩ := call_of_derives h
    obtain ⟨_, inner', heq, hinner⟩ := eq_of_derives_call hinside h
    obtain ⟨-, rfl⟩ : source = _ ∧ inner = inner' := by simpa using heq
    have hshorter := Text.length_trim_le argument
    rw [length_call] at hds
    rw [Fragment.condition_fused, Fragment.contribution_fused, Condition.contribution,
      (hbelow _ (by omega) _ hinner).1]
  · have hcondition : (Fragment.nested nesting t).condition = nesting.wrap t.toSelector := by
      refine Fragment.condition_nested ?_
      rintro source inner rfl
      exact hfused ⟨source, inner, rfl⟩
    rw [hcondition, Nesting.contribution_wrap, (hbelow _ hds _ h).1, Fragment.contribution]

theorem DerivesAll.contribution {n : Nat} (hbelow : CountedBelow n) {cs : List Char}
    (hcs : cs.length ≤ n) {fs : List Fragment} (h : DerivesAll cs fs) :
    Condition.totalContribution (Fragment.conditions fs) = Fragment.totalContribution fs ∧
      Fragment.totalContribution fs ≤ cs.length := by
  induction fs generalizing cs with
  | nil => exact ⟨rfl, Nat.zero_le _⟩
  | cons f fs ih =>
      rw [Fragment.conditions, Condition.totalContribution, Fragment.totalContribution]
      cases h with
      | @plain text rest c _ hplain hmore =>
          rw [List.length_append] at hcs ⊢
          obtain ⟨hone, hlength⟩ := hplain.contribution
          obtain ⟨htotal, hrest⟩ := ih (by omega) hmore
          rw [Fragment.condition, hone, htotal, Fragment.contribution]
          exact ⟨rfl, by omega⟩
      | @nested argument rest nesting inner _ hinside hinner hmore =>
          rw [List.length_append, length_call] at hcs ⊢
          have htrim := Text.length_trim_le argument
          obtain ⟨htotal, hrest⟩ := ih (by omega) hmore
          have hinside := hbelow _ (by omega) _ hinner
          rw [contribution_nested hbelow nesting (by omega) hinner, htotal, Fragment.contribution]
          refine ⟨rfl, ?_⟩
          have hnesting := nesting.contribution_other
          omega

theorem ofList_eq_universalClass_iff {cs : List Char} :
    String.ofList cs = universalClass ↔ cs = ['*'] := by
  constructor
  · intro h
    have := congrArg String.toList h
    rwa [String.toList_ofList] at this
  · rintro rfl
    rfl

/-- What is read of a text contributes what the text does, and that is no more than its length. -/
theorem Derives.contribution {cs : List Char} {t : Tree} (h : Derives cs t) :
    t.toSelector.contribution = t.contribution ∧ t.contribution ≤ cs.length := by
  have hbelow : CountedBelow cs.length := fun _ _ _ ht => ht.contribution
  cases h with
  | @selector _ rest base fs _ hbase hcs hall =>
      have hlength : cs.length = (base.getD []).length + rest.length := by
        rw [hcs, List.length_append]
      obtain ⟨htotal, hrest⟩ := hall.contribution hbelow (by omega)
      have hperm := Condition.totalContribution_perm (Condition.sortByRank_perm (Fragment.conditions fs))
      rw [Tree.toSelector, Selector.contribution, Tree.contribution, hperm, htotal]
      simp only [Bool.false_eq_true, if_false, ofList_eq_universalClass_iff]
      refine ⟨trivial, ?_⟩
      cases base with
      | none =>
          simp only [Option.getD_none, List.length_nil] at hlength ⊢
          simp only [if_true]
          omega
      | some base =>
          have hpos := List.length_pos_iff.mpr hbase.ne_nil
          simp only [Option.getD_some] at hlength ⊢
          split
          · omega
          · omega
termination_by cs.length

theorem contribution_of_malformed {s : Selector} (h : s.malformed = true) : s.contribution = 0 := by
  obtain ⟨source, base, conditions, malformed⟩ := s
  rw [contribution, if_pos h]

/-- No text is read as a selector that contributes more than its length. -/
theorem contribution_read_le (cs : List Char) : (read cs).contribution ≤ cs.length := by
  cases hwell : (read cs).malformed with
  | true =>
      rw [contribution_of_malformed hwell]
      exact Nat.zero_le _
  | false =>
      obtain ⟨t, ht⟩ := (agrees cs).1 hwell
      rw [read_of_derives ht, ht.contribution.1]
      exact ht.contribution.2

/-! ## The texts that are read for a text -/

/-- The text that is read as a selector for an argument: what is in the other nesting, if the argument is nothing
but that, and else the argument. -/
def readArgument (other argument : List Char) : List Char :=
  match wholeCall? other argument with
  | some inner => Text.trim inner
  | none => argument

/-- The text that is read as a selector for a piece. -/
def Piece.argument? : Piece → Option (List Char)
  | plain _ => none
  | negation argument => some (readArgument ['h', 'a', 's'] argument)
  | search argument => some (readArgument ['n', 'o', 't'] argument)

/-- A piece with a text to be read is a condition on the selector that is read. -/
theorem Piece.readCondition?_of_argument? {piece : Piece} {ds : List Char} (h : piece.argument? = some ds) :
    ∃ wrap, readCondition? piece = conditionOn? wrap (read ds) := by
  cases piece with
  | plain _ => exact absurd h (by simp [argument?])
  | negation argument =>
      obtain rfl := Option.some.inj h
      rw [readCondition?, readArgument]
      split
      · rename_i inner hinner
        exact ⟨.hasNone, by rw [hinner]⟩
      · rename_i hinner
        exact ⟨.not, by rw [hinner]⟩
  | search argument =>
      obtain rfl := Option.some.inj h
      rw [readCondition?, readArgument]
      split
      · rename_i inner hinner
        exact ⟨.hasNone, by rw [hinner]⟩
      · rename_i hinner
        exact ⟨.has, by rw [hinner]⟩

/-- The texts read as selectors for a text of conditions: the arguments of its conditions, up to the first
condition that cannot be read. -/
inductive HasArgument : List Char → List Char → Prop
  | here {cs rest ds : List Char} {piece : Piece} :
      readPiece? cs = some (piece, rest) → piece.argument? = some ds → HasArgument cs ds
  | later {cs rest ds : List Char} {piece : Piece} {c : Condition} :
      readPiece? cs = some (piece, rest) → readCondition? piece = some c → HasArgument rest ds →
      HasArgument cs ds

/-- The texts read as selectors for a selector: the text itself, and what is read for its arguments. -/
inductive IsReadFor : List Char → List Char → Prop
  | self (cs : List Char) : IsReadFor cs cs
  | argument {cs ds es : List Char} :
      HasArgument (splitBase cs).2 ds → IsReadFor ds es → IsReadFor cs es

/-- A text with an argument that cannot be read is not read to its end. -/
theorem HasArgument.not_read {cs ds : List Char} (h : HasArgument cs ds) (hmalformed : (read ds).malformed = true) :
    (readConditions cs).2 = false := by
  induction h with
  | here hpiece hargument =>
      obtain ⟨wrap, hcondition⟩ := Piece.readCondition?_of_argument? hargument
      rw [readConditions_of_some hpiece, hcondition, conditionOn?, if_pos hmalformed]
  | later hpiece hcondition _ ih =>
      rw [readConditions_of_some hpiece, hcondition]
      exact ih hmalformed

/-- Whatever is read for a selector can be read if the selector can. -/
theorem IsReadFor.malformed {cs ds : List Char} (h : IsReadFor cs ds) (hmalformed : (read ds).malformed = true) :
    (read cs).malformed = true := by
  induction h with
  | self cs => exact hmalformed
  | @argument cs ds es hargument _ ih =>
      have hend := hargument.not_read (ih hmalformed)
      rw [read, hend]
      simp

theorem length_readArgument_le (other argument : List Char) :
    (readArgument other argument).length ≤ argument.length := by
  unfold readArgument
  split
  · rename_i inner hinner
    have htrim := Text.length_trim_le inner
    have hshorter := length_of_wholeCall? hinner
    omega
  · exact Nat.le_refl _

theorem Piece.length_argument? {piece : Piece} {ds : List Char} (h : piece.argument? = some ds) :
    ds.length ≤ piece.size := by
  cases piece with
  | plain _ => exact absurd h (by simp [argument?])
  | negation argument =>
      obtain rfl := Option.some.inj h
      exact length_readArgument_le _ argument
  | search argument =>
      obtain rfl := Option.some.inj h
      exact length_readArgument_le _ argument

theorem HasArgument.length_lt {cs ds : List Char} (h : HasArgument cs ds) : ds.length < cs.length := by
  induction h with
  | here hpiece hargument =>
      exact Nat.lt_of_le_of_lt (Piece.length_argument? hargument) (length_of_readPiece? hpiece).1
  | later hpiece _ _ ih => exact Nat.lt_trans ih (length_of_readPiece? hpiece).2

theorem IsReadFor.length_le {cs ds : List Char} (h : IsReadFor cs ds) : ds.length ≤ cs.length := by
  induction h with
  | self cs => exact Nat.le_refl _
  | @argument cs ds es hargument _ ih =>
      have hshorter := hargument.length_lt
      have hbase := length_splitBase_le cs
      omega

/-- The weight of a text that is short enough is reached without meeting the ceiling. -/
theorem weightUnder?_eq_weight {cs : List Char} (h : cs.length ≤ Specificity.ceiling) :
    (read cs).weightUnder? Specificity.ceiling = some (read cs).weight.value := by
  have hle := contribution_read_le cs
  rw [weightUnder?_eq_contribution _ (by omega), value_weight]
  congr 1
  omega

end Selector

end StyleCascade
