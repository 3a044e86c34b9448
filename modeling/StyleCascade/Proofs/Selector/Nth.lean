/-
# StyleCascade.Proofs.Selector.Nth — position expressions, written and satisfied

`IsWritten` is the grammar of the texts without blanks that are read, each with the expression it stands for.
The reader agrees with it (`readCompact?_eq_some_iff`), and every expression has a text (`render`), so that
none is out of reach. What an expression admits is settled by remainders: it repeats itself after each step.
-/
import StyleCascade.Selector.Nth

namespace StyleCascade.Nth

/-! ## The grammar -/

/-- A word is written in decimal digits, perhaps with leading zeros. -/
def IsNumeral (digits : List Char) (w : UInt64) : Prop :=
  digits ≠ [] ∧ (∀ c ∈ digits, c.isDigit = true) ∧ Nat.ofDigitChars 10 digits 0 = w.toNat

/-- The step as it stands before the `n`. An `n` alone has a step of one. -/
inductive IsCoefficient : List Char → UInt64 → Prop
  | one : IsCoefficient [] 1
  | numeral {digits : List Char} {k : UInt64} : IsNumeral digits k → IsCoefficient digits k

/-- The sign before an offset. -/
def sign : Bool → Char
  | true => '+'
  | false => '-'

/-- A text without blanks stands for an expression. -/
inductive IsWritten : List Char → Nth → Prop
  | odd : IsWritten ['o', 'd', 'd'] (shifted 2 1 true)
  | even : IsWritten ['e', 'v', 'e', 'n'] (every 2)
  | position {digits : List Char} {p : UInt64} : IsNumeral digits p → IsWritten digits (exact p)
  | multiples {coefficient : List Char} {k : UInt64} :
      IsCoefficient coefficient k → IsWritten (coefficient ++ ['n']) (every k)
  | offset {coefficient digits : List Char} {k m : UInt64} (plus : Bool) :
      IsCoefficient coefficient k → IsNumeral digits m →
      IsWritten (coefficient ++ 'n' :: sign plus :: digits) (shifted k m plus)

/-! ## The reader follows the grammar -/

theorem readWord?_eq_some_iff {cs : List Char} {w : UInt64} :
    Text.readWord? cs = some w ↔ IsNumeral cs w := by
  rw [Text.readWord?_eq_some_iff, Text.readNat?_eq_some_iff, List.all_eq_true]
  exact Iff.rfl

/-- A character that is no digit stands in no numeral. -/
theorem IsNumeral.not_mem {digits : List Char} {w : UInt64} (h : IsNumeral digits w) {c : Char}
    (hc : c.isDigit = false) : c ∉ digits := by
  intro hmem
  rw [h.2.1 c hmem] at hc
  exact absurd hc (by decide)

theorem IsCoefficient.not_mem {cs : List Char} {k : UInt64} (h : IsCoefficient cs k) : 'n' ∉ cs := by
  cases h with
  | one => exact List.not_mem_nil
  | numeral hdigits => exact hdigits.not_mem (by decide)

theorem readStep?_eq_some_iff {cs : List Char} {k : UInt64} :
    readStep? cs = some k ↔ IsCoefficient cs k := by
  unfold readStep?
  constructor
  · intro h
    split at h
    · rename_i hcs
      subst hcs
      obtain rfl := Option.some.inj h
      exact .one
    · exact .numeral (readWord?_eq_some_iff.mp h)
  · intro h
    cases h with
    | one => rfl
    | numeral hdigits =>
        rw [if_neg hdigits.1]
        exact readWord?_eq_some_iff.mpr hdigits

/-- After the `n` there is nothing, or a sign and an offset. -/
theorem readTail?_eq_some_iff {k : UInt64} {cs : List Char} {e : Nth} :
    readTail? k cs = some e ↔
      cs = [] ∧ e = every k ∨
        ∃ plus digits m, cs = sign plus :: digits ∧ IsNumeral digits m ∧ e = shifted k m plus := by
  have offset : ∀ (plus : Bool) (digits : List Char),
      ((Text.readWord? digits).map fun m => shifted k m plus) = some e ↔
        ∃ m, IsNumeral digits m ∧ e = shifted k m plus := by
    intro plus digits
    simp only [Option.map_eq_some_iff, readWord?_eq_some_iff, @eq_comm Nth e]
  constructor
  · intro h
    unfold readTail? at h
    split at h
    · exact .inl ⟨rfl, (Option.some.inj h).symm⟩
    · obtain ⟨m, hm⟩ := (offset true _).mp h
      exact .inr ⟨true, _, m, rfl, hm⟩
    · obtain ⟨m, hm⟩ := (offset false _).mp h
      exact .inr ⟨false, _, m, rfl, hm⟩
    · exact absurd h (by simp)
  · rintro (⟨rfl, rfl⟩ | ⟨plus, digits, m, rfl, hm⟩)
    · rfl
    · cases plus with
      | true => exact (offset true digits).mpr ⟨m, hm⟩
      | false => exact (offset false digits).mpr ⟨m, hm⟩

/-- An expression with a step is read off its step and what follows the first `n`. -/
theorem readStepped?_eq_some_iff {cs : List Char} {e : Nth} :
    readStepped? cs = some e ↔
      ∃ coefficient tail k, cs = coefficient ++ 'n' :: tail ∧ IsCoefficient coefficient k ∧
        readTail? k tail = some e := by
  constructor
  · intro h
    unfold readStepped? at h
    split at h
    · exact absurd h (by simp)
    · rename_i coefficient tail hcut
      obtain ⟨hcs, -⟩ := Text.cutAt?_singleton_eq_some_iff.mp hcut
      obtain ⟨k, hk, htail⟩ := Option.bind_eq_some_iff.mp h
      exact ⟨coefficient, tail, k, hcs, readStep?_eq_some_iff.mp hk, htail⟩
  · rintro ⟨coefficient, tail, k, hcs, hk, htail⟩
    have hcut := Text.cutAt?_singleton_eq_some_iff.mpr ⟨hcs, hk.not_mem⟩
    unfold readStepped?
    rw [hcut]
    exact Option.bind_eq_some_iff.mpr ⟨k, readStep?_eq_some_iff.mpr hk, htail⟩

/-- A text with an `n` after a coefficient is neither a keyword nor a numeral. -/
theorem readCompact?_of_readTail? {coefficient tail : List Char} {k : UInt64} {e : Nth}
    (hk : IsCoefficient coefficient k) (htail : readTail? k tail = some e) :
    readCompact? (coefficient ++ 'n' :: tail) = some e := by
  have hmem : 'n' ∈ coefficient ++ 'n' :: tail := List.mem_append_right _ List.mem_cons_self
  have hodd : coefficient ++ 'n' :: tail ≠ ['o', 'd', 'd'] := by
    intro h
    rw [h] at hmem
    exact absurd hmem (by decide)
  have heven : coefficient ++ 'n' :: tail ≠ ['e', 'v', 'e', 'n'] := by
    intro h
    cases hk with
    | one => exact absurd (List.cons.inj h).1 (by decide)
    | numeral hdigits =>
        obtain ⟨d, digits, rfl⟩ := List.exists_cons_of_ne_nil hdigits.1
        obtain ⟨rfl, -⟩ := List.cons.inj h
        exact hdigits.not_mem (by decide) List.mem_cons_self
  have hnumeral : Text.readWord? (coefficient ++ 'n' :: tail) = none := by
    rw [Option.eq_none_iff_forall_ne_some]
    intro w hw
    exact (readWord?_eq_some_iff.mp hw).not_mem (by decide) hmem
  unfold readCompact?
  rw [if_neg hodd, if_neg heven, hnumeral]
  exact readStepped?_eq_some_iff.mpr ⟨coefficient, tail, k, rfl, hk, htail⟩

/-- A text without blanks is read exactly as the grammar has it. -/
theorem readCompact?_eq_some_iff {cs : List Char} {e : Nth} :
    readCompact? cs = some e ↔ IsWritten cs e := by
  constructor
  · intro h
    unfold readCompact? at h
    split at h
    · rename_i hcs
      obtain rfl := Option.some.inj h
      exact hcs ▸ .odd
    · split at h
      · rename_i hcs
        obtain rfl := Option.some.inj h
        exact hcs ▸ .even
      · split at h
        · rename_i hposition
          obtain rfl := Option.some.inj h
          exact .position (readWord?_eq_some_iff.mp hposition)
        · obtain ⟨coefficient, tail, k, rfl, hk, htail⟩ := readStepped?_eq_some_iff.mp h
          rcases readTail?_eq_some_iff.mp htail with ⟨rfl, rfl⟩ | ⟨plus, digits, m, rfl, hm, rfl⟩
          · exact .multiples hk
          · exact .offset plus hk hm
  · intro h
    cases h with
    | odd => rfl
    | even => rfl
    | position hdigits =>
        have hodd : cs ≠ ['o', 'd', 'd'] := fun h => hdigits.not_mem (by decide) (h ▸ List.mem_cons_self)
        have heven : cs ≠ ['e', 'v', 'e', 'n'] := fun h =>
          hdigits.not_mem (by decide) (h ▸ List.mem_cons_self)
        unfold readCompact?
        rw [if_neg hodd, if_neg heven, readWord?_eq_some_iff.mpr hdigits]
    | multiples hk => exact readCompact?_of_readTail? hk rfl
    | offset plus hk hm =>
        exact readCompact?_of_readTail? hk
          (readTail?_eq_some_iff.mpr (.inr ⟨plus, _, _, rfl, hm, rfl⟩))

/-- The step is one too large for a word. -/
example : ofString? "18446744073709551616n" = none := by decide

/-! ## The text of an expression -/

/-- The text of an expression, without blanks and leading zeros, and with its step written out. -/
def render : Nth → List Char
  | exact p => Nat.toDigits 10 p.toNat
  | every k => Nat.toDigits 10 k.toNat ++ ['n']
  | shifted k m plus => Nat.toDigits 10 k.toNat ++ 'n' :: sign plus :: Nat.toDigits 10 m.toNat

theorem isNumeral_toDigits (w : UInt64) : IsNumeral (Nat.toDigits 10 w.toNat) w :=
  ⟨Nat.toDigits_ne_nil, fun _ hc => Nat.isDigit_of_mem_toDigits (by decide) (by decide) hc,
    Nat.ofDigitChars_ten_toDigits⟩

theorem isWritten_render (e : Nth) : IsWritten e.render e := by
  cases e with
  | exact p => exact .position (isNumeral_toDigits p)
  | every k => exact .multiples (.numeral (isNumeral_toDigits k))
  | shifted k m plus => exact .offset plus (.numeral (isNumeral_toDigits k)) (isNumeral_toDigits m)

theorem isSpace_of_isDigit {c : Char} (h : c.isDigit = true) : Text.isSpace c = false := by
  have hrange : 48 ≤ c.toNat ∧ c.toNat ≤ 57 := by
    simpa [Char.isDigit, UInt32.le_iff_toNat_le] using h
  simp only [Text.isSpace, Text.spaceRanges, List.any_cons, List.any_nil, Bool.or_eq_false_iff,
    decide_eq_false_iff_not, and_true]
  omega

theorem isSpace_sign (plus : Bool) : Text.isSpace (sign plus) = false := by
  cases plus <;> decide

/-- There is no blank in the text of an expression. -/
theorem squeeze_render (e : Nth) : Text.squeeze e.render = e.render := by
  have hdigits : ∀ w : UInt64, ∀ c ∈ Nat.toDigits 10 w.toNat, Text.isSpace c = false := fun w c hc =>
    isSpace_of_isDigit ((isNumeral_toDigits w).2.1 c hc)
  have hn : Text.isSpace 'n' = false := by decide
  refine List.filter_eq_self.mpr fun c hc => ?_
  rw [Bool.not_eq_true']
  cases e with
  | exact p => exact hdigits p c hc
  | every k =>
      rcases List.mem_append.mp hc with hc | hc
      · exact hdigits k c hc
      · exact List.mem_singleton.mp hc ▸ hn
  | shifted k m plus =>
      rcases List.mem_append.mp hc with hc | hc
      · exact hdigits k c hc
      · rcases List.mem_cons.mp hc with rfl | hc
        · exact hn
        · rcases List.mem_cons.mp hc with rfl | hc
          · exact isSpace_sign plus
          · exact hdigits m c hc

/-! ## What is admitted -/

/-- The step of an expression, if it has one. -/
def step? : Nth → Option UInt64
  | exact _ => none
  | every k => some k
  | shifted k _ _ => some k

variable {k m : UInt64} {i : Nat}

theorem admits_exact_iff {p : UInt64} : (exact p).admits i = true ↔ i = p.toNat :=
  beq_iff_eq

theorem admits_of_step_zero {e : Nth} (h : e.step? = some 0) (i : Nat) : e.admits i = false := by
  cases e with
  | exact p => exact absurd h (by simp [step?])
  | every k =>
      obtain rfl := Option.some.inj h
      rfl
  | shifted k m plus =>
      obtain rfl := Option.some.inj h
      cases plus with
      | true => rfl
      | false => rfl

/-- What is admitted depends on the remainder only. -/
theorem admits_congr {e : Nth} (h : e.step? = some k) {i j : Nat} (hmod : i % k.toNat = j % k.toNat) :
    e.admits i = e.admits j := by
  cases e with
  | exact p => exact absurd h (by simp [step?])
  | every k =>
      obtain rfl := Option.some.inj h
      show (k != 0 && i % k.toNat == 0) = _
      rw [hmod, admits]
  | shifted k m plus =>
      obtain rfl := Option.some.inj h
      cases plus with
      | true =>
          show (k != 0 && i % k.toNat == m.toNat) = _
          rw [hmod, admits]
      | false =>
          show (k != 0 && i % k.toNat + m.toNat == 0) = _
          rw [hmod, admits]

theorem admits_add_step {e : Nth} (h : e.step? = some k) (i : Nat) :
    e.admits (i + k.toNat) = e.admits i :=
  admits_congr h (Nat.add_mod_right i k.toNat)

theorem toNat_pos (hk : k ≠ 0) : 0 < k.toNat :=
  Nat.pos_of_ne_zero fun h => hk (UInt64.toNat_inj.mp h)

/-- What is admitted at all is admitted within the first step. -/
theorem exists_admits_le_step (hk : k ≠ 0) {e : Nth} (h : e.step? = some k) (hi : e.admits i = true) :
    ∃ j, 1 ≤ j ∧ j ≤ k.toNat ∧ e.admits j = true := by
  have hpos := toNat_pos hk
  by_cases hmod : i % k.toNat = 0
  · refine ⟨k.toNat, hpos, Nat.le_refl _, ?_⟩
    rw [← hi]
    exact admits_congr h (by rw [hmod, Nat.mod_self])
  · refine ⟨i % k.toNat, Nat.pos_of_ne_zero hmod, Nat.le_of_lt (Nat.mod_lt i hpos), ?_⟩
    rw [← hi]
    exact admits_congr h (Nat.mod_mod i k.toNat)

theorem admits_every_iff (hk : k ≠ 0) : (every k).admits i = true ↔ k.toNat ∣ i := by
  show (k != 0 && i % k.toNat == 0) = true ↔ _
  rw [bne_iff_ne.mpr hk, Bool.true_and, beq_iff_eq]
  exact (Nat.dvd_iff_mod_eq_zero ..).symm

theorem admits_plus_iff (hk : k ≠ 0) :
    (shifted k m true).admits i = true ↔ i % k.toNat = m.toNat := by
  show (k != 0 && i % k.toNat == m.toNat) = true ↔ _
  rw [bne_iff_ne.mpr hk, Bool.true_and, beq_iff_eq]

/-- What an offset is added to is nothing only if the remainder and the offset are nothing. -/
theorem admits_minus_iff (hk : k ≠ 0) :
    (shifted k m false).admits i = true ↔ m = 0 ∧ (every k).admits i = true := by
  have hm : m = 0 ↔ m.toNat = 0 := UInt64.toNat_inj.symm
  rw [admits_every_iff hk, hm]
  show (k != 0 && i % k.toNat + m.toNat == 0) = true ↔ _
  rw [bne_iff_ne.mpr hk, Bool.true_and, beq_iff_eq, Nat.dvd_iff_mod_eq_zero]
  omega

/-- A remainder is below the step, and what is below the step is its own remainder. -/
theorem exists_admits_plus_iff (hk : k ≠ 0) :
    (∃ i, (shifted k m true).admits i = true) ↔ m < k := by
  constructor
  · rintro ⟨i, hi⟩
    have hlt := Nat.mod_lt i (toNat_pos hk)
    rw [(admits_plus_iff hk).mp hi] at hlt
    exact hlt
  · intro h
    exact ⟨m.toNat, (admits_plus_iff hk).mpr (Nat.mod_eq_of_lt h)⟩

theorem exists_admits_minus_iff (hk : k ≠ 0) :
    (∃ i, (shifted k m false).admits i = true) ↔ m = 0 := by
  constructor
  · rintro ⟨i, hi⟩
    exact ((admits_minus_iff hk).mp hi).1
  · intro h
    exact ⟨0, (admits_minus_iff hk).mpr ⟨h, (admits_every_iff hk).mpr (Nat.dvd_zero _)⟩⟩

/-! ## The law -/

/-- An expression is read off a text exactly when the text is written so, apart from its blanks. Every
expression is read off its own text, wherever blanks are put in.

What it admits: a single position is that, and a step of zero admits nothing. For any other step, what is
admitted repeats itself after it, so that the positions up to the step show whether there are any. `kn` admits the
multiples; `kn+m` admits what leaves the remainder `m`, and there is such a position exactly when `m` is below the
step; `kn-m` admits some position exactly when `m` is zero, and then it is `kn`. -/
theorem ofString?_eq_some_iff_and_admits :
    (∀ (s : String) (e : Nth), ofString? s = some e ↔ IsWritten (Text.squeeze s.toList) e) ∧
    (∀ (s : String) (e : Nth), Text.squeeze s.toList = Text.squeeze e.render → ofString? s = some e) ∧
    (∀ (p : UInt64) (i : Nat), (exact p).admits i = true ↔ i = p.toNat) ∧
    (∀ (e : Nth) (i : Nat), e.step? = some 0 → e.admits i = false) ∧
    ∀ k : UInt64, k ≠ 0 →
      (∀ (e : Nth) (i : Nat), e.step? = some k → e.admits (i + k.toNat) = e.admits i) ∧
      (∀ (e : Nth) (i : Nat), e.step? = some k → e.admits i = true →
        ∃ j, 1 ≤ j ∧ j ≤ k.toNat ∧ e.admits j = true) ∧
      (∀ i, (every k).admits i = true ↔ k.toNat ∣ i) ∧
      (∀ m i, (shifted k m true).admits i = true ↔ i % k.toNat = m.toNat) ∧
      (∀ m, (∃ i, (shifted k m true).admits i = true) ↔ m < k) ∧
      (∀ m, (∃ i, (shifted k m false).admits i = true) ↔ m = 0) ∧
      ∀ i, (shifted k 0 false).admits i = (every k).admits i := by
  refine ⟨fun s e => readCompact?_eq_some_iff, fun s e hs => ?_, fun p i => admits_exact_iff,
    fun e i he => admits_of_step_zero he i, fun k hk => ⟨fun e i he => admits_add_step he i,
    fun e i he => exists_admits_le_step hk he, fun i => admits_every_iff hk, fun m i => admits_plus_iff hk,
    fun m => exists_admits_plus_iff hk, fun m => exists_admits_minus_iff hk, fun i => ?_⟩⟩
  · rw [squeeze_render] at hs
    exact readCompact?_eq_some_iff.mpr (hs ▸ isWritten_render e)
  · exact Bool.eq_iff_iff.mpr ((admits_minus_iff hk).trans (and_iff_right rfl))

/-- A text with blanks and leading zeros is read; seven is as good as four; and there is no third remainder. -/
theorem ofString?_eq_some_iff_and_admits_spaced :
    ofString? " 0 3 n\t+ 1" = some (shifted 3 1 true) ∧
      ofString? "3\u2003n+1" = some (shifted 3 1 true) ∧
      (shifted 3 1 true).admits (4 + 3) = true ∧
      (∃ j, 1 ≤ j ∧ j ≤ 3 ∧ (shifted 3 2 true).admits j = true) ∧
      (¬∃ i, (shifted 3 3 true).admits i = true) ∧
      (∀ i, (shifted 3 0 false).admits i = (every 3).admits i) ∧ (shifted 0 1 true).admits 1 = false := by
  obtain ⟨hread, hrender, -, hzero, hsteps⟩ := ofString?_eq_some_iff_and_admits
  obtain ⟨hperiod, hwithin, -, -, hplus, -, hminus⟩ := hsteps 3 (by decide)
  have hcoefficient : IsCoefficient ['0', '3'] 3 := .numeral ⟨by decide, List.all_eq_true.mp rfl, by decide⟩
  have hone : IsNumeral ['1'] 1 := ⟨by decide, List.all_eq_true.mp rfl, by decide⟩
  have hsqueeze : Text.squeeze " 0 3 n\t+ 1".toList = ['0', '3'] ++ 'n' :: sign true :: ['1'] := by
    decide +kernel
  refine ⟨(hread _ _).mpr (hsqueeze ▸ .offset true hcoefficient hone), hrender _ _ (by decide +kernel),
    (hperiod (shifted 3 1 true) 4 rfl).trans rfl, ?_, ?_, hminus, hzero _ 1 rfl⟩
  · obtain ⟨i, hi⟩ := (hplus 2).mpr (by decide)
    exact hwithin (shifted 3 2 true) i rfl hi
  · rw [hplus 3]
    decide

end StyleCascade.Nth
