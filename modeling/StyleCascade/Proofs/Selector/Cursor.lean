/-
# StyleCascade.Proofs.Selector.Cursor — what is found at places in the text

The loops over the bytes of a text always end, from every place, and what they find lies behind it and in the text
(`exists_nameEnd`, `finds_closing`). Where a character begins, they find what the reader of lists finds
(`nameEnd_eq`, `closing_eq`), so that a fragment taken off the text at a place is the one that the reader takes off
the rest from there (`takePiece_eq`).
-/
import StyleCascade.Proofs.Selector.Piece
import StyleCascade.Proofs.Text.Bytes
import StyleCascade.Selector.Cursor

namespace StyleCascade.Selector

open Text (byteAt? byteSize offset slice?)

open Source

/-! ## Every loop ends, within the text -/

/-- A search ends, and what it finds, if anything, is as `P` says. -/
def Finds {α : Type} (x : Option (Option α)) (P : α → Prop) : Prop :=
  ∃ found, x = some found ∧ ∀ a ∈ found, P a

section

variable {α : Type} {x : Option (Option α)} {P Q : α → Prop}

theorem finds_none : Finds (some none) P :=
  ⟨none, rfl, nofun⟩

theorem finds_some {a : α} (h : P a) : Finds (some (some a)) P :=
  ⟨some a, rfl, fun _ hb => Option.some.inj hb ▸ h⟩

theorem Finds.imp (h : Finds x P) (himp : ∀ a, P a → Q a) : Finds x Q := by
  obtain ⟨found, hx, hfound⟩ := h
  exact ⟨found, hx, fun a ha => himp a (hfound a ha)⟩

end

theorem exists_nameEnd {source : List Char} {index : Nat} (h : index ≤ byteSize source) :
    ∃ stop, nameEnd source index = some stop ∧ index ≤ stop ∧ stop ≤ byteSize source := by
  rw [nameEnd]
  cases hbyte : byteAt? source index with
  | none => exact ⟨index, rfl, Nat.le_refl _, h⟩
  | some c =>
      have hlt := Text.lt_byteSize_of_byteAt? hbyte
      dsimp only
      split
      · obtain ⟨stop, hstop, hle, hend⟩ := exists_nameEnd (Nat.succ_le_of_lt hlt)
        exact ⟨stop, hstop, Nat.le_of_succ_le hle, hend⟩
      · exact ⟨index, rfl, Nat.le_refl _, h⟩
termination_by byteSize source - index

/-- What the loop finds is neither before its start nor behind the text. -/
theorem finds_closingFrom (source : List Char) (stack : List Char) (quote : Option Char) (index : Nat) :
    Finds (closingFrom source stack quote index) fun closer => index ≤ closer ∧ closer < byteSize source := by
  rw [closingFrom]
  cases hbyte : byteAt? source index with
  | none => exact finds_none
  | some c =>
      have hlt := Text.lt_byteSize_of_byteAt? hbyte
      have hnext : ∀ stack quote, Finds (closingFrom source stack quote (index + 1)) fun closer =>
          index ≤ closer ∧ closer < byteSize source := fun stack quote =>
        (finds_closingFrom source stack quote (index + 1)).imp fun _ h => ⟨Nat.le_of_succ_le h.1, h.2⟩
      dsimp only
      split
      · exact hnext _ _
      · split
        · exact hnext _ _
        · split
          · exact hnext _ _
          · split
            · split
              · exact finds_none
              · split
                · split
                  · exact finds_some ⟨Nat.le_refl _, hlt⟩
                  · exact hnext _ _
                · exact finds_none
            · exact hnext _ _
termination_by byteSize source - index

/-- A bracket that closes stands behind the one that it closes, and in the text. -/
theorem finds_closing (source : List Char) (opener : Nat) :
    Finds (closing source opener) fun closer => opener < closer ∧ closer < byteSize source := by
  unfold closing
  split
  · exact finds_none
  · exact finds_closingFrom source _ none (opener + 1)

theorem exists_takeName {source : List Char} {index : Nat} (h : index ≤ byteSize source) :
    ∃ name stop, takeName source index = some (name, stop) ∧ index ≤ stop ∧ stop ≤ byteSize source := by
  obtain ⟨stop, hstop, hbounds⟩ := exists_nameEnd h
  refine ⟨(slice? source index stop).getD [], stop, ?_, hbounds⟩
  unfold takeName
  rw [hstop]
  rfl

/-- The inside of a group is shorter than the text by the brackets at least. -/
theorem finds_takeGroup (source : List Char) (opener : Nat) :
    Finds (takeGroup source opener) fun (inside, next) =>
      opener < next ∧ next ≤ byteSize source ∧ byteSize inside < byteSize source := by
  obtain ⟨found, hfound, hbounds⟩ := finds_closing source opener
  unfold takeGroup
  rw [hfound]
  cases found with
  | none => exact finds_none
  | some closer =>
      obtain ⟨hlow, hhigh⟩ := hbounds closer rfl
      refine ⟨_, rfl, ?_⟩
      rintro ⟨inside, next⟩ hinside
      obtain ⟨text, htext, heq⟩ := Option.map_eq_some_iff.mp hinside
      obtain ⟨rfl, rfl⟩ := Prod.mk.inj heq
      obtain ⟨_, _, _, _, hsize⟩ := Text.slice?_eq_some_iff.mp htext
      dsimp only
      omega

theorem finds_takeArgument (source : List Char) (index : Nat) :
    Finds (takeArgument source index) fun (argument, next) =>
      index < next ∧ next ≤ byteSize source ∧ byteSize argument < byteSize source := by
  unfold takeArgument
  split
  · exact finds_takeGroup source index
  · exact finds_none

/-- An argument that is left unread has no white space around it and is shorter than the text. -/
def Piece.IsShort (source : List Char) : Piece → Prop
  | .plain _ => True
  | .negation argument => Text.trim argument = argument ∧ byteSize argument < byteSize source
  | .search argument => Text.trim argument = argument ∧ byteSize argument < byteSize source

/-- A piece that is made of what stands in brackets ends where the brackets do. -/
theorem finds_pieceOf {source : List Char} {index : Nat} {x : Option (Option (List Char × Nat))}
    {make : List Char → Option Piece}
    (hx : Finds x fun (inside, next) =>
      index < next ∧ next ≤ byteSize source ∧ byteSize inside < byteSize source)
    (hmake : ∀ inside piece, byteSize inside < byteSize source → make inside = some piece → piece.IsShort source) :
    Finds (x.map (pieceOf make)) fun (piece, next) =>
      index < next ∧ next ≤ byteSize source ∧ piece.IsShort source := by
  obtain ⟨found, rfl, hbounds⟩ := hx
  refine ⟨pieceOf make found, rfl, ?_⟩
  rintro ⟨piece, next⟩ heq
  obtain ⟨⟨inside, after⟩, hsome, hmap⟩ := Option.bind_eq_some_iff.mp heq
  obtain ⟨_, hmade, hpair⟩ := Option.map_eq_some_iff.mp hmap
  obtain ⟨rfl, rfl⟩ := Prod.mk.inj hpair
  obtain ⟨hlow, hhigh, hshort⟩ := hbounds (inside, after) hsome
  exact ⟨hlow, hhigh, hmake inside _ hshort hmade⟩

theorem finds_takeWord {source : List Char} {stop : Nat} (h : stop ≤ byteSize source) (word : String) :
    Finds (takeWord source stop word) fun (piece, next) =>
      stop ≤ next ∧ next ≤ byteSize source ∧ piece.IsShort source := by
  have hflag : ∀ flag : Flag, Finds (some (some (Piece.plain (.flag flag), stop))) fun (piece, next) =>
      stop ≤ next ∧ next ≤ byteSize source ∧ piece.IsShort source :=
    fun flag => finds_some ⟨Nat.le_refl _, h, trivial⟩
  have hargument : ∀ make : List Char → Option Piece,
      (∀ inside piece, byteSize inside < byteSize source → make inside = some piece → piece.IsShort source) →
      Finds ((takeArgument source stop).map (pieceOf make)) fun (piece, next) =>
        stop ≤ next ∧ next ≤ byteSize source ∧ piece.IsShort source :=
    fun make hmake => (finds_pieceOf (finds_takeArgument source stop) hmake).imp fun _ h => ⟨h.1.le, h.2⟩
  have htrim : ∀ inside, byteSize inside < byteSize source →
      Text.trim (Text.trim inside) = Text.trim inside ∧ byteSize (Text.trim inside) < byteSize source :=
    fun inside hshort => ⟨trim_trim inside, Nat.lt_of_le_of_lt (Text.byteSize_trim_le inside) hshort⟩
  unfold takeWord
  split
  · exact hflag .firstChild
  · exact hflag .lastChild
  · exact hflag .onlyChild
  · exact hflag .empty
  · refine hargument _ fun inside piece _ hmade => ?_
    obtain ⟨e, -, rfl⟩ := Option.map_eq_some_iff.mp hmade
    exact trivial
  · refine hargument _ fun inside piece hshort hmade => ?_
    obtain rfl := Option.some.inj hmade
    exact htrim inside hshort
  · refine hargument _ fun inside piece hshort hmade => ?_
    obtain rfl := Option.some.inj hmade
    exact htrim inside hshort
  · exact finds_none

/-- A piece that is taken has at least one byte and does not go on behind the text. -/
theorem finds_takePiece (source : List Char) (index : Nat) :
    Finds (takePiece source index) fun (piece, next) =>
      index < next ∧ next ≤ byteSize source ∧ piece.IsShort source := by
  unfold takePiece
  split
  · rename_i hbyte
    obtain ⟨name, stop, hname, hlow, hhigh⟩ :=
      exists_takeName (Nat.succ_le_of_lt (Text.lt_byteSize_of_byteAt? hbyte))
    rw [hname]
    show Finds (some (if name = [] then none else _)) _
    split
    · exact finds_none
    · exact finds_some ⟨hlow, hhigh, trivial⟩
  · refine finds_pieceOf (finds_takeGroup source index) fun body piece _ hmade => ?_
    obtain ⟨c, -, rfl⟩ := Option.map_eq_some_iff.mp hmade
    exact trivial
  · rename_i hbyte
    obtain ⟨word, stop, hword, hlow, hhigh⟩ :=
      exists_takeName (Nat.succ_le_of_lt (Text.lt_byteSize_of_byteAt? hbyte))
    rw [hword]
    exact (finds_takeWord hhigh (String.ofList word)).imp fun _ h =>
      ⟨Nat.lt_of_lt_of_le (Nat.lt_of_succ_le hlow) h.1, h.2⟩
  · exact finds_none

/-! ## What is found is what the reader finds -/

/-- Neither a name nor a bracket nor a quote has a character that is not ASCII. -/
theorem isNameChar_of_le {c : Char} (h : 128 ≤ c.toNat) : isNameChar c = false := by
  rw [← Bool.not_eq_true]
  intro hname
  unfold isNameChar Char.isAlphanum Char.isAlpha Char.isUpper Char.isLower Char.isDigit at hname
  simp only [Bool.or_eq_true, Bool.and_eq_true, decide_eq_true_eq, beq_iff_eq, ge_iff_le,
    UInt32.le_iff_toNat_le] at hname
  have hval : c.toNat = c.val.toNat := rfl
  have hZ : 'Z'.val.toNat = 90 := rfl
  have hz : 'z'.val.toNat = 122 := rfl
  have hnine : '9'.val.toNat = 57 := rfl
  rcases hname with (hrange | rfl) | rfl
  · omega
  · exact absurd h (by decide)
  · exact absurd h (by decide)

theorem plain_of_le {c : Char} (h : 128 ≤ c.toNat) :
    isQuote c = false ∧ closerOf? c = none ∧ isCloser c = false :=
  plain_of_forall (p := fun c => decide (128 ≤ c.toNat)) (by decide) (decide_eq_true h)

theorem lt_of_closerOf? {opener closer : Char} (h : closerOf? opener = some closer) : opener.toNat < 128 := by
  rw [← Nat.not_le]
  intro hle
  rw [(plain_of_le hle).2.1] at h
  exact absurd h nofun

theorem lt_of_isCloser {c : Char} (h : isCloser c = true) : c.toNat < 128 := by
  rw [← Nat.not_le]
  intro hle
  rw [(plain_of_le hle).2.2] at h
  exact absurd h Bool.false_ne_true

theorem ne_of_isQuote {q c : Char} (hq : isQuote q = true) (hc : 128 ≤ c.toNat) : c ≠ q := by
  rintro rfl
  rw [(plain_of_le hc).1] at hq
  exact absurd hq Bool.false_ne_true

/-- An ASCII character is found at a place exactly if the rest from there begins with it. -/
theorem byteAt?_offset_iff {source cs : List Char} (h : cs <:+ source) {d : Char} (hd : d.toNat < 128) :
    byteAt? source (offset source cs) = some d ↔ ∃ rest, cs = d :: rest := by
  constructor
  · intro hbyte
    cases cs with
    | nil =>
        have hlt := Text.lt_byteSize_of_byteAt? hbyte
        unfold offset at hlt
        rw [Text.byteSize_nil] at hlt
        omega
    | cons c rest =>
        rcases Nat.lt_or_ge c.toNat 128 with hc | hc
        · rw [(Text.byteAt?_of_ascii h hc).1] at hbyte
          exact ⟨rest, by rw [Option.some.inj hbyte]⟩
        · obtain ⟨e, he, hle⟩ := Text.byteAt?_of_not_ascii h hc c.utf8Size_pos
          rw [Nat.add_zero, hbyte] at he
          obtain rfl := Option.some.inj he
          omega
  · rintro ⟨rest, rfl⟩
    exact (Text.byteAt?_of_ascii h hd).1

theorem suffix_of_cons {c : Char} {cs source : List Char} (h : c :: cs <:+ source) : cs <:+ source :=
  (List.suffix_cons c cs).trans h

theorem byteAt?_offset_nil (source : List Char) : byteAt? source (offset source []) = none :=
  Text.byteAt?_eq_none_iff.mpr (Nat.le_refl _)

theorem nameEnd_eq {source cs : List Char} (h : cs <:+ source) :
    nameEnd source (offset source cs) = some (offset source (cs.dropWhile isNameChar)) := by
  induction cs with
  | nil =>
      rw [nameEnd, byteAt?_offset_nil]
      rfl
  | cons c cs ih =>
      rw [nameEnd]
      rcases Nat.lt_or_ge c.toNat 128 with hc | hc
      · obtain ⟨hbyte, hnext⟩ := Text.byteAt?_of_ascii h hc
        rw [hbyte]
        dsimp only
        split
        · rename_i hname
          rw [← hnext, ih (suffix_of_cons h), List.dropWhile_cons_of_pos hname]
        · rename_i hname
          rw [List.dropWhile_cons_of_neg hname]
      · obtain ⟨d, hd, hle⟩ := Text.byteAt?_of_not_ascii h hc c.utf8Size_pos
        rw [Nat.add_zero] at hd
        rw [hd]
        dsimp only
        rw [isNameChar_of_le hle, if_neg Bool.false_ne_true,
          List.dropWhile_cons_of_neg (by simp [isNameChar_of_le hc])]

/-- Bytes from 128 on are passed over, inside of quotes and outside. -/
theorem closingFrom_pass {source stack : List Char} {quote : Option Char} (hquote : ∀ q ∈ quote, isQuote q = true)
    {i : Nat} {d : Char} (hbyte : byteAt? source i = some d) (hd : 128 ≤ d.toNat) :
    closingFrom source stack quote i = closingFrom source stack quote (i + 1) := by
  rw [closingFrom, hbyte]
  cases quote with
  | some q =>
      dsimp only
      rw [if_neg (ne_of_isQuote (hquote q rfl) hd)]
  | none =>
      obtain ⟨hnoQuote, hopen, hclose⟩ := plain_of_le hd
      dsimp only
      rw [hnoQuote, hopen, hclose]
      simp only [Bool.false_eq_true, if_false]

/-- The place of the bracket before the rest that follows a group. -/
def closerPlace (source : List Char) (found : List Char × List Char) : Nat :=
  offset source found.2 - 1

theorem map_closerPlace_keepInside (source : List Char) (c : Char) (found : Option (List Char × List Char)) :
    (keepInside c found).map (closerPlace source) = found.map (closerPlace source) := by
  unfold keepInside
  rw [Option.map_map]
  rfl

/-- The loop over the bytes finds the bracket at which the reader ends the group. -/
theorem closingFrom_eq {source cs : List Char} (h : cs <:+ source) {quote : Option Char}
    (hquote : ∀ q ∈ quote, isQuote q = true) (closer : Char) (outer : List Char) :
    closingFrom source (closer :: outer) quote (offset source cs) =
      some ((splitGroup? closer outer quote cs).map (closerPlace source)) := by
  induction cs generalizing quote closer outer with
  | nil =>
      rw [closingFrom, byteAt?_offset_nil]
      rfl
  | cons c cs ih =>
      have hrest := suffix_of_cons h
      have hnone : ∀ q ∈ (none : Option Char), isQuote q = true := fun q hq => absurd hq (by simp)
      rcases Nat.lt_or_ge c.toNat 128 with hc | hc
      · -- the next byte is the next character
        obtain ⟨hbyte, hnext⟩ := Text.byteAt?_of_ascii h hc
        rw [closingFrom, hbyte, splitGroup?.eq_def, ← hnext]
        cases quote with
        | some q =>
            dsimp only
            rw [map_closerPlace_keepInside]
            apply ih hrest
            intro p hp
            split at hp
            · exact absurd hp (by simp)
            · exact hquote p hp
        | none =>
            dsimp only
            by_cases hq : isQuote c = true
            · rw [if_pos hq, if_pos hq, map_closerPlace_keepInside]
              refine ih hrest (fun p hp => ?_) closer outer
              rw [← Option.some.inj hp]
              exact hq
            · rw [if_neg hq, if_neg hq]
              cases closerOf? c with
              | some inner =>
                  dsimp only
                  rw [map_closerPlace_keepInside]
                  exact ih hrest hnone inner (closer :: outer)
              | none =>
                  dsimp only
                  by_cases hcloser : isCloser c = true
                  · rw [if_pos hcloser, if_pos hcloser]
                    by_cases heq : c = closer
                    · rw [if_pos heq, if_pos heq]
                      cases outer with
                      | nil =>
                          rw [if_pos rfl]
                          show some (some (offset source (c :: cs))) = some (some (offset source cs - 1))
                          rw [hnext, Nat.add_sub_cancel]
                      | cons next further =>
                          rw [if_neg (List.cons_ne_nil _ _)]
                          dsimp only
                          rw [map_closerPlace_keepInside]
                          exact ih hrest hnone next further
                    · rw [if_neg heq, if_neg heq]
                      rfl
                  · rw [if_neg hcloser, if_neg hcloser, map_closerPlace_keepInside]
                    exact ih hrest hnone closer outer
      · -- the loop passes over all bytes of the character, as the reader does over the character
        have hpass := Text.eq_of_passes
          (f := closingFrom source (closer :: outer) quote) (fun i d hd hle => closingFrom_pass hquote hd hle) h hc
        rw [hpass, ih hrest hquote]
        cases quote with
        | some q =>
            rw [splitGroup?, if_neg (ne_of_isQuote (hquote q rfl) hc), map_closerPlace_keepInside]
        | none =>
            obtain ⟨hnoQuote, hopen, hclose⟩ := plain_of_le hc
            rw [splitGroup?_plain hnoQuote hopen hclose, map_closerPlace_keepInside]

theorem takeName_eq {source cs : List Char} (h : cs <:+ source) :
    takeName source (offset source cs) =
      some (cs.takeWhile isNameChar, offset source (cs.dropWhile isNameChar)) := by
  have hsplit := List.takeWhile_append_dropWhile (p := isNameChar) (l := cs)
  have hslice : slice? source (offset source cs) (offset source (cs.dropWhile isNameChar)) =
      some (cs.takeWhile isNameChar) := by
    rw [← hsplit] at h
    have hslice := Text.slice?_offset h
    rwa [hsplit] at hslice
  unfold takeName
  rw [nameEnd_eq h]
  show some ((slice? source (offset source cs) (offset source (cs.dropWhile isNameChar))).getD [], _) = _
  rw [hslice]
  rfl

theorem takeBase_eq (source : List Char) :
    takeBase source = some ((splitBase source).1, offset source (splitBase source).2) := by
  have hstart := byteAt?_offset_iff (List.suffix_refl source) (d := '*') (by decide)
  have hname := takeName_eq (List.suffix_refl source)
  rw [Text.offset_self] at hstart hname
  unfold takeBase
  rw [hname]
  fun_cases splitBase source
  · rename_i rest
    have hone := (Text.byteAt?_of_ascii (List.suffix_refl ('*' :: rest)) (c := '*') (by decide)).2
    rw [Text.offset_self] at hone
    rw [if_pos (hstart.mpr ⟨rest, rfl⟩), hone]
  · rename_i hstar hnil
    rw [if_neg fun hbyte => (hstart.mp hbyte).elim hstar]
    show some (if source.takeWhile isNameChar = [] then ['*'] else _, offset source (source.dropWhile isNameChar)) = _
    have hdrop := List.takeWhile_append_dropWhile (p := isNameChar) (l := source)
    rw [hnil, List.nil_append] at hdrop
    rw [if_pos hnil, hdrop]
  · rename_i hstar hname
    rw [if_neg fun hbyte => (hstart.mp hbyte).elim hstar]
    show some (if source.takeWhile isNameChar = [] then ['*'] else _, offset source (source.dropWhile isNameChar)) = _
    rw [if_neg hname]

theorem closing_eq {source cs : List Char} {opener closer : Char} (h : opener :: cs <:+ source)
    (hopener : closerOf? opener = some closer) :
    closing source (offset source (opener :: cs)) =
      some ((splitGroup? closer [] none cs).map (closerPlace source)) := by
  obtain ⟨hbyte, hnext⟩ := Text.byteAt?_of_ascii h (lt_of_closerOf? hopener)
  unfold closing
  rw [hbyte, Option.bind_some, hopener, ← hnext]
  exact closingFrom_eq (suffix_of_cons h) (fun q hq => absurd hq (by simp)) closer []

/-- The bracket that ends a group stands where its inside ends, one byte before the rest. -/
theorem closerPlace_eq {source cs inside rest : List Char} {closer : Char} (h : cs <:+ source)
    (hsplit : splitGroup? closer [] none cs = some (inside, rest)) :
    slice? source (offset source cs) (closerPlace source (inside, rest)) = some inside ∧
      closerPlace source (inside, rest) + 1 = offset source rest := by
  obtain ⟨last, hlast, rfl⟩ := eq_append_of_splitGroup? hsplit
  obtain ⟨-, hnext⟩ := Text.byteAt?_of_ascii ((List.suffix_append inside _).trans h) (lt_of_isCloser hlast)
  have hplace : closerPlace source (inside, rest) = offset source (last :: rest) := by
    show offset source rest - 1 = _
    rw [hnext, Nat.add_sub_cancel]
  rw [hplace]
  exact ⟨Text.slice?_offset h, hnext.symm⟩

theorem takeGroup_eq {source cs : List Char} {opener closer : Char} (h : opener :: cs <:+ source)
    (hopener : closerOf? opener = some closer) :
    takeGroup source (offset source (opener :: cs)) =
      some ((splitGroup? closer [] none cs).map fun (inside, rest) => (inside, offset source rest)) := by
  obtain ⟨-, hnext⟩ := Text.byteAt?_of_ascii h (lt_of_closerOf? hopener)
  unfold takeGroup
  rw [closing_eq h hopener, ← hnext]
  cases hsplit : splitGroup? closer [] none cs with
  | none => rfl
  | some found =>
      obtain ⟨hslice, hbehind⟩ := closerPlace_eq (suffix_of_cons h) hsplit
      show some ((slice? source (offset source cs) (closerPlace source found)).map
        fun text => (text, closerPlace source found + 1)) = _
      rw [hslice, hbehind]
      rfl

theorem takeArgument_eq {source cs : List Char} (h : cs <:+ source) :
    takeArgument source (offset source cs) =
      some ((splitArgument? cs).map fun (argument, rest) => (argument, offset source rest)) := by
  have hopener := byteAt?_offset_iff h (d := '(') (by decide)
  unfold takeArgument
  fun_cases splitArgument? cs
  · rename_i cs
    rw [if_pos (hopener.mpr ⟨cs, rfl⟩)]
    exact takeGroup_eq h rfl
  · rename_i hnot
    rw [if_neg fun hbyte => (hopener.mp hbyte).elim hnot]
    rfl

/-- The places at which what is left of a text begins. -/
def placed (source : List Char) (found : Option (Piece × List Char)) : Option (Piece × Nat) :=
  found.map fun (piece, rest) => (piece, offset source rest)

theorem takeWord_eq {source cs : List Char} (h : cs <:+ source) :
    takeWord source (offset source (cs.dropWhile isNameChar)) (String.ofList (cs.takeWhile isNameChar)) =
      some (placed source (readPseudo? cs)) := by
  have hargument := takeArgument_eq ((List.dropWhile_suffix isNameChar (l := cs)).trans h)
  unfold takeWord readPseudo?
  generalize String.ofList (cs.takeWhile isNameChar) = word
  simp only
  split
  · rfl
  · rfl
  · rfl
  · rfl
  · rw [hargument]
    cases splitArgument? (cs.dropWhile isNameChar) with
    | none => rfl
    | some found =>
        obtain ⟨argument, rest⟩ := found
        show some (((Nth.read? argument).map _).map _) = some (placed source ((Nth.read? argument).map _))
        cases Nth.read? argument <;> rfl
  · rw [hargument]
    cases splitArgument? (cs.dropWhile isNameChar) <;> rfl
  · rw [hargument]
    cases splitArgument? (cs.dropWhile isNameChar) <;> rfl
  · -- no word that is known
    simp_all [placed]

/-- A piece that is taken off at a place is the one that the reader takes off the rest from there. -/
theorem takePiece_eq {source cs : List Char} (h : cs <:+ source) :
    takePiece source (offset source cs) = some (placed source (readPiece? cs)) := by
  have hdot := byteAt?_offset_iff h (d := '.') (by decide)
  have hbracket := byteAt?_offset_iff h (d := '[') (by decide)
  have hcolon := byteAt?_offset_iff h (d := ':') (by decide)
  unfold takePiece
  split
  · rename_i hbyte
    obtain ⟨rest, rfl⟩ := hdot.mp hbyte
    rw [← (Text.byteAt?_of_ascii h (by decide)).2, takeName_eq (suffix_of_cons h), readPiece?]
    show some (if rest.takeWhile isNameChar = [] then none else _) = some (placed source (if _ then none else _))
    split <;> rfl
  · rename_i hbyte
    obtain ⟨rest, rfl⟩ := hbracket.mp hbyte
    rw [takeGroup_eq h rfl, readPiece?]
    cases splitGroup? ']' [] none rest with
    | none => rfl
    | some found =>
        obtain ⟨body, after⟩ := found
        show some (((readAttribute? body).map _).map _) = some (placed source ((readAttribute? body).map _))
        cases readAttribute? body <;> rfl
  · rename_i hbyte
    obtain ⟨rest, rfl⟩ := hcolon.mp hbyte
    rw [← (Text.byteAt?_of_ascii h (by decide)).2, takeName_eq (suffix_of_cons h), readPiece?]
    exact takeWord_eq (suffix_of_cons h)
  · rename_i hnoDot hnoBracket hnoColon
    fun_cases readPiece? cs
    · exact absurd (hdot.mpr ⟨_, rfl⟩) hnoDot
    · exact absurd (hdot.mpr ⟨_, rfl⟩) hnoDot
    · exact absurd (hbracket.mpr ⟨_, rfl⟩) hnoBracket
    · exact absurd (hcolon.mpr ⟨_, rfl⟩) hnoColon
    · rfl

/-- What a piece leaves unread is shorter than every text that ends with the piece and what follows it. -/
theorem isShort_of_readPiece? {source cs rest : List Char} {piece : Piece} (h : cs <:+ source)
    (hpiece : readPiece? cs = some (piece, rest)) : piece.IsShort source := by
  obtain ⟨found, hfound, hbounds⟩ := finds_takePiece source (offset source cs)
  rw [takePiece_eq h, hpiece] at hfound
  exact (hbounds (piece, offset source rest) (Option.some.inj hfound).symm).2.2

/-- The argument of a call that is the whole text is found by the places of its brackets. -/
theorem takeWholeCall_eq (name text : List Char) : takeWholeCall name text = some (wholeCall? name text) := by
  unfold takeWholeCall wholeCall?
  cases hmark : Text.dropMark? (':' :: name) text with
  | none => rfl
  | some rest =>
      have htext := Text.dropMark?_eq_some_iff.mp hmark
      have hsuffix : rest <:+ text := ⟨':' :: name, htext.symm⟩
      dsimp only
      rw [Option.bind_some]
      fun_cases splitArgument? rest
      · rename_i cs
        have hnext := (Text.byteAt?_of_ascii hsuffix (c := '(') (by decide)).2
        rw [if_pos List.head?_cons, closing_eq hsuffix rfl, ← hnext]
        cases hsplit : splitGroup? ')' [] none cs with
        | none => rfl
        | some found =>
            obtain ⟨inside, after⟩ := found
            obtain ⟨hslice, hbehind⟩ := closerPlace_eq (suffix_of_cons hsuffix) hsplit
            have hafter : after <:+ text := by
              obtain ⟨last, -, rfl⟩ := eq_append_of_splitGroup? hsplit
              exact ((List.suffix_cons last after).trans (List.suffix_append inside _)).trans (suffix_of_cons hsuffix)
            show some (if closerPlace text (inside, after) + 1 = byteSize text
              then slice? text (offset text cs) (closerPlace text (inside, after)) else none) = _
            rw [hslice, hbehind, if_congr (Text.offset_eq_byteSize_iff hafter) rfl rfl]
            cases after <;> rfl
      · rename_i hnot
        rw [if_neg]
        intro hhead
        obtain ⟨cs, rfl⟩ := List.head?_eq_some_iff.mp hhead
        exact hnot cs rfl

end StyleCascade.Selector
