/-
# StyleCascade.Proofs.Selector.Piece — the reader's lower layer reads the grammar's fragments

The lower layer takes one condition off a text and leaves its argument alone. `IsPiece` is the grammar
of what it takes. A fragment's text that ends where it must is taken as a whole (`readPiece?_of_isPiece`),
and nothing else is ever taken (`isPiece_of_readPiece?`). The parts come first: where a name and white
space end, what quotes are stripped, and the inside of square brackets.
-/
import Mathlib.Data.List.TakeWhile
import StyleCascade.Proofs.Selector.Grammar

namespace StyleCascade.Selector

/-! ## Where a run of characters ends -/

section Run

variable {p : Char → Bool} {run rest : List Char}

/-- A run before a text that cannot go on with it is taken as a whole. -/
theorem takeWhile_append_of_ends (hrun : ∀ c ∈ run, p c = true)
    (hrest : ∀ c ∈ rest.head?, p c = false) :
    (run ++ rest).takeWhile p = run := by
  rw [List.takeWhile_append_of_pos hrun]
  cases rest with
  | nil => exact List.append_nil run
  | cons c rest =>
      have hc := hrest c rfl
      rw [List.takeWhile_cons_of_neg (by rw [hc]; exact Bool.false_ne_true), List.append_nil]

theorem dropWhile_append_of_ends (hrun : ∀ c ∈ run, p c = true)
    (hrest : ∀ c ∈ rest.head?, p c = false) :
    (run ++ rest).dropWhile p = rest := by
  rw [List.dropWhile_append_of_pos hrun]
  cases rest with
  | nil => rfl
  | cons c rest =>
      have hc := hrest c rfl
      exact List.dropWhile_cons_of_neg (by rw [hc]; exact Bool.false_ne_true)

theorem forall_mem_head?_cons {P : Char → Prop} {c : Char} (h : P c) (cs : List Char) :
    ∀ d ∈ (c :: cs).head?, P d := by
  intro d hd
  rw [← Option.some.inj (Option.mem_def.mp hd)]
  exact h

theorem ends_dropWhile (p : Char → Bool) (cs : List Char) :
    ∀ c ∈ (cs.dropWhile p).head?, p c = false := by
  intro c hc
  have h := List.head?_dropWhile_not p cs
  rw [Option.mem_def.mp hc] at h
  exact h

end Run

theorem isName_takeWhile {cs : List Char} (h : cs.takeWhile isNameChar ≠ []) :
    IsName (cs.takeWhile isNameChar) :=
  ⟨h, fun _ hc => List.mem_takeWhile_imp hc⟩

theorem endsName_dropWhile (cs : List Char) : EndsName (cs.dropWhile isNameChar) :=
  ends_dropWhile isNameChar cs

variable {name rest : List Char}

theorem takeWhile_name (hname : ∀ c ∈ name, isNameChar c = true) (hrest : EndsName rest) :
    (name ++ rest).takeWhile isNameChar = name :=
  takeWhile_append_of_ends hname hrest

theorem dropWhile_name (hname : ∀ c ∈ name, isNameChar c = true) (hrest : EndsName rest) :
    (name ++ rest).dropWhile isNameChar = rest :=
  dropWhile_append_of_ends hname hrest

theorem endsName_nil : EndsName [] := by
  intro c hc
  exact absurd hc (by simp)

theorem endsName_cons {c : Char} (h : isNameChar c = false) (cs : List Char) : EndsName (c :: cs) :=
  forall_mem_head?_cons h cs

/-- White space is in no name. -/
theorem isNameChar_of_isSpace {c : Char} (h : Text.isSpace c = true) : isNameChar c = false := by
  rw [← Bool.not_eq_true]
  intro hname
  unfold isNameChar Char.isAlphanum Char.isAlpha Char.isUpper Char.isLower Char.isDigit at hname
  simp only [Bool.or_eq_true, Bool.and_eq_true, decide_eq_true_eq, beq_iff_eq, ge_iff_le,
    UInt32.le_iff_toNat_le] at hname
  rcases hname with (hrange | rfl) | rfl
  · unfold Text.isSpace Text.spaceRanges at h
    simp only [List.any_cons, List.any_nil, Bool.or_false, Bool.or_eq_true, decide_eq_true_eq] at h
    have hval : c.toNat = c.val.toNat := rfl
    have hA : 'A'.val.toNat = 65 := rfl
    have hZ : 'Z'.val.toNat = 90 := rfl
    have ha : 'a'.val.toNat = 97 := rfl
    have hz : 'z'.val.toNat = 122 := rfl
    have hzero : '0'.val.toNat = 48 := rfl
    have hnine : '9'.val.toNat = 57 := rfl
    omega
  · exact absurd h (by decide)
  · exact absurd h (by decide)

/-- A trimmed text has no white space at its end. -/
theorem isSpace_getLast?_trim (cs : List Char) :
    ∀ c ∈ (Text.trim cs).getLast?, Text.isSpace c = false := by
  intro c hc
  unfold Text.trim Text.trimEnd at hc
  rw [List.getLast?_reverse] at hc
  exact ends_dropWhile Text.isSpace _ c hc

/-- Nor at its start. -/
theorem isSpace_head?_trim (cs : List Char) :
    ∀ c ∈ (Text.trim cs).head?, Text.isSpace c = false := by
  intro c hc
  apply ends_dropWhile Text.isSpace cs c
  -- what is trimmed at the end is behind its first character
  have hfront : Text.trim cs <+: cs.dropWhile Text.isSpace := by
    have hend := List.dropWhile_suffix Text.isSpace (l := (cs.dropWhile Text.isSpace).reverse)
    rw [← List.reverse_prefix, List.reverse_reverse] at hend
    exact hend
  obtain ⟨more, hmore⟩ := hfront
  rw [← hmore, List.head?_append, Option.mem_def.mp hc]
  rfl

theorem dropWhile_isSpace_eq_self {cs : List Char} (h : ∀ c ∈ cs.head?, Text.isSpace c = false) :
    cs.dropWhile Text.isSpace = cs := by
  cases cs with
  | nil => rfl
  | cons c cs => exact List.dropWhile_cons_of_neg (by simp [h c rfl])

/-- A text without white space at its ends is left as it is. -/
theorem trim_eq_self {cs : List Char} (hstart : ∀ c ∈ cs.head?, Text.isSpace c = false)
    (hend : ∀ c ∈ cs.getLast?, Text.isSpace c = false) : Text.trim cs = cs := by
  have hreverse : cs.reverse.dropWhile Text.isSpace = cs.reverse := by
    apply dropWhile_isSpace_eq_self
    rw [List.head?_reverse]
    exact hend
  unfold Text.trim Text.trimEnd Text.trimStart
  rw [dropWhile_isSpace_eq_self hstart, hreverse, List.reverse_reverse]

theorem trim_trim (cs : List Char) : Text.trim (Text.trim cs) = Text.trim cs :=
  trim_eq_self (isSpace_head?_trim cs) (isSpace_getLast?_trim cs)

theorem eq_nil_of_spaces {cs text spaces : List Char} (h : text ++ spaces = Text.trim cs)
    (hspaces : ∀ c ∈ spaces, Text.isSpace c = true) : spaces = [] := by
  rcases List.eq_nil_or_concat spaces with hnil | ⟨init, last, rfl⟩
  · exact hnil
  · have hlast : last ∈ (Text.trim cs).getLast? := by
      rw [← h, List.concat_eq_append, ← List.append_assoc, List.getLast?_concat]
      rfl
    have hspace := hspaces last (by simp)
    rw [isSpace_getLast?_trim cs last hlast] at hspace
    exact absurd hspace Bool.false_ne_true

/-! ## Quotes -/

/-- The reader strips the quotes that the grammar strips. -/
theorem unquote_eq_iff {text inner : List Char} : unquote text = inner ↔ Unquoted text inner := by
  constructor
  · rintro rfl
    cases text with
    | nil => exact .bare fun q inner _ h => by simp at h
    | cons c cs =>
        rw [unquote]
        split
        · rename_i hquote
          rw [Bool.and_eq_true, beq_iff_eq] at hquote
          obtain ⟨init, rfl⟩ := List.getLast?_eq_some_iff.mp hquote.2
          rw [List.dropLast_concat]
          exact .quoted hquote.1
        · -- a pair of equal quotes around the text would have been stripped
          rename_i hbare
          refine .bare fun q inner hq hshape => hbare ?_
          rw [List.cons_append, List.cons.injEq] at hshape
          rw [hshape.1, hshape.2, hq, List.getLast?_concat]
          exact beq_self_eq_true _
  · intro h
    cases h with
    | @quoted q _ hq =>
        rw [List.cons_append, unquote, hq, List.getLast?_concat]
        simp
    | bare hbare =>
        cases text with
        | nil => rfl
        | cons c cs =>
            rw [unquote, if_neg]
            intro hquote
            rw [Bool.and_eq_true, beq_iff_eq] at hquote
            obtain ⟨init, rfl⟩ := List.getLast?_eq_some_iff.mp hquote.2
            exact hbare c init hquote.1 rfl

/-! ## Attributes -/

/-- What the reader of tests accepts: nothing, or a sign and a text. -/
theorem readTest?_eq_some_iff {cs text : List Char} {test : AttributeTest} :
    readTest? cs = some (test, text) ↔
      (test = .present ∧ cs = [] ∧ text = []) ∨
      (test ≠ .present ∧ ∃ value, cs = test.sign ++ value ∧ unquote (Text.trim value) = text) := by
  constructor
  · intro h
    unfold readTest? at h
    split at h
    · obtain ⟨rfl, rfl⟩ := Prod.mk.inj (Option.some.inj h)
      exact .inl ⟨rfl, rfl, rfl⟩
    · obtain ⟨rfl, htext⟩ := Prod.mk.inj (Option.some.inj h)
      exact .inr ⟨by decide, _, rfl, htext⟩
    · obtain ⟨rfl, htext⟩ := Prod.mk.inj (Option.some.inj h)
      exact .inr ⟨by decide, _, rfl, htext⟩
    · obtain ⟨rfl, htext⟩ := Prod.mk.inj (Option.some.inj h)
      exact .inr ⟨by decide, _, rfl, htext⟩
    · obtain ⟨rfl, htext⟩ := Prod.mk.inj (Option.some.inj h)
      exact .inr ⟨by decide, _, rfl, htext⟩
    · exact absurd h (by simp)
  · rintro (⟨rfl, rfl, rfl⟩ | ⟨htest, value, rfl, rfl⟩)
    · rfl
    · cases test with
      | present => exact absurd rfl htest
      | equals => rfl
      | contains => rfl
      | startsWith => rfl
      | endsWith => rfl

/-- A sign is neither in a name nor white space. -/
theorem sign_ends {test : AttributeTest} (h : test ≠ .present) (value : List Char) :
    ∃ c cs, test.sign ++ value = c :: cs ∧ isNameChar c = false ∧ Text.isSpace c = false := by
  cases test with
  | present => exact absurd rfl h
  | equals => exact ⟨'=', _, rfl, by decide, by decide⟩
  | contains => exact ⟨'*', _, rfl, by decide, by decide⟩
  | startsWith => exact ⟨'^', _, rfl, by decide, by decide⟩
  | endsWith => exact ⟨'$', _, rfl, by decide, by decide⟩

/-- A name may be followed by white space and then anything that is not in a name. -/
theorem endsName_space {space cs : List Char} (hspace : ∀ c ∈ space, Text.isSpace c = true)
    (hcs : EndsName cs) : EndsName (space ++ cs) := by
  cases space with
  | nil => exact hcs
  | cons c space => exact endsName_cons (isNameChar_of_isSpace (hspace c List.mem_cons_self)) _

/-- The inside of square brackets is read as the grammar has it. -/
theorem readAttribute?_eq_some_iff {body : List Char} {c : Condition} :
    readAttribute? body = some c ↔ IsAttribute body c := by
  constructor
  · intro h
    unfold readAttribute? at h
    simp only at h
    split at h
    · exact absurd h (by simp)
    · rename_i hname
      obtain ⟨⟨test, text⟩, htest, rfl⟩ := Option.map_eq_some_iff.mp h
      have hsplit := List.takeWhile_append_dropWhile (p := isNameChar) (l := Text.trim body)
      rcases readTest?_eq_some_iff.mp htest with ⟨rfl, hnone, rfl⟩ | ⟨hsign, value, hvalue, htext⟩
      · -- nothing but white space follows the name, and so, the text being trimmed, nothing at all
        have hnil := eq_nil_of_spaces hsplit (List.dropWhile_eq_nil_iff.mp hnone)
        rw [hnil, List.append_nil] at hsplit
        exact .present (isName_takeWhile hname) hsplit.symm
      · have hspaces := List.takeWhile_append_dropWhile (p := Text.isSpace)
          (l := (Text.trim body).dropWhile isNameChar)
        unfold Text.trimStart at hvalue
        rw [hvalue] at hspaces
        have hbody := hsplit.symm
        rw [← hspaces] at hbody
        exact .compared (isName_takeWhile hname) (fun c hc => List.mem_takeWhile_imp hc) hsign hbody
          (unquote_eq_iff.mp htext)
  · intro h
    cases h with
    | @present name hname hbody =>
        unfold readAttribute?
        simp only
        rw [hbody, List.takeWhile_eq_self_iff.mpr hname.2, if_neg hname.1,
          List.dropWhile_eq_nil_iff.mpr hname.2]
        rfl
    | @compared name space value text test hname hspace hsign hbody htext =>
        obtain ⟨c, cs, hshape, hc, hstop⟩ := sign_ends hsign value
        -- what follows the name cannot go on with it, nor the sign with the white space before it
        have hends : EndsName (space ++ (test.sign ++ value)) := by
          rw [hshape]
          exact endsName_space hspace (endsName_cons hc cs)
        have hstart : Text.trimStart (space ++ (test.sign ++ value)) = test.sign ++ value := by
          unfold Text.trimStart
          refine dropWhile_append_of_ends hspace ?_
          rw [hshape]
          exact forall_mem_head?_cons hstop cs
        unfold readAttribute?
        simp only
        rw [hbody, takeWhile_name hname.2 hends, if_neg hname.1, dropWhile_name hname.2 hends, hstart,
          readTest?_eq_some_iff.mpr (.inr ⟨hsign, value, rfl, unquote_eq_iff.mpr htext⟩)]
        rfl

/-! ## Pieces -/

/-- The piece of a nesting with its argument. -/
def Nesting.piece : Nesting → List Char → Piece
  | not => .negation
  | has => .search

/-- The text of a fragment whose argument, if it is a selector, is not looked into. -/
inductive IsPiece : List Char → Piece → Prop
  | plain {text : List Char} {c : Condition} : IsPlain text c → IsPiece text (.plain c)
  | nested {argument : List Char} {piece : Piece} (nesting : Nesting) :
      Inside argument → piece = nesting.piece (Text.trim argument) →
      IsPiece (call nesting.word argument) piece

theorem splitArgument?_eq_some_iff {cs argument rest : List Char} :
    splitArgument? cs = some (argument, rest) ↔
      Inside argument ∧ cs = '(' :: (argument ++ ')' :: rest) := by
  constructor
  · intro h
    unfold splitArgument? at h
    split at h
    · obtain ⟨hinside, rfl⟩ := (splitGroup?_eq_some_iff (by decide)).mp h
      exact ⟨hinside, rfl⟩
    · exact absurd h (by simp)
  · rintro ⟨hinside, rfl⟩
    exact (splitGroup?_eq_some_iff (by decide)).mpr ⟨hinside, rfl⟩

theorem isNameChar_flag (flag : Flag) : ∀ c ∈ flag.word.toList, isNameChar c = true := by
  cases flag with
  | firstChild => exact List.all_eq_true.mp rfl
  | lastChild => exact List.all_eq_true.mp rfl
  | onlyChild => exact List.all_eq_true.mp rfl
  | empty => exact List.all_eq_true.mp rfl

theorem isNameChar_nesting (nesting : Nesting) : ∀ c ∈ nesting.word.toList, isNameChar c = true := by
  cases nesting with
  | not => exact List.all_eq_true.mp rfl
  | has => exact List.all_eq_true.mp rfl

theorem readPseudo?_flag (flag : Flag) (hrest : EndsName rest) :
    readPseudo? (flag.word.toList ++ rest) = some (.plain (.flag flag), rest) := by
  have hword := isNameChar_flag flag
  unfold readPseudo?
  simp only
  rw [takeWhile_name hword hrest, dropWhile_name hword hrest, String.ofList_toList]
  cases flag with
  | firstChild => simp only [Flag.word]
  | lastChild => simp only [Flag.word]
  | onlyChild => simp only [Flag.word]
  | empty => simp only [Flag.word]

/-- An argument ends the word before it. -/
theorem endsName_argument (argument rest : List Char) : EndsName ('(' :: (argument ++ ')' :: rest)) :=
  endsName_cons (by decide) _

theorem call_append (word : String) (argument rest : List Char) :
    call word argument ++ rest = ':' :: (word.toList ++ '(' :: (argument ++ ')' :: rest)) := by
  unfold call
  simp only [List.cons_append, List.append_assoc, List.nil_append]

theorem readPseudo?_nth {argument : List Char} {e : Nth} (hinside : Inside argument)
    (he : Nth.read? argument = some e) (rest : List Char) :
    readPseudo? ("nth-child".toList ++ '(' :: (argument ++ ')' :: rest)) =
      some (.plain (.nth e), rest) := by
  have hword : ∀ c ∈ "nth-child".toList, isNameChar c = true := List.all_eq_true.mp rfl
  have hends := endsName_argument argument rest
  unfold readPseudo?
  simp only
  rw [takeWhile_name hword hends, dropWhile_name hword hends, String.ofList_toList]
  simp only
  rw [splitArgument?_eq_some_iff.mpr ⟨hinside, rfl⟩, Option.bind_some, he]
  rfl

theorem readPseudo?_nested {argument : List Char} (nesting : Nesting) (hinside : Inside argument)
    (rest : List Char) :
    readPseudo? (nesting.word.toList ++ '(' :: (argument ++ ')' :: rest)) =
      some (nesting.piece (Text.trim argument), rest) := by
  have hword := isNameChar_nesting nesting
  have hends := endsName_argument argument rest
  unfold readPseudo?
  simp only
  rw [takeWhile_name hword hends, dropWhile_name hword hends, String.ofList_toList,
    splitArgument?_eq_some_iff.mpr ⟨hinside, rfl⟩]
  cases nesting with
  | not => simp only [Nesting.word, Option.map_some, Nesting.piece]
  | has => simp only [Nesting.word, Option.map_some, Nesting.piece]

/-- A fragment that ends where its last name ends is taken off the text as a whole. -/
theorem readPiece?_of_isPiece {text rest : List Char} {piece : Piece} (h : IsPiece text piece)
    (hrest : EndsName rest) : readPiece? (text ++ rest) = some (piece, rest) := by
  cases h with
  | plain h =>
      cases h with
      | @hasClass name hname =>
          show readPiece? ('.' :: (name ++ rest)) = _
          unfold readPiece?
          simp only
          rw [takeWhile_name hname.2 hrest, dropWhile_name hname.2 hrest, if_neg hname.1]
      | @bracket body c hbody hc =>
          have hshape : '[' :: (body ++ [']']) ++ rest = '[' :: (body ++ ']' :: rest) := by
            simp only [List.cons_append, List.append_assoc, List.nil_append]
          rw [hshape]
          unfold readPiece?
          simp only
          rw [(splitGroup?_eq_some_iff (by decide)).mpr ⟨hbody, rfl⟩, Option.bind_some]
          simp only
          rw [readAttribute?_eq_some_iff.mpr hc]
          rfl
      | flag flag =>
          rw [List.cons_append, readPiece?, readPseudo?_flag flag hrest]
      | nth hinside he =>
          rw [call_append, readPiece?, readPseudo?_nth hinside he]
  | @nested argument _ nesting hinside hpiece =>
      rw [call_append, readPiece?, readPseudo?_nested nesting hinside, hpiece]

theorem isPiece_of_readPseudo? {cs : List Char} {piece : Piece}
    (h : readPseudo? cs = some (piece, rest)) :
    ∃ text, ':' :: cs = text ++ rest ∧ IsPiece text piece := by
  have hsplit := List.takeWhile_append_dropWhile (p := isNameChar) (l := cs)
  -- what the word is, and with it the text in front of what the reader goes on with
  have hword : ∀ {word : String}, String.ofList (cs.takeWhile isNameChar) = word →
      ':' :: cs = ':' :: (word.toList ++ cs.dropWhile isNameChar) := by
    rintro word rfl
    rw [String.toList_ofList, hsplit]
  have hargument : ∀ {word : String} {argument after : List Char},
      String.ofList (cs.takeWhile isNameChar) = word →
      splitArgument? (cs.dropWhile isNameChar) = some (argument, after) →
      Inside argument ∧ ':' :: cs = call word argument ++ after := by
    intro word argument after hname hsome
    obtain ⟨hinside, hshape⟩ := splitArgument?_eq_some_iff.mp hsome
    exact ⟨hinside, by rw [hword hname, hshape, call_append]⟩
  unfold readPseudo? at h
  simp only at h
  split at h
  · rename_i hname
    obtain ⟨rfl, rfl⟩ := Prod.mk.inj (Option.some.inj h)
    exact ⟨_, hword hname, .plain (.flag .firstChild)⟩
  · rename_i hname
    obtain ⟨rfl, rfl⟩ := Prod.mk.inj (Option.some.inj h)
    exact ⟨_, hword hname, .plain (.flag .lastChild)⟩
  · rename_i hname
    obtain ⟨rfl, rfl⟩ := Prod.mk.inj (Option.some.inj h)
    exact ⟨_, hword hname, .plain (.flag .onlyChild)⟩
  · rename_i hname
    obtain ⟨rfl, rfl⟩ := Prod.mk.inj (Option.some.inj h)
    exact ⟨_, hword hname, .plain (.flag .empty)⟩
  · rename_i hname
    obtain ⟨⟨argument, after⟩, hsome, hread⟩ := Option.bind_eq_some_iff.mp h
    obtain ⟨e, he, hpiece⟩ := Option.map_eq_some_iff.mp hread
    obtain ⟨rfl, rfl⟩ := Prod.mk.inj hpiece
    obtain ⟨hinside, hshape⟩ := hargument hname hsome
    exact ⟨_, hshape, .plain (.nth hinside he)⟩
  · rename_i hname
    obtain ⟨⟨argument, after⟩, hsome, hpiece⟩ := Option.map_eq_some_iff.mp h
    obtain ⟨rfl, rfl⟩ := Prod.mk.inj hpiece
    obtain ⟨hinside, hshape⟩ := hargument hname hsome
    exact ⟨_, hshape, .nested .not hinside rfl⟩
  · rename_i hname
    obtain ⟨⟨argument, after⟩, hsome, hpiece⟩ := Option.map_eq_some_iff.mp h
    obtain ⟨rfl, rfl⟩ := Prod.mk.inj hpiece
    obtain ⟨hinside, hshape⟩ := hargument hname hsome
    exact ⟨_, hshape, .nested .has hinside rfl⟩
  · exact absurd h (by simp)

/-- Nothing but a fragment is taken off a text. -/
theorem isPiece_of_readPiece? {cs : List Char} {piece : Piece}
    (h : readPiece? cs = some (piece, rest)) :
    ∃ text, cs = text ++ rest ∧ IsPiece text piece := by
  unfold readPiece? at h
  split at h
  · rename_i cs
    simp only at h
    split at h
    · exact absurd h (by simp)
    · rename_i hname
      obtain ⟨rfl, rfl⟩ := Prod.mk.inj (Option.some.inj h)
      refine ⟨'.' :: cs.takeWhile isNameChar, ?_, .plain (.hasClass (isName_takeWhile hname))⟩
      rw [List.cons_append, List.takeWhile_append_dropWhile]
  · obtain ⟨⟨body, after⟩, hsome, hread⟩ := Option.bind_eq_some_iff.mp h
    obtain ⟨c, hc, hpiece⟩ := Option.map_eq_some_iff.mp hread
    obtain ⟨rfl, rfl⟩ := Prod.mk.inj hpiece
    obtain ⟨hbody, rfl⟩ := (splitGroup?_eq_some_iff (by decide)).mp hsome
    refine ⟨'[' :: (body ++ [']']), ?_, .plain (.bracket hbody (readAttribute?_eq_some_iff.mp hc))⟩
    simp only [List.cons_append, List.append_assoc, List.nil_append]
  · exact isPiece_of_readPseudo? h
  · exact absurd h (by simp)

/-- A whole call is a colon, the word and an argument, and nothing after it. -/
theorem wholeCall?_eq_some_iff {word : String} {cs argument : List Char} :
    wholeCall? word.toList cs = some argument ↔ Inside argument ∧ cs = call word argument := by
  unfold wholeCall?
  constructor
  · intro h
    split at h
    · rename_i found hcall
      obtain rfl := Option.some.inj h
      obtain ⟨after, hmark, hsplit⟩ := Option.bind_eq_some_iff.mp hcall
      obtain ⟨hinside, rfl⟩ := splitArgument?_eq_some_iff.mp hsplit
      exact ⟨hinside, Text.dropMark?_eq_some_iff.mp hmark⟩
    · exact absurd h (by simp)
  · rintro ⟨hinside, rfl⟩
    have hmark : Text.dropMark? (':' :: word.toList) (call word argument) =
        some ('(' :: (argument ++ [')'])) :=
      Text.dropMark?_eq_some_iff.mpr rfl
    rw [hmark, Option.bind_some, splitArgument?_eq_some_iff.mpr ⟨hinside, rfl⟩]

end StyleCascade.Selector
