/-
# StyleCascade.Proofs.Selector.Acceptance — the reader of selectors accepts exactly the grammar

`ofString_accepts_grammar` says of every text that the reader finds a selector in it exactly if the
grammar derives it, and that what it finds is what the derivation stands for. There is only one
(`Derives.unique`). The lower layer of the
reader is settled in `Piece`; here sequences of fragments are matched with its pieces one by one
(`derivesAll_cons_iff`), and the arguments of negations and searches by induction on the length of the
text, each being shorter than the text around it.
-/
import StyleCascade.Proofs.Selector.Piece
import StyleCascade.Proofs.StableSort

namespace StyleCascade.Selector

/-! ## Sequences of fragments, piece by piece -/

/-- A piece, read on, means what a fragment says. -/
inductive Means : Piece → Fragment → Prop
  | plain (c : Condition) : Means (.plain c) (.plain c)
  | nested {piece : Piece} {argument : List Char} {nesting : Nesting} {inner : Tree} :
      piece = nesting.piece argument → Derives argument inner → Means piece (.nested nesting inner)

theorem Nesting.piece_ne_plain (nesting : Nesting) (argument : List Char) (c : Condition) :
    nesting.piece argument ≠ .plain c := by
  cases nesting with
  | not => exact Piece.noConfusion
  | has => exact Piece.noConfusion

theorem Nesting.piece_inj {n m : Nesting} {a b : List Char} (h : n.piece a = m.piece b) :
    n = m ∧ a = b := by
  cases n <;> cases m <;> cases h <;> exact ⟨rfl, rfl⟩

/-- A fragment starts with a dot, an opening square bracket or a colon. -/
theorem DerivesAll.starts {cs : List Char} {fs : List Fragment} (h : DerivesAll cs fs) :
    ∀ c ∈ cs.head?, c = '.' ∨ c = '[' ∨ c = ':' := by
  cases h with
  | nil =>
      intro c hc
      exact absurd hc (by simp)
  | plain hplain _ =>
      cases hplain with
      | hasClass _ => exact forall_mem_head?_cons (.inl rfl) _
      | bracket _ _ => exact forall_mem_head?_cons (.inr (.inl rfl)) _
      | flag _ => exact forall_mem_head?_cons (.inr (.inr rfl)) _
      | nth _ _ => exact forall_mem_head?_cons (.inr (.inr rfl)) _
  | nested _ _ _ _ => exact forall_mem_head?_cons (.inr (.inr rfl)) _

/-- No name goes on into a fragment. -/
theorem DerivesAll.endsName {cs : List Char} {fs : List Fragment} (h : DerivesAll cs fs) :
    EndsName cs := by
  intro c hc
  rcases h.starts c hc with rfl | rfl | rfl
  · decide
  · decide
  · decide

theorem derivesAll_nil_iff {cs : List Char} : DerivesAll cs [] ↔ cs = [] := by
  constructor
  · intro h
    cases h
    rfl
  · rintro rfl
    exact .nil

/-- The first fragment of a sequence is the piece that the reader takes off. -/
theorem derivesAll_cons_iff {cs : List Char} {f : Fragment} {more : List Fragment} :
    DerivesAll cs (f :: more) ↔
      ∃ piece rest, readPiece? cs = some (piece, rest) ∧ Means piece f ∧ DerivesAll rest more := by
  constructor
  · intro h
    cases h with
    | @plain text rest c _ hplain hmore =>
        exact ⟨.plain c, rest, readPiece?_of_isPiece (.plain hplain) hmore.endsName, .plain c, hmore⟩
    | @nested argument rest nesting _ _ hinside hinner hmore =>
        exact ⟨nesting.piece (Text.trim argument), rest,
          readPiece?_of_isPiece (.nested nesting hinside rfl) hmore.endsName, .nested rfl hinner, hmore⟩
  · rintro ⟨piece, rest, hread, hmeans, hmore⟩
    obtain ⟨text, rfl, hpiece⟩ := isPiece_of_readPiece? hread
    cases hmeans with
    | plain c =>
        cases hpiece with
        | plain hplain => exact .plain hplain hmore
        | nested nesting _ heq => exact absurd heq.symm (Nesting.piece_ne_plain _ _ c)
    | nested heq hinner =>
        cases hpiece with
        | plain _ => exact absurd heq.symm (Nesting.piece_ne_plain _ _ _)
        | nested nesting hinside hshape =>
            obtain ⟨rfl, rfl⟩ := Nesting.piece_inj (heq.symm.trans hshape)
            exact .nested _ hinside hinner hmore

/-! ## The base -/

theorem IsBase.ne_nil {rest base : List Char} (h : IsBase rest (some base)) : base ≠ [] := by
  rcases h with rfl | ⟨hname, _⟩
  · exact List.cons_ne_nil _ _
  · exact hname.1

/-- The reader splits off the base of a selector. -/
theorem splitBase_of_isBase {base : Option (List Char)} {rest : List Char} {fs : List Fragment}
    (hbase : IsBase rest base) (hrest : DerivesAll rest fs) :
    splitBase (base.getD [] ++ rest) = (base.getD ['*'], rest) := by
  cases base with
  | none =>
      show splitBase rest = (['*'], rest)
      fun_cases splitBase rest
      · rename_i rest
        exact absurd (hrest.starts '*' rfl) (by decide)
      · rfl
      · rename_i hname
        have hnil : ([] ++ rest).takeWhile isNameChar = [] :=
          takeWhile_name (fun _ hc => absurd hc List.not_mem_nil) hrest.endsName
        exact absurd hnil hname
  | some base =>
      show splitBase (base ++ rest) = (base, rest)
      rcases hbase with rfl | ⟨hname, hends⟩
      · rfl
      · unfold splitBase
        split
        · -- no name starts with a star
          rename_i after heq
          have hstar : (base ++ rest).head? = base.head? := List.head?_append_of_ne_nil base hname.1
          rw [heq] at hstar
          have hmem := hname.2 '*' (List.mem_of_mem_head? hstar.symm)
          exact absurd hmem (by decide)
        · rw [takeWhile_name hname.2 hends, dropWhile_name hname.2 hends, if_neg hname.1]

/-- What the reader splits off is a base. -/
theorem exists_isBase (cs : List Char) :
    ∃ base, IsBase (splitBase cs).2 base ∧ cs = base.getD [] ++ (splitBase cs).2 := by
  fun_cases splitBase cs
  · rename_i rest
    exact ⟨some ['*'], .inl rfl, rfl⟩
  · exact ⟨none, trivial, rfl⟩
  · rename_i hname
    exact ⟨some (cs.takeWhile isNameChar), .inr ⟨isName_takeWhile hname, endsName_dropWhile cs⟩,
      List.takeWhile_append_dropWhile.symm⟩

/-! ## Calls that are the whole text -/

/-- A call that is a whole selector is a single fragment. -/
theorem derives_call (nesting : Nesting) {argument : List Char} {inner : Tree}
    (hinside : Inside argument) (hinner : Derives (Text.trim argument) inner) :
    Derives (call nesting.word argument)
      ⟨call nesting.word argument, none, [.nested nesting inner]⟩ := by
  have hall := DerivesAll.nested nesting hinside hinner .nil
  rw [List.append_nil] at hall
  exact .selector (List.cons_ne_nil _ _) trivial rfl hall

/-- The only derivation of a call that is the whole text is the one as a single fragment. -/
theorem eq_of_derives_call {nesting : Nesting} {argument : List Char} {t : Tree}
    (hinside : Inside argument) (h : Derives (call nesting.word argument) t) :
    ∃ source inner, t = ⟨source, none, [.nested nesting inner]⟩ ∧
      Derives (Text.trim argument) inner := by
  obtain ⟨hne, hbase, hcs, hall⟩ := h
  rename_i rest base fragments
  cases base with
  | some base =>
      -- a call starts with a colon, and no base does
      have hcolon : ':' ∈ (base ++ rest).head? := by
        rw [← show call nesting.word argument = base ++ rest from hcs]
        rfl
      rcases hbase with rfl | ⟨hname, _⟩
      · exact absurd hcolon (by simp)
      · rw [List.head?_append_of_ne_nil base hname.1] at hcolon
        exact absurd (hname.2 ':' (List.mem_of_mem_head? hcolon)) (by decide)
  | none =>
      obtain rfl : call nesting.word argument = rest := hcs
      cases fragments with
      | nil => exact absurd (derivesAll_nil_iff.mp hall) hne
      | cons f more =>
          -- the reader takes the whole call as one piece, so nothing is left for a second fragment
          obtain ⟨piece, rest, hread, hmeans, hmore⟩ := derivesAll_cons_iff.mp hall
          have hwhole := readPiece?_of_isPiece (.nested nesting hinside rfl) endsName_nil
          rw [List.append_nil, hread] at hwhole
          obtain ⟨hpiece, rfl⟩ := Prod.mk.inj (Option.some.inj hwhole)
          cases hmeans with
          | plain c => exact absurd hpiece.symm (Nesting.piece_ne_plain _ _ c)
          | nested heq hinner =>
              obtain ⟨rfl, rfl⟩ := Nesting.piece_inj (heq.symm.trans hpiece)
              cases more with
              | nil => exact ⟨_, _, rfl, hinner⟩
              | cons g more =>
                  obtain ⟨_, _, hnone, _⟩ := derivesAll_cons_iff.mp hmore
                  exact absurd hnone (by simp [readPiece?])

/-- A text that is derived as a single nested fragment is a whole call. -/
theorem call_of_derives {cs source : List Char} {nesting : Nesting} {inner : Tree}
    (h : Derives cs ⟨source, none, [.nested nesting inner]⟩) :
    ∃ argument, Inside argument ∧ cs = call nesting.word argument := by
  cases h with
  | selector _ _ hcs hall =>
      cases hall with
      | @nested argument rest _ _ _ hinside _ hmore =>
          obtain rfl := derivesAll_nil_iff.mp hmore
          rw [List.append_nil] at hcs
          exact ⟨argument, hinside, hcs⟩

/-! ## The reader, by induction on the length of the text -/

/-- The reader and the grammar agree on a text. -/
def Agrees (cs : List Char) : Prop :=
  ((read cs).malformed = false → ∃ t, Derives cs t) ∧ ∀ t, Derives cs t → read cs = t.toSelector

theorem conditionOn?_eq_some_iff {wrap : Selector → Condition} {cs : List Char} (h : Agrees cs)
    {c : Condition} :
    conditionOn? wrap (read cs) = some c ↔ ∃ t, Derives cs t ∧ wrap t.toSelector = c := by
  unfold conditionOn?
  constructor
  · intro hsome
    split at hsome
    · exact absurd hsome (by simp)
    · rename_i hwell
      rw [Bool.not_eq_true] at hwell
      obtain ⟨t, ht⟩ := h.1 hwell
      rw [h.2 t ht] at hsome
      exact ⟨t, ht, Option.some.inj hsome⟩
  · rintro ⟨t, ht, rfl⟩
    rw [h.2 t ht, t.toSelector_malformed]
    rfl

/-- What is read of a nesting: the fused condition if the argument is a call of the other one. -/
theorem readCondition?_nested (nesting : Nesting) (argument : List Char) :
    readCondition? (nesting.piece argument) =
      match wholeCall? nesting.other.word.toList argument with
      | some inner => conditionOn? .hasNone (read (Text.trim inner))
      | none => conditionOn? nesting.wrap (read argument) := by
  cases nesting with
  | not =>
      show readCondition? (.negation argument) =
        match wholeCall? ['h', 'a', 's'] argument with
        | some inner => conditionOn? .hasNone (read (Text.trim inner))
        | none => conditionOn? .not (read argument)
      rw [readCondition?]
      split
      · rename_i hcall
        rw [hcall]
      · rename_i hcall
        rw [hcall]
  | has =>
      show readCondition? (.search argument) =
        match wholeCall? ['n', 'o', 't'] argument with
        | some inner => conditionOn? .hasNone (read (Text.trim inner))
        | none => conditionOn? .has (read argument)
      rw [readCondition?]
      split
      · rename_i hcall
        rw [hcall]
      · rename_i hcall
        rw [hcall]

theorem readCondition?_nested_eq_some_iff (nesting : Nesting) {argument : List Char} {c : Condition}
    (hread : ∀ ds : List Char, ds.length ≤ argument.length → Agrees ds) :
    readCondition? (nesting.piece argument) = some c ↔
      ∃ t, Derives argument t ∧ (Fragment.nested nesting t).condition = c := by
  rw [readCondition?_nested]
  split
  · -- the argument is a call of the other nesting, and so is each of its derivations
    rename_i inner hcall
    have hshorter := length_of_wholeCall? hcall
    have htrim := Text.length_trim_le inner
    obtain ⟨hinside, rfl⟩ := wholeCall?_eq_some_iff.mp hcall
    rw [conditionOn?_eq_some_iff (hread _ (by omega))]
    constructor
    · rintro ⟨t, ht, rfl⟩
      exact ⟨_, derives_call nesting.other hinside ht, Fragment.condition_fused nesting _ t⟩
    · rintro ⟨t, ht, rfl⟩
      obtain ⟨source, x, rfl, hx⟩ := eq_of_derives_call hinside ht
      exact ⟨x, hx, (Fragment.condition_fused nesting source x).symm⟩
  · -- it is not, and then none of its derivations is one either
    rename_i hcall
    rw [conditionOn?_eq_some_iff (hread _ (Nat.le_refl _))]
    have hcondition : ∀ t, Derives argument t →
        (Fragment.nested nesting t).condition = nesting.wrap t.toSelector := by
      intro t ht
      refine Fragment.condition_nested ?_
      rintro source inner rfl
      obtain ⟨body, hbody⟩ := call_of_derives ht
      rw [wholeCall?_eq_some_iff.mpr hbody] at hcall
      exact absurd hcall (by simp)
    constructor
    · rintro ⟨t, ht, rfl⟩
      exact ⟨t, ht, hcondition t ht⟩
    · rintro ⟨t, ht, rfl⟩
      exact ⟨t, ht, (hcondition t ht).symm⟩

/-- A piece is read as the condition of the fragment that it says. -/
theorem readCondition?_eq_some_iff {piece : Piece} {c : Condition}
    (hread : ∀ ds : List Char, ds.length ≤ piece.size → Agrees ds) :
    readCondition? piece = some c ↔ ∃ f, Means piece f ∧ f.condition = c := by
  have hnested : ∀ (nesting : Nesting) (argument : List Char), piece = nesting.piece argument →
      ((∃ t, Derives argument t ∧ (Fragment.nested nesting t).condition = c) ↔
        ∃ f, Means piece f ∧ f.condition = c) := by
    intro nesting argument hpiece
    constructor
    · rintro ⟨t, ht, hc⟩
      exact ⟨.nested nesting t, .nested hpiece ht, hc⟩
    · rintro ⟨f, hmeans, hc⟩
      cases hmeans with
      | plain d => exact absurd hpiece.symm (Nesting.piece_ne_plain nesting argument d)
      | nested heq ht =>
          obtain ⟨rfl, rfl⟩ := Nesting.piece_inj (hpiece.symm.trans heq)
          exact ⟨_, ht, hc⟩
  cases piece with
  | plain d =>
      rw [readCondition?]
      constructor
      · intro h
        obtain rfl := Option.some.inj h
        exact ⟨.plain d, .plain d, rfl⟩
      · rintro ⟨f, hmeans, rfl⟩
        cases hmeans with
        | plain _ => rfl
        | nested heq _ => exact absurd heq.symm (Nesting.piece_ne_plain _ _ d)
  | negation argument =>
      exact (readCondition?_nested_eq_some_iff .not hread).trans (hnested .not argument rfl)
  | search argument =>
      exact (readCondition?_nested_eq_some_iff .has hread).trans (hnested .has argument rfl)

theorem readConditions_of_none {cs : List Char} (h : readPiece? cs = none) :
    readConditions cs = ([], cs.isEmpty) := by
  rw [readConditions.eq_def]
  split
  · rfl
  · rename_i hsome
    rw [h] at hsome
    exact absurd hsome (by simp)

theorem readConditions_of_some {cs rest : List Char} {piece : Piece} (h : readPiece? cs = some (piece, rest)) :
    readConditions cs =
      match readCondition? piece with
      | none => ([], false)
      | some condition => (condition :: (readConditions rest).1, (readConditions rest).2) := by
  rw [readConditions.eq_def]
  split
  · rename_i hnone
    rw [h] at hnone
    exact absurd hnone (by simp)
  · rename_i hsome
    rw [h] at hsome
    obtain ⟨rfl, rfl⟩ := Prod.mk.inj (Option.some.inj hsome)
    rfl

/-- The reader comes to the end of a text exactly if the text is a sequence of fragments, and it has
then read the conditions that these stand for. -/
theorem readConditions_eq_iff {cs : List Char} {conditions : List Condition}
    (hread : ∀ ds : List Char, ds.length < cs.length → Agrees ds) :
    readConditions cs = (conditions, true) ↔
      ∃ fs, DerivesAll cs fs ∧ Fragment.conditions fs = conditions := by
  rw [readConditions.eq_def]
  split
  · -- no fragment stands in front
    rename_i hnone
    constructor
    · intro h
      obtain ⟨rfl, hnil⟩ := Prod.mk.inj h
      exact ⟨[], derivesAll_nil_iff.mpr (List.isEmpty_iff.mp hnil), rfl⟩
    · rintro ⟨fs, hall, rfl⟩
      cases fs with
      | nil =>
          obtain rfl := derivesAll_nil_iff.mp hall
          rfl
      | cons f more =>
          obtain ⟨_, _, hsome, _⟩ := derivesAll_cons_iff.mp hall
          rw [hnone] at hsome
          exact absurd hsome (by simp)
  · rename_i piece rest hpiece
    obtain ⟨hsize, hshorter⟩ := length_of_readPiece? hpiece
    have hcondition : ∀ c, readCondition? piece = some c ↔ ∃ f, Means piece f ∧ f.condition = c :=
      fun c => readCondition?_eq_some_iff fun ds hds => hread ds (Nat.lt_of_le_of_lt hds hsize)
    have hmore : ∀ conditions, readConditions rest = (conditions, true) ↔
        ∃ fs, DerivesAll rest fs ∧ Fragment.conditions fs = conditions :=
      fun _ => readConditions_eq_iff fun ds hds => hread ds (Nat.lt_trans hds hshorter)
    have hcons : (∃ fs, DerivesAll cs fs ∧ Fragment.conditions fs = conditions) ↔
        ∃ c more, conditions = c :: more ∧ readCondition? piece = some c ∧
          readConditions rest = (more, true) := by
      constructor
      · rintro ⟨fs, hall, rfl⟩
        cases fs with
        | nil =>
            obtain rfl := derivesAll_nil_iff.mp hall
            exact absurd hpiece (by simp [readPiece?])
        | cons f more =>
            obtain ⟨_, _, hsome, hmeans, hrest⟩ := derivesAll_cons_iff.mp hall
            rw [hpiece] at hsome
            obtain ⟨rfl, rfl⟩ := Prod.mk.inj (Option.some.inj hsome)
            exact ⟨f.condition, Fragment.conditions more, rfl, (hcondition _).mpr ⟨f, hmeans, rfl⟩,
              (hmore _).mpr ⟨more, hrest, rfl⟩⟩
      · rintro ⟨c, more, rfl, hc, hrest⟩
        obtain ⟨f, hmeans, rfl⟩ := (hcondition c).mp hc
        obtain ⟨fs, hall, rfl⟩ := (hmore more).mp hrest
        exact ⟨f :: fs, derivesAll_cons_iff.mpr ⟨piece, rest, hpiece, hmeans, hall⟩, rfl⟩
    -- the first fragment and the rest are read, or neither sequence goes on
    rw [hcons]
    split
    · rename_i hnone
      rw [hnone]
      simp
    · rename_i c hsome
      rw [hsome]
      constructor
      · intro h
        obtain ⟨rfl, hend⟩ := Prod.mk.inj h
        exact ⟨c, (readConditions rest).1, rfl, rfl, Prod.ext rfl hend⟩
      · rintro ⟨d, more, rfl, hd, hrest⟩
        obtain rfl := Option.some.inj hd
        rw [hrest]
termination_by cs.length

/-- The reader and the grammar agree on every text. -/
theorem agrees (cs : List Char) : Agrees cs := by
  have hbase := length_splitBase_le cs
  have hconditions : ∀ conditions, readConditions (splitBase cs).2 = (conditions, true) ↔
      ∃ fs, DerivesAll (splitBase cs).2 fs ∧ Fragment.conditions fs = conditions :=
    fun _ => readConditions_eq_iff fun ds hds => agrees ds
  constructor
  · intro hwell
    rw [read] at hwell
    simp only [Bool.or_eq_false_iff, Bool.not_eq_false'] at hwell
    obtain ⟨hne, hend⟩ := hwell
    obtain ⟨base, hisBase, hcs⟩ := exists_isBase cs
    obtain ⟨fs, hall, _⟩ := (hconditions _).mp (Prod.ext rfl hend)
    refine ⟨⟨cs, base, fs⟩, .selector ?_ hisBase hcs hall⟩
    rintro rfl
    exact absurd hne (by decide)
  · rintro _ ⟨hne, hisBase, hcs, hall⟩
    rename_i rest base fs
    have hsplit := splitBase_of_isBase hisBase hall
    rw [← hcs] at hsplit
    have hread : readConditions (splitBase cs).2 = (Fragment.conditions fs, true) := by
      rw [hconditions, hsplit]
      exact ⟨fs, hall, rfl⟩
    rw [read, hread, hsplit, Tree.toSelector]
    cases cs with
    | nil => exact absurd rfl hne
    | cons c cs => rfl
termination_by cs.length

/-! ## One derivation -/

/-- No shorter text has two derivations. -/
def UniqueBelow (n : Nat) : Prop :=
  ∀ ds : List Char, ds.length < n → ∀ t u, Derives ds t → Derives ds u → t = u

theorem Nesting.size_piece (nesting : Nesting) (argument : List Char) :
    (nesting.piece argument).size = argument.length := by
  cases nesting with
  | not => rfl
  | has => rfl

theorem Means.unique {piece : Piece} {n : Nat} (hbelow : UniqueBelow n) (hsize : piece.size < n)
    {f g : Fragment} (hf : Means piece f) (hg : Means piece g) : f = g := by
  cases hf with
  | plain c =>
      cases hg with
      | plain _ => rfl
      | nested heq _ => exact absurd heq.symm (Nesting.piece_ne_plain _ _ c)
  | nested heq ht =>
      cases hg with
      | plain c => exact absurd heq.symm (Nesting.piece_ne_plain _ _ c)
      | nested heq' hu =>
          obtain ⟨rfl, rfl⟩ := Nesting.piece_inj (heq.symm.trans heq')
          rw [heq, Nesting.size_piece] at hsize
          rw [hbelow _ hsize _ _ ht hu]

theorem DerivesAll.unique {cs : List Char} {n : Nat} (hbelow : UniqueBelow n) (hcs : cs.length ≤ n)
    {fs gs : List Fragment} (hf : DerivesAll cs fs) (hg : DerivesAll cs gs) : fs = gs := by
  induction fs generalizing cs gs with
  | nil =>
      obtain rfl := derivesAll_nil_iff.mp hf
      cases gs with
      | nil => rfl
      | cons g more =>
          obtain ⟨_, _, hnone, _⟩ := derivesAll_cons_iff.mp hg
          exact absurd hnone (by simp [readPiece?])
  | cons f fs ih =>
      obtain ⟨piece, rest, hread, hmeans, hmore⟩ := derivesAll_cons_iff.mp hf
      obtain ⟨hsize, hshorter⟩ := length_of_readPiece? hread
      cases gs with
      | nil =>
          obtain rfl := derivesAll_nil_iff.mp hg
          exact absurd hread (by simp [readPiece?])
      | cons g gs =>
          obtain ⟨_, _, hread', hmeans', hmore'⟩ := derivesAll_cons_iff.mp hg
          rw [hread] at hread'
          obtain ⟨rfl, rfl⟩ := Prod.mk.inj (Option.some.inj hread')
          rw [hmeans.unique hbelow (by omega) hmeans', ih (by omega) hmore hmore']

theorem eq_of_getD_eq {rest : List Char} {base base' : Option (List Char)} (h : IsBase rest base)
    (h' : IsBase rest base') (heq : base.getD [] = base'.getD []) : base = base' := by
  cases base with
  | none =>
      cases base' with
      | none => rfl
      | some name => exact absurd heq.symm h'.ne_nil
  | some name =>
      cases base' with
      | none => exact absurd heq h.ne_nil
      | some name' => exact congrArg some heq

/-- The grammar is unambiguous: a text has at most one derivation. -/
theorem Derives.unique {cs : List Char} {t u : Tree} (ht : Derives cs t) (hu : Derives cs u) :
    t = u := by
  have hbelow : UniqueBelow cs.length := fun _ _ _ _ ht hu => ht.unique hu
  cases ht with
  | @selector _ rest base fs _ hbase hcs hall =>
      cases hu with
      | @selector _ rest' base' fs' _ hbase' hcs' hall' =>
          -- both go on where the reader goes on after the base
          have hsplit := splitBase_of_isBase hbase hall
          have hsplit' := splitBase_of_isBase hbase' hall'
          rw [← hcs] at hsplit
          rw [← hcs', hsplit] at hsplit'
          obtain ⟨_, rfl⟩ := Prod.mk.inj hsplit'
          have hlength : rest.length ≤ cs.length := by
            rw [hcs, List.length_append]
            omega
          have hfront : base.getD [] = base'.getD [] := List.append_cancel_right (hcs.symm.trans hcs')
          rw [hall.unique hbelow hlength hall', eq_of_getD_eq hbase hbase' hfront]
termination_by cs.length

/-! ## The order of the conditions -/

theorem filter_sortByRank (rank : Nat) (cs : List Condition) :
    (Condition.sortByRank cs).filter (fun d => d.rank == rank) = cs.filter fun d => d.rank == rank :=
  (isStableSort_stableSort Condition.rank cs).stable rank

theorem sortByRank_sorted (cs : List Condition) :
    (Condition.sortByRank cs).Pairwise fun c d => c.rank ≤ d.rank :=
  (isStableSort_stableSort Condition.rank cs).ascending

/-! ## The grammar and the reader -/

/-- The reader accepts a text exactly if the grammar derives it, and what it reads is what the
derivation stands for, with the conditions sorted by rank and those of one rank in their order. -/
theorem ofString_accepts_grammar (s : String) :
    ((ofString s).malformed = false ↔ ∃ t, Derives s.toList t) ∧
    ∀ t, Derives s.toList t →
      ofString s = t.toSelector ∧
      (ofString s).conditions.Pairwise (fun c d => c.rank ≤ d.rank) ∧
      ∀ rank, (ofString s).conditions.filter (fun c => c.rank == rank) =
        (Fragment.conditions t.fragments).filter fun c => c.rank == rank := by
  obtain ⟨hsound, hcomplete⟩ := agrees s.toList
  refine ⟨⟨hsound, ?_⟩, ?_⟩
  · rintro ⟨t, ht⟩
    show (read s.toList).malformed = false
    rw [hcomplete t ht]
    exact t.toSelector_malformed
  · intro t ht
    have heq : ofString s = t.toSelector := hcomplete t ht
    have hconditions : t.toSelector.conditions =
        Condition.sortByRank (Fragment.conditions t.fragments) := by
      cases t
      rfl
    rw [heq, hconditions]
    exact ⟨rfl, sortByRank_sorted _, fun rank => filter_sortByRank rank _⟩

/-- The grammar derives a fused condition between two classes, and the reader puts it behind them. -/
theorem ofString_accepts_grammar_fused :
    ofString ".b:not(:has(item)).a" =
      { source := ".b:not(:has(item)).a"
        base := "*"
        conditions := [.hasClass "b", .hasClass "a",
          .hasNone { source := "item", base := "item", conditions := [], malformed := false }]
        malformed := false } := by
  have hitem : Derives "item".toList ⟨"item".toList, some "item".toList, []⟩ :=
    .selector (by decide) (.inr ⟨⟨by decide, List.all_eq_true.mp rfl⟩, endsName_nil⟩) rfl .nil
  have hinner : splitGroup? ')' [] none "item)".toList = some ("item".toList, []) := by decide
  have hinside := ((splitGroup?_eq_some_iff (by decide)).mp hinner).1
  have hsearch := derives_call .has hinside hitem
  have houter : splitGroup? ')' [] none ":has(item))".toList = some (":has(item)".toList, []) := by
    decide
  have hargument := ((splitGroup?_eq_some_iff (by decide)).mp houter).1
  have hb : IsPlain ".b".toList (.hasClass "b") := .hasClass ⟨by decide, List.all_eq_true.mp rfl⟩
  have ha : IsPlain ".a".toList (.hasClass "a") := .hasClass ⟨by decide, List.all_eq_true.mp rfl⟩
  have hall := DerivesAll.plain hb (.nested .not hargument hsearch (.plain ha .nil))
  have hwhole : Derives ".b:not(:has(item)).a".toList ⟨_, none, _⟩ :=
    .selector (by decide) trivial rfl hall
  exact ((ofString_accepts_grammar ".b:not(:has(item)).a").2 _ hwhole).1

end StyleCascade.Selector
