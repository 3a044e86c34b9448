/-
# StyleCascade.Proofs.Selector.Termination — reading selectors comes to an end

`read` was accepted because a measure drops with every call. `parse` and `compile` give no reason why they should
end. `parse_ends` says that there is always a result, whatever is remembered at the start. Three things carry it: a
fragment has at least one byte and ends in the text, so the place goes up and stays in it; a bracket that closes
stands behind the one that it closes; and a text that is given to `compile` is shorter than the one in which it is
an argument. The memory records every call, so that the last can be said of all calls of a run.

A procedure is described by `Ends`: what it gives, what it adds to the calls, and that it remembers nothing wrong.
Sequencing keeps this (`ends_bind`), and the proofs follow the procedures from the inside out.
-/
import StyleCascade.Proofs.Keyed
import StyleCascade.Proofs.Selector.Acceptance
import StyleCascade.Proofs.Selector.Cursor
import StyleCascade.Selector.Compile

namespace StyleCascade.Selector

open Text (byteSize offset)

open Source

/-! ## What runs do to the memory -/

/-- What is asked for is shorter, in bytes, than the selector being read. -/
def Call.Shrinks (call : Call) : Prop :=
  byteSize call.argument < byteSize call.selector

/-- The calls go on with calls for shorter texts. -/
def Memory.GoesOn (memory after : Memory) : Prop :=
  ∃ calls, after.calls = memory.calls ++ calls ∧ ∀ call ∈ calls, call.Shrinks

/-- What is remembered of a text is its selector. -/
def Memory.Faithful (memory : Memory) : Prop :=
  ∀ e ∈ memory.known, e.2 = read e.1

/-- From every memory a run ends, and its calls are for shorter texts. With a faithful memory it gives `a`, and
leaves the memory faithful. -/
def Ends {α : Type} (x : Run α) (a : α) : Prop :=
  ∀ memory, ∃ b after, x.run memory = some (b, after) ∧ memory.GoesOn after ∧
    (memory.Faithful → b = a ∧ after.Faithful)

variable {α β : Type}

theorem Memory.GoesOn.refl (memory : Memory) : memory.GoesOn memory :=
  ⟨[], (List.append_nil _).symm, by simp⟩

theorem Memory.GoesOn.trans {memory middle after : Memory} (h : memory.GoesOn middle) (h' : middle.GoesOn after) :
    memory.GoesOn after := by
  obtain ⟨first, hfirst, hshrink⟩ := h
  obtain ⟨second, hsecond, hshrink'⟩ := h'
  refine ⟨first ++ second, by rw [hsecond, hfirst, List.append_assoc], fun call hcall => ?_⟩
  exact (List.mem_append.mp hcall).elim (hshrink call) (hshrink' call)

theorem ends_pure (a : α) : Ends (pure a) a :=
  fun memory => ⟨a, memory, rfl, .refl memory, fun h => ⟨rfl, h⟩⟩

/-- One run after the other. The second has to end whatever the first gives, as that may have been remembered. -/
theorem ends_bind {x : Run α} {f : α → Run β} {a : α} {g : α → β} (hx : Ends x a) (hf : ∀ b, Ends (f b) (g b)) :
    Ends (x >>= f) (g a) := by
  intro memory
  obtain ⟨b, middle, hfirst, hgoes, hright⟩ := hx memory
  obtain ⟨c, after, hsecond, hgoes', hright'⟩ := hf b middle
  refine ⟨c, after, ?_, hgoes.trans hgoes', fun h => ?_⟩
  · rw [StateT.run_bind, hfirst, Option.bind_eq_bind, Option.bind_some, hsecond]
  · obtain ⟨rfl, hmiddle⟩ := hright h
    exact hright' hmiddle

/-- A run that may find something, and what comes after it in either case. -/
theorem ends_elim {x : Run (Option α)} {f : Option α → Run β} {a : Option α} {b : β} {g : α → β} (hx : Ends x a)
    (hnone : Ends (f none) b) (hsome : ∀ c, Ends (f (some c)) (g c)) : Ends (x >>= f) (a.elim b g) :=
  ends_bind (g := fun a => a.elim b g) hx fun a =>
    match a with
    | none => hnone
    | some c => hsome c

/-- What a loop over the bytes gives is given without touching the memory. -/
theorem lift_some (a : α) : (liftM (some a) : Run α) = pure a :=
  rfl

theorem ends_record {call : Call} (h : call.Shrinks) : Ends (record call) () :=
  fun memory => ⟨(), _, rfl, ⟨[call], rfl, by simpa using h⟩, fun hright => ⟨rfl, hright⟩⟩

/-- On a known memory a selector is kept without asking the memory. -/
theorem run_keep (text : List Char) (selector : Selector) (memory : Memory) :
    (keep text selector).run memory =
      some (match memory.known.lookup text with
        | some kept => (kept, memory)
        | none => (selector, { memory with known := (text, selector) :: memory.known })) :=
  rfl

/-- On a known memory a text is looked up without asking the memory. -/
theorem run_compile (text : List Char) (memory : Memory) :
    (compile text).run memory =
      (match memory.known.lookup text with
        | some selector => pure selector
        | none => parse text >>= keep text : Run Selector).run memory := by
  rw [compile]
  rfl

/-- What is kept or was remembered meanwhile is what was to be read. -/
theorem ends_keep {x : Run Selector} {text : List Char} (hx : Ends x (read text)) :
    Ends (x >>= keep text) (read text) := by
  intro memory
  obtain ⟨selector, middle, hrun, hgoes, hright⟩ := hx memory
  rw [StateT.run_bind, hrun, Option.bind_eq_bind, Option.bind_some, run_keep]
  cases hlookup : middle.known.lookup text with
  | some kept =>
      exact ⟨kept, middle, rfl, hgoes, fun h => ⟨(hright h).2 _ (Keyed.mem_of_lookup hlookup), (hright h).2⟩⟩
  | none =>
      refine ⟨selector, _, rfl, hgoes, fun h => ⟨(hright h).1, ?_⟩⟩
      intro e he
      rcases List.mem_cons.mp he with rfl | he
      · exact (hright h).1
      · exact (hright h).2 e he

/-- A text is compiled by looking it up, or else by reading it. -/
theorem ends_compile_of_parse {text : List Char} (h : Ends (parse text) (read text)) :
    Ends (compile text) (read text) := by
  intro memory
  rw [run_compile]
  cases hlookup : memory.known.lookup text with
  | some selector =>
      exact ⟨selector, memory, rfl, .refl memory, fun h => ⟨h _ (Keyed.mem_of_lookup hlookup), h⟩⟩
  | none => exact ends_keep h memory

/-! ## What is done with a piece -/

theorem takeCondition_of_none {source : List Char} {index : Nat} (h : takePiece source index = some none) :
    takeCondition source index = pure none := by
  rw [takeCondition, h, lift_some, pure_bind]

theorem takeCondition_of_some {source : List Char} {index next : Nat} {piece : Piece}
    (h : takePiece source index = some (some (piece, next))) :
    takeCondition source index = do
      let condition ← compilePiece source piece
      return condition.map fun c => (c, next) := by
  rw [takeCondition, h, lift_some, pure_bind]

theorem splitBase_suffix (cs : List Char) : (splitBase cs).2 <:+ cs := by
  fun_cases splitBase cs
  · exact List.suffix_cons _ _
  · exact List.suffix_refl cs
  · exact List.dropWhile_suffix isNameChar

theorem sublist_call (word : String) (argument : List Char) : argument.Sublist (call word argument) := by
  have hinside : argument.Sublist ('(' :: (argument ++ [')'])) := (List.sublist_append_left argument _).cons _
  exact (hinside.trans (List.sublist_append_right _ _)).cons _

/-! ## Every run ends

The texts that are shorter than the one being read are taken to be compiled with an end. -/

section

variable {source : List Char} (hcompile : ∀ text, byteSize text < byteSize source → Ends (compile text) (read text))

include hcompile

theorem ends_compileInner {text : List Char} (wrap : Selector → Condition)
    (hshort : byteSize (Text.trim text) < byteSize source) :
    Ends (compileInner source wrap text) (conditionOn? wrap (read (Text.trim text))) := by
  rw [compileInner]
  exact ends_bind (g := fun _ => _) (ends_record hshort) fun _ =>
    ends_bind (hcompile _ hshort) fun inner => ends_pure _

/-- Both the argument and the argument of a call in it are shorter than the text. -/
theorem ends_compileNested {argument : List Char} (nesting : Nesting) (htrim : Text.trim argument = argument)
    (hshort : byteSize argument < byteSize source) :
    Ends (compileNested source nesting argument) (readCondition? (nesting.piece argument)) := by
  rw [compileNested, takeWholeCall_eq, lift_some, pure_bind, readCondition?_nested]
  cases hcall : wholeCall? nesting.other.word.toList argument with
  | some inner =>
      obtain ⟨-, rfl⟩ := wholeCall?_eq_some_iff.mp hcall
      refine ends_compileInner hcompile .hasNone (Nat.lt_of_le_of_lt ?_ hshort)
      exact (Text.byteSize_trim_le inner).trans (Text.byteSize_le_of_sublist (sublist_call _ inner))
  | none =>
      have hinner : byteSize (Text.trim argument) < byteSize source := by rwa [htrim]
      have h := ends_compileInner hcompile nesting.wrap hinner
      rwa [htrim] at h

theorem ends_compilePiece {piece : Piece} (hshort : piece.IsShort source) :
    Ends (compilePiece source piece) (readCondition? piece) := by
  rw [compilePiece.eq_def]
  cases piece with
  | plain condition =>
      rw [readCondition?]
      exact ends_pure _
  | negation argument => exact ends_compileNested hcompile .not hshort.1 hshort.2
  | search argument => exact ends_compileNested hcompile .has hshort.1 hshort.2

/-- Behind a condition the place goes on with the rest of the text, which is shorter. -/
theorem ends_takeConditions {rest : List Char} (h : rest <:+ source) (found : List Condition) :
    Ends (takeConditions source (offset source rest) found)
      (found ++ (readConditions rest).1, (readConditions rest).2) := by
  rcases Decidable.eq_or_ne rest [] with rfl | hrest
  · have hend : byteSize source ≤ offset source [] := ((Text.offset_eq_byteSize_iff h).mpr rfl).ge
    rw [takeConditions, if_pos hend, readConditions_of_none rfl, List.append_nil]
    exact ends_pure _
  · have hinside : ¬byteSize source ≤ offset source rest := by
      intro hle
      exact hrest ((Text.offset_eq_byteSize_iff h).mp (Nat.le_antisymm (Nat.sub_le _ _) hle))
    have htake := takePiece_eq h
    rw [takeConditions, if_neg hinside]
    cases hpiece : readPiece? rest with
    | none =>
        rw [hpiece] at htake
        have hleft : rest.isEmpty = false := List.isEmpty_eq_false_iff.mpr hrest
        rw [takeCondition_of_none htake, pure_bind, readConditions_of_none hpiece, hleft, List.append_nil]
        exact ends_pure _
    | some taken =>
        obtain ⟨piece, after⟩ := taken
        have hshort := isShort_of_readPiece? h hpiece
        rw [hpiece] at htake
        obtain ⟨text, rfl, -⟩ := isPiece_of_readPiece? hpiece
        have hshorter := (length_of_readPiece? hpiece).2
        have hafter : after <:+ source := (List.suffix_append text after).trans h
        -- the place behind the piece does not depend on what is made of it
        have hgoesOn : (found ++ (readConditions (text ++ after)).1, (readConditions (text ++ after)).2) =
            (readCondition? piece).elim (found, false) fun c =>
              (found ++ [c] ++ (readConditions after).1, (readConditions after).2) := by
          rw [readConditions_of_some hpiece]
          cases readCondition? piece <;> simp
        rw [hgoesOn, takeCondition_of_some htake, bind_assoc]
        exact ends_elim (ends_compilePiece hcompile hshort) (ends_pure _) fun c =>
          ends_takeConditions hafter (found ++ [c])
termination_by rest.length

theorem ends_parse : Ends (parse source) (read source) := by
  rw [parse, takeBase_eq, lift_some, pure_bind, read]
  exact ends_bind (ends_takeConditions hcompile (splitBase_suffix source) []) fun found => ends_pure _

end

theorem ends_compile (text : List Char) : Ends (compile text) (read text) :=
  ends_compile_of_parse (ends_parse fun shorter _ => ends_compile shorter)
termination_by byteSize text

/-- Reading a selector ends for every text, whatever is remembered, and every selector that is asked for meanwhile
is that of a text shorter than the one it is asked for in. What is read is the selector of the text, if nothing
wrong was remembered. A condition that is taken goes on for at least one byte and ends in the text, from every
place, and a closing bracket that is found is behind the opening one and in the text. -/
theorem parse_ends (s : String) (memory : Memory) :
    (∃ selector after, (parse s.toList).run memory = some (selector, after) ∧ memory.GoesOn after ∧
      (memory.Faithful → selector = ofString s ∧ after.Faithful)) ∧
    (∀ index, ∃ found after, (takeCondition s.toList index).run memory = some (found, after) ∧
      memory.GoesOn after ∧
      ∀ condition next, found = some (condition, next) → index < next ∧ next ≤ s.utf8ByteSize) ∧
    ∀ opener, ∃ found, closing s.toList opener = some found ∧
      ∀ closer, found = some closer → opener < closer ∧ closer < s.utf8ByteSize := by
  rw [← Text.byteSize_toList]
  refine ⟨ends_parse (fun text _ => ends_compile text) memory, fun index => ?_, finds_closing s.toList⟩
  obtain ⟨found, hfound, hbounds⟩ := finds_takePiece s.toList index
  cases found with
  | none =>
      rw [takeCondition_of_none hfound]
      exact ⟨none, memory, rfl, .refl memory, nofun⟩
  | some taken =>
      obtain ⟨piece, next⟩ := taken
      obtain ⟨hlow, hhigh, hshort⟩ := hbounds (piece, next) rfl
      obtain ⟨condition, after, hrun, hgoes, -⟩ := ends_compilePiece (fun text _ => ends_compile text) hshort memory
      refine ⟨condition.map fun c => (c, next), after, ?_, hgoes, fun c place heq => ?_⟩
      · rw [takeCondition_of_some hfound, StateT.run_bind, hrun]
        rfl
      · obtain ⟨_, -, hpair⟩ := Option.map_eq_some_iff.mp heq
        obtain ⟨-, rfl⟩ := Prod.mk.inj hpair
        exact ⟨hlow, hhigh⟩

/-- A letter of two bytes stands before the bracket that closes, and both words of a fused condition are read. -/
theorem parse_ends_fused :
    let s := "li[title=é]:not( :has(b) )"
    (∃ after, (parse s.toList).run {} = some (ofString s, after) ∧ after.Faithful ∧
        ∀ call ∈ after.calls, call.Shrinks) ∧
      closing s.toList 2 = some (some 11) ∧ 2 < 11 ∧ 11 < s.utf8ByteSize := by
  intro s
  obtain ⟨⟨selector, after, hrun, ⟨calls, hcalls, hshrink⟩, hright⟩, -, hclosing⟩ := parse_ends s {}
  obtain ⟨rfl, hfaithful⟩ := hright (by simp [Memory.Faithful])
  have heleven : closing s.toList 2 = some (some 11) := by
    have hsuffix : '[' :: "title=é]:not( :has(b) )".toList <:+ s.toList := by decide +kernel
    have hplace : offset s.toList ('[' :: "title=é]:not( :has(b) )".toList) = 2 := by decide +kernel
    have hgroup : (splitGroup? ']' [] none "title=é]:not( :has(b) )".toList).map (closerPlace s.toList) =
        some 11 := by decide +kernel
    rw [← hplace, closing_eq hsuffix rfl, hgroup]
  obtain ⟨found, hfound, hbounds⟩ := hclosing 2
  obtain rfl := Option.some.inj (hfound.symm.trans heleven)
  exact ⟨⟨after, hrun, hfaithful, by rwa [hcalls]⟩, heleven, hbounds 11 rfl⟩

end StyleCascade.Selector
