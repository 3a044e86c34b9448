/-
# StyleCascade.Proofs.Variables.Termination — filling in variables comes to an end

`substituteOn` gives no reason why it should end. `substitute_ends` says that there is always a result, and that it
is the one of `Variables.substitute`, also for variables that refer to themselves or to each other. The stack
records every push (`Stack.pushes`), so it can be said what is pushed: never a name that is on the stack, and never
more names than there are variables.

A call is described by `Ends`: what it gives on a stack, that it leaves the stack as it found it, and that
its pushes go on top of that stack. Sequencing keeps this (`ends_bind`), and so does expanding below a
pushed name (`ends_below`); the three mutual readings then follow the recursion of `Variables.expand`.
-/
import Mathlib.Data.List.Perm.Subperm
import StyleCascade.Variables.Stack

namespace StyleCascade

namespace Variables

/-! ## What calls do to the stack -/

/-- The names are those of variables that are set, each of them once. -/
structure Names (vars : Variables) (names : List String) : Prop where
  nodup : names.Nodup
  set : ∀ name ∈ names, (vars.get? name).isSome = true

/-- A push made while some names are being expanded: it goes on top of these, its name is not on the stack,
and with it the stack still names variables, each of them once. -/
structure Push.On (vars : Variables) (active : List String) (p : Push) : Prop where
  onTop : active <:+ p.below
  new : p.name ∉ p.below
  names : vars.Names active → vars.Names (p.name :: p.below)

/-- On a stack with the names `active` a computation ends with a value. It leaves the stack as it found it,
and what it pushed meanwhile it pushed on top of that. -/
def Ends {α : Type} (vars : Variables) (active : List String) (x : StateT Stack Option α) (a : α) : Prop :=
  ∀ pushes, ∃ more, x.run ⟨active, pushes⟩ = some (a, ⟨active, pushes ++ more⟩) ∧
    ∀ p ∈ more, p.On vars active

variable {vars : Variables} {active : List String} {α β : Type}

/-- There are no more names than variables. -/
theorem Names.length_le {names : List String} (h : vars.Names names) : names.length ≤ vars.size := by
  have hsub : names ⊆ vars.toList.map (·.1) := by
    intro name hname
    obtain ⟨value, hvalue⟩ := Option.isSome_iff_exists.mp (h.set name hname)
    exact List.mem_map.mpr ⟨(name, value), Declaration.get?_eq_some_iff.mp hvalue, rfl⟩
  have hle := (List.subperm_of_subset h.nodup hsub).length_le
  rwa [List.length_map] at hle

theorem ends_pure (a : α) : vars.Ends active (pure a) a :=
  fun pushes => ⟨[], by rw [List.append_nil]; rfl, by simp⟩

/-- One call after the other: the second starts on the stack that the first leaves, which is the same. -/
theorem ends_bind {x : StateT Stack Option α} {f : α → StateT Stack Option β} {a : α} {b : β}
    (hx : vars.Ends active x a) (hf : vars.Ends active (f a) b) : vars.Ends active (x >>= f) b := by
  intro pushes
  obtain ⟨first, hfirst, hon⟩ := hx pushes
  obtain ⟨second, hsecond, hon'⟩ := hf (pushes ++ first)
  refine ⟨first ++ second, ?_, ?_⟩
  · rw [StateT.run_bind, hfirst, Option.bind_eq_bind, Option.bind_some, hsecond, List.append_assoc]
  · intro p hp
    exact (List.mem_append.mp hp).elim (hon p) (hon' p)

/-- A push on top of a longer stack is one on top of a shorter stack. -/
theorem Push.On.of_cons {name : String} {p : Push} (h : p.On vars (name :: active)) (hnew : name ∉ active)
    (hset : (vars.get? name).isSome = true) : p.On vars active where
  onTop := (List.suffix_cons name active).trans h.onTop
  new := h.new
  names := fun hactive => h.names
    ⟨List.nodup_cons.mpr ⟨hnew, hactive.nodup⟩, List.forall_mem_cons.mpr ⟨hset, hactive.set⟩⟩

/-- Below a pushed name a call runs on the longer stack, and the name is popped after it. -/
theorem ends_below {name : String} {x : StateT Stack Option α} {a : α} (hnew : name ∉ active)
    (hset : (vars.get? name).isSome = true) (hx : vars.Ends (name :: active) x a) (f : α → β) :
    vars.Ends active (do Stack.push name; let a ← x; Stack.pop; return f a) (f a) := by
  intro pushes
  obtain ⟨more, hmore, hon⟩ := hx (pushes ++ [⟨name, active⟩])
  refine ⟨⟨name, active⟩ :: more, ?_, List.forall_mem_cons.mpr ⟨?_, fun p hp => ?_⟩⟩
  · have hpush : (Stack.push name).run ⟨active, pushes⟩ =
        some ((), ⟨name :: active, pushes ++ [⟨name, active⟩]⟩) := rfl
    simp only [StateT.run_bind, hpush, Option.bind_eq_bind, Option.bind_some, hmore]
    rw [List.append_assoc]
    rfl
  · exact ⟨List.suffix_refl active, hnew, fun hactive =>
      ⟨List.nodup_cons.mpr ⟨hnew, hactive.nodup⟩, List.forall_mem_cons.mpr ⟨hset, hactive.set⟩⟩⟩
  · exact (hon p hp).of_cons hnew hset

/-! ## Every call ends -/

theorem get?_of_named? {inside : List Char} {value : Value} (h : vars.named? inside = some value) :
    vars.get? (Reference.name inside) = some value := by
  unfold named? at h
  split at h
  · exact h
  · exact absurd h (by simp)

/-- What a reference stands for, by the variable that it names. -/
theorem referent_eq (inside : List Char) :
    vars.referent active inside =
      match vars.named? inside with
      | none => vars.fallback active inside
      | some value =>
        if Reference.name inside ∈ active then vars.fallback active inside
        else
          match value with
          | .number n => .number n
          | .text text =>
            .text (String.ofList (vars.expand (Reference.name inside :: active) text.toList)) := by
  rw [referent]
  split <;> rename_i h
  · rw [show vars.named? inside = _ from h]
  · rw [show vars.named? inside = _ from h]
    rfl
  · rw [show vars.named? inside = _ from h]

/-- A reference to a name that is being expanded stands for its fallback, whatever the name is. -/
theorem referent_of_mem {inside : List Char} (h : Reference.name inside ∈ active) :
    vars.referent active inside = vars.fallback active inside := by
  rw [referent_eq]
  cases vars.named? inside with
  | none => rfl
  | some value => exact if_pos h

/-- On a known stack a reference is looked up without asking the stack. -/
theorem run_referentOn (inside : List Char) (pushes : List Push) :
    (vars.referentOn inside).run ⟨active, pushes⟩ =
      (match vars.named? inside with
        | none => vars.fallbackOn inside
        | some value =>
          if Reference.name inside ∈ active then vars.fallbackOn inside
          else
            match value with
            | .number n => pure (.number n)
            | .text text => do
              Stack.push (Reference.name inside)
              let expanded ← vars.expandOn text.toList
              Stack.pop
              return .text (String.ofList expanded)).run ⟨active, pushes⟩ := by
  rw [referentOn]
  cases vars.named? inside <;> rfl

/-- A reference to no variable, or to a name on the stack, ends as its fallback does. -/
theorem ends_referentOn_of_fallback {inside : List Char} {value : Value}
    (h : vars.named? inside = none ∨ Reference.name inside ∈ active)
    (hfallback : vars.Ends active (vars.fallbackOn inside) value) :
    vars.Ends active (vars.referentOn inside) value := by
  intro pushes
  rw [run_referentOn]
  rcases h with h | h
  · rw [h]
    exact hfallback pushes
  · cases hnamed : vars.named? inside with
    | none => exact hfallback pushes
    | some found =>
        simp only [if_pos h]
        exact hfallback pushes

theorem ends_referentOn_of_number {inside : List Char} {n : Number}
    (h : vars.named? inside = some (.number n)) (hnew : Reference.name inside ∉ active) :
    vars.Ends active (vars.referentOn inside) (.number n) := by
  intro pushes
  rw [run_referentOn, h]
  simp only [if_neg hnew]
  exact ends_pure _ pushes

/-- A variable that is not being expanded yet has its text expanded on the stack with its name on top. -/
theorem ends_referentOn_of_text {inside : List Char} {text : String} {expanded : List Char}
    (h : vars.named? inside = some (.text text)) (hnew : Reference.name inside ∉ active)
    (hexpand : vars.Ends (Reference.name inside :: active) (vars.expandOn text.toList) expanded) :
    vars.Ends active (vars.referentOn inside) (.text (String.ofList expanded)) := by
  intro pushes
  rw [run_referentOn, h]
  simp only [if_neg hnew]
  have hset : (vars.get? (Reference.name inside)).isSome = true := by
    rw [get?_of_named? h]
    rfl
  exact ends_below hnew hset hexpand (fun expanded => Value.text (String.ofList expanded)) pushes

/-- Every call ends with what the recursion by a measure gives. The induction follows that recursion. -/
theorem ends_calls (vars : Variables) :
    (∀ active text, vars.Ends active (vars.expandOn text) (vars.expand active text)) ∧
    (∀ active inside, vars.Ends active (vars.referentOn inside) (vars.referent active inside)) ∧
    (∀ active inside, vars.Ends active (vars.fallbackOn inside) (vars.fallback active inside)) := by
  refine expand.mutual_induct vars _ _ _ ?plain ?reference ?numberAgain ?number ?textAgain ?text ?unnamed
    ?noFallback ?fallback
  case plain =>
    intro active text hfirst
    rw [expandOn, expand, hfirst]
    exact ends_pure text
  case reference =>
    intro active text head inside tail hfirst hreferent htail
    rw [expandOn, expand, hfirst]
    exact ends_bind hreferent (ends_bind htail (ends_pure _))
  case numberAgain =>
    intro active inside name n _ hmem hfallback
    rw [referent_of_mem hmem]
    exact ends_referentOn_of_fallback (.inr hmem) hfallback
  case number =>
    intro active inside name n hnamed hnew
    have hfound : vars.named? inside = some (.number n) := hnamed
    rw [referent_eq, hfound]
    simp only [show Reference.name inside ∉ active from hnew, if_false]
    exact ends_referentOn_of_number hfound hnew
  case textAgain =>
    intro active inside name text _ hmem hfallback
    rw [referent_of_mem hmem]
    exact ends_referentOn_of_fallback (.inr hmem) hfallback
  case text =>
    intro active inside name text hnamed hnew hexpand
    have hfound : vars.named? inside = some (.text text) := hnamed
    rw [referent_eq, hfound]
    simp only [show Reference.name inside ∉ active from hnew, if_false]
    exact ends_referentOn_of_text hfound hnew hexpand
  case unnamed =>
    intro active inside name hnamed hfallback
    have hfound : vars.named? inside = none := hnamed
    rw [referent_eq, hfound]
    exact ends_referentOn_of_fallback (.inl hfound) hfallback
  case noFallback =>
    intro active inside hnone
    rw [fallbackOn, fallback, hnone]
    exact ends_pure _
  case fallback =>
    intro active inside text hsome hexpand
    rw [fallbackOn, fallback, hsome]
    exact ends_bind hexpand (ends_pure _)

theorem ends_substituteOn (vars : Variables) (value : Value) :
    vars.Ends [] (vars.substituteOn value) (vars.substitute value) := by
  obtain ⟨hexpand, hreferent, -⟩ := ends_calls vars
  unfold substituteOn substitute
  cases value with
  | number n => exact ends_pure _
  | text text =>
      dsimp only
      split
      · cases Reference.whole? (Text.trim text.toList) with
        | none => exact ends_bind (hexpand [] _) (ends_pure _)
        | some inside => exact hreferent [] inside
      · exact ends_pure _

/-- Filling in variables ends for every value, whatever the variables refer to, and leaves the stack empty.
A name is never pushed while it is on the stack, so the stack never holds more names than there are
variables. A reference to a name on the stack gives its own fallback, filled in on that stack, or the empty
text, and the variable is not taken up again for it. -/
theorem substitute_ends (vars : Variables) (value : Value) :
    (∃ pushes, (vars.substituteOn value).run {} = some (vars.substitute value, ⟨[], pushes⟩) ∧
      ∀ p ∈ pushes, p.name ∉ p.below ∧ (p.name :: p.below).length ≤ vars.size) ∧
    ∀ (active : List String) (inside : List Char) (pushes : List Push), Reference.name inside ∈ active →
      ∃ more, (vars.referentOn inside).run ⟨active, pushes⟩ =
          some (match Reference.fallback? inside with
            | none => .text ""
            | some text => .text (String.ofList (vars.expand active text)), ⟨active, pushes ++ more⟩) ∧
        ∀ p ∈ more, p.name ∉ p.below ∧ p.name ≠ Reference.name inside := by
  refine ⟨?_, fun active inside pushes hmem => ?_⟩
  · obtain ⟨pushes, hrun, hon⟩ := ends_substituteOn vars value []
    refine ⟨pushes, hrun, fun p hp => ⟨(hon p hp).new, ?_⟩⟩
    exact ((hon p hp).names ⟨List.nodup_nil, by simp⟩).length_le
  · obtain ⟨more, hrun, hon⟩ := (ends_calls vars).2.1 active inside pushes
    refine ⟨more, ?_, fun p hp => ⟨(hon p hp).new, fun heq => ?_⟩⟩
    · rw [hrun, referent_of_mem hmem, fallback]
      cases Reference.fallback? inside <;> rfl
    · -- the stack it is pushed on has that name already
      exact (hon p hp).new (heq ▸ (hon p hp).onTop.subset hmem)

/-- Two variables that refer to each other: the reference that closes the cycle gives its fallback. -/
theorem substitute_ends_cycle :
    let vars : Variables := ⟨.ofList [("--a", .text "var(--b)"), ("--b", .text "var(--a, y)")]⟩
    let inside := "--a, y".toList
    (∃ pushes, (vars.substituteOn (.text "var(--a)")).run {} =
        some (vars.substitute (.text "var(--a)"), ⟨[], pushes⟩)) ∧
      Reference.name inside ∈ ["--b", "--a"] ∧
      ∃ more, (vars.referentOn inside).run ⟨["--b", "--a"], []⟩ =
          some (.text "y", ⟨["--b", "--a"], more⟩) ∧
        ∀ p ∈ more, p.name ∉ p.below ∧ p.name ≠ Reference.name inside := by
  intro vars inside
  have hmem : Reference.name inside ∈ ["--b", "--a"] := by decide +kernel
  have hfallback : Reference.fallback? inside = some ['y'] := by decide +kernel
  have hplain : vars.expand ["--b", "--a"] ['y'] = ['y'] := by
    rw [expand]
    rfl
  obtain ⟨⟨pushes, hrun, -⟩, hcycle⟩ := substitute_ends vars (.text "var(--a)")
  obtain ⟨more, hreferent, hmore⟩ := hcycle _ inside [] hmem
  refine ⟨⟨pushes, hrun⟩, hmem, more, ?_, hmore⟩
  rw [hreferent, hfallback, List.nil_append]
  simp only [hplain]

end Variables

end StyleCascade
