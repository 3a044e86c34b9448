/-
# StyleCascade.Proofs.Cascade.Deletion — rules that do not apply leave no trace

Rules can be taken out of a scope without changing what a node gets, if none of them applies to the node
(`Layer.cascade_filter`). Taking a rule out moves every later one to a lower position, and positions decide
ties. But the positions that the remaining rules had increase with the ones they get
(`RuleTable.filter_stampFrom`), so of any two of them the same one wins as before.

So what is collected from the whole scope is what is collected from the remaining rules, renumbered, and a
merge cannot see a renumbering that keeps the order (`Contribution.mergeAll_map`). Dynamic styles are
called for the rules that apply and for no others, in their order. Nothing is asked of the monad in which
they run.
-/
import Mathlib.Order.Monotone.Defs
import StyleCascade.Proofs.Cascade.Winner
import StyleCascade.Proofs.Rule.Filing
import StyleCascade.Proofs.StableSort

namespace StyleCascade

/-! ## Merges do not see a renumbering -/

namespace Contribution

/-- A merge does not see a change of priorities that keeps their order. -/
theorem mergeAll_map {change : Contribution → Contribution}
    (hle : ∀ c d, (change c).priority.le (change d).priority = c.priority.le d.priority)
    (hdeclaration : ∀ c, (change c).declaration = c.declaration) (cs : List Contribution) :
    mergeAll (cs.map change) = mergeAll cs := by
  have hsort : stableSort (fun a b => a.priority.le b.priority) (cs.map change) =
      (stableSort (fun a b => a.priority.le b.priority) cs).map change := stableSort_map (f := change) hle cs
  unfold mergeAll
  rw [hsort, List.foldl_map]
  simp only [hdeclaration]

/-- A contribution of one scope moved to another position in it. -/
def renumber (origin : Origin) (position : Nat → Nat) (c : Contribution) : Contribution :=
  if c.priority.origin = origin then
    { c with priority := { c.priority with order := position c.priority.order } }
  else c

@[simp] theorem declaration_renumber (origin : Origin) (position : Nat → Nat) (c : Contribution) :
    (c.renumber origin position).declaration = c.declaration := by
  unfold renumber
  split <;> rfl

/-- Positions that keep their order in one scope keep every comparison: between scopes positions do not
matter. -/
theorem le_renumber {origin : Origin} {position : Nat → Nat} (h : StrictMono position)
    (c d : Contribution) : (c.renumber origin position).priority.le (d.renumber origin position).priority =
      c.priority.le d.priority := by
  have horder := h.le_iff_le (a := c.priority.order) (b := d.priority.order)
  have hrank : ∀ {a b : Origin}, a ≠ b → a.rank ≠ b.rank :=
    fun hne heq => hne (Priority.rank_origin_injective heq)
  rw [Bool.eq_iff_iff, Priority.le_iff, Priority.le_iff]
  unfold renumber
  split <;> rename_i hc <;> split <;> rename_i hd
  · simp only [horder]
  · have := hrank fun heq => hd (heq.symm.trans hc)
    simp only
    omega
  · have := hrank fun heq => hc (heq.trans hd)
    simp only
    omega
  · rfl

theorem mergeAll_renumber {origin : Origin} {position : Nat → Nat} (h : StrictMono position)
    (cs : List Contribution) : mergeAll (cs.map (renumber origin position)) = mergeAll cs :=
  mergeAll_map (le_renumber h) (declaration_renumber origin position) cs

end Contribution

/-! ## Positions after rules were taken out -/

variable {m : Type → Type}

/-- A rule at another position. -/
def StampedRule.moveTo (position : Nat → Nat) (s : StampedRule m) : StampedRule m :=
  { s with order := position s.order }

/-- The rules that are kept stand at increasing positions of the whole list. -/
theorem RuleTable.filter_stampFrom (keep : Rule m → Bool) (start first : Nat) (rules : List (Rule m)) :
    ∃ position : Nat → Nat, (∀ i j, first ≤ i → i < j → position i < position j) ∧
      (∀ i, first ≤ i → start ≤ position i) ∧
      (stampFrom start rules).filter (fun s => keep s.rule) =
        (stampFrom first (rules.filter keep)).map (StampedRule.moveTo position) := by
  induction rules generalizing start first with
  | nil =>
      refine ⟨fun i => start + i, fun i j _ hlt => ?_, fun i _ => Nat.le_add_right _ _, rfl⟩
      exact Nat.add_lt_add_left hlt start
  | cons r rest ih =>
      by_cases hr : keep r = true
      · -- the head stays first, and what follows it is further on
        obtain ⟨position, hmono, hstart, heq⟩ := ih (start + 1) (first + 1)
        refine ⟨fun i => if i = first then start else position i, fun i j hi hlt => ?_, fun i hi => ?_, ?_⟩
        · have hj : ¬j = first := by omega
          simp only [if_neg hj]
          split
          · exact Nat.lt_of_succ_le (hstart j (by omega))
          · exact hmono i j (by omega) hlt
        · simp only
          split
          · exact Nat.le_refl _
          · exact Nat.le_of_succ_le (hstart i (by omega))
        · rw [List.filter_cons_of_pos hr, stampFrom, stampFrom, List.map_cons,
            List.filter_cons_of_pos (p := fun s : StampedRule m => keep s.rule) hr, heq]
          congr 1
          · simp [StampedRule.moveTo]
          · refine List.map_congr_left fun s hs => ?_
            have hle := le_order_of_mem_stampFrom hs
            have hne : ¬s.order = first := by omega
            simp only [StampedRule.moveTo, if_neg hne]
      · obtain ⟨position, hmono, hstart, heq⟩ := ih (start + 1) first
        refine ⟨position, hmono, fun i hi => Nat.le_of_succ_le (hstart i hi), ?_⟩
        rw [List.filter_cons_of_neg hr, stampFrom,
          List.filter_cons_of_neg (p := fun s : StampedRule m => keep s.rule) hr, heq]

/-- In a table made from a list the rules that are kept stand at increasing positions. -/
theorem RuleTable.exists_positions (keep : Rule m → Bool) (rules : List (Rule m)) :
    ∃ position : Nat → Nat, StrictMono position ∧
      (stampFrom 0 rules).filter (fun s => keep s.rule) =
        (stampFrom 0 (rules.filter keep)).map (StampedRule.moveTo position) := by
  obtain ⟨position, hmono, _, heq⟩ := filter_stampFrom keep 0 0 rules
  exact ⟨position, fun i j hlt => hmono i j (Nat.zero_le i) hlt, heq⟩

/-! ## What is collected -/

section Collecting

variable [Monad m] [LawfulMonad m]

/-- Elements for which nothing is done can be left out. -/
theorem collectM_filter {α β : Type} {action : α → m (Option β)} {p : α → Bool} {l : List α}
    (h : ∀ a ∈ l, p a = false → action a = pure none) :
    collectM action (l.filter p) = collectM action l := by
  induction l with
  | nil => rfl
  | cons a rest ih =>
      obtain ⟨ha, hrest⟩ := List.forall_mem_cons.mp h
      cases hp : p a with
      | true => rw [List.filter_cons_of_pos hp, collectM, collectM, ih hrest]
      | false =>
          rw [List.filter_cons_of_neg (by simp [hp]), collectM, ih hrest, ha hp]
          simp

/-- Where each action gives what another one gives, changed, so does the collection. -/
theorem collectM_map {α α' β β' : Type} {action : α → m (Option β)} {action' : α' → m (Option β')}
    {f : α → α'} {g : β → β'} {l : List α}
    (h : ∀ a ∈ l, action' (f a) = Option.map g <$> action a) :
    collectM action' (l.map f) = List.map g <$> collectM action l := by
  induction l with
  | nil => simp [collectM]
  | cons a rest ih =>
      obtain ⟨ha, hrest⟩ := List.forall_mem_cons.mp h
      rw [List.map_cons, collectM, collectM, ha, ih hrest]
      simp only [map_eq_pure_bind, bind_assoc, pure_bind]
      congr
      funext found
      congr
      funext more
      cases found <;> simp

namespace StampedRule

omit [LawfulMonad m] in
theorem contribution?_of_not_matches {s : StampedRule m} {n : Node} (h : s.rule.matchesNode n = false)
    (origin : Origin) (kind : RuleKind) : s.contribution? origin kind n = pure none := by
  unfold contribution?
  rw [h]
  rfl

/-- A rule at another position contributes the same under another number. -/
theorem contribution?_moveTo (origin : Origin) (kind : RuleKind) (n : Node) (position : Nat → Nat)
    (s : StampedRule m) :
    (s.moveTo position).contribution? origin kind n =
      Option.map (Contribution.renumber origin position) <$> s.contribution? origin kind n := by
  have hrule : (s.moveTo position).rule = s.rule := rfl
  unfold contribution?
  rw [hrule]
  cases s.rule.matchesNode n with
  | false => simp
  | true =>
      simp only [if_true, map_bind, map_pure, Option.map_map]
      refine bind_congr fun found => ?_
      cases found <;> simp [Contribution.renumber, moveTo]

/-- A renumbering in one scope does not touch what another one contributes. -/
theorem contribution?_renumber {origin other : Origin} (h : other ≠ origin) (kind : RuleKind) (n : Node)
    (position : Nat → Nat) (s : StampedRule m) :
    s.contribution? other kind n =
      Option.map (Contribution.renumber origin position) <$> s.contribution? other kind n := by
  unfold contribution?
  cases s.rule.matchesNode n with
  | false => simp
  | true =>
      simp only [if_true, map_bind, map_pure, Option.map_map]
      refine bind_congr fun found => ?_
      cases found <;> simp [Contribution.renumber, h]

end StampedRule

/-- Of the rules of a table those that do not apply can be left out; the others contribute the same, under
other numbers. -/
theorem collectM_filter_stampFrom {keep : Rule m → Bool} {rules : List (Rule m)} {n : Node}
    (h : ∀ r ∈ rules, keep r = false → r.matchesNode n = false) {position : Nat → Nat}
    (hposition : (RuleTable.stampFrom 0 rules).filter (fun s => keep s.rule) =
      (RuleTable.stampFrom 0 (rules.filter keep)).map (StampedRule.moveTo position))
    (origin : Origin) (kind : RuleKind) (filed : Rule m → Bool) :
    collectM (StampedRule.contribution? origin kind n)
        ((RuleTable.stampFrom 0 rules).filter fun s => filed s.rule) =
      List.map (Contribution.renumber origin position) <$>
        collectM (StampedRule.contribution? origin kind n)
          ((RuleTable.stampFrom 0 (rules.filter keep)).filter fun s => filed s.rule) := by
  have hdropped : ∀ s ∈ (RuleTable.stampFrom 0 rules).filter (fun s => filed s.rule),
      keep s.rule = false → s.contribution? origin kind n = pure none := by
    intro s hs hkeep
    have hmem : s.rule ∈ (RuleTable.stampFrom 0 rules).map fun s => s.rule :=
      List.mem_map_of_mem (List.mem_of_mem_filter hs)
    rw [RuleTable.map_rule_stampFrom] at hmem
    exact StampedRule.contribution?_of_not_matches (h s.rule hmem hkeep) origin kind
  have hmoved : ((fun s : StampedRule m => filed s.rule) ∘ StampedRule.moveTo position) =
      fun s => filed s.rule := rfl
  rw [← collectM_filter hdropped, List.filter_comm, hposition, List.filter_map, hmoved]
  exact collectM_map fun s _ => StampedRule.contribution?_moveTo origin kind n position s

namespace Layer

/-- A scope without the rules that do not apply contributes the same, under other numbers. -/
theorem contributions_filter {keep : Rule m → Bool} {rules : List (Rule m)} {n : Node}
    (h : ∀ r ∈ rules, keep r = false → r.matchesNode n = false) {position : Nat → Nat}
    (hposition : (RuleTable.stampFrom 0 rules).filter (fun s => keep s.rule) =
      (RuleTable.stampFrom 0 (rules.filter keep)).map (StampedRule.moveTo position))
    (origin : Origin) (base : String) :
    (⟨origin, .ofList rules⟩ : Layer m).contributions base n =
      List.map (Contribution.renumber origin position) <$>
        (⟨origin, .ofList (rules.filter keep)⟩ : Layer m).contributions base n := by
  have hall := RuleTable.filed_of_holds (RuleTable.holds_ofList rules)
  have hkept := RuleTable.filed_of_holds (RuleTable.holds_ofList (rules.filter keep))
  have hcollect := collectM_filter_stampFrom h hposition origin
  unfold contributions
  simp only [hall.fixed, hall.computed, hkept.fixed, hkept.computed]
  rw [hcollect .fixed fun r => !r.isComputed && r.base == base,
    hcollect .computed fun r => r.isComputed && r.base == base]
  simp only [map_eq_pure_bind, bind_assoc, pure_bind, List.map_append]

theorem contributions_renumber {origin : Origin} {layer : Layer m} (h : layer.origin ≠ origin)
    (position : Nat → Nat) (base : String) (n : Node) :
    layer.contributions base n =
      List.map (Contribution.renumber origin position) <$> layer.contributions base n := by
  have hcollect (kind : RuleKind) (rules : List (StampedRule m)) :
      collectM (StampedRule.contribution? layer.origin kind n) rules =
        List.map (Contribution.renumber origin position) <$>
          collectM (StampedRule.contribution? layer.origin kind n) rules := by
    have := collectM_map (f := id) (g := Contribution.renumber origin position) (l := rules)
      fun s _ => StampedRule.contribution?_renumber h kind n position s
    rwa [List.map_id] at this
  unfold contributions
  conv_lhs => rw [hcollect .fixed, hcollect .computed]
  simp only [map_eq_pure_bind, bind_assoc, pure_bind, List.map_append]

theorem contributionsUnder_map {change : Contribution → Contribution} {n : Node} {base : String}
    {layers others : List (Layer m)}
    (h : List.Forall₂ (fun layer other => layer.contributions base n =
      List.map change <$> other.contributions base n) layers others) :
    contributionsUnder n base layers = List.map change <$> contributionsUnder n base others := by
  induction h with
  | nil => simp [contributionsUnder]
  | cons hlayer _ ih =>
      rw [contributionsUnder, contributionsUnder, hlayer, ih]
      simp only [map_eq_pure_bind, bind_assoc, pure_bind, List.map_append]

theorem contributionsUnderAll_map {change : Contribution → Contribution} {n : Node}
    {layers others : List (Layer m)}
    (h : ∀ base, contributionsUnder n base layers = List.map change <$> contributionsUnder n base others)
    (bases : List String) : contributionsUnderAll layers n bases =
      List.map change <$> contributionsUnderAll others n bases := by
  induction bases with
  | nil => simp [contributionsUnderAll]
  | cons base rest ih =>
      rw [contributionsUnderAll, contributionsUnderAll, h, ih]
      simp only [map_eq_pure_bind, bind_assoc, pure_bind, List.map_append]

/-- Rules that do not apply to a node can be taken out of a scope, between whatever other scopes. -/
theorem cascade_filter {before after : List (Layer m)} {origin : Origin}
    (hbefore : ∀ layer ∈ before, layer.origin ≠ origin) (hafter : ∀ layer ∈ after, layer.origin ≠ origin)
    {keep : Rule m → Bool} {rules : List (Rule m)} {n : Node}
    (h : ∀ r ∈ rules, keep r = false → r.matchesNode n = false) (bases : List String) :
    cascade (before ++ ⟨origin, .ofList (rules.filter keep)⟩ :: after) bases n =
      cascade (before ++ ⟨origin, .ofList rules⟩ :: after) bases n := by
  obtain ⟨position, hmono, hposition⟩ := RuleTable.exists_positions keep rules
  have hothers {layers : List (Layer m)} (hne : ∀ layer ∈ layers, layer.origin ≠ origin)
      (base : String) : List.Forall₂ (fun layer other => layer.contributions base n =
        List.map (Contribution.renumber origin position) <$> other.contributions base n)
        layers layers :=
    List.forall₂_same.mpr fun layer hlayer => contributions_renumber (hne layer hlayer) position base n
  have hunder (base : String) :
      contributionsUnder n base (before ++ ⟨origin, .ofList rules⟩ :: after) =
        List.map (Contribution.renumber origin position) <$>
          contributionsUnder n base (before ++ ⟨origin, .ofList (rules.filter keep)⟩ :: after) :=
    contributionsUnder_map <| List.rel_append (hothers hbefore base) <|
      .cons (contributions_filter h hposition origin base) (hothers hafter base)
  unfold cascade
  rw [contributionsUnderAll_map hunder]
  simp only [map_eq_pure_bind, bind_assoc, pure_bind, Contribution.mergeAll_renumber hmono]

end Layer

end Collecting

end StyleCascade
