/-
# StyleCascade.Proofs.Resolver.Memory — what asking a resolver does to its memory

A memo that was only ever written by storing answers that it did not have is well kept
(`Memo.WellKept`): it stays within its capacity, all its answers are of the generation it is marked with,
and no request stands in it twice.

Asking a resolver either finds the answer and changes nothing, or computes one and stores it. Storing an
answer drops all others if they are of another generation or as many as there is room for
(`Resolver.Overflows`). So what is remembered after asking is the answer just computed, if one was, and
what was remembered before, if it was not dropped (`Resolver.mem_answers_resolve`).
-/
import StyleCascade.Proofs.Keyed
import StyleCascade.Resolver.Basic

namespace StyleCascade

/-! ## Memos -/

namespace Memo

variable {α : Type} {memo : Memo α} {capacity : Nat} {request : Request} {answer : α}
  {e : Request × α}

theorem mem_of_get? (h : memo.get? request = some answer) : (request, answer) ∈ memo.answers :=
  Keyed.mem_of_lookup h

/-- After an answer is stored, a memo remembers it and what it remembered before, unless that is of another
generation or leaves no room. -/
theorem mem_store_iff (hcapacity : 0 < capacity) :
    e ∈ (memo.store capacity request answer).answers ↔ e = (request, answer) ∨
      (e ∈ memo.answers ∧ memo.generation = some request.generation ∧ memo.size < capacity) := by
  rw [store, if_neg (Nat.ne_of_gt hcapacity)]
  show e ∈ (request, answer) :: (memo.makeRoom capacity request.generation).answers ↔ _
  rw [List.mem_cons, makeRoom]
  split
  · rename_i hroom
    rw [and_iff_left hroom]
  · rename_i hroom
    simp [hroom]

/-- What a memo remembers after an answer is stored is that answer or was remembered before. -/
theorem mem_of_mem_store (h : e ∈ (memo.store capacity request answer).answers) :
    e = (request, answer) ∨ e ∈ memo.answers := by
  rcases Nat.eq_zero_or_pos capacity with hzero | hcapacity
  · rw [store, if_pos hzero] at h
    exact .inr h
  · exact ((mem_store_iff hcapacity).mp h).imp_right And.left

/-- The memo stays within a capacity, is marked with the generation of its answers, and has no request
twice. -/
structure WellKept (memo : Memo α) (capacity : Nat) : Prop where
  bounded : memo.size ≤ capacity
  generation : ∀ e ∈ memo.answers, memo.generation = some e.1.generation
  distinct : (memo.answers.map fun e => e.1).Nodup

theorem wellKept_empty (capacity : Nat) : ({} : Memo α).WellKept capacity :=
  ⟨Nat.zero_le _, nofun, List.nodup_nil⟩

theorem get?_eq_some_iff (h : memo.WellKept capacity) :
    memo.get? request = some answer ↔ (request, answer) ∈ memo.answers :=
  Keyed.lookup_eq_some_iff h.distinct

/-- Storing an answer that is not there keeps a memo well. -/
theorem wellKept_store (h : memo.WellKept capacity) (hnew : memo.get? request = none) (answer : α) :
    (memo.store capacity request answer).WellKept capacity := by
  rcases Nat.eq_zero_or_pos capacity with hzero | hcapacity
  · rw [store, if_pos hzero]
    exact h
  · rw [store, if_neg (Nat.ne_of_gt hcapacity), makeRoom]
    split
    · rename_i hroom
      refine ⟨hroom.2, ?_, ?_⟩
      · intro e he
        rcases List.mem_cons.mp he with rfl | he
        · exact hroom.1
        · exact h.generation e he
      · refine List.nodup_cons.mpr ⟨fun hmem => ?_, h.distinct⟩
        -- an entry under the request would have been found
        obtain ⟨⟨_, old⟩, hold, rfl⟩ := List.mem_map.mp hmem
        have hget := (get?_eq_some_iff h).mpr hold
        rw [hnew] at hget
        exact absurd hget (by simp)
    · refine ⟨hcapacity, ?_, List.nodup_singleton _⟩
      intro e he
      rw [List.mem_singleton.mp he]

end Memo

/-! ## Resolvers -/

namespace Resolver

/-- What the answer for a node is remembered under. -/
def request (r : Resolver) (store : Store Id) (base : Option String) (n : Node) : Request :=
  ⟨(store.view r.scope).generation, n.key, base⟩

/-- The answer is not remembered and has to be computed. -/
def Misses (r : Resolver) (store : Store Id) (base : Option String) (n : Node) : Prop :=
  r.memo.get? (r.request store base n) = none

/-- The answer has to be computed, and storing it drops all others: they are of another generation, or
there are as many as the resolver may remember. -/
def Overflows (r : Resolver) (store : Store Id) (base : Option String) (n : Node) : Prop :=
  r.Misses store base n ∧
    ((∃ g, r.memo.generation = some g ∧ g ≠ (r.request store base n).generation) ∨
      r.memo.size = r.capacity)

/-- The memory of the resolver is well kept. -/
def WellKept (r : Resolver) : Prop :=
  r.memo.WellKept r.capacity

variable {r : Resolver} {store : Store Id} {base : Option String} {n : Node}

theorem resolve_of_get? {answer : Answer} (h : r.memo.get? (r.request store base n) = some answer)
    (serial : Nat) : (r.resolve store serial base n).run = (r, answer) := by
  unfold request at h
  unfold resolve
  dsimp only
  rw [h]
  rfl

/-- A computed answer carries the next number, and the resolver stores it. -/
theorem resolve_of_misses (h : r.Misses store base n) (serial : Nat) :
    let answer : Answer := ⟨serial, ((store.view r.scope).cascade (requestedBases base n) n).run⟩
    (r.resolve store serial base n).run =
      ({ r with memo := r.memo.store r.capacity (r.request store base n) answer }, answer) := by
  unfold Misses request at h
  unfold resolve
  dsimp only
  rw [h]
  rfl

theorem wellKept_heed (h : r.WellKept) (event : Event) : (r.heed event).WellKept := by
  unfold heed
  split
  · exact Memo.wellKept_empty _
  · exact h

theorem wellKept_resolve (h : r.WellKept) (store : Store Id) (serial : Nat) (base : Option String)
    (n : Node) : (r.resolve store serial base n).run.1.WellKept := by
  cases hget : r.memo.get? (r.request store base n) with
  | some answer =>
      rw [resolve_of_get? hget]
      exact h
  | none =>
      rw [resolve_of_misses hget]
      exact Memo.wellKept_store h hget _

/-- What is remembered after asking is the answer given, if it was computed, and what was remembered
before, unless it was dropped to store that answer. -/
theorem mem_answers_resolve (h : r.WellKept) (hcapacity : 0 < r.capacity) (serial : Nat)
    (e : Request × Answer) :
    e ∈ (r.resolve store serial base n).run.1.memo.answers ↔
      (r.Misses store base n ∧ e.1 = r.request store base n ∧
          e.2 = (r.resolve store serial base n).run.2) ∨
        (e ∈ r.memo.answers ∧ ¬r.Overflows store base n) := by
  cases hget : r.memo.get? (r.request store base n) with
  | some answer =>
      have hhit : ¬r.Misses store base n := by
        unfold Misses
        rw [hget]
        exact Option.some_ne_none answer
      rw [resolve_of_get? hget]
      simp [hhit, Overflows]
  | none =>
      have hmiss : r.Misses store base n := hget
      rw [resolve_of_misses hget, Memo.mem_store_iff hcapacity, Prod.ext_iff]
      simp only [hmiss, true_and, Overflows]
      refine or_congr_right (and_congr_right fun he => ?_)
      -- something is remembered, so the memo is marked with a generation
      have hbounded := h.bounded
      rw [h.generation e he, Option.some.injEq, not_or]
      refine and_congr ?_ ?_
      · simp
      · omega

end Resolver

end StyleCascade
