/-
# StyleCascade.Proofs.Keyed — reading lists whose keys are unique

What stands under a key is read from the first entry with that key. Where keys are unique this is the only
one, so the order of the entries does not matter: neither to reading (`lookup_eq_of_perm`) nor to writing
(`update_perm`). The order of the keys and what is read under each of them are all there is to such a list
(`eq_of_keys_of_lookup`).
-/
import Mathlib.Data.List.Nodup
import StyleCascade.Keyed

namespace StyleCascade.Keyed

section Reading

variable {κ α : Type} [BEq κ] [LawfulBEq κ] {l : List (κ × α)} {key : κ} {content : α}

theorem mem_of_lookup (h : l.lookup key = some content) : (key, content) ∈ l := by
  obtain ⟨before, after, rfl, _⟩ := List.lookup_eq_some_iff.mp h
  simp

/-- Where keys are unique, an entry is found wherever it stands. -/
theorem lookup_eq_some_iff (hkeys : (l.map fun e => e.1).Nodup) :
    l.lookup key = some content ↔ (key, content) ∈ l := by
  refine ⟨mem_of_lookup, fun h => ?_⟩
  obtain ⟨before, after, rfl⟩ := List.append_of_mem h
  refine List.lookup_eq_some_iff.mpr ⟨before, after, rfl, fun e he => bne_iff_ne.mpr fun heq => ?_⟩
  -- an entry before it with its key would be a second one
  rw [List.map_append, List.nodup_append] at hkeys
  exact hkeys.2.2 e.1 (List.mem_map_of_mem he) key (by simp) heq.symm

end Reading

variable {α : Type} {l l' : List (String × α)}

theorem lookup_eq_none_of_not_mem {key : String} (h : key ∉ keys l) : l.lookup key = none := by
  rw [List.lookup_eq_none_iff]
  intro e he
  rw [bne_iff_ne]
  intro heq
  apply h
  rw [heq]
  exact List.mem_map_of_mem he

/-- A list with unique keys is known from its keys, in order, and what stands under them. -/
theorem eq_of_keys_of_lookup (hkeys : (keys l).Nodup) (h : keys l = keys l')
    (hlookup : ∀ key, l.lookup key = l'.lookup key) : l = l' := by
  induction l generalizing l' with
  | nil => exact (List.map_eq_nil_iff.mp h.symm).symm
  | cons head rest ih =>
      obtain ⟨key, content⟩ := head
      cases l' with
      | nil => exact absurd h (List.cons_ne_nil _ _)
      | cons head' rest' =>
          obtain ⟨key', content'⟩ := head'
          obtain ⟨hkey, hrest⟩ : key = key' ∧ keys rest = keys rest' := List.cons_eq_cons.mp h
          subst hkey
          have hcontent := hlookup key
          rw [lookup_cons, lookup_cons, if_pos rfl, if_pos rfl] at hcontent
          obtain ⟨hnew, hkeys⟩ := List.nodup_cons.mp hkeys
          rw [Option.some.inj hcontent, ih hkeys hrest]
          intro other
          by_cases hother : other = key
          · -- the key of the head is nowhere else
            rw [hother, lookup_eq_none_of_not_mem hnew, lookup_eq_none_of_not_mem]
            rw [← hrest]
            exact hnew
          · have hlookup := hlookup other
            rw [lookup_cons, lookup_cons, if_neg hother, if_neg hother] at hlookup
            exact hlookup

/-- Entries written one after the other stand as they are if no key comes twice. -/
theorem ofList_eq_self (h : (keys l).Nodup) : ofList l = l := by
  suffices hfold : ∀ done : List (String × α), (keys (done ++ l)).Nodup →
      l.foldl (fun l e => set e.1 e.2 l) done = done ++ l from hfold [] h
  clear h
  induction l with
  | nil => exact fun done _ => (List.append_nil done).symm
  | cons e rest ih =>
      intro done hkeys
      have hnew : e.1 ∉ keys done := by
        unfold keys at hkeys ⊢
        rw [List.map_append, List.map_cons, List.nodup_append] at hkeys
        exact fun hmem => hkeys.2.2 e.1 hmem e.1 List.mem_cons_self rfl
      have hset : set e.1 e.2 done = done ++ [e] := update_of_not_mem hnew
      rw [List.foldl_cons, hset, ih, List.append_assoc, List.singleton_append]
      rw [List.append_assoc, List.singleton_append]
      exact hkeys

theorem erase_sublist (key : String) (l : List (String × α)) : (erase key l).Sublist l := by
  induction l with
  | nil => exact .slnil
  | cons head rest ih =>
      obtain ⟨k, content⟩ := head
      rw [erase]
      split
      · exact List.sublist_cons_self _ _
      · exact ih.cons_cons _

theorem lookup_eq_of_perm (h : l.Perm l') (hkeys : (keys l).Nodup) (key : String) :
    l.lookup key = l'.lookup key := by
  have hkeys' : (keys l').Nodup := (h.map _).nodup_iff.mp hkeys
  apply Option.ext
  intro content
  rw [lookup_eq_some_iff hkeys, lookup_eq_some_iff hkeys', h.mem_iff]

/-- Where keys are unique, an update changes the same entry wherever it stands. -/
theorem update_perm (key : String) (f : Option α → α) (h : l.Perm l') (hkeys : (keys l).Nodup) :
    (update key f l).Perm (update key f l') := by
  induction h with
  | nil => exact .refl _
  | cons e h ih =>
      obtain ⟨k, old⟩ := e
      rw [update, update]
      split
      · exact h.cons _
      · exact (ih (List.nodup_cons.mp hkeys).2).cons _
  | swap e e' rest =>
      obtain ⟨k, old⟩ := e
      obtain ⟨k', old'⟩ := e'
      have hne : k' ≠ k := fun heq => (List.nodup_cons.mp hkeys).1 (by simp [heq])
      rw [update, update, update, update]
      split
      · rename_i hk'
        rw [if_neg (hk' ▸ hne.symm)]
        exact .swap _ _ _
      · split
        · exact .swap _ _ _
        · exact .swap _ _ _
  | trans h _ ih ih' => exact (ih hkeys).trans (ih' ((h.map _).nodup_iff.mp hkeys))

end StyleCascade.Keyed
