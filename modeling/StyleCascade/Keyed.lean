/-
# StyleCascade.Keyed — lists of named entries in insertion order

A keyed list is a list of name and content pairs whose order is part of its meaning. Writing to a
name that is present keeps its place and replaces its content; writing to a new name appends. Reading
takes the first entry of a name, and as writing never adds a second one, names stay unique.
-/

namespace StyleCascade.Keyed

variable {α : Type}

/-- Writes under `key` what `f` makes of the content there: in place if the key is present, at the end
if it is not. -/
def update (key : String) (f : Option α → α) : List (String × α) → List (String × α)
  | [] => [(key, f none)]
  | (k, old) :: rest => if k = key then (k, f (some old)) :: rest else (k, old) :: update key f rest

/-- Writes `content` under `key`, whatever stood there. -/
def set (key : String) (content : α) (entries : List (String × α)) : List (String × α) :=
  update key (fun _ => content) entries

/-- Removes the first entry under `key`. -/
def erase (key : String) : List (String × α) → List (String × α)
  | [] => []
  | (k, content) :: rest => if k = key then rest else (k, content) :: erase key rest

/-- The keys in order. -/
def keys (entries : List (String × α)) : List String :=
  entries.map (·.1)

/-- The list obtained by writing entries one after the other to an empty list. -/
def ofList (entries : List (String × α)) : List (String × α) :=
  entries.foldl (fun l e => set e.1 e.2 l) []

/-- Reading looks at the first entry and then at the rest. -/
theorem lookup_cons (key other : String) (content : α) (rest : List (String × α)) :
    ((key, content) :: rest).lookup other =
      if other = key then some content else rest.lookup other := by
  by_cases h : other = key
  · simp [h]
  · simp [List.lookup_cons, beq_false_of_ne h, h]

/-- Reading after an update gives the new content under its key and the old content elsewhere. -/
theorem lookup_update (key other : String) (f : Option α → α) (l : List (String × α)) :
    (update key f l).lookup other = if other = key then some (f (l.lookup key)) else l.lookup other := by
  induction l with
  | nil => simp [update, lookup_cons]
  | cons head rest ih =>
    obtain ⟨k, old⟩ := head
    by_cases hk : k = key
    · simp only [update, hk, if_true, lookup_cons]
      split <;> rfl
    · have hne : ¬key = k := fun h => hk h.symm
      simp only [update, hk, hne, if_false, lookup_cons, ih]
      split <;> split <;> simp_all

/-- An update keeps the keys of the list, or appends its own if the list does not have it. -/
theorem keys_update (key : String) (f : Option α → α) (l : List (String × α)) :
    keys (update key f l) = if key ∈ keys l then keys l else keys l ++ [key] := by
  induction l with
  | nil => simp [keys, update]
  | cons head rest ih =>
    obtain ⟨k, old⟩ := head
    by_cases h : k = key
    · simp [update, keys, h]
    · have hne : ¬key = k := fun heq => h heq.symm
      by_cases hm : key ∈ keys rest
      · simp_all [update, keys]
      · simp_all [update, keys]

/-- An update under a new key appends. -/
theorem update_of_not_mem {key : String} {f : Option α → α} {l : List (String × α)}
    (h : key ∉ keys l) : update key f l = l ++ [(key, f none)] := by
  induction l with
  | nil => rfl
  | cons head rest ih =>
    obtain ⟨k, content⟩ := head
    rw [keys, List.map_cons, List.mem_cons, not_or] at h
    rw [update, if_neg (Ne.symm h.1), ih h.2]
    rfl

/-- An update keeps keys unique. -/
theorem nodup_keys_update (key : String) (f : Option α → α) {l : List (String × α)}
    (h : (keys l).Nodup) : (keys (update key f l)).Nodup := by
  rw [keys_update]
  split
  · exact h
  · rename_i hnot
    exact List.nodup_append.mpr ⟨h, by simp, fun a ha b hb => by
      rw [List.mem_singleton.mp hb]
      exact fun heq => hnot (heq ▸ ha)⟩

/-- A list built by writes has unique keys. -/
theorem nodup_keys_ofList (entries : List (String × α)) : (keys (ofList entries)).Nodup := by
  suffices h : ∀ l : List (String × α), (keys l).Nodup →
      (keys (entries.foldl (fun l e => set e.1 e.2 l) l)).Nodup from h [] (by simp [keys])
  induction entries with
  | nil => exact fun l h => h
  | cons e rest ih => exact fun l h => ih _ (nodup_keys_update e.1 _ h)

end StyleCascade.Keyed
