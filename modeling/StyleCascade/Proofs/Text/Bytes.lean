/-
# StyleCascade.Proofs.Text.Bytes — places in texts

A place in a text is given by the number of bytes before it. An ASCII character is one byte, its own number, and no
byte of another character is below 128 (`le_of_mem_encoding`). So ASCII characters can be looked for byte by byte,
and whatever passes over single bytes from 128 on passes over whole characters (`eq_of_passes`).

`slice?` takes the text between two places and fails if one of them is inside of a character.
-/
import Mathlib.Data.List.Flatten
import StyleCascade.Text.Bytes
import StyleCascade.Text.Space

namespace StyleCascade.Text

/-! ## Sizes -/

@[simp] theorem byteSize_nil : byteSize [] = 0 := rfl

@[simp] theorem byteSize_cons (c : Char) (cs : List Char) :
    byteSize (c :: cs) = c.utf8Size + byteSize cs := by
  unfold byteSize bytes
  rw [List.flatMap_cons, List.length_append, String.length_utf8EncodeChar]

@[simp] theorem byteSize_append (cs ds : List Char) : byteSize (cs ++ ds) = byteSize cs + byteSize ds := by
  unfold byteSize bytes
  rw [List.flatMap_append, List.length_append]

theorem byteSize_toList (s : String) : byteSize s.toList = s.utf8ByteSize := by
  unfold byteSize bytes
  rw [← String.size_toByteArray, ← String.utf8Encode_toList]
  simp [List.utf8Encode]

theorem byteSize_le_of_sublist {cs ds : List Char} (h : cs.Sublist ds) : byteSize cs ≤ byteSize ds :=
  (h.flatMap String.utf8EncodeChar).length_le

theorem byteSize_trim_le (cs : List Char) : byteSize (trim cs) ≤ byteSize cs := by
  apply byteSize_le_of_sublist
  have hend := (List.dropWhile_sublist isSpace (l := (trimStart cs).reverse)).reverse
  rw [List.reverse_reverse] at hend
  exact hend.trans (List.dropWhile_sublist isSpace)

/-! ## Places -/

@[simp] theorem offset_append (before rest : List Char) : offset (before ++ rest) rest = byteSize before := by
  unfold offset
  rw [byteSize_append, Nat.add_sub_cancel]

theorem offset_self (source : List Char) : offset source source = 0 :=
  Nat.sub_self _

/-- What stands between two places is what lies between the rests. -/
theorem offset_eq_add {source text rest : List Char} (h : text ++ rest <:+ source) :
    offset source rest = offset source (text ++ rest) + byteSize text := by
  obtain ⟨before, rfl⟩ := h
  rw [offset_append, ← List.append_assoc, offset_append, byteSize_append]

theorem offset_cons {source cs : List Char} {c : Char} (h : c :: cs <:+ source) :
    offset source cs = offset source (c :: cs) + c.utf8Size := by
  have hadd : offset source cs = offset source ([c] ++ cs) + byteSize [c] := offset_eq_add h
  rw [byteSize_cons, byteSize_nil, Nat.add_zero] at hadd
  exact hadd

/-- At the end of a text nothing is left of it. -/
theorem offset_eq_byteSize_iff {source rest : List Char} (h : rest <:+ source) :
    offset source rest = byteSize source ↔ rest = [] := by
  have hle := byteSize_le_of_sublist h.sublist
  unfold offset
  cases rest with
  | nil => simp
  | cons c cs =>
      have hpos := c.utf8Size_pos
      rw [byteSize_cons] at hle
      simp only [byteSize_cons, reduceCtorEq, iff_false]
      omega

theorem lt_byteSize_of_byteAt? {source : List Char} {index : Nat} {c : Char} (h : byteAt? source index = some c) :
    index < byteSize source := by
  obtain ⟨b, hb, -⟩ := Option.map_eq_some_iff.mp h
  exact (List.getElem?_eq_some_iff.mp hb).1

theorem byteAt?_eq_none_iff {source : List Char} {index : Nat} :
    byteAt? source index = none ↔ byteSize source ≤ index := by
  unfold byteAt?
  rw [Option.map_eq_none_iff, List.getElem?_eq_none_iff]
  rfl

theorem byteAt?_offset_add {source cs : List Char} (h : cs <:+ source) (i : Nat) :
    byteAt? source (offset source cs + i) = (bytes cs)[i]?.map Char.ofUInt8 := by
  obtain ⟨before, rfl⟩ := h
  unfold byteAt?
  rw [offset_append]
  unfold bytes byteSize bytes
  rw [List.flatMap_append, List.getElem?_append_right (Nat.le_add_right _ _), Nat.add_sub_cancel_left]

theorem toNat_ofUInt8 (b : UInt8) : (Char.ofUInt8 b).toNat = b.toNat :=
  UInt8.toNat_toUInt32 b

/-- An ASCII character is its own byte. -/
theorem byteAt?_of_ascii {source cs : List Char} {c : Char} (h : c :: cs <:+ source) (hc : c.toNat < 128) :
    byteAt? source (offset source (c :: cs)) = some c ∧
      offset source cs = offset source (c :: cs) + 1 := by
  have hsize : c.utf8Size = 1 := by
    rw [Char.utf8Size_eq_one_iff, UInt32.le_iff_toNat_le]
    exact Nat.le_of_lt_succ hc
  refine ⟨?_, ?_⟩
  · have hbyte := byteAt?_offset_add h 0
    rw [Nat.add_zero] at hbyte
    rw [hbyte, bytes, List.flatMap_cons, String.utf8EncodeChar_eq_singleton hsize]
    refine congrArg some (Char.toNat_inj.mp ?_)
    rw [toNat_ofUInt8, UInt32.toNat_toUInt8]
    exact Nat.mod_eq_of_lt (Nat.lt_trans hc (by decide))
  · rw [offset_cons h, hsize]

/-- No byte of another character is below 128. -/
theorem le_of_mem_encoding {c : Char} (hc : 128 ≤ c.toNat) {b : UInt8} (h : b ∈ String.utf8EncodeChar c) :
    128 ≤ b.toNat := by
  have hval : c.val.toNat = c.toNat := rfl
  unfold String.utf8EncodeChar at h
  simp only at h
  rw [if_neg (by omega)] at h
  split at h
  · simp only [List.mem_cons, List.not_mem_nil, or_false] at h
    rcases h with rfl | rfl <;> simp only [UInt8.toNat_ofNat'] <;> omega
  · split at h
    · simp only [List.mem_cons, List.not_mem_nil, or_false] at h
      rcases h with rfl | rfl | rfl <;> simp only [UInt8.toNat_ofNat'] <;> omega
    · simp only [List.mem_cons, List.not_mem_nil, or_false] at h
      rcases h with rfl | rfl | rfl | rfl <;> simp only [UInt8.toNat_ofNat'] <;> omega

theorem byteAt?_of_not_ascii {source cs : List Char} {c : Char} (h : c :: cs <:+ source) (hc : 128 ≤ c.toNat)
    {i : Nat} (hi : i < c.utf8Size) :
    ∃ d, byteAt? source (offset source (c :: cs) + i) = some d ∧ 128 ≤ d.toNat := by
  have hlength : i < (String.utf8EncodeChar c).length := by
    rw [String.length_utf8EncodeChar]
    exact hi
  refine ⟨Char.ofUInt8 (String.utf8EncodeChar c)[i], ?_, ?_⟩
  · rw [byteAt?_offset_add h, bytes, List.flatMap_cons, List.getElem?_append_left hlength,
      List.getElem?_eq_getElem hlength]
    rfl
  · rw [toNat_ofUInt8]
    exact le_of_mem_encoding hc (List.getElem_mem hlength)

/-- What passes over single bytes from 128 on passes over a character that is not ASCII. -/
theorem eq_of_passes {α : Type} {f : Nat → α} {source cs : List Char} {c : Char}
    (hpass : ∀ i d, byteAt? source i = some d → 128 ≤ d.toNat → f i = f (i + 1)) (h : c :: cs <:+ source)
    (hc : 128 ≤ c.toNat) : f (offset source (c :: cs)) = f (offset source cs) := by
  have hbytes : ∀ n ≤ c.utf8Size, f (offset source (c :: cs)) = f (offset source (c :: cs) + n) := by
    intro n
    induction n with
    | zero => exact fun _ => rfl
    | succ n ih =>
        intro hn
        obtain ⟨d, hd, hle⟩ := byteAt?_of_not_ascii h hc hn
        rw [ih (Nat.le_of_succ_le hn), hpass _ d hd hle]
        rfl
  rw [offset_cons h]
  exact hbytes _ (Nat.le_refl _)

/-! ## Slices -/

theorem splitBytes?_eq_some_iff {n : Nat} {cs front rest : List Char} :
    splitBytes? n cs = some (front, rest) ↔ cs = front ++ rest ∧ byteSize front = n := by
  induction cs generalizing n front with
  | nil =>
      cases n with
      | zero =>
          rw [splitBytes?, Option.some.injEq, Prod.mk.injEq]
          constructor
          · rintro ⟨rfl, rfl⟩
            exact ⟨rfl, rfl⟩
          · rintro ⟨hnil, -⟩
            obtain ⟨rfl, rfl⟩ := List.append_eq_nil_iff.mp hnil.symm
            exact ⟨rfl, rfl⟩
      | succ n =>
          refine ⟨nofun, ?_⟩
          rintro ⟨hnil, hsize⟩
          obtain ⟨rfl, rfl⟩ := List.append_eq_nil_iff.mp hnil.symm
          exact absurd hsize nofun
  | cons c cs ih =>
      have hpos := c.utf8Size_pos
      cases n with
      | zero =>
          rw [splitBytes?, Option.some.injEq, Prod.mk.injEq]
          constructor
          · rintro ⟨rfl, rfl⟩
            exact ⟨rfl, rfl⟩
          · rintro ⟨hcs, hsize⟩
            cases front with
            | nil => exact ⟨rfl, hcs⟩
            | cons d front =>
                have hpos := d.utf8Size_pos
                rw [byteSize_cons] at hsize
                omega
      | succ n =>
          rw [splitBytes?]
          constructor
          · intro h
            split at h
            · rename_i hle
              obtain ⟨⟨less, after⟩, hless, heq⟩ := Option.map_eq_some_iff.mp h
              obtain ⟨rfl, rfl⟩ := Prod.mk.inj heq
              obtain ⟨rfl, hsize⟩ := ih.mp hless
              refine ⟨rfl, ?_⟩
              rw [byteSize_cons, hsize]
              omega
            · exact absurd h nofun
          · rintro ⟨hcs, hsize⟩
            cases front with
            | nil => exact absurd hsize nofun
            | cons d less =>
                obtain ⟨rfl, rfl⟩ := List.cons.inj hcs
                rw [byteSize_cons] at hsize
                have hless := ih.mpr ⟨rfl, show byteSize less = n + 1 - c.utf8Size by omega⟩
                rw [if_pos (by omega), hless]
                rfl

theorem slice?_eq_some_iff {source text : List Char} {start stop : Nat} :
    slice? source start stop = some text ↔
      ∃ before after, source = before ++ (text ++ after) ∧ byteSize before = start ∧
        start + byteSize text = stop := by
  unfold slice?
  constructor
  · intro h
    split at h
    · rename_i hle
      obtain ⟨⟨before, rest⟩, hbefore, hrest⟩ := Option.bind_eq_some_iff.mp h
      obtain ⟨⟨front, after⟩, hfront, rfl⟩ := Option.map_eq_some_iff.mp hrest
      obtain ⟨rfl, hstart⟩ := splitBytes?_eq_some_iff.mp hbefore
      obtain ⟨rfl, hstop⟩ := splitBytes?_eq_some_iff.mp hfront
      refine ⟨before, after, rfl, hstart, ?_⟩
      show start + byteSize front = stop
      omega
    · exact absurd h nofun
  · rintro ⟨before, after, rfl, rfl, rfl⟩
    have hfront : splitBytes? (byteSize before + byteSize text - byteSize before) (text ++ after) =
        some (text, after) :=
      splitBytes?_eq_some_iff.mpr ⟨rfl, (Nat.add_sub_cancel_left ..).symm⟩
    rw [if_pos (Nat.le_add_right _ _), splitBytes?_eq_some_iff.mpr ⟨rfl, rfl⟩, Option.bind_some, hfront]
    rfl

/-- Between the places where two rests begin stands what the one has in front of the other. -/
theorem slice?_offset {source text rest : List Char} (h : text ++ rest <:+ source) :
    slice? source (offset source (text ++ rest)) (offset source rest) = some text := by
  rw [offset_eq_add h]
  obtain ⟨before, rfl⟩ := h
  rw [offset_append]
  exact slice?_eq_some_iff.mpr ⟨before, rest, rfl, rfl, rfl⟩

end StyleCascade.Text
