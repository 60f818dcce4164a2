import AdFilter.Lib.TextLines

/-!
# Encodings of a text

The characters of a text in bytes (UTF-8) and in words of 16 bits (UTF-16), and back from
what is well formed. A character of seven bits is itself in both, and no other one has such
letters, so both keep the lines of a text.
-/

namespace AdFilter.Lib.Utf

open AdFilter.Lib.TextLines

/-! ## UTF-8 -/

def utf8 (cs : List Char) : List UInt8 := cs.flatMap String.utf8EncodeChar

/-- The characters of well-formed bytes. -/
def utf8Chars (bs : List UInt8) : Option (List Char) :=
  bs.toByteArray.utf8Decode?.map Array.toList

section Utf8

variable {bs : List UInt8} {cs cs' : List Char}

theorem toByteArray_utf8 (cs : List Char) : (utf8 cs).toByteArray = cs.utf8Encode := rfl

@[simp] theorem utf8Chars_utf8 (cs : List Char) : utf8Chars (utf8 cs) = some cs := by
  rw [utf8Chars, toByteArray_utf8, List.utf8Decode?_utf8Encode, Option.map_some]

theorem utf8Chars_eq_some_iff : utf8Chars bs = some cs ↔ bs = utf8 cs := by
  constructor
  · intro h
    obtain ⟨chars, hdecode, -⟩ := Option.map_eq_some_iff.mp h
    obtain ⟨ds, hds⟩ := ByteArray.isSome_utf8Decode?_iff.mp (Option.isSome_of_eq_some hdecode)
    rw [← toByteArray_utf8, List.toByteArray_inj] at hds
    rw [hds, utf8Chars_utf8] at h
    rw [hds, Option.some.inj h]
  · rintro rfl
    exact utf8Chars_utf8 cs

@[simp] theorem utf8_nil : utf8 [] = [] := rfl

theorem utf8_append (cs ds : List Char) : utf8 (cs ++ ds) = utf8 cs ++ utf8 ds :=
  List.flatMap_append

/-- A byte of seven bits is the character that it stands in. -/
theorem utf8EncodeChar_ascii {c : Char} {b : UInt8} (hb : b ∈ String.utf8EncodeChar c)
    (h : b.toNat < 0x80) : c.toNat = b.toNat := by
  unfold String.utf8EncodeChar at hb
  dsimp only at hb
  have hc : c.toNat = c.val.toNat := rfl
  split at hb
  · obtain rfl := List.mem_singleton.mp hb
    rw [hc, UInt8.toNat_ofNat']
    omega
  · exfalso
    split at hb
    · simp only [List.mem_cons, List.not_mem_nil, or_false] at hb
      rcases hb with rfl | rfl <;> rw [UInt8.toNat_ofNat'] at h <;> omega
    split at hb
    · simp only [List.mem_cons, List.not_mem_nil, or_false] at hb
      rcases hb with rfl | rfl | rfl <;> rw [UInt8.toNat_ofNat'] at h <;> omega
    · simp only [List.mem_cons, List.not_mem_nil, or_false] at hb
      rcases hb with rfl | rfl | rfl | rfl <;> rw [UInt8.toNat_ofNat'] at h <;> omega

theorem respects_utf8 : Respects String.utf8EncodeChar '\r' '\n' 0x0d 0x0a where
  crEq := by decide
  lfEq := by decide
  ne := by decide
  other c hcr hlf := by
    refine ⟨String.utf8EncodeChar_ne_nil, fun h => hcr ?_, fun h => hlf ?_⟩
    · exact Char.toNat_inj.mp (utf8EncodeChar_ascii h (by decide))
    · exact Char.toNat_inj.mp (utf8EncodeChar_ascii h (by decide))

end Utf8

/-! ## UTF-16 -/

def units (c : Char) : List UInt16 :=
  if c.toNat < 0x10000 then [UInt16.ofNat c.toNat]
  else
    [UInt16.ofNat (0xd800 + (c.toNat - 0x10000) / 0x400),
      UInt16.ofNat (0xdc00 + (c.toNat - 0x10000) % 0x400)]

def utf16 (cs : List Char) : List UInt16 := cs.flatMap units

/-- The first unit of a pair. -/
def isHigh (u : UInt16) : Bool := 0xd800 ≤ u.toNat && u.toNat < 0xdc00

/-- The second unit of a pair. -/
def isLow (u : UInt16) : Bool := 0xdc00 ≤ u.toNat && u.toNat < 0xe000

/-- The characters of units in which every surrogate has its other half. -/
def utf16Chars : List UInt16 → Option (List Char)
  | [] => some []
  | u :: us =>
      if isLow u then none
      else if isHigh u then
        match us with
        | [] => none
        | v :: vs =>
            if isLow v then
              (utf16Chars vs).map
                (Char.ofNat (0x10000 + (u.toNat - 0xd800) * 0x400 + (v.toNat - 0xdc00)) :: ·)
            else none
      else (utf16Chars us).map (Char.ofNat u.toNat :: ·)

section Utf16

variable {cs cs' : List Char}

@[simp] theorem utf16_nil : utf16 [] = [] := rfl

theorem utf16_append (cs ds : List Char) : utf16 (cs ++ ds) = utf16 cs ++ utf16 ds :=
  List.flatMap_append

theorem toNat_valid (c : Char) : c.toNat < 0xd800 ∨ 0xdfff < c.toNat ∧ c.toNat < 0x110000 := c.valid

theorem utf16Chars_unit {u : UInt16} (hl : isLow u = false) (hh : isHigh u = false)
    (us : List UInt16) :
    utf16Chars (u :: us) = (utf16Chars us).map (Char.ofNat u.toNat :: ·) := by
  cases us <;> simp [utf16Chars, hl, hh]

theorem utf16Chars_pair {u v : UInt16} (hl : isLow u = false) (hh : isHigh u = true)
    (hv : isLow v = true) (us : List UInt16) :
    utf16Chars (u :: v :: us) = (utf16Chars us).map
      (Char.ofNat (0x10000 + (u.toNat - 0xd800) * 0x400 + (v.toNat - 0xdc00)) :: ·) := by
  simp [utf16Chars, hl, hh, hv]

theorem utf16Chars_units_append (c : Char) (us : List UInt16) :
    utf16Chars (units c ++ us) = (utf16Chars us).map (c :: ·) := by
  have hvalid := toNat_valid c
  unfold units
  split
  · rename_i hlt
    have hunit : (UInt16.ofNat c.toNat).toNat = c.toNat := by
      rw [UInt16.toNat_ofNat', Nat.mod_eq_of_lt hlt]
    rw [List.singleton_append, utf16Chars_unit (by simp [isLow, hunit]; omega)
      (by simp [isHigh, hunit]; omega), hunit, Char.ofNat_toNat]
  · rename_i hge
    have hhigh : (UInt16.ofNat (0xd800 + (c.toNat - 0x10000) / 0x400)).toNat =
        0xd800 + (c.toNat - 0x10000) / 0x400 := by
      rw [UInt16.toNat_ofNat', Nat.mod_eq_of_lt (by omega)]
    have hlow : (UInt16.ofNat (0xdc00 + (c.toNat - 0x10000) % 0x400)).toNat =
        0xdc00 + (c.toNat - 0x10000) % 0x400 := by
      rw [UInt16.toNat_ofNat', Nat.mod_eq_of_lt (by omega)]
    have hchar : 0x10000 + (0xd800 + (c.toNat - 0x10000) / 0x400 - 0xd800) * 0x400 +
        (0xdc00 + (c.toNat - 0x10000) % 0x400 - 0xdc00) = c.toNat := by
      omega
    rw [List.cons_append, List.singleton_append, utf16Chars_pair, hhigh, hlow, hchar,
      Char.ofNat_toNat]
    · rw [isLow, hhigh]
      simp
      omega
    · rw [isHigh, hhigh]
      simp
      omega
    · rw [isLow, hlow]
      simp
      omega

@[simp] theorem utf16Chars_utf16 (cs : List Char) : utf16Chars (utf16 cs) = some cs := by
  induction cs with
  | nil => rfl
  | cons c cs ih =>
    rw [utf16, List.flatMap_cons, utf16Chars_units_append]
    exact congrArg (Option.map _) ih

theorem units_ascii {c : Char} {u : UInt16} (hu : u ∈ units c) (h : u.toNat < 0x80) :
    c.toNat = u.toNat := by
  unfold units at hu
  split at hu
  · obtain rfl := List.mem_singleton.mp hu
    rw [UInt16.toNat_ofNat']
    omega
  · exfalso
    simp only [List.mem_cons, List.not_mem_nil, or_false] at hu
    have hvalid := toNat_valid c
    rcases hu with rfl | rfl <;> rw [UInt16.toNat_ofNat'] at h <;> omega

theorem respects_utf16 : Respects units '\r' '\n' 0x0d 0x0a where
  crEq := by decide
  lfEq := by decide
  ne := by decide
  other c hcr hlf := by
    refine ⟨?_, fun h => hcr ?_, fun h => hlf ?_⟩
    · unfold units
      split <;> exact List.cons_ne_nil _ _
    · exact Char.toNat_inj.mp (units_ascii h (by decide))
    · exact Char.toNat_inj.mp (units_ascii h (by decide))

end Utf16

/-! ## Seven bits -/

/-- Bytes as units, one by one. -/
def wide (bs : List UInt8) : List UInt16 := bs.map UInt8.toUInt16

def asciiChars (bs : List UInt8) : List Char := bs.map fun b => Char.ofNat b.toNat

section Ascii

variable {bs : List UInt8}

theorem toUInt16_inj {b c : UInt8} (h : b.toUInt16 = c.toUInt16) : b = c := by
  have hnat := congrArg UInt16.toNat h
  rwa [UInt8.toNat_toUInt16, UInt8.toNat_toUInt16, UInt8.toNat_inj] at hnat

theorem wide_injective : Function.Injective wide := fun _ _ h =>
  (List.map_inj_right fun _ _ => toUInt16_inj).mp h

@[simp] theorem length_wide (bs : List UInt8) : (wide bs).length = bs.length := List.length_map _

/-- Units that fit a byte. -/
theorem exists_wide {us : List UInt16} (h : ∀ u ∈ us, u.toNat < 0x100) : ∃ bs, us = wide bs := by
  refine ⟨us.map UInt16.toUInt8, ?_⟩
  rw [wide, List.map_map]
  refine (List.map_id us).symm.trans (List.map_congr_left fun u hu => ?_)
  apply UInt16.toNat_inj.mp
  rw [id, Function.comp_apply, UInt8.toNat_toUInt16, UInt16.toNat_toUInt8,
    Nat.mod_eq_of_lt (h u hu)]

theorem respects_wide : Respects (fun b : UInt8 => [b.toUInt16]) 0x0d 0x0a 0x0d 0x0a where
  crEq := rfl
  lfEq := rfl
  ne := by decide
  other b hcr hlf := by
    refine ⟨List.cons_ne_nil _ _, fun h => hcr ?_, fun h => hlf ?_⟩
    · exact (toUInt16_inj (List.mem_singleton.mp h)).symm
    · exact (toUInt16_inj (List.mem_singleton.mp h)).symm

theorem filled_wide (bs : List UInt8) :
    filled 0x0d 0x0a (wide bs) = (filled 0x0d 0x0a bs).map wide := by
  have h := filled_flatMap respects_wide bs
  simp only [← List.map_eq_flatMap] at h
  exact h

theorem toNat_ofNat_ascii {b : UInt8} (h : b.toNat < 0x80) :
    (Char.ofNat b.toNat).toNat = b.toNat := by
  have hvalid : b.toNat.isValidChar := Or.inl (by omega)
  rw [Char.ofNat, dif_pos hvalid]
  rfl

theorem utf8_asciiChars (h : ∀ b ∈ bs, b.toNat < 0x80) : utf8 (asciiChars bs) = bs := by
  induction bs with
  | nil => rfl
  | cons b bs ih =>
    obtain ⟨hb, hbs⟩ := List.forall_mem_cons.mp h
    have hchar : String.utf8EncodeChar (Char.ofNat b.toNat) = [b] := by
      have hval : (Char.ofNat b.toNat).val.toNat = b.toNat := toNat_ofNat_ascii hb
      unfold String.utf8EncodeChar
      dsimp only
      rw [hval, if_pos (by omega), UInt8.ofNat_toNat]
    rw [asciiChars, List.map_cons, utf8, List.flatMap_cons, hchar]
    exact congrArg (b :: ·) (ih hbs)

theorem utf16_asciiChars (h : ∀ b ∈ bs, b.toNat < 0x80) : utf16 (asciiChars bs) = wide bs := by
  induction bs with
  | nil => rfl
  | cons b bs ih =>
    obtain ⟨hb, hbs⟩ := List.forall_mem_cons.mp h
    have hchar : units (Char.ofNat b.toNat) = [b.toUInt16] := by
      rw [units, toNat_ofNat_ascii hb, if_pos (by omega), UInt16.ofNat_uInt8ToNat]
    rw [asciiChars, List.map_cons, utf16, List.flatMap_cons, hchar]
    exact congrArg (b.toUInt16 :: ·) (ih hbs)

end Ascii

end AdFilter.Lib.Utf
