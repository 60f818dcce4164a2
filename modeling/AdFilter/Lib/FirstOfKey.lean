import AdFilter.Lib.Chained

/-!
# Lists that are searched from the front

A look-up by key reaches the first element of the key only. `Led` says that an element
with a mark can be reached: no other of its key stands before it. A mark is put on, and
taken off, through a look-up; an element may be added with a mark when its key is new.
-/

namespace AdFilter.Lib.FirstOfKey

open AdFilter.Lib.Chained (modifyFirst map_modifyFirst)

variable {κ α : Type} {key : α → κ} {marked : α → Prop} {as : List α}

def Led (key : α → κ) (marked : α → Prop) (as : List α) : Prop :=
  as.Pairwise fun a b => key a = key b → ¬ marked b

theorem led_nil : Led key marked [] := List.Pairwise.nil

theorem Led.append (h : Led key marked as) {b : α} (hb : marked b → ∀ a ∈ as, key a ≠ key b) :
    Led key marked (as ++ [b]) := by
  refine List.pairwise_append.mpr ⟨h, List.pairwise_singleton _ b, fun a ha c hc hk hm => ?_⟩
  obtain rfl := List.mem_singleton.mp hc
  exact hb hm a ha hk

theorem Led.eraseP (h : Led key marked as) (p : α → Bool) : Led key marked (as.eraseP p) :=
  List.Pairwise.eraseP p h

variable [DecidableEq κ] {k : κ} {f : α → α}

theorem mem_modifyFirst {b : α} (hb : b ∈ modifyFirst key k f as) :
    b ∈ as ∨ ∃ a ∈ as, key a = k ∧ b = f a := by
  induction as with
  | nil => exact absurd hb List.not_mem_nil
  | cons a as ih =>
    rw [modifyFirst] at hb
    split_ifs at hb with hk
    · rcases List.mem_cons.mp hb with rfl | hb
      · exact Or.inr ⟨a, List.mem_cons_self, hk, rfl⟩
      · exact Or.inl (List.mem_cons_of_mem a hb)
    · rcases List.mem_cons.mp hb with rfl | hb
      · exact Or.inl List.mem_cons_self
      · rcases ih hb with hb | ⟨c, hc, hck, hbc⟩
        · exact Or.inl (List.mem_cons_of_mem a hb)
        · exact Or.inr ⟨c, List.mem_cons_of_mem a hc, hck, hbc⟩

/-- Whatever is written through a look-up, the element can be reached again. -/
theorem Led.modifyFirst (h : Led key marked as) (hf : ∀ a, key a = k → key (f a) = k) :
    Led key marked (modifyFirst key k f as) := by
  induction as with
  | nil => exact led_nil
  | cons a as ih =>
    obtain ⟨ha, has⟩ := List.pairwise_cons.mp h
    rw [Chained.modifyFirst]
    split_ifs with hk
    · refine List.pairwise_cons.mpr ⟨fun b hb hkb => ha b hb ?_, has⟩
      rw [← hkb, hf a hk, hk]
    · refine List.pairwise_cons.mpr ⟨fun b hb hkb => ?_, ih has⟩
      rcases mem_modifyFirst hb with hb | ⟨c, hc, hck, rfl⟩
      · exact ha b hb hkb
      · exact absurd (hkb.trans (hf c hck)) hk

/-- A mark that is taken off the first element of a key leaves no mark on the key. -/
theorem Led.unmarked_modifyFirst (h : Led key marked as) (hf : ∀ a, key a = k → ¬ marked (f a))
    {b : α} (hb : b ∈ Chained.modifyFirst key k f as) (hkb : key b = k) : ¬ marked b := by
  induction as with
  | nil => exact absurd hb List.not_mem_nil
  | cons a as ih =>
    obtain ⟨ha, has⟩ := List.pairwise_cons.mp h
    rw [Chained.modifyFirst] at hb
    split_ifs at hb with hk
    · rcases List.mem_cons.mp hb with rfl | hb
      · exact hf a hk
      · exact ha b hb (hk.trans hkb.symm)
    · rcases List.mem_cons.mp hb with rfl | hb
      · exact absurd hkb hk
      · exact ih has hb

/-- The number of elements of a key. -/
def count (key : α → κ) (k : κ) (as : List α) : Nat := (as.map key).count k

@[simp] theorem count_append_singleton (b : α) :
    count key k (as ++ [b]) = count key k as + if key b = k then 1 else 0 := by
  simp [count, List.count_singleton]

theorem count_modifyFirst {k' : κ} (hf : ∀ a, key a = k → key (f a) = k) :
    count key k' (modifyFirst key k f as) = count key k' as := by
  rw [count, map_modifyFirst hf, count]

theorem count_eraseP_le (p : α → Bool) : count key k (as.eraseP p) ≤ count key k as :=
  (List.eraseP_sublist.map key).count_le k

theorem count_eq_zero_iff : count key k as = 0 ↔ ∀ a ∈ as, key a ≠ k := by
  rw [count, List.count_eq_zero]
  simp

end AdFilter.Lib.FirstOfKey
