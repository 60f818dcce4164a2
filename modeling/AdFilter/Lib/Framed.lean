import Mathlib.Data.List.Basic
import Mathlib.Tactic.Common
import Mathlib.Tactic.Ring

/-!
# Entries with their length in front

A 32-bit number in four bytes, the least one first, and a buffer of entries each of which
stands behind its length. The offsets of the entries are determined by the lengths.
-/

namespace AdFilter.Lib.Framed

/-- The four bytes of a 32-bit number. -/
def le32 (n : Nat) : List UInt8 :=
  [UInt8.ofNat n, UInt8.ofNat (n / 256), UInt8.ofNat (n / 65536), UInt8.ofNat (n / 16777216)]

/-- The number in the first four bytes. -/
def readLe32 (bytes : List UInt8) : Nat :=
  (bytes.getD 0 0).toNat + 256 * (bytes.getD 1 0).toNat + 65536 * (bytes.getD 2 0).toNat +
    16777216 * (bytes.getD 3 0).toNat

@[simp] theorem length_le32 (n : Nat) : (le32 n).length = 4 := rfl

theorem readLe32_lt (bytes : List UInt8) : readLe32 bytes < 2 ^ 32 := by
  have h0 := (bytes.getD 0 0).toNat_lt
  have h1 := (bytes.getD 1 0).toNat_lt
  have h2 := (bytes.getD 2 0).toNat_lt
  have h3 := (bytes.getD 3 0).toNat_lt
  unfold readLe32
  omega

theorem readLe32_append {n : Nat} (h : n < 2 ^ 32) (rest : List UInt8) :
    readLe32 (le32 n ++ rest) = n := by
  simp only [readLe32, le32, List.cons_append, List.nil_append, List.getD_cons_zero,
    List.getD_cons_succ, UInt8.toNat_ofNat']
  omega

/-- The first four bytes only matter. -/
theorem readLe32_take (bytes : List UInt8) {n : Nat} (h : 4 ≤ n) :
    readLe32 (bytes.take n) = readLe32 bytes := by
  have hget : ∀ i < 4, (bytes.take n).getD i 0 = bytes.getD i 0 := by
    intro i hi
    rw [List.getD_eq_getElem?_getD, List.getD_eq_getElem?_getD, List.getElem?_take,
      if_pos (by omega)]
  unfold readLe32
  rw [hget 0 (by omega), hget 1 (by omega), hget 2 (by omega), hget 3 (by omega)]

theorem le32_readLe32 {bytes : List UInt8} (h : 4 ≤ bytes.length) :
    le32 (readLe32 bytes) ++ bytes.drop 4 = bytes := by
  match bytes, h with
  | a :: b :: c :: d :: rest, _ =>
    have ha := a.toNat_lt
    have hb := b.toNat_lt
    have hc := c.toNat_lt
    have hd := d.toNat_lt
    have hbyte : ∀ (x : UInt8) (n : Nat), n % 256 = x.toNat → UInt8.ofNat n = x := by
      intro x n hn
      apply UInt8.toNat_inj.mp
      rw [UInt8.toNat_ofNat']
      exact hn
    simp only [le32, readLe32, List.getD_cons_zero, List.getD_cons_succ, List.drop_succ_cons,
      List.drop_zero, List.cons_append, List.nil_append]
    rw [hbyte a _ (by omega), hbyte b _ (by omega), hbyte c _ (by omega), hbyte d _ (by omega)]

/-! ## Entries -/

def frame (entry : List UInt8) : List UInt8 := le32 entry.length ++ entry

def frames (entries : List (List UInt8)) : List UInt8 := entries.flatMap frame

@[simp] theorem length_frame (entry : List UInt8) : (frame entry).length = 4 + entry.length := by
  simp [frame]

@[simp] theorem frames_nil : frames [] = [] := rfl

theorem frames_append (entries others : List (List UInt8)) :
    frames (entries ++ others) = frames entries ++ frames others := List.flatMap_append

@[simp] theorem frames_cons (entry : List UInt8) (entries : List (List UInt8)) :
    frames (entry :: entries) = frame entry ++ frames entries := rfl

/-- Where the entries start when the first one starts at `pos`. -/
def offsets : Nat → List (List UInt8) → List Nat
  | _, [] => []
  | pos, entry :: entries => pos :: offsets (pos + (4 + entry.length)) entries

@[simp] theorem length_offsets (pos : Nat) (entries : List (List UInt8)) :
    (offsets pos entries).length = entries.length := by
  induction entries generalizing pos with
  | nil => rfl
  | cons entry entries ih => simp [offsets, ih]

/-- The buffer from the offset of an entry on. -/
theorem drop_offset {bytes tail : List UInt8} {pos : Nat} {entries : List (List UInt8)}
    (h : bytes.drop pos = frames entries ++ tail) {k : Nat} {entry : List UInt8}
    (hk : entries[k]? = some entry) :
    ∃ offset rest, (offsets pos entries)[k]? = some offset ∧
      bytes.drop offset = frame entry ++ rest := by
  induction entries generalizing pos k with
  | nil => exact absurd hk (by simp)
  | cons first entries ih =>
    cases k with
    | zero =>
      obtain rfl : first = entry := by simpa using hk
      refine ⟨pos, frames entries ++ tail, rfl, ?_⟩
      rw [h, frames_cons, List.append_assoc]
    | succ k =>
      have hdrop : bytes.drop (pos + (4 + first.length)) = frames entries ++ tail := by
        rw [← List.drop_drop, h, frames_cons, List.append_assoc, ← length_frame, List.drop_left]
      exact ih hdrop (by simpa using hk)

end AdFilter.Lib.Framed
