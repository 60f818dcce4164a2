import Mathlib.Data.List.Basic
import Mathlib.Logic.Function.Basic
import Mathlib.Tactic.Common

/-!
# Windows of a circular buffer

The elements from the tail up to the head of a buffer of `size` slots. Head and tail
are equal when the window is empty, so one slot is always outside the window.
-/

namespace AdFilter.Lib.Window

variable {α : Type} {size : Nat} {data : Nat → α} {tail head : Nat}

/-- The i-th slot after the tail. -/
def slot (size tail i : Nat) : Nat := if tail + i < size then tail + i else tail + i - size

def count (size tail head : Nat) : Nat := if tail ≤ head then head - tail else head + size - tail

def window (size : Nat) (data : Nat → α) (tail head : Nat) : List α :=
  (List.range (count size tail head)).map fun i => data (slot size tail i)

@[simp] theorem length_window : (window size data tail head).length = count size tail head := by
  simp [window]

theorem map_window {β : Type} (f : α → β) :
    (window size data tail head).map f = window size (fun i => f (data i)) tail head :=
  List.map_map

theorem next_eq {i : Nat} (hi : i < size) : (i + 1) % size = if i + 1 < size then i + 1 else 0 := by
  split
  · exact Nat.mod_eq_of_lt ‹_›
  · have heq : i + 1 = size := by omega
    rw [heq, Nat.mod_self]

theorem next_lt {i : Nat} (hi : i < size) : (i + 1) % size < size := Nat.mod_lt _ (by omega)

theorem count_lt (ht : tail < size) (hh : head < size) : count size tail head < size := by
  unfold count
  split <;> omega

/-- The head stands before the tail when all slots but one are taken. -/
theorem full_iff (ht : tail < size) (hh : head < size) :
    (head + 1) % size = tail ↔ count size tail head + 1 = size := by
  rw [next_eq hh]
  unfold count
  split <;> split <;> omega

/-- Slots outside the window do not matter. -/
theorem window_congr {data' : Nat → α}
    (h : ∀ i < count size tail head, data' (slot size tail i) = data (slot size tail i)) :
    window size data' tail head = window size data tail head :=
  List.map_congr_left fun i hi => h i (List.mem_range.mp hi)

theorem slot_ne_head (ht : tail < size) {i : Nat} (hi : i < count size tail head) :
    slot size tail i ≠ head := by
  unfold slot count at *
  split <;> split at hi <;> omega

theorem count_push (ht : tail < size) (hh : head < size) (hfull : (head + 1) % size ≠ tail) :
    count size tail ((head + 1) % size) = count size tail head + 1 := by
  rw [next_eq hh] at hfull ⊢
  unfold count
  split at hfull <;> rename_i h
  · rw [if_pos h]
    split <;> split <;> omega
  · rw [if_neg h]
    split <;> split <;> omega

theorem slot_count (ht : tail < size) (hh : head < size) :
    slot size tail (count size tail head) = head := by
  unfold slot count
  split <;> split <;> omega

/-- A write at the head and a step of the head add one element at the end. -/
theorem window_push (ht : tail < size) (hh : head < size) (hfull : (head + 1) % size ≠ tail) (x : α) :
    window size (Function.update data head x) tail ((head + 1) % size) =
      window size data tail head ++ [x] := by
  unfold window
  rw [count_push ht hh hfull, List.range_succ, List.map_append, List.map_singleton,
    slot_count ht hh, Function.update_self]
  congr 1
  exact window_congr fun i hi => Function.update_of_ne (slot_ne_head ht hi) _ _

/-- A step of the tail takes the first element off. -/
theorem window_pop (ht : tail < size) (hh : head < size) (hne : head ≠ tail) :
    window size data tail head = data tail :: window size data ((tail + 1) % size) head := by
  have hcount : count size tail head = count size ((tail + 1) % size) head + 1 := by
    rw [next_eq ht]
    unfold count
    split <;> split <;> split <;> omega
  have hslot : ∀ i, i < count size ((tail + 1) % size) head →
      slot size tail (i + 1) = slot size ((tail + 1) % size) i := by
    intro i hi
    rw [next_eq ht] at hi ⊢
    unfold slot count at *
    split at hi <;> rename_i h
    · simp only [h, if_true] at hi ⊢
      split at hi <;> split <;> split <;> omega
    · simp only [h, if_false] at hi ⊢
      split at hi <;> split <;> split <;> omega
  have hfirst : slot size tail 0 = tail := by
    unfold slot
    rw [if_pos (by omega)]
    rfl
  unfold window
  rw [hcount, List.range_succ_eq_map, List.map_cons, List.map_map, hfirst]
  congr 1
  exact List.map_congr_left fun i hi => congrArg data (hslot i (List.mem_range.mp hi))

end AdFilter.Lib.Window
