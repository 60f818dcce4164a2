import Mathlib.Data.List.Basic
import Mathlib.Tactic.Common

/-!
# Excerpts of a text

An excerpt has the place it was taken from. `Laid` says that excerpts come one behind the
other, so that no two of them share a place of their text.
-/

namespace AdFilter.Lib.Excerpts

variable {α : Type}

structure Excerpt (α : Type) where
  start : Nat
  text : List α
deriving DecidableEq, Repr

def Excerpt.stop (e : Excerpt α) : Nat := e.start + e.text.length

/-- The place is one of the excerpt's. -/
def Excerpt.Has (e : Excerpt α) (k : Nat) : Prop := e.start ≤ k ∧ k < e.stop

/-- The excerpts lie one behind the other between two places, and are what is there. -/
def Laid (src : List α) : Nat → List (Excerpt α) → Nat → Prop
  | lo, [], hi => lo ≤ hi
  | lo, e :: es, hi => lo ≤ e.start ∧ e.text <+: src.drop e.start ∧ Laid src e.stop es hi

variable {src : List α} {es es' : List (Excerpt α)} {lo lo' mid hi : Nat}

theorem Laid.le (h : Laid src lo es hi) : lo ≤ hi := by
  induction es generalizing lo with
  | nil => exact h
  | cons e es ih =>
    obtain ⟨hlo, -, ht⟩ := h
    have hstop : e.start ≤ e.stop := Nat.le_add_right _ _
    exact Nat.le_trans hlo (Nat.le_trans hstop (ih ht))

/-- A place further to the front. -/
theorem Laid.front (h : Laid src lo es hi) (hle : lo' ≤ lo) : Laid src lo' es hi := by
  cases es with
  | nil => exact Nat.le_trans hle h
  | cons e es => exact ⟨Nat.le_trans hle h.1, h.2⟩

theorem Laid.append (h : Laid src lo es mid) (h' : Laid src mid es' hi) :
    Laid src lo (es ++ es') hi := by
  induction es generalizing lo with
  | nil => exact h'.front h
  | cons e es ih => exact ⟨h.1, h.2.1, ih h.2.2⟩

theorem Laid.le_start (h : Laid src lo es hi) : ∀ e ∈ es, lo ≤ e.start := by
  induction es generalizing lo with
  | nil => exact fun e he => absurd he List.not_mem_nil
  | cons e es ih =>
    obtain ⟨hlo, -, ht⟩ := h
    have hstop : e.start ≤ e.stop := Nat.le_add_right _ _
    intro e' he'
    rcases List.mem_cons.mp he' with rfl | he'
    · exact hlo
    · exact Nat.le_trans (Nat.le_trans hlo hstop) (ih ht e' he')

theorem Laid.text (h : Laid src lo es hi) : ∀ e ∈ es, e.text <+: src.drop e.start := by
  induction es generalizing lo with
  | nil => exact fun e he => absurd he List.not_mem_nil
  | cons e es ih => exact List.forall_mem_cons.mpr ⟨h.2.1, ih h.2.2⟩

/-- No two of them share a place. -/
theorem Laid.disjoint (h : Laid src lo es hi) :
    es.Pairwise fun e e' => ∀ k, e.Has k → ¬ e'.Has k := by
  induction es generalizing lo with
  | nil => exact List.Pairwise.nil
  | cons e es ih =>
    obtain ⟨-, -, ht⟩ := h
    refine List.Pairwise.cons ?_ (ih ht)
    rintro e' he' k ⟨-, hlt⟩ ⟨hle, -⟩
    exact absurd (ht.le_start e' he') (Nat.not_le.mpr (Nat.lt_of_le_of_lt hle hlt))

end AdFilter.Lib.Excerpts
