import Mathlib.Tactic.Common

/-!
# Chains of buffers

A packet in a chain of buffers, some of which may be empty, and a cursor that moves through
it. A move past the end of a buffer asks the buffers after it for their length, one by one,
until one has bytes. `Access` is what a program asks of the chain, and `Inside` says that
the chain has it.
-/

namespace AdFilter.Lib.BufferChain

variable {α : Type}

inductive Access
  /-- The address and the length of a buffer. -/
  | query (buffer : Nat)
  | read (buffer offset size : Nat)
deriving DecidableEq, Repr

def Access.Inside (chain : List (List α)) : Access → Prop
  | .query i => i < chain.length
  | .read i offset size => ∃ b, chain[i]? = some b ∧ offset + size ≤ b.length

/-- A place in the buffer of a number, with the buffers after it. -/
structure Cursor (α : Type) where
  index : Nat
  data : List α
  rest : List (List α)
  offset : Nat

namespace Cursor

/-- The bytes from the place to the end of its buffer. -/
def left (c : Cursor α) : Nat := c.data.length - c.offset

def byte [Inhabited α] (c : Cursor α) (i : Nat) : α := c.data.getD (c.offset + i) default

def read (c : Cursor α) (i size : Nat) : Access := .read c.index (c.offset + i) size

/-- Go through buffers from number `i` on to the first that is not empty. There is no place
to give when there is none. -/
def skip : Nat → List (List α) → List Access × Option (Cursor α)
  | i, [] => ([.query i], none)
  | i, [] :: bs => (.query i :: (skip (i + 1) bs).1, (skip (i + 1) bs).2)
  | i, (b :: data) :: bs => ([.query i], some ⟨i, b :: data, bs, 0⟩)

/-- Go on by `n` bytes, to the next buffer when this one has no more than that. -/
def advance (c : Cursor α) (n : Nat) : List Access × Option (Cursor α) :=
  if n < c.left then ([], some { c with offset := c.offset + n }) else skip (c.index + 1) c.rest

structure On (c : Cursor α) (chain : List (List α)) : Prop where
  buffers : chain.drop c.index = c.data :: c.rest
  within : c.offset ≤ c.data.length

/-- Bytes come after the buffer of the cursor. -/
def Follows (c : Cursor α) : Prop := ∃ b ∈ c.rest, b ≠ []

end Cursor

open Cursor

variable {chain bs : List (List α)} {c c' : Cursor α} {i n : Nat}

theorem lt_length_of_drop {b : List α} (h : chain.drop i = b :: bs) : i < chain.length := by
  by_contra hge
  rw [List.drop_eq_nil_of_le (Nat.le_of_not_lt hge)] at h
  exact absurd h.symm (List.cons_ne_nil b bs)

theorem drop_succ {b : List α} (h : chain.drop i = b :: bs) : chain.drop (i + 1) = bs := by
  rw [← List.drop_drop, h, List.drop_one, List.tail_cons]

/-! ## Empty buffers -/

/-- The walk asks for a buffer beyond the end exactly when all that are left are empty. -/
theorem skip_inside_iff : ∀ {i : Nat}, chain.drop i = bs →
    ((∀ x ∈ (skip i bs).1, x.Inside chain) ↔ ∃ b ∈ bs, b ≠ []) := by
  induction bs with
  | nil =>
    intro i h
    have hge : chain.length ≤ i := List.drop_eq_nil_iff.mp h
    simp only [skip, List.mem_singleton, forall_eq, Access.Inside, List.not_mem_nil, false_and,
      exists_false, iff_false]
    omega
  | cons b bs ih =>
    intro i h
    have hi : (Access.query i).Inside chain := lt_length_of_drop h
    cases b with
    | nil =>
      rw [skip, List.forall_mem_cons, ih (drop_succ h)]
      simp [hi]
    | cons a data => simp [skip, hi]

theorem skip_isSome_iff : ∀ {i : Nat}, ((skip i bs).2.isSome = true ↔ ∃ b ∈ bs, b ≠ []) := by
  induction bs with
  | nil => simp [skip]
  | cons b bs ih =>
    intro i
    cases b with
    | nil =>
      rw [skip, ih]
      simp
    | cons a data => simp [skip]

theorem skip_on : ∀ {i : Nat}, chain.drop i = bs → (skip i bs).2 = some c → c.On chain := by
  induction bs with
  | nil => exact fun _ h => absurd h.symm (Option.some_ne_none c)
  | cons b bs ih =>
    intro i h hs
    cases b with
    | nil => exact ih (drop_succ h) hs
    | cons a data =>
      obtain rfl := Option.some.inj hs
      exact ⟨h, Nat.zero_le _⟩

/-! ## The cursor -/

theorem Cursor.On.query_inside (hc : c.On chain) : (Access.query c.index).Inside chain :=
  lt_length_of_drop hc.buffers

/-- What lies before the end of the buffer can be read. -/
theorem Cursor.On.read_inside (hc : c.On chain) {k size : Nat} (h : k + size ≤ c.left) :
    (c.read k size).Inside chain := by
  refine ⟨c.data, ?_, ?_⟩
  · have hd := congrArg List.head? hc.buffers
    rwa [List.head?_drop, List.head?_cons] at hd
  · have hw := hc.within
    rw [Cursor.left] at h
    omega

theorem Cursor.On.advance (hc : c.On chain) (h : (c.advance n).2 = some c') : c'.On chain := by
  rw [Cursor.advance] at h
  split at h
  · rename_i hn
    obtain rfl := Option.some.inj h
    have hw := hc.within
    rw [Cursor.left] at hn
    exact ⟨hc.buffers, by simp only; omega⟩
  · exact skip_on (drop_succ hc.buffers) h

/-- A move stays in the chain exactly when the buffer has bytes left, or bytes follow. -/
theorem Cursor.On.advance_inside_iff (hc : c.On chain) :
    (∀ x ∈ (c.advance n).1, x.Inside chain) ↔ n < c.left ∨ c.Follows := by
  rw [Cursor.advance]
  split
  · rename_i hn
    simp [hn]
  · rename_i hn
    rw [skip_inside_iff (drop_succ hc.buffers)]
    simp [hn, Follows]

theorem advance_isSome_iff : (c.advance n).2.isSome = true ↔ n < c.left ∨ c.Follows := by
  rw [Cursor.advance]
  split
  · rename_i hn
    simp [hn]
  · rename_i hn
    rw [skip_isSome_iff]
    simp [hn, Follows]

end AdFilter.Lib.BufferChain
