import Mathlib.Data.List.Perm.Basic
import Mathlib.Tactic.Common

/-!
# A pool of memory blocks

An allocator decides which requests it grants and where the block lies; all it
promises is that the block is not in use. The ledger is what the pool has handed
out and not got back, and it records a release of a block that was not live.
-/

namespace AdFilter.Lib.Pool

structure Allocator (α : Type) where
  pick : List α → α
  pick_fresh : ∀ used, pick used ∉ used
  /-- Whether the n-th request of the run is granted. -/
  grants : Nat → Bool

structure Ledger (α : Type) where
  /-- Addresses that are never the pool's to hand out. -/
  fixed : List α
  live : List α
  calls : Nat
  badFree : Bool

variable {α : Type} [DecidableEq α]

def Ledger.alloc (p : Allocator α) (l : Ledger α) : Option α × Ledger α :=
  let l' := { l with calls := l.calls + 1 }
  if p.grants l.calls then
    let a := p.pick (l.fixed ++ l.live)
    (some a, { l' with live := a :: l.live })
  else (none, l')

def Ledger.free (l : Ledger α) (a : α) : Ledger α :=
  if a ∈ l.live then { l with live := l.live.erase a } else { l with badFree := true }

omit [DecidableEq α] in
theorem alloc_granted {p : Allocator α} {l : Ledger α} (h : p.grants l.calls = true) :
    l.alloc p = (some (p.pick (l.fixed ++ l.live)),
      { l with calls := l.calls + 1, live := p.pick (l.fixed ++ l.live) :: l.live }) := by
  simp [Ledger.alloc, h]

omit [DecidableEq α] in
theorem alloc_denied {p : Allocator α} {l : Ledger α} (h : p.grants l.calls = false) :
    l.alloc p = (none, { l with calls := l.calls + 1 }) := by
  simp [Ledger.alloc, h]

omit [DecidableEq α] in
theorem pick_notMem_fixed (p : Allocator α) (l : Ledger α) :
    p.pick (l.fixed ++ l.live) ∉ l.fixed :=
  fun h => p.pick_fresh _ (List.mem_append_left _ h)

omit [DecidableEq α] in
theorem pick_notMem_live (p : Allocator α) (l : Ledger α) :
    p.pick (l.fixed ++ l.live) ∉ l.live :=
  fun h => p.pick_fresh _ (List.mem_append_right _ h)

theorem free_live {l : Ledger α} {a : α} (h : a ∈ l.live) :
    l.free a = { l with live := l.live.erase a } := by
  simp [Ledger.free, h]

theorem free_badFree (l : Ledger α) (a : α) (h : l.badFree = true) : (l.free a).badFree = true := by
  unfold Ledger.free
  split
  · exact h
  · rfl

theorem free_dead {l : Ledger α} {a : α} (h : a ∉ l.live) : (l.free a).badFree = true := by
  simp [Ledger.free, h]

def Ledger.freeAll (l : Ledger α) (as : List α) : Ledger α := as.foldl Ledger.free l

@[simp] theorem freeAll_nil (l : Ledger α) : l.freeAll [] = l := rfl

@[simp] theorem freeAll_cons (l : Ledger α) (a : α) (as : List α) :
    l.freeAll (a :: as) = (l.free a).freeAll as := rfl

theorem freeAll_append (l : Ledger α) (as bs : List α) :
    l.freeAll (as ++ bs) = (l.freeAll as).freeAll bs := List.foldl_append

/-- Different live blocks can all be released. -/
theorem freeAll_live {as : List α} : ∀ {l : Ledger α}, as.Nodup → (∀ a ∈ as, a ∈ l.live) →
    l.freeAll as = { l with live := l.live.diff as } := by
  induction as with
  | nil => exact fun _ _ => rfl
  | cons a as ih =>
    intro l hn hl
    have ha := hl a List.mem_cons_self
    rw [freeAll_cons, free_live ha, ih (List.nodup_cons.mp hn).2 fun b hb => ?_, List.diff_cons]
    have hne : b ≠ a := fun h => (List.nodup_cons.mp hn).1 (h ▸ hb)
    exact (List.mem_erase_of_ne hne).mpr (hl b (List.mem_cons_of_mem a hb))

theorem free_calls (l : Ledger α) (a : α) : (l.free a).calls = l.calls := by
  unfold Ledger.free
  split <;> rfl

theorem freeAll_calls (as : List α) : ∀ l : Ledger α, (l.freeAll as).calls = l.calls := by
  induction as with
  | nil => exact fun _ => rfl
  | cons a as ih =>
    intro l
    rw [freeAll_cons, ih, Ledger.free]
    split <;> rfl

theorem freeAll_badFree (as : List α) : ∀ {l : Ledger α}, l.badFree = true →
    (l.freeAll as).badFree = true := by
  induction as with
  | nil => exact fun h => h
  | cons a as ih => exact fun h => ih (free_badFree _ a h)

/-- A release of several blocks is a good one just when they are different and live. -/
theorem freeAll_clean_iff (as : List α) : ∀ {l : Ledger α}, l.live.Nodup → l.badFree = false →
    ((l.freeAll as).badFree = false ↔ as.Nodup ∧ ∀ a ∈ as, a ∈ l.live) := by
  induction as with
  | nil =>
    intro l _ hc
    exact ⟨fun _ => ⟨List.nodup_nil, fun a ha => absurd ha List.not_mem_nil⟩, fun _ => hc⟩
  | cons a as ih =>
    intro l hd hc
    rw [freeAll_cons, List.nodup_cons, List.forall_mem_cons]
    by_cases ha : a ∈ l.live
    · rw [free_live ha]
      refine (ih (l := { l with live := l.live.erase a }) (hd.erase a) hc).trans ?_
      simp only [hd.mem_erase_iff]
      constructor
      · intro h
        exact ⟨⟨fun hmem => (h.2 a hmem).1 rfl, h.1⟩, ha, fun b hb => (h.2 b hb).2⟩
      · intro h
        exact ⟨h.1.2, fun b hb => ⟨fun heq => h.1.1 (heq ▸ hb), h.2.2 b hb⟩⟩
    · constructor
      · intro h
        exact absurd (h.symm.trans (freeAll_badFree as (free_dead ha))) Bool.false_ne_true
      · exact fun h => absurd h.2.1 ha

end AdFilter.Lib.Pool
