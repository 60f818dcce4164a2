import Mathlib.Algebra.BigOperators.Group.List.Basic
import Mathlib.Algebra.Order.Ring.Nat
import Mathlib.Tactic.Common

/-!
# A log that counts what it loses

A bounded queue that drops its oldest element for a new one. Every element carries how
many were dropped since the one before it, modulo `wrap`, and a dropped element hands
its count on to the newest one.
-/

namespace AdFilter.Lib.LossLog

structure Log (α : Type) where
  accepted : List α
  delivered : List (α × Nat)
  queued : List (α × Nat)

variable {α : Type}

/-- The new element takes the place of the oldest one in a full queue. -/
def Log.push (wrap capacity : Nat) (l : Log α) (a : α) : Log α :=
  { l with
    accepted := l.accepted ++ [a]
    queued :=
      if l.queued.length = capacity then
        match l.queued with
        | [] => [(a, 0)]
        | d :: rest => rest ++ [(a, (d.2 + 1) % wrap)]
      else l.queued ++ [(a, 0)] }

/-- The reader takes the oldest element. -/
def Log.pop (l : Log α) : Log α :=
  match l.queued with
  | [] => l
  | d :: rest => { l with delivered := l.delivered ++ [d], queued := rest }

/-- What the reader has and will get. -/
def Log.kept (l : Log α) : List (α × Nat) := l.delivered ++ l.queued

/-- How many of the accepted elements were dropped. -/
def Log.lost (l : Log α) : Nat := l.accepted.length - l.kept.length

/-- Nothing is invented, repeated or reordered, and every loss is counted once. -/
structure Accounted (wrap capacity : Nat) (l : Log α) : Prop where
  subsequence : (l.kept.map Prod.fst).Sublist l.accepted
  bound : l.queued.length ≤ capacity
  counted : l.lost < wrap → (l.kept.map Prod.snd).sum = l.lost

variable {wrap capacity : Nat} {l : Log α}

theorem push_of_room (wrap : Nat) (h : l.queued.length ≠ capacity) (a : α) : l.push wrap capacity a =
    { l with accepted := l.accepted ++ [a], queued := l.queued ++ [(a, 0)] } := by
  rw [Log.push, if_neg h]

theorem push_of_full (wrap : Nat) {d : α × Nat} {rest : List (α × Nat)} (hq : l.queued = d :: rest)
    (h : l.queued.length = capacity) (a : α) : l.push wrap capacity a =
    { l with accepted := l.accepted ++ [a], queued := rest ++ [(a, (d.2 + 1) % wrap)] } := by
  rw [Log.push, if_pos h, hq]

theorem accounted_empty : Accounted wrap capacity (⟨[], [], []⟩ : Log α) :=
  ⟨List.Sublist.refl _, Nat.zero_le _, fun _ => rfl⟩

theorem Accounted.length_le (h : Accounted wrap capacity l) : l.kept.length ≤ l.accepted.length := by
  have hle := h.subsequence.length_le
  rwa [List.length_map] at hle

theorem Accounted.pop (h : Accounted wrap capacity l) : Accounted wrap capacity l.pop := by
  unfold Log.pop
  split
  · exact h
  · rename_i d rest hq
    have hkept : Log.kept ⟨l.accepted, l.delivered ++ [d], rest⟩ = l.kept := by
      simp [Log.kept, hq]
    have hlost : Log.lost ⟨l.accepted, l.delivered ++ [d], rest⟩ = l.lost := by
      unfold Log.lost
      rw [hkept]
    refine ⟨?_, ?_, ?_⟩
    · rw [hkept]
      exact h.subsequence
    · have hb := h.bound
      rw [hq, List.length_cons] at hb
      exact Nat.le_of_succ_le hb
    · rw [hkept, hlost]
      exact h.counted

/-- The reader takes several elements. -/
theorem Accounted.pops {accepted : List α} {queued : List (α × Nat)} (taken : List (α × Nat)) :
    ∀ {delivered : List (α × Nat)}, Accounted wrap capacity ⟨accepted, delivered, taken ++ queued⟩ →
      Accounted wrap capacity ⟨accepted, delivered ++ taken, queued⟩ := by
  induction taken with
  | nil =>
    intro delivered h
    rwa [List.append_nil]
  | cons d taken ih =>
    intro delivered h
    have htail := ih (Accounted.pop h)
    rwa [List.append_assoc] at htail

/-- There is room for the new element, which follows no loss. -/
theorem Accounted.push_room (h : Accounted wrap capacity l) (hroom : l.queued.length ≠ capacity)
    (a : α) : Accounted wrap capacity (l.push wrap capacity a) := by
  have hle := h.length_le
  have hpush := push_of_room wrap hroom a
  have hkept : (l.push wrap capacity a).kept = l.kept ++ [(a, 0)] := by
    rw [hpush]
    simp [Log.kept]
  have hlost : (l.push wrap capacity a).lost = l.lost := by
    unfold Log.lost
    rw [hkept, hpush]
    simp
  refine ⟨?_, ?_, fun hw => ?_⟩
  · rw [hkept, hpush, List.map_append]
    exact h.subsequence.append (List.Sublist.refl [a])
  · rw [hpush]
    have hb := h.bound
    simp only [List.length_append, List.length_singleton]
    omega
  · rw [hlost] at hw ⊢
    rw [hkept, List.map_append, List.sum_append]
    simpa using h.counted hw

/-- The oldest element is dropped, and its count goes to the newest one with one more. -/
theorem Accounted.push_drop (h : Accounted wrap capacity l) {d : α × Nat} {rest : List (α × Nat)}
    (hq : l.queued = d :: rest) (hfull : l.queued.length = capacity) (a : α) :
    Accounted wrap capacity (l.push wrap capacity a) := by
  have hle := h.length_le
  have hpush := push_of_full wrap hq hfull a
  have hkept : (l.push wrap capacity a).kept = l.delivered ++ rest ++ [(a, (d.2 + 1) % wrap)] := by
    rw [hpush]
    simp [Log.kept]
  have hold : l.kept = l.delivered ++ d :: rest := by rw [Log.kept, hq]
  have hlost : (l.push wrap capacity a).lost = l.lost + 1 := by
    unfold Log.lost
    rw [hkept, hpush]
    rw [hold] at hle ⊢
    simp only [List.length_append, List.length_cons, List.length_nil] at hle ⊢
    omega
  refine ⟨?_, ?_, fun hw => ?_⟩
  · rw [hkept, hpush, List.map_append]
    refine List.Sublist.append ?_ (List.Sublist.refl [a])
    have hsub : (l.delivered ++ rest).Sublist l.kept := by
      rw [hold]
      exact (List.sublist_cons_self d rest).append_left l.delivered
    exact (hsub.map Prod.fst).trans h.subsequence
  · rw [hpush]
    have hb := h.bound
    rw [hq, List.length_cons] at hb
    simp only [List.length_append, List.length_singleton]
    exact hb
  · rw [hlost] at hw ⊢
    have hsum := h.counted (Nat.lt_of_succ_lt hw)
    rw [hold, List.map_append, List.sum_append, List.map_cons, List.sum_cons] at hsum
    -- the count of the dropped element is at most the number of losses, so it does not wrap
    have hmod : (d.2 + 1) % wrap = d.2 + 1 := Nat.mod_eq_of_lt (by omega)
    rw [hkept, hmod, List.map_append, List.map_append, List.sum_append, List.sum_append,
      List.map_singleton, List.sum_singleton]
    omega

theorem Accounted.push (h : Accounted wrap capacity l) (hc : 0 < capacity) (a : α) :
    Accounted wrap capacity (l.push wrap capacity a) := by
  by_cases hfull : l.queued.length = capacity
  · cases hq : l.queued with
    | nil =>
      rw [hq] at hfull
      exact absurd hfull (Nat.ne_of_lt hc)
    | cons d rest => exact h.push_drop hq hfull a
  · exact h.push_room hfull a

end AdFilter.Lib.LossLog
