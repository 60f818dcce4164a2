import Mathlib.Data.List.Nodup
import Mathlib.Logic.Function.Basic
import Mathlib.Tactic.Common

/-!
# Chained hash tables

A table of buckets, each a chain of values that are found by a key. `Indexed` says
that every value is in the bucket of its key and that no two have the same key; a
`Map` is such a table, and its operations are those of a finite map.
-/

namespace AdFilter.Lib.Chained

abbrev Table (α : Type) := Nat → List α

variable {κ α : Type} [DecidableEq κ] (key : α → κ) (hash : κ → Nat)

def empty : Table α := fun _ => []

def find (t : Table α) (k : κ) : Option α := (t (hash k)).find? fun a => key a = k

/-- A new value at the head of its chain. -/
def push (t : Table α) (a : α) : Table α :=
  Function.update t (hash (key a)) (a :: t (hash (key a)))

def modifyFirst (k : κ) (f : α → α) : List α → List α
  | [] => []
  | a :: as => if key a = k then f a :: as else a :: modifyFirst k f as

/-- A write through the pointer that `find` gives. -/
def modify (t : Table α) (k : κ) (f : α → α) : Table α :=
  Function.update t (hash k) (modifyFirst key k f (t (hash k)))

def erase (t : Table α) (k : κ) : Table α :=
  Function.update t (hash k) ((t (hash k)).eraseP fun a => key a = k)

structure Indexed (t : Table α) : Prop where
  nodup : ∀ i, ((t i).map key).Nodup
  hashed : ∀ i, ∀ a ∈ t i, hash (key a) = i

variable {key hash} {t : Table α}

theorem key_of_find {k : κ} {a : α} (h : find key hash t k = some a) : key a = k := by
  rw [find] at h
  simpa using List.find?_some h

/-- What stands in a table is what is found under its key. -/
theorem Indexed.find_of_mem (ht : Indexed key hash t) {i : Nat} {a : α} (ha : a ∈ t i) :
    find key hash t (key a) = some a := by
  have hi := ht.hashed i a ha
  have hnd := ht.nodup i
  rw [find, hi]
  revert ha hnd
  induction t i with
  | nil => exact fun ha => absurd ha List.not_mem_nil
  | cons b bs ih =>
    intro ha hnd
    rw [List.map_cons, List.nodup_cons] at hnd
    rcases List.mem_cons.mp ha with rfl | ha
    · simp
    · have hne : key b ≠ key a := fun he => hnd.1 (he ▸ List.mem_map_of_mem ha)
      rw [List.find?_cons_of_neg (by simpa using hne)]
      exact ih ha hnd.2

omit [DecidableEq κ] in
theorem indexed_empty : Indexed key hash (empty : Table α) :=
  ⟨fun _ => List.nodup_nil, fun _ _ ha => absurd ha List.not_mem_nil⟩

@[simp] theorem find_empty (k : κ) : find key hash (empty : Table α) k = none := rfl

/-! ## A value is added -/

theorem find_push (a : α) (k : κ) :
    find key hash (push key hash t a) k = if key a = k then some a else find key hash t k := by
  rw [find, push]
  by_cases hk : key a = k
  · subst hk
    simp
  · rw [if_neg hk]
    by_cases hh : hash k = hash (key a)
    · rw [hh, Function.update_self, List.find?_cons_of_neg (by simpa using hk), find, hh]
    · rw [Function.update_of_ne hh, find]

theorem Indexed.push (ht : Indexed key hash t) {a : α} (hn : find key hash t (key a) = none) :
    Indexed key hash (push key hash t a) := by
  constructor
  · intro i
    by_cases hi : i = hash (key a)
    · subst hi
      rw [Chained.push, Function.update_self, List.map_cons, List.nodup_cons]
      refine ⟨fun hm => ?_, ht.nodup _⟩
      obtain ⟨b, hb, hq⟩ := List.mem_map.mp hm
      exact List.find?_eq_none.mp hn b hb (decide_eq_true hq)
    · rw [Chained.push, Function.update_of_ne hi]
      exact ht.nodup i
  · intro i b hb
    by_cases hi : i = hash (key a)
    · subst hi
      rw [Chained.push, Function.update_self] at hb
      rcases List.mem_cons.mp hb with rfl | hb
      · rfl
      · exact ht.hashed _ b hb
    · rw [Chained.push, Function.update_of_ne hi] at hb
      exact ht.hashed i b hb

/-! ## A value is changed -/

section Modify

variable {f : α → α} {k : κ}

theorem map_modifyFirst (hf : ∀ a, key a = k → key (f a) = k) (as : List α) :
    (modifyFirst key k f as).map key = as.map key := by
  induction as with
  | nil => rfl
  | cons a as ih =>
    rw [modifyFirst]
    split_ifs with h
    · rw [List.map_cons, List.map_cons, hf a h, h]
    · rw [List.map_cons, List.map_cons, ih]

theorem find_modifyFirst (hf : ∀ a, key a = k → key (f a) = k) (as : List α) (k' : κ) :
    (modifyFirst key k f as).find? (fun a => key a = k') =
      if k' = k then (as.find? fun a => key a = k').map f else as.find? fun a => key a = k' := by
  induction as with
  | nil => simp [modifyFirst]
  | cons a as ih =>
    rw [modifyFirst]
    by_cases h : key a = k
    · rw [if_pos h, List.find?_cons, List.find?_cons, hf a h]
      by_cases hk : k' = k
      · simp [hk, h]
      · have hne : ¬ k = k' := fun he => hk he.symm
        simp [hk, h, hne]
    · rw [if_neg h, List.find?_cons, List.find?_cons, ih]
      by_cases hk : k' = k
      · subst hk
        simp [h]
      · by_cases ha : key a = k' <;> simp [hk, ha]

theorem find_modify (hf : ∀ a, key a = k → key (f a) = k) (k' : κ) :
    find key hash (modify key hash t k f) k' =
      if k' = k then (find key hash t k).map f else find key hash t k' := by
  rw [find, modify]
  by_cases hh : hash k' = hash k
  · rw [hh, Function.update_self, find_modifyFirst hf]
    by_cases hk : k' = k
    · rw [if_pos hk, if_pos hk, find, hk]
    · rw [if_neg hk, if_neg hk, find, hh]
  · have hk : k' ≠ k := fun he => hh (he ▸ rfl)
    rw [Function.update_of_ne hh, if_neg hk, find]

theorem keys_modify (hf : ∀ a, key a = k → key (f a) = k) (i : Nat) :
    (modify key hash t k f i).map key = (t i).map key := by
  by_cases hi : i = hash k
  · subst hi
    rw [modify, Function.update_self, map_modifyFirst hf]
  · rw [modify, Function.update_of_ne hi]

theorem Indexed.modify (ht : Indexed key hash t) (hf : ∀ a, key a = k → key (f a) = k) :
    Indexed key hash (modify key hash t k f) := by
  constructor
  · intro i
    rw [keys_modify hf]
    exact ht.nodup i
  · intro i a ha
    have hm := List.mem_map_of_mem (f := key) ha
    rw [keys_modify hf] at hm
    obtain ⟨b, hb, hq⟩ := List.mem_map.mp hm
    exact hq ▸ ht.hashed i b hb

end Modify

/-! ## A value is taken out -/

theorem Indexed.find_erase (ht : Indexed key hash t) (k k' : κ) :
    find key hash (erase key hash t k) k' = if k' = k then none else find key hash t k' := by
  rw [find, erase]
  by_cases hh : hash k' = hash k
  · rw [hh, Function.update_self, find, hh]
    have hnd := ht.nodup (hash k)
    revert hnd
    induction t (hash k) with
    | nil => simp
    | cons a as ih =>
      intro hnd
      rw [List.map_cons, List.nodup_cons] at hnd
      by_cases ha : key a = k
      · rw [List.eraseP_cons_of_pos (by simpa using ha)]
        by_cases hk : k' = k
        · rw [if_pos hk, List.find?_eq_none]
          intro b hb he
          exact hnd.1 (ha ▸ hk ▸ of_decide_eq_true he ▸ List.mem_map_of_mem hb)
        · have hne : ¬ key a = k' := fun he => hk (he.symm.trans ha)
          rw [if_neg hk, List.find?_cons_of_neg (by simpa using hne)]
      · rw [List.eraseP_cons_of_neg (by simpa using ha), List.find?_cons, List.find?_cons, ih hnd.2]
        by_cases hk : k' = k
        · subst hk
          simp [ha]
        · by_cases ha' : key a = k' <;> simp [hk, ha']
  · have hk : k' ≠ k := fun he => hh (he ▸ rfl)
    rw [Function.update_of_ne hh, if_neg hk, find]

theorem Indexed.erase (ht : Indexed key hash t) (k : κ) : Indexed key hash (erase key hash t k) := by
  have hsub : ∀ i, List.Sublist ((Chained.erase key hash t k) i) (t i) := by
    intro i
    by_cases hi : i = hash k
    · subst hi
      rw [Chained.erase, Function.update_self]
      exact List.eraseP_sublist
    · rw [Chained.erase, Function.update_of_ne hi]
  exact ⟨fun i => (ht.nodup i).sublist ((hsub i).map key),
    fun i a ha => ht.hashed i a ((hsub i).subset ha)⟩

/-! ## Tables as finite maps -/

structure Map (key : α → κ) (hash : κ → Nat) where
  buckets : Table α
  indexed : Indexed key hash buckets

namespace Map

variable {key : α → κ} {hash : κ → Nat} (m : Map key hash)

def empty : Map key hash := ⟨Chained.empty, indexed_empty⟩

def find (k : κ) : Option α := Chained.find key hash m.buckets k

/-- A value for its key: written over the old one, or new at the head of its chain. -/
def put (a : α) : Map key hash :=
  if h : m.find (key a) = none then ⟨push key hash m.buckets a, m.indexed.push h⟩
  else ⟨modify key hash m.buckets (key a) fun _ => a, m.indexed.modify fun _ _ => rfl⟩

def erase (k : κ) : Map key hash := ⟨Chained.erase key hash m.buckets k, m.indexed.erase k⟩

@[simp] theorem find_empty (k : κ) : (empty : Map key hash).find k = none := rfl

theorem find_put (a : α) (k : κ) : (m.put a).find k = if k = key a then some a else m.find k := by
  rw [put]
  split
  · rw [find, find_push]
    exact if_congr eq_comm rfl rfl
  · rename_i h
    obtain ⟨b, hb⟩ := Option.ne_none_iff_exists'.mp h
    rw [find, Chained.find_modify fun _ _ => rfl, ← find, ← find, hb]
    rfl

theorem find_erase (k k' : κ) : (m.erase k).find k' = if k' = k then none else m.find k' :=
  m.indexed.find_erase k k'

variable {m}

theorem key_of_find {k : κ} {a : α} (h : m.find k = some a) : key a = k := Chained.key_of_find h

theorem find_of_mem {i : Nat} {a : α} (h : a ∈ m.buckets i) : m.find (key a) = some a :=
  m.indexed.find_of_mem h

end Map

end AdFilter.Lib.Chained
