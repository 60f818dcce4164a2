import Mathlib.Logic.Relation
import Mathlib.Tactic.Common

/-!
# Regular expressions over the positions of a subject

An expression relates the positions of a subject between which it matches. The end of
the subject is a test of its own, so the meaning is a relation on positions and not a
set of words.
-/

namespace AdFilter.Lib.Regex

variable {α : Type}

inductive Re (α : Type) where
  | eps
  | test (p : α → Bool)
  | atEnd
  | seq (r t : Re α)
  | alt (r t : Re α)
  | star (r : Re α)

/-- The expression matches the subject from position `i` to position `k`. -/
def Spans (s : List α) : Re α → Nat → Nat → Prop
  | .eps, i, k => i = k
  | .test p, i, k => k = i + 1 ∧ ∃ a, s[i]? = some a ∧ p a = true
  | .atEnd, i, k => i = k ∧ i = s.length
  | .seq r t, i, k => ∃ j, Spans s r i j ∧ Spans s t j k
  | .alt r t, i, k => Spans s r i k ∨ Spans s t i k
  | .star r, i, k => Relation.ReflTransGen (Spans s r) i k

def none : Re α := .test fun _ => false

def opt (r : Re α) : Re α := .alt r .eps

def plus (r : Re α) : Re α := .seq r (.star r)

/-- One after the other. -/
def concat : List (Re α) → Re α
  | [] => .eps
  | r :: rs => .seq r (concat rs)

/-- One of them. -/
def union : List (Re α) → Re α
  | [] => none
  | r :: rs => .alt r (union rs)

variable {s : List α} {r t : Re α} {i j k : Nat}

@[simp] theorem spans_eps : Spans s .eps i k ↔ i = k := Iff.rfl

@[simp] theorem spans_atEnd : Spans s .atEnd i k ↔ i = k ∧ i = s.length := Iff.rfl

theorem spans_union {rs : List (Re α)} : Spans s (union rs) i k ↔ ∃ r ∈ rs, Spans s r i k := by
  induction rs with
  | nil => simp [union, none, Spans]
  | cons r rs ih =>
    have h : Spans s (union (r :: rs)) i k ↔ Spans s r i k ∨ Spans s (union rs) i k := Iff.rfl
    rw [h, ih]
    simp

/-- A match of a star is no match, or a first one and a match of the star. -/
theorem spans_star_iff : Spans s (.star r) i k ↔ i = k ∨ Spans s (plus r) i k := by
  constructor
  · intro h
    rcases Relation.ReflTransGen.cases_head h with heq | ⟨j, hij, hjk⟩
    · exact Or.inl heq
    · exact Or.inr ⟨j, hij, hjk⟩
  · intro h
    rcases h with rfl | ⟨j, hij, hjk⟩
    · exact Relation.ReflTransGen.refl
    · exact Relation.ReflTransGen.head hij hjk

/-- A test a number of times over. -/
theorem spans_star_test {f : α → Bool} (h : Spans s (.star (.test f)) i k) :
    ∃ t, k = i + t ∧ ∀ u < t, ∃ a, s[i + u]? = some a ∧ f a = true := by
  induction h with
  | refl => exact ⟨0, rfl, fun u hu => absurd hu (Nat.not_lt_zero u)⟩
  | tail _ hstep ih =>
    obtain ⟨t, rfl, hall⟩ := ih
    obtain ⟨rfl, hlast⟩ := hstep
    refine ⟨t + 1, rfl, fun u hu => ?_⟩
    by_cases hlt : u < t
    · exact hall u hlt
    · obtain rfl : u = t := by omega
      exact hlast

theorem Spans.le (h : Spans s r i k) : i ≤ k := by
  induction r generalizing i k with
  | eps => exact Nat.le_of_eq h
  | test p => exact h.1 ▸ Nat.le_succ i
  | atEnd => exact Nat.le_of_eq h.1
  | seq r t ihr iht =>
    obtain ⟨j, hr, ht⟩ := h
    exact Nat.le_trans (ihr hr) (iht ht)
  | alt r t ihr iht => exact h.elim ihr iht
  | star r ih =>
    induction h with
    | refl => exact Nat.le_refl i
    | tail _ hstep ihs => exact Nat.le_trans ihs (ih hstep)

end AdFilter.Lib.Regex
