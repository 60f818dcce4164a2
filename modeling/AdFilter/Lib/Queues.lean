import AdFilter.Lib.Linked

/-!
# Chains that are added to at their end

The owner of a singly linked chain keeps its first and its last cell, and both are null
when it is empty.
-/

namespace AdFilter.Lib.Queues

open AdFilter.Lib.Linked

variable {α : Type}

structure Tailed (next : α → Option α) (head tail : Option α) (as : List α) : Prop where
  spans : Spans next head as
  last : tail = as.getLast?

variable {next next' : α → Option α} {head tail : Option α} {as : List α}

theorem tailed_nil (next : α → Option α) : Tailed next none none [] := ⟨rfl, rfl⟩

theorem Tailed.congr (h : Tailed next head tail as) (hq : ∀ a ∈ as, next' a = next a) :
    Tailed next' head tail as :=
  ⟨h.spans.congr hq, h.last⟩

theorem Tailed.eq_nil (h : Tailed next head none as) : as = [] :=
  List.getLast?_eq_none_iff.mp h.last.symm

theorem Tailed.last_mem {t : α} (h : Tailed next head (some t) as) : t ∈ as :=
  List.mem_of_getLast? h.last.symm

section Update

variable [DecidableEq α]

/-- A cell becomes the first and the last one. -/
theorem Tailed.start (h : Tailed next head none as) (a : α) :
    Tailed (Function.update next a none) (some a) (some a) (as ++ [a]) := by
  rw [h.eq_nil]
  exact ⟨⟨rfl, Function.update_self _ _ _⟩, rfl⟩

/-- A cell goes after the last one. -/
theorem Tailed.append {t : α} (h : Tailed next head (some t) as) {a : α} (ha : a ∉ as) :
    Tailed (Function.update (Function.update next a none) t (some a)) head (some a)
      (as ++ [a]) := by
  refine ⟨?_, by simp⟩
  exact (h.spans.update_of_notMem ha none).extend h.last.symm (Function.update_self _ _ _) ha

end Update

end AdFilter.Lib.Queues
