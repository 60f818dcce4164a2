import Mathlib.Data.List.Nodup
import Mathlib.Logic.Function.Basic
import Mathlib.Tactic.Common

/-!
# Singly linked chains

`Spans next p as` says that the chain that starts at `p` runs through `as` and
ends there. A chain that comes back to a cell it has left runs through no list.
-/

namespace AdFilter.Lib.Linked

variable {α : Type}

def Spans (next : α → Option α) : Option α → List α → Prop
  | p, [] => p = none
  | p, a :: as => p = some a ∧ Spans next (next a) as

variable {next next' : α → Option α}

theorem spans_nil_iff {as : List α} : Spans next none as ↔ as = [] := by
  cases as <;> simp [Spans]

theorem spans_some_iff {a : α} {as : List α} :
    Spans next (some a) as ↔ ∃ bs, as = a :: bs ∧ Spans next (next a) bs := by
  cases as with
  | nil => simp [Spans]
  | cons b bs =>
    simp only [Spans, Option.some.injEq, List.cons.injEq]
    constructor
    · rintro ⟨rfl, h⟩
      exact ⟨bs, ⟨rfl, rfl⟩, h⟩
    · rintro ⟨_, ⟨rfl, rfl⟩, h⟩
      exact ⟨rfl, h⟩

/-- The list is determined by the chain. -/
theorem Spans.unique {p : Option α} {as : List α} (h : Spans next p as) :
    ∀ {bs : List α}, Spans next p bs → as = bs := by
  induction as generalizing p with
  | nil =>
    intro bs hb
    obtain rfl := h
    exact (spans_nil_iff.mp hb).symm
  | cons a as ih =>
    intro bs hb
    obtain ⟨rfl, ht⟩ := h
    obtain ⟨cs, rfl, hc⟩ := spans_some_iff.mp hb
    rw [ih ht hc]

/-- Only the links of the chain's own cells count. -/
theorem Spans.congr {p : Option α} {as : List α} (h : Spans next p as)
    (hq : ∀ a ∈ as, next' a = next a) : Spans next' p as := by
  induction as generalizing p with
  | nil => exact h
  | cons a as ih =>
    obtain ⟨rfl, ht⟩ := h
    refine ⟨rfl, ?_⟩
    rw [hq a List.mem_cons_self]
    exact ih ht fun b hb => hq b (List.mem_cons_of_mem a hb)

/-- A cell that links to itself starts no chain that ends. -/
theorem not_spans_of_self {a : α} (h : next a = some a) (as : List α) :
    ¬ Spans next (some a) as := by
  induction as with
  | nil => exact fun hl => Option.some_ne_none a hl
  | cons b bs ih =>
    rintro ⟨hb, ht⟩
    obtain rfl := Option.some.inj hb
    exact ih (h ▸ ht)

/-- A chain that ends has no repeats. -/
theorem Spans.nodup {p : Option α} {as : List α} (h : Spans next p as) : as.Nodup := by
  induction as generalizing p with
  | nil => exact List.nodup_nil
  | cons a as ih =>
    obtain ⟨rfl, ht⟩ := h
    refine List.nodup_cons.mpr ⟨fun hm => ?_, ih ht⟩
    -- a chain that comes back to its first cell is longer than itself
    obtain ⟨bs, cs, rfl⟩ := List.append_of_mem hm
    have hsuffix : ∀ (p : Option α) (bs : List α), Spans next p (bs ++ a :: cs) →
        Spans next (some a) (a :: cs) := by
      intro p bs
      induction bs generalizing p with
      | nil => exact fun hs => ⟨rfl, hs.2⟩
      | cons b bs ihb => exact fun hs => ihb (next b) hs.2
    have hself : Spans next (some a) (a :: (bs ++ a :: cs)) := ⟨rfl, ht⟩
    have heq := (hsuffix _ bs ht).unique hself
    have hlen := congrArg List.length heq
    simp only [List.length_cons, List.length_append] at hlen
    omega

/-- A chain that ends does not leave its list. -/
theorem Spans.next_mem {p : Option α} {as : List α} (h : Spans next p as) {c d : α} (hc : c ∈ as)
    (hd : next c = some d) : d ∈ as := by
  induction as generalizing p with
  | nil => exact absurd hc List.not_mem_nil
  | cons a as ih =>
    obtain ⟨rfl, ht⟩ := h
    rcases List.mem_cons.mp hc with rfl | hc
    · rw [hd] at ht
      obtain ⟨bs, rfl, -⟩ := spans_some_iff.mp ht
      exact List.mem_cons_of_mem c List.mem_cons_self
    · exact List.mem_cons_of_mem a (ih ht hc)

/-- Cells that a chain never leaves, and none of which is the last. -/
def Endless (next : α → Option α) (C : α → Prop) : Prop := ∀ c, C c → ∃ d, next c = some d ∧ C d

/-- A chain ends, or goes on without end. -/
theorem spans_or_endless (next : α → Option α) (p : Option α) :
    (∃ as, Spans next p as) ∨ ∃ C c, Endless next C ∧ p = some c ∧ C c := by
  by_cases h : ∃ as, Spans next p as
  · exact Or.inl h
  · right
    cases p with
    | none => exact absurd ⟨[], rfl⟩ h
    | some c =>
      refine ⟨fun c => ¬ ∃ as, Spans next (some c) as, c, ?_, rfl, h⟩
      intro c hc
      cases hn : next c with
      | none => exact absurd ⟨[c], rfl, hn⟩ hc
      | some d =>
        refine ⟨d, rfl, fun ⟨as, hs⟩ => hc ⟨c :: as, rfl, ?_⟩⟩
        rw [hn]
        exact hs

section Update

variable [DecidableEq α]

/-- A link may skip a cell that the chain never leaves. -/
theorem Endless.update {C : α → Prop} (h : Endless next C) {c : α} (hc : C c) (b : α) :
    Endless (Function.update next b (next c)) C := by
  intro a ha
  rw [Function.update_apply]
  split
  · exact h c hc
  · exact h a ha

theorem Spans.update_of_notMem {p : Option α} {as : List α} (h : Spans next p as) {a : α}
    (ha : a ∉ as) (q : Option α) : Spans (Function.update next a q) p as :=
  h.congr fun _ hb => Function.update_of_ne (ne_of_mem_of_not_mem hb ha) _ _

/-- A new cell in front. -/
theorem Spans.push {p : Option α} {as : List α} (h : Spans next p as) {a : α} (ha : a ∉ as) :
    Spans (Function.update next a p) (some a) (a :: as) :=
  ⟨rfl, by rw [Function.update_self]; exact h.update_of_notMem ha p⟩

/-- The cell after `b` is taken out by a write to the link of `b`. -/
theorem Spans.unlink_after {p : Option α} {as cs : List α} {b a : α}
    (h : Spans next p (as ++ b :: a :: cs)) (hn : (as ++ b :: a :: cs).Nodup) :
    Spans (Function.update next b (next a)) p (as ++ b :: cs) := by
  induction as generalizing p with
  | nil =>
    obtain ⟨rfl, hb, ht⟩ := h
    have hbc : b ∉ cs := fun hm => (List.nodup_cons.mp hn).1 (List.mem_cons_of_mem a hm)
    refine ⟨rfl, ?_⟩
    rw [Function.update_self]
    exact ht.update_of_notMem hbc _
  | cons c as ih =>
    obtain ⟨rfl, ht⟩ := h
    rw [List.cons_append, List.nodup_cons] at hn
    have hne : c ≠ b := fun he => hn.1 (he ▸ List.mem_append_right as List.mem_cons_self)
    refine ⟨rfl, ?_⟩
    rw [Function.update_of_ne hne]
    exact ih ht hn.2

/-- A new cell at the end, by a write to the link of the last one. -/
theorem Spans.extend {p : Option α} {as : List α} {t a : α} (h : Spans next p as)
    (ht : as.getLast? = some t) (ha : next a = none) (hne : a ∉ as) :
    Spans (Function.update next t (some a)) p (as ++ [a]) := by
  induction as generalizing p with
  | nil => exact absurd ht (by simp)
  | cons b bs ih =>
    have hb : b ∉ bs := (List.nodup_cons.mp h.nodup).1
    obtain ⟨rfl, hs⟩ := h
    refine ⟨rfl, ?_⟩
    cases bs with
    | nil =>
      obtain rfl : b = t := by simpa using ht
      have hab : a ≠ b := fun he => hne (he ▸ List.mem_singleton_self b)
      rw [Function.update_self]
      exact ⟨rfl, by rw [Function.update_of_ne hab]; exact ha⟩
    | cons c cs =>
      rw [List.getLast?_cons_cons] at ht
      have hbt : b ≠ t := fun he => hb (he ▸ List.mem_of_getLast? ht)
      rw [Function.update_of_ne hbt]
      exact ih hs ht fun hm => hne (List.mem_cons_of_mem b hm)

end Update

end AdFilter.Lib.Linked
