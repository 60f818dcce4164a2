import AdFilter.Lib.Pool
import Mathlib.Data.List.Nodup
import Mathlib.Data.List.Pairwise
import Mathlib.Logic.Function.Basic

/-!
# Holders of blocks

Several holders with a list of blocks each. Every block is live and has one holder:
this is kept when a block is handed out, passed on, or released by its holder.
-/

namespace AdFilter.Lib.Holdings

open AdFilter.Lib.Pool

variable {ι α : Type} {own own' : ι → List α} {live : List α}

structure Owned (own : ι → List α) (live : List α) : Prop where
  valid : ∀ i, ∀ a ∈ own i, a ∈ live
  once : ∀ i, (own i).Nodup
  apart : ∀ i j, i ≠ j → ∀ a ∈ own i, a ∉ own j
  distinct : live.Nodup

theorem owned_none (h : live.Nodup) : Owned (fun _ : ι => ([] : List α)) live :=
  ⟨fun _ _ ha => absurd ha List.not_mem_nil, fun _ => List.nodup_nil,
    fun _ _ _ _ ha => absurd ha List.not_mem_nil, h⟩

/-- A holder may forget blocks. -/
theorem Owned.sublist (h : Owned own live) (hs : ∀ i, (own' i).Sublist (own i)) :
    Owned own' live where
  valid i a ha := h.valid i a ((hs i).subset ha)
  once i := (h.once i).sublist (hs i)
  apart i j hij a ha hb := h.apart i j hij a ((hs i).subset ha) ((hs j).subset hb)
  distinct := h.distinct

/-- All blocks of some holders, one after the other. -/
theorem Owned.nodup_flatMap (h : Owned own live) {is : List ι} (hn : is.Nodup) :
    (is.flatMap own).Nodup :=
  List.nodup_flatMap.mpr ⟨fun i _ => h.once i,
    hn.imp fun hij a ha hb => h.apart _ _ hij a ha hb⟩

theorem apart_of_nodup_flatMap {is : List ι} (h : (is.flatMap own).Nodup) {i j : ι} (hi : i ∈ is)
    (hj : j ∈ is) (hij : i ≠ j) {a : α} (ha : a ∈ own i) : a ∉ own j := by
  have hsymm : Std.Symm (Function.onFun List.Disjoint own) := ⟨fun _ _ hd _ hb hc => hd hc hb⟩
  exact fun hmem => (List.nodup_flatMap.mp h).2.forall hi hj hij ha hmem

/-- The holders of different indices can give all their blocks back. -/
theorem Owned.freeAll [DecidableEq α] {l : Ledger α} (h : Owned own l.live) {is : List ι}
    (hn : is.Nodup) :
    l.freeAll (is.flatMap own) = { l with live := l.live.diff (is.flatMap own) } := by
  apply freeAll_live (h.nodup_flatMap hn)
  intro a ha
  obtain ⟨i, -, hi⟩ := List.mem_flatMap.mp ha
  exact h.valid i a hi

variable [DecidableEq ι]

/-- A fresh block goes to a holder. -/
theorem Owned.take (h : Owned own live) (i : ι) {a : α} (ha : a ∉ live) :
    Owned (Function.update own i (a :: own i)) (a :: live) := by
  have hold : ∀ j, ∀ b ∈ Function.update own i (a :: own i) j, b = a ∧ j = i ∨ b ∈ own j := by
    intro j b hb
    rcases eq_or_ne j i with rfl | hne
    · rw [Function.update_self] at hb
      rcases List.mem_cons.mp hb with heq | hmem
      · exact Or.inl ⟨heq, rfl⟩
      · exact Or.inr hmem
    · rw [Function.update_of_ne hne] at hb
      exact Or.inr hb
  refine ⟨fun j b hb => ?_, fun j => ?_, fun j k hjk b hb hc => ?_,
    List.nodup_cons.mpr ⟨ha, h.distinct⟩⟩
  · rcases hold j b hb with ⟨rfl, -⟩ | hmem
    · exact List.mem_cons_self
    · exact List.mem_cons_of_mem a (h.valid j b hmem)
  · rcases eq_or_ne j i with rfl | hne
    · rw [Function.update_self]
      exact List.nodup_cons.mpr ⟨fun hmem => ha (h.valid j a hmem), h.once j⟩
    · rw [Function.update_of_ne hne]
      exact h.once j
  · rcases hold j b hb with ⟨rfl, rfl⟩ | hj
    · rcases hold k b hc with ⟨-, rfl⟩ | hk
      · exact hjk rfl
      · exact ha (h.valid k b hk)
    · rcases hold k b hc with ⟨rfl, rfl⟩ | hk
      · exact ha (h.valid j b hj)
      · exact h.apart j k hjk b hj hk

variable [DecidableEq α]

/-- A holder forgets its blocks and gets some of those of another. -/
theorem Owned.put (h : Owned own live) {i j : ι} (hij : i ≠ j) {as : List α} (hs : as ⊆ own i)
    (hn : as.Nodup) :
    Owned (Function.update (Function.update own i ((own i).diff as)) j as) live := by
  have hold : ∀ k, ∀ b ∈ Function.update (Function.update own i ((own i).diff as)) j as k,
      b ∈ as ∧ k = j ∨ b ∉ as ∧ b ∈ own k := by
    intro k b hb
    rcases eq_or_ne k j with rfl | hkj
    · rw [Function.update_self] at hb
      exact Or.inl ⟨hb, rfl⟩
    · rw [Function.update_of_ne hkj] at hb
      rcases eq_or_ne k i with rfl | hki
      · rw [Function.update_self, (h.once k).mem_sdiff_iff] at hb
        exact Or.inr ⟨hb.2, hb.1⟩
      · rw [Function.update_of_ne hki] at hb
        exact Or.inr ⟨fun hmem => h.apart i k (Ne.symm hki) b (hs hmem) hb, hb⟩
  refine ⟨fun k b hb => ?_, fun k => ?_, fun k l hkl b hb hc => ?_, h.distinct⟩
  · rcases hold k b hb with ⟨hmem, -⟩ | ⟨-, hmem⟩
    · exact h.valid i b (hs hmem)
    · exact h.valid k b hmem
  · rcases eq_or_ne k j with rfl | hkj
    · rw [Function.update_self]
      exact hn
    · rw [Function.update_of_ne hkj]
      rcases eq_or_ne k i with rfl | hki
      · rw [Function.update_self]
        exact (h.once k).diff
      · rw [Function.update_of_ne hki]
        exact h.once k
  · rcases hold k b hb with ⟨hmem, rfl⟩ | ⟨hne, hk⟩
    · rcases hold l b hc with ⟨-, rfl⟩ | ⟨hne, -⟩
      · exact hkl rfl
      · exact hne hmem
    · rcases hold l b hc with ⟨hmem, -⟩ | ⟨-, hl⟩
      · exact hne hmem
      · exact h.apart k l hkl b hk hl

/-- A holder releases some of its blocks. -/
theorem Owned.release (h : Owned own live) (i : ι) {as : List α} (hs : as ⊆ own i) :
    Owned (Function.update own i ((own i).diff as)) (live.diff as) := by
  refine ⟨fun j a ha => ?_, fun j => ?_, fun j k hjk a ha hb => ?_, h.distinct.diff⟩
  · rcases eq_or_ne j i with rfl | hne
    · rw [Function.update_self, (h.once j).mem_sdiff_iff] at ha
      exact h.distinct.mem_sdiff_iff.mpr ⟨h.valid j a ha.1, ha.2⟩
    · rw [Function.update_of_ne hne] at ha
      exact h.distinct.mem_sdiff_iff.mpr ⟨h.valid j a ha, fun hmem => h.apart j i hne a ha (hs hmem)⟩
  · rcases eq_or_ne j i with rfl | hne
    · rw [Function.update_self]
      exact (h.once j).diff
    · rw [Function.update_of_ne hne]
      exact h.once j
  · have hsub : ∀ l, Function.update own i ((own i).diff as) l ⊆ own l := by
      intro l
      rcases eq_or_ne l i with rfl | hne
      · rw [Function.update_self]
        exact List.diff_subset _ _
      · rw [Function.update_of_ne hne]
        exact List.Subset.refl _
    exact h.apart j k hjk a (hsub j ha) (hsub k hb)

theorem Owned.release_all (h : Owned own live) (i : ι) :
    Owned (Function.update own i []) (live.diff (own i)) := by
  apply (h.release i (List.Subset.refl (own i))).sublist
  intro j
  rcases eq_or_ne j i with rfl | hne
  · rw [Function.update_self]
    exact List.nil_sublist _
  · rw [Function.update_of_ne hne, Function.update_of_ne hne]

/-! ## Holders of all blocks -/

/-- Every live block has exactly one holder. -/
structure Accounted {ι α : Type} (own : ι → List α) (live : List α) : Prop
    extends Owned own live where
  covers : ∀ a ∈ live, ∃ i, a ∈ own i

omit [DecidableEq α] in
/-- One holder has everything. -/
theorem accounted_one (i : ι) (h : live.Nodup) :
    Accounted (Function.update (fun _ : ι => ([] : List α)) i live) live where
  valid j a ha := by
    rcases eq_or_ne j i with rfl | hne
    · rwa [Function.update_self] at ha
    · rw [Function.update_of_ne hne] at ha
      exact absurd ha List.not_mem_nil
  once j := by
    rcases eq_or_ne j i with rfl | hne
    · rwa [Function.update_self]
    · rw [Function.update_of_ne hne]
      exact List.nodup_nil
  apart j k hjk a ha hb := by
    rcases eq_or_ne j i with rfl | hne
    · rw [Function.update_of_ne (Ne.symm hjk)] at hb
      exact List.not_mem_nil hb
    · rw [Function.update_of_ne hne] at ha
      exact List.not_mem_nil ha
  distinct := h
  covers a ha := ⟨i, by rwa [Function.update_self]⟩

omit [DecidableEq α] in
theorem Accounted.take (h : Accounted own live) (i : ι) {a : α} (ha : a ∉ live) :
    Accounted (Function.update own i (a :: own i)) (a :: live) where
  toOwned := h.toOwned.take i ha
  covers b hb := by
    rcases List.mem_cons.mp hb with rfl | hb
    · exact ⟨i, by rw [Function.update_self]; exact List.mem_cons_self⟩
    · obtain ⟨j, hj⟩ := h.covers b hb
      refine ⟨j, ?_⟩
      rcases eq_or_ne j i with rfl | hne
      · rw [Function.update_self]
        exact List.mem_cons_of_mem a hj
      · rwa [Function.update_of_ne hne]

theorem Accounted.release (h : Accounted own live) (i : ι) {as : List α} (hs : as ⊆ own i) :
    Accounted (Function.update own i ((own i).diff as)) (live.diff as) where
  toOwned := h.toOwned.release i hs
  covers a ha := by
    rw [h.distinct.mem_sdiff_iff] at ha
    obtain ⟨j, hj⟩ := h.covers a ha.1
    refine ⟨j, ?_⟩
    rcases eq_or_ne j i with rfl | hne
    · rw [Function.update_self, (h.once j).mem_sdiff_iff]
      exact ⟨hj, ha.2⟩
    · rwa [Function.update_of_ne hne]

/-- A holder gives everything back. -/
theorem Accounted.release_all (h : Accounted own live) (i : ι) :
    Accounted (Function.update own i []) (live.diff (own i)) := by
  have hdiff : (own i).diff (own i) = [] := by
    rw [List.eq_nil_iff_forall_not_mem]
    intro a ha
    exact ((h.once i).mem_sdiff_iff.mp ha).2 ((h.once i).mem_sdiff_iff.mp ha).1
  have hr := h.release i (List.Subset.refl (own i))
  rwa [hdiff] at hr

omit [DecidableEq ι] [DecidableEq α] in
/-- The order in which a holder has its blocks does not count. -/
theorem Accounted.perm (h : Accounted own live) (hp : ∀ i, (own' i).Perm (own i)) :
    Accounted own' live where
  valid i a ha := h.valid i a ((hp i).subset ha)
  once i := (hp i).nodup_iff.mpr (h.once i)
  apart i j hij a ha hb := h.apart i j hij a ((hp i).subset ha) ((hp j).subset hb)
  distinct := h.distinct
  covers a ha := by
    obtain ⟨i, hi⟩ := h.covers a ha
    exact ⟨i, (hp i).symm.subset hi⟩

end AdFilter.Lib.Holdings
