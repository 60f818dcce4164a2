import AdFilter.Lib.Linked
import Mathlib.Data.List.Perm.Subperm

/-!
# Deferred reclamation

Blocks with at most one owner each. An owner that lets go of its block puts it on
a chain of retired blocks, and a sweeper takes blocks off that chain and frees
them. `Sound` keeps the two ways to reach a block apart.
-/

namespace AdFilter.Lib.Reclaim

open AdFilter.Lib.Linked

@[ext]
structure View (κ α : Type) where
  owner : κ → Option α
  /-- The chain of retired blocks. -/
  head : Option α
  next : α → Option α
  live : List α

variable {κ α : Type}

/-- The retired blocks are `cs`, and what is owned is live, not retired, and has one owner. -/
structure Sound (v : View κ α) (cs : List α) : Prop where
  spans : Spans v.next v.head cs
  nodup : cs.Nodup
  retired : ∀ c ∈ cs, c ∈ v.live
  owned : ∀ k c, v.owner k = some c → c ∈ v.live ∧ c ∉ cs
  unique : ∀ k k' c, v.owner k = some c → v.owner k' = some c → k = k'

section Owners

variable [DecidableEq κ]

/-- An owner loses its block, which nothing reaches any more. -/
def View.forget (v : View κ α) (k : κ) : View κ α :=
  { v with owner := Function.update v.owner k none }

theorem owner_of_update_none {owner : κ → Option α} {k k' : κ} {c : α}
    (h : Function.update owner k none k' = some c) : k' ≠ k ∧ owner k' = some c := by
  by_cases hk : k' = k
  · subst hk
    rw [Function.update_self] at h
    exact absurd h.symm (Option.some_ne_none c)
  · rw [Function.update_of_ne hk] at h
    exact ⟨hk, h⟩

theorem Sound.forget {v : View κ α} {cs : List α} (h : Sound v cs) (k : κ) :
    Sound (v.forget k) cs where
  spans := h.spans
  nodup := h.nodup
  retired := h.retired
  owned k' c hk := h.owned k' c (owner_of_update_none hk).2
  unique k₁ k₂ c h₁ h₂ := h.unique k₁ k₂ c (owner_of_update_none h₁).2 (owner_of_update_none h₂).2

variable [DecidableEq α]

/-- An owner gets a new block, whose link holds anything. -/
def View.adopt (v : View κ α) (k : κ) (c : α) (p : Option α) : View κ α :=
  { v with
    owner := Function.update v.owner k (some c)
    next := Function.update v.next c p
    live := c :: v.live }

theorem owner_of_adopt {v : View κ α} {k k' : κ} {c d : α} {p : Option α}
    (h : (v.adopt k c p).owner k' = some d) : k' = k ∧ d = c ∨ k' ≠ k ∧ v.owner k' = some d := by
  by_cases hk : k' = k
  · subst hk
    simp only [View.adopt, Function.update_self, Option.some.injEq] at h
    exact Or.inl ⟨rfl, h.symm⟩
  · simp only [View.adopt, Function.update_of_ne hk] at h
    exact Or.inr ⟨hk, h⟩

/-- A block that is not live has no owner yet, so its new owner is the only one. -/
theorem adopt_unique {v : View κ α} (hlive : ∀ k d, v.owner k = some d → d ∈ v.live)
    (hunique : ∀ k k' d, v.owner k = some d → v.owner k' = some d → k = k') (k : κ) {c : α}
    (hc : c ∉ v.live) (p : Option α) (k₁ k₂ : κ) (d : α) (h₁ : (v.adopt k c p).owner k₁ = some d)
    (h₂ : (v.adopt k c p).owner k₂ = some d) : k₁ = k₂ := by
  rcases owner_of_adopt h₁ with ⟨rfl, rfl⟩ | ⟨-, ho₁⟩
  · rcases owner_of_adopt h₂ with ⟨rfl, -⟩ | ⟨-, ho₂⟩
    · rfl
    · exact absurd (hlive k₂ d ho₂) hc
  · rcases owner_of_adopt h₂ with ⟨rfl, rfl⟩ | ⟨-, ho₂⟩
    · exact absurd (hlive k₁ d ho₁) hc
    · exact hunique k₁ k₂ d ho₁ ho₂

theorem Sound.adopt {v : View κ α} {cs : List α} (h : Sound v cs) (k : κ) {c : α}
    (hc : c ∉ v.live) (p : Option α) : Sound (v.adopt k c p) cs := by
  have hcs : c ∉ cs := fun hm => hc (h.retired c hm)
  refine ⟨h.spans.update_of_notMem hcs p, h.nodup,
    fun d hd => List.mem_cons_of_mem c (h.retired d hd), fun k' d hd => ?_,
    adopt_unique (fun k' d ho => (h.owned k' d ho).1) h.unique k hc p⟩
  rcases owner_of_adopt hd with ⟨-, rfl⟩ | ⟨-, ho⟩
  · exact ⟨List.mem_cons_self, hcs⟩
  · exact ⟨List.mem_cons_of_mem c (h.owned k' d ho).1, (h.owned k' d ho).2⟩

omit [DecidableEq κ] in
/-- The link of a block that is not live does not matter. -/
theorem Sound.write {v : View κ α} {cs : List α} (h : Sound v cs) {c : α} (hc : c ∉ v.live)
    (p : Option α) : Sound { v with next := Function.update v.next c p } cs :=
  { h with spans := h.spans.update_of_notMem (fun hm => hc (h.retired c hm)) p }

/-- An owner lets go of its block, which becomes the first of the chain. -/
def View.retire (v : View κ α) (k : κ) (c : α) : View κ α :=
  { v with
    owner := Function.update v.owner k none
    head := some c
    next := Function.update v.next c v.head }

theorem Sound.retire {v : View κ α} {cs : List α} (h : Sound v cs) {k : κ} {c : α}
    (hk : v.owner k = some c) : Sound (v.retire k c) (c :: cs) := by
  obtain ⟨hlive, hcs⟩ := h.owned k c hk
  refine ⟨h.spans.push hcs, List.nodup_cons.mpr ⟨hcs, h.nodup⟩, ?_, ?_, ?_⟩
  · intro d hd
    rcases List.mem_cons.mp hd with rfl | hd
    · exact hlive
    · exact h.retired d hd
  · intro k' d hd
    obtain ⟨hne, ho⟩ := owner_of_update_none hd
    refine ⟨(h.owned k' d ho).1, fun hm => ?_⟩
    rcases List.mem_cons.mp hm with rfl | hm
    · exact hne (h.unique k' k d ho hk)
    · exact (h.owned k' d ho).2 hm
  · intro k₁ k₂ d h₁ h₂
    exact h.unique k₁ k₂ d (owner_of_update_none h₁).2 (owner_of_update_none h₂).2

end Owners

section Sweep

variable [DecidableEq α]

/-- The sweeper takes `c` out, after the cell `prev` or from the front, and frees it. -/
def View.release (v : View κ α) (prev : Option α) (c : α) : View κ α :=
  match prev with
  | none => { v with head := v.next c, live := v.live.erase c }
  | some b => { v with next := Function.update v.next b (v.next c), live := v.live.erase c }

theorem Sound.release {v : View κ α} {ks rest : List α} {c : α} (h : Sound v (ks ++ c :: rest)) :
    Sound (v.release ks.getLast? c) (ks ++ rest) := by
  have hsub : (ks ++ rest).Sublist (ks ++ c :: rest) :=
    (List.sublist_cons_self c rest).append_left ks
  have hnodup := h.nodup.sublist hsub
  have hcmem : c ∈ ks ++ c :: rest := List.mem_append_right ks List.mem_cons_self
  have hc : c ∉ ks ++ rest := fun hm => (List.nodup_middle.mp h.nodup).notMem hm
  have hret : ∀ d ∈ ks ++ rest, d ∈ v.live.erase c := fun d hd =>
    (List.mem_erase_of_ne (ne_of_mem_of_not_mem hd hc)).mpr (h.retired d (hsub.subset hd))
  have hown : ∀ k d, v.owner k = some d → d ∈ v.live.erase c ∧ d ∉ ks ++ rest := fun k d hd =>
    ⟨(List.mem_erase_of_ne (ne_of_mem_of_not_mem hcmem (h.owned k d hd).2).symm).mpr
      (h.owned k d hd).1, fun hm => (h.owned k d hd).2 (hsub.subset hm)⟩
  rcases List.eq_nil_or_concat ks with rfl | ⟨as, b, rfl⟩
  · obtain ⟨-, ht⟩ := h.spans
    exact ⟨ht, hnodup, hret, hown, h.unique⟩
  · have hs : Spans v.next v.head (as ++ b :: c :: rest) := by simpa using h.spans
    have hn : (as ++ b :: c :: rest).Nodup := by simpa using h.nodup
    have hspans := hs.unlink_after hn
    rw [List.concat_eq_append] at hret hown hnodup ⊢
    rw [List.getLast?_concat]
    rw [List.append_cons] at hspans
    exact ⟨hspans, hnodup, hret, hown, h.unique⟩

/-- What is taken out keeps its link. -/
theorem Sound.next_release {v : View κ α} {ks rest : List α} {c : α}
    (h : Sound v (ks ++ c :: rest)) : (v.release ks.getLast? c).next c = v.next c := by
  cases hl : ks.getLast? with
  | none => rfl
  | some b =>
    have hb : c ≠ b := by
      intro hcb
      subst hcb
      exact (List.nodup_middle.mp h.nodup).notMem
        (List.mem_append_left rest (List.mem_of_getLast? hl))
    exact Function.update_of_ne hb _ _

/-- The sweeper goes on with the link it read before. -/
theorem Sound.spans_release {v : View κ α} {ks rest : List α} {c : α}
    (h : Sound v (ks ++ c :: rest)) (hs : Spans v.next (v.next c) rest) :
    Spans (v.release ks.getLast? c).next (v.next c) rest := by
  cases hl : ks.getLast? with
  | none => exact hs
  | some b =>
    have hb : b ∈ ks := List.mem_of_getLast? hl
    have hrest : b ∉ rest := fun hm =>
      List.disjoint_of_nodup_append h.nodup hb (List.mem_cons_of_mem c hm)
    exact hs.update_of_notMem hrest _

end Sweep

theorem Sound.length_le {v : View κ α} {cs : List α} (h : Sound v cs) :
    cs.length ≤ v.live.length :=
  (List.subperm_of_subset h.nodup h.retired).length_le

/-! ## Chains that need not end -/

/-- The retired blocks are among `R`, which the chain does not leave, and what is owned
is live, outside `R`, and has one owner. -/
structure Apart (v : View κ α) (R : α → Prop) : Prop where
  head : ∀ c, v.head = some c → R c
  closed : ∀ c d, R c → v.next c = some d → R d
  retired : ∀ c, R c → c ∈ v.live
  owned : ∀ k c, v.owner k = some c → c ∈ v.live ∧ ¬ R c
  unique : ∀ k k' c, v.owner k = some c → v.owner k' = some c → k = k'

theorem Sound.apart {v : View κ α} {cs : List α} (h : Sound v cs) : Apart v (· ∈ cs) where
  head c hc := by
    have hs := h.spans
    rw [hc] at hs
    obtain ⟨bs, rfl, -⟩ := spans_some_iff.mp hs
    exact List.mem_cons_self
  closed c d hc hd := h.spans.next_mem hc hd
  retired := h.retired
  owned := h.owned
  unique := h.unique

/-- Where the chain ends, the blocks on it are sound. -/
theorem Apart.sound {v : View κ α} {R : α → Prop} (h : Apart v R) {cs : List α}
    (hs : Spans v.next v.head cs) : Sound v cs ∧ ∀ c ∈ cs, R c := by
  have hR : ∀ (p : Option α) (cs : List α), (∀ c, p = some c → R c) → Spans v.next p cs →
      ∀ c ∈ cs, R c := by
    intro p cs
    induction cs generalizing p with
    | nil => exact fun _ _ c hc => absurd hc List.not_mem_nil
    | cons a as ih =>
      rintro hp ⟨rfl, ht⟩ c hc
      have ha := hp a rfl
      rcases List.mem_cons.mp hc with rfl | hc
      · exact ha
      · exact ih _ (fun d hd => h.closed a d ha hd) ht c hc
  have hcs := hR _ cs h.head hs
  exact ⟨⟨hs, hs.nodup, fun c hc => h.retired c (hcs c hc),
    fun k c hk => ⟨(h.owned k c hk).1, fun hm => (h.owned k c hk).2 (hcs c hm)⟩, h.unique⟩, hcs⟩

section Operations

variable [DecidableEq κ] {v : View κ α} {R : α → Prop}

theorem Apart.forget (h : Apart v R) (k : κ) : Apart (v.forget k) R where
  head := h.head
  closed := h.closed
  retired := h.retired
  owned k' c hk := h.owned k' c (owner_of_update_none hk).2
  unique k₁ k₂ c h₁ h₂ := h.unique k₁ k₂ c (owner_of_update_none h₁).2 (owner_of_update_none h₂).2

variable [DecidableEq α]

theorem Apart.adopt (h : Apart v R) (k : κ) {c : α} (hc : c ∉ v.live) (p : Option α) :
    Apart (v.adopt k c p) R := by
  have hne : ∀ d, R d → d ≠ c := fun d hd he => hc (he ▸ h.retired d hd)
  refine ⟨h.head, fun d e hd he => ?_, fun d hd => List.mem_cons_of_mem c (h.retired d hd),
    fun k' d hd => ?_, adopt_unique (fun k' d ho => (h.owned k' d ho).1) h.unique k hc p⟩
  · simp only [View.adopt, Function.update_of_ne (hne d hd)] at he
    exact h.closed d e hd he
  · rcases owner_of_adopt hd with ⟨-, rfl⟩ | ⟨-, ho⟩
    · exact ⟨List.mem_cons_self, fun hR => hne d hR rfl⟩
    · exact ⟨List.mem_cons_of_mem c (h.owned k' d ho).1, (h.owned k' d ho).2⟩

omit [DecidableEq κ] in
theorem Apart.write (h : Apart v R) {c : α} (hc : c ∉ v.live) (p : Option α) :
    Apart { v with next := Function.update v.next c p } R :=
  { h with
    closed := fun d e hd he => by
      have hne : d ≠ c := fun heq => hc (heq ▸ h.retired d hd)
      simp only [Function.update_of_ne hne] at he
      exact h.closed d e hd he }

omit [DecidableEq κ] in
/-- A live block without an owner goes to the front of the chain, perhaps once more. -/
theorem Apart.push (h : Apart v R) {c : α} (hl : c ∈ v.live) (ho : ∀ k, v.owner k ≠ some c) :
    Apart { v with head := some c, next := Function.update v.next c v.head }
      fun d => d = c ∨ R d where
  head d hd := Or.inl (Option.some.inj hd).symm
  closed d e hd he := by
    right
    by_cases hdc : d = c
    · subst hdc
      simp only [Function.update_self] at he
      exact h.head e he
    · simp only [Function.update_of_ne hdc] at he
      exact h.closed d e (hd.resolve_left hdc) he
  retired d hd := by
    rcases hd with rfl | hd
    · exact hl
    · exact h.retired d hd
  owned k d hd := by
    refine ⟨(h.owned k d hd).1, ?_⟩
    rintro (rfl | hR)
    · exact ho k hd
    · exact (h.owned k d hd).2 hR
  unique := h.unique

theorem Apart.retire (h : Apart v R) {k : κ} {c : α} (hk : v.owner k = some c) :
    Apart (v.retire k c) fun d => d = c ∨ R d := by
  refine (h.forget k).push (h.owned k c hk).1 fun k' hk' => ?_
  obtain ⟨hne, ho⟩ := owner_of_update_none hk'
  exact hne (h.unique k' k c ho hk)

end Operations

end AdFilter.Lib.Reclaim
