import AdFilter.Lib.Reclaim
import Mathlib.Logic.Relation

/-!
# The moves of deferred reclamation

Every block has a label. A move is made for one owner: it may get a first block, give
its block another label, retire it, which labels it `closed`, or lose it. Whatever the
moves of some owners are, the blocks of all others stay as they are.
-/

namespace AdFilter.Lib.Handover

open AdFilter.Lib.Reclaim

variable {κ α σ : Type} [DecidableEq κ] [DecidableEq α]

/-- A view with the labels of the blocks. -/
abbrev Marks (κ α σ : Type) := View κ α × (α → σ)

/-- A move of an owner of `S`, which gives its block no other label than those of `P`. -/
inductive Move (closed : σ) (S : κ → Prop) (P : σ → Prop) : Marks κ α σ → Marks κ α σ → Prop
  | forget (m : Marks κ α σ) (k : κ) (hk : S k) : Move closed S P m (m.1.forget k, m.2)
  | retire (m : Marks κ α σ) (k : κ) (c : α) (hk : S k) (hc : m.1.owner k = some c) :
      Move closed S P m (m.1.retire k c, Function.update m.2 c closed)
  | adopt (m : Marks κ α σ) (k : κ) (c : α) (p : Option α) (s : σ) (hk : S k)
      (hn : m.1.owner k = none) (hc : c ∉ m.1.live) :
      Move closed S P m (m.1.adopt k c p, Function.update m.2 c s)
  | write (m : Marks κ α σ) (c : α) (p : Option α) (s : σ) (hc : c ∉ m.1.live) :
      Move closed S P m ({ m.1 with next := Function.update m.1.next c p }, Function.update m.2 c s)
  | label (m : Marks κ α σ) (k : κ) (c : α) (s : σ) (hk : S k) (hc : m.1.owner k = some c)
      (hs : P s) : Move closed S P m (m.1, Function.update m.2 c s)

/-- Any number of moves, all for owners of `S` and with labels of `P`. -/
abbrev Moves (closed : σ) (S : κ → Prop) (P : σ → Prop) : Marks κ α σ → Marks κ α σ → Prop :=
  Relation.ReflTransGen (Move closed S P)

/-- What is retired is closed, and what is owned is live, not retired, and has one owner. -/
def Held (closed : σ) (m : Marks κ α σ) : Prop :=
  ∃ R, Apart m.1 R ∧ ∀ c, R c → m.2 c = closed

variable {closed : σ} {S T : κ → Prop} {P Q : σ → Prop} {m m' : Marks κ α σ}

theorem Move.mono (h : Move closed S P m m') (hS : ∀ k, S k → T k) (hP : ∀ s, P s → Q s) :
    Move closed T Q m m' := by
  cases h with
  | forget k hk => exact .forget m k (hS k hk)
  | retire k c hk hc => exact .retire m k c (hS k hk) hc
  | adopt k c p s hk hn hc => exact .adopt m k c p s (hS k hk) hn hc
  | write c p s hc => exact .write m c p s hc
  | label k c s hk hc hs => exact .label m k c s (hS k hk) hc (hP s hs)

theorem Moves.mono (h : Moves closed S P m m') (hS : ∀ k, S k → T k) (hP : ∀ s, P s → Q s) :
    Moves closed T Q m m' := by
  induction h with
  | refl => exact .refl
  | tail _ hmove ih => exact ih.tail (hmove.mono hS hP)

/-! ## Chains that end -/

theorem Move.sound (h : Move closed S P m m') (hm : ∃ cs, Sound m.1 cs) : ∃ cs, Sound m'.1 cs := by
  obtain ⟨cs, hs⟩ := hm
  cases h with
  | forget k hk => exact ⟨cs, hs.forget k⟩
  | retire k c hk hc => exact ⟨c :: cs, hs.retire hc⟩
  | adopt k c p s hk hn hc => exact ⟨cs, hs.adopt k hc p⟩
  | write c p s hc => exact ⟨cs, hs.write hc p⟩
  | label k c s hk hc _ => exact ⟨cs, hs⟩

theorem Moves.sound (h : Moves closed S P m m') (hm : ∃ cs, Sound m.1 cs) : ∃ cs, Sound m'.1 cs := by
  induction h with
  | refl => exact hm
  | tail _ hmove ih => exact hmove.sound ih

/-! ## Chains that need not end -/

omit [DecidableEq κ] [DecidableEq α] in
theorem Held.live (hm : Held closed m) {k : κ} {c : α} (hk : m.1.owner k = some c) : c ∈ m.1.live := by
  obtain ⟨R, hR, -⟩ := hm
  exact (hR.owned k c hk).1

omit [DecidableEq κ] [DecidableEq α] in
theorem Held.unique (hm : Held closed m) {k k' : κ} {c : α} (hk : m.1.owner k = some c)
    (hk' : m.1.owner k' = some c) : k = k' := by
  obtain ⟨R, hR, -⟩ := hm
  exact hR.unique k k' c hk hk'

omit [DecidableEq κ] in
/-- One more block is closed and retired. -/
theorem closed_of_push {R : α → Prop} {l : α → σ} {c : α} (h : ∀ d, R d → l d = closed) :
    ∀ d, d = c ∨ R d → Function.update l c closed d = closed := by
  intro d hd
  rw [Function.update_apply]
  split
  · rfl
  · rename_i hne
    exact h d (hd.resolve_left hne)

theorem Move.held (h : Move closed S P m m') (hm : Held closed m) : Held closed m' := by
  obtain ⟨R, hR, hclosed⟩ := hm
  -- a write to a block that is not retired
  have hstay : ∀ (c : α) (s : σ), ¬ R c → ∀ d, R d → Function.update m.2 c s d = closed := by
    intro c s hc d hd
    have hne : d ≠ c := fun he => hc (he ▸ hd)
    rw [Function.update_of_ne hne]
    exact hclosed d hd
  cases h with
  | forget k hk => exact ⟨R, hR.forget k, hclosed⟩
  | retire k c hk hc => exact ⟨_, hR.retire hc, closed_of_push hclosed⟩
  | adopt k c p s hk hn hc =>
    exact ⟨R, hR.adopt k hc p, hstay c s fun hr => hc (hR.retired c hr)⟩
  | write c p s hc => exact ⟨R, hR.write hc p, hstay c s fun hr => hc (hR.retired c hr)⟩
  | label k c s hk hc _ => exact ⟨R, hR, hstay c s (hR.owned k c hc).2⟩

theorem Moves.held (h : Moves closed S P m m') (hm : Held closed m) : Held closed m' := by
  induction h with
  | refl => exact hm
  | tail _ hmove ih => exact hmove.held ih

/-! ## The owners without moves -/

theorem Move.owner (h : Move closed S P m m') {k : κ} (hk : ¬ S k) : m'.1.owner k = m.1.owner k := by
  have hne : ∀ k', S k' → k ≠ k' := fun k' hk' he => hk (he ▸ hk')
  cases h with
  | forget k' hk' => exact Function.update_of_ne (hne k' hk') _ _
  | retire k' c hk' hc => exact Function.update_of_ne (hne k' hk') _ _
  | adopt k' c p s hk' hn hc => exact Function.update_of_ne (hne k' hk') _ _
  | write c p s hc => rfl
  | label k' c s hk' hc _ => rfl

/-- The block of an owner that makes no move keeps its label. -/
theorem Move.kept (h : Move closed S P m m') (hm : Held closed m) {k : κ} (hk : ¬ S k) {c : α}
    (hc : m.1.owner k = some c) : m'.2 c = m.2 c := by
  have hother : ∀ k' d, S k' → m.1.owner k' = some d → c ≠ d := by
    rintro k' d hk' hd rfl
    exact hk (hm.unique hc hd ▸ hk')
  have hfresh : ∀ d, d ∉ m.1.live → c ≠ d := fun d hd he => hd (he ▸ hm.live hc)
  cases h with
  | forget k' hk' => rfl
  | retire k' d hk' hd => exact Function.update_of_ne (hother k' d hk' hd) _ _
  | adopt k' d p s hk' hn hd => exact Function.update_of_ne (hfresh d hd) _ _
  | write d p s hd => exact Function.update_of_ne (hfresh d hd) _ _
  | label k' d s hk' hd _ => exact Function.update_of_ne (hother k' d hk' hd) _ _

theorem Moves.owner (h : Moves closed S P m m') {k : κ} (hk : ¬ S k) :
    m'.1.owner k = m.1.owner k := by
  induction h with
  | refl => rfl
  | tail _ hmove ih => exact (hmove.owner hk).trans ih

theorem Moves.kept (h : Moves closed S P m m') (hm : Held closed m) {k : κ} (hk : ¬ S k) {c : α}
    (hc : m.1.owner k = some c) : m'.2 c = m.2 c := by
  induction h with
  | refl => rfl
  | tail hmoves hmove ih =>
    have howner := (Moves.owner hmoves hk).trans hc
    exact (hmove.kept (Moves.held hmoves hm) hk howner).trans ih

/-! ## The owners that keep their block -/

/-- The owner still has its block, with the label or one of `P`, or will not get it back. -/
def Keeps (P : σ → Prop) (m m' : Marks κ α σ) (k : κ) (c : α) : Prop :=
  m'.1.owner k = some c ∧ (m'.2 c = m.2 c ∨ P (m'.2 c)) ∨ m'.1.owner k ≠ some c ∧ c ∈ m'.1.live

theorem Move.keeps (h : Move closed S P m m') (hm : Held closed m) {k : κ} {c : α}
    (hc : m.1.owner k = some c) : Keeps P m m' k c := by
  have hlive := hm.live hc
  have hfresh : ∀ d, d ∉ m.1.live → c ≠ d := fun d hd he => hd (he ▸ hlive)
  cases h with
  | forget k' hk' =>
    by_cases he : k = k'
    · refine Or.inr ⟨?_, hlive⟩
      rw [he]
      exact fun hn => Option.some_ne_none c (hn.symm.trans (Function.update_self _ _ _))
    · exact Or.inl ⟨(Function.update_of_ne he _ _).trans hc, Or.inl rfl⟩
  | retire k' d hk' hd =>
    by_cases he : k = k'
    · refine Or.inr ⟨?_, hlive⟩
      rw [he]
      exact fun hn => Option.some_ne_none c (hn.symm.trans (Function.update_self _ _ _))
    · have hne : c ≠ d := by
        rintro rfl
        exact he (hm.unique hc hd)
      exact Or.inl ⟨(Function.update_of_ne he _ _).trans hc, Or.inl (Function.update_of_ne hne _ _)⟩
  | adopt k' d p s hk' hn hd =>
    have he : k ≠ k' := by
      rintro rfl
      exact Option.some_ne_none c (hc.symm.trans hn)
    exact Or.inl ⟨(Function.update_of_ne he _ _).trans hc,
      Or.inl (Function.update_of_ne (hfresh d hd) _ _)⟩
  | write d p s hd => exact Or.inl ⟨hc, Or.inl (Function.update_of_ne (hfresh d hd) _ _)⟩
  | label k' d s hk' hd hs =>
    refine Or.inl ⟨hc, ?_⟩
    by_cases he : c = d
    · right
      show P (Function.update m.2 d s c)
      rw [he, Function.update_self]
      exact hs
    · exact Or.inl (Function.update_of_ne he _ _)

/-- A block that is not free does not come back to an owner that has lost it. -/
theorem Move.lost (h : Move closed S P m m') {k : κ} {c : α} (hc : m.1.owner k ≠ some c)
    (hl : c ∈ m.1.live) : m'.1.owner k ≠ some c ∧ c ∈ m'.1.live := by
  cases h with
  | forget k' hk' => exact ⟨fun hn => hc (owner_of_update_none hn).2, hl⟩
  | retire k' d hk' hd => exact ⟨fun hn => hc (owner_of_update_none hn).2, hl⟩
  | adopt k' d p s hk' hn hd =>
    refine ⟨fun ho => ?_, List.mem_cons_of_mem d hl⟩
    have ho : Function.update m.1.owner k' (some d) k = some c := ho
    rw [Function.update_apply] at ho
    split at ho
    · obtain rfl := Option.some.inj ho
      exact hd hl
    · exact hc ho
  | write d p s hd => exact ⟨hc, hl⟩
  | label k' d s hk' hd hs => exact ⟨hc, hl⟩

theorem Moves.keeps (h : Moves closed S P m m') (hm : Held closed m) {k : κ} {c : α}
    (hc : m.1.owner k = some c) : Keeps P m m' k c := by
  induction h with
  | refl => exact Or.inl ⟨hc, Or.inl rfl⟩
  | tail hmoves hmove ih =>
    rcases ih with ⟨ho, hlabel⟩ | ⟨ho, hl⟩
    · rcases hmove.keeps (Moves.held hmoves hm) ho with ⟨ho', hlabel'⟩ | hlost
      · refine Or.inl ⟨ho', ?_⟩
        rcases hlabel' with heq | hP
        · rw [heq]
          exact hlabel
        · exact Or.inr hP
      · exact Or.inr hlost
    · exact Or.inr (hmove.lost ho hl)

/-! ## A block that is retired twice -/

/-- A block goes to the front of the chain while its owner keeps it. -/
def push (closed : σ) (m : Marks κ α σ) (c : α) : Marks κ α σ :=
  ({ m.1 with head := some c, next := Function.update m.1.next c m.1.head },
    Function.update m.2 c closed)

/-- The second time the block is linked to itself, and the owner loses it. -/
def requeue (closed : σ) (m : Marks κ α σ) (k : κ) (c : α) : Marks κ α σ :=
  ({ m.1.retire k c with next := Function.update m.1.next c (some c) },
    Function.update m.2 c closed)

theorem requeue_eq (m : Marks κ α σ) (k : κ) (c : α) :
    requeue closed m k c = ((push closed (push closed m c) c).1.forget k,
      (push closed (push closed m c) c).2) := by
  simp only [requeue, push, View.retire, View.forget, Function.update_idem]

omit [DecidableEq κ] in
/-- The push does not see a write to another block. -/
theorem push_write (m : Marks κ α σ) {c d : α} (h : d ≠ c) (p : Option α) (s : σ) :
    push closed ({ m.1 with next := Function.update m.1.next d p }, Function.update m.2 d s) c =
      ({ (push closed m c).1 with next := Function.update (push closed m c).1.next d p },
        Function.update (push closed m c).2 d s) := by
  simp only [push, Function.update_comm h]

theorem Held.requeue (hm : Held closed m) {k : κ} {c : α} (hc : m.1.owner k = some c) :
    Held closed (requeue closed m k c) := by
  obtain ⟨R, hR, hclosed⟩ := hm
  have h := hR.retire hc
  refine ⟨fun d => d = c ∨ R d, ⟨h.head, fun d e hd he => ?_, h.retired, h.owned, h.unique⟩,
    closed_of_push hclosed⟩
  have he : Function.update m.1.next c (some c) d = some e := he
  rw [Function.update_apply] at he
  split at he
  · exact Or.inl (Option.some.inj he).symm
  · rename_i hne
    exact Or.inr (hR.closed d e (hd.resolve_left hne) he)

theorem requeue_kept (hm : Held closed m) {k k' : κ} {c d : α}
    (hc : m.1.owner k = some c) (hk : k' ≠ k) (hd : m.1.owner k' = some d) :
    (requeue closed m k c).2 d = m.2 d := by
  have hne : d ≠ c := by
    rintro rfl
    exact hk (hm.unique hd hc)
  exact Function.update_of_ne hne _ _

end AdFilter.Lib.Handover
