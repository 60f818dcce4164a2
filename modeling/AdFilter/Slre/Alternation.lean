import AdFilter.Slre.Plain

/-!
# Patterns with one alternative

A pattern of two plain ones with a `|` between them. At each offset the matcher tries the
first branch and, unless that matches something, the second one, and it does not come back
to an offset: the branch that agrees first decides, and the other one is never asked where
it would end.
-/

namespace AdFilter.Slre.Alternation

open AdFilter.Slre.Match
open AdFilter.Slre.Plain

/-- `p|q` -/
def alt (p q : List UInt8) : List UInt8 := p ++ byte '|' :: q

/-- What the two branches give at one offset. -/
def altAnswer (p q sub : List UInt8) : Int :=
  if p ≠ [] ∧ agrees p sub = true then (p.length : Int) else plainAnswer q sub

/-- The first branch is taken: it agrees somewhere, and the second one nowhere before. -/
def TakesFirst (p q s : List UInt8) : Prop :=
  p ≠ [] ∧ ∃ k ≤ s.length, agrees p (s.drop k) = true ∧ ∀ i < k, agrees q (s.drop i) = false

variable {p q : List UInt8}

theorem length_alt (p q : List UInt8) : (alt p q).length = p.length + 1 + q.length := by
  rw [alt, List.length_append, List.length_cons]
  omega

theorem alt_first (p q : List UInt8) : p <+: (alt p q).drop 0 := ⟨_, rfl⟩

theorem alt_second (p q : List UInt8) : q <+: (alt p q).drop (p.length + 1) := by
  have hbar : (alt p q).drop p.length = byte '|' :: q := List.drop_left
  have h : (alt p q).drop (p.length + 1) = q := by
    rw [← List.drop_drop, hbar, List.drop_one, List.tail_cons]
  exact h.symm ▸ List.prefix_rfl

theorem byteAt_bar (p q : List UInt8) : byteAt (alt p q) p.length = byte '|' := by
  simp [byteAt, alt]

/-! ## The pass over the pattern -/

/-- The table after the pass. -/
def altInfo (stack : Nat → BracketPair) (p q : List UInt8) : RegexInfo :=
  { initInfo stack (alt p q) with branches := [⟨0, p.length⟩] }

theorem scan_alt (stack : Nat → BracketPair) (hp : p.all isPlain = true)
    (hq : q.all isPlain = true) :
    scan (alt p q) (initInfo stack (alt p q)) 0 0 = some (.ok (altInfo stack p q, 0)) := by
  have hlen := length_alt p q
  have h₁ := scan_chunk (alt_first p q) hp (Nat.zero_le _) (initInfo stack (alt p q)) _ 0 rfl
    (Nat.zero_le _)
  have h₂ := scan_chunk (alt_second p q) hq (by omega) (altInfo stack p q) _ 0 rfl
    (Nat.zero_le _)
  have hend : scan (alt p q) (altInfo stack p q) 0 (p.length + 1 + q.length) =
      some (.ok (altInfo stack p q, 0)) := by
    rw [scan, if_neg (by omega)]
  have hstep : getOpLen (alt p q) p.length ((alt p q).length - p.length) = 1 := by
    unfold getOpLen opLen
    rw [byteAt_bar]
    rfl
  have hchunk : scanChunk (alt p q) (initInfo stack (alt p q)) 0 p.length =
      .ok (altInfo stack p q, 0) := by
    unfold scanChunk
    rw [byteAt_bar]
    simp [initInfo, altInfo, maxBranches, RegexInfo.setBracket]
  rw [Nat.add_zero] at h₁ h₂
  rw [Nat.zero_add] at h₁
  rw [h₁, scan, if_pos (by omega), hstep, hchunk]
  exact h₂.trans hend

/-! ## The answer -/

theorem brackets_alt (stack : Nat → BracketPair) (p q : List UInt8) :
    (setupBranchPoints (altInfo stack p q)).brackets 0 = ⟨0, (alt p q).length, 0, 1⟩ := by
  simp [altInfo, initInfo, setupBranchPoints, sortBranches, setBranchPoints, RegexInfo.setBracket]

theorem branches_alt (stack : Nat → BracketPair) (p q : List UInt8) :
    (setupBranchPoints (altInfo stack p q)).branches = [⟨0, p.length⟩] := by
  simp [altInfo, initInfo, setupBranchPoints, sortBranches, setBranchPoints, RegexInfo.setBracket]

theorem plainAnswer_pos {sub : List UInt8} :
    ¬ plainAnswer p sub ≤ 0 ↔ p ≠ [] ∧ agrees p sub = true := by
  rw [plainAnswer, ← List.length_pos_iff]
  by_cases ha : agrees p sub = true
  · rw [if_pos ha, and_iff_left ha]
    omega
  · rw [if_neg ha]
    exact iff_of_false (fun h => h (by decide)) fun h => ha h.2

/-- Both branches at one offset. -/
theorem doh_alt (stack : Nat → BracketPair) (hp : p.all isPlain = true) (hq : q.all isPlain = true)
    {s : List UInt8} {k : Nat} (hk : k ≤ s.length) :
    doh (alt p q) s (setupBranchPoints (altInfo stack p q)) k ((s.length : Int) - k) 0 0 =
      altAnswer p q (s.drop k) := by
  have hf := initInfo_ignoreCase stack (alt p q) [⟨0, p.length⟩]
  have hlen := length_alt p q
  have hfirst : branchText (setupBranchPoints (altInfo stack p q))
      ((setupBranchPoints (altInfo stack p q)).brackets 0) 0 = (0, (p.length : Int)) := by
    rw [branchText, brackets_alt, branches_alt]
    simp [Branch.start]
  have hsecond : branchText (setupBranchPoints (altInfo stack p q))
      ((setupBranchPoints (altInfo stack p q)).brackets 0) 1 =
        (p.length + 1, (q.length : Int)) := by
    have hrest : (p.length : Int) + 1 + q.length - (p.length + 1) = q.length := by omega
    rw [branchText, brackets_alt, branches_alt]
    simp [Branch.start, hlen, hrest]
  have h₁ := bar_chunk (alt_first p q) hp hf hk 0
  have h₂ := bar_chunk (alt_second p q) hq hf hk 0
  change bar (alt p q) s (setupBranchPoints (altInfo stack p q)) 0 _ k _ 0 0 0 =
    plainAnswer p (s.drop k) at h₁
  change bar (alt p q) s (setupBranchPoints (altInfo stack p q)) _ _ k _ 0 0 0 =
    plainAnswer q (s.drop k) at h₂
  rw [doh, hfirst]
  dsimp only
  rw [h₁, doh, hsecond]
  dsimp only
  rw [h₂, brackets_alt, if_neg (show ¬ (_ ∧ 1 < 1) from fun h => absurd h.2 (Nat.lt_irrefl 1)),
    altAnswer]
  by_cases hle : plainAnswer p (s.drop k) ≤ 0
  · rw [if_pos ⟨hle, Nat.one_pos⟩, if_neg fun h => plainAnswer_pos.mpr h hle]
  · have htake := plainAnswer_pos.mp hle
    rw [if_neg fun h => hle h.1, if_pos htake, plainAnswer, if_pos htake.2]

/-- On `p|q` the matcher returns the first offset that either branch has an answer for. -/
theorem slreMatch_alt (stack : Nat → BracketPair) (hp : p.all isPlain = true)
    (hq : q.all isPlain = true) (s : List UInt8) :
    slreMatch stack (alt p q) s slreIgnoreCase = some (firstHit (altAnswer p q) s 0) := by
  have ha : byteAt (alt p q) ((setupBranchPoints (altInfo stack p q)).brackets 0).ptr ≠
      byte '^' := by
    rw [brackets_alt]
    by_cases hlt : 0 < p.length
    · have h := isPlain_chunk (alt_first p q) hp hlt
      exact plain_ne h (by decide)
    · have hbar := byteAt_bar p q
      rw [Nat.eq_zero_of_not_pos hlt] at hbar
      dsimp only
      rw [hbar]
      decide
  rw [slreMatch_of_scan (scan_alt stack hp hq), baz,
    bazFrom_eq ha (fun k hk => doh_alt stack hp hq hk) s.length 0 (Nat.zero_add _), List.drop_zero]

/-- The search ends at the first offset with an answer, or has none. -/
theorem firstHit_cases (f : List UInt8 → Int) : ∀ (cs : List UInt8) (k : Nat),
    (∃ j ≤ cs.length, 0 ≤ f (cs.drop j) ∧ (∀ i < j, f (cs.drop i) < 0) ∧
        firstHit f cs k = f (cs.drop j) + (k + j : Nat)) ∨
      (∀ j ≤ cs.length, f (cs.drop j) < 0) ∧ firstHit f cs k = f [] := by
  intro cs
  induction cs with
  | nil =>
    intro k
    rw [firstHit]
    by_cases hf : 0 ≤ f []
    · exact Or.inl ⟨0, Nat.le_refl 0, hf, fun i hi => absurd hi (Nat.not_lt_zero i), if_pos hf⟩
    · refine Or.inr ⟨fun j _ => ?_, if_neg hf⟩
      rw [List.drop_nil]
      exact Int.not_le.mp hf
  | cons c cs ih =>
    intro k
    rw [firstHit]
    by_cases hf : 0 ≤ f (c :: cs)
    · exact Or.inl ⟨0, Nat.zero_le _, hf, fun i hi => absurd hi (Nat.not_lt_zero i), if_pos hf⟩
    · rw [if_neg hf]
      have h0 := Int.not_le.mp hf
      rcases ih (k + 1) with ⟨j, hj, hhit, hbefore, heq⟩ | ⟨hnone, hlast⟩
      · refine Or.inl ⟨j + 1, Nat.succ_le_succ hj, hhit, fun i hi => ?_, ?_⟩
        · cases i with
          | zero => exact h0
          | succ i => exact hbefore i (Nat.lt_of_succ_lt_succ hi)
        · rw [heq, List.drop_succ_cons]
          omega
      · refine Or.inr ⟨fun j hj => ?_, hlast⟩
        cases j with
        | zero => exact h0
        | succ j => exact hnone j (Nat.le_of_succ_le_succ hj)

theorem firstHit_eq {f : List UInt8 → Int} {cs : List UInt8} {j : Nat} (hj : j ≤ cs.length)
    (hhit : 0 ≤ f (cs.drop j)) (hbefore : ∀ i < j, f (cs.drop i) < 0) :
    firstHit f cs 0 = f (cs.drop j) + j := by
  rcases firstHit_cases f cs 0 with ⟨i, -, hi, hfirst, heq⟩ | ⟨hnone, -⟩
  · rcases Nat.lt_trichotomy i j with hlt | rfl | hlt
    · exact absurd hi (Int.not_le.mpr (hbefore i hlt))
    · rw [heq, Nat.zero_add]
    · exact absurd hhit (Int.not_le.mpr (hfirst j hlt))
  · exact absurd hhit (Int.not_le.mpr (hnone j hj))

/-- Neither branch agrees. -/
theorem altAnswer_neg {sub : List UInt8} (hp : p = [] ∨ agrees p sub = false)
    (hq : agrees q sub = false) : altAnswer p q sub = noMatch := by
  have htake : ¬ (p ≠ [] ∧ agrees p sub = true) := by
    rintro ⟨hne, ha⟩
    rw [hp.resolve_left hne] at ha
    exact Bool.false_ne_true ha
  rw [altAnswer, if_neg htake, plainAnswer, hq, if_neg Bool.false_ne_true]

/-- The branch that agrees first decides, the first one where both do. -/
theorem firstHit_takesFirst {s : List UInt8} (h : TakesFirst p q s) :
    firstHit (altAnswer p q) s 0 = firstMatch p s 0 := by
  obtain ⟨hne, k, hk, hagree, hnoq⟩ := h
  rcases firstMatch_cases p s 0 with ⟨j, hj, haj, hnop, heq⟩ | ⟨hnone, -⟩
  · have hjk : j ≤ k := by
      by_contra hlt
      rw [hnop k (Nat.lt_of_not_le hlt)] at hagree
      exact Bool.false_ne_true hagree
    have hans : altAnswer p q (s.drop j) = p.length := by
      rw [altAnswer, if_pos ⟨hne, haj⟩]
    have hbefore : ∀ i < j, altAnswer p q (s.drop i) < 0 := by
      intro i hi
      rw [altAnswer_neg (Or.inr (hnop i hi)) (hnoq i (Nat.lt_of_lt_of_le hi hjk))]
      decide
    rw [firstHit_eq hj (by omega) hbefore, hans, heq, Nat.zero_add]
  · rw [hnone k hk] at hagree
    exact absurd hagree Bool.false_ne_true

theorem firstHit_takesSecond {s : List UInt8} (h : ¬ TakesFirst p q s) :
    firstHit (altAnswer p q) s 0 = firstMatch q s 0 := by
  -- before the first agreement of the second branch there is none of the first one
  have hp : ∀ k ≤ s.length, (∀ i < k, agrees q (s.drop i) = false) →
      p = [] ∨ agrees p (s.drop k) = false := by
    intro k hk hnoq
    by_cases hne : p = []
    · exact Or.inl hne
    · exact Or.inr (Bool.of_not_eq_true fun ha => h ⟨hne, k, hk, ha, hnoq⟩)
  rcases firstMatch_cases q s 0 with ⟨j, hj, haj, hnoq, heq⟩ | ⟨hnone, heq⟩
  · have hans : altAnswer p q (s.drop j) = q.length := by
      have htake : ¬ (p ≠ [] ∧ agrees p (s.drop j) = true) := by
        rintro ⟨hne, ha⟩
        rw [(hp j hj hnoq).resolve_left hne] at ha
        exact Bool.false_ne_true ha
      rw [altAnswer, if_neg htake, plainAnswer, if_pos haj]
    have hbefore : ∀ i < j, altAnswer p q (s.drop i) < 0 := by
      intro i hi
      rw [altAnswer_neg (hp i (by omega) fun i' hi' => hnoq i' (Nat.lt_trans hi' hi)) (hnoq i hi)]
      decide
    rw [firstHit_eq hj (by omega) hbefore, hans, heq, Nat.zero_add]
  · have hnever : ∀ j ≤ s.length, altAnswer p q (s.drop j) = noMatch := fun j hj =>
      altAnswer_neg (hp j hj fun i hi => hnone i (by omega)) (hnone j hj)
    rw [heq]
    rcases firstHit_cases (altAnswer p q) s 0 with ⟨j, hj, hhit, -, -⟩ | ⟨-, hlast⟩
    · rw [hnever j hj] at hhit
      exact absurd hhit (by decide)
    · have hend := hnever s.length (Nat.le_refl _)
      rw [List.drop_length] at hend
      exact hlast.trans hend

end AdFilter.Slre.Alternation
