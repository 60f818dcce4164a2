import AdFilter.Slre.Match

/-!
# One step of the matcher

What `bar` does with the chunk at an offset, by the chunk and by the quantifier that
follows it: an equation for each case, and from them the cases of a step.
-/

namespace AdFilter.Slre.Steps

open AdFilter.Slre.Match

section Bar

variable {re s : List UInt8} {info : RegexInfo} {r p bi i j : Nat} {reLen sLen : Int}

/-- The offset after the chunk at offset `i`. -/
def chunkEnd (re : List UInt8) (info : RegexInfo) (r : Nat) (reLen : Int) (bi i : Nat) : Nat :=
  i + (chunkLen re info r reLen bi i).toNat

/-- The chunk at offset `i` is one that `bar` goes on with. -/
structure GoodChunk (re : List UInt8) (info : RegexInfo) (r : Nat) (reLen : Int) (bi i : Nat) :
    Prop where
  inside : (i : Int) < reLen
  notQuantifier : isQuantifier re (r + i) = false
  step_pos : 0 < chunkLen re info r reLen bi i

/-- A quantifier follows the chunk at offset `i`. -/
def IsQuantified (re : List UInt8) (info : RegexInfo) (r : Nat) (reLen : Int) (bi i : Nat) : Prop :=
  (chunkEnd re info r reLen bi i : Int) < reLen ∧
    isQuantifier re (r + chunkEnd re info r reLen bi i) = true

theorem bar_stop (h : reLen ≤ i ∨ sLen < j) : bar re s info r reLen p sLen bi i j = j := by
  rw [bar, if_neg (by omega)]

theorem bar_bad (hi : (i : Int) < reLen) (hj : (j : Int) ≤ sLen)
    (h : ¬ GoodChunk re info r reLen bi i) :
    bar re s info r reLen p sLen bi i j =
      if isQuantifier re (r + i) then unexpectedQuantifier else invalidCharacterSet := by
  rw [bar, if_pos ⟨hi, hj⟩]
  dsimp only
  by_cases hq : isQuantifier re (r + i) = true
  · rw [if_pos hq, if_pos hq]
  · have hstep : chunkLen re info r reLen bi i ≤ 0 := by
      by_contra hpos
      exact h ⟨hi, Bool.of_not_eq_true hq, Int.not_le.mp hpos⟩
    rw [if_neg hq, if_neg hq, if_pos hstep]

theorem bar_opt (h : GoodChunk re info r reLen bi i) (hj : (j : Int) ≤ sLen)
    (hq : (chunkEnd re info r reLen bi i : Int) < reLen)
    (hb : byteAt re (r + chunkEnd re info r reLen bi i) = byte '?') :
    bar re s info r reLen p sLen bi i j =
      bar re s info r reLen p sLen bi (chunkEnd re info r reLen bi i + 1)
        (j + (bar re s info (r + i) (chunkLen re info r reLen bi i) (p + j) (sLen - j)
          bi 0 0).toNat) := by
  have hquant : isQuantifier re (r + chunkEnd re info r reLen bi i) = true := by
    rw [isQuantifier, hb]
    decide
  rw [bar, if_pos ⟨h.inside, hj⟩]
  dsimp only
  rw [h.notQuantifier, if_neg Bool.false_ne_true, if_neg (Int.not_le.mpr h.step_pos)]
  exact (if_pos ⟨hq, hquant⟩).trans (if_pos hb)

theorem bar_star (h : GoodChunk re info r reLen bi i) (hj : (j : Int) ≤ sLen)
    (hq : IsQuantified re info r reLen bi i)
    (hb : byteAt re (r + chunkEnd re info r reLen bi i) ≠ byte '?') :
    bar re s info r reLen p sLen bi i j =
      starChunk re s info (r + i) (chunkLen re info r reLen bi i)
        (r + restAt re r reLen (chunkEnd re info r reLen bi i))
        (reLen - restAt re r reLen (chunkEnd re info r reLen bi i))
        (byteAt re (r + chunkEnd re info r reLen bi i) == byte '+')
        (isNonGreedy re r reLen (chunkEnd re info r reLen bi i)) p sLen bi j := by
  rw [bar, if_pos ⟨h.inside, hj⟩]
  dsimp only
  rw [h.notQuantifier, if_neg Bool.false_ne_true, if_neg (Int.not_le.mpr h.step_pos)]
  exact (if_pos hq).trans (if_neg hb)

/-- A chunk without a quantifier. -/
theorem bar_once (h : GoodChunk re info r reLen bi i) (hj : (j : Int) ≤ sLen)
    (hq : ¬ IsQuantified re info r reLen bi i) :
    bar re s info r reLen p sLen bi i j =
      let b := byteAt re (r + i)
      let q := chunkEnd re info r reLen bi i
      if b = byte '[' then
        let n := matchSet re s info (r + i + 1) (reLen - (i + 2)) (p + j)
        if n ≤ 0 then noMatch else bar re s info r reLen p sLen bi q (j + n.toNat)
      else if b = byte '(' then
        if info.numBrackets ≤ bi + 1 then internalError
        else
          let n :=
            if reLen - q ≤ 0 then doh re s info (p + j) (sLen - j) (bi + 1) 0
            else capLoop re s info (r + q) (reLen - q) (p + j) (sLen - j) (bi + 1) 0 noMatch
          if n < 0 then n else bar re s info r reLen p sLen (bi + 1) q (j + n.toNat)
      else if b = byte '^' then
        if j ≠ 0 then noMatch else bar re s info r reLen p sLen bi q j
      else if b = byte '$' then
        if (j : Int) ≠ sLen then noMatch else bar re s info r reLen p sLen bi q j
      else if sLen ≤ j then noMatch
      else
        let n := matchOp re s info (r + i) (p + j)
        if n ≤ 0 then n else bar re s info r reLen p sLen bi q (j + n.toNat) := by
  rw [bar, if_pos ⟨h.inside, hj⟩]
  dsimp only
  rw [h.notQuantifier, if_neg Bool.false_ne_true, if_neg (Int.not_le.mpr h.step_pos)]
  exact if_neg hq

/-- What `starChunk` answers, from what its loop leaves. -/
theorem starChunk_cases {c : Nat} {step : Int} {plus nonGreedy : Bool} {nj : Nat} {n1 n2 : Int}
    (hout : starLoop re s info c step r reLen plus nonGreedy p sLen bi j j j (-1) = (nj, n1, n2)) :
    starChunk re s info c step r reLen plus nonGreedy p sLen bi j = noMatch ∧ nj = j ∧
        (plus = true ∨ 0 < reLen ∧ n2 < 0 ∧
          (n1 < 0 → bar re s info r reLen (p + j) (sLen - j) bi 0 0 < 0)) ∨
      starChunk re s info c step r reLen plus nonGreedy p sLen bi j = nj ∧
        (plus = true → nj ≠ j) ∧
        (nj = j → reLen ≤ 0 ∨ 0 ≤ n2 ∨
          plus = false ∧ bar re s info r reLen (p + j) (sLen - j) bi 0 0 = 0) ∨
      starChunk re s info c step r reLen plus nonGreedy p sLen bi j =
          (j + (bar re s info r reLen (p + j) (sLen - j) bi 0 0).toNat : Nat) ∧
        plus = false ∧ 0 < bar re s info r reLen (p + j) (sLen - j) bi 0 0 := by
  rw [starChunk, hout]
  generalize bar re s info r reLen (p + j) (sLen - j) bi 0 0 = rest
  dsimp only
  by_cases hretry : n1 < 0 ∧ n2 < 0 ∧ plus = false
  · have hplus : ∀ m : Nat, ¬ (plus = true ∧ m = j) := fun m h =>
      absurd (hretry.2.2.symm.trans h.1) Bool.false_ne_true
    have hn2 : (if n1 < 0 ∧ n2 < 0 ∧ plus = false then rest else n2) = rest := if_pos hretry
    rw [hn2]
    by_cases hrest : 0 < rest
    · have hnj : (if (n1 < 0 ∧ n2 < 0 ∧ plus = false) ∧ 0 < rest then j + rest.toNat else nj) =
          j + rest.toNat := if_pos ⟨hretry, hrest⟩
      rw [hnj, if_neg (hplus _),
        if_neg (show ¬ (j + rest.toNat = j ∧ 0 < reLen ∧ rest < 0) by omega)]
      exact Or.inr (Or.inr ⟨rfl, hretry.2.2, hrest⟩)
    · have hnj : (if (n1 < 0 ∧ n2 < 0 ∧ plus = false) ∧ 0 < rest then j + rest.toNat else nj) =
          nj := if_neg fun h => hrest h.2
      rw [hnj, if_neg (hplus _)]
      by_cases hfail : nj = j ∧ 0 < reLen ∧ rest < 0
      · rw [if_pos hfail]
        exact Or.inl ⟨rfl, hfail.1, Or.inr ⟨hfail.2.1, hretry.2.1, fun _ => hfail.2.2⟩⟩
      · rw [if_neg hfail]
        refine Or.inr (Or.inl ⟨rfl, fun hp hnj => hplus nj ⟨hp, hnj⟩, fun hnj => ?_⟩)
        by_cases hlen : reLen ≤ 0
        · exact Or.inl hlen
        · exact Or.inr (Or.inr ⟨hretry.2.2, by omega⟩)
  · have hn2 : (if n1 < 0 ∧ n2 < 0 ∧ plus = false then rest else n2) = n2 := if_neg hretry
    have hnj : (if (n1 < 0 ∧ n2 < 0 ∧ plus = false) ∧ 0 < n2 then j + n2.toNat else nj) = nj :=
      if_neg fun h => hretry h.1
    rw [hn2, hnj]
    by_cases hplus : plus = true ∧ nj = j
    · rw [if_pos hplus]
      exact Or.inl ⟨rfl, hplus.2, Or.inl hplus.1⟩
    rw [if_neg hplus]
    by_cases hfail : nj = j ∧ 0 < reLen ∧ n2 < 0
    · rw [if_pos hfail]
      have hstar : plus = false := Bool.of_not_eq_true fun hp => hplus ⟨hp, hfail.1⟩
      exact Or.inl ⟨rfl, hfail.1, Or.inr ⟨hfail.2.1, hfail.2.2, fun hn1 =>
        absurd ⟨hn1, hfail.2.2, hstar⟩ hretry⟩⟩
    · rw [if_neg hfail]
      refine Or.inr (Or.inl ⟨rfl, fun hp hnj => hplus ⟨hp, hnj⟩, fun hnj => ?_⟩)
      by_cases hlen : reLen ≤ 0
      · exact Or.inl hlen
      · exact Or.inr (Or.inl (by omega))

/-- The value of the pattern after the quantifier in one round of the loop. -/
def restValue (re s : List UInt8) (info : RegexInfo) (r : Nat) (reLen : Int) (p : Nat) (sLen : Int)
    (bi j2 : Nat) (n2 : Int) : Int :=
  if reLen ≤ 0 then n2 else bar re s info r reLen (p + j2) (sLen - j2) bi 0 0

/-- The offset that one round of the loop leaves. -/
def nextOffset (reLen : Int) (j2 nj : Nat) (rest : Int) : Nat :=
  if reLen ≤ 0 then j2 else if 0 ≤ rest then j2 + rest.toNat else nj

/-- One round of the loop of a quantifier. -/
theorem starLoop_step {c : Nat} {step : Int} {plus nonGreedy : Bool} {j2 nj : Nat} {n2 : Int} :
    starLoop re s info c step r reLen plus nonGreedy p sLen bi j j2 nj n2 =
      let n1 := bar re s info c step (p + j2) (sLen - j2) bi 0 0
      let j2' := j2 + n1.toNat
      let rest := restValue re s info r reLen p sLen bi j2' n2
      let nj' := nextOffset reLen j2' nj rest
      if plus ∧ n1 < 0 then (nj, n1, n2)
      else if j < nj' ∧ nonGreedy then (nj', n1, rest)
      else if 0 < n1 ∧ (j2 : Int) ≤ sLen then
        starLoop re s info c step r reLen plus nonGreedy p sLen bi j j2' nj' rest
      else (nj', n1, rest) := by
  rw [starLoop]
  rfl

/-- What `bar` gives on branch `i` of bracket `bi`. -/
def branchAnswer (re s : List UInt8) (info : RegexInfo) (p : Nat) (sLen : Int) (bi i : Nat) : Int :=
  bar re s info (branchText info (info.brackets bi) i).1 (branchText info (info.brackets bi) i).2
    p sLen bi 0 0

theorem doh_step : doh re s info p sLen bi i =
    if branchAnswer re s info p sLen bi i ≤ 0 ∧ i < (info.brackets bi).numBranches then
      doh re s info p sLen bi (i + 1)
    else branchAnswer re s info p sLen bi i := by
  rw [doh]
  rfl

end Bar

section Sets

variable {re s : List UInt8} {info : RegexInfo} {r p len : Nat} {reLen result : Int}

/-- The member at offset `len` of a set is a range. -/
def IsRange (re : List UInt8) (r len : Nat) : Prop :=
  byteAt re (r + len) ≠ byte '-' ∧ byteAt re (r + len + 1) = byte '-' ∧
    byteAt re (r + len + 2) ≠ byte ']' ∧ byteAt re (r + len + 2) ≠ 0

def inRange (ignoreCase : Bool) (lo hi c : UInt8) : Bool :=
  if ignoreCase then
    decide (charVal (toLower lo) ≤ charVal (toLower c) ∧ charVal (toLower c) ≤ charVal (toLower hi))
  else decide (charVal lo ≤ charVal c ∧ charVal c ≤ charVal hi)

theorem matchSetFrom_stop
    (h : ¬ ((len : Int) ≤ reLen ∧ byteAt re (r + len) ≠ byte ']' ∧ result ≤ 0)) :
    matchSetFrom re s info r reLen p len result = result := by
  rw [matchSetFrom, if_neg h]

theorem matchSetFrom_range
    (h : (len : Int) ≤ reLen ∧ byteAt re (r + len) ≠ byte ']' ∧ result ≤ 0)
    (hr : IsRange re r len) :
    matchSetFrom re s info r reLen p len result =
      matchSetFrom re s info r reLen p (len + 3)
        (if inRange info.ignoreCase (byteAt re (r + len)) (byteAt re (r + len + 2)) (byteAt s p)
          then 1 else 0) := by
  rw [matchSetFrom, if_pos h]
  exact if_pos hr

theorem matchSetFrom_op
    (h : (len : Int) ≤ reLen ∧ byteAt re (r + len) ≠ byte ']' ∧ result ≤ 0)
    (hr : ¬ IsRange re r len) :
    matchSetFrom re s info r reLen p len result =
      matchSetFrom re s info r reLen p (len + opLen re (r + len))
        (matchOp re s info (r + len) p) := by
  rw [matchSetFrom, if_pos h]
  exact if_neg hr

end Sets

end AdFilter.Slre.Steps
