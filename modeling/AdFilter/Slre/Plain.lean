import AdFilter.Slre.Match

/-!
# Patterns that are plain host names

A pattern of letters, digits, `-`, `_` and `.` has no operator but the dot. On
such a pattern the matcher is the leftmost comparison, position by position.
-/

namespace AdFilter.Slre.Plain

open AdFilter.Slre.Match

def isAlnum (b : UInt8) : Bool := isDigit b || isUpper b || decide (97 ≤ b ∧ b ≤ 122)

/-- The characters of a plain host name. -/
def isPlain (b : UInt8) : Bool := isAlnum b || b == byte '-' || b == byte '_' || b == byte '.'

/-- `pat` agrees with the front of the subject, up to case; a dot stands for any byte. -/
def agrees : List UInt8 → List UInt8 → Bool
  | [], _ => true
  | _ :: _, [] => false
  | p :: ps, c :: cs => (p == byte '.' || toLower p == toLower c) && agrees ps cs

/-- The end of the leftmost agreement, for a subject that starts at offset `k`. -/
def firstMatch (pat : List UInt8) : List UInt8 → Nat → Int
  | [], k => if agrees pat [] then (pat.length : Int) + k else noMatch
  | c :: cs, k =>
      if agrees pat (c :: cs) then (pat.length : Int) + k else firstMatch pat cs (k + 1)

theorem agrees_length {pat sub : List UInt8} (h : agrees pat sub = true) :
    pat.length ≤ sub.length := by
  induction pat generalizing sub with
  | nil => simp
  | cons p ps ih =>
    cases sub with
    | nil => simp [agrees] at h
    | cons c cs =>
      simp only [agrees, Bool.and_eq_true] at h
      have hl := ih h.2
      simp only [List.length_cons]
      omega

/-- The search returns the end of the first agreement, wherever that starts. -/
theorem firstMatch_cases (pat : List UInt8) : ∀ (cs : List UInt8) (k : Nat),
    (∃ j ≤ cs.length, agrees pat (cs.drop j) = true ∧ (∀ i < j, agrees pat (cs.drop i) = false) ∧
        firstMatch pat cs k = (pat.length : Int) + (k + j : Nat)) ∨
      (∀ j ≤ cs.length, agrees pat (cs.drop j) = false) ∧ firstMatch pat cs k = noMatch := by
  intro cs
  induction cs with
  | nil =>
    intro k
    cases ha : agrees pat [] with
    | true =>
      exact Or.inl ⟨0, Nat.le_refl 0, ha, fun i hi => absurd hi (Nat.not_lt_zero i),
        by simp [firstMatch, ha]⟩
    | false => exact Or.inr ⟨fun j _ => by rwa [List.drop_nil], by simp [firstMatch, ha]⟩
  | cons c cs ih =>
    intro k
    cases ha : agrees pat (c :: cs) with
    | true =>
      exact Or.inl ⟨0, Nat.zero_le _, ha, fun i hi => absurd hi (Nat.not_lt_zero i),
        by simp [firstMatch, ha]⟩
    | false =>
      have hnext : firstMatch pat (c :: cs) k = firstMatch pat cs (k + 1) := by simp [firstMatch, ha]
      rw [hnext]
      rcases ih (k + 1) with ⟨j, hj, hagree, hfirst, heq⟩ | ⟨hnone, heq⟩
      · refine Or.inl ⟨j + 1, Nat.succ_le_succ hj, hagree, fun i hi => ?_, ?_⟩
        · cases i with
          | zero => exact ha
          | succ i => exact hfirst i (Nat.lt_of_succ_lt_succ hi)
        · rw [heq]
          omega
      · refine Or.inr ⟨fun j hj => ?_, heq⟩
        cases j with
        | zero => exact ha
        | succ j => exact hnone j (Nat.le_of_succ_le_succ hj)

theorem plain_ne {b c : UInt8} (hb : isPlain b = true) (hc : isPlain c = false) : b ≠ c := by
  rintro rfl
  rw [hc] at hb
  exact absurd hb (by decide)

variable {re : List UInt8}

theorem byteAt_of_lt {i : Nat} (hi : i < re.length) : byteAt re i = re[i] := by
  simp [byteAt, hi]

theorem byteAt_of_ge {i : Nat} (hi : re.length ≤ i) : byteAt re i = 0 := by
  simp [byteAt, hi]

/-! ## A stretch of plain bytes -/

section Chunk

variable {pat : List UInt8} {r : Nat}

theorem byteAt_chunk (hc : pat <+: re.drop r) {i : Nat} (hi : i < pat.length) :
    byteAt re (r + i) = pat[i] := by
  obtain ⟨rest, hrest⟩ := hc
  have hget : (re.drop r)[i]? = some pat[i] := by
    rw [← hrest, List.getElem?_append_left hi, List.getElem?_eq_getElem hi]
  rw [List.getElem?_drop] at hget
  rw [byteAt, List.getD_eq_getElem?_getD, hget, Option.getD_some]

theorem isPlain_chunk (hc : pat <+: re.drop r) (hpat : pat.all isPlain = true) {i : Nat}
    (hi : i < pat.length) : isPlain (byteAt re (r + i)) = true := by
  rw [byteAt_chunk hc hi]
  exact List.all_eq_true.mp hpat _ (List.getElem_mem hi)

theorem isQuantifier_plain {i : Nat} (hb : isPlain (byteAt re i) = true) :
    isQuantifier re i = false := by
  have h1 := plain_ne hb (c := byte '*') (by decide)
  have h2 := plain_ne hb (c := byte '+') (by decide)
  have h3 := plain_ne hb (c := byte '?') (by decide)
  simp [isQuantifier, h1, h2, h3]

theorem getOpLen_plain {i : Nat} (hb : isPlain (byteAt re i) = true) (reLen : Int) :
    getOpLen re i reLen = 1 := by
  have h1 := plain_ne hb (c := byte '[') (by decide)
  have h2 := plain_ne hb (c := byte '\\') (by decide)
  simp [getOpLen, opLen, h1, h2]

theorem chunkLen_plain {i : Nat} (hb : isPlain (byteAt re (r + i)) = true) (info : RegexInfo)
    (reLen : Int) (bi : Nat) : chunkLen re info r reLen bi i = 1 := by
  have h1 := plain_ne hb (c := byte '(') (by decide)
  rw [chunkLen, if_neg h1, getOpLen_plain hb]

theorem matchOp_plain {i : Nat} (hb : isPlain (byteAt re i) = true) (s : List UInt8)
    {info : RegexInfo} (hf : info.ignoreCase = true) (p : Nat) :
    matchOp re s info i p =
      if byteAt re i = byte '.' ∨ toLower (byteAt re i) = toLower (byteAt s p) then 1
      else noMatch := by
  have h1 := plain_ne hb (c := byte '\\') (by decide)
  have h2 := plain_ne hb (c := byte '|') (by decide)
  have h3 := plain_ne hb (c := byte '$') (by decide)
  simp only [matchOp, h1, h2, h3, if_false, hf, if_true]
  by_cases hd : byteAt re i = byte '.' <;> simp [hd]

/-- One step of `bar` over plain bytes. -/
theorem bar_plain_step (hc : pat <+: re.drop r) (hpat : pat.all isPlain = true) (s : List UInt8)
    {info : RegexInfo} (hf : info.ignoreCase = true) (p : Nat) (sLen : Int) (bi : Nat) {i j : Nat}
    (hi : i < pat.length) (hj : (j : Int) ≤ sLen) :
    bar re s info r pat.length p sLen bi i j =
      if sLen ≤ j then noMatch
      else if pat[i] = byte '.' ∨ toLower pat[i] = toLower (byteAt s (p + j)) then
        bar re s info r pat.length p sLen bi (i + 1) (j + 1)
      else noMatch := by
  have hb := isPlain_chunk hc hpat hi
  have h1 := plain_ne hb (c := byte '[') (by decide)
  have h2 := plain_ne hb (c := byte '(') (by decide)
  have h3 := plain_ne hb (c := byte '^') (by decide)
  have h4 := plain_ne hb (c := byte '$') (by decide)
  have hin : (i : Int) < (pat.length : Int) ∧ (j : Int) ≤ sLen := ⟨by omega, hj⟩
  have hq : ¬ (((i + 1 : Nat) : Int) < (pat.length : Int) ∧
      isQuantifier re (r + (i + 1)) = true) := by
    rintro ⟨hlt, hquant⟩
    rw [isQuantifier_plain (isPlain_chunk hc hpat (by omega))] at hquant
    exact Bool.false_ne_true hquant
  rw [← byteAt_chunk hc hi, bar, if_pos hin]
  simp only [chunkLen_plain hb, isQuantifier_plain hb, matchOp_plain hb s hf, Int.toNat_one, hq,
    h1, h2, h3, h4, if_false, Int.reduceLE, Bool.false_eq_true]
  by_cases hs : sLen ≤ j
  · simp [hs]
  · by_cases hm : byteAt re (r + i) = byte '.' ∨
        toLower (byteAt re (r + i)) = toLower (byteAt s (p + j))
    · simp [hs, hm]
    · simp [hs, hm, noMatch]

/-- `bar` over plain bytes compares them with the subject at `p`. -/
theorem bar_plain (hc : pat <+: re.drop r) (hpat : pat.all isPlain = true) {s : List UInt8}
    {info : RegexInfo} (hf : info.ignoreCase = true) (p bi n : Nat) :
    ∀ i, pat.length - i = n → i ≤ pat.length → p + i ≤ s.length →
      bar re s info r pat.length p ((s.length : Int) - p) bi i i =
        if agrees (pat.drop i) (s.drop (p + i)) then (pat.length : Int) else noMatch := by
  induction n with
  | zero =>
    intro i hn hi _
    have he : i = pat.length := by omega
    subst he
    rw [bar, if_neg (by omega)]
    simp [agrees]
  | succ n ih =>
    intro i hn hi hp
    have hlt : i < pat.length := by omega
    rw [bar_plain_step hc hpat s hf p _ bi hlt (by omega), List.drop_eq_getElem_cons hlt]
    by_cases hs : p + i = s.length
    · rw [if_pos (by omega), hs, List.drop_length]
      simp [agrees]
    · have hlt' : p + i < s.length := by omega
      rw [if_neg (by omega), List.drop_eq_getElem_cons hlt', byteAt_of_lt hlt',
        ih (i + 1) (by omega) (by omega) (by omega), ← Nat.add_assoc]
      by_cases hm : pat[i] = byte '.' ∨ toLower pat[i] = toLower s[p + i]
      · have hm' : (pat[i] == byte '.' || toLower pat[i] == toLower s[p + i]) = true := by
          simpa using hm
        rw [if_pos hm, agrees, hm', Bool.true_and]
      · have hm' : (pat[i] == byte '.' || toLower pat[i] == toLower s[p + i]) = false := by
          simpa using hm
        rw [if_neg hm, agrees, hm']
        rfl

/-- A branch of plain bytes. -/
theorem bar_chunk (hc : pat <+: re.drop r) (hpat : pat.all isPlain = true) {s : List UInt8}
    {info : RegexInfo} (hf : info.ignoreCase = true) {p : Nat} (hp : p ≤ s.length) (bi : Nat) :
    bar re s info r pat.length p ((s.length : Int) - p) bi 0 0 =
      if agrees pat (s.drop p) then (pat.length : Int) else noMatch :=
  bar_plain hc hpat hf p bi _ 0 rfl (Nat.zero_le _) hp

/-- The pass over plain bytes changes nothing. -/
theorem scan_chunk (hc : pat <+: re.drop r) (hpat : pat.all isPlain = true) (hr : r ≤ re.length)
    (info : RegexInfo) (n : Nat) :
    ∀ i, pat.length - i = n → i ≤ pat.length →
      scan re info 0 (r + i) = scan re info 0 (r + pat.length) := by
  have hlen : pat.length ≤ re.length - r := by
    rw [← List.length_drop]
    exact hc.length_le
  induction n with
  | zero =>
    intro i hn hi
    rw [show i = pat.length by omega]
  | succ n ih =>
    intro i hn hi
    have hb := isPlain_chunk hc hpat (show i < pat.length by omega)
    have h1 := plain_ne hb (c := byte '|') (by decide)
    have h2 := plain_ne hb (c := byte '\\') (by decide)
    have h3 := plain_ne hb (c := byte '(') (by decide)
    have h4 := plain_ne hb (c := byte ')') (by decide)
    rw [scan, if_pos (by omega)]
    simp only [getOpLen_plain hb, scanChunk, h1, h2, h3, h4, if_false, Int.reduceLE,
      Int.toNat_one]
    exact ih (i + 1) (by omega) (by omega)

end Chunk

/-! ## The offsets of the subject -/

/-- The answer of the first offset that has one, from offset `k` on. -/
def firstHit (f : List UInt8 → Int) : List UInt8 → Nat → Int
  | [], k => if 0 ≤ f [] then f [] + k else f []
  | c :: cs, k => if 0 ≤ f (c :: cs) then f (c :: cs) + k else firstHit f cs (k + 1)

/-- `baz`, when what is tried at an offset depends on the rest of the subject. -/
theorem bazFrom_eq {s : List UInt8} {info : RegexInfo} {f : List UInt8 → Int}
    (ha : byteAt re (info.brackets 0).ptr ≠ byte '^')
    (hd : ∀ p ≤ s.length, doh re s info p ((s.length : Int) - p) 0 0 = f (s.drop p)) (n : Nat) :
    ∀ i, i + n = s.length → bazFrom re s info s.length (n + 1) i = firstHit f (s.drop i) i := by
  induction n with
  | zero =>
    intro i hi
    obtain rfl : i = s.length := hi
    rw [bazFrom, hd _ (Nat.le_refl _), List.drop_length, firstHit, if_neg ha, if_pos rfl]
  | succ n ih =>
    intro i hi
    have hlt : i < s.length := by omega
    have hstep : firstHit f (s.drop i) i =
        if 0 ≤ f (s.drop i) then f (s.drop i) + i else firstHit f (s.drop (i + 1)) (i + 1) := by
      rw [List.drop_eq_getElem_cons hlt]
      rfl
    rw [bazFrom, hd _ (Nat.le_of_lt hlt), hstep, if_neg ha, if_neg (Nat.succ_ne_zero n),
      ih (i + 1) (by omega)]

/-- What a plain pattern gives at one offset. -/
def plainAnswer (pat sub : List UInt8) : Int :=
  if agrees pat sub then (pat.length : Int) else noMatch

theorem firstHit_plain (pat : List UInt8) (cs : List UInt8) :
    ∀ k, firstHit (plainAnswer pat) cs k = firstMatch pat cs k := by
  induction cs with
  | nil =>
    intro k
    rw [firstHit, firstMatch, plainAnswer]
    by_cases ha : agrees pat [] = true <;> simp [ha, noMatch]
  | cons c cs ih =>
    intro k
    rw [firstHit, firstMatch, plainAnswer, ih]
    by_cases ha : agrees pat (c :: cs) = true <;> simp [ha, noMatch]

/-! ## The whole pattern -/

theorem doh_plain (hre : re.all isPlain = true) {s : List UInt8} {info : RegexInfo}
    (hf : info.ignoreCase = true) (hb : info.brackets 0 = ⟨0, re.length, 0, 0⟩) {p : Nat}
    (hp : p ≤ s.length) :
    doh re s info p ((s.length : Int) - p) 0 0 = plainAnswer re (s.drop p) := by
  rw [doh]
  simp only [hb, branchText, if_true, Nat.lt_irrefl, and_false, if_false]
  exact bar_chunk (List.prefix_refl re) hre hf hp 0

/-- The table of `foo` before its pass over a pattern. -/
def initInfo (stack : Nat → BracketPair) (re : List UInt8) : RegexInfo :=
  { (RegexInfo.setBracket ⟨stack, 0, [], slreIgnoreCase⟩ 0
      { stack 0 with ptr := 0, len := re.length }) with numBrackets := 1 }

theorem initInfo_ignoreCase (stack : Nat → BracketPair) (re : List UInt8) (bs : List Branch) :
    (setupBranchPoints { initInfo stack re with branches := bs }).ignoreCase = true := by
  rw [RegexInfo.ignoreCase, setupBranchPoints, setBranchPoints_flags]
  show (slreIgnoreCase &&& slreIgnoreCase != 0) = true
  decide

theorem slreMatch_of_scan {stack : Nat → BracketPair} {info : RegexInfo}
    (h : scan re (initInfo stack re) 0 0 = some (.ok (info, 0))) (s : List UInt8) :
    slreMatch stack re s slreIgnoreCase = some (baz re s (setupBranchPoints info) s.length) := by
  unfold initInfo at h
  rw [slreMatch, foo]
  dsimp only
  rw [h]
  rfl

/-- On a plain pattern `slre_match` returns the end of the leftmost agreement. -/
theorem slreMatch_plain (stack : Nat → BracketPair) (hre : re.all isPlain = true)
    (s : List UInt8) : slreMatch stack re s slreIgnoreCase = some (firstMatch re s 0) := by
  have hscan : scan re (initInfo stack re) 0 0 = some (.ok (initInfo stack re, 0)) := by
    have h := scan_chunk (List.prefix_refl re) hre (Nat.zero_le _) (initInfo stack re) _ 0 rfl
      (Nat.zero_le _)
    rw [h, scan, if_neg (by omega)]
  have hb : (setupBranchPoints (initInfo stack re)).brackets 0 = ⟨0, re.length, 0, 0⟩ := by
    simp [initInfo, setupBranchPoints, sortBranches, setBranchPoints, RegexInfo.setBracket]
  have ha : byteAt re ((setupBranchPoints (initInfo stack re)).brackets 0).ptr ≠ byte '^' := by
    rw [hb]
    by_cases hlt : 0 < re.length
    · have h := isPlain_chunk (r := 0) (List.prefix_refl re) hre hlt
      exact plain_ne h (by decide)
    · rw [byteAt_of_ge (Nat.le_of_not_lt hlt)]
      decide
  have hf := initInfo_ignoreCase stack re []
  rw [slreMatch_of_scan hscan, baz, bazFrom_eq ha (fun p hp => doh_plain hre hf hb hp) s.length 0
    (Nat.zero_add _), firstHit_plain, List.drop_zero]

/-- On a subject of its own length a plain pattern matches the whole or nothing. -/
theorem slreMatch_same_length (stack : Nat → BracketPair) (hre : re.all isPlain = true)
    {s : List UInt8} (hl : re.length = s.length) :
    slreMatch stack re s slreIgnoreCase =
      some (if agrees re s then (s.length : Int) else noMatch) := by
  have hshort : ∀ (cs : List UInt8) (k : Nat), cs.length < re.length →
      firstMatch re cs k = noMatch := by
    intro cs
    induction cs with
    | nil =>
      intro k hc
      have hn : agrees re [] ≠ true := fun ha => by
        have h := agrees_length ha
        omega
      rw [firstMatch, if_neg hn]
    | cons c cs ih =>
      intro k hc
      have hn : agrees re (c :: cs) ≠ true := fun ha => by
        have h := agrees_length ha
        omega
      rw [firstMatch, if_neg hn, ih]
      simp only [List.length_cons] at hc
      omega
  rw [slreMatch_plain stack hre]
  cases s with
  | nil =>
    have he : re = [] := List.length_eq_zero_iff.mp hl
    subst he
    rfl
  | cons c cs =>
    rw [firstMatch]
    by_cases ha : agrees re (c :: cs) = true
    · simp [ha, ← hl]
    · rw [if_neg ha, if_neg ha]
      rw [hshort cs _ (by simp only [List.length_cons] at hl; omega)]

end AdFilter.Slre.Plain
