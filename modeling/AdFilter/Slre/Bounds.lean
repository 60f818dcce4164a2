import AdFilter.Slre.Plain
import AdFilter.Slre.Steps

/-!
# What the matcher reads and returns

For every pattern and every bracket table: nothing of the subject after the byte at its
end decides an answer, and an answer is an error code or an offset of the subject. A set
may take the byte at the end; no other chunk does.
-/

namespace AdFilter.Slre.Bounds

open AdFilter.Slre.Match
open AdFilter.Slre.Steps

/-- The subjects are the same up to and with offset `e`. -/
def AgreeUpTo (e : Int) (s s' : List UInt8) : Prop :=
  ∀ i : Nat, (i : Int) ≤ e → byteAt s i = byteAt s' i

/-- How far past the end of the subject an answer may lie. -/
def overrun (re : List UInt8) : Int := if byte '[' ∈ re then 1 else 0

/-- The answers on two subjects are one, which is an error code or at most `bound`. -/
structure Answer (n n' bound : Int) : Prop where
  same : n = n'
  code : invalidCharacterSet ≤ n
  le : n ≤ bound

theorem overrun_nonneg (re : List UInt8) : 0 ≤ overrun re := by
  unfold overrun
  split <;> omega

theorem Answer.mono {n n' b b' : Int} (h : Answer n n' b) (hb : b ≤ b') : Answer n n' b' :=
  ⟨h.same, h.code, Int.le_trans h.le hb⟩

theorem answer_nat {n : Nat} {b : Int} (h : (n : Int) ≤ b) : Answer n n b :=
  ⟨rfl, by unfold invalidCharacterSet; omega, h⟩

theorem answer_error {n b : Int} (hlo : invalidCharacterSet ≤ n) (hn : n < 0) (hb : 0 ≤ b) :
    Answer n n b :=
  ⟨rfl, hlo, by omega⟩

/-- An answer that ends the search where it is an error; else the search goes on. -/
theorem answer_andThen {n m m' b : Int} (hcode : invalidCharacterSet ≤ n) (hb : 0 ≤ b)
    (hm : 0 ≤ n → Answer m m' b) :
    Answer (if n < 0 then n else m) (if n < 0 then n else m') b := by
  by_cases hn : n < 0
  · rw [if_pos hn, if_pos hn]
    exact answer_error hcode hn hb
  · rw [if_neg hn, if_neg hn]
    exact hm (Int.not_lt.mp hn)

theorem answer_noMatch {b : Int} (hb : 0 ≤ b) : Answer noMatch noMatch b :=
  answer_error (by decide) (by decide) hb

/-! ## One character -/

section Characters

variable {re s s' : List UInt8} {info : RegexInfo}

theorem mem_of_byteAt {b : UInt8} {i : Nat} (hb : b ≠ 0) (h : byteAt re i = b) : b ∈ re := by
  by_cases hi : i < re.length
  · simp only [byteAt, List.getD_eq_getElem?_getD, List.getElem?_eq_getElem hi,
      Option.getD_some] at h
    exact h ▸ List.getElem_mem hi
  · simp only [byteAt, List.getD_eq_getElem?_getD, List.getElem?_eq_none (Nat.le_of_not_lt hi),
      Option.getD_none] at h
    exact absurd h.symm hb

theorem matchEscape_congr {p : Nat} (h : byteAt s p = byteAt s' p) (r : Nat) :
    matchEscape re s r p = matchEscape re s' r p := by
  rw [matchEscape, h, ← matchEscape]

theorem matchOp_congr {p : Nat} (h : byteAt s p = byteAt s' p) (r : Nat) :
    matchOp re s info r p = matchOp re s' info r p := by
  rw [matchOp, matchEscape_congr h, h, ← matchOp]

theorem matchEscape_cases (re s : List UInt8) (r p : Nat) :
    matchEscape re s r p = 1 ∨ matchEscape re s r p = -1 := by
  rw [matchEscape]
  exact ite_eq_or_eq _ _ _

theorem matchOp_cases (re s : List UInt8) (info : RegexInfo) (r p : Nat) :
    matchOp re s info r p = 1 ∨
      matchOp re s info r p < 0 ∧ invalidCharacterSet ≤ matchOp re s info r p := by
  have hneg : (-1 : Int) < 0 ∧ invalidCharacterSet ≤ (-1 : Int) := by decide
  unfold matchOp
  dsimp only
  split_ifs
  · rcases matchEscape_cases re s r p with h | h
    · exact Or.inl h
    · rw [h]
      exact Or.inr hneg
  all_goals first | exact Or.inl rfl | exact Or.inr (by decide)

theorem matchSetFrom_congr {p : Nat} (h : byteAt s p = byteAt s' p) (r : Nat) (reLen : Int)
    (len : Nat) (result : Int) :
    matchSetFrom re s info r reLen p len result =
      matchSetFrom re s' info r reLen p len result := by
  induction len, result using matchSetFrom.induct re s info r reLen p with
  | case1 len result hin lo hi hrange c inRange ih =>
    rw [matchSetFrom_range hin hrange, matchSetFrom_range hin hrange, ← h]
    exact ih
  | case2 len result hin lo hi hrange ih =>
    rw [matchSetFrom_op hin hrange, matchSetFrom_op hin hrange, ← matchOp_congr h]
    exact ih
  | case3 len result hout =>
    rw [matchSetFrom_stop hout, matchSetFrom_stop hout]

theorem matchSet_congr {p : Nat} (h : byteAt s p = byteAt s' p) (r : Nat) (reLen : Int) :
    matchSet re s info r reLen p = matchSet re s' info r reLen p := by
  simp only [matchSet, matchSetFrom_congr h]

theorem matchSet_cases (re s : List UInt8) (info : RegexInfo) (r : Nat) (reLen : Int) (p : Nat) :
    matchSet re s info r reLen p = 1 ∨ matchSet re s info r reLen p = -1 := by
  rw [matchSet]
  exact ite_eq_or_eq _ _ _

end Characters

/-! ## The whole pattern -/

section Pattern

variable {re s s' : List UInt8} {info : RegexInfo} {e : Int}

mutual

theorem bar_answer (h : AgreeUpTo e s s') (r : Nat) (reLen : Int) (p : Nat) (sLen : Int)
    (bi i j : Nat) (he : p + sLen ≤ e) :
    Answer (bar re s info r reLen p sLen bi i j) (bar re s' info r reLen p sLen bi i j)
      (max (j : Int) (sLen + overrun re)) := by
  have hov := overrun_nonneg re
  by_cases hstop : reLen ≤ i ∨ sLen < j
  · rw [bar_stop hstop, bar_stop hstop]
    exact answer_nat (by omega)
  have hi : (i : Int) < reLen := by omega
  have hj : (j : Int) ≤ sLen := by omega
  have hpos : (0 : Int) ≤ max (j : Int) (sLen + overrun re) := by omega
  by_cases hgood : GoodChunk re info r reLen bi i
  case neg =>
    rw [bar_bad hi hj hgood, bar_bad hi hj hgood]
    by_cases hq : isQuantifier re (r + i) = true
    · rw [if_pos hq]
      exact answer_error (by decide) (by decide) hpos
    · rw [if_neg hq]
      exact answer_error (by decide) (by decide) hpos
  have hstep := hgood.step_pos
  have hend : chunkEnd re info r reLen bi i = i + (chunkLen re info r reLen bi i).toNat := rfl
  have hrest := restAt_gt re r reLen (chunkEnd re info r reLen bi i)
  by_cases hquant : IsQuantified re info r reLen bi i
  · have hin := hquant.1
    by_cases hopt : byteAt re (r + chunkEnd re info r reLen bi i) = byte '?'
    · have hchunk := bar_answer h (r + i) (chunkLen re info r reLen bi i) (p + j) (sLen - j) bi 0 0
        (by omega)
      have hcont := bar_answer h r reLen p sLen bi (chunkEnd re info r reLen bi i + 1)
        (j + (bar re s info (r + i) (chunkLen re info r reLen bi i) (p + j) (sLen - j)
          bi 0 0).toNat) he
      have hle := hchunk.le
      rw [bar_opt hgood hj hin hopt, bar_opt hgood hj hin hopt, ← hchunk.same]
      exact hcont.mono (by omega)
    · rw [bar_star hgood hj hquant hopt, bar_star hgood hj hquant hopt]
      exact starChunk_answer h _ _ _ _ _ _ _ _ _ _ he
  have hat : byteAt s (p + j) = byteAt s' (p + j) := h _ (by omega)
  rw [bar_once hgood hj hquant, bar_once hgood hj hquant, ← matchSet_congr hat,
    ← matchOp_congr hat]
  dsimp only
  by_cases hset : byteAt re (r + i) = byte '['
  · rw [if_pos hset, if_pos hset]
    have hone : overrun re = 1 := if_pos (mem_of_byteAt (by decide) hset)
    rcases matchSet_cases re s info (r + i + 1) (reLen - (i + 2)) (p + j) with hn | hn
    · have hcont := bar_answer h r reLen p sLen bi (chunkEnd re info r reLen bi i) (j + 1) he
      rw [hn]
      exact hcont.mono (by omega)
    · rw [hn]
      exact answer_noMatch hpos
  rw [if_neg hset, if_neg hset]
  by_cases hgroup : byteAt re (r + i) = byte '('
  · rw [if_pos hgroup, if_pos hgroup]
    by_cases hbi : info.numBrackets ≤ bi + 1
    · rw [if_pos hbi, if_pos hbi]
      exact answer_error (by decide) (by decide) hpos
    rw [if_neg hbi, if_neg hbi]
    have hcont := fun n : Nat => bar_answer h r reLen p sLen (bi + 1)
      (chunkEnd re info r reLen bi i) (j + n) he
    by_cases hlast : reLen - (chunkEnd re info r reLen bi i : Nat) ≤ 0
    · have hdoh := doh_answer h (p + j) (sLen - j) (bi + 1) 0 (by omega)
      have hle := hdoh.le
      rw [if_pos hlast, if_pos hlast, ← hdoh.same]
      exact answer_andThen hdoh.code hpos fun hn => (hcont _).mono (by omega)
    · have hcap := capLoop_answer h (r + chunkEnd re info r reLen bi i)
        (reLen - (chunkEnd re info r reLen bi i : Nat)) (p + j) (sLen - j) (bi + 1) 0 noMatch
        (by omega) (by decide) (by unfold noMatch; omega)
      have hle := hcap.le
      rw [if_neg hlast, if_neg hlast, ← hcap.same]
      exact answer_andThen hcap.code hpos fun hn => (hcont _).mono (by omega)
  rw [if_neg hgroup, if_neg hgroup]
  have hcont := bar_answer h r reLen p sLen bi (chunkEnd re info r reLen bi i) j he
  by_cases hcaret : byteAt re (r + i) = byte '^'
  · rw [if_pos hcaret, if_pos hcaret]
    by_cases hj0 : j ≠ 0
    · rw [if_pos hj0, if_pos hj0]
      exact answer_noMatch hpos
    · rw [if_neg hj0, if_neg hj0]
      exact hcont
  rw [if_neg hcaret, if_neg hcaret]
  by_cases hdollar : byteAt re (r + i) = byte '$'
  · rw [if_pos hdollar, if_pos hdollar]
    by_cases hjs : (j : Int) ≠ sLen
    · rw [if_pos hjs, if_pos hjs]
      exact answer_noMatch hpos
    · rw [if_neg hjs, if_neg hjs]
      exact hcont
  rw [if_neg hdollar, if_neg hdollar]
  by_cases hsj : sLen ≤ j
  · rw [if_pos hsj, if_pos hsj]
    exact answer_noMatch hpos
  rw [if_neg hsj, if_neg hsj]
  rcases matchOp_cases re s info (r + i) (p + j) with hn | ⟨hn, hlo⟩
  · have hcont' := bar_answer h r reLen p sLen bi (chunkEnd re info r reLen bi i) (j + 1) he
    rw [hn]
    exact hcont'.mono (by omega)
  · rw [if_pos (Int.le_of_lt hn), if_pos (Int.le_of_lt hn)]
    exact answer_error hlo hn hpos
termination_by (2 * (info.numBrackets - bi), 3 * reLen.toNat, (reLen - i).toNat)
decreasing_by
  all_goals
    first
      | (apply Prod.Lex.right; apply Prod.Lex.left; omega)
      | (apply Prod.Lex.right; apply Prod.Lex.right; omega)
      | (apply Prod.Lex.left; omega)

theorem starChunk_answer (h : AgreeUpTo e s s') (c : Nat) (step : Int) (r : Nat) (reLen : Int)
    (plus nonGreedy : Bool) (p : Nat) (sLen : Int) (bi j : Nat) (he : p + sLen ≤ e) :
    Answer (starChunk re s info c step r reLen plus nonGreedy p sLen bi j)
      (starChunk re s' info c step r reLen plus nonGreedy p sLen bi j)
      (max (j : Int) (sLen + overrun re)) := by
  have hov := overrun_nonneg re
  have hpos : (0 : Int) ≤ max (j : Int) (sLen + overrun re) := by omega
  obtain ⟨hsame, hle⟩ :=
    starLoop_answer h c step r reLen plus nonGreedy p sLen bi j j j (-1) he
  have hrest := bar_answer h r reLen (p + j) (sLen - j) bi 0 0 (by omega)
  have hrestLe := hrest.le
  have heq : starChunk re s info c step r reLen plus nonGreedy p sLen bi j =
      starChunk re s' info c step r reLen plus nonGreedy p sLen bi j := by
    rw [starChunk, starChunk, ← hsame, ← hrest.same]
  generalize hout : starLoop re s info c step r reLen plus nonGreedy p sLen bi j j j (-1) = out
    at hle
  obtain ⟨nj, n1, n2⟩ := out
  rcases starChunk_cases hout with ⟨hv, -⟩ | ⟨hv, -⟩ | ⟨hv, -⟩
  · rw [← heq, hv]
    exact answer_noMatch hpos
  · rw [← heq, hv]
    exact answer_nat (by omega)
  · rw [← heq, hv]
    exact answer_nat (by omega)
termination_by (2 * (info.numBrackets - bi), 3 * max step.toNat reLen.toNat + 2, 0)
decreasing_by
  all_goals
    apply Prod.Lex.right
    apply Prod.Lex.left
    omega

theorem starLoop_answer (h : AgreeUpTo e s s') (c : Nat) (step : Int) (r : Nat) (reLen : Int)
    (plus nonGreedy : Bool) (p : Nat) (sLen : Int) (bi j j2 nj : Nat) (n2 : Int)
    (he : p + sLen ≤ e) :
    starLoop re s info c step r reLen plus nonGreedy p sLen bi j j2 nj n2 =
        starLoop re s' info c step r reLen plus nonGreedy p sLen bi j j2 nj n2 ∧
      ((starLoop re s info c step r reLen plus nonGreedy p sLen bi j j2 nj n2).1 : Int) ≤
        max (nj : Int) (max (j2 : Int) (sLen + overrun re)) := by
  have hov := overrun_nonneg re
  have hchunk := bar_answer h c step (p + j2) (sLen - j2) bi 0 0 (by omega)
  have hchunkLe := hchunk.le
  rw [starLoop_step, starLoop_step, ← hchunk.same]
  generalize bar re s info c step (p + j2) (sLen - j2) bi 0 0 = n1 at hchunkLe ⊢
  have hrest := bar_answer h r reLen (p + (j2 + n1.toNat)) (sLen - (j2 + n1.toNat : Nat)) bi 0 0
    (by omega)
  have hrestLe := hrest.le
  have hvalue : restValue re s info r reLen p sLen bi (j2 + n1.toNat) n2 =
      restValue re s' info r reLen p sLen bi (j2 + n1.toNat) n2 := by
    unfold restValue
    rw [← hrest.same]
  have hnext : (nextOffset reLen (j2 + n1.toNat) nj
      (restValue re s info r reLen p sLen bi (j2 + n1.toNat) n2) : Int) ≤
        max (nj : Int) (max (j2 : Int) (sLen + overrun re)) := by
    unfold nextOffset restValue
    split_ifs <;> omega
  dsimp only
  rw [← hvalue]
  generalize restValue re s info r reLen p sLen bi (j2 + n1.toNat) n2 = rest at hnext ⊢
  generalize nextOffset reLen (j2 + n1.toNat) nj rest = nj' at hnext ⊢
  by_cases hbreak : plus = true ∧ n1 < 0
  · rw [if_pos hbreak, if_pos hbreak]
    exact ⟨rfl, by dsimp only; omega⟩
  rw [if_neg hbreak, if_neg hbreak]
  by_cases hlazy : j < nj' ∧ nonGreedy = true
  · rw [if_pos hlazy, if_pos hlazy]
    exact ⟨rfl, hnext⟩
  rw [if_neg hlazy, if_neg hlazy]
  by_cases hagain : 0 < n1 ∧ (j2 : Int) ≤ sLen
  · obtain ⟨hsame, hle⟩ := starLoop_answer h c step r reLen plus nonGreedy p sLen bi j
      (j2 + n1.toNat) nj' rest he
    rw [if_pos hagain, if_pos hagain]
    exact ⟨hsame, by omega⟩
  · rw [if_neg hagain, if_neg hagain]
    exact ⟨rfl, hnext⟩
termination_by
  (2 * (info.numBrackets - bi), 3 * max step.toNat reLen.toNat + 1, (sLen + 1 - j2).toNat)
decreasing_by
  all_goals
    first
      | (apply Prod.Lex.right; apply Prod.Lex.left; omega)
      | (apply Prod.Lex.right; apply Prod.Lex.right; omega)

theorem capLoop_answer (h : AgreeUpTo e s s') (r : Nat) (reLen : Int) (p : Nat) (sLen : Int)
    (bi j2 : Nat) (n : Int) (he : p + sLen ≤ e) (hcode : invalidCharacterSet ≤ n)
    (hn : n ≤ max 0 (sLen + overrun re)) :
    Answer (capLoop re s info r reLen p sLen bi j2 n) (capLoop re s' info r reLen p sLen bi j2 n)
      (max 0 (sLen + overrun re)) := by
  rw [capLoop, capLoop]
  by_cases hj : (j2 : Int) ≤ sLen
  case neg =>
    rw [if_neg hj, if_neg hj]
    exact ⟨rfl, hcode, hn⟩
  rw [if_pos hj, if_pos hj]
  have hdoh := doh_answer h p (sLen - j2) bi 0 (by omega)
  rw [← hdoh.same]
  generalize doh re s info p (sLen - j2) bi 0 = n' at hdoh
  have hle := hdoh.le
  have hagain := capLoop_answer h r reLen p sLen bi (j2 + 1) n' he hdoh.code (by omega)
  dsimp only
  by_cases hn' : 0 ≤ n'
  case neg =>
    rw [if_neg fun hc => hn' hc.1, if_neg fun hc => hn' hc.1]
    exact hagain
  have hrest := bar_answer h r reLen (p + n'.toNat) (sLen - n') bi 0 0 (by omega)
  rw [← hrest.same]
  by_cases hfound : 0 ≤ n' ∧ 0 ≤ bar re s info r reLen (p + n'.toNat) (sLen - n') bi 0 0
  · rw [if_pos hfound, if_pos hfound]
    exact ⟨rfl, hdoh.code, by omega⟩
  · rw [if_neg hfound, if_neg hfound]
    exact hagain
termination_by (2 * (info.numBrackets - bi) + 1, 1, (sLen + 1 - j2).toNat)
decreasing_by
  · apply Prod.Lex.right
    apply Prod.Lex.left
    omega
  · apply Prod.Lex.right
    apply Prod.Lex.right
    omega
  · apply Prod.Lex.left
    omega

theorem doh_answer (h : AgreeUpTo e s s') (p : Nat) (sLen : Int) (bi i : Nat)
    (he : p + sLen ≤ e) :
    Answer (doh re s info p sLen bi i) (doh re s' info p sLen bi i)
      (max 0 (sLen + overrun re)) := by
  have hbar := bar_answer h (branchText info (info.brackets bi) i).1
    (branchText info (info.brackets bi) i).2 p sLen bi 0 0 he
  have hsame : branchAnswer re s info p sLen bi i = branchAnswer re s' info p sLen bi i := hbar.same
  rw [doh_step (s := s), doh_step (s := s'), ← hsame]
  by_cases hnext : branchAnswer re s info p sLen bi i ≤ 0 ∧ i < (info.brackets bi).numBranches
  · rw [if_pos hnext, if_pos hnext]
    exact doh_answer h p sLen bi (i + 1) he
  · rw [if_neg hnext, if_neg hnext]
    exact ⟨rfl, hbar.code, hbar.le⟩
termination_by (2 * (info.numBrackets - bi) + 1, 0, (info.brackets bi).numBranches - i)
decreasing_by
  · apply Prod.Lex.left
    omega
  · apply Prod.Lex.right
    apply Prod.Lex.right
    omega

end

theorem bazFrom_answer {sLen : Nat} (h : AgreeUpTo sLen s s') (info : RegexInfo) (n : Nat) :
    ∀ i, i + n = sLen + 1 →
      Answer (bazFrom re s info sLen n i) (bazFrom re s' info sLen n i) (sLen + overrun re) := by
  have hov := overrun_nonneg re
  induction n with
  | zero =>
    intro i _
    exact answer_noMatch (by omega)
  | succ n ih =>
    intro i hi
    have hdoh : Answer (doh re s info i ((sLen : Int) - i) 0 0)
        (doh re s' info i ((sLen : Int) - i) 0 0) (max 0 (((sLen : Int) - i) + overrun re)) :=
      doh_answer h i _ 0 0 (by omega)
    have hle := hdoh.le
    rw [bazFrom, bazFrom, ← hdoh.same]
    generalize doh re s info i ((sLen : Int) - i) 0 0 = result at hdoh hle
    by_cases hfound : 0 ≤ result
    · rw [if_pos hfound, if_pos hfound]
      exact ⟨rfl, by unfold invalidCharacterSet; omega, by omega⟩
    rw [if_neg hfound, if_neg hfound]
    have hfail := answer_error hdoh.code (Int.not_le.mp hfound) (show 0 ≤ sLen + overrun re by omega)
    by_cases hanchor : byteAt re (info.brackets 0).ptr = byte '^'
    · rw [if_pos hanchor, if_pos hanchor]
      exact hfail
    rw [if_neg hanchor, if_neg hanchor]
    by_cases hlast : n = 0
    · rw [if_pos hlast, if_pos hlast]
      exact hfail
    · rw [if_neg hlast, if_neg hlast]
      exact ih (i + 1) (by omega)

theorem baz_answer {sLen : Nat} (h : AgreeUpTo sLen s s') (info : RegexInfo) :
    Answer (baz re s info sLen) (baz re s' info sLen) (sLen + overrun re) :=
  bazFrom_answer h info (sLen + 1) 0 (by omega)

/-- The pass over the pattern ends in an error code, if it fails. -/
theorem scan_error {info : RegexInfo} {depth i : Nat} {err : Int}
    (h : scan re info depth i = some (.error err)) : tooManyBrackets ≤ err ∧ err < 0 := by
  induction info, depth, i using scan.induct re with
  | case1 info depth i hi e hchunk =>
    rw [scan, if_pos hi, hchunk] at h
    obtain rfl : e = err := by simpa using h
    revert hchunk
    unfold scanChunk
    dsimp only
    split_ifs <;> intro hchunk <;> first | (cases hchunk; decide) | cases hchunk
  | case2 info depth i hi step info' depth' hchunk hstep =>
    rw [scan, if_pos hi, hchunk] at h
    dsimp only at h
    rw [if_pos hstep] at h
    cases h
  | case3 info depth i hi step info' depth' hchunk hstep ih =>
    rw [scan, if_pos hi, hchunk] at h
    dsimp only at h
    rw [if_neg hstep] at h
    exact ih h
  | case4 info depth i hi =>
    rw [scan, if_neg hi] at h
    cases h

end Pattern

/-- Of the buffer that holds the subject, no byte after the one at its end decides anything. -/
theorem baz_reads_subject {re s s' : List UInt8} (info : RegexInfo) {sLen : Nat}
    (h : ∀ i ≤ sLen, byteAt s i = byteAt s' i) : baz re s info sLen = baz re s' info sLen :=
  (baz_answer (fun i hi => h i (by omega)) info).same

theorem baz_reads_subject_buffer :
    baz [97] [97] ⟨fun _ => ⟨0, 1, 0, 0⟩, 1, [], slreIgnoreCase⟩ 1 =
      baz [97] [97, 0, 98] ⟨fun _ => ⟨0, 1, 0, 0⟩, 1, [], slreIgnoreCase⟩ 1 :=
  baz_reads_subject _ (by decide)

/-- Whatever the pattern, an answer is an error code or an offset of the subject; only a
pattern with a set can answer the offset after the end. -/
theorem slreMatch_range {stack : Nat → BracketPair} {re s : List UInt8} {flags : Nat} {n : Int}
    (h : slreMatch stack re s flags = some n) :
    tooManyBrackets ≤ n ∧ n ≤ s.length + overrun re := by
  have hov := overrun_nonneg re
  rw [slreMatch, foo] at h
  dsimp only at h
  generalize hscan : scan re _ 0 0 = out at h
  rcases out with _ | (err | ⟨info, depth⟩)
  · cases h
  · have herr := scan_error hscan
    obtain rfl : err = n := by simpa using h
    exact ⟨herr.1, by omega⟩
  · dsimp only at h
    by_cases hdepth : depth ≠ 0
    · rw [if_pos hdepth] at h
      obtain rfl : unbalancedBrackets = n := by simpa using h
      exact ⟨by decide, by unfold unbalancedBrackets; omega⟩
    · rw [if_neg hdepth] at h
      have hsame : AgreeUpTo s.length s s := fun _ _ => rfl
      have hbaz : Answer (baz re s (setupBranchPoints info) s.length)
          (baz re s (setupBranchPoints info) s.length) (s.length + overrun re) := baz_answer hsame _
      obtain rfl : baz re s (setupBranchPoints info) s.length = n := by simpa using h
      exact ⟨Int.le_trans (by decide) hbaz.code, hbaz.le⟩

theorem slreMatch_range_plain :
    tooManyBrackets ≤ 1 ∧ 1 ≤ ([97] : List UInt8).length + overrun [97] :=
  slreMatch_range (n := 1) (Plain.slreMatch_plain (fun _ => ⟨0, 0, 0, 0⟩) (by decide) [97])

end AdFilter.Slre.Bounds
