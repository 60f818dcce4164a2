import AdFilter.Slre.Steps
import Mathlib.Logic.Relation

/-!
# Repetition in the matcher

The loop of `*` and `+` for any chunk and any pattern after it. What the loop finds is a
number of repetitions and a match of the rest, if what it asks of the chunk and the rest
is sound. `e` is the end of the subject that the loop was handed.
-/

namespace AdFilter.Slre.Repetition

open AdFilter.Slre.Match
open AdFilter.Slre.Steps
open Relation (ReflTransGen TransGen)

/-- An answer of `bar` that lies inside the subject is a step of the relation. -/
def SoundFor (re s : List UInt8) (info : RegexInfo) (e r : Nat) (reLen : Int) (bi : Nat)
    (R : Nat → Nat → Prop) : Prop :=
  ∀ (p : Nat) (sLen : Int), p + sLen = e → 0 ≤ bar re s info r reLen p sLen bi 0 0 →
    bar re s info r reLen p sLen bi 0 0 ≤ sLen →
      R p (p + (bar re s info r reLen p sLen bi 0 0).toNat)

/-- The chunk any number of times, for a `+` at least once. -/
def Repeats (plus : Bool) (D : Nat → Nat → Prop) (a m : Nat) : Prop :=
  if plus then TransGen D a m else ReflTransGen D a m

/-- The repetitions and then the rest. -/
def RepeatsThen (plus : Bool) (D R : Nat → Nat → Prop) (a b : Nat) : Prop :=
  ∃ m, Repeats plus D a m ∧ R m b

variable {re s : List UInt8} {info : RegexInfo} {e c r : Nat} {step reLen : Int}
  {plus nonGreedy : Bool} {p : Nat} {sLen : Int} {bi j : Nat} {D R : Nat → Nat → Prop}

/-- What holds of the offset the loop has found so far and of the last value of the rest. -/
def Found (plus : Bool) (D R : Nat → Nat → Prop) (p : Nat) (sLen : Int) (j nj : Nat) (n2 : Int) :
    Prop :=
  (nj : Int) ≤ sLen → nj ≠ j ∨ 0 ≤ n2 → RepeatsThen plus D R (p + j) (p + nj)

theorem repeats_round {m m' : Nat} {n1 : Int} (hplus : ¬ (plus = true ∧ n1 < 0))
    (h : ReflTransGen D (p + j) m) (hstep : 0 ≤ n1 → D m m') (heq : n1 < 0 → m' = m) :
    Repeats plus D (p + j) m' := by
  unfold Repeats
  by_cases hn : n1 < 0
  · rw [if_neg fun hp => hplus ⟨hp, hn⟩, heq hn]
    exact h
  · have ht := TransGen.tail' h (hstep (Int.not_lt.mp hn))
    cases plus with
    | true => exact ht
    | false => exact ht.to_reflTransGen

theorem Repeats.reflTransGen {a m : Nat} (h : Repeats plus D a m) : ReflTransGen D a m := by
  cases plus with
  | true => exact TransGen.to_reflTransGen h
  | false => exact h

/-- What a round finds, from the repetitions it made. -/
theorem found_next (hend : p + sLen = e) (hR : SoundFor re s info e r reLen bi R)
    (hnil : reLen ≤ 0 → ∀ m, R m m) {j2 nj : Nat} {n2 : Int}
    (hreps : (j2 : Int) ≤ sLen → Repeats plus D (p + j) (p + j2))
    (hfound : Found plus D R p sLen j nj n2) :
    Found plus D R p sLen j
      (nextOffset reLen j2 nj (restValue re s info r reLen p sLen bi j2 n2))
      (restValue re s info r reLen p sLen bi j2 n2) := by
  intro hle hnew
  by_cases hlen : reLen ≤ 0
  · rw [nextOffset, if_pos hlen] at hle ⊢
    exact ⟨p + j2, hreps hle, hnil hlen _⟩
  have hvalue : restValue re s info r reLen p sLen bi j2 n2 =
      bar re s info r reLen (p + j2) (sLen - j2) bi 0 0 := if_neg hlen
  rw [hvalue] at hle hnew ⊢
  rw [nextOffset, if_neg hlen] at hle hnew ⊢
  by_cases hrest : 0 ≤ bar re s info r reLen (p + j2) (sLen - j2) bi 0 0
  · rw [if_pos hrest] at hle ⊢
    have hR' := hR (p + j2) (sLen - j2) (by omega) hrest (by omega)
    rw [Nat.add_assoc] at hR'
    exact ⟨p + j2, hreps (by omega), hR'⟩
  · rw [if_neg hrest] at hle hnew ⊢
    exact hfound hle (Or.inl (hnew.resolve_right hrest))

/-- The loop keeps the invariant, whatever it starts from. -/
theorem starLoop_sound (hend : p + sLen = e) (hD : SoundFor re s info e c step bi D)
    (hR : SoundFor re s info e r reLen bi R) (hnil : reLen ≤ 0 → ∀ m, R m m) {j2 nj : Nat} {n2 : Int}
    (hreps : (j2 : Int) ≤ sLen → ReflTransGen D (p + j) (p + j2))
    (hfound : Found plus D R p sLen j nj n2) {nj' : Nat} {n1' n2' : Int}
    (hout : starLoop re s info c step r reLen plus nonGreedy p sLen bi j j2 nj n2 =
      (nj', n1', n2')) : Found plus D R p sLen j nj' n2' := by
  induction hk : (sLen + 1 - j2).toNat using Nat.strongRecOn generalizing j2 nj n2 with
  | ind k ih =>
    rw [starLoop_step] at hout
    dsimp only at hout
    have hchunk := hD (p + j2) (sLen - j2) (by omega)
    generalize bar re s info c step (p + j2) (sLen - j2) bi 0 0 = n1 at hchunk hout
    by_cases hbreak : plus = true ∧ n1 < 0
    · rw [if_pos hbreak] at hout
      obtain ⟨rfl, rfl, rfl⟩ : nj = nj' ∧ n1 = n1' ∧ n2 = n2' := by simpa using hout
      exact hfound
    rw [if_neg hbreak] at hout
    have hreps' : ((j2 + n1.toNat : Nat) : Int) ≤ sLen →
        Repeats plus D (p + j) (p + (j2 + n1.toNat)) := by
      intro hle
      apply repeats_round hbreak (hreps (by omega))
      · intro hn
        rw [← Nat.add_assoc]
        exact hchunk hn (by omega)
      · intro hn
        rw [Int.toNat_of_nonpos (Int.le_of_lt hn), Nat.add_zero]
    have hfound' := found_next hend hR hnil hreps' hfound
    generalize restValue re s info r reLen p sLen bi (j2 + n1.toNat) n2 = rest at hfound' hout
    generalize nextOffset reLen (j2 + n1.toNat) nj rest = next at hfound' hout
    by_cases hlazy : j < next ∧ nonGreedy = true
    · rw [if_pos hlazy] at hout
      obtain ⟨rfl, rfl, rfl⟩ : next = nj' ∧ n1 = n1' ∧ rest = n2' := by simpa using hout
      exact hfound'
    rw [if_neg hlazy] at hout
    by_cases hagain : 0 < n1 ∧ (j2 : Int) ≤ sLen
    · rw [if_pos hagain] at hout
      exact ih _ (by omega) (fun hle => (hreps' hle).reflTransGen) hfound' hout rfl
    · rw [if_neg hagain] at hout
      obtain ⟨rfl, rfl, rfl⟩ : next = nj' ∧ n1 = n1' ∧ rest = n2' := by simpa using hout
      exact hfound'

/-- An answer of a repeated chunk is a number of repetitions and a match of the rest. -/
theorem starChunk_sound (hend : p + sLen = e) (hj : (j : Int) ≤ sLen)
    (hD : SoundFor re s info e c step bi D) (hR : SoundFor re s info e r reLen bi R)
    (hnil : reLen ≤ 0 → ∀ m, R m m) {n : Int}
    (hn : starChunk re s info c step r reLen plus nonGreedy p sLen bi j = n) (h0 : 0 ≤ n)
    (hle : n ≤ sLen) : RepeatsThen plus D R (p + j) (p + n.toNat) := by
  have hrest := hR (p + j) (sLen - j) (by omega)
  generalize hout : starLoop re s info c step r reLen plus nonGreedy p sLen bi j j j (-1) = out
  obtain ⟨nj, n1, n2⟩ := out
  have hfound : Found plus D R p sLen j nj n2 := by
    apply starLoop_sound hend hD hR hnil (fun _ => ReflTransGen.refl) _ hout
    exact fun _ hnew => absurd rfl (hnew.resolve_right (by decide))
  have hzero : plus = false → Repeats plus D (p + j) (p + j) := by
    rintro rfl
    exact ReflTransGen.refl
  rcases starChunk_cases hout with ⟨hv, -⟩ | ⟨hv, hplus, hsame⟩ | ⟨hv, hplus, hpos⟩
  · rw [hv] at hn
    rw [← hn] at h0
    exact absurd h0 (by decide)
  · obtain rfl : (nj : Int) = n := hv.symm.trans hn
    rw [Int.toNat_natCast]
    by_cases hnj : nj = j
    · have hstar : plus = false := Bool.of_not_eq_true fun hp => hplus hp hnj
      rcases hsame hnj with hlen | hn2 | ⟨-, hzeroRest⟩
      · rw [hnj]
        exact ⟨p + j, hzero hstar, hnil hlen _⟩
      · exact hfound hle (Or.inr hn2)
      · rw [hzeroRest] at hrest
        rw [hnj]
        exact ⟨p + j, hzero hstar, hrest (Int.le_refl 0) (Int.sub_nonneg_of_le hj)⟩
    · exact hfound hle (Or.inl hnj)
  · obtain rfl := hv.symm.trans hn
    rw [Int.toNat_natCast, ← Nat.add_assoc]
    exact ⟨p + j, hzero hplus, hrest (Int.le_of_lt hpos) (by omega)⟩

/-! ## What the loop cannot miss -/

/-- An offset after the start stays one. -/
theorem starLoop_later {j2 nj : Nat} {n2 : Int} (hj : j < j2) (hnj : j < nj) :
    j < (starLoop re s info c step r reLen plus nonGreedy p sLen bi j j2 nj n2).1 := by
  induction hk : (sLen + 1 - j2).toNat using Nat.strongRecOn generalizing j2 nj n2 with
  | ind k ih =>
    rw [starLoop_step]
    dsimp only
    generalize bar re s info c step (p + j2) (sLen - j2) bi 0 0 = n1
    generalize restValue re s info r reLen p sLen bi (j2 + n1.toNat) n2 = rest
    have hnext : j < nextOffset reLen (j2 + n1.toNat) nj rest := by
      unfold nextOffset
      split_ifs <;> omega
    generalize nextOffset reLen (j2 + n1.toNat) nj rest = next at hnext
    by_cases hbreak : plus = true ∧ n1 < 0
    · rw [if_pos hbreak]
      exact hnj
    rw [if_neg hbreak]
    by_cases hlazy : j < next ∧ nonGreedy = true
    · rw [if_pos hlazy]
      exact hnext
    rw [if_neg hlazy]
    by_cases hagain : 0 < n1 ∧ (j2 : Int) ≤ sLen
    · rw [if_pos hagain]
      exact ih _ (by omega) (by omega) hnext rfl
    · rw [if_neg hagain]
      exact hnext

/-- Where the chunk matches `t` times and then the rest, the loop finds an offset. -/
theorem starLoop_reaches {t : Nat} (ht : 0 < t) {j2 nj : Nat} {n2 : Int} (hj : j ≤ j2)
    (hchunk : ∀ u < t,
      bar re s info c step (p + (j2 + u)) (sLen - (j2 + u : Nat)) bi 0 0 = 1)
    (hle : ((j2 + t : Nat) : Int) ≤ sLen)
    (hrest : 0 < reLen →
      0 ≤ bar re s info r reLen (p + (j2 + t)) (sLen - (j2 + t : Nat)) bi 0 0) :
    j < (starLoop re s info c step r reLen plus nonGreedy p sLen bi j j2 nj n2).1 := by
  induction t generalizing j2 nj n2 with
  | zero => exact absurd ht (Nat.lt_irrefl 0)
  | succ t ih =>
    have hone : bar re s info c step (p + j2) (sLen - j2) bi 0 0 = 1 := hchunk 0 (Nat.succ_pos t)
    rw [starLoop_step]
    dsimp only
    rw [hone, if_neg (fun h => absurd h.2 (by decide))]
    have htoNat : (1 : Int).toNat = 1 := rfl
    rw [htoNat]
    by_cases hlast : t = 0
    · have hnext : j < nextOffset reLen (j2 + 1) nj
          (restValue re s info r reLen p sLen bi (j2 + 1) n2) := by
        subst hlast
        unfold nextOffset restValue
        by_cases hlen : reLen ≤ 0
        · rw [if_pos hlen]
          omega
        · rw [if_neg hlen, if_neg hlen, if_pos (hrest (Int.not_le.mp hlen))]
          omega
      by_cases hlazy : j < nextOffset reLen (j2 + 1) nj
          (restValue re s info r reLen p sLen bi (j2 + 1) n2) ∧ nonGreedy = true
      · rw [if_pos hlazy]
        exact hnext
      · rw [if_neg hlazy, if_pos ⟨Int.one_pos, by omega⟩]
        exact starLoop_later (by omega) hnext
    · generalize restValue re s info r reLen p sLen bi (j2 + 1) n2 = rest
      by_cases hlazy : j < nextOffset reLen (j2 + 1) nj rest ∧ nonGreedy = true
      · rw [if_pos hlazy]
        exact hlazy.1
      · rw [if_neg hlazy, if_pos ⟨Int.one_pos, by omega⟩]
        apply ih (Nat.pos_of_ne_zero hlast) (by omega)
        · intro u hu
          have hnext := hchunk (u + 1) (by omega)
          rwa [Nat.add_comm u, ← Nat.add_assoc j2] at hnext
        · omega
        · intro hlen
          have hr := hrest hlen
          rwa [Nat.add_comm t, ← Nat.add_assoc j2] at hr

/-- The loop of a star ends at a chunk that does not match, unless it found something. -/
theorem starLoop_exit (hlen : 0 < reLen)
    (hchunk : ∀ (q : Nat) (l : Int), 0 ≤ l → bar re s info c step q l bi 0 0 ≠ 0)
    {j2 nj : Nat} {n2 : Int} {nj' : Nat} {n1' n2' : Int}
    (hout : starLoop re s info c step r reLen false nonGreedy p sLen bi j j2 nj n2 =
      (nj', n1', n2')) : n1' < 0 ∨ 0 ≤ n2' ∨ j < nj' := by
  induction hk : (sLen + 1 - j2).toNat using Nat.strongRecOn generalizing j2 nj n2 with
  | ind k ih =>
    rw [starLoop_step] at hout
    dsimp only at hout
    have hzero : bar re s info c step (p + j2) (sLen - j2) bi 0 0 = 0 → sLen < j2 := by
      intro h0
      by_contra hle
      exact hchunk _ _ (by omega) h0
    generalize bar re s info c step (p + j2) (sLen - j2) bi 0 0 = n1 at hout hzero
    rw [if_neg fun h => Bool.false_ne_true h.1] at hout
    by_cases hlazy : j < nextOffset reLen (j2 + n1.toNat) nj
        (restValue re s info r reLen p sLen bi (j2 + n1.toNat) n2) ∧ nonGreedy = true
    · rw [if_pos hlazy] at hout
      have hnj := congrArg Prod.fst hout
      dsimp only at hnj
      exact Or.inr (Or.inr (hnj ▸ hlazy.1))
    rw [if_neg hlazy] at hout
    by_cases hagain : 0 < n1 ∧ (j2 : Int) ≤ sLen
    · rw [if_pos hagain] at hout
      exact ih _ (by omega) hout rfl
    rw [if_neg hagain] at hout
    have hn1 : n1 = n1' := congrArg (fun out => out.2.1) hout
    have hn2 := congrArg (fun out => out.2.2) hout
    dsimp only at hn2
    by_cases hneg : n1 < 0
    · exact Or.inl (hn1 ▸ hneg)
    · -- past the end of the subject the rest has nothing to fail at
      have hpast : sLen < ((j2 + n1.toNat : Nat) : Int) := by omega
      rw [restValue, if_neg (Int.not_le.mpr hlen), bar_stop (Or.inr (by omega))] at hn2
      exact Or.inr (Or.inl (by omega))

/-- A chunk that matches often enough, and then the rest, is no failure. -/
theorem starChunk_complete
    (hone : ∀ (q : Nat) (l : Int), 0 ≤ l → bar re s info c step q l bi 0 0 ≠ 0) {t : Nat}
    (hplus : plus = true → 0 < t)
    (hchunk : ∀ u < t, bar re s info c step (p + (j + u)) (sLen - (j + u : Nat)) bi 0 0 = 1)
    (hle : ((j + t : Nat) : Int) ≤ sLen)
    (hrest : 0 < reLen →
      0 ≤ bar re s info r reLen (p + (j + t)) (sLen - (j + t : Nat)) bi 0 0) :
    0 ≤ starChunk re s info c step r reLen plus nonGreedy p sLen bi j := by
  generalize hout : starLoop re s info c step r reLen plus nonGreedy p sLen bi j j j (-1) = out
  obtain ⟨nj, n1, n2⟩ := out
  rcases starChunk_cases hout with ⟨-, hnj, hwhy⟩ | ⟨hv, -⟩ | ⟨hv, -⟩
  · by_cases ht : 0 < t
    · have hreach :
          j < (starLoop re s info c step r reLen plus nonGreedy p sLen bi j j j (-1)).1 :=
        starLoop_reaches ht (Nat.le_refl j) hchunk hle hrest
      rw [hout] at hreach
      exact absurd hnj (Nat.ne_of_gt hreach)
    · obtain rfl : t = 0 := Nat.eq_zero_of_not_pos ht
      have hstar : plus = false := Bool.of_not_eq_true fun hp => ht (hplus hp)
      subst hstar
      obtain ⟨hlen, hn2, hn1⟩ := hwhy.resolve_left Bool.false_ne_true
      have hr := hrest hlen
      rw [Nat.add_zero] at hr
      rcases starLoop_exit hlen hone hout with h | h | h
      · exact absurd (hn1 h) (Int.not_lt.mpr hr)
      · exact absurd hn2 (Int.not_lt.mpr h)
      · exact absurd hnj (Nat.ne_of_gt h)
  · rw [hv]
    exact Int.natCast_nonneg _
  · rw [hv]
    exact Int.natCast_nonneg _

/-! ## What the loop cannot exceed -/

theorem starLoop_inside
    (hC : ∀ (q : Nat) (l : Int), 0 ≤ l → bar re s info c step q l bi 0 0 ≤ l)
    (hR : ∀ (q : Nat) (l : Int), 0 ≤ l → bar re s info r reLen q l bi 0 0 ≤ l)
    {j2 nj : Nat} {n2 : Int} (hj : (j2 : Int) ≤ sLen) (hnj : (nj : Int) ≤ sLen) :
    ((starLoop re s info c step r reLen plus nonGreedy p sLen bi j j2 nj n2).1 : Int) ≤ sLen := by
  induction hk : (sLen + 1 - j2).toNat using Nat.strongRecOn generalizing j2 nj n2 with
  | ind k ih =>
    rw [starLoop_step]
    dsimp only
    have hchunk := hC (p + j2) (sLen - j2) (by omega)
    generalize bar re s info c step (p + j2) (sLen - j2) bi 0 0 = n1 at hchunk
    have hrest := hR (p + (j2 + n1.toNat)) (sLen - (j2 + n1.toNat : Nat)) (by omega)
    have hnext : (nextOffset reLen (j2 + n1.toNat) nj
        (restValue re s info r reLen p sLen bi (j2 + n1.toNat) n2) : Int) ≤ sLen := by
      unfold nextOffset restValue
      split_ifs <;> omega
    generalize restValue re s info r reLen p sLen bi (j2 + n1.toNat) n2 = rest at hnext
    generalize nextOffset reLen (j2 + n1.toNat) nj rest = next at hnext
    by_cases hbreak : plus = true ∧ n1 < 0
    · rw [if_pos hbreak]
      exact hnj
    rw [if_neg hbreak]
    by_cases hlazy : j < next ∧ nonGreedy = true
    · rw [if_pos hlazy]
      exact hnext
    rw [if_neg hlazy]
    by_cases hagain : 0 < n1 ∧ (j2 : Int) ≤ sLen
    · rw [if_pos hagain]
      exact ih _ (by omega) (by omega) hnext rfl
    · rw [if_neg hagain]
      exact hnext

theorem starChunk_inside (hj : (j : Int) ≤ sLen)
    (hC : ∀ (q : Nat) (l : Int), 0 ≤ l → bar re s info c step q l bi 0 0 ≤ l)
    (hR : ∀ (q : Nat) (l : Int), 0 ≤ l → bar re s info r reLen q l bi 0 0 ≤ l) :
    starChunk re s info c step r reLen plus nonGreedy p sLen bi j ≤ sLen := by
  have hloop :
      ((starLoop re s info c step r reLen plus nonGreedy p sLen bi j j j (-1)).1 : Int) ≤ sLen :=
    starLoop_inside hC hR hj hj
  have hrest := hR (p + j) (sLen - j) (by omega)
  generalize hout : starLoop re s info c step r reLen plus nonGreedy p sLen bi j j j (-1) = out
    at hloop
  obtain ⟨nj, n1, n2⟩ := out
  rcases starChunk_cases hout with ⟨hv, -⟩ | ⟨hv, -⟩ | ⟨hv, -⟩
  · rw [hv]
    unfold noMatch
    omega
  · rw [hv]
    exact hloop
  · rw [hv]
    omega

end AdFilter.Slre.Repetition
