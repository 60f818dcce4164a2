import AdFilter.Slre.Soundness

/-!
# The matcher finds what there is to find

For one branch of single characters under no quantifier, `*` or `+`, the matcher finds a
match exactly if there is one, and of all matches one that starts first. A `?` is taken
where it can be and never given back, a branch that matches nothing makes room for the
next one, and a set may match at the end of the subject, so for these it does not hold.
-/

namespace AdFilter.Slre.Search

open AdFilter.Lib
open AdFilter.Lib.Regex (Spans Re)
open AdFilter.Slre.Match
open AdFilter.Slre.Steps
open AdFilter.Slre.Syntax
open AdFilter.Slre.Reading
open AdFilter.Slre.Branches (bazFrom_cases)
open AdFilter.Slre.Soundness

variable {re s : List UInt8} {info : RegexInfo} {r p bi i j : Nat} {reLen sLen : Int} {a : Atom}

section Branch

theorem exact_cases {a : Atom} {q : Quantifier} (h : (Item.piece a q).isExact = true) :
    a.isSet = false ∧ (q = .once ∨ ∃ b isLazy, (b = byte '*' ∨ b = byte '+') ∧
      q.text = b :: lazyText isLazy ∧
        q.apply = if b == byte '+' then Regex.plus else Re.star) := by
  cases q with
  | once => exact ⟨by simpa [Item.isExact] using h, Or.inl rfl⟩
  | opt => exact absurd h Bool.false_ne_true
  | star isLazy =>
    exact ⟨by simpa [Item.isExact] using h, Or.inr ⟨byte '*', isLazy, Or.inl rfl, rfl, rfl⟩⟩
  | plus isLazy =>
    exact ⟨by simpa [Item.isExact] using h, Or.inr ⟨byte '+', isLazy, Or.inr rfl, rfl, rfl⟩⟩

theorem atom_alone_ne_zero (h : StandsAt re r a.text) (q : Nat) (l : Int) (hl : 0 ≤ l) :
    bar re s info r a.text.length q l bi 0 0 ≠ 0 := by
  rw [atom_alone h hl]
  split <;> decide

theorem atom_alone_inside (h : StandsAt re r a.text) (hset : a.isSet = false) (q : Nat) (l : Int)
    (hl : 0 ≤ l) : bar re s info r a.text.length q l bi 0 0 ≤ l := by
  rw [atom_alone h hl]
  by_cases hc : a.holds info.ignoreCase (byteAt s q) = true ∧ (0 < l ∨ a.isSet = true)
  · have hlt := hc.2.resolve_right (by simp [hset])
    rw [if_pos hc]
    exact hlt
  · rw [if_neg hc]
    exact Int.le_trans (by decide) hl

theorem atom_alone_one (h : StandsAt re r a.text) {q : Nat} {l : Int} (hend : q + l = s.length)
    {c : UInt8} (hc : s[q]? = some c) (hold : a.holds info.ignoreCase c = true) :
    bar re s info r a.text.length q l bi 0 0 = 1 := by
  obtain ⟨hlt, rfl⟩ := List.getElem?_eq_some_iff.mp hc
  have hl : 0 < l := by omega
  rw [atom_alone h (Int.le_of_lt hl), Plain.byteAt_of_lt hlt]
  exact if_pos ⟨hold, Or.inl hl⟩

/-- The parts of the text of a sequence that starts with an atom. -/
theorem standsAt_piece {q : Quantifier} {its : List Item}
    (h : StandsAt re (r + i) (itemsText (.piece a q :: its))) :
    StandsAt re (r + i) a.text ∧
      StandsAt re (r + (i + a.text.length)) (q.text ++ itemsText its) := by
  rw [itemsText_cons, Item.text, List.append_assoc, standsAt_append, Nat.add_assoc] at h
  exact h

theorem length_piece (a : Atom) (q : Quantifier) (its : List Item) :
    (itemsText (.piece a q :: its)).length =
      a.text.length + (q.text.length + (itemsText its).length) := by
  rw [itemsText_cons, Item.text, List.length_append, List.length_append, Nat.add_assoc]

/-- Exact pieces do not match past the end of the subject. -/
theorem items_inside {its : List Item} (hex : its.all Item.isExact = true) :
    ∀ {r : Nat} {reLen : Int} {p : Nat} {sLen : Int} {i j : Nat},
      StandsAt re (r + i) (itemsText its) → reLen = (i + (itemsText its).length : Nat) →
      (j : Int) ≤ sLen → bar re s info r reLen p sLen bi i j ≤ sLen := by
  induction its with
  | nil =>
    intro r reLen p sLen i j _ hlen hj
    have hzero : (itemsText []).length = 0 := rfl
    rw [bar_stop (Or.inl (by omega))]
    exact hj
  | cons it its ih =>
    intro r reLen p sLen i j h hlen hj
    rw [List.all_cons, Bool.and_eq_true] at hex
    have hfail : noMatch ≤ sLen := by
      unfold noMatch
      omega
    cases it with
    | dollar =>
      have hone : (itemsText (.dollar :: its)).length = 1 + (itemsText its).length := by
        rw [itemsText_cons, List.length_append]
        rfl
      rw [bar_dollar h (by omega) hj]
      by_cases hjs : (j : Int) ≠ sLen
      · rw [if_pos hjs]
        exact hfail
      · rw [if_neg hjs]
        exact ih hex.2 (r := r) (i := i + 1) h.tail (by omega) hj
    | piece a q =>
      obtain ⟨ha, hq⟩ := standsAt_piece h
      rw [length_piece] at hlen
      obtain ⟨hset, rfl | ⟨b, isLazy, hb, htext, -⟩⟩ := exact_cases hex.1
      · have hzero : Quantifier.once.text.length = 0 := rfl
        have hin : (i + a.text.length : Int) ≤ reLen := by omega
        have hq' : StandsAt re (r + (i + a.text.length)) (itemsText its) := hq
        have hquant := not_quantified_of_end (chunkEnd_atom info bi ha hin) hq' (by omega)
        rw [bar_atom ha hin hquant hj]
        by_cases hc : a.holds info.ignoreCase (byteAt s (p + j)) = true ∧
            ((j : Int) < sLen ∨ a.isSet = true)
        · have hlt := hc.2.resolve_right (by simp [hset])
          rw [if_pos hc]
          exact ih hex.2 (r := r) (i := i + a.text.length) hq (by omega) (by omega)
        · rw [if_neg hc]
          exact hfail
      · rw [htext] at hq
        rw [htext, List.length_cons] at hlen
        rw [bar_repeated hb ha hq (by omega) hj]
        apply Repetition.starChunk_inside hj (atom_alone_inside ha hset)
        intro q l hl
        exact ih hex.2 (standsAt_rest hq) (by omega) hl

/-- A repeated atom takes a number of characters, a `+` at least one. -/
theorem repeats_of_spans {b : UInt8} {f : UInt8 → Bool} {m k : Nat}
    (hb : b = byte '*' ∨ b = byte '+')
    (h : Spans s ((if b == byte '+' then Regex.plus else Re.star) (.test f)) m k) :
    ∃ t, k = m + t ∧ ((b == byte '+') = true → 0 < t) ∧
      ∀ u < t, ∃ c, s[m + u]? = some c ∧ f c = true := by
  rcases hb with rfl | rfl
  · obtain ⟨t, hk, hall⟩ := Regex.spans_star_test h
    exact ⟨t, hk, fun hc => absurd hc (by decide), hall⟩
  · have hstar : Spans s (.star (.test f)) m k := Regex.spans_star_iff.mpr (Or.inr h)
    obtain ⟨m', ⟨hm', -⟩, hrest⟩ := h
    have hle := Spans.le hrest
    obtain ⟨t, hk, hall⟩ := Regex.spans_star_test hstar
    exact ⟨t, hk, fun _ => by omega, hall⟩

/-- Where there is a match the matcher has one. -/
theorem items_complete {its : List Item} (hex : its.all Item.isExact = true) :
    ∀ {r : Nat} {reLen : Int} {p : Nat} {sLen : Int} {i j k : Nat},
      StandsAt re (r + i) (itemsText its) → reLen = (i + (itemsText its).length : Nat) →
      p + sLen = s.length → Spans s (itemsRe info.ignoreCase its) (p + j) k →
      0 ≤ bar re s info r reLen p sLen bi i j := by
  induction its with
  | nil =>
    intro r reLen p sLen i j k _ hlen _ _
    have hzero : (itemsText []).length = 0 := rfl
    rw [bar_stop (Or.inl (by omega))]
    exact Int.natCast_nonneg j
  | cons it its ih =>
    intro r reLen p sLen i j k h hlen hend hspan
    by_cases hj : (j : Int) ≤ sLen
    case neg =>
      rw [bar_stop (Or.inr (Int.not_le.mp hj))]
      exact Int.natCast_nonneg j
    rw [List.all_cons, Bool.and_eq_true] at hex
    obtain ⟨m, hit, hrest⟩ := hspan
    cases it with
    | dollar =>
      have hone : (itemsText (.dollar :: its)).length = 1 + (itemsText its).length := by
        rw [itemsText_cons, List.length_append]
        rfl
      obtain ⟨rfl, hm⟩ := hit
      rw [bar_dollar h (by omega) hj, if_neg (by omega)]
      exact ih hex.2 (r := r) (i := i + 1) h.tail (by omega) hend hrest
    | piece a q =>
      obtain ⟨ha, hq⟩ := standsAt_piece h
      rw [length_piece] at hlen
      obtain ⟨-, rfl | ⟨b, isLazy, hb, htext, happly⟩⟩ := exact_cases hex.1
      · have hzero : Quantifier.once.text.length = 0 := rfl
        have hin : (i + a.text.length : Int) ≤ reLen := by omega
        have hq' : StandsAt re (r + (i + a.text.length)) (itemsText its) := hq
        have hquant := not_quantified_of_end (chunkEnd_atom info bi ha hin) hq' (by omega)
        obtain ⟨rfl, c, hc, hold⟩ := hit
        obtain ⟨hlt, rfl⟩ := List.getElem?_eq_some_iff.mp hc
        rw [bar_atom ha hin hquant hj, Plain.byteAt_of_lt hlt,
          if_pos ⟨hold, Or.inl (by omega)⟩]
        exact ih hex.2 (r := r) (i := i + a.text.length) hq (by omega) hend hrest
      · rw [Item.re, happly] at hit
        obtain ⟨t, rfl, hplus, hall⟩ := repeats_of_spans hb hit
        have hle : ((j + t : Nat) : Int) ≤ sLen := by
          cases t with
          | zero => exact hj
          | succ t =>
            obtain ⟨c, hc, -⟩ := hall t (Nat.lt_succ_self t)
            obtain ⟨hlt, -⟩ := List.getElem?_eq_some_iff.mp hc
            omega
        rw [htext] at hq
        rw [htext, List.length_cons] at hlen
        rw [bar_repeated hb ha hq (by omega) hj]
        apply Repetition.starChunk_complete (atom_alone_ne_zero ha) hplus _ hle
        · intro _
          rw [Nat.add_assoc] at hrest
          exact ih hex.2 (j := 0) (standsAt_rest hq) (by omega) (by omega) hrest
        · intro u hu
          obtain ⟨c, hc, hold⟩ := hall u hu
          rw [Nat.add_assoc] at hc
          exact atom_alone_one ha (by omega) hc hold

end Branch

/-! ## The whole pattern -/

/-- A pattern of one branch of exact pieces. -/
structure Pattern.IsExact (pat : Pattern) : Prop where
  one : pat.others = []
  pieces : pat.first.all Item.isExact = true

section Whole

variable {pat : Pattern}

/-- The answer at one offset: an end of a match from there, or an error if there is none. -/
theorem doh_exact (hex : Pattern.IsExact pat) (ht : TableOf pat info) (hp : p ≤ s.length) :
    (∃ k : Nat, doh pat.text s info p ((s.length : Int) - p) 0 0 = k ∧
        p + k ≤ s.length ∧ Spans s (pat.re info.ignoreCase) p (p + k)) ∨
      doh pat.text s info p ((s.length : Int) - p) 0 0 < 0 ∧
        ∀ k, ¬ Spans s (pat.re info.ignoreCase) p k := by
  have hnum : (info.brackets 0).numBranches = 0 := by
    rw [ht.bracket, Pattern.branchTexts, hex.one]
    rfl
  obtain ⟨its, hits, r, i, reLen, htext, hlen, hbar⟩ := branch_items ht (Nat.zero_le _)
  obtain rfl : pat.first = its := Option.some.inj hits
  have hre : ∀ k, Spans s (pat.re info.ignoreCase) p k ↔
      Spans s (itemsRe info.ignoreCase pat.first) p k := by
    intro k
    rw [Pattern.re, hex.one, Regex.spans_union]
    simp
  have hs : 0 ≤ (s.length : Int) - p := by omega
  rw [doh_step, hnum, if_neg fun h => Nat.lt_irrefl 0 h.2, hbar s p _ hs]
  by_cases h0 : 0 ≤ bar pat.text s info r reLen p ((s.length : Int) - p) 0 i 0
  · have hin : bar pat.text s info r reLen p ((s.length : Int) - p) 0 i 0 ≤ (s.length : Int) - p :=
      items_inside hex.pieces htext hlen hs
    have hspan := items_sound htext hlen (by omega) rfl h0 hin
    exact Or.inl ⟨_, (Int.toNat_of_nonneg h0).symm, by omega, (hre _).mpr hspan⟩
  · refine Or.inr ⟨Int.not_le.mp h0, fun k hspan => h0 ?_⟩
    exact items_complete hex.pieces (j := 0) htext hlen (by omega) ((hre k).mp hspan)

/-- The text of an exact pattern starts with a caret only if it is anchored. -/
theorem anchored_of_byteAt (hex : Pattern.IsExact pat) (h : byteAt pat.text 0 = byte '^') :
    pat.anchored = true := by
  by_contra hanchored
  have htext : pat.text = itemsText pat.first := by
    rw [Pattern.text, Pattern.branchTexts, hex.one, Bool.of_not_eq_true hanchored]
    exact List.append_nil _
  have hall : StandsAt pat.text 0 (itemsText pat.first) := htext ▸ List.prefix_rfl
  cases hfirst : pat.first with
  | nil =>
    rw [htext, hfirst] at h
    exact absurd h (by decide)
  | cons it its =>
    rw [hfirst, itemsText_cons] at hall
    cases it with
    | dollar =>
      rw [hall.byteAt] at h
      exact absurd h (by decide)
    | piece a q =>
      rw [Item.text, List.append_assoc] at hall
      exact ne_of_notMem (atom_head (standsAt_append.mp hall).1) (by decide) h

/-- The matcher returns the end of a match, and none starts before it; or there is none
and it returns an error. -/
theorem slreMatch_leftmost (stack : Nat → BracketPair) (hex : Pattern.IsExact pat)
    (s : List UInt8) (flags : Nat) :
    (∃ i k : Nat, slreMatch stack pat.text s flags = some k ∧ pat.MayStartAt s i ∧
        Spans s (pat.re (flags &&& slreIgnoreCase != 0)) i k ∧
        ∀ i' < i, ∀ k', ¬ Spans s (pat.re (flags &&& slreIgnoreCase != 0)) i' k') ∨
      (∃ n < 0, slreMatch stack pat.text s flags = some n) ∧
        ∀ k, ¬ pat.MatchesTo (flags &&& slreIgnoreCase != 0) s k := by
  rcases slreMatch_cases stack pat s flags with ⟨hbars, -⟩ | ⟨info, rfl, ht, hbaz⟩
  · exact absurd hex.one hbars
  have hptr : (info.brackets 0).ptr = 0 := by rw [ht.bracket]
  rw [hbaz]
  rcases bazFrom_cases pat.text s info (s.length + 1) 0 (Nat.zero_add _)
    (Nat.succ_pos _) with ⟨p, -, hp, hanchor, hfirst, hdoh, heq⟩ | ⟨hneg, hall⟩
  · rcases doh_exact hex ht hp with ⟨k, hk, -, hspan⟩ | ⟨hneg, -⟩
    · refine Or.inl ⟨p, p + k, ?_, ⟨hp, fun ha => hanchor ?_⟩, hspan, fun q hq k' hspan' => ?_⟩
      · rw [hk] at heq
        rw [baz, heq]
        congr 1
        omega
      · rw [hptr]
        exact byteAt_text_zero ha
      · rcases doh_exact hex ht (show q ≤ s.length by omega) with ⟨k'', hk'', -, -⟩ | ⟨-, hnone⟩
        · have hneg := hfirst q (Nat.zero_le q) hq
          omega
        · exact hnone k' hspan'
    · exact absurd hneg (Int.not_lt.mpr hdoh)
  · refine Or.inr ⟨⟨_, hneg, rfl⟩, ?_⟩
    rintro k ⟨i, ⟨hi, hanchor⟩, hspan⟩
    have hdoh := hall i (Nat.zero_le i) hi fun hc => hanchor (anchored_of_byteAt hex (hptr ▸ hc))
    rcases doh_exact hex ht hi with ⟨k', hk', -, -⟩ | ⟨-, hnone⟩
    · omega
    · exact hnone k hspan

end Whole

/-- `a*a$` -/
def manyA : Pattern := ⟨false, [.piece charA (.star false), .piece charA .once, .dollar], []⟩

theorem slreMatch_leftmost_star :
    (∃ i k : Nat, slreMatch (fun _ => ⟨0, 0, 0, 0⟩) manyA.text [98, 97, 97]
          slreIgnoreCase = some k ∧
        manyA.MayStartAt [98, 97, 97] i ∧
        Spans [98, 97, 97] (manyA.re true) i k ∧
        ∀ i' < i, ∀ k', ¬ Spans [98, 97, 97] (manyA.re true) i' k') ∨
      (∃ n < 0, slreMatch (fun _ => ⟨0, 0, 0, 0⟩) manyA.text [98, 97, 97]
          slreIgnoreCase = some n) ∧
        ∀ k, ¬ manyA.MatchesTo true [98, 97, 97] k :=
  slreMatch_leftmost _ ⟨rfl, rfl⟩ [98, 97, 97] slreIgnoreCase

end AdFilter.Slre.Search
