import AdFilter.Slre.Bounds
import AdFilter.Slre.Branches
import AdFilter.Slre.Repetition

/-!
# The matcher against the meaning of a pattern

An offset that the matcher answers inside the subject is the end of a part of the subject
that the pattern matches.
-/

namespace AdFilter.Slre.Soundness

open AdFilter.Lib
open AdFilter.Lib.Regex (Spans Re)
open AdFilter.Slre.Match
open AdFilter.Slre.Steps
open AdFilter.Slre.Syntax
open AdFilter.Slre.Reading
open AdFilter.Slre.Repetition
open AdFilter.Slre.Branches
open Relation (ReflTransGen TransGen)

section Branch

variable {re s : List UInt8} {info : RegexInfo} {r p bi i j : Nat} {reLen sLen : Int} {a : Atom}

theorem chunkLen_atom (h : StandsAt re (r + i) a.text) (hlen : (i + a.text.length : Int) ≤ reLen) :
    chunkLen re info r reLen bi i = a.text.length := by
  rw [chunkLen, if_neg (ne_of_notMem (atom_head h) (by decide)), getOpLen_atom h (by omega)]

theorem chunkEnd_atom (info : RegexInfo) (bi : Nat) (h : StandsAt re (r + i) a.text)
    (hlen : (i + a.text.length : Int) ≤ reLen) :
    chunkEnd re info r reLen bi i = i + a.text.length := by
  rw [chunkEnd, chunkLen_atom h hlen, Int.toNat_natCast]

theorem atom_not_quantifier (h : StandsAt re r a.text) : isQuantifier re r = false := by
  have hsub : "*+?".toList.map byte ⊆ "^$()*+?|".toList.map byte := by decide
  exact not_quantifier fun hmem => atom_head h (hsub hmem)

theorem goodChunk_atom (info : RegexInfo) (bi : Nat) (h : StandsAt re (r + i) a.text)
    (hlen : (i + a.text.length : Int) ≤ reLen) :
    GoodChunk re info r reLen bi i := by
  have hpos := text_pos a
  exact ⟨by omega, atom_not_quantifier h, by rw [chunkLen_atom h hlen]; omega⟩

/-- An atom without a quantifier. Only a set is tried at the end of the subject. -/
theorem bar_atom (h : StandsAt re (r + i) a.text) (hlen : (i + a.text.length : Int) ≤ reLen)
    (hq : ¬ IsQuantified re info r reLen bi i) (hj : (j : Int) ≤ sLen) :
    bar re s info r reLen p sLen bi i j =
      if a.holds info.ignoreCase (byteAt s (p + j)) = true ∧ ((j : Int) < sLen ∨ a.isSet = true) then
        bar re s info r reLen p sLen bi (i + a.text.length) (j + 1)
      else noMatch := by
  have hgroup : byteAt re (r + i) ≠ byte '(' := ne_of_notMem (atom_head h) (by decide)
  have hcaret : byteAt re (r + i) ≠ byte '^' := ne_of_notMem (atom_head h) (by decide)
  have hdollar : byteAt re (r + i) ≠ byte '$' := ne_of_notMem (atom_head h) (by decide)
  rw [bar_once (goodChunk_atom info bi h hlen) hj hq, chunkEnd_atom info bi h hlen]
  dsimp only
  cases a with
  | set c =>
    have hopen : byteAt re (r + i) = byte '[' := h.byteAt
    have hbody : ((Atom.set c).text.length : Int) = c.body.length + 1 := rfl
    rw [if_pos hopen, matchSet_body h.tail (by omega)]
    cases hc : c.holds info.ignoreCase (byteAt s (p + j)) <;> simp [Atom.holds, Atom.isSet, hc]
  | op o =>
    have hopen : byteAt re (r + i) ≠ byte '[' := by
      cases o with
      | literal b ok => exact h.byteAt.symm ▸ isLiteral_ne ok (by decide)
      | any => exact h.byteAt.symm ▸ by decide
      | escape e => exact h.byteAt.symm ▸ by decide
    rw [if_neg hopen, if_neg hgroup, if_neg hcaret, if_neg hdollar, matchOp_op h]
    by_cases hs : sLen ≤ j
    · rw [if_pos hs, if_neg fun hc => hc.2.elim (Int.not_lt.mpr hs) Bool.false_ne_true]
    · rw [if_neg hs]
      have hlt : (j : Int) < sLen := by omega
      cases ho : o.holds info.ignoreCase (byteAt s (p + j)) <;>
        simp [Atom.holds, ho, hlt, noMatch]

/-! ## Sequences of pieces -/

theorem item_pos (it : Item) : 0 < it.text.length := by
  cases it with
  | piece a q =>
    rw [Item.text, List.length_append]
    exact Nat.add_pos_left (text_pos a) _
  | dollar => exact Nat.one_pos

theorem itemsText_cons (it : Item) (its : List Item) :
    itemsText (it :: its) = it.text ++ itemsText its := List.flatMap_cons

theorem items_of_length_zero {its : List Item} (h : (itemsText its).length = 0) : its = [] := by
  cases its with
  | nil => rfl
  | cons it its =>
    rw [itemsText_cons, List.length_append] at h
    exact absurd (Nat.eq_zero_of_add_eq_zero_right h) (Nat.ne_of_gt (item_pos it))

theorem items_not_quantifier {its : List Item} (h : StandsAt re r (itemsText its))
    (hpos : 0 < (itemsText its).length) : isQuantifier re r = false := by
  cases its with
  | nil => exact absurd hpos (Nat.lt_irrefl 0)
  | cons it its =>
    rw [itemsText_cons] at h
    cases it with
    | piece a q =>
      rw [Item.text, List.append_assoc] at h
      exact atom_not_quantifier (standsAt_append.mp h).1
    | dollar =>
      have hb : byteAt re r = byte '$' := h.byteAt
      exact not_quantifier (hb ▸ by decide)

/-- The quantifier `*` or `+` and what follows it. -/
theorem quantifier_text {q : Nat} {b : UInt8} {isLazy : Bool} {its : List Item}
    (h : StandsAt re (r + q) (b :: lazyText isLazy ++ itemsText its))
    (hlen : reLen = (q + (1 + (lazyText isLazy).length + (itemsText its).length) : Nat)) :
    isNonGreedy re r reLen q = isLazy ∧
      restAt re r reLen q = q + (1 + (lazyText isLazy).length) := by
  have hlazy : isNonGreedy re r reLen q = isLazy := by
    have htail : StandsAt re (r + q + 1) (lazyText isLazy ++ itemsText its) := h.tail
    rw [isNonGreedy]
    cases isLazy with
    | true =>
      have hmark : byteAt re (r + q + 1) = byte '?' := htail.byteAt
      have hone : (lazyText true).length = 1 := rfl
      rw [hmark, decide_eq_true (by omega)]
      rfl
    | false =>
      by_cases hpos : 0 < (itemsText its).length
      · have hnot : isQuantifier re (r + q + 1) = false := items_not_quantifier htail hpos
        simp only [isQuantifier, Bool.or_eq_false_iff] at hnot
        rw [hnot.2, Bool.and_false]
      · have hzero : (lazyText false).length = 0 := rfl
        rw [decide_eq_false (by omega), Bool.false_and]
  refine ⟨hlazy, ?_⟩
  rw [restAt, hlazy]
  cases isLazy <;> rfl

theorem repeatsThen_star {x t : Re UInt8} {m k : Nat}
    (h : RepeatsThen false (Spans s x) (Spans s t) m k) : Spans s (.seq (.star x) t) m k := h

theorem repeatsThen_plus {x t : Re UInt8} {m k : Nat}
    (h : RepeatsThen true (Spans s x) (Spans s t) m k) : Spans s (.seq (Regex.plus x) t) m k := by
  obtain ⟨l, hreps, hrest⟩ := h
  exact ⟨l, TransGen.head'_iff.mp hreps, hrest⟩

/-- One atom on its own. -/
theorem atom_alone (h : StandsAt re r a.text) (hs : 0 ≤ sLen) :
    bar re s info r a.text.length p sLen bi 0 0 =
      if a.holds info.ignoreCase (byteAt s p) = true ∧ (0 < sLen ∨ a.isSet = true) then 1
      else noMatch := by
  have hlen : ((0 : Nat) + a.text.length : Int) ≤ (a.text.length : Int) := by omega
  have hquant : ¬ IsQuantified re info r a.text.length bi 0 := by
    intro hq
    have hin := hq.1
    rw [chunkEnd_atom (i := 0) info bi h hlen] at hin
    omega
  have hstop : bar re s info r a.text.length p sLen bi (0 + a.text.length) (0 + 1) = (0 + 1 : Nat) :=
    bar_stop (Or.inl (by omega))
  rw [bar_atom (i := 0) h hlen hquant hs, hstop]
  rfl

/-- The character that an atom takes. -/
theorem spans_test_of_holds {m : Nat} (hm : m < s.length)
    (h : a.holds info.ignoreCase (byteAt s m) = true) :
    Spans s (.test (a.holds info.ignoreCase)) m (m + 1) := by
  rw [Plain.byteAt_of_lt hm] at h
  exact ⟨rfl, s[m], List.getElem?_eq_getElem hm, h⟩

theorem atom_sound (h : StandsAt re r a.text) :
    SoundFor re s info s.length r a.text.length bi
      (Spans s (.test (a.holds info.ignoreCase))) := by
  intro p sLen hend h0 hle
  have hs : 0 ≤ sLen := Int.le_trans h0 hle
  rw [atom_alone h hs] at h0 hle ⊢
  by_cases hc : a.holds info.ignoreCase (byteAt s p) = true ∧ (0 < sLen ∨ a.isSet = true)
  · rw [if_pos hc] at hle ⊢
    exact spans_test_of_holds (by omega) hc.1
  · rw [if_neg hc] at h0
    exact absurd h0 (by decide)

/-- Nothing but a quantifier of its own makes a piece quantified. -/
theorem not_quantified_of_end {q : Nat} {its : List Item} (hq : chunkEnd re info r reLen bi i = q)
    (h : StandsAt re (r + q) (itemsText its)) (hlen : reLen = (q + (itemsText its).length : Nat)) :
    ¬ IsQuantified re info r reLen bi i := by
  rintro ⟨hin, hquant⟩
  rw [hq] at hin hquant
  rw [items_not_quantifier h (by omega)] at hquant
  exact Bool.false_ne_true hquant

theorem bar_dollar {its : List Item} (h : StandsAt re (r + i) (byte '$' :: itemsText its))
    (hlen : reLen = (i + 1 + (itemsText its).length : Nat)) (hj : (j : Int) ≤ sLen) :
    bar re s info r reLen p sLen bi i j =
      if (j : Int) ≠ sLen then noMatch else bar re s info r reLen p sLen bi (i + 1) j := by
  have hb : byteAt re (r + i) = byte '$' := h.byteAt
  have hstep : chunkLen re info r reLen bi i = 1 := by
    rw [chunkLen, getOpLen, opLen, hb]
    rfl
  have hend : chunkEnd re info r reLen bi i = i + 1 := by
    rw [chunkEnd, hstep]
    rfl
  have hgood : GoodChunk re info r reLen bi i :=
    ⟨by omega, not_quantifier (hb ▸ by decide), hstep ▸ Int.one_pos⟩
  rw [bar_once hgood hj (not_quantified_of_end hend h.tail hlen), hend, hb]
  rfl

/-- An atom under `*` or `+`. -/
theorem bar_repeated {b : UInt8} {isLazy : Bool} {its : List Item}
    (hb : b = byte '*' ∨ b = byte '+') (ha : StandsAt re (r + i) a.text)
    (hq : StandsAt re (r + (i + a.text.length)) (b :: lazyText isLazy ++ itemsText its))
    (hlen : reLen =
      (i + a.text.length + (1 + (lazyText isLazy).length + (itemsText its).length) : Nat))
    (hj : (j : Int) ≤ sLen) :
    bar re s info r reLen p sLen bi i j =
      starChunk re s info (r + i) a.text.length
        (r + (i + a.text.length + (1 + (lazyText isLazy).length))) (itemsText its).length
        (b == byte '+') isLazy p sLen bi j := by
  have hin : (i + a.text.length : Int) ≤ reLen := by omega
  have hchunkEnd := chunkEnd_atom info bi ha hin
  have hmark : byteAt re (r + chunkEnd re info r reLen bi i) = b := by
    rw [hchunkEnd]
    exact hq.byteAt
  have hquant : IsQuantified re info r reLen bi i := by
    refine ⟨by omega, ?_⟩
    rw [isQuantifier, hmark]
    rcases hb with rfl | rfl <;> decide
  have hopt : b ≠ byte '?' := by rcases hb with rfl | rfl <;> decide
  obtain ⟨hlazy, hrestAt⟩ := quantifier_text hq hlen
  have hreLen : reLen - (i + a.text.length + (1 + (lazyText isLazy).length) : Nat) =
      (itemsText its).length := by omega
  rw [bar_star (goodChunk_atom info bi ha hin) hj hquant (hmark ▸ hopt), hmark, hchunkEnd, hlazy,
    hrestAt, chunkLen_atom ha hin, hreLen]

/-- The text after a quantifier stands where the loop looks for it. -/
theorem standsAt_rest {q : Nat} {b : UInt8} {isLazy : Bool} {its : List Item}
    (h : StandsAt re (r + q) (b :: lazyText isLazy ++ itemsText its)) :
    StandsAt re (r + (q + (1 + (lazyText isLazy).length)) + 0) (itemsText its) := by
  have hrest := (standsAt_append.mp h).2
  rw [List.length_cons] at hrest
  rwa [Nat.add_zero, ← Nat.add_assoc, Nat.add_comm 1]

/-- A sequence of pieces, from any offset of the text on. -/
theorem items_sound {its : List Item} :
    ∀ {r : Nat} {reLen : Int} {p : Nat} {sLen : Int} {i j : Nat} {n : Int},
      StandsAt re (r + i) (itemsText its) → reLen = (i + (itemsText its).length : Nat) →
      p + sLen = s.length → bar re s info r reLen p sLen bi i j = n → 0 ≤ n → n ≤ sLen →
      Spans s (itemsRe info.ignoreCase its) (p + j) (p + n.toNat) := by
  induction its with
  | nil =>
    intro r reLen p sLen i j n _ hlen _ hn _ _
    have hzero : (itemsText []).length = 0 := rfl
    rw [bar_stop (Or.inl (by omega))] at hn
    rw [← hn]
    rfl
  | cons it its ih =>
    intro r reLen p sLen i j n h hlen hend hn h0 hle
    by_cases hj : (j : Int) ≤ sLen
    case neg =>
      rw [bar_stop (Or.inr (Int.not_le.mp hj))] at hn
      omega
    have hpos := item_pos it
    rw [itemsText_cons, List.length_append] at hlen
    rw [itemsText_cons] at h
    cases it with
    | dollar =>
      have hone : Item.dollar.text.length = 1 := rfl
      rw [bar_dollar h (by omega) hj] at hn
      by_cases hjs : (j : Int) ≠ sLen
      · rw [if_pos hjs] at hn
        exact absurd (hn ▸ h0) (by decide)
      · rw [if_neg hjs] at hn
        have hrest := ih (r := r) (i := i + 1) h.tail (by omega) hend hn h0 hle
        exact ⟨p + j, ⟨rfl, by omega⟩, hrest⟩
    | piece a q =>
      have hla := text_pos a
      rw [Item.text, List.append_assoc] at h
      rw [Item.text, List.length_append] at hlen
      obtain ⟨ha, hq⟩ := standsAt_append.mp h
      have hin : (i + a.text.length : Int) ≤ reLen := by omega
      have hchunkEnd := chunkEnd_atom info bi ha hin
      have hgood := goodChunk_atom info bi ha hin
      have hchunk : SoundFor re s info s.length (r + i) a.text.length bi
          (Spans s (.test (a.holds info.ignoreCase))) := atom_sound ha
      have hrepeated : ∀ {b : UInt8} {isLazy : Bool}, b = byte '*' ∨ b = byte '+' →
          q.text = b :: lazyText isLazy →
          RepeatsThen (b == byte '+') (Spans s (.test (a.holds info.ignoreCase)))
            (Spans s (itemsRe info.ignoreCase its)) (p + j) (p + n.toNat) := by
        intro b isLazy hb htext
        rw [htext, Nat.add_assoc] at hq
        rw [htext, List.length_cons] at hlen
        rw [bar_repeated hb ha hq (by omega) hj] at hn
        apply starChunk_sound hend hj hchunk _ _ hn h0 hle
        · intro p' sLen' hend' h0' hle'
          exact ih (standsAt_rest hq) (by omega) hend' rfl h0' hle'
        · intro hzero m
          obtain rfl := items_of_length_zero (show (itemsText its).length = 0 by omega)
          rfl
      cases q with
      | once =>
        have hzero : Quantifier.once.text.length = 0 := rfl
        have hrestText : StandsAt re (r + (i + a.text.length)) (itemsText its) :=
          Nat.add_assoc r i _ ▸ hq
        have hquant := not_quantified_of_end hchunkEnd hrestText (by omega)
        rw [bar_atom ha hin hquant hj] at hn
        by_cases hc : a.holds info.ignoreCase (byteAt s (p + j)) = true ∧
            ((j : Int) < sLen ∨ a.isSet = true)
        · rw [if_pos hc] at hn
          -- a set that took the byte at the end leaves nothing but an answer past it
          have hjs : (j : Int) < sLen := by
            by_contra hlt
            rw [bar_stop (Or.inr (by omega))] at hn
            omega
          have hrest := ih (r := r) (i := i + a.text.length) hrestText (by omega) hend hn h0 hle
          exact ⟨p + j + 1, spans_test_of_holds (by omega) hc.1, hrest⟩
        · rw [if_neg hc] at hn
          exact absurd (hn ▸ h0) (by decide)
      | opt =>
        have hone : Quantifier.opt.text.length = 1 := rfl
        have hmark : byteAt re (r + chunkEnd re info r reLen bi i) = byte '?' := by
          rw [hchunkEnd, ← Nat.add_assoc]
          exact hq.byteAt
        rw [bar_opt hgood hj (by omega) hmark, hchunkEnd, chunkLen_atom ha hin] at hn
        have hatom := hchunk (p + j) (sLen - j) (by omega)
        generalize bar re s info (r + i) a.text.length (p + j) (sLen - j) bi 0 0 = n1 at hatom hn
        have hrest := ih (r := r) (i := i + a.text.length + 1) (by
          rw [← Nat.add_assoc, ← Nat.add_assoc]
          exact hq.tail) (by omega) hend hn h0 hle
        rw [← Nat.add_assoc] at hrest
        refine ⟨p + j + n1.toNat, ?_, hrest⟩
        by_cases hn1 : 0 ≤ n1
        · have hjn : ((j + n1.toNat : Nat) : Int) ≤ sLen := by
            by_contra hlt
            rw [bar_stop (Or.inr (Int.not_le.mp hlt))] at hn
            omega
          exact Or.inl (hatom hn1 (by omega))
        · rw [Int.toNat_of_nonpos (Int.le_of_lt (Int.not_le.mp hn1))]
          exact Or.inr rfl
      | star isLazy => exact repeatsThen_star (hrepeated (Or.inl rfl) rfl)
      | plus isLazy => exact repeatsThen_plus (hrepeated (Or.inr rfl) rfl)

end Branch

/-! ## The whole pattern -/

section Whole

variable {re s : List UInt8} {info : RegexInfo} {r p bi : Nat} {reLen sLen : Int}

theorem bar_caret {its : List Item} (h : StandsAt re r (byte '^' :: itemsText its))
    (hlen : reLen = (1 + (itemsText its).length : Nat)) (hs : 0 ≤ sLen) :
    bar re s info r reLen p sLen bi 0 0 = bar re s info r reLen p sLen bi 1 0 := by
  have hb : byteAt re (r + 0) = byte '^' := h.byteAt
  have hstep : chunkLen re info r reLen bi 0 = 1 := by
    rw [chunkLen, getOpLen, opLen, hb]
    rfl
  have hend : chunkEnd re info r reLen bi 0 = 1 := by
    rw [chunkEnd, hstep]
    rfl
  have hgood : GoodChunk re info r reLen bi 0 :=
    ⟨by omega, not_quantifier (hb ▸ by decide), hstep ▸ Int.one_pos⟩
  rw [bar_once hgood hs (not_quantified_of_end hend h.tail hlen), hend, hb]
  rfl

/-- The table that the matcher has for a pattern. -/
structure TableOf (pat : Pattern) (info : RegexInfo) : Prop where
  branches : info.branches = bars pat.branchTexts.1.length pat.branchTexts.2
  bracket : info.brackets 0 = ⟨0, pat.text.length, 0, pat.branchTexts.2.length⟩

theorem scansClean_first (pat : Pattern) : ScansClean pat.branchTexts.1 := by
  have hitems := scansClean_items pat.first
  unfold Pattern.branchTexts
  cases pat.anchored with
  | true => exact scansClean_append (scansClean_byte (b := byte '^') (by decide)) hitems
  | false => exact hitems

/-- The matcher gives up on too many bars, or it searches with the table of the pattern. -/
theorem slreMatch_cases (stack : Nat → BracketPair) (pat : Pattern) (s : List UInt8) (flags : Nat) :
    (pat.others ≠ [] ∧ ∃ err < 0, slreMatch stack pat.text s flags = some err) ∨
      ∃ info : RegexInfo, info.flags = flags ∧ TableOf pat info ∧
        slreMatch stack pat.text s flags = some (baz pat.text s info s.length) := by
  rw [slreMatch, foo]
  dsimp only
  have hall : StandsAt pat.text 0 (pat.branchTexts.1 ++ barred pat.branchTexts.2) :=
    List.prefix_rfl
  obtain ⟨hfirst, hrest⟩ := standsAt_append.mp hall
  have hlen : pat.text.length = pat.branchTexts.1.length + (barred pat.branchTexts.2).length :=
    List.length_append
  have hothers : ∀ t ∈ pat.branchTexts.2, ScansClean t := by
    intro t ht
    obtain ⟨its, -, rfl⟩ := List.mem_map.mp ht
    exact scansClean_items its
  rw [scansClean_first pat _ _ _ hfirst (Nat.zero_le _), Nat.zero_add]
  rw [Nat.zero_add] at hrest
  generalize hinfo : RegexInfo.mk _ 1 _ _ = info₀
  have hone : info₀.numBrackets = 1 := hinfo ▸ rfl
  have hflags : info₀.flags = flags := hinfo ▸ rfl
  have hnone : info₀.branches = [] := hinfo ▸ rfl
  have hbracket : ((info₀.brackets 0).ptr = 0 ∧ (info₀.brackets 0).len = pat.text.length) := by
    rw [← hinfo]
    simp [RegexInfo.setBracket]
  rcases scan_barred hothers info₀ _ hone (by omega) hrest hlen.symm with hscan | ⟨hbars, err, hscan⟩
  · rw [hscan, hnone, List.nil_append]
    have hzero : ∀ b ∈ bars pat.branchTexts.1.length pat.branchTexts.2, b.bracketIndex = 0 :=
      fun b hb => bars_bracket hb
    obtain ⟨hbranches, hsetup⟩ := setupBranchPoints_eq
      { info₀ with branches := bars pat.branchTexts.1.length pat.branchTexts.2 } hone hzero
    dsimp only at hbranches hsetup ⊢
    rw [if_neg (fun hc => hc rfl)]
    refine Or.inr ⟨_, ?_, ⟨hbranches, ?_⟩, rfl⟩
    · rw [setupBranchPoints, setBranchPoints_flags]
      exact hflags
    · rw [hsetup, hbracket.1, hbracket.2, length_bars]
  · rw [hscan]
    exact Or.inl ⟨fun hnil => hbars (by rw [Pattern.branchTexts, hnil]; rfl), err,
      (Bounds.scan_error hscan).2, rfl⟩

/-- The text of a pattern starts with a caret exactly if it is anchored. -/
theorem byteAt_text_zero {pat : Pattern} (h : pat.anchored = true) :
    byteAt pat.text 0 = byte '^' := by
  rw [Pattern.text, Pattern.branchTexts, h]
  rfl

theorem pat_text (pat : Pattern) : pat.text = pat.branchTexts.1 ++ barred pat.branchTexts.2 := rfl

/-- What the matcher does with a branch is what it does with the pieces of the branch. -/
theorem branch_items {pat : Pattern} (ht : TableOf pat info) {k : Nat}
    (hk : k ≤ (info.brackets 0).numBranches) :
    ∃ its, (pat.first :: pat.others)[k]? = some its ∧ ∃ (r i : Nat) (reLen : Int),
      StandsAt pat.text (r + i) (itemsText its) ∧ reLen = (i + (itemsText its).length : Nat) ∧
        ∀ (s : List UInt8) (p : Nat) (sLen : Int), 0 ≤ sLen →
          branchAnswer pat.text s info p sLen 0 k =
            bar pat.text s info r reLen p sLen 0 i 0 := by
  rw [ht.bracket] at hk
  cases k with
  | zero =>
    obtain ⟨htext, hlen⟩ := branchText_get (pat_text pat) ht.branches ht.bracket
      (show (pat.branchTexts.1 :: pat.branchTexts.2)[0]? = some pat.branchTexts.1 from rfl)
    refine ⟨pat.first, rfl, (branchText info (info.brackets 0) 0).1, ?_⟩
    unfold branchAnswer
    rw [hlen]
    cases hanchored : pat.anchored with
    | true =>
      have hfirst : pat.branchTexts.1 = byte '^' :: itemsText pat.first := by
        rw [Pattern.branchTexts, hanchored]
        rfl
      have hcount : ((byte '^' :: itemsText pat.first).length : Int) =
          (1 + (itemsText pat.first).length : Nat) := by rw [List.length_cons, Nat.add_comm]
      rw [hfirst] at htext ⊢
      exact ⟨1, _, htext.tail, hcount, fun s p sLen hs => bar_caret htext hcount hs⟩
    | false =>
      have hfirst : pat.branchTexts.1 = itemsText pat.first := by
        rw [Pattern.branchTexts, hanchored]
        rfl
      rw [hfirst] at htext ⊢
      exact ⟨0, _, htext, by rw [Nat.zero_add], fun _ _ _ _ => rfl⟩
  | succ k =>
    have hk' : k < pat.others.length := by
      have hcount : pat.branchTexts.2.length = pat.others.length := List.length_map _
      dsimp only at hk
      omega
    have hget : (pat.branchTexts.1 :: pat.branchTexts.2)[k + 1]? =
        some (itemsText pat.others[k]) := by
      rw [List.getElem?_cons_succ, Pattern.branchTexts, List.getElem?_map,
        List.getElem?_eq_getElem hk']
      rfl
    obtain ⟨htext, hlen⟩ := branchText_get (pat_text pat) ht.branches ht.bracket hget
    refine ⟨pat.others[k], List.getElem?_eq_getElem hk',
      (branchText info (info.brackets 0) (k + 1)).1, 0, _, htext, by rw [Nat.zero_add], ?_⟩
    intro s p sLen _
    rw [branchAnswer, hlen]

/-- One branch, at an offset of the subject. -/
theorem branch_sound {pat : Pattern} (ht : TableOf pat info) {k : Nat}
    (hk : k ≤ (info.brackets 0).numBranches) (hend : p + sLen = s.length)
    (h0 : 0 ≤ branchAnswer pat.text s info p sLen 0 k)
    (hle : branchAnswer pat.text s info p sLen 0 k ≤ sLen) :
    Spans s (pat.re info.ignoreCase) p
      (p + (branchAnswer pat.text s info p sLen 0 k).toNat) := by
  obtain ⟨its, hits, r, i, reLen, htext, hlen, hbar⟩ := branch_items ht hk
  have hs : 0 ≤ sLen := Int.le_trans h0 hle
  rw [hbar s p sLen hs] at h0 hle ⊢
  rw [Pattern.re, Regex.spans_union]
  refine ⟨itemsRe info.ignoreCase its, List.mem_map_of_mem (List.mem_of_getElem? hits), ?_⟩
  exact items_sound htext hlen hend rfl h0 hle

/-- An offset inside the subject that `slre_match` returns ends a match of the pattern. -/
theorem slreMatch_sound {stack : Nat → BracketPair} {pat : Pattern} {flags : Nat} {n : Int}
    (h : slreMatch stack pat.text s flags = some n) (h0 : 0 ≤ n) (hle : n ≤ s.length) :
    pat.MatchesTo (flags &&& slreIgnoreCase != 0) s n.toNat := by
  rcases slreMatch_cases stack pat s flags with ⟨-, err, hneg, herr⟩ | ⟨info, rfl, ht, hbaz⟩
  · obtain rfl : err = n := Option.some.inj (herr.symm.trans h)
    omega
  obtain rfl : baz pat.text s info s.length = n := Option.some.inj (hbaz.symm.trans h)
  rcases bazFrom_cases pat.text s info (s.length + 1) 0 (Nat.zero_add _)
    (Nat.succ_pos _) with ⟨p, -, hp, hanchor, -, hdoh, heq⟩ | ⟨hneg, -⟩
  · obtain ⟨k, hk, hbranch⟩ := doh_branch pat.text s info p ((s.length : Int) - p) _ 0 rfl
      (Nat.zero_le _)
    have hvalue : baz pat.text s info s.length =
        branchAnswer pat.text s info p ((s.length : Int) - p) 0 k + p := by
      rw [← hbranch]
      exact heq
    rw [hbranch] at hdoh
    have hspan := branch_sound ht hk (by omega) hdoh (by omega)
    refine ⟨p, ⟨hp, fun ha => hanchor ?_⟩, ?_⟩
    · rw [ht.bracket]
      exact byteAt_text_zero ha
    · have hn : (baz pat.text s info s.length).toNat =
          p + (branchAnswer pat.text s info p ((s.length : Int) - p) 0 k).toNat := by omega
      rw [hn]
      exact hspan
  · exact absurd hneg (Int.not_lt.mpr h0)

end Whole

def charA : Atom := .op (.literal 97 (by decide))

/-- `a` -/
def letterA : Pattern := ⟨false, [.piece charA .once], []⟩

theorem slreMatch_sound_letter : letterA.MatchesTo true [98, 97] 2 := by
  have hplain : letterA.text.all Plain.isPlain = true := by decide
  have h := Plain.slreMatch_plain (fun _ => ⟨0, 0, 0, 0⟩) hplain [98, 97]
  exact slreMatch_sound h (by decide) (by decide)

end AdFilter.Slre.Soundness
