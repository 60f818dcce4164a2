import AdFilter.Slre.Plain
import AdFilter.Slre.Syntax
import Mathlib.Tactic.IntervalCases

/-!
# The matcher at the text of a piece

What the functions of the matcher find where the text of an escape, a set or another
piece stands in the pattern.
-/

namespace AdFilter.Slre.Reading

open AdFilter.Slre.Match
open AdFilter.Slre.Plain (byteAt_of_lt byteAt_of_ge)
open AdFilter.Slre.Steps
open AdFilter.Slre.Syntax

/-- The text stands at offset `r` of the pattern. -/
def StandsAt (re : List UInt8) (r : Nat) (t : List UInt8) : Prop := t <+: re.drop r

section Text

variable {re t u : List UInt8} {b : UInt8} {r : Nat}

theorem standsAt_nil : StandsAt re r [] := List.nil_prefix

theorem standsAt_cons : StandsAt re r (b :: t) ↔
    r < re.length ∧ byteAt re r = b ∧ StandsAt re (r + 1) t := by
  by_cases hr : r < re.length
  · rw [StandsAt, StandsAt, List.drop_eq_getElem_cons hr, List.cons_prefix_cons, byteAt_of_lt hr]
    exact ⟨fun h => ⟨hr, h.1.symm, h.2⟩, fun h => ⟨h.2.1.symm, h.2.2⟩⟩
  · rw [StandsAt, List.drop_eq_nil_of_le (Nat.le_of_not_lt hr), List.prefix_nil]
    exact iff_of_false (List.cons_ne_nil b t) fun h => hr h.1

theorem standsAt_append : StandsAt re r (t ++ u) ↔
    StandsAt re r t ∧ StandsAt re (r + t.length) u := by
  induction t generalizing r with
  | nil => exact ⟨fun h => ⟨standsAt_nil, h⟩, fun h => h.2⟩
  | cons b t ih =>
    rw [List.cons_append, standsAt_cons, standsAt_cons, ih, List.length_cons,
      Nat.add_comm t.length 1, ← Nat.add_assoc, and_assoc, and_assoc]

theorem StandsAt.byteAt (h : StandsAt re r (b :: t)) : Match.byteAt re r = b :=
  (standsAt_cons.mp h).2.1

theorem StandsAt.tail (h : StandsAt re r (b :: t)) : StandsAt re (r + 1) t :=
  (standsAt_cons.mp h).2.2

theorem StandsAt.length_le (h : StandsAt re r t) (hr : r ≤ re.length) :
    r + t.length ≤ re.length := by
  have hle := List.IsPrefix.length_le h
  rw [List.length_drop] at hle
  omega

end Text

/-! ## Escapes -/

section Escapes

variable {re s : List UInt8} {r p : Nat}

theorem ne_of_notMem {b c : UInt8} {l : List UInt8} (hb : b ∉ l) (hc : c ∈ l) : b ≠ c :=
  fun heq => hb (heq ▸ hc)

theorem isQuotable_ne {b c : UInt8} (hb : isQuotable b = true) (hc : isQuotable c = false) :
    b ≠ c := by
  intro heq
  rw [heq, hc] at hb
  exact Bool.false_ne_true hb

theorem toi_hexDigit (d : HexDigit) : ∃ v : Fin 16, toi (toLower d.value) = v.val := by
  obtain ⟨b, hb⟩ := d
  have hall : ("0123456789ABCDEFabcdef".toList.map byte).all (fun b =>
      decide (0 ≤ toi (toLower b) ∧ toi (toLower b) < 16)) = true := by decide
  have hdigits : b ∈ "0123456789ABCDEFabcdef".toList.map byte →
      ∃ v : Fin 16, toi (toLower b) = v.val := by
    intro hmem
    obtain ⟨h0, h16⟩ := of_decide_eq_true (List.all_eq_true.mp hall b hmem)
    exact ⟨⟨(toi (toLower b)).toNat, by omega⟩, (Int.toNat_of_nonneg h0).symm⟩
  apply hdigits
  have h : (48 ≤ b.toNat ∧ b.toNat ≤ 57) ∨ (65 ≤ b.toNat ∧ b.toNat ≤ 70) ∨
      (97 ≤ b.toNat ∧ b.toNat ≤ 102) := by
    simpa [isXDigit, isDigit, UInt8.le_iff_toNat_le, or_assoc] using hb
  have hb' : UInt8.ofNat b.toNat = b := UInt8.ofNat_toNat
  rw [← hb']
  generalize b.toNat = n at h
  obtain h | h | h := h
  all_goals
    obtain ⟨hlo, hhi⟩ := h
    interval_cases n <;> decide

theorem hextoi_digits (a b : HexDigit) :
    hextoi a.value b.value = (16 * hexValue a.value + hexValue b.value : Nat) := by
  obtain ⟨v, hv⟩ := toi_hexDigit a
  obtain ⟨w, hw⟩ := toi_hexDigit b
  have h : ∀ v w : Fin 16,
      (BitVec.ofInt 32 (v.val : Int) <<< 4 ||| BitVec.ofInt 32 (w.val : Int)).toInt =
        (16 * v.val + w.val : Nat) := by decide
  rw [hextoi, hexValue, hexValue, hv, hw, h]
  rfl

theorem matchEscape_text {e : Escape} (h : StandsAt re r e.text) :
    matchEscape re s r p = if e.holds (byteAt s p) then 1 else noMatch := by
  have htail := h.tail
  rw [matchEscape]
  cases e with
  | hex a b =>
    have h1 : byteAt re (r + 1) = byte 'x' := htail.byteAt
    have h2 : byteAt re (r + 2) = a.value := htail.tail.byteAt
    have h3 : byteAt re (r + 3) = b.value := htail.tail.tail.byteAt
    have hbeq : (hextoi a.value b.value == ((byteAt s p).toNat : Int)) =
        (Escape.hex a b).holds (byteAt s p) := by
      rw [hextoi_digits, Escape.holds, Bool.eq_iff_iff, beq_iff_eq, beq_iff_eq, Int.ofNat_inj]
    rw [h1, h2, h3, ← hbeq]
    rfl
  | quoted b ok =>
    have h1 : byteAt re (r + 1) = b := htail.byteAt
    have hne : ∀ c ∈ "Ssdbfnrtvx".toList.map byte, b ≠ c := by
      have hnot : ("Ssdbfnrtvx".toList.map byte).all (fun c => !isQuotable c) = true := by decide
      exact fun c hc => isQuotable_ne ok (Bool.eq_false_of_not_eq_true'
        (List.all_eq_true.mp hnot c hc))
    rw [h1]
    simp only [if_neg (hne _ (show byte 'S' ∈ _ by decide)),
      if_neg (hne _ (show byte 's' ∈ _ by decide)), if_neg (hne _ (show byte 'd' ∈ _ by decide)),
      if_neg (hne _ (show byte 'b' ∈ _ by decide)), if_neg (hne _ (show byte 'f' ∈ _ by decide)),
      if_neg (hne _ (show byte 'n' ∈ _ by decide)), if_neg (hne _ (show byte 'r' ∈ _ by decide)),
      if_neg (hne _ (show byte 't' ∈ _ by decide)), if_neg (hne _ (show byte 'v' ∈ _ by decide)),
      if_neg (hne _ (show byte 'x' ∈ _ by decide))]
    rfl
  | _ =>
    have h1 := StandsAt.byteAt htail
    rw [h1]
    rfl

theorem opLen_escape {e : Escape} (h : StandsAt re r e.text) : opLen re r = e.text.length := by
  have h0 : byteAt re r = byte '\\' := h.byteAt
  have htail := h.tail
  rw [opLen, h0]
  cases e with
  | quoted b ok =>
    have h1 : byteAt re (r + 1) = b := htail.byteAt
    have hx : b ≠ byte 'x' := isQuotable_ne ok (by decide)
    rw [h1, if_neg fun hc => hx hc.2]
    rfl
  | _ =>
    have h1 := StandsAt.byteAt htail
    rw [h1]
    rfl

theorem escape_not_range {e : Escape} (h : StandsAt re r e.text) : byteAt re (r + 1) ≠ byte '-' := by
  have htail := h.tail
  cases e with
  | quoted b ok =>
    have h1 : byteAt re (r + 1) = b := htail.byteAt
    rw [h1]
    exact isQuotable_ne ok (by decide)
  | _ =>
    have h1 := StandsAt.byteAt htail
    rw [h1]
    decide

end Escapes

/-! ## Characters and sets -/

section Sets

variable {re s : List UInt8} {info : RegexInfo} {r p : Nat} {reLen : Int}

theorem isLiteral_notMem {b : UInt8} (hb : isLiteral b = true) :
    b ∉ "^$().[*+?|\\".toList.map byte := by
  rw [isLiteral, Bool.and_eq_true, Bool.not_eq_true', List.contains_eq_mem] at hb
  exact of_decide_eq_false hb.2

theorem isLiteral_ne {b c : UInt8} (hb : isLiteral b = true)
    (hc : c ∈ "^$().[*+?|\\".toList.map byte) : b ≠ c :=
  ne_of_notMem (isLiteral_notMem hb) hc

theorem sameChar_eq (ignoreCase : Bool) (b c : UInt8) :
    (if ignoreCase = true then if toLower b = toLower c then (1 : Int) else noMatch
      else if b = c then 1 else noMatch) = if sameChar ignoreCase b c then 1 else noMatch := by
  cases ignoreCase <;> simp [sameChar]

theorem matchOp_op {o : Op} (h : StandsAt re r o.text) :
    matchOp re s info r p = if o.holds info.ignoreCase (byteAt s p) then 1 else noMatch := by
  rw [matchOp]
  cases o with
  | literal b ok =>
    have h0 : byteAt re r = b := h.byteAt
    rw [h0, if_neg (isLiteral_ne ok (by decide)), if_neg (isLiteral_ne ok (by decide)),
      if_neg (isLiteral_ne ok (by decide)), if_neg (isLiteral_ne ok (by decide)), sameChar_eq]
    rfl
  | any =>
    have h0 : byteAt re r = byte '.' := h.byteAt
    rw [h0]
    rfl
  | escape e =>
    have h0 : byteAt re r = byte '\\' := h.byteAt
    rw [if_pos h0]
    exact matchEscape_text h

theorem matchOp_char {b : UInt8} (h : byteAt re r = b) (hb : b ≠ byte '\\') :
    0 < matchOp re s info r p ↔ (Member.char b).holds info.ignoreCase (byteAt s p) = true := by
  rw [matchOp, h, if_neg hb, Member.holds, sameChar_eq]
  by_cases hbar : b = byte '|'
  · subst hbar
    simp [internalError]
    decide
  rw [if_neg hbar]
  by_cases hdollar : b = byte '$'
  · subst hdollar
    simp [noMatch]
    decide
  rw [if_neg hdollar]
  by_cases hdot : b = byte '.'
  · simp [hdot]
  rw [if_neg hdot]
  cases sameChar info.ignoreCase b (byteAt s p) <;> simp [hdot, hdollar, hbar, noMatch]

theorem isMember_ne {b c : UInt8} (hb : isMember b = true) (hc : isMember c = false) : b ≠ c := by
  intro heq
  rw [heq, hc] at hb
  exact Bool.false_ne_true hb

/-- A character that `membersOk` accepts is not the start of a range. -/
theorem char_not_range {b : UInt8} {ms : List Member}
    (hok : b = byte '-' ∨ (membersText ms).head? ≠ some (byte '-') ∨ (membersText ms).length = 1)
    (h : StandsAt re r (b :: (membersText ms ++ [byte ']']))) : ¬ IsRange re r 0 := by
  rintro ⟨hlo, hdash, hhi, -⟩
  rw [Nat.add_zero] at hlo hdash hhi
  have htail := h.tail
  rcases hok with hb | hhead | hone
  · exact hlo (h.byteAt.trans hb)
  · cases htext : membersText ms with
    | nil =>
      rw [htext] at htail
      rw [htail.byteAt] at hdash
      exact absurd hdash (by decide)
    | cons x xs =>
      rw [htext] at htail hhead
      rw [htail.byteAt] at hdash
      exact hhead (congrArg some hdash)
  · obtain ⟨x, hx⟩ := List.length_eq_one_iff.mp hone
    rw [hx] at htail
    exact hhi htail.tail.byteAt

/-- The search through the members ends with a hit exactly if one holds the character. -/
theorem matchSetFrom_members {ms : List Member} (hok : membersOk ms = true) :
    ∀ (len : Nat) (result : Int), StandsAt re (r + len) (membersText ms ++ [byte ']']) →
      ((len + (membersText ms).length : Nat) : Int) ≤ reLen → result ≤ 0 →
      (0 < matchSetFrom re s info r reLen p len result ↔
        ms.any (fun m => m.holds info.ignoreCase (byteAt s p)) = true) := by
  induction ms with
  | nil =>
    intro len result h _ hres
    have hend : byteAt re (r + len) = byte ']' := h.byteAt
    rw [matchSetFrom_stop fun hc => hc.2.1 hend, List.any_nil]
    exact iff_of_false (Int.not_lt.mpr hres) Bool.false_ne_true
  | cons m ms ih =>
    intro len result h hlen hres
    have hall : membersText (m :: ms) = m.text ++ membersText ms := List.flatMap_cons
    rw [hall, List.length_append] at hlen
    rw [hall, List.append_assoc] at h
    obtain ⟨hm, hrest⟩ := standsAt_append.mp h
    have hgo : ∀ {b : UInt8} {t : List UInt8}, m.text = b :: t → isMember b = true ∨ b = byte '\\' →
        (len : Int) ≤ reLen ∧ byteAt re (r + len) ≠ byte ']' ∧ result ≤ 0 := by
      intro b t ht hb
      rw [ht] at hm
      refine ⟨by omega, ?_, hres⟩
      rw [hm.byteAt]
      rcases hb with hb | rfl
      · exact isMember_ne hb (by decide)
      · decide
    rw [List.any_cons, Bool.or_eq_true]
    -- one round: a hit ends the search, a miss leaves the other members
    have hround : ∀ {found : Bool} {n : Int} {width : Nat}, width = m.text.length →
        (0 < n ↔ found = true) →
        (0 < matchSetFrom re s info r reLen p (len + width) n ↔
          found = true ∨ ms.any (fun m => m.holds info.ignoreCase (byteAt s p)) = true) := by
      intro found n width hwidth hn
      by_cases hfound : 0 < n
      · rw [matchSetFrom_stop fun hc => Int.not_le.mpr hfound hc.2.2]
        exact iff_of_true hfound (Or.inl (hn.mp hfound))
      · rw [ih (by cases m <;> simp_all [membersOk]) (len + width) n
          (by rw [hwidth, ← Nat.add_assoc]; exact hrest) (by omega) (Int.not_lt.mp hfound)]
        exact (or_iff_right fun hf => hfound (hn.mpr hf)).symm
    cases m with
    | range lo hi =>
      have hok' : (lo ≠ byte '-' ∧ isMember lo = true) ∧ isMember hi = true := by
        simp only [membersOk, Bool.and_eq_true, bne_iff_ne] at hok
        exact hok.1
      have hlo : byteAt re (r + len) = lo := hm.byteAt
      have hdash : byteAt re (r + len + 1) = byte '-' := hm.tail.byteAt
      have hhi : byteAt re (r + len + 2) = hi := hm.tail.tail.byteAt
      have hrange : IsRange re r len :=
        ⟨hlo ▸ hok'.1.1, hdash, hhi ▸ isMember_ne hok'.2 (by decide),
          hhi ▸ isMember_ne hok'.2 (by decide)⟩
      rw [matchSetFrom_range (hgo rfl (Or.inl hok'.1.2)) hrange, hlo, hhi]
      apply hround rfl
      rw [Member.holds]
      cases inRange info.ignoreCase lo hi (byteAt s p) <;> simp
    | char b =>
      have hok' : isMember b = true ∧ (b = byte '-' ∨
          (membersText ms).head? ≠ some (byte '-') ∨ (membersText ms).length = 1) := by
        simp only [membersOk, Bool.and_eq_true, Bool.or_eq_true, bne_iff_ne, beq_iff_eq,
          or_assoc] at hok
        exact hok.1
      have hb : byteAt re (r + len) = b := hm.byteAt
      have hback : b ≠ byte '\\' := isMember_ne hok'.1 (by decide)
      have hnot : ¬ IsRange re r len := char_not_range hok'.2 h
      rw [matchSetFrom_op (hgo rfl (Or.inl hok'.1)) hnot]
      apply hround
      · rw [opLen, hb, if_neg fun hc => hback hc.1, if_neg hback]
        rfl
      · exact matchOp_char hb hback
    | escape e =>
      have hnot : ¬ IsRange re r len := fun hc => escape_not_range hm hc.2.1
      have hop : matchOp re s info (r + len) p =
          if e.holds (byteAt s p) then 1 else noMatch := matchOp_op (o := .escape e) hm
      rw [matchSetFrom_op (hgo rfl (Or.inr rfl)) hnot, hop]
      apply hround (opLen_escape hm)
      rw [Member.holds]
      cases e.holds (byteAt s p) <;> simp [noMatch]

/-- A set holds the character it is meant to hold. -/
theorem matchSet_body {c : CharSet} (h : StandsAt re r c.body)
    (hlen : (c.body.length : Int) ≤ reLen + 1) :
    matchSet re s info r reLen p = if c.holds info.ignoreCase (byteAt s p) then 1 else -1 := by
  obtain ⟨invert, ms, hok, hhead⟩ := c
  have hmembers : ∀ (r : Nat) (l : Int), StandsAt re r (membersText ms ++ [byte ']']) →
      ((membersText ms).length : Int) ≤ l →
      (0 < matchSetFrom re s info r l p 0 (-1) ↔
        ms.any (fun m => m.holds info.ignoreCase (byteAt s p)) = true) :=
    fun r l hr hl => matchSetFrom_members hok 0 (-1) hr (by omega) (by decide)
  rw [matchSet, CharSet.holds]
  cases invert with
  | true =>
    have hcaret : byteAt re r = byte '^' := h.byteAt
    have hbody : (⟨true, ms, hok, hhead⟩ : CharSet).body.length = (membersText ms).length + 2 := by
      simp [CharSet.body]
    have hfrom := hmembers (r + 1) (reLen - 1) (StandsAt.tail h) (by omega)
    dsimp only
    rw [if_pos hcaret]
    cases hany : ms.any fun m => m.holds info.ignoreCase (byteAt s p) with
    | true =>
      have hpos := hfrom.mpr hany
      rw [if_neg (by rintro (⟨hc, -⟩ | ⟨-, hle⟩); exacts [hc hcaret, Int.not_le.mpr hpos hle])]
      rfl
    | false =>
      have hle := Int.not_lt.mp fun hp => Bool.false_ne_true (hany.symm.trans (hfrom.mp hp))
      rw [if_pos (Or.inr ⟨hcaret, hle⟩)]
      rfl
  | false =>
    have htext : StandsAt re r (membersText ms ++ [byte ']']) := h
    have hcaret : byteAt re r ≠ byte '^' := by
      have hfirst := hhead.resolve_left Bool.false_ne_true
      cases hms : membersText ms with
      | nil =>
        rw [hms] at htext
        rw [htext.byteAt]
        decide
      | cons x xs =>
        rw [hms] at htext hfirst
        rw [htext.byteAt]
        exact fun hc => hfirst (congrArg some hc)
    have hbody : (⟨false, ms, hok, hhead⟩ : CharSet).body.length = (membersText ms).length + 1 := by
      simp [CharSet.body]
    have hfrom := hmembers r reLen htext (by omega)
    dsimp only
    rw [if_neg hcaret]
    cases hany : ms.any fun m => m.holds info.ignoreCase (byteAt s p) with
    | true =>
      rw [if_pos (Or.inl ⟨hcaret, hfrom.mpr hany⟩)]
      rfl
    | false =>
      have hle := Int.not_lt.mp fun hp => Bool.false_ne_true (hany.symm.trans (hfrom.mp hp))
      rw [if_neg (by rintro (⟨-, hp⟩ | ⟨hc, -⟩); exacts [Int.not_le.mpr hp hle, hcaret hc])]
      rfl

end Sets

/-! ## Chunks -/

section Chunks

variable {re s : List UInt8} {info : RegexInfo} {r : Nat} {reLen : Int}

theorem setEnd_step {len : Nat} {b : UInt8} (h : byteAt re (r + len) = b) (hb : b ≠ byte ']')
    (hlen : (len : Int) < reLen) :
    setEnd re r reLen len = setEnd re r reLen (len + opLen re (r + len)) := by
  rw [setEnd, if_pos ⟨hlen, by rwa [h]⟩]

theorem setEnd_member {len : Nat} {b : UInt8} (h : byteAt re (r + len) = b)
    (hb : isMember b = true) (hlen : (len : Int) < reLen) :
    setEnd re r reLen len = setEnd re r reLen (len + 1) := by
  have hback : b ≠ byte '\\' := isMember_ne hb (by decide)
  rw [setEnd_step h (isMember_ne hb (by decide)) hlen, opLen, h, if_neg fun hc => hback hc.1,
    if_neg hback]

theorem setEnd_members {ms : List Member} (hok : membersOk ms = true) :
    ∀ len : Nat, StandsAt re (r + len) (membersText ms ++ [byte ']']) →
      ((len + (membersText ms).length : Nat) : Int) < reLen →
      setEnd re r reLen len = len + (membersText ms).length := by
  induction ms with
  | nil =>
    intro len h _
    have hend : byteAt re (r + len) = byte ']' := h.byteAt
    rw [setEnd, if_neg fun hc => hc.2 hend]
    rfl
  | cons m ms ih =>
    intro len h hlen
    have hall : membersText (m :: ms) = m.text ++ membersText ms := List.flatMap_cons
    rw [hall, List.length_append] at hlen
    rw [hall, List.append_assoc] at h
    obtain ⟨hm, hrest⟩ := standsAt_append.mp h
    have hnext : setEnd re r reLen (len + m.text.length) =
        len + m.text.length + (membersText ms).length := by
      apply ih
      · cases m <;> simp_all [membersOk]
      · rw [← Nat.add_assoc]
        exact hrest
      · omega
    rw [hall, List.length_append, ← Nat.add_assoc, ← hnext]
    cases m with
    | range lo hi =>
      simp only [membersOk, Bool.and_eq_true] at hok
      have hthree : (Member.range lo hi).text.length = 3 := rfl
      have h1 : byteAt re (r + (len + 1)) = byte '-' := hm.tail.byteAt
      have h2 : byteAt re (r + (len + 1 + 1)) = hi := hm.tail.tail.byteAt
      rw [setEnd_member hm.byteAt hok.1.1.2 (by omega), setEnd_member h1 (by decide) (by omega),
        setEnd_member h2 hok.1.2 (by omega)]
      rfl
    | char b =>
      simp only [membersOk, Bool.and_eq_true] at hok
      have hone : (Member.char b).text.length = 1 := rfl
      exact setEnd_member hm.byteAt hok.1.1 (by omega)
    | escape e =>
      have hpos : 0 < (Member.escape e).text.length := Nat.succ_pos _
      rw [setEnd_step hm.byteAt (by decide) (by omega), opLen_escape hm]
      rfl

theorem setLen_body {c : CharSet} (h : StandsAt re r c.body) (hlen : (c.body.length : Int) ≤ reLen) :
    setLen re r reLen = c.body.length := by
  obtain ⟨invert, ms, hok, hhead⟩ := c
  have hend : setEnd re r reLen 0 = (⟨invert, ms, hok, hhead⟩ : CharSet).body.length - 1 := by
    cases invert with
    | true =>
      have hbody : (⟨true, ms, hok, hhead⟩ : CharSet).body.length = (membersText ms).length + 2 := by
        simp [CharSet.body]
      have hcaret : byteAt re (r + 0) = byte '^' := h.byteAt
      rw [setEnd_member hcaret (by decide) (by omega),
        setEnd_members hok (0 + 1) (StandsAt.tail h) (by omega)]
      omega
    | false =>
      have hbody : (⟨false, ms, hok, hhead⟩ : CharSet).body.length = (membersText ms).length + 1 := by
        simp [CharSet.body]
      rw [setEnd_members hok 0 h (by omega)]
      omega
  have hpos : 0 < (⟨invert, ms, hok, hhead⟩ : CharSet).body.length := by simp [CharSet.body]
  rw [setLen, hend, if_pos (by omega)]
  omega

theorem getOpLen_atom {a : Atom} (h : StandsAt re r a.text) (hlen : (a.text.length : Int) ≤ reLen) :
    getOpLen re r reLen = a.text.length := by
  cases a with
  | set c =>
    have hopen : byteAt re r = byte '[' := h.byteAt
    have hcons : (Atom.set c).text.length = c.body.length + 1 := rfl
    rw [getOpLen, if_pos hopen, setLen_body h.tail (by omega)]
    omega
  | op o =>
    cases o with
    | literal b ok =>
      have hb : byteAt re r = b := h.byteAt
      have hback : b ≠ byte '\\' := isLiteral_ne ok (by decide)
      rw [getOpLen, opLen, hb, if_neg (isLiteral_ne ok (by decide)), if_neg fun hc => hback hc.1,
        if_neg hback]
      rfl
    | any =>
      have hb : byteAt re r = byte '.' := h.byteAt
      rw [getOpLen, opLen, hb]
      rfl
    | escape e =>
      have hb : byteAt re r = byte '\\' := h.byteAt
      rw [getOpLen, hb, opLen_escape h]
      rfl

/-- What an atom does not start with. -/
theorem atom_head {a : Atom} (h : StandsAt re r a.text) :
    byteAt re r ∉ "^$()*+?|".toList.map byte := by
  cases a with
  | set _ =>
    rw [h.byteAt]
    decide
  | op o =>
    cases o with
    | literal b ok =>
      have hsub : "^$()*+?|".toList.map byte ⊆ "^$().[*+?|\\".toList.map byte := by decide
      rw [h.byteAt]
      exact fun hmem => isLiteral_notMem ok (hsub hmem)
    | any =>
      rw [h.byteAt]
      decide
    | escape e =>
      rw [h.byteAt]
      decide

theorem not_quantifier (h : byteAt re r ∉ "*+?".toList.map byte) : isQuantifier re r = false := by
  have h1 := ne_of_notMem h (show byte '*' ∈ _ by decide)
  have h2 := ne_of_notMem h (show byte '+' ∈ _ by decide)
  have h3 := ne_of_notMem h (show byte '?' ∈ _ by decide)
  simp [isQuantifier, h1, h2, h3]

theorem text_pos (a : Atom) : 0 < a.text.length := by
  rcases a with (o | _) <;> first | exact Nat.succ_pos _ | (cases o <;> exact Nat.succ_pos _)

end Chunks

end AdFilter.Slre.Reading
