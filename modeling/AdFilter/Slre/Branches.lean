import AdFilter.Slre.Reading
import Mathlib.Data.List.Basic
import Mathlib.Data.List.TakeWhile

/-!
# The pass over a pattern without groups

The pass meets a bar between every two branches and nothing else, and the matcher then
has the text of each branch.
-/

namespace AdFilter.Slre.Branches

open AdFilter.Slre.Match
open AdFilter.Slre.Steps
open AdFilter.Slre.Syntax
open AdFilter.Slre.Reading

variable {re : List UInt8} {info : RegexInfo} {r : Nat}

/-! ## One chunk of the pass -/

theorem scan_step {n : Nat} (hr : r < re.length) (hlen : getOpLen re r (re.length - r) = n)
    (hn : 0 < n) (hchunk : scanChunk re info 0 r = .ok (info, 0)) :
    scan re info 0 r = scan re info 0 (r + n) := by
  rw [scan, if_pos hr, hchunk]
  dsimp only
  rw [hlen, if_neg (by omega), Int.toNat_natCast]

theorem scanChunk_other (h : byteAt re r ∉ "|\\()".toList.map byte) :
    scanChunk re info 0 r = .ok (info, 0) := by
  rw [scanChunk]
  dsimp only
  rw [if_neg (ne_of_notMem h (by decide)), if_neg (ne_of_notMem h (by decide)),
    if_neg (ne_of_notMem h (by decide)), if_neg (ne_of_notMem h (by decide))]

/-- A byte that is a chunk of its own to the pass. -/
theorem scan_byte {b : UInt8} {t : List UInt8} (h : StandsAt re r (b :: t))
    (hb : b ∉ "|\\()[".toList.map byte) :
    scan re info 0 r = scan re info 0 (r + 1) := by
  have hat : byteAt re r = b := h.byteAt
  apply scan_step (standsAt_cons.mp h).1 _ Nat.one_pos
  · apply scanChunk_other
    have hsub : "|\\()".toList.map byte ⊆ "|\\()[".toList.map byte := by decide
    exact fun hmem => hb (hat ▸ hsub hmem)
  · have hback : b ≠ byte '\\' := ne_of_notMem hb (by decide)
    rw [getOpLen, opLen, hat, if_neg (ne_of_notMem hb (by decide)), if_neg fun hc => hback hc.1, if_neg hback]

theorem scanChunk_escape {e : Escape} (h : StandsAt re r e.text) (hr : r ≤ re.length) :
    scanChunk re info 0 r = .ok (info, 0) := by
  have hle := h.length_le hr
  have hb : byteAt re r = byte '\\' := h.byteAt
  have htail := h.tail
  have hneg : byte '\\' ≠ byte '|' := by decide
  rw [scanChunk, hb]
  dsimp only
  rw [if_neg hneg, if_pos rfl]
  cases e with
  | hex a b =>
    have h1 : byteAt re (r + 1) = byte 'x' := htail.byteAt
    have h2 : byteAt re (r + 2) = a.value := htail.tail.byteAt
    have h3 : byteAt re (r + 3) = b.value := htail.tail.tail.byteAt
    have hfour : (Escape.hex a b).text.length = 4 := rfl
    rw [if_neg (by omega), if_pos h1, if_neg (by omega), h2, h3, a.ok, b.ok]
    rfl
  | quoted b ok =>
    have h1 : byteAt re (r + 1) = b := htail.byteAt
    have htwo : (Escape.quoted b ok).text.length = 2 := rfl
    have hmeta : isMetacharacter b = true := by
      have hall : ("^$().[]*+?|\\".toList.map byte).all isMetacharacter = true := by decide
      apply List.all_eq_true.mp hall
      simpa [isQuotable] using ok
    rw [if_neg (by omega), h1, if_neg (isQuotable_ne ok (by decide)), if_pos hmeta]
  | _ =>
    have h1 := StandsAt.byteAt htail
    rw [if_neg (by simp [Escape.text, Escape.tail] at hle; omega), h1]
    rfl

theorem scan_atom {a : Atom} (h : StandsAt re r a.text) (hr : r ≤ re.length) :
    scan re info 0 r = scan re info 0 (r + a.text.length) := by
  have hle := h.length_le hr
  have hpos := text_pos a
  apply scan_step (by omega) (getOpLen_atom h (by omega)) hpos
  by_cases hback : byteAt re r = byte '\\'
  · cases a with
    | set c =>
      rw [h.byteAt] at hback
      exact absurd hback (by decide)
    | op o =>
      cases o with
      | literal b ok =>
        rw [h.byteAt] at hback
        exact absurd hback (isLiteral_ne ok (by decide))
      | any =>
        rw [h.byteAt] at hback
        exact absurd hback (by decide)
      | escape e => exact scanChunk_escape h hr
  · apply scanChunk_other
    have hsub : "|()".toList.map byte ⊆ "^$()*+?|".toList.map byte := by decide
    intro hmem
    have hcases : byteAt re r = byte '\\' ∨ byteAt re r ∈ "|()".toList.map byte := by
      have hperm : "|\\()".toList.map byte ⊆ byte '\\' :: "|()".toList.map byte := by decide
      exact List.mem_cons.mp (hperm hmem)
    exact hcases.elim hback fun h' => atom_head h (hsub h')

/-- The pass goes over the text and leaves the table as it is. -/
def ScansClean (t : List UInt8) : Prop :=
  ∀ (re : List UInt8) (info : RegexInfo) (r : Nat), StandsAt re r t → r ≤ re.length →
    scan re info 0 r = scan re info 0 (r + t.length)

theorem scansClean_append {t u : List UInt8} (ht : ScansClean t) (hu : ScansClean u) :
    ScansClean (t ++ u) := by
  intro re info r h hr
  obtain ⟨h1, h2⟩ := standsAt_append.mp h
  rw [ht re info r h1 hr, hu re info _ h2 (h1.length_le hr), List.length_append, Nat.add_assoc]

theorem scansClean_nil : ScansClean [] := fun _ _ _ _ _ => rfl

theorem scansClean_byte {b : UInt8} (hb : b ∉ "|\\()[".toList.map byte) :
    ScansClean [b] := fun _ _ _ h _ => scan_byte h hb

theorem scansClean_quantifier (q : Quantifier) : ScansClean q.text := by
  have hlazy : ∀ isLazy : Bool, ScansClean (lazyText isLazy) := by
    intro isLazy
    cases isLazy with
    | true => exact scansClean_byte (by decide)
    | false => exact scansClean_nil
  cases q with
  | once => exact scansClean_nil
  | opt => exact scansClean_byte (by decide)
  | star isLazy =>
    exact scansClean_append (scansClean_byte (b := byte '*') (by decide)) (hlazy isLazy)
  | plus isLazy =>
    exact scansClean_append (scansClean_byte (b := byte '+') (by decide)) (hlazy isLazy)

theorem scansClean_items (its : List Item) : ScansClean (itemsText its) := by
  induction its with
  | nil => exact scansClean_nil
  | cons it its ih =>
    have hall : itemsText (it :: its) = it.text ++ itemsText its := List.flatMap_cons
    rw [hall]
    apply scansClean_append _ ih
    cases it with
    | dollar => exact scansClean_byte (by decide)
    | piece a q =>
      exact scansClean_append (fun _ _ _ h hr => scan_atom h hr) (scansClean_quantifier q)

/-! ## The bars -/

/-- The entries for the bars before texts that stand at offset `o`. -/
def bars (o : Nat) : List (List UInt8) → List Branch
  | [] => []
  | t :: ts => ⟨0, o⟩ :: bars (o + (t.length + 1)) ts

theorem length_bars (ts : List (List UInt8)) : ∀ o, (bars o ts).length = ts.length := by
  induction ts with
  | nil => exact fun _ => rfl
  | cons t ts ih =>
    intro o
    rw [bars, List.length_cons, ih, List.length_cons]

theorem bars_bracket {ts : List (List UInt8)} {b : Branch} :
    ∀ {o : Nat}, b ∈ bars o ts → b.bracketIndex = 0 := by
  induction ts with
  | nil => exact fun h => absurd h List.not_mem_nil
  | cons t ts ih =>
    intro o h
    rcases List.mem_cons.mp h with rfl | h
    · rfl
    · exact ih h

theorem barred_cons (t : List UInt8) (ts : List (List UInt8)) :
    barred (t :: ts) = byte '|' :: (t ++ barred ts) := List.flatMap_cons

/-- The pass over the rest of the pattern, from a bar on. It gives up when there are too
many bars. -/
theorem scan_barred {ts : List (List UInt8)} (hts : ∀ t ∈ ts, ScansClean t) :
    ∀ (info : RegexInfo) (o : Nat), info.numBrackets = 1 → (info.brackets 0).len ≠ -1 →
      StandsAt re o (barred ts) → o + (barred ts).length = re.length →
      scan re info 0 o = some (.ok ({ info with branches := info.branches ++ bars o ts }, 0)) ∨
        ts ≠ [] ∧ ∃ err, scan re info 0 o = some (.error err) := by
  induction ts with
  | nil =>
    intro info o _ _ _ hlen
    have hend : (barred []).length = 0 := rfl
    rw [scan, if_neg (by omega), bars, List.append_nil]
    exact Or.inl rfl
  | cons t ts ih =>
    intro info o hone hopen h hlen
    rw [barred_cons] at h hlen
    rw [List.length_cons, List.length_append] at hlen
    obtain ⟨ht, hrest⟩ := standsAt_append.mp h.tail
    have hbar : byteAt re o = byte '|' := h.byteAt
    have hstep : getOpLen re o (re.length - o) = (1 : Nat) := by
      rw [getOpLen, opLen, hbar]
      rfl
    have hind : (if (info.brackets (info.numBrackets - 1)).len = -1 then info.numBrackets - 1
        else 0) = 0 := by
      rw [hone]
      exact if_neg hopen
    by_cases hfull : maxBranches ≤ info.branches.length
    · have hchunk : scanChunk re info 0 o = .error tooManyBranches := by
        rw [scanChunk, hbar]
        exact if_pos hfull
      rw [scan, if_pos (by omega), hchunk]
      exact Or.inr ⟨List.cons_ne_nil t ts, _, rfl⟩
    · have hchunk : scanChunk re info 0 o =
          .ok ({ info with branches := info.branches ++ [⟨0, o⟩] }, 0) := by
        rw [scanChunk, hbar, hind]
        exact if_neg hfull
      have hnext := ih (fun u hu => hts u (List.mem_cons_of_mem t hu))
        { info with branches := info.branches ++ [⟨0, o⟩] } (o + 1 + t.length) hone hopen hrest
        (by omega)
      rw [scan, if_pos (by omega), hchunk]
      dsimp only
      rw [hstep, if_neg (by decide), Int.toNat_natCast,
        hts t List.mem_cons_self re _ (o + 1) ht (by omega), bars]
      rw [List.append_assoc, Nat.add_assoc, Nat.add_comm 1] at hnext
      rw [Nat.add_assoc, Nat.add_comm 1]
      exact hnext.imp_right fun hstop => ⟨List.cons_ne_nil t ts, hstop.2⟩

/-! ## The branch points -/

theorem sortBranches_eq {bs : List Branch} (h : ∀ b ∈ bs, b.bracketIndex = 0) :
    sortBranches bs = bs := by
  have hswap : ∀ i j, swapBranches bs i j = bs := by
    intro i j
    unfold swapBranches
    cases hi : bs[i]? with
    | none => rfl
    | some a =>
      cases hj : bs[j]? with
      | none => rfl
      | some b =>
        have ha := h a (List.mem_of_getElem? hi)
        have hb := h b (List.mem_of_getElem? hj)
        exact if_neg (by omega)
  rw [sortBranches]
  apply List.foldl_fixed'
  intro i
  exact List.foldl_fixed' (fun j => hswap i j) _

/-- A pattern without groups has all its branch points in the outer bracket. -/
theorem setupBranchPoints_eq (info : RegexInfo) (hone : info.numBrackets = 1)
    (h : ∀ b ∈ info.branches, b.bracketIndex = 0) :
    (setupBranchPoints info).branches = info.branches ∧
      (setupBranchPoints info).brackets 0 =
        { info.brackets 0 with numBranches := info.branches.length, branches := 0 } := by
  have htake : (info.branches.takeWhile fun b => b.bracketIndex == 0) = info.branches := by
    apply List.takeWhile_eq_self_iff.mpr
    intro b hb
    rw [h b hb]
    rfl
  rw [setupBranchPoints, sortBranches_eq h, hone]
  simp [setBranchPoints, RegexInfo.setBracket, htake]

/-! ## The text of a branch -/

theorem bars_get {ts : List (List UInt8)} :
    ∀ {o k : Nat} {t : List UInt8}, StandsAt re o (barred ts) → ts[k]? = some t →
      ∃ x, (bars o ts)[k]? = some ⟨0, x⟩ ∧ StandsAt re (x + 1) t ∧
        (k + 1 < ts.length → (bars o ts)[k + 1]? = some ⟨0, x + 1 + t.length⟩) ∧
        (k + 1 = ts.length → x + 1 + t.length = o + (barred ts).length) := by
  induction ts with
  | nil =>
    intro o k t _ ht
    cases ht
  | cons u ts ih =>
    intro o k t h ht
    rw [barred_cons] at h
    obtain ⟨hu, hrest⟩ := standsAt_append.mp h.tail
    have hlen : (barred (u :: ts)).length = u.length + (barred ts).length + 1 := by
      rw [barred_cons, List.length_cons, List.length_append]
    rw [Nat.add_assoc, Nat.add_comm 1] at hrest
    cases k with
    | zero =>
      obtain rfl : u = t := by simpa using ht
      refine ⟨o, rfl, hu, fun hk => ?_, fun hk => ?_⟩
      · cases ts with
        | nil => exact absurd hk (Nat.lt_irrefl 1)
        | cons v ts =>
          rw [Nat.add_assoc, Nat.add_comm 1]
          rfl
      · cases ts with
        | nil =>
          have hnil : (barred []).length = 0 := rfl
          omega
        | cons v ts =>
          rw [List.length_cons, List.length_cons] at hk
          omega
    | succ k =>
      obtain ⟨x, hx, htext, hnext, hend⟩ := ih hrest (by simpa using ht)
      refine ⟨x, hx, htext, fun hk => ?_, fun hk => ?_⟩
      · exact hnext (by rw [List.length_cons] at hk; omega)
      · rw [List.length_cons] at hk
        have hlast := hend (by omega)
        omega

/-- The matcher has the text of each branch, and its length. -/
theorem branchText_get {t₀ : List UInt8} {ts : List (List UInt8)} (hre : re = t₀ ++ barred ts)
    (hbranches : info.branches = bars t₀.length ts)
    (hbracket : info.brackets 0 = ⟨0, re.length, 0, ts.length⟩) {k : Nat} {t : List UInt8}
    (ht : (t₀ :: ts)[k]? = some t) :
    StandsAt re (branchText info (info.brackets 0) k).1 t ∧
      (branchText info (info.brackets 0) k).2 = t.length := by
  have hall : StandsAt re 0 (t₀ ++ barred ts) := hre ▸ List.prefix_rfl
  obtain ⟨hfirst, hrest⟩ := standsAt_append.mp hall
  rw [Nat.zero_add] at hrest
  have hlen : re.length = t₀.length + (barred ts).length := by rw [hre, List.length_append]
  rw [branchText, hbracket, hbranches]
  dsimp only
  cases k with
  | zero =>
    obtain rfl : t₀ = t := by simpa using ht
    rw [if_pos rfl]
    refine ⟨hfirst, ?_⟩
    cases ts with
    | nil =>
      have hnil : (barred []).length = 0 := rfl
      rw [List.length_nil, if_pos rfl]
      omega
    | cons u ts =>
      rw [List.length_cons, if_neg (Nat.succ_ne_zero _), if_neg (Nat.succ_ne_zero _).symm]
      exact Int.sub_zero _
  | succ k =>
    rw [List.getElem?_cons_succ] at ht
    obtain ⟨hk, -⟩ := List.getElem?_eq_some_iff.mp ht
    obtain ⟨x, hx, htext, hnext, hend⟩ := bars_get hrest ht
    rw [if_neg (Nat.succ_ne_zero k), if_neg (by omega), Nat.zero_add,
      Nat.add_sub_cancel, hx]
    refine ⟨htext, ?_⟩
    have hstart : Branch.start (some ⟨0, x⟩) = x := rfl
    by_cases hlast : k + 1 = ts.length
    · have he := hend hlast
      rw [if_pos hlast, hstart]
      omega
    · have hstart' : Branch.start (some ⟨0, x + 1 + t.length⟩) = x + 1 + t.length := rfl
      rw [if_neg hlast, hnext (by omega), hstart, hstart']
      omega

/-- The answer of a bracket is the answer of one of its branches. -/
theorem doh_branch (re s : List UInt8) (info : RegexInfo) (p : Nat) (sLen : Int) {bi : Nat}
    (k : Nat) :
    ∀ i, (info.brackets bi).numBranches - i = k → i ≤ (info.brackets bi).numBranches →
      ∃ b ≤ (info.brackets bi).numBranches,
        doh re s info p sLen bi i = branchAnswer re s info p sLen bi b := by
  induction k with
  | zero =>
    intro i hk hi
    refine ⟨i, hi, ?_⟩
    rw [doh_step, if_neg fun h => absurd h.2 (by omega)]
  | succ k ih =>
    intro i hk hi
    rw [doh_step]
    by_cases hnext : branchAnswer re s info p sLen bi i ≤ 0 ∧ i < (info.brackets bi).numBranches
    · rw [if_pos hnext]
      exact ih (i + 1) (by omega) hnext.2
    · rw [if_neg hnext]
      exact ⟨i, hi, rfl⟩

/-! ## The offsets of the subject -/

/-- The search ends at the first offset with an answer, which is the first one at all if
the pattern starts with a caret; or no offset that it tries has one. -/
theorem bazFrom_cases (re s : List UInt8) (info : RegexInfo) {sLen : Nat} (n : Nat) :
    ∀ i, i + n = sLen + 1 → 0 < n →
      (∃ p, i ≤ p ∧ p ≤ sLen ∧ (byteAt re (info.brackets 0).ptr = byte '^' → p = i) ∧
        (∀ q, i ≤ q → q < p → doh re s info q ((sLen : Int) - q) 0 0 < 0) ∧
        0 ≤ doh re s info p ((sLen : Int) - p) 0 0 ∧
        bazFrom re s info sLen n i = doh re s info p ((sLen : Int) - p) 0 0 + p) ∨
      (bazFrom re s info sLen n i < 0 ∧
        ∀ p, i ≤ p → p ≤ sLen → (byteAt re (info.brackets 0).ptr = byte '^' → p = i) →
          doh re s info p ((sLen : Int) - p) 0 0 < 0) := by
  induction n with
  | zero => exact fun i _ h0 => absurd h0 (Nat.lt_irrefl 0)
  | succ n ih =>
    intro i hi _
    rw [bazFrom]
    by_cases hfound : 0 ≤ doh re s info i ((sLen : Int) - i) 0 0
    · rw [if_pos hfound]
      exact Or.inl ⟨i, Nat.le_refl i, by omega, fun _ => rfl,
        fun q hq hlt => absurd hlt (Nat.not_lt.mpr hq), hfound, rfl⟩
    rw [if_neg hfound]
    have hneg := Int.not_le.mp hfound
    by_cases hcaret : byteAt re (info.brackets 0).ptr = byte '^'
    · rw [if_pos hcaret]
      exact Or.inr ⟨hneg, fun p _ _ hp => hp hcaret ▸ hneg⟩
    rw [if_neg hcaret]
    by_cases hlast : n = 0
    · rw [if_pos hlast]
      refine Or.inr ⟨hneg, fun p hip hp _ => ?_⟩
      obtain rfl : p = i := by omega
      exact hneg
    rw [if_neg hlast]
    -- no answer at `i`: the rest of the search decides
    have hi' : ∀ q, i ≤ q → q = i ∨ i + 1 ≤ q := fun q hq => by omega
    rcases ih (i + 1) (by omega) (Nat.pos_of_ne_zero hlast) with
      ⟨p, hip, hp, -, hfirst, hdoh, heq⟩ | ⟨hnone, hall⟩
    · refine Or.inl ⟨p, by omega, hp, fun hc => absurd hc hcaret, fun q hq hlt => ?_, hdoh, heq⟩
      rcases hi' q hq with rfl | hq'
      · exact hneg
      · exact hfirst q hq' hlt
    · refine Or.inr ⟨hnone, fun p hip hp _ => ?_⟩
      rcases hi' p hip with rfl | hip'
      · exact hneg
      · exact hall p hip' hp fun hc => absurd hc hcaret

end AdFilter.Slre.Branches
