import AdFilter.Driver.LoadBounds
import AdFilter.Driver.Reach
import AdFilter.Lib.Excerpts

/-!
# The loops of a load

The three loops of `load_file`, each without an outcome when it is not over after a
number of rounds, over a `len` that has room for any line. The hosts are written down with
the place in the file that their text begins at, and the rounds of the outer loop with the
offsets before and after.
-/

namespace AdFilter.Driver.LoadProgress

open AdFilter.Nt
open AdFilter.Lib.Pool
open AdFilter.Lib.Excerpts
open AdFilter.Driver.HostList
open AdFilter.Driver.Abstract
open AdFilter.Driver.Represent
open AdFilter.Driver.Reach (bytes_cut)
open AdFilter.Driver.LoadFile
open AdFilter.Driver.FileLines
open AdFilter.Driver.Windows
open AdFilter.Driver.LoadBounds

/-- What a load has done: the hosts it has added, oldest first, and the offsets before
and after the rounds that did not leave the outer loop. -/
structure Progress where
  adf : Adf
  hosts : List (Excerpt UInt8) := []
  passes : List (Nat × Nat) := []

/-- `addHostList` on a line in `len` that starts at a place of the file. -/
def addLen (p : Allocator Ptr) (header : Ptr) (start : Nat) (len : List UInt8) (s : Progress) :
    Bool × Progress :=
  let l := strnlen (textMem len) adfHostMaxLen
  match addHostList p s.adf header (textMem len) l with
  | (false, a') => (false, { s with adf := a' })
  | (true, a') =>
      (true, { s with adf := a', hosts := s.hosts ++ [⟨start, bytes (textMem len) l⟩] })

/-- The copy loop: what is in `len` then, and `last_line_offset`. -/
def copyLine (buff : Mem) (i : Nat) : Nat → Nat → List UInt8 → Option (List UInt8 × Nat)
  | 0, _, _ => none
  | n + 1, j, len =>
      if buff (i + j) = cr then some (len, j + 2)
      else if buff (i + j) = 0 then some (len, 0)
      else copyLine buff i n (j + 1) (len ++ [buff (i + j)])

/-- Where the loop over the lines of a chunk stands. -/
structure LineState where
  progress : Progress
  i : Nat := 0
  lines : Nat := 0
  len : List UInt8 := []

/-- The loop over the lines of a chunk at an offset; an error is a host that was not
added. -/
def lineLoop (p : Allocator Ptr) (header : Ptr) (buff : Mem) (offset bound : Nat) :
    Nat → LineState → Option (Except Progress LineState)
  | 0, _ => none
  | n + 1, s =>
      if s.i < buffSize - 1 then
        (copyLine buff s.i bound 0 []).bind fun (len, lastLineOffset) =>
          if lastLineOffset = 0 then some (.ok { s with len := len })
          else
            match addLen p header (offset + s.i) len s.progress with
            | (false, progress) => some (.error progress)
            | (true, progress) =>
                lineLoop p header buff offset bound n
                  ⟨progress, s.i + lastLineOffset, s.lines + 1, len⟩
      else some (.ok s)

/-- A load that has ended. -/
structure Finished where
  status : NtStatus
  closed : Bool
  progress : Progress

/-- The outer loop, after a number of reads and at an offset. -/
def outerLoop (p : Allocator Ptr) (header : Ptr) (read : Reader) (bound : Nat) :
    Nat → Nat → Nat → Progress → Option Finished
  | 0, _, _, _ => none
  | n + 1, call, offset, s =>
      match read call offset with
      | .error _ => some ⟨statusSuccess, true, s⟩
      | .ok data =>
          (lineLoop p header (chunk data) offset bound bound ⟨s, 0, 0, []⟩).bind fun
          | .error s' => some ⟨statusMemoryNotAllocated, false, s'⟩
          | .ok c =>
              if c.lines = 0 then
                match addLen p header (offset + c.i) c.len c.progress with
                | (false, s') => some ⟨statusMemoryNotAllocated, false, s'⟩
                | (true, s') => some ⟨statusSuccess, true, s'⟩
              else
                let next := (offset + c.i) % 2 ^ 32
                outerLoop p header read bound n (call + 1) next
                  { c.progress with passes := c.progress.passes ++ [(offset, next)] }

/-- The loops of `load_file` on a file that is open, `bound` rounds of each at most. -/
def loadLoops (p : Allocator Ptr) (header : Ptr) (read : Reader) (bound : Nat) (a : Adf) :
    Option Finished :=
  outerLoop p header read bound bound 0 0 ⟨a, [], []⟩

/-! ## One line -/

variable {p : Allocator Ptr} {header : Ptr} {content : List UInt8} {bound : Nat}

/-- The copy loop ends at the NUL at the end of `buff`. -/
theorem copyLine_eq {buff : Mem} (hb : buff (buffSize - 1) = 0) {i : Nat} (n : Nat) :
    ∀ {j : Nat} (len : List UInt8), i + j < buffSize → buffSize ≤ n + (i + j) →
      copyLine buff i n j len =
        some (len ++ (scanLine buff (buffSize - (i + j)) (i + j)).1,
          if (scanLine buff (buffSize - (i + j)) (i + j)).2
          then j + (scanLine buff (buffSize - (i + j)) (i + j)).1.length + 2 else 0) := by
  induction n with
  | zero =>
    intro j len hj hn
    omega
  | succ n ih =>
    intro j len hj hn
    obtain ⟨m, hm⟩ : ∃ m, buffSize - (i + j) = m + 1 := Nat.exists_eq_add_one.mpr (by omega)
    rw [copyLine, hm, scanLine]
    by_cases h₁ : buff (i + j) = cr
    · simp [h₁]
    rw [if_neg h₁, if_neg h₁]
    by_cases h₂ : buff (i + j) = 0
    · simp [h₂]
    have hlt : i + (j + 1) < buffSize := by
      -- the last byte of `buff` is a NUL
      by_contra hge
      have hlast : i + j = buffSize - 1 := by
        rw [buffSize] at hge hj ⊢
        omega
      exact h₂ (hlast ▸ hb)
    have hm' : m = buffSize - (i + (j + 1)) := by omega
    rw [if_neg h₂, if_neg h₂, ih _ hlt (by omega), ← hm', ← Nat.add_assoc]
    simp only [List.append_assoc, List.singleton_append, List.length_cons]
    congr 3
    omega

/-- What is copied of a line. -/
theorem bytes_len {len : List UInt8} (h0 : 0 ∉ len) :
    bytes (textMem len) (strnlen (textMem len) adfHostMaxLen) = len.take adfHostMaxLen := by
  have hlen : strnlen (textMem len) adfHostMaxLen = min len.length adfHostMaxLen := by
    refine strnlenFrom_eq (Nat.zero_le _) (by omega) (fun j _ hj he => ?_) ?_
    · have hj : j < len.length := by omega
      rw [textMem, List.getD_eq_getElem?_getD, List.getElem?_eq_getElem hj, Option.getD_some] at he
      exact h0 (he ▸ List.getElem_mem hj)
    · rcases Nat.le_total adfHostMaxLen len.length with hle | hle
      · exact Or.inl (by omega)
      · refine Or.inr ?_
        rw [Nat.min_eq_left hle, textMem, List.getD_eq_getElem?_getD,
          List.getElem?_eq_none (Nat.le_refl _), Option.getD_none]
  rw [hlen, bytes_textMem (Nat.min_le_left _ _), Nat.min_comm]
  exact List.take_eq_take_min.symm

/-- The outcome of the allocations decides, and a host that is added is what is in the file. -/
theorem addLen_spec (p : Allocator Ptr) (header : Ptr) {start : Nat} {len : List UInt8}
    (hlen : len <+: content.drop start) (h0 : 0 ∉ len) (s : Progress) :
    (addLen p header start len s).2.passes = s.passes ∧
      ∃ es, (addLen p header start len s).2.hosts = s.hosts ++ es ∧
        Laid content start es (start + len.length) ∧
        ((addLen p header start len s).1 = false → es = []) := by
  unfold addLen
  dsimp only
  rw [bytes_len h0]
  cases addHostList p s.adf header (textMem len) (strnlen (textMem len) adfHostMaxLen) with
  | mk ok a' =>
    cases ok with
    | false => exact ⟨rfl, [], (List.append_nil _).symm, Nat.le_add_right _ _, fun _ => rfl⟩
    | true =>
      refine ⟨rfl, [_], rfl, ⟨Nat.le_refl _, ?_, ?_⟩, fun h => absurd h.symm Bool.false_ne_true⟩
      · exact (List.take_prefix _ _).trans hlen
      · exact Nat.add_le_add_left (List.length_take_le' _ _) start

/-! ## One chunk -/

theorem lineOf_prefix (content : List UInt8) (offset i : Nat) :
    lineOf ((window content offset).drop i) <+: content.drop (offset + i) := by
  have hline : lineOf ((window content offset).drop i) <+: (window content offset).drop i :=
    List.takeWhile_prefix _
  refine hline.trans ?_
  rw [window, List.drop_take, List.drop_drop]
  exact List.take_prefix _ _

/-- What the loop over the lines of a chunk has done between two of its rounds. -/
structure Stepped (content : List UInt8) (offset : Nat) (s c : LineState) : Prop where
  passes : c.progress.passes = s.progress.passes
  hosts : ∃ es, c.progress.hosts = s.progress.hosts ++ es ∧
    Laid content (offset + s.i) es (offset + c.i)
  count : s.lines ≤ c.lines
  advance : s.i + 2 * c.lines ≤ c.i + 2 * s.lines
  stay : c.lines = s.lines → c.i = s.i
  within : c.lines ≠ s.lines → c.i ≤ (window content offset).length + 1
  last : c.lines = s.lines → s.i < buffSize - 1 →
    c.len <+: content.drop (offset + s.i) ∧ 0 ∉ c.len

/-- The hosts and rounds before it are still there. -/
structure Left (content : List UInt8) (lo : Nat) (s s' : Progress) : Prop where
  passes : s'.passes = s.passes
  hosts : ∃ es hi, s'.hosts = s.hosts ++ es ∧ Laid content lo es hi

/-- A round that ends the loop. -/
theorem Stepped.of_last {offset : Nat} {s : LineState} {len : List UInt8}
    (h : s.i < buffSize - 1 → len <+: content.drop (offset + s.i) ∧ 0 ∉ len) :
    Stepped content offset s { s with len } where
  passes := rfl
  hosts := ⟨[], (List.append_nil _).symm, Nat.le_refl _⟩
  count := Nat.le_refl _
  advance := Nat.le_refl _
  stay _ := rfl
  within h := absurd rfl h
  last _ := h

theorem Stepped.refl {offset : Nat} {s : LineState} (h : buffSize - 1 ≤ s.i) :
    Stepped content offset s s :=
  Stepped.of_last fun hlt => absurd hlt (Nat.not_lt.mpr h)

/-- The round found a part of a line. -/
theorem Stepped.part {offset : Nat} {s : LineState} {len : List UInt8}
    (hlen : len <+: content.drop (offset + s.i)) (h0 : 0 ∉ len) :
    Stepped content offset s { s with len } :=
  Stepped.of_last fun _ => ⟨hlen, h0⟩

section Line

variable {offset : Nat} {s : LineState} {progress : Progress} {len : List UInt8}
  {es : List (Excerpt UInt8)}

/-- A line that is added, and then the rest of the chunk. -/
theorem Stepped.line {c : LineState} (hwithin : s.i + len.length + 1 ≤ (window content offset).length)
    (hpasses : progress.passes = s.progress.passes) (hhosts : progress.hosts = s.progress.hosts ++ es)
    (hlaid : Laid content (offset + s.i) es (offset + s.i + len.length))
    (h : Stepped content offset ⟨progress, s.i + (len.length + 2), s.lines + 1, len⟩ c) :
    Stepped content offset s c := by
  have hcount := h.count
  have hadv := h.advance
  have hstay := h.stay
  have hin := h.within
  dsimp only at hcount hadv hstay hin
  constructor
  · exact h.passes.trans hpasses
  · obtain ⟨es', hes', hlaid'⟩ := h.hosts
    refine ⟨es ++ es', ?_, hlaid.append (hlaid'.front (by dsimp only; omega))⟩
    rw [hes', hhosts, List.append_assoc]
  · omega
  · omega
  · intro hsame
    omega
  · intro _
    by_cases hc : c.lines = s.lines + 1
    · rw [hstay hc]
      omega
    · exact hin hc
  · intro hsame
    omega

theorem Left.line {s' : Progress} {lo : Nat} (hpasses : progress.passes = s.progress.passes)
    (hhosts : progress.hosts = s.progress.hosts ++ es)
    (hlaid : Laid content (offset + s.i) es (offset + s.i + len.length))
    (hlo : offset + s.i + len.length ≤ lo) (h : Left content lo progress s') :
    Left content (offset + s.i) s.progress s' where
  passes := h.passes.trans hpasses
  hosts := by
    obtain ⟨es', hi, hes', hlaid'⟩ := h.hosts
    refine ⟨es ++ es', hi, ?_, hlaid.append (hlaid'.front hlo)⟩
    rw [hes', hhosts, List.append_assoc]

end Line

/-- The loop over the lines of a chunk ends. -/
theorem lineLoop_spec (p : Allocator Ptr) (header : Ptr) (content : List UInt8) (offset : Nat)
    (hb : buffSize ≤ bound) (n : Nat) :
    ∀ s : LineState, buffSize ≤ n + s.i → 0 < n →
      ∃ r, lineLoop p header (textMem (window content offset)) offset bound n s = some r ∧
        match r with
        | .error s' => Left content (offset + s.i) s.progress s'
        | .ok c => Stepped content offset s c := by
  have hw := window_length content offset
  have hnul : textMem (window content offset) (buffSize - 1) = 0 := by
    rw [textMem, List.getD_eq_getElem?_getD, List.getElem?_eq_none (Nat.le_sub_one_of_lt hw),
      Option.getD_none]
  induction n with
  | zero => exact fun _ _ h => absurd h (Nat.lt_irrefl 0)
  | succ n ih =>
    intro s hn _
    rw [lineLoop]
    by_cases hi : s.i < buffSize - 1
    · rw [if_pos hi, copyLine_eq hnul bound [] (by omega) (by omega), Option.bind_some, Nat.add_zero,
        scanLine_window (by omega)]
      dsimp only
      rw [List.nil_append, Nat.zero_add]
      have hpre := lineOf_prefix content offset s.i
      have h0 := lineOf_noNul ((window content offset).drop s.i)
      by_cases hend : Windows.Ended ((window content offset).drop s.i)
      · have hlt := hend.length_lt
        rw [List.length_drop] at hlt
        rw [if_pos (decide_eq_true hend), if_neg (Nat.succ_ne_zero _)]
        generalize lineOf ((window content offset).drop s.i) = len at hpre h0 hlt ⊢
        obtain ⟨hpass, es, hes, hlaid, -⟩ := addLen_spec p header hpre h0 s.progress
        generalize addLen p header (offset + s.i) len s.progress = r at hpass hes ⊢
        obtain ⟨ok, progress⟩ := r
        cases ok with
        | false => exact ⟨_, rfl, hpass, es, _, hes, hlaid⟩
        | true =>
          obtain ⟨r, hrun, hr⟩ := ih ⟨progress, s.i + (len.length + 2), s.lines + 1, len⟩
            (by dsimp only; omega) (by rw [buffSize] at hi hn; omega)
          refine ⟨r, hrun, ?_⟩
          cases r with
          | error s' => exact Left.line hpass hes hlaid (by dsimp only; omega) hr
          | ok c => exact Stepped.line (by omega) hpass hes hlaid hr
      · rw [decide_eq_false hend, if_neg Bool.false_ne_true, if_pos rfl]
        exact ⟨_, rfl, Stepped.part hpre h0⟩
    · rw [if_neg hi]
      exact ⟨_, rfl, Stepped.refl (Nat.le_of_not_lt hi)⟩

/-! ## The file -/

/-- What a load has done from an offset on. -/
structure Progressed (content : List UInt8) (offset : Nat) (s s' : Progress) : Prop where
  passes : ∃ ps, s'.passes = s.passes ++ ps ∧ ∀ pass ∈ ps, pass.1 + 2 ≤ pass.2
  hosts : ∃ es hi, s'.hosts = s.hosts ++ es ∧ Laid content offset es hi

theorem Left.progressed {offset : Nat} {s s' : Progress} (h : Left content offset s s') :
    Progressed content offset s s' where
  passes := ⟨[], h.passes.trans (List.append_nil _).symm, fun _ hp => absurd hp List.not_mem_nil⟩
  hosts := h.hosts

/-- Every pass comes nearer to the end of the file, which is never left by more than one
byte. -/
theorem outerLoop_spec (p : Allocator Ptr) (header : Ptr)
    (hsize : content.length < 2 ^ 32 - buffSize) (hb : buffSize ≤ bound) (n : Nat) :
    ∀ (call offset : Nat) (s : Progress), 0 < n → content.length + 2 ≤ n + offset →
      ∃ r, outerLoop p header (fileReader content) bound n call offset s = some r ∧
        Progressed content offset s r.progress := by
  induction n with
  | zero => exact fun _ _ _ h => absurd h (Nat.lt_irrefl 0)
  | succ n ih =>
    intro call offset s _ hn
    rw [outerLoop, fileReader]
    by_cases hend : content.length ≤ offset
    · rw [if_pos hend]
      refine ⟨_, rfl, Left.progressed ⟨rfl, [], offset, (List.append_nil _).symm, Nat.le_refl _⟩⟩
    rw [if_neg hend]
    dsimp only
    rw [chunk_eq_window]
    obtain ⟨r, hrun, hr⟩ := lineLoop_spec p header content offset hb bound ⟨s, 0, 0, []⟩ hb
      (Nat.lt_of_lt_of_le (by decide) hb)
    rw [hrun, Option.bind_some]
    cases r with
    | error s' => exact ⟨_, rfl, Left.progressed hr⟩
    | ok c =>
      dsimp only
      obtain ⟨es, hes, hlaid⟩ := hr.hosts
      dsimp only at hes
      by_cases hl : c.lines = 0
      · obtain ⟨hpre, h0⟩ := hr.last hl (show 0 < buffSize - 1 by decide)
        have hi : c.i = 0 := hr.stay hl
        rw [if_pos hl, hi]
        rw [hi] at hlaid
        obtain ⟨hpass, es', hes', hlaid', -⟩ := addLen_spec p header hpre h0 c.progress
        generalize addLen p header (offset + 0) c.len c.progress = r at hpass hes' ⊢
        obtain ⟨ok, s'⟩ := r
        have hleft : Left content offset s s' := by
          refine ⟨hpass.trans hr.passes, es ++ es', _, ?_, hlaid.append hlaid'⟩
          rw [hes', hes, List.append_assoc]
        cases ok with
        | false => exact ⟨_, rfl, hleft.progressed⟩
        | true => exact ⟨_, rfl, hleft.progressed⟩
      · rw [if_neg hl]
        have hadv := hr.advance
        have hwithin := hr.within hl
        have hlen : (window content offset).length ≤ content.length - offset := by
          rw [window, List.length_take, List.length_drop]
          exact Nat.min_le_right _ _
        dsimp only at hadv
        rw [buffSize] at hsize
        have hnext : (offset + c.i) % 2 ^ 32 = offset + c.i := Nat.mod_eq_of_lt (by omega)
        rw [hnext]
        obtain ⟨r, hrest, hp⟩ := ih (call + 1) (offset + c.i)
          { c.progress with passes := c.progress.passes ++ [(offset, offset + c.i)] } (by omega)
          (by omega)
        obtain ⟨ps, hps, hall⟩ := hp.passes
        obtain ⟨es', hi, hes', hlaid'⟩ := hp.hosts
        refine ⟨r, hrest, ⟨(offset, offset + c.i) :: ps, ?_, ?_⟩, es ++ es', hi, ?_,
          hlaid.append hlaid'⟩
        · rw [hps, hr.passes, List.append_assoc]
          rfl
        · refine List.forall_mem_cons.mpr ⟨?_, hall⟩
          dsimp only
          omega
        · rw [hes', hes, List.append_assoc]

/-! ## Where `len` is long enough -/

/-- What both loops over the lines of a chunk come to. -/
def SameLines (i lines : Nat) :
    Except Stop Chunk → Option (Except Progress LineState) → Prop
  | .error .overrun, _ => True
  | .error (.noMemory a'), o => ∃ s', o = some (.error s') ∧ s'.adf = a'
  | .ok c, o => ∃ c', o = some (.ok c') ∧ c'.progress.adf = c.adf ∧ c'.i = c.pos ∧
      c'.lines = c.lines ∧ lines ≤ c.lines ∧
      (c.lines = lines → i < buffSize - 1 → c'.len = c.len)

/-- `loadLines` without an overrun. -/
theorem lineLoop_sameLines (p : Allocator Ptr) (header : Ptr) {buff : Mem}
    (hnul : buff (buffSize - 1) = 0) (offset : Nat) (hb : buffSize ≤ bound) (m : Nat) :
    ∀ (n : Nat) (s : LineState), buffSize ≤ n + s.i → 0 < n → buffSize ≤ m + s.i →
      SameLines s.i s.lines (loadLines p header buff m s.i s.lines s.progress.adf)
        (lineLoop p header buff offset bound n s) := by
  induction m with
  | zero =>
    intro n s _ hn hm
    obtain ⟨n, rfl⟩ := Nat.exists_eq_add_one.mpr hn
    have hi : ¬ s.i < buffSize - 1 := by
      rw [buffSize] at hm ⊢
      omega
    rw [lineLoop, if_neg hi]
    exact ⟨s, rfl, rfl, rfl, rfl, Nat.le_refl _, fun _ h => absurd h hi⟩
  | succ m ih =>
    intro n s hn h0 hm
    obtain ⟨n, rfl⟩ := Nat.exists_eq_add_one.mpr h0
    rw [lineLoop, loadLines]
    by_cases hi : s.i < buffSize - 1
    · rw [if_pos hi, if_neg (Nat.not_le.mpr hi), copyLine_eq hnul bound [] (by omega) (by omega),
        Option.bind_some]
      dsimp only
      rw [Nat.add_zero, List.nil_append, Nat.zero_add]
      generalize scanLine buff (buffSize - s.i) s.i = line
      by_cases hlong : adfHostMaxLen < line.1.length
      · rw [if_pos hlong]
        trivial
      rw [if_neg hlong]
      cases hend : line.2 with
      | false =>
        rw [if_pos rfl, if_neg Bool.false_ne_true, if_pos rfl]
        exact ⟨_, rfl, rfl, rfl, rfl, Nat.le_refl _, fun _ _ => rfl⟩
      | true =>
        rw [if_pos rfl, if_neg (by decide), if_neg (Nat.succ_ne_zero _)]
        unfold addLen
        dsimp only
        cases addHostList p s.progress.adf header (textMem line.1)
          (strnlen (textMem line.1) adfHostMaxLen) with
        | mk ok a' =>
          cases ok with
          | false => exact ⟨_, rfl, rfl⟩
          | true =>
            dsimp only
            have hnext := ih n ⟨⟨a', s.progress.hosts ++ [⟨offset + s.i, bytes (textMem line.1)
              (strnlen (textMem line.1) adfHostMaxLen)⟩], s.progress.passes⟩,
              s.i + (line.1.length + 2), s.lines + 1, line.1⟩
              (by dsimp only; omega) (by rw [buffSize] at hi hn; omega) (by dsimp only; omega)
            dsimp only at hnext
            revert hnext
            generalize loadLines p header buff m (s.i + (line.1.length + 2)) (s.lines + 1) a' = l
            intro hnext
            cases l with
            | error e =>
              cases e with
              | overrun => trivial
              | noMemory a'' => exact hnext
            | ok c =>
              obtain ⟨c', hc', hadf, hpos, hlines, hle, -⟩ := hnext
              refine ⟨c', hc', hadf, hpos, hlines, Nat.le_of_succ_le hle, fun h => ?_⟩
              exact absurd h (Nat.ne_of_gt hle)
    · rw [if_neg hi, if_pos (Nat.le_of_not_lt hi)]
      exact ⟨s, rfl, rfl, rfl, rfl, Nat.le_refl _, fun _ h => absurd h hi⟩

/-- `loadChunks` without an overrun. -/
theorem outerLoop_of_loadChunks {read : Reader} (hb : buffSize ≤ bound) {status : NtStatus}
    {closed : Bool} {a' : Adf} (n : Nat) :
    ∀ {call offset : Nat} (s : Progress),
      loadChunks p header read n call offset s.adf = some (.returned status closed a') →
        ∃ s', outerLoop p header read bound n call offset s = some ⟨status, closed, s'⟩ ∧
          s'.adf = a' := by
  induction n with
  | zero =>
    intro call offset s hload
    simp [loadChunks] at hload
  | succ n ih =>
    intro call offset s hload
    rw [loadChunks] at hload
    rw [outerLoop]
    cases hread : read call offset with
    | error e =>
      rw [hread] at hload
      obtain ⟨rfl, rfl, rfl⟩ := LoadResult.returned.inj (Option.some.inj hload)
      exact ⟨s, rfl, rfl⟩
    | ok data =>
      rw [hread] at hload
      dsimp only at hload ⊢
      have hnul : chunk data (buffSize - 1) = 0 := if_neg (Nat.lt_irrefl _)
      have hsame := lineLoop_sameLines p header hnul offset hb buffSize bound ⟨s, 0, 0, []⟩ hb
        (Nat.lt_of_lt_of_le (by decide) hb) (Nat.le_refl _)
      dsimp only at hsame
      revert hload hsame
      generalize loadLines p header (chunk data) buffSize 0 0 s.adf = l
      intro hload hsame
      cases l with
      | error e =>
        cases e with
        | overrun => simp at hload
        | noMemory a₁ =>
          obtain ⟨s', hs', hadf⟩ := hsame
          obtain ⟨rfl, rfl, rfl⟩ := LoadResult.returned.inj (Option.some.inj hload)
          rw [hs', Option.bind_some]
          exact ⟨s', rfl, hadf⟩
      | ok c =>
        obtain ⟨c', hc', hadf, hpos, hlines, -, hlen⟩ := hsame
        rw [hc', Option.bind_some]
        dsimp only at hload ⊢
        rw [hlines]
        by_cases hl : c.lines = 0
        · rw [if_pos hl] at hload ⊢
          rw [hlen hl (by decide)]
          unfold addLen
          dsimp only
          rw [hadf]
          revert hload
          cases addHostList p c.adf header (textMem c.len)
            (strnlen (textMem c.len) adfHostMaxLen) with
          | mk ok a₁ =>
            intro hload
            cases ok <;> obtain ⟨rfl, rfl, rfl⟩ := LoadResult.returned.inj (Option.some.inj hload)
            · exact ⟨_, rfl, rfl⟩
            · exact ⟨_, rfl, rfl⟩
        · rw [if_neg hl] at hload ⊢
          rw [hpos]
          refine ih _ ?_
          dsimp only
          rw [hadf]
          exact hload

/-- A load that does not overrun `len` is one of these. -/
theorem loadLoops_of_loadChunks {read : Reader} (hb : buffSize ≤ bound) {a a' : Adf}
    {status : NtStatus} {closed : Bool}
    (h : loadChunks p header read bound 0 0 a = some (.returned status closed a')) :
    ∃ s', loadLoops p header read bound a = some ⟨status, closed, s'⟩ ∧ s'.adf = a' :=
  outerLoop_of_loadChunks hb bound ⟨a, [], []⟩ h

/-! ## The list -/

/-- The hosts that are written down are those at the end of the list. -/
def Recorded (b : Blocklist) (list : AdHost) (s : Progress) : Prop :=
  Appended s.adf b list (s.hosts.map Excerpt.text)

section Recorded

variable {b : Blocklist} {list : AdHost}

theorem addLen_recorded {s : Progress} (h : Recorded b list s) (start : Nat) (len : List UInt8) :
    Recorded b list (addLen p (.head list) start len s).2 := by
  obtain ⟨hs, hmap, hab⟩ := h
  obtain ⟨hok, hadd⟩ := hab.add (fun _ _ => false) p list (bytes_cut (textMem len))
  unfold addLen
  dsimp only
  cases hcall : addHostList p s.adf (.head list) (textMem len)
    (strnlen (textMem len) adfHostMaxLen) with
  | mk ok a' =>
    rw [hcall] at hok hadd
    rw [← hok] at hadd
    cases ok with
    | false => exact ⟨hs, hmap, hadd⟩
    | true =>
      refine ⟨hs ++ [cut (textMem len)], ?_, ?_⟩
      · rw [List.map_append, List.map_append, hmap]
        rfl
      · rw [← List.append_assoc]
        simpa [Blocklist.step, Blocklist.setHosts] using hadd

theorem lineLoop_recorded {buff : Mem} {offset : Nat} (n : Nat) :
    ∀ {s : LineState} {r : Except Progress LineState}, Recorded b list s.progress →
      lineLoop p (.head list) buff offset bound n s = some r →
        match r with
        | .error s' => Recorded b list s'
        | .ok c => Recorded b list c.progress := by
  induction n with
  | zero => exact fun _ h => nomatch h
  | succ n ih =>
    intro s r hs hrun
    rw [lineLoop] at hrun
    by_cases hi : s.i < buffSize - 1
    · rw [if_pos hi] at hrun
      obtain ⟨⟨len, lastLineOffset⟩, -, hrun⟩ := Option.bind_eq_some_iff.mp hrun
      dsimp only at hrun
      by_cases hl : lastLineOffset = 0
      · rw [if_pos hl] at hrun
        obtain rfl := Option.some.inj hrun
        exact hs
      · rw [if_neg hl] at hrun
        have hadd := addLen_recorded (p := p) hs (offset + s.i) len
        generalize addLen p (.head list) (offset + s.i) len s.progress = added at hrun hadd
        obtain ⟨ok, progress⟩ := added
        cases ok with
        | false =>
          obtain rfl := Option.some.inj hrun
          exact hadd
        | true => exact ih hadd hrun
    · rw [if_neg hi] at hrun
      obtain rfl := Option.some.inj hrun
      exact hs

theorem outerLoop_recorded {read : Reader} (n : Nat) :
    ∀ {call offset : Nat} {s : Progress} {r : Finished}, Recorded b list s →
      outerLoop p (.head list) read bound n call offset s = some r → Recorded b list r.progress := by
  induction n with
  | zero => exact fun _ h => nomatch h
  | succ n ih =>
    intro call offset s r hs hrun
    rw [outerLoop] at hrun
    cases hread : read call offset with
    | error status =>
      rw [hread] at hrun
      obtain rfl := Option.some.inj hrun
      exact hs
    | ok data =>
      rw [hread] at hrun
      obtain ⟨c, hlines, hrun⟩ := Option.bind_eq_some_iff.mp hrun
      have hc := lineLoop_recorded bound hs hlines
      cases c with
      | error s' =>
        obtain rfl := Option.some.inj hrun
        exact hc
      | ok c =>
        dsimp only at hrun hc
        by_cases hl : c.lines = 0
        · rw [if_pos hl] at hrun
          have hadd := addLen_recorded (p := p) hc (offset + c.i) c.len
          generalize addLen p (.head list) (offset + c.i) c.len c.progress = added at hrun hadd
          obtain ⟨ok, s'⟩ := added
          cases ok <;> obtain rfl := Option.some.inj hrun <;> exact hadd
        · rw [if_neg hl] at hrun
          refine ih ?_ hrun
          exact hc

/-- A list that is loaded ends in the hosts that are written down. -/
theorem loadLoops_recorded {a : Adf} {read : Reader} {r : Finished} (hab : Abstracts a b)
    (hrun : loadLoops p (.head list) read bound a = some r) :
    Appended r.progress.adf b list (r.progress.hosts.map Excerpt.text) :=
  outerLoop_recorded bound (s := ⟨a, [], []⟩) (appended_nil hab) hrun

end Recorded

/-! ## The result -/

/-- A load ends: its offset moves on by two at least, and no byte of the file is in more
than one host. -/
theorem loadLoops_progress (p : Allocator Ptr) (header : Ptr) (a : Adf)
    (hsize : content.length < 2 ^ 32 - buffSize) (hb : content.length + buffSize ≤ bound) :
    ∃ r, loadLoops p header (fileReader content) bound a = some r ∧
      (∀ pass ∈ r.progress.passes, pass.1 + 2 ≤ pass.2) ∧
      (∀ e ∈ r.progress.hosts, e.text <+: content.drop e.start) ∧
      r.progress.hosts.Pairwise fun e e' => ∀ k, e.Has k → ¬ e'.Has k := by
  rw [buffSize] at hb
  obtain ⟨r, hrun, hp⟩ := outerLoop_spec p header hsize
    (show buffSize ≤ bound by rw [buffSize]; omega) bound 0 0 ⟨a, [], []⟩ (by omega) (by omega)
  obtain ⟨ps, hps, hall⟩ := hp.passes
  obtain ⟨es, hi, hes, hlaid⟩ := hp.hosts
  rw [List.nil_append] at hps hes
  refine ⟨r, hrun, ?_, ?_, ?_⟩
  · rw [hps]
    exact hall
  · rw [hes]
    exact hlaid.text
  · rw [hes]
    exact hlaid.disjoint

/-- A line, and one without an end. -/
theorem loadLoops_progress_twoLines :
    ∃ r, loadLoops bumpAllocator (.head .sys) (fileReader [97, 13, 10, 98]) 260 blankAdf = some r ∧
      (∀ pass ∈ r.progress.passes, pass.1 + 2 ≤ pass.2) ∧
      (∀ e ∈ r.progress.hosts, e.text <+: [97, 13, 10, 98].drop e.start) ∧
      r.progress.hosts.Pairwise fun e e' => ∀ k, e.Has k → ¬ e'.Has k :=
  loadLoops_progress bumpAllocator (.head .sys) blankAdf (by decide) (by decide)

end AdFilter.Driver.LoadProgress
