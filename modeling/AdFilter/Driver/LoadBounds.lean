import AdFilter.Driver.Windows

/-!
# What loading a file touches on the stack

The accesses of `load_file` to `buff` and `len`, loop by loop. The copy loop is
stopped by a CR or a NUL in `buff` only, so the lines of the file decide whether it
stays in `len`.
-/

namespace AdFilter.Driver.LoadBounds

open AdFilter.Nt
open AdFilter.Lib.Pool
open AdFilter.Driver.HostList
open AdFilter.Driver.Represent
open AdFilter.Driver.LoadFile
open AdFilter.Driver.FileLines
open AdFilter.Driver.Windows

/-- The size of `len`. -/
def lenSize : Nat := 128

inductive Access
  | readBuff (i : Nat)
  | writeBuff (i : Nat)
  | readLen (j : Nat)
  | writeLen (j : Nat)
deriving DecidableEq, Repr

def Access.InRange : Access → Prop
  | .readBuff i => i < buffSize
  | .writeBuff i => i < buffSize
  | .readLen j => j < lenSize
  | .writeLen j => j < lenSize

def AllInRange (accesses : List Access) : Prop := ∀ x ∈ accesses, x.InRange

/-- The copy loop of a line from `i` on, at its round `j`. -/
def copyLoop (buff : Mem) (i : Nat) : Nat → Nat → List Access
  | 0, _ => []
  | n + 1, j =>
      .readBuff (i + j) ::
        if buff (i + j) = cr then []
        else .readBuff (i + j) ::
          if buff (i + j) = 0 then []
          else .readBuff (i + j) :: .writeLen j :: copyLoop buff i n (j + 1)

/-- `strnlen` and `addHostList` on a line in `len`. The text is copied when both
blocks have been granted, and a debug build prints it in any case. -/
def useLen (dbg granted : Bool) (text : List UInt8) : List Access :=
  let l := strnlen (textMem text) adfHostMaxLen
  (List.range (min (l + 1) adfHostMaxLen)).map .readLen ++
    (if granted then (List.range l).map .readLen else []) ++
    (if dbg then (List.range (text.length + 1)).map .readLen else [])

/-- `loadLines`. More rounds of the copy loop than `buff` has bytes. -/
def lineAccesses (dbg : Bool) (p : Allocator Ptr) (header : Ptr) (buff : Mem) :
    Nat → Nat → Adf → List Access
  | 0, _, _ => []
  | n + 1, i, a =>
      if buffSize - 1 ≤ i then []
      else
        let r := scanLine buff (buffSize - i) i
        (List.range lenSize).map .writeLen ++ copyLoop buff i (buffSize + 1) 0 ++
          if adfHostMaxLen < r.1.length ∨ r.2 = false then []
          else
            match addHostList p a header (textMem r.1) (strnlen (textMem r.1) adfHostMaxLen) with
            | (false, _) => useLen dbg false r.1
            | (true, a') =>
                useLen dbg true r.1 ++
                  lineAccesses dbg p header buff n (i + (r.1.length + 2)) a'

/-- What `ZwReadFile` stores. -/
def readAccesses (data : Except NtStatus (List UInt8)) : List Access :=
  match data with
  | .error _ => []
  | .ok data => (List.range data.length).map .writeBuff

/-- `loadChunks`. -/
def chunkAccesses (dbg : Bool) (p : Allocator Ptr) (header : Ptr) (read : Reader) :
    Nat → Nat → Nat → Adf → List Access
  | 0, _, _, _ => []
  | n + 1, call, offset, a =>
      (List.range buffSize).map .writeBuff ++ readAccesses (read call offset) ++
        match read call offset with
        | .error _ => []
        | .ok data =>
            .writeBuff (buffSize - 1) :: lineAccesses dbg p header (chunk data) buffSize 0 a ++
              match loadLines p header (chunk data) buffSize 0 0 a with
              | .error _ => []
              | .ok c =>
                  if c.lines = 0 then
                    readAccesses (read (call + 1) offset) ++
                      useLen dbg (addHostList p c.adf header (textMem c.len)
                        (strnlen (textMem c.len) adfHostMaxLen)).1 c.len
                  else
                    chunkAccesses dbg p header read n (call + 1) ((offset + c.pos) % 2 ^ 32) c.adf

/-- `load_file`. -/
def fileAccesses (dbg : Bool) (p : Allocator Ptr) (fuel : Nat) (a : Adf) (passive : Bool)
    (file : Except NtStatus Reader) (header : Ptr) : List Access :=
  if passive = false then []
  else
    match file with
    | .error _ => []
    | .ok read => chunkAccesses dbg p header read fuel 0 0 a

/-! ## Lists of accesses -/

@[simp] theorem allInRange_nil : AllInRange [] := fun _ h => absurd h List.not_mem_nil

@[simp] theorem allInRange_cons (x : Access) (xs : List Access) :
    AllInRange (x :: xs) ↔ x.InRange ∧ AllInRange xs := List.forall_mem_cons

@[simp] theorem allInRange_append (xs ys : List Access) :
    AllInRange (xs ++ ys) ↔ AllInRange xs ∧ AllInRange ys := List.forall_mem_append

theorem allInRange_range {f : Nat → Access} {bound : Nat} (hf : ∀ j, (f j).InRange ↔ j < bound)
    (n : Nat) : AllInRange ((List.range n).map f) ↔ n ≤ bound := by
  constructor
  · intro h
    by_contra hn
    have hlt := h (f bound) (List.mem_map_of_mem (List.mem_range.mpr (by omega)))
    exact absurd ((hf bound).mp hlt) (Nat.lt_irrefl bound)
  · intro hn x hx
    obtain ⟨j, hj, rfl⟩ := List.mem_map.mp hx
    exact (hf j).mpr (Nat.lt_of_lt_of_le (List.mem_range.mp hj) hn)

@[simp] theorem allInRange_readLen (n : Nat) :
    AllInRange ((List.range n).map .readLen) ↔ n ≤ lenSize := allInRange_range (fun _ => Iff.rfl) n

@[simp] theorem allInRange_writeLen (n : Nat) :
    AllInRange ((List.range n).map .writeLen) ↔ n ≤ lenSize := allInRange_range (fun _ => Iff.rfl) n

@[simp] theorem allInRange_writeBuff (n : Nat) :
    AllInRange ((List.range n).map .writeBuff) ↔ n ≤ buffSize :=
  allInRange_range (fun _ => Iff.rfl) n

/-! ## One line -/

/-- A place in `buff`: at the end of the text, or at a byte of it. -/
theorem textMem_drop (w : List UInt8) (k : Nat) :
    (w.drop k = [] ∧ textMem w k = 0) ∨ w.drop k = textMem w k :: w.drop (k + 1) := by
  by_cases hk : k < w.length
  · right
    have hget : textMem w k = w[k] := by
      rw [textMem, List.getD_eq_getElem?_getD, List.getElem?_eq_getElem hk, Option.getD_some]
    rw [hget]
    exact List.drop_eq_getElem_cons hk
  · left
    have hle := Nat.le_of_not_lt hk
    refine ⟨List.drop_eq_nil_iff.mpr hle, ?_⟩
    rw [textMem, List.getD_eq_getElem?_getD, List.getElem?_eq_none hle, Option.getD_none]

theorem scanLine_window {w : List UInt8} {n i : Nat} (hn : w.length < n + i) :
    scanLine (textMem w) n i = (lineOf (w.drop i), decide (Ended (w.drop i))) := by
  induction n generalizing i with
  | zero =>
    rw [List.drop_eq_nil_iff.mpr (by omega)]
    rfl
  | succ n ih =>
    rw [scanLine]
    rcases textMem_drop w i with ⟨hnil, h0⟩ | hcons
    · rw [hnil, h0]
      rfl
    · rw [hcons]
      by_cases h1 : textMem w i = cr
      · rw [if_pos h1, h1]
        rfl
      rw [if_neg h1]
      by_cases h2 : textMem w i = 0
      · rw [if_pos h2, h2]
        rfl
      have hend : isEnd (textMem w i) = false := by simp [isEnd, h1, h2]
      rw [if_neg h2, ih (by omega), lineOf_cons, hend]
      simp only [ended_cons hend]
      rfl

/-- The reads of the copy loop stop at the end of the text, and its writes go as far
as the line. -/
theorem copyLoop_inRange {w : List UInt8} (hw : w.length < buffSize) {i n j : Nat}
    (hn : w.length < n + (i + j)) (hi : i + j < buffSize) (hj : j ≤ lenSize) :
    AllInRange (copyLoop (textMem w) i n j) ↔ j + (lineOf (w.drop (i + j))).length ≤ lenSize := by
  induction n generalizing j with
  | zero =>
    rw [List.drop_eq_nil_iff.mpr (by omega)]
    simpa [copyLoop, lineOf] using hj
  | succ n ih =>
    rw [copyLoop, allInRange_cons, and_iff_right (show Access.InRange (.readBuff (i + j)) from hi)]
    have hstop : j + ([] : List UInt8).length ≤ lenSize := hj
    rcases textMem_drop w (i + j) with ⟨hnil, h0⟩ | hcons
    · rw [hnil, h0, if_neg (by decide), if_pos rfl]
      simp only [allInRange_cons, allInRange_nil, and_true]
      exact iff_of_true hi hstop
    · have hlt : i + j < w.length := by
        have h := congrArg List.length hcons
        rw [List.length_drop, List.length_cons] at h
        omega
      rw [hcons, lineOf_cons]
      by_cases h1 : textMem w (i + j) = cr
      · rw [if_pos h1, h1]
        exact iff_of_true allInRange_nil hstop
      by_cases h2 : textMem w (i + j) = 0
      · rw [if_neg h1, if_pos h2, h2]
        simp only [allInRange_cons, allInRange_nil, and_true]
        exact iff_of_true hi hstop
      have hend : isEnd (textMem w (i + j)) = false := by simp [isEnd, h1, h2]
      rw [if_neg h1, if_neg h2, hend]
      simp only [allInRange_cons, List.length_cons, Bool.false_eq_true, if_false]
      rw [and_iff_right (show Access.InRange (.readBuff (i + j)) from hi),
        and_iff_right (show Access.InRange (.readBuff (i + j)) from hi)]
      by_cases hfull : j = lenSize
      · -- the first byte with no room
        refine iff_of_false (fun h => absurd h.1 ?_) (by omega)
        exact Nat.not_lt.mpr (Nat.le_of_eq hfull.symm)
      · have hwrite : Access.InRange (.writeLen j) := Nat.lt_of_le_of_ne hj hfull
        rw [and_iff_right hwrite, ih (by omega) (by omega) (by omega), Nat.add_assoc j 1,
          Nat.add_comm 1]
        rfl

/-- What is done with a line that is in `len`. -/
theorem useLen_inRange {text : List UInt8} (h0 : 0 ∉ text) (hl : text.length ≤ adfHostMaxLen)
    (dbg granted : Bool) : AllInRange (useLen dbg granted text) ↔ text.length ≤ lineLimit dbg := by
  have hmin : min (text.length + 1) adfHostMaxLen ≤ lenSize := Nat.min_le_right _ _
  rw [useLen, strnlen_textMem h0 hl, allInRange_append, allInRange_append, allInRange_readLen,
    and_assoc, and_iff_right hmin]
  have hcopy : AllInRange (if granted = true then (List.range text.length).map .readLen else []) := by
    cases granted with
    | false => exact allInRange_nil
    | true => exact (allInRange_readLen _).mpr hl
  rw [and_iff_right hcopy]
  cases dbg with
  | false => exact iff_of_true allInRange_nil hl
  | true => exact (allInRange_readLen _).trans Nat.succ_le_succ_iff

/-! ## One window -/

/-- Every request to the pool is granted. -/
def AlwaysGrants (p : Allocator Ptr) : Prop := ∀ k, p.grants k = true

theorem AlwaysGrants.granted {p : Allocator Ptr} (h : AlwaysGrants p) (a : Adf) :
    granted p a = true := Bool.and_eq_true_iff.mpr ⟨h _, h _⟩

theorem addHostList_fst (p : Allocator Ptr) (a : Adf) (header : Ptr) (src : Mem) (len : Nat) :
    (addHostList p a header src len).1 = granted p a := by
  cases hg : granted p a with
  | false =>
    obtain ⟨n, hn⟩ := newHostList_denied hg src len
    rw [addHostList, hn]
  | true =>
    obtain ⟨c, b, -, -, -, -, hn⟩ := newHostList_granted hg src len
    rw [addHostList, hn]

/-- The lines of a text have room in `len`, the part after them without its use. -/
def LinesFit (dbg : Bool) (text : List UInt8) : Prop :=
  (∀ l ∈ (splitText text).1, l.length ≤ lineLimit dbg) ∧ (splitText text).2.length ≤ adfHostMaxLen

theorem linesFit_ended {text : List UInt8} (h : Ended text) (dbg : Bool) :
    LinesFit dbg text ↔ (lineOf text).length ≤ lineLimit dbg ∧
      LinesFit dbg (text.drop ((lineOf text).length + 2)) := by
  rw [LinesFit, LinesFit, splitText_ended h, List.forall_mem_cons, and_assoc]

theorem linesFit_part {text : List UInt8} (h : ¬ Ended text) (dbg : Bool) :
    LinesFit dbg text ↔ (lineOf text).length ≤ adfHostMaxLen := by
  rw [LinesFit, splitText_part h]
  exact and_iff_right fun l hl => absurd hl List.not_mem_nil

theorem LinesFit.free {dbg : Bool} {text : List UInt8} (h : LinesFit dbg text) :
    LinesFit false text :=
  ⟨fun l hl => Nat.le_trans (h.1 l hl) (lineLimit_le dbg), h.2⟩

section Window

variable (p : Allocator Ptr) (header : Ptr)

/-- What the loop over a window leaves. -/
theorem loadLines_window {w : List UInt8} (hw : w.length < buffSize) (n : Nat) :
    ∀ (i lines : Nat) (a : Adf), buffSize ≤ n + i →
      match loadLines p header (textMem w) n i lines a with
      | .error .overrun => ¬ LinesFit false (w.drop i)
      | .error (.noMemory _) => ¬ AlwaysGrants p
      | .ok c => c.pos = i + size (splitText (w.drop i)).1 ∧
          c.lines = lines + (splitText (w.drop i)).1.length ∧
          c.len = (splitText (w.drop i)).2 ∧ c.len.length ≤ adfHostMaxLen := by
  induction n with
  | zero =>
    intro i lines a hn
    rw [List.drop_eq_nil_iff.mpr (by omega), splitText_nil]
    exact ⟨rfl, rfl, rfl, Nat.zero_le _⟩
  | succ n ih =>
    intro i lines a hn
    rw [loadLines]
    by_cases hi : buffSize - 1 ≤ i
    · rw [if_pos hi, List.drop_eq_nil_iff.mpr (by omega), splitText_nil]
      exact ⟨rfl, rfl, rfl, Nat.zero_le _⟩
    have hlim : lineLimit false = adfHostMaxLen := rfl
    rw [if_neg hi, scanLine_window (by omega)]
    generalize htext : w.drop i = text
    dsimp only
    by_cases hend : Ended text
    · have hdrop : text.drop ((lineOf text).length + 2) =
          w.drop (i + ((lineOf text).length + 2)) := by
        rw [← htext, List.drop_drop]
      rw [linesFit_ended hend, splitText_ended hend, decide_eq_true hend, hlim, hdrop]
      by_cases hlong : adfHostMaxLen < (lineOf text).length
      · rw [if_pos hlong]
        exact fun h => absurd h.1 (by omega)
      rw [if_neg hlong, if_neg (by decide)]
      have hadd := addHostList_fst p a header (textMem (lineOf text))
        (strnlen (textMem (lineOf text)) adfHostMaxLen)
      revert hadd
      cases addHostList p a header (textMem (lineOf text))
        (strnlen (textMem (lineOf text)) adfHostMaxLen) with
      | mk ok a' =>
        intro hadd
        cases ok with
        | false => exact fun hg => absurd (hadd.trans (hg.granted a)) Bool.false_ne_true
        | true =>
          have hnext := ih (i + ((lineOf text).length + 2)) (lines + 1) a' (by omega)
          revert hnext
          dsimp only
          cases loadLines p header (textMem w) n (i + ((lineOf text).length + 2)) (lines + 1) a' with
          | error e =>
            cases e with
            | overrun => exact fun hn h => hn h.2
            | noMemory a'' => exact id
          | ok c =>
            rintro ⟨hpos, hlines, hlen⟩
            refine ⟨?_, ?_, hlen⟩
            · rw [hpos, size_cons]
              omega
            · rw [hlines, List.length_cons]
              omega
    · rw [linesFit_part hend, splitText_part hend, decide_eq_false hend]
      by_cases hlong : adfHostMaxLen < (lineOf text).length
      · rw [if_pos hlong]
        exact Nat.not_le.mpr hlong
      · rw [if_neg hlong, if_pos rfl]
        exact ⟨rfl, rfl, rfl, Nat.le_of_not_lt hlong⟩

/-- The accesses of the loop over a window are in range when its lines fit, and for
an allocator that always grants only then. -/
theorem lineAccesses_inRange {w : List UInt8} (hw : w.length < buffSize) (dbg : Bool) (n : Nat) :
    ∀ (i : Nat) (a : Adf), buffSize ≤ n + i →
      (LinesFit dbg (w.drop i) → AllInRange (lineAccesses dbg p header (textMem w) n i a)) ∧
        (AlwaysGrants p → AllInRange (lineAccesses dbg p header (textMem w) n i a) →
          LinesFit dbg (w.drop i)) := by
  have hnil : LinesFit dbg [] := by
    rw [linesFit_part (by decide)]
    exact Nat.zero_le _
  induction n with
  | zero =>
    intro i a hn
    rw [List.drop_eq_nil_iff.mpr (by omega)]
    exact ⟨fun _ => allInRange_nil, fun _ _ => hnil⟩
  | succ n ih =>
    intro i a hn
    rw [lineAccesses]
    by_cases hi : buffSize - 1 ≤ i
    · rw [if_pos hi, List.drop_eq_nil_iff.mpr (by omega)]
      exact ⟨fun _ => allInRange_nil, fun _ _ => hnil⟩
    have hcopy := copyLoop_inRange hw (i := i) (n := buffSize + 1) (j := 0) (by omega) (by omega)
      (Nat.zero_le _)
    rw [Nat.add_zero, Nat.zero_add] at hcopy
    rw [if_neg hi, scanLine_window (by omega)]
    dsimp only
    rw [allInRange_append, allInRange_append, allInRange_writeLen, hcopy,
      and_iff_right (Nat.le_refl lenSize)]
    generalize htext : w.drop i = text
    by_cases hend : Ended text
    · have hdrop : text.drop ((lineOf text).length + 2) =
          w.drop (i + ((lineOf text).length + 2)) := by
        rw [← htext, List.drop_drop]
      have hlim := lineLimit_le dbg
      rw [linesFit_ended hend, decide_eq_true hend, hdrop]
      by_cases hlong : adfHostMaxLen < (lineOf text).length
      · rw [if_pos (Or.inl hlong)]
        exact ⟨fun h => absurd h.1 (by omega), fun _ h => absurd h.1 (Nat.not_le.mpr hlong)⟩
      have hshort := Nat.le_of_not_lt hlong
      have huse := useLen_inRange (lineOf_noNul text) hshort dbg
      rw [if_neg (by simp [hlong])]
      have hadd := addHostList_fst p a header (textMem (lineOf text))
        (strnlen (textMem (lineOf text)) adfHostMaxLen)
      revert hadd
      cases addHostList p a header (textMem (lineOf text))
        (strnlen (textMem (lineOf text)) adfHostMaxLen) with
      | mk ok a' =>
        intro hadd
        cases ok with
        | false =>
          dsimp only
          rw [huse]
          refine ⟨fun h => ⟨hshort, h.1⟩, fun hg => ?_⟩
          exact absurd (hadd.trans (hg.granted a)) Bool.false_ne_true
        | true =>
          obtain ⟨hfit, hrange⟩ := ih (i + ((lineOf text).length + 2)) a' (by omega)
          dsimp only
          rw [allInRange_append, huse]
          exact ⟨fun h => ⟨hshort, h.1, hfit h.2⟩, fun hg h => ⟨h.2.1, hrange hg h.2.2⟩⟩
    · rw [linesFit_part hend, decide_eq_false hend, if_pos (Or.inr rfl)]
      exact ⟨fun h => ⟨h, allInRange_nil⟩, fun _ h => h.1⟩

/-- In a free build the loop over a window overruns `len` just when it has no outcome
in the model but the overrun. -/
theorem lineAccesses_free {w : List UInt8} (hw : w.length < buffSize) (n : Nat) :
    ∀ (i lines : Nat) (a : Adf), buffSize ≤ n + i →
      (AllInRange (lineAccesses false p header (textMem w) n i a) ↔
        loadLines p header (textMem w) n i lines a ≠ .error .overrun) := by
  induction n with
  | zero => exact fun i lines a _ => iff_of_true allInRange_nil (by simp [loadLines])
  | succ n ih =>
    intro i lines a hn
    rw [lineAccesses, loadLines]
    by_cases hi : buffSize - 1 ≤ i
    · rw [if_pos hi, if_pos hi]
      exact iff_of_true allInRange_nil (by simp)
    have hcopy := copyLoop_inRange hw (i := i) (n := buffSize + 1) (j := 0) (by omega) (by omega)
      (Nat.zero_le _)
    rw [Nat.add_zero, Nat.zero_add] at hcopy
    rw [if_neg hi, if_neg hi, scanLine_window (by omega)]
    dsimp only
    rw [allInRange_append, allInRange_append, allInRange_writeLen, hcopy,
      and_iff_right (Nat.le_refl lenSize)]
    generalize w.drop i = text
    by_cases hlong : adfHostMaxLen < (lineOf text).length
    · rw [if_pos hlong]
      exact iff_of_false (fun h => absurd h.1 (Nat.not_le.mpr hlong)) (fun h => h rfl)
    have hshort := Nat.le_of_not_lt hlong
    rw [and_iff_right (show (lineOf text).length ≤ lenSize from hshort), if_neg hlong]
    by_cases hend : Ended text
    · have huse := useLen_inRange (lineOf_noNul text) hshort false
      rw [decide_eq_true hend, if_neg (by simp [hlong]), if_neg (by decide)]
      cases addHostList p a header (textMem (lineOf text))
        (strnlen (textMem (lineOf text)) adfHostMaxLen) with
      | mk ok a' =>
        cases ok with
        | false => exact iff_of_true ((huse false).mpr hshort) (by simp)
        | true =>
          dsimp only
          rw [allInRange_append, and_iff_right ((huse true).mpr hshort)]
          exact ih _ _ a' (by omega)
    · rw [decide_eq_false hend, if_pos (Or.inr rfl), if_pos rfl]
      exact iff_of_true allInRange_nil (by simp)

end Window

/-! ## The file -/

section File

variable {p : Allocator Ptr} {header : Ptr} {content : List UInt8} {dbg : Bool}

theorem window_length (content : List UInt8) (offset : Nat) :
    (window content offset).length < buffSize := by
  have h := List.length_take_le (buffSize - 1) (content.drop offset)
  rw [window]
  exact Nat.lt_of_le_of_lt h (by decide)

theorem chunk_eq_window (content : List UInt8) (offset : Nat) :
    chunk ((content.drop offset).take buffSize) = textMem (window content offset) := by
  funext i
  rw [chunk_apply, textMem, window, List.getD_eq_getElem?_getD, List.getD_eq_getElem?_getD]
  by_cases hi : i < 255
  · rw [if_pos hi, List.getElem?_take_of_lt (show i < buffSize - 1 from hi)]
  · rw [if_neg hi, List.getElem?_eq_none]
    · rfl
    · exact Nat.le_trans (List.length_take_le _ _) (Nat.le_of_not_lt hi)

/-- A round of the outer loop: beside its window, what is done with a part of a line
that stands alone, or the rounds after it. -/
theorem chunkAccesses_step {offset : Nat} (ho : offset < content.length) (n call : Nat) (a : Adf) :
    AllInRange (chunkAccesses dbg p header (fileReader content) (n + 1) call offset a) ↔
      AllInRange (lineAccesses dbg p header (textMem (window content offset)) buffSize 0 a) ∧
      match loadLines p header (textMem (window content offset)) buffSize 0 0 a with
      | .error _ => True
      | .ok c =>
          if c.lines = 0 then
            AllInRange (useLen dbg (addHostList p c.adf header (textMem c.len)
              (strnlen (textMem c.len) adfHostMaxLen)).1 c.len)
          else AllInRange (chunkAccesses dbg p header (fileReader content) n (call + 1)
            ((offset + c.pos) % 2 ^ 32) c.adf) := by
  have hread : ∀ k, fileReader content k offset = .ok ((content.drop offset).take buffSize) :=
    fun _ => if_neg (Nat.not_le.mpr ho)
  have hdata : AllInRange (readAccesses (.ok ((content.drop offset).take buffSize))) :=
    (allInRange_writeBuff _).mpr (List.length_take_le _ _)
  have hlast : Access.InRange (.writeBuff (buffSize - 1)) := Nat.sub_lt (by decide) (by decide)
  rw [chunkAccesses, hread, hread]
  dsimp only
  rw [chunk_eq_window, List.cons_append, allInRange_append, allInRange_append, allInRange_cons,
    allInRange_append, allInRange_writeBuff, and_iff_right (Nat.le_refl buffSize),
    and_iff_right hdata, and_iff_right hlast]
  cases loadLines p header (textMem (window content offset)) buffSize 0 0 a with
  | error e => exact and_congr_right fun _ => iff_of_true allInRange_nil trivial
  | ok c =>
    dsimp only
    by_cases hl : c.lines = 0
    · rw [if_pos hl, if_pos hl, allInRange_append, and_iff_right hdata]
    · rw [if_neg hl, if_neg hl]

/-- A read at the end of the file or behind it. -/
theorem chunkAccesses_end {offset : Nat} (ho : content.length ≤ offset) (n call : Nat) (a : Adf) :
    AllInRange (chunkAccesses dbg p header (fileReader content) n call offset a) := by
  cases n with
  | zero => exact allInRange_nil
  | succ n =>
    rw [chunkAccesses, fileReader, if_pos ho]
    simp [readAccesses]

/-- The overrun of the model is the access that is out of range in a free build. -/
theorem chunkAccesses_free (fuel : Nat) : ∀ (call offset : Nat) (a : Adf),
    AllInRange (chunkAccesses false p header (fileReader content) fuel call offset a) ↔
      loadChunks p header (fileReader content) fuel call offset a ≠ some .overrun := by
  induction fuel with
  | zero => exact fun _ _ _ => iff_of_true allInRange_nil (by simp [loadChunks])
  | succ n ih =>
    intro call offset a
    by_cases hend : content.length ≤ offset
    · refine iff_of_true (chunkAccesses_end hend _ _ _) ?_
      rw [loadChunks, fileReader, if_pos hend]
      simp
    have hw := window_length content offset
    have hlines := lineAccesses_free p header hw buffSize 0 0 a (Nat.le_refl _)
    have hload := loadLines_window p header hw buffSize 0 0 a (Nat.le_refl _)
    rw [chunkAccesses_step (Nat.lt_of_not_le hend), hlines, loadChunks, fileReader, if_neg hend]
    dsimp only
    rw [chunk_eq_window]
    revert hload
    cases loadLines p header (textMem (window content offset)) buffSize 0 0 a with
    | error e =>
      cases e with
      | overrun => exact fun _ => iff_of_false (fun h => h.1 rfl) (fun h => h rfl)
      | noMemory a' => exact fun _ => iff_of_true ⟨by simp, trivial⟩ (by simp)
    | ok c =>
      rintro ⟨-, -, hlen, hshort⟩
      dsimp only
      rw [and_iff_right (by simp)]
      by_cases hl : c.lines = 0
      · have h0 : 0 ∉ c.len := hlen ▸ splitText_noNul _
        rw [if_pos hl, if_pos hl]
        refine iff_of_true ((useLen_inRange h0 hshort _ _).mpr hshort) ?_
        cases addHostList p c.adf header (textMem c.len)
          (strnlen (textMem c.len) adfHostMaxLen) with
        | mk ok a' => cases ok <;> simp
      · rw [if_neg hl, if_neg hl]
        exact ih _ _ _

/-- Windows that fit keep every access in range. -/
theorem chunkAccesses_inRange
    (h : ∀ offset, ReadOffset content offset → WindowFits dbg (window content offset))
    (fuel : Nat) : ∀ (call : Nat) {offset : Nat} (a : Adf), ReadOffset content offset →
      AllInRange (chunkAccesses dbg p header (fileReader content) fuel call offset a) := by
  induction fuel with
  | zero => exact fun _ _ _ _ => allInRange_nil
  | succ n ih =>
    intro call offset a ho
    by_cases hend : content.length ≤ offset
    · exact chunkAccesses_end hend _ _ _
    have hfits := h offset ho
    have hw := window_length content offset
    have hlines := (lineAccesses_inRange p header hw dbg buffSize 0 a (Nat.le_refl _)).1
    have hload := loadLines_window p header hw buffSize 0 0 a (Nat.le_refl _)
    rw [List.drop_zero] at hlines hload
    rw [chunkAccesses_step (Nat.lt_of_not_le hend)]
    refine ⟨hlines ⟨hfits.whole, hfits.part⟩, ?_⟩
    revert hload
    cases loadLines p header (textMem (window content offset)) buffSize 0 0 a with
    | error e => exact fun _ => trivial
    | ok c =>
      rintro ⟨hpos, hcount, hlen, -⟩
      dsimp only
      rw [Nat.zero_add] at hpos hcount
      by_cases hl : c.lines = 0
      · have hnil := List.length_eq_zero_iff.mp (hcount.symm.trans hl)
        rw [if_pos hl, hlen, useLen_inRange (splitText_noNul _) hfits.part]
        exact hfits.alone hnil
      · rw [if_neg hl, hpos]
        refine ih (call + 1) c.adf (ReadOffset.next ho ?_)
        intro hnil
        rw [hnil] at hcount
        exact hl hcount

/-- For an allocator that always grants, a run that stays in range has read a window
that fits, and goes on behind its whole lines. -/
theorem windowFits_of_inRange (hg : AlwaysGrants p) {call offset : Nat} {a : Adf}
    (h : ∀ fuel, AllInRange (chunkAccesses dbg p header (fileReader content) fuel call offset a)) :
    WindowFits dbg (window content offset) ∧
      ((splitText (window content offset)).1 ≠ [] → ∃ a', ∀ fuel,
        AllInRange (chunkAccesses dbg p header (fileReader content) fuel (call + 1)
          ((offset + size (splitText (window content offset)).1) % 2 ^ 32) a')) := by
  by_cases hend : content.length ≤ offset
  · have hnil : window content offset = [] := by
      rw [window, List.drop_eq_nil_iff.mpr hend, List.take_nil]
    rw [hnil, splitText_nil]
    refine ⟨⟨?_, ?_, ?_⟩, fun hne => absurd rfl hne⟩ <;> simp
  have hw := window_length content offset
  have hstep := fun fuel => (chunkAccesses_step (Nat.lt_of_not_le hend) fuel call a).mp (h (fuel + 1))
  have hload := loadLines_window p header hw buffSize 0 0 a (Nat.le_refl _)
  have hlines := (lineAccesses_inRange p header hw dbg buffSize 0 a (Nat.le_refl _)).2 hg (hstep 0).1
  rw [List.drop_zero] at hlines hload
  revert hload hstep
  cases loadLines p header (textMem (window content offset)) buffSize 0 0 a with
  | error e =>
    intro _ hload
    cases e with
    | overrun => exact absurd hlines.free hload
    | noMemory a' => exact absurd hg hload
  | ok c =>
    rintro hstep ⟨hpos, hcount, hlen, -⟩
    dsimp only at hstep
    rw [Nat.zero_add] at hpos hcount
    by_cases hl : c.lines = 0
    · have hnil := List.length_eq_zero_iff.mp (hcount.symm.trans hl)
      have huse := (hstep 0).2
      rw [if_pos hl, hlen, useLen_inRange (splitText_noNul _) hlines.2] at huse
      exact ⟨⟨hlines.1, hlines.2, fun _ => huse⟩, fun hne => absurd hnil hne⟩
    · refine ⟨⟨hlines.1, hlines.2, fun hnil => ?_⟩, fun _ => ⟨c.adf, fun fuel => ?_⟩⟩
      · rw [hnil] at hcount
        exact absurd hcount hl
      · have hrest := (hstep fuel).2
        rwa [if_neg hl, hpos] at hrest

/-- Such a run comes to every offset that is read at. -/
theorem reaches_of_inRange (hg : AlwaysGrants p) {a : Adf}
    (h : ∀ fuel, AllInRange (chunkAccesses dbg p header (fileReader content) fuel 0 0 a))
    {offset : Nat} (ho : ReadOffset content offset) :
    ∃ call a', ∀ fuel,
      AllInRange (chunkAccesses dbg p header (fileReader content) fuel call offset a') := by
  induction ho with
  | start => exact ⟨0, a, h⟩
  | @next offset _ hne ih =>
    obtain ⟨call, a', hrun⟩ := ih
    obtain ⟨a'', hrest⟩ := (windowFits_of_inRange hg hrun).2 hne
    exact ⟨call + 1, a'', hrest⟩

end File

/-- Loading a file keeps to `buff` and `len`, whatever memory there is for its lines,
exactly when its lines have room. -/
theorem fileAccesses_inRange_iff (dbg : Bool) (content : List UInt8) :
    (∀ (p : Allocator Ptr) (fuel : Nat) (a : Adf) (passive : Bool) (header : Ptr),
      AllInRange (fileAccesses dbg p fuel a passive (.ok (fileReader content)) header)) ↔
      Fits dbg content := by
  rw [fits_iff]
  constructor
  · intro h offset ho
    have hg : AlwaysGrants bumpAllocator := fun _ => rfl
    obtain ⟨call, a, hrun⟩ := reaches_of_inRange hg
      (fun fuel => h bumpAllocator fuel blankAdf true (.head .user)) ho
    exact (windowFits_of_inRange hg hrun).1
  · intro h p fuel a passive header
    rw [fileAccesses]
    cases passive with
    | false => exact allInRange_nil
    | true => exact chunkAccesses_inRange h fuel 0 a .start

/-- A file of one line of 129 bytes: the last of them is stored behind `len`. -/
theorem long_line_out_of_range :
    ¬ ∀ (content : List UInt8) (p : Allocator Ptr) (fuel : Nat) (a : Adf) (passive : Bool)
      (header : Ptr),
      AllInRange (fileAccesses false p fuel a passive (.ok (fileReader content)) header) := by
  intro h
  have hg : AlwaysGrants bumpAllocator := fun _ => rfl
  have hrun := fun fuel => h (List.replicate 129 97) bumpAllocator fuel blankAdf true (.head .user)
  have hfits := (windowFits_of_inRange hg hrun).1
  have hw : window (List.replicate 129 97) 0 = List.replicate 129 97 := by
    rw [window, List.drop_zero, List.take_of_length_le (by simp [buffSize])]
  have hend : ∀ c ∈ List.replicate 129 (97 : UInt8), isEnd c = false := by
    intro c hc
    rw [List.eq_of_mem_replicate hc]
    decide
  have hlen := hfits.part
  rw [hw, splitText_line hend, List.length_replicate] at hlen
  exact absurd hlen (by decide)

end AdFilter.Driver.LoadBounds
