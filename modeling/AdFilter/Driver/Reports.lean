import AdFilter.Driver.LoadBounds
import AdFilter.Driver.Refine

/-!
# What a load reports

`load_file` on a file that is open, with reads that may fail at any place: when what it
returns can be relied on. It returns success whatever ends its reading, and keeps the
handle when a host cannot be added.
-/

namespace AdFilter.Driver.Reports

open AdFilter.Nt
open AdFilter.Lib.Pool
open AdFilter.Driver.HostList
open AdFilter.Driver.Abstract
open AdFilter.Driver.Represent
open AdFilter.Driver.Refine (abstracts_blank)
open AdFilter.Driver.LoadFile
open AdFilter.Driver.FileLines
open AdFilter.Driver.Windows
open AdFilter.Driver.LoadBounds

/-- Reads of a file: what one stores is in the file, and one that finds the end of the file
is at its end. Any of them may fail. -/
def ReadsOf (content : List UInt8) (read : Reader) : Prop :=
  ∀ call offset,
    match read call offset with
    | .ok data => offset < content.length ∧ data = (content.drop offset).take buffSize
    | .error status => status = statusEndOfFile → content.length ≤ offset

/-- The read has not failed but at the end of the file. -/
def Good : Except NtStatus (List UInt8) → Prop
  | .ok _ => True
  | .error status => status = statusEndOfFile

/-- The reads of `loadChunks`, with their offsets. -/
def loadReads (p : Allocator Ptr) (header : Ptr) (read : Reader) :
    Nat → Nat → Nat → Adf → List (Nat × Except NtStatus (List UInt8))
  | 0, _, _, _ => []
  | n + 1, call, offset, a =>
      (offset, read call offset) ::
        match read call offset with
        | .error _ => []
        | .ok data =>
            match loadLines p header (chunk data) buffSize 0 0 a with
            | .error _ => []
            | .ok c =>
                if c.lines = 0 then [(offset, read (call + 1) offset)]
                else loadReads p header read n (call + 1) ((offset + c.pos) % 2 ^ 32) c.adf

/-- The last read has come to the end of the file. -/
def AtEnd (content : List UInt8) (reads : List (Nat × Except NtStatus (List UInt8))) : Prop :=
  ∃ r, reads.getLast? = some r ∧ content.length ≤ r.1 + buffSize

/-- The load returns with its handle closed, and with a success only if no read has failed
before the end of the file and all lines have been appended. -/
def Honest (p : Allocator Ptr) (a : Adf) (b : Blocklist) (list : AdHost) (content : List UInt8)
    (read : Reader) : Prop :=
  ∃ fuel status closed a',
    loadFile p fuel a true (.ok read) (.head list) = some (.returned status closed a') ∧
      closed = true ∧
      (ntSuccess status = true →
        (∀ r ∈ loadReads p (.head list) read fuel 0 0 a, Good r.2) ∧
          AtEnd content (loadReads p (.head list) read fuel 0 0 a) ∧
          Appended a' b list (driverLines content))

/-- The passes over a file: how many reads there were before, and the offset. -/
inductive Pass (content : List UInt8) : Nat → Nat → Prop
  | start : Pass content 0 0
  | next {call offset : Nat} : Pass content call offset → offset < content.length →
      (splitText (window content offset)).1 ≠ [] →
      Pass content (call + 1) ((offset + size (splitText (window content offset)).1) % 2 ^ 32)

/-- What it takes: every line can be a host, the offset stays below 4 GiB, there is memory
for all lines, and no read fails, nor the second one of the last line. -/
structure Loadable (p : Allocator Ptr) (a : Adf) (content : List UInt8) (read : Reader) : Prop where
  lines : ∀ l ∈ driverLines content, l.length ≤ adfHostMaxLen ∧ 0 ∉ l
  offset : lastOffset content < 2 ^ 32
  memory : GrantsNext p a (2 * (driverLines content).length)
  reads : ∀ call offset, Pass content call offset → Good (read call offset) ∧
    (offset < content.length → (splitText (window content offset)).1 = [] →
      Good (read (call + 1) offset))

variable {p : Allocator Ptr} {a a' : Adf} {b : Blocklist} {list : AdHost} {content : List UInt8}
  {read : Reader} {call offset last : Nat} {ls : List (List UInt8)}

/-! ## Reads -/

theorem ReadsOf.of_lt (hr : ReadsOf content read) (h : Good (read call offset))
    (ho : offset < content.length) :
    read call offset = .ok ((content.drop offset).take buffSize) := by
  have hread := hr call offset
  cases hres : read call offset with
  | ok data =>
    rw [hres] at hread
    rw [hread.2]
  | error status =>
    rw [hres] at hread h
    exact absurd (hread h) (Nat.not_le.mpr ho)

theorem ReadsOf.of_ge (hr : ReadsOf content read) (call : Nat)
    (ho : content.length ≤ offset) : ∃ status, read call offset = .error status := by
  have hread := hr call offset
  cases hres : read call offset with
  | ok data =>
    rw [hres] at hread
    exact absurd hread.1 (Nat.not_lt.mpr ho)
  | error status => exact ⟨status, rfl⟩

theorem readsOf_fileReader (content : List UInt8) : ReadsOf content (fileReader content) := by
  intro call offset
  unfold fileReader
  by_cases h : content.length ≤ offset
  · rw [if_pos h]
    exact fun _ => h
  · rw [if_neg h]
    exact ⟨Nat.lt_of_not_le h, rfl⟩

theorem good_fileReader (content : List UInt8) (call offset : Nat) :
    Good (fileReader content call offset) := by
  unfold fileReader
  split
  · rfl
  · trivial

/-! ## One chunk -/

variable (p list) in
/-- What the loop over a window adds to the list. -/
theorem loadLines_appended {w : List UInt8} (hw : w.length < buffSize) (n : Nat) :
    ∀ (i lines : Nat) {a : Adf} {b : Blocklist}, Abstracts a b → buffSize ≤ n + i →
      match loadLines p (.head list) (textMem w) n i lines a with
      | .error .overrun => ¬ LinesFit false (w.drop i)
      | .error (.noMemory _) => ¬ GrantsNext p a (2 * (splitText (w.drop i)).1.length)
      | .ok c => LinesFit false (w.drop i) ∧ Appended c.adf b list (splitText (w.drop i)).1 ∧
          c.adf.pool.calls = a.pool.calls + 2 * (splitText (w.drop i)).1.length ∧
          GrantsNext p a (2 * (splitText (w.drop i)).1.length) := by
  have hnone : LinesFit false [] := (linesFit_part (by decide) false).mpr (Nat.zero_le _)
  induction n with
  | zero =>
    intro i lines a b hab hn
    rw [List.drop_eq_nil_iff.mpr (by omega), splitText_nil]
    exact ⟨hnone, appended_nil hab, rfl, fun _ hk => absurd hk (Nat.not_lt_zero _)⟩
  | succ n ih =>
    intro i lines a b hab hn
    rw [loadLines]
    by_cases hi : buffSize - 1 ≤ i
    · rw [if_pos hi, List.drop_eq_nil_iff.mpr (by omega), splitText_nil]
      exact ⟨hnone, appended_nil hab, rfl, fun _ hk => absurd hk (Nat.not_lt_zero _)⟩
    rw [if_neg hi, scanLine_window (by omega)]
    generalize htext : w.drop i = text
    dsimp only
    by_cases hend : Ended text
    · have hdrop : text.drop ((lineOf text).length + 2) =
          w.drop (i + ((lineOf text).length + 2)) := by
        rw [← htext, List.drop_drop]
      rw [linesFit_ended hend, splitText_ended hend, decide_eq_true hend, hdrop]
      by_cases hlong : adfHostMaxLen < (lineOf text).length
      · rw [if_pos hlong]
        exact fun h => absurd hlong (Nat.not_lt.mpr h.1)
      have hshort := Nat.le_of_not_lt hlong
      rw [if_neg hlong, if_neg (by decide)]
      obtain ⟨hadd, hgr⟩ := addLine p list hab (lineOf_noNul text) hshort
      revert hadd hgr
      cases addHostList p a (.head list) (textMem (lineOf text))
        (strnlen (textMem (lineOf text)) adfHostMaxLen) with
      | mk ok a' =>
        intro hadd hgr
        cases ok with
        | false =>
          intro hg
          rw [hg.granted (by rw [List.length_cons]; omega)] at hadd
          exact absurd hadd Bool.false_ne_true
        | true =>
          obtain ⟨hcalls, hab'⟩ := hgr hadd.symm
          have hnext := ih (i + ((lineOf text).length + 2)) (lines + 1) hab' (by omega)
          revert hnext
          dsimp only at hcalls ⊢
          rw [List.length_cons, Nat.mul_add, Nat.add_comm (2 * _)]
          cases loadLines p (.head list) (textMem w) n (i + ((lineOf text).length + 2)) (lines + 1)
            a' with
          | error e =>
            cases e with
            | overrun => exact fun hn h => hn h.2
            | noMemory a'' => exact fun hn hg => hn (hg.rest hcalls)
          | ok c =>
            rintro ⟨hfit, happ, hc, hg⟩
            refine ⟨⟨hshort, hfit⟩, Appended.append [lineOf text] rfl happ, ?_, ?_⟩
            · rw [hc, hcalls, Nat.add_assoc]
            · exact (grantsNext_two hadd.symm).add hcalls hg
    · rw [linesFit_part hend, splitText_part hend, decide_eq_false hend]
      by_cases hlong : adfHostMaxLen < (lineOf text).length
      · rw [if_pos hlong]
        exact Nat.not_le.mpr hlong
      · rw [if_neg hlong, if_pos rfl]
        exact ⟨Nat.le_of_not_lt hlong, appended_nil hab, rfl,
          fun _ hk => absurd hk (Nat.not_lt_zero _)⟩

/-! ## Runs -/

/-- A load without a failed read that puts the lines in the list, pass by pass, and the
offset of its last read. -/
inductive Loads (content : List UInt8) (read : Reader) :
    Nat → Nat → List (List UInt8) → Nat → Prop
  | eof {call offset : Nat} : content.length ≤ offset → Good (read call offset) →
      Loads content read call offset [] offset
  | part {call offset : Nat} : offset < content.length → Good (read call offset) →
      Good (read (call + 1) offset) → (splitText (window content offset)).1 = [] →
      (splitText (window content offset)).2.length ≤ adfHostMaxLen →
      Loads content read call offset [(splitText (window content offset)).2] offset
  | lines {call offset last : Nat} {ls : List (List UInt8)} : offset < content.length →
      Good (read call offset) → (splitText (window content offset)).1 ≠ [] →
      LinesFit false (window content offset) →
      Loads content read (call + 1)
        ((offset + size (splitText (window content offset)).1) % 2 ^ 32) ls last →
      Loads content read call offset ((splitText (window content offset)).1 ++ ls) last

/-- A run that returns with success, of good reads up to an offset, and the lines it has
added. -/
structure Ran (p : Allocator Ptr) (a : Adf) (b : Blocklist) (list : AdHost) (read : Reader)
    (n call offset : Nat) (a' : Adf) (ls : List (List UInt8)) (last : Nat) : Prop where
  run : loadChunks p (.head list) read n call offset a = some (.returned statusSuccess true a')
  reads : ∀ r ∈ loadReads p (.head list) read n call offset a, Good r.2
  last : (loadReads p (.head list) read n call offset a).getLast?.map Prod.fst = some last
  appended : Appended a' b list ls

/-- With its handle closed, a load has returned success. -/
theorem success_of_closed {header : Ptr} {status : NtStatus} (n : Nat) :
    ∀ {call offset : Nat} {a : Adf},
      loadChunks p header read n call offset a = some (.returned status true a') →
        status = statusSuccess := by
  induction n with
  | zero =>
    intro call offset a h
    simp [loadChunks] at h
  | succ n ih =>
    intro call offset a h
    rw [loadChunks] at h
    cases hread : read call offset with
    | error e =>
      rw [hread] at h
      exact (LoadResult.returned.inj (Option.some.inj h)).1.symm
    | ok data =>
      rw [hread] at h
      revert h
      dsimp only
      cases loadLines p header (chunk data) buffSize 0 0 a with
      | error e => cases e <;> simp +contextual
      | ok c =>
        dsimp only
        by_cases hl : c.lines = 0
        · rw [if_pos hl]
          cases addHostList p c.adf header (textMem c.len)
            (strnlen (textMem c.len) adfHostMaxLen) with
          | mk ok a₁ =>
            cases ok with
            | false => simp
            | true => exact fun h => (LoadResult.returned.inj (Option.some.inj h)).1.symm
        · rw [if_neg hl]
          exact ih

/-- One pass whose lines have all been added. -/
structure Passed (p : Allocator Ptr) (a : Adf) (b : Blocklist) (list : AdHost)
    (content : List UInt8) (read : Reader) (call offset : Nat) (c : Adf) : Prop where
  fits : LinesFit false (window content offset)
  appended : Appended c b list (splitText (window content offset)).1
  calls : c.pool.calls = a.pool.calls + 2 * (splitText (window content offset)).1.length
  grants : GrantsNext p a (2 * (splitText (window content offset)).1.length)
  run : ∀ n, loadChunks p (.head list) read (n + 1) call offset a =
    if (splitText (window content offset)).1 = [] then
      match addHostList p c (.head list) (textMem (splitText (window content offset)).2)
        (strnlen (textMem (splitText (window content offset)).2) adfHostMaxLen) with
      | (false, a') => some (.returned statusMemoryNotAllocated false a')
      | (true, a') => some (.returned statusSuccess true a')
    else loadChunks p (.head list) read n (call + 1)
      ((offset + size (splitText (window content offset)).1) % 2 ^ 32) c
  reads : ∀ n, loadReads p (.head list) read (n + 1) call offset a = (offset, read call offset) ::
    if (splitText (window content offset)).1 = [] then [(offset, read (call + 1) offset)]
    else loadReads p (.head list) read n (call + 1)
      ((offset + size (splitText (window content offset)).1) % 2 ^ 32) c

variable (p list) in
/-- A pass adds its lines when they fit and there is memory for them, or the load fails. -/
theorem passed_or (hread : read call offset = .ok ((content.drop offset).take buffSize))
    (hab : Abstracts a b) :
    (∃ c, Passed p a b list content read call offset c) ∨
      ¬ (LinesFit false (window content offset) ∧
          GrantsNext p a (2 * (splitText (window content offset)).1.length)) ∧
        ∀ n a', loadChunks p (.head list) read (n + 1) call offset a ≠
          some (.returned statusSuccess true a') := by
  have hw := window_length content offset
  have hwindow := loadLines_window p (.head list) hw buffSize 0 0 a (Nat.le_refl _)
  have hadded := loadLines_appended p list hw buffSize 0 0 hab (Nat.le_refl _)
  have hchunks := fun n => loadChunks.eq_2 p (.head list) read call offset a n
  have hreads := fun n => loadReads.eq_2 p (.head list) read call offset a n
  simp only [hread, chunk_eq_window] at hchunks hreads
  rw [List.drop_zero] at hwindow hadded
  revert hwindow hadded hchunks hreads
  cases loadLines p (.head list) (textMem (window content offset)) buffSize 0 0 a with
  | error e =>
    cases e with
    | overrun =>
      intro _ hfit hchunks _
      refine Or.inr ⟨fun h => hfit h.1, fun n a' h => ?_⟩
      rw [hchunks] at h
      simp [statusSuccess] at h
    | noMemory a₁ =>
      intro _ hg hchunks _
      refine Or.inr ⟨fun h => hg h.2, fun n a' h => ?_⟩
      rw [hchunks] at h
      simp [statusSuccess] at h
  | ok c =>
    rintro ⟨hpos, hlines, hlen, -⟩ ⟨hfit, happ, hcalls, hg⟩ hchunks hreads
    dsimp only at hchunks hreads
    rw [Nat.zero_add] at hpos hlines
    have hnil : c.lines = 0 ↔ (splitText (window content offset)).1 = [] := by
      rw [hlines]
      exact List.length_eq_zero_iff
    refine Or.inl ⟨c.adf, hfit, happ, hcalls, hg, fun n => ?_, fun n => ?_⟩
    · rw [hchunks, hlen, hpos]
      exact if_congr hnil rfl rfl
    · rw [hreads, hread, hpos]
      exact congrArg _ (if_congr hnil rfl rfl)

/-- A pass without a whole line adds what is left of the file, if there is memory for it. -/
theorem Passed.last_line {c : Adf} (hp : Passed p a b list content read call offset c)
    (hnil : (splitText (window content offset)).1 = []) :
    ∃ a₁, (∀ n, loadChunks p (.head list) read (n + 1) call offset a =
        some (if granted p a = true then .returned statusSuccess true a₁
          else .returned statusMemoryNotAllocated false a₁)) ∧
      (granted p a = true → Appended a₁ b list [(splitText (window content offset)).2]) := by
  obtain ⟨hs, hq, habc⟩ := hp.appended
  have hcalls := hp.calls
  rw [hnil] at hcalls hq
  have hgranted : granted p c = granted p a := by
    have hsame : c.pool.calls = a.pool.calls := hcalls
    rw [granted, granted, hsame]
  obtain ⟨hadd, hgr⟩ := addLine p list habc (splitText_noNul _) hp.fits.2
  have hrun := hp.run
  rw [hgranted] at hadd hgr
  simp only [if_pos hnil] at hrun
  revert hadd hgr hrun
  cases addHostList p c (.head list) (textMem (splitText (window content offset)).2)
    (strnlen (textMem (splitText (window content offset)).2) adfHostMaxLen) with
  | mk ok a₁ =>
    intro hadd hgr hrun
    refine ⟨a₁, fun n => ?_, fun hg => Appended.append [] hq ⟨[_], rfl, (hgr hg).2⟩⟩
    rw [hrun, ← hadd]
    cases ok <;> rfl

theorem loads_of_run (hr : ReadsOf content read) (n : Nat) :
    ∀ {call offset : Nat} {a : Adf} {b : Blocklist}, Abstracts a b →
      loadChunks p (.head list) read n call offset a =
        some (.returned statusSuccess true a') →
      (∀ r ∈ loadReads p (.head list) read n call offset a, Good r.2) →
        ∃ ls last, Loads content read call offset ls last ∧ GrantsNext p a (2 * ls.length) ∧
          Ran p a b list read n call offset a' ls last := by
  induction n with
  | zero =>
    intro call offset a b _ hrun
    simp [loadChunks] at hrun
  | succ n ih =>
    intro call offset a b hab hrun hgood
    have hhead : Good (read call offset) := hgood _ List.mem_cons_self
    by_cases hend : content.length ≤ offset
    · obtain ⟨status, hread⟩ := hr.of_ge call hend
      have hreads : loadReads p (.head list) read (n + 1) call offset a =
          [(offset, read call offset)] := by
        rw [loadReads, hread]
      have hkept : a = a' := by
        rw [loadChunks, hread] at hrun
        exact (LoadResult.returned.inj (Option.some.inj hrun)).2.2
      refine ⟨[], offset, .eof hend hhead, fun _ hk => absurd hk (Nat.not_lt_zero _), hrun, hgood,
        ?_, ?_⟩
      · rw [hreads]
        rfl
      · rw [← hkept]
        exact appended_nil hab
    have ho := Nat.lt_of_not_le hend
    rcases passed_or p list (hr.of_lt hhead ho) hab with ⟨c, hp⟩ | ⟨-, hfail⟩
    · have hall := hgood
      obtain ⟨hs, hq, habc⟩ := hp.appended
      have hstep := hp.run n
      rw [hp.reads] at hall
      rw [hrun] at hstep
      by_cases hnil : (splitText (window content offset)).1 = []
      · rw [if_pos hnil] at hstep hall
        obtain ⟨a₁, hload, happ⟩ := hp.last_line hnil
        have hsame := hload n
        rw [hrun] at hsame
        by_cases hg : granted p a = true
        · rw [if_pos hg] at hsame
          obtain ⟨-, -, rfl⟩ := LoadResult.returned.inj (Option.some.inj hsame)
          have hagain : Good (read (call + 1) offset) :=
            hall (offset, read (call + 1) offset) (List.mem_cons_of_mem _ List.mem_cons_self)
          refine ⟨_, offset, .part ho hhead hagain hnil hp.fits.2, grantsNext_two hg, hrun, hgood,
            ?_, happ hg⟩
          rw [hp.reads, if_pos hnil]
          rfl
        · rw [if_neg hg] at hsame
          simp at hsame
      · rw [if_neg hnil] at hstep hall
        obtain ⟨ls, last, hl, hg, hran⟩ := ih habc hstep.symm fun r hmem =>
          hall r (List.mem_cons_of_mem _ hmem)
        refine ⟨_, last, .lines ho hhead hnil hp.fits hl, ?_, hrun, hgood, ?_, ?_⟩
        · rw [List.length_append, Nat.mul_add]
          exact hp.grants.add hp.calls hg
        · have hlast := hran.last
          rw [hp.reads, if_neg hnil, List.getLast?_cons]
          revert hlast
          cases (loadReads p (.head list) read n (call + 1)
            ((offset + size (splitText (window content offset)).1) % 2 ^ 32) c).getLast? with
          | none => simp
          | some r => exact id
        · exact Appended.append _ hq hran.appended
    · exact absurd hrun (hfail n a')

theorem Loads.runs (hl : Loads content read call offset ls last) (hr : ReadsOf content read) :
    ∀ {a : Adf} {b : Blocklist}, Abstracts a b → GrantsNext p a (2 * ls.length) →
      ∃ n a', Ran p a b list read n call offset a' ls last := by
  induction hl with
  | @eof call offset hend hgood =>
    intro a b hab _
    obtain ⟨status, hread⟩ := hr.of_ge call hend
    have hreads : loadReads p (.head list) read 1 call offset a = [(offset, read call offset)] := by
      rw [loadReads, hread]
    refine ⟨1, a, ?_, ?_, ?_, appended_nil hab⟩
    · rw [loadChunks, hread]
    · rw [hreads]
      exact List.forall_mem_singleton.mpr hgood
    · rw [hreads]
      rfl
  | @part call offset ho hgood hagain hnil hshort =>
    intro a b hab hg
    have hread := hr.of_lt hgood ho
    rcases passed_or p list hread hab with ⟨c, hp⟩ | ⟨hnot, -⟩
    · obtain ⟨a₁, hload, happ⟩ := hp.last_line hnil
      have hga : granted p a = true := hg.granted (Nat.le_refl 2)
      refine ⟨1, a₁, ?_, ?_, ?_, happ hga⟩
      · rw [hload, if_pos hga]
      · rw [hp.reads, if_pos hnil]
        exact List.forall_mem_cons.mpr ⟨hgood, List.forall_mem_singleton.mpr hagain⟩
      · rw [hp.reads, if_pos hnil]
        rfl
    · refine absurd ⟨(show LinesFit false _ from ⟨?_, hshort⟩), ?_⟩ hnot
      · rw [hnil]
        exact fun l h => absurd h List.not_mem_nil
      · rw [hnil]
        exact fun _ hk => absurd hk (Nat.not_lt_zero _)
  | @lines call offset last ls ho hgood hne hfit _ ih =>
    intro a b hab hg
    rw [List.length_append, Nat.mul_add] at hg
    have hread := hr.of_lt hgood ho
    rcases passed_or p list hread hab with ⟨c, hp⟩ | ⟨hnot, -⟩
    · obtain ⟨hs, hq, habc⟩ := hp.appended
      obtain ⟨n, a', hran⟩ := ih habc (hg.rest hp.calls)
      refine ⟨n + 1, a', ?_, ?_, ?_, Appended.append _ hq hran.appended⟩
      · rw [hp.run, if_neg hne]
        exact hran.run
      · rw [hp.reads, if_neg hne]
        exact List.forall_mem_cons.mpr ⟨hgood, hran.reads⟩
      · have hlast := hran.last
        rw [hp.reads, if_neg hne, List.getLast?_cons]
        revert hlast
        cases (loadReads p (.head list) read n (call + 1)
          ((offset + size (splitText (window content offset)).1) % 2 ^ 32) c).getLast? with
        | none => simp
        | some r => exact id
    · refine absurd ⟨hfit, fun k hk => ?_⟩ hnot
      exact hg k (by omega)

/-! ## Lines and windows -/

theorem takeWhile_cons_of_ne {c : UInt8} (hc : c ≠ cr) (rest : List UInt8) :
    (c :: rest).takeWhile (· ≠ cr) = c :: rest.takeWhile (· ≠ cr) :=
  List.takeWhile_cons_of_pos (by simpa using hc)

theorem takeWhile_of_ended {text : List UInt8} (h : Ended text) :
    text.takeWhile (· ≠ cr) = lineOf text ∧ cr ∈ text := by
  induction text with
  | nil => exact absurd h (by decide)
  | cons c rest ih =>
    by_cases hc : c = cr
    · subst hc
      exact ⟨rfl, List.mem_cons_self⟩
    · by_cases h0 : c = 0
      · subst h0
        exact absurd (Option.some.inj h) (by decide)
      · have hend : isEnd c = false := by simp [isEnd, hc, h0]
        obtain ⟨hline, hmem⟩ := ih ((ended_cons hend rest).mp h)
        rw [lineOf_cons, hend, takeWhile_cons_of_ne hc, hline]
        exact ⟨rfl, List.mem_cons_of_mem c hmem⟩

theorem lineOf_of_noNul {text : List UInt8} (h : 0 ∉ text.takeWhile (· ≠ cr)) :
    lineOf text = text.takeWhile (· ≠ cr) := by
  induction text with
  | nil => rfl
  | cons c rest ih =>
    rw [lineOf_cons]
    by_cases hc : c = cr
    · subst hc
      rfl
    · rw [takeWhile_cons_of_ne hc, List.mem_cons, not_or] at h
      have hend : isEnd c = false := by simp [isEnd, hc, Ne.symm h.1]
      rw [takeWhile_cons_of_ne hc, hend, ih h.2]
      rfl

theorem lineOf_length_le (text : List UInt8) :
    (lineOf text).length ≤ (text.takeWhile (· ≠ cr)).length := by
  induction text with
  | nil => exact Nat.le_refl _
  | cons c rest ih =>
    rw [lineOf_cons]
    by_cases hend : isEnd c = true
    · rw [if_pos hend]
      exact Nat.zero_le _
    · have hc : c ≠ cr := fun hc => hend (by rw [hc]; rfl)
      rw [if_neg hend, takeWhile_cons_of_ne hc]
      exact Nat.succ_le_succ ih

theorem ended_of_mem {text : List UInt8} (h : cr ∈ text) (h0 : 0 ∉ text.takeWhile (· ≠ cr)) :
    Ended text := by
  rw [Ended, lineOf_of_noNul h0]
  induction text with
  | nil => exact absurd h List.not_mem_nil
  | cons c rest ih =>
    by_cases hc : c = cr
    · subst hc
      rfl
    · rw [takeWhile_cons_of_ne hc] at h0 ⊢
      exact ih ((List.mem_cons.mp h).resolve_left (Ne.symm hc)) fun hm =>
        h0 (List.mem_cons_of_mem c hm)

/-- A window without a whole line, of a text whose first line fits: the line is all of the text. -/
theorem last_window {text : List UInt8} {k : Nat} (h0 : 0 ∉ text.takeWhile (· ≠ cr))
    (hk : (text.takeWhile (· ≠ cr)).length < k) (hnil : (splitText (text.take k)).1 = []) :
    cr ∉ text ∧ (splitText (text.take k)).2 = text := by
  have hline := lineOf_of_noNul h0
  have hpart : (splitText (text.take k)).2 = lineOf text := by
    have h := (splitText_take text k).2
    rw [hnil, size_nil, List.drop_zero, Nat.sub_zero] at h
    rw [h, hline]
    exact List.take_of_length_le (Nat.le_of_lt hk)
  have hcr : cr ∉ text := by
    intro hmem
    have hend : Ended text := ended_of_mem hmem h0
    have hw : Ended (text.take k) := by
      rw [← hline] at hk
      rw [Ended, lineOf_take, List.take_of_length_le (Nat.le_of_lt hk),
        List.getElem?_take_of_lt hk]
      exact hend
    rw [splitText_ended hw] at hnil
    exact absurd hnil (List.cons_ne_nil _ _)
  refine ⟨hcr, ?_⟩
  rw [hpart, hline, takeWhile_noCr hcr]

theorem splitText_lines_noNul (text : List UInt8) : ∀ l ∈ (splitText text).1, 0 ∉ l := by
  induction text using splitText.induct with
  | case1 text hend _ ih =>
    rw [splitText_ended hend]
    exact List.forall_mem_cons.mpr ⟨lineOf_noNul text, ih⟩
  | case2 text hend =>
    rw [splitText_part hend]
    exact fun l h => absurd h List.not_mem_nil

/-- The whole lines of a window are lines of the file. -/
theorem splitLines_take (text : List UInt8) (k : Nat) :
    splitLines text =
      ((splitText (text.take k)).1 ++ (splitLines (text.drop (size (splitText (text.take k)).1))).1,
        (splitLines (text.drop (size (splitText (text.take k)).1))).2) := by
  generalize hn : text.length = n
  induction n using Nat.strong_induction_on generalizing text k with
  | _ n ih =>
    by_cases h : Ended (text.take k)
    · obtain ⟨-, hend, -⟩ := h.of_take
      obtain ⟨hfirst, hmem⟩ := takeWhile_of_ended hend
      have hlt := hend.length_lt
      have hrest := ih (text.drop ((lineOf text).length + 2)).length
        (by rw [List.length_drop]; omega) _ (k - ((lineOf text).length + 2)) rfl
      rw [List.drop_drop] at hrest
      rw [splitText_take_ended h, splitLines_cr hmem, hfirst, hrest, size_cons]
      rfl
    · rw [splitText_part h]
      rfl

theorem driverLines_window (content : List UInt8) (offset : Nat) :
    driverLines (content.drop offset) = (splitText (window content offset)).1 ++
      driverLines (content.drop (offset + size (splitText (window content offset)).1)) := by
  have h := splitLines_take (content.drop offset) (buffSize - 1)
  rw [List.drop_drop] at h
  rw [driverLines, h, List.append_assoc]
  rfl

theorem lastOffset_window (content : List UInt8) (offset : Nat) :
    lastOffset (content.drop offset) = size (splitText (window content offset)).1 +
      lastOffset (content.drop (offset + size (splitText (window content offset)).1)) := by
  have h := splitLines_take (content.drop offset) (buffSize - 1)
  rw [List.drop_drop] at h
  rw [lastOffset, h, size_append]
  rfl

/-- The lines of a file take two bytes more than the file at most. -/
theorem size_driverLines_le (text : List UInt8) : size (driverLines text) ≤ text.length + 2 := by
  generalize hn : text.length = n
  induction n using Nat.strong_induction_on generalizing text with
  | _ n ih =>
    by_cases h : cr ∈ text
    · have hlt : (text.takeWhile (· ≠ cr)).length < text.length := by
        refine Nat.lt_of_le_of_ne (List.takeWhile_prefix _).length_le fun he => ?_
        have hself := (List.takeWhile_prefix (· ≠ cr)).eq_of_length he
        exact absurd (List.takeWhile_eq_self_iff.mp hself cr h) (by simp)
      rw [driverLines_cr h, size_cons]
      by_cases hd : text.length ≤ (text.takeWhile (· ≠ cr)).length + 2
      · rw [List.drop_eq_nil_iff.mpr hd, driverLines_nil, size_nil]
        omega
      · have hrest := ih (text.length - ((text.takeWhile (· ≠ cr)).length + 2)) (by omega)
          (text.drop ((text.takeWhile (· ≠ cr)).length + 2)) List.length_drop
        omega
    · by_cases hne : text = []
      · rw [hne, driverLines_nil, size_nil]
        exact Nat.zero_le _
      · rw [driverLines_noCr h hne, size_cons, size_nil, hn]

/-! ## From a run to its file -/

theorem Loads.short (hl : Loads content read call offset ls last) :
    ∀ l ∈ ls, l.length ≤ adfHostMaxLen ∧ 0 ∉ l := by
  induction hl with
  | eof => exact fun l h => absurd h List.not_mem_nil
  | part _ _ _ _ hshort => exact List.forall_mem_singleton.mpr ⟨hshort, splitText_noNul _⟩
  | lines _ _ _ hfit _ ih =>
    intro l hl
    rcases List.mem_append.mp hl with hl | hl
    · exact ⟨hfit.1 l hl, splitText_lines_noNul _ l hl⟩
    · exact ih l hl

/-- The lines lead to the offset of the last read. -/
theorem Loads.last_le (hl : Loads content read call offset ls last) : last ≤ offset + size ls := by
  induction hl with
  | eof => exact Nat.le_add_right _ _
  | part => exact Nat.le_add_right _ _
  | @lines call offset last ls _ _ _ _ _ ih =>
    have hmod := Nat.mod_le (offset + size (splitText (window content offset)).1) (2 ^ 32)
    rw [size_append]
    omega

/-- An offset that goes round never comes to the end of a file of which all lines, and no
others, have been added. -/
theorem Loads.offset_lt (hl : Loads content read call offset ls last)
    (hls : ls = driverLines (content.drop offset)) (hend : content.length ≤ last + buffSize)
    (ho : offset < 2 ^ 32) : offset + lastOffset (content.drop offset) < 2 ^ 32 := by
  induction hl with
  | @eof call offset hge _ =>
    rw [List.drop_eq_nil_iff.mpr hge, lastOffset, splitLines_noCr List.not_mem_nil]
    exact ho
  | @part call offset hlt _ _ hnil hshort =>
    have hne : content.drop offset ≠ [] := by
      rw [ne_eq, List.drop_eq_nil_iff]
      exact Nat.not_le.mpr hlt
    obtain ⟨rest, hrest⟩ := driverLines_head hne
    obtain ⟨hpart, -⟩ := List.cons.inj (hls.trans hrest)
    have h0 := splitText_noNul (window content offset)
    rw [hpart] at hshort h0
    obtain ⟨hcr, -⟩ := last_window h0 (Nat.lt_of_le_of_lt hshort (by decide)) hnil
    rw [lastOffset, splitLines_noCr hcr]
    exact ho
  | @lines call offset last ls hlt _ hne _ hrest ih =>
    rw [driverLines_window, List.append_cancel_left_eq] at hls
    rw [lastOffset_window, ← Nat.add_assoc]
    have hlast := hrest.last_le
    by_cases hwrap : offset + size (splitText (window content offset)).1 < 2 ^ 32
    · rw [Nat.mod_eq_of_lt hwrap] at ih
      exact ih hls hend hwrap
    · exfalso
      have hsize := size_driverLines_le
        (content.drop (offset + size (splitText (window content offset)).1))
      rw [← hls, List.length_drop] at hsize
      rw [buffSize] at hend
      have hle := (next_le hne).2
      omega

/-- All passes are passes of the run. -/
theorem Loads.pass (hl : Loads content read 0 0 ls last) (hp : Pass content call offset) :
    ∃ ls last, Loads content read call offset ls last := by
  induction hp with
  | start => exact ⟨ls, last, hl⟩
  | next _ hlt hne ih =>
    obtain ⟨ls, last, h⟩ := ih
    cases h with
    | eof hend _ => exact absurd hlt (Nat.not_lt.mpr hend)
    | part _ _ _ hnil _ => exact absurd hnil hne
    | lines _ _ _ _ hrest => exact ⟨_, _, hrest⟩

theorem Loads.good (hl : Loads content read call offset ls last) : Good (read call offset) ∧
    (offset < content.length → (splitText (window content offset)).1 = [] →
      Good (read (call + 1) offset)) := by
  cases hl with
  | eof hend hgood => exact ⟨hgood, fun hlt => absurd hlt (Nat.not_lt.mpr hend)⟩
  | part _ hgood hagain _ _ => exact ⟨hgood, fun _ _ => hagain⟩
  | lines _ hgood hne _ _ => exact ⟨hgood, fun _ hnil => absurd hnil hne⟩

/-! ## From a file to its run -/

/-- The window at an offset has room, if the lines from there on have. -/
theorem linesFit_of_short
    (h : ∀ l ∈ driverLines (content.drop offset), l.length ≤ adfHostMaxLen ∧ 0 ∉ l) :
    LinesFit false (window content offset) := by
  rw [driverLines_window] at h
  refine ⟨fun l hl => (h l (List.mem_append_left _ hl)).1, ?_⟩
  have hpart := (splitText_take (content.drop offset) (buffSize - 1)).2
  rw [List.drop_drop] at hpart
  change (splitText (window content offset)).2 = _ at hpart
  rw [hpart]
  refine Nat.le_trans (List.length_take_le' _ _) ?_
  refine Nat.le_trans (lineOf_length_le _) ?_
  by_cases hnil : content.drop (offset + size (splitText (window content offset)).1) = []
  · change ((content.drop (offset + size (splitText (window content offset)).1)).takeWhile
      (· ≠ cr)).length ≤ adfHostMaxLen
    rw [hnil]
    exact Nat.zero_le _
  · exact (h _ (List.mem_append_right _ (takeWhile_mem_driverLines hnil))).1

/-- A file that can be loaded, from one of its passes on. -/
theorem loads_of_pass
    (hreads : ∀ call offset, Pass content call offset → Good (read call offset) ∧
      (offset < content.length → (splitText (window content offset)).1 = [] →
        Good (read (call + 1) offset))) (n : Nat) :
    ∀ {call offset : Nat}, content.length + 2 ≤ n + offset → 0 < n → Pass content call offset →
      (∀ l ∈ driverLines (content.drop offset), l.length ≤ adfHostMaxLen ∧ 0 ∉ l) →
      offset + lastOffset (content.drop offset) < 2 ^ 32 →
        ∃ last, Loads content read call offset (driverLines (content.drop offset)) last ∧
          content.length ≤ last + buffSize := by
  induction n with
  | zero => exact fun _ h => absurd h (Nat.lt_irrefl 0)
  | succ n ih =>
    intro call offset hn _ hp hlines hoff
    obtain ⟨hgood, hagain⟩ := hreads call offset hp
    by_cases hend : content.length ≤ offset
    · rw [List.drop_eq_nil_iff.mpr hend, driverLines_nil]
      exact ⟨offset, .eof hend hgood, Nat.le_trans hend (Nat.le_add_right _ _)⟩
    have hlt := Nat.lt_of_not_le hend
    by_cases hnil : (splitText (window content offset)).1 = []
    · have hne : content.drop offset ≠ [] := by
        rw [ne_eq, List.drop_eq_nil_iff]
        exact hend
      obtain ⟨hshort, h0⟩ := hlines _ (takeWhile_mem_driverLines hne)
      obtain ⟨hcr, hpart⟩ := last_window h0 (Nat.lt_of_le_of_lt hshort (by decide)) hnil
      have hall := driverLines_noCr hcr hne
      rw [takeWhile_noCr hcr, List.length_drop] at hshort
      have hload := Loads.part hlt hgood (hagain hlt hnil) hnil (linesFit_of_short hlines).2
      change (splitText (window content offset)).2 = _ at hpart
      rw [hpart, ← hall] at hload
      refine ⟨offset, hload, ?_⟩
      rw [buffSize]
      rw [adfHostMaxLen] at hshort
      omega
    · have hfit := linesFit_of_short hlines
      have hnext := Pass.next hp hlt hnil
      have htwo := (next_le hnil).1
      rw [lastOffset_window] at hoff
      rw [driverLines_window] at hlines ⊢
      rw [Nat.mod_eq_of_lt (by omega)] at hnext
      obtain ⟨last, hload, hlast⟩ := ih (by omega) (by omega) hnext
        (fun l hl => hlines l (List.mem_append_right _ hl)) (by omega)
      refine ⟨last, .lines hlt hgood hnil hfit ?_, hlast⟩
      rw [Nat.mod_eq_of_lt (by omega)]
      exact hload

/-! ## The report -/

/-- The lines that have been appended are determined by the list. -/
theorem Appended.unique {ls' : List (List UInt8)} (h : Appended a' b list ls)
    (h' : Appended a' b list ls') : ls = ls' := by
  obtain ⟨hs, rfl, hab⟩ := h
  obtain ⟨hs', rfl, hab'⟩ := h'
  have heq := congrFun (congrArg Blocklist.hosts (hab.unique hab')) list
  rw [setHosts_self, setHosts_self, List.append_cancel_left_eq] at heq
  rw [heq]

/-- A load reports what it has done exactly when nothing goes wrong. -/
theorem honest_iff (p : Allocator Ptr) (list : AdHost) (hab : Abstracts a b)
    (hr : ReadsOf content read) : Honest p a b list content read ↔ Loadable p a content read := by
  constructor
  · rintro ⟨fuel, status, closed, a', hrun, rfl, htrue⟩
    obtain rfl := success_of_closed fuel hrun
    obtain ⟨hgood, ⟨r, hr₁, hend⟩, happ⟩ := htrue rfl
    obtain ⟨ls, last, hl, hg, hran⟩ := loads_of_run hr fuel hab hrun hgood
    obtain rfl := Appended.unique hran.appended happ
    have hlast : r.1 = last := by
      have h := hran.last
      rw [hr₁] at h
      exact Option.some.inj h
    refine ⟨hl.short, ?_, hg, fun call offset hp => ?_⟩
    · have h := hl.offset_lt (by rw [List.drop_zero]) (hlast ▸ hend) (by decide)
      rwa [List.drop_zero, Nat.zero_add] at h
    · obtain ⟨ls, last, h⟩ := hl.pass hp
      exact h.good
  · intro h
    obtain ⟨last, hl, hlast⟩ := loads_of_pass h.reads (content.length + 2) (Nat.le_refl _)
      (Nat.succ_pos _) .start (by rw [List.drop_zero]; exact h.lines)
      (by rw [List.drop_zero, Nat.zero_add]; exact h.offset)
    rw [List.drop_zero] at hl
    obtain ⟨n, a', hran⟩ := hl.runs hr hab h.memory
    refine ⟨n, statusSuccess, true, a', hran.run, rfl, fun _ => ⟨hran.reads, ?_, hran.appended⟩⟩
    obtain ⟨r, hr₁, rfl⟩ := Option.map_eq_some_iff.mp hran.last
    exact ⟨r, hr₁, hlast⟩

/-- A file of one line. -/
theorem honest_oneLine :
    Honest bumpAllocator (initLists blankAdf) ⟨0, fun _ => []⟩ .sys [97] (fileReader [97]) := by
  have hcr : cr ∉ [(97 : UInt8)] := by decide
  have hlines : driverLines [97] = [[97]] := driverLines_noCr hcr (by decide)
  refine (honest_iff bumpAllocator .sys abstracts_blank (readsOf_fileReader [97])).mpr
    ⟨?_, ?_, fun _ _ => rfl, fun call offset _ => ⟨good_fileReader _ _ _, fun _ _ =>
      good_fileReader _ _ _⟩⟩
  · rw [hlines]
    decide
  · rw [lastOffset, splitLines_noCr hcr]
    decide

/-- The first read of the file fails: the load is a success, of nothing. -/
theorem read_error_hidden :
    ¬ ∀ (p : Allocator Ptr) (a : Adf) (b : Blocklist) (list : AdHost) (content : List UInt8)
      (read : Reader), Abstracts a b → ReadsOf content read → Honest p a b list content read := by
  intro h
  obtain ⟨fuel, status, closed, a', hrun, -, htrue⟩ := h bumpAllocator (initLists blankAdf)
    ⟨0, fun _ => []⟩ .sys [97] (fun _ _ => .error statusUnsuccessful) abstracts_blank
    fun _ _ he => absurd he (by decide)
  cases fuel with
  | zero => exact nomatch hrun
  | succ n =>
    obtain ⟨rfl, -, -⟩ := LoadResult.returned.inj (Option.some.inj hrun)
    have hgood : statusUnsuccessful = statusEndOfFile := (htrue rfl).1 _ List.mem_cons_self
    exact absurd hgood (by decide)

end AdFilter.Driver.Reports
