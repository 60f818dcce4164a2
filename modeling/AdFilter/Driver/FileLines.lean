import AdFilter.Driver.LoadFile
import AdFilter.Driver.Represent
import Mathlib.Data.List.TakeWhile

/-!
# What a host file makes of a list

The lines of a file as the driver sees them: each ends at a CR, and the byte after
the CR belongs to none. A load that comes to its end with success has put just
these lines at the end of its list, unless its 32-bit offset went round.
-/

namespace AdFilter.Driver.FileLines

open AdFilter.Nt
open AdFilter.Lib.Pool
open AdFilter.Driver.HostList
open AdFilter.Driver.Abstract
open AdFilter.Driver.Represent
open AdFilter.Driver.LoadFile

/-- The lines that a CR ends, and what is left after the last of them. -/
def splitLines (content : List UInt8) : List (List UInt8) × List UInt8 :=
  if h : cr ∈ content then
    let line := content.takeWhile (· ≠ cr)
    have : (content.drop (line.length + 2)).length < content.length := by
      have hpos := List.length_pos_of_mem h
      rw [List.length_drop]
      omega
    let r := splitLines (content.drop (line.length + 2))
    (line :: r.1, r.2)
  else ([], content)
termination_by content.length

/-- All lines of a file. The last one may be without an end. -/
def driverLines (content : List UInt8) : List (List UInt8) :=
  (splitLines content).1 ++ if (splitLines content).2 = [] then [] else [(splitLines content).2]

/-- The bytes that lines take in a file, each with its CR and one byte more. -/
def size (ls : List (List UInt8)) : Nat := (ls.map fun l => l.length + 2).sum

/-- The offset of the last read. -/
def lastOffset (content : List UInt8) : Nat := size (splitLines content).1

/-- The list has got the lines as its newest hosts. -/
def Appended (a : Adf) (b : Blocklist) (list : AdHost) (ls : List (List UInt8)) : Prop :=
  ∃ hs : List Host, hs.map Host.chars = ls ∧
    Abstracts a (b.setHosts list (b.hosts list ++ hs))

/-! ## Lines -/

theorem splitLines_cr {content : List UInt8} (h : cr ∈ content) :
    splitLines content =
      (content.takeWhile (· ≠ cr) ::
          (splitLines (content.drop ((content.takeWhile (· ≠ cr)).length + 2))).1,
        (splitLines (content.drop ((content.takeWhile (· ≠ cr)).length + 2))).2) := by
  rw [splitLines, dif_pos h]

theorem splitLines_noCr {content : List UInt8} (h : cr ∉ content) :
    splitLines content = ([], content) := by
  rw [splitLines, dif_neg h]

theorem driverLines_cr {content : List UInt8} (h : cr ∈ content) :
    driverLines content = content.takeWhile (· ≠ cr) ::
      driverLines (content.drop ((content.takeWhile (· ≠ cr)).length + 2)) := by
  rw [driverLines, splitLines_cr h]
  rfl

theorem driverLines_noCr {content : List UInt8} (h : cr ∉ content) (hne : content ≠ []) :
    driverLines content = [content] := by
  rw [driverLines, splitLines_noCr h]
  simp [hne]

@[simp] theorem driverLines_nil : driverLines [] = [] := by
  rw [driverLines, splitLines_noCr List.not_mem_nil]
  rfl

@[simp] theorem size_nil : size [] = 0 := rfl

@[simp] theorem size_cons (l : List UInt8) (ls : List (List UInt8)) :
    size (l :: ls) = l.length + 2 + size ls := rfl

@[simp] theorem size_append (ls ls' : List (List UInt8)) :
    size (ls ++ ls') = size ls + size ls' := by
  simp [size]

theorem takeWhile_noCr {content : List UInt8} (h : cr ∉ content) :
    content.takeWhile (· ≠ cr) = content :=
  List.takeWhile_eq_self_iff.mpr fun _ hx => decide_eq_true fun he => h (he ▸ hx)

/-- The first line goes up to the first CR. -/
theorem driverLines_head {content : List UInt8} (hne : content ≠ []) :
    ∃ ls, driverLines content = content.takeWhile (· ≠ cr) :: ls := by
  by_cases h : cr ∈ content
  · exact ⟨_, driverLines_cr h⟩
  · exact ⟨[], by rw [driverLines_noCr h hne, takeWhile_noCr h]⟩

theorem takeWhile_mem_driverLines {content : List UInt8} (hne : content ≠ []) :
    content.takeWhile (· ≠ cr) ∈ driverLines content := by
  obtain ⟨ls, hls⟩ := driverLines_head hne
  rw [hls]
  exact List.mem_cons_self

theorem takeWhile_take_length_le (content : List UInt8) (k : Nat) :
    ((content.take k).takeWhile (· ≠ cr)).length ≤ (content.takeWhile (· ≠ cr)).length := by
  induction content generalizing k with
  | nil => simp
  | cons c content ih =>
    cases k with
    | zero => simp
    | succ k =>
      rw [List.take_succ_cons]
      by_cases hc : c = cr
      · simp [hc]
      · simpa [hc] using ih k

/-- A CR in front of the cut ends the same line. -/
theorem takeWhile_take {content : List UInt8} {k : Nat} (h : cr ∈ content.take k) :
    (content.take k).takeWhile (· ≠ cr) = content.takeWhile (· ≠ cr) := by
  induction content generalizing k with
  | nil => simp at h
  | cons c content ih =>
    cases k with
    | zero => simp at h
    | succ k =>
      rw [List.take_succ_cons] at h ⊢
      by_cases hc : c = cr
      · simp [hc]
      · have hm : cr ∈ content.take k := (List.mem_cons.mp h).resolve_left (Ne.symm hc)
        simpa [hc] using ih hm

/-- The lines cover the file. -/
theorem length_le_size (content : List UInt8) : content.length ≤ size (driverLines content) := by
  generalize hn : content.length = n
  induction n using Nat.strong_induction_on generalizing content with
  | _ n ih =>
    by_cases h : cr ∈ content
    · have hlt : (content.drop ((content.takeWhile (· ≠ cr)).length + 2)).length < n := by
        have hpos := List.length_pos_of_mem h
        rw [List.length_drop]
        omega
      have hrest := ih _ hlt _ rfl
      rw [List.length_drop] at hrest
      rw [driverLines_cr h, size_cons]
      omega
    · by_cases hne : content = []
      · simp [← hn, hne]
      · rw [driverLines_noCr h hne]
        simp only [size_cons, size_nil]
        omega

theorem lastOffset_le (content : List UInt8) : lastOffset content ≤ content.length + 1 := by
  generalize hn : content.length = n
  induction n using Nat.strong_induction_on generalizing content with
  | _ n ih =>
    rw [lastOffset]
    by_cases h : cr ∈ content
    · have hlt : (content.takeWhile (· ≠ cr)).length < content.length := by
        refine Nat.lt_of_le_of_ne (List.takeWhile_prefix _).length_le fun he => ?_
        have hself := (List.takeWhile_prefix (· ≠ cr)).eq_of_length he
        exact absurd (List.takeWhile_eq_self_iff.mp hself cr h) (by simp)
      rw [splitLines_cr h, size_cons]
      by_cases hd : content.length ≤ (content.takeWhile (· ≠ cr)).length + 2
      · -- the CR or the byte after it is the last of the file
        rw [List.drop_eq_nil_iff.mpr hd, splitLines_noCr List.not_mem_nil, size_nil]
        omega
      · have hrest := ih (content.length - ((content.takeWhile (· ≠ cr)).length + 2)) (by omega)
          (content.drop ((content.takeWhile (· ≠ cr)).length + 2)) List.length_drop
        rw [lastOffset] at hrest
        omega
    · rw [splitLines_noCr h]
      exact Nat.zero_le _

/-! ## One piece of the file -/

theorem chunk_apply (rem : List UInt8) (i : Nat) :
    chunk (rem.take buffSize) i = if i < 255 then rem.getD i 0 else 0 := by
  rw [chunk]
  by_cases h : i < 255
  · rw [if_pos (by rw [buffSize]; omega), if_pos h, List.getD_eq_getElem?_getD,
      List.getElem?_take_of_lt (by rw [buffSize]; omega), ← List.getD_eq_getElem?_getD]
  · rw [if_neg (by rw [buffSize]; omega), if_neg h]

/-- The copy loop over a piece of a file without NULs. -/
theorem scanLine_chunk {rem : List UInt8} (h0 : 0 ∉ rem) {n i : Nat} (hn : n + i = 256) :
    scanLine (chunk (rem.take buffSize)) n i =
      (((rem.drop i).take (255 - i)).takeWhile (· ≠ cr),
        decide (cr ∈ (rem.drop i).take (255 - i))) := by
  induction n generalizing i with
  | zero =>
    have hz : 255 - i = 0 := by omega
    simp [scanLine, hz]
  | succ n ih =>
    have hcr : ¬ (0 : UInt8) = cr := by decide
    rw [scanLine, chunk_apply]
    by_cases hi : i < 255
    · rw [if_pos hi]
      cases hd : rem.drop i with
      | nil =>
        have hle : rem.length ≤ i := List.drop_eq_nil_iff.mp hd
        simp [List.getElem?_eq_none hle, hcr]
      | cons c rest =>
        have hc : rem.getD i 0 = c := by
          have h : (rem.drop i)[0]? = rem[i + 0]? := List.getElem?_drop
          rw [hd, Nat.add_zero] at h
          rw [List.getD_eq_getElem?_getD, ← h]
          rfl
        have hrest : rem.drop (i + 1) = rest := by
          rw [← List.tail_drop, hd, List.tail_cons]
        have hmem : c ∈ rem.drop i := by
          rw [hd]
          exact List.mem_cons_self
        have hne : c ≠ 0 := fun he => h0 (he ▸ List.mem_of_mem_drop hmem)
        have hk : 255 - i = 254 - i + 1 := by omega
        have hk' : 255 - (i + 1) = 254 - i := by omega
        rw [hc, hk, List.take_succ_cons]
        by_cases he : c = cr
        · simp [he]
        · rw [if_neg he, if_neg hne, ih (by omega), hrest, hk']
          simp [he, Ne.symm he]
    · have hz : 255 - i = 0 := by omega
      simp [hi, hz, hcr]

section Loading

variable {p : Allocator Ptr} {a : Adf} {b : Blocklist} {list : AdHost}

theorem appended_nil (hab : Abstracts a b) : Appended a b list [] := by
  refine ⟨[], rfl, ?_⟩
  rw [List.append_nil, Blocklist.setHosts, Function.update_eq_self]
  exact hab

theorem Appended.hosts {a' : Adf} {b' : Blocklist} {ls : List (List UInt8)}
    (h : Appended a' b list ls) (he : b.hosts list = []) (hab' : Abstracts a' b') :
    (b'.hosts list).map Host.chars = ls := by
  obtain ⟨hs, rfl, hab⟩ := h
  rw [hab'.unique hab, setHosts_self, he, List.nil_append]

/-- Lines after lines. -/
theorem Appended.append {a' : Adf} (ls : List (List UInt8)) {ls' : List (List UInt8)} {hs : List Host}
    (hs' : hs.map Host.chars = ls)
    (h : Appended a' (b.setHosts list (b.hosts list ++ hs)) list ls') :
    Appended a' b list (ls ++ ls') := by
  obtain ⟨hs₂, hq, hab⟩ := h
  refine ⟨hs ++ hs₂, by rw [List.map_append, hs', hq], ?_⟩
  rw [setHosts_self] at hab
  rw [← List.append_assoc]
  simpa [Blocklist.setHosts] using hab

/-- The next `n` requests to the pool are granted. -/
def GrantsNext (p : Allocator Ptr) (a : Adf) (n : Nat) : Prop :=
  ∀ k < n, p.grants (a.pool.calls + k) = true

theorem grantsNext_two (h : granted p a = true) : GrantsNext p a 2 := by
  obtain ⟨h1, h2⟩ := Bool.and_eq_true_iff.mp h
  intro k hk
  rcases Nat.lt_succ_iff_lt_or_eq.mp hk with hk | rfl
  · obtain rfl : k = 0 := by omega
    exact h1
  · exact h2

theorem GrantsNext.add {a' : Adf} {m n : Nat} (h : GrantsNext p a m)
    (hc : a'.pool.calls = a.pool.calls + m) (h' : GrantsNext p a' n) : GrantsNext p a (m + n) := by
  intro k hk
  by_cases hm : k < m
  · exact h k hm
  · have h2 := h' (k - m) (by omega)
    rwa [hc, show a.pool.calls + m + (k - m) = a.pool.calls + k by omega] at h2

theorem GrantsNext.granted {n : Nat} (h : GrantsNext p a n) (hn : 2 ≤ n) : granted p a = true :=
  Bool.and_eq_true_iff.mpr ⟨h 0 (by omega), h 1 (by omega)⟩

theorem GrantsNext.rest {a' : Adf} {m n : Nat} (h : GrantsNext p a (m + n))
    (hc : a'.pool.calls = a.pool.calls + m) : GrantsNext p a' n := by
  intro k hk
  have h2 := h (m + k) (by omega)
  rwa [← Nat.add_assoc, ← hc] at h2

variable (p list) in
/-- A line that fits becomes the newest host, if there is memory for it. -/
theorem addLine (hab : Abstracts a b) {l : List UInt8} (h0 : 0 ∉ l) (hl : l.length ≤ adfHostMaxLen) :
    let r := addHostList p a (.head list) (textMem l) (strnlen (textMem l) adfHostMaxLen)
    r.1 = granted p a ∧
      (granted p a = true → r.2.pool.calls = a.pool.calls + 2 ∧
        Abstracts r.2 (b.setHosts list (b.hosts list ++ [⟨l, h0, hl⟩]))) := by
  have hb : bytes (textMem l) (strnlen (textMem l) adfHostMaxLen) = (⟨l, h0, hl⟩ : Host).chars := by
    rw [strnlen_textMem h0 hl, bytes_textMem (Nat.le_refl _), List.take_length]
  obtain ⟨h1, h2⟩ := hab.add (fun _ _ => false) p list hb
  refine ⟨h1, fun hg => ⟨?_, ?_⟩⟩
  · obtain ⟨c, k, -, -, -, -, hn⟩ := newHostList_granted hg (textMem l)
      (strnlen (textMem l) adfHostMaxLen)
    rw [addHostList, hn]
  · rw [hg] at h2
    exact h2

/-- What the loop over a piece leaves: the lines it has taken, where it stands, and
the part of a line it has read last. -/
structure Taken (p : Allocator Ptr) (a : Adf) (b : Blocklist) (list : AdHost) (rem : List UInt8)
    (i lines : Nat) (c : Chunk) (ls : List (List UInt8)) : Prop where
  appended : Appended c.adf b list ls
  calls : c.adf.pool.calls = a.pool.calls + 2 * ls.length
  grants : GrantsNext p a (2 * ls.length)
  pos : c.pos = i + size ls
  count : c.lines = lines + ls.length
  short : ∀ l ∈ ls, l.length ≤ adfHostMaxLen
  split : splitLines (rem.drop i) =
    (ls ++ (splitLines (rem.drop c.pos)).1, (splitLines (rem.drop c.pos)).2)
  last : c.pos < 255 → cr ∉ (rem.drop c.pos).take (255 - c.pos) ∧
    c.len = (rem.drop c.pos).take (255 - c.pos) ∧ c.len.length ≤ adfHostMaxLen

/-- Nothing is taken where no line ends. -/
theorem Taken.none {rem : List UInt8} (hab : Abstracts a b) {i : Nat} (lines : Nat)
    {len : List UInt8}
    (hlast : i < 255 → cr ∉ (rem.drop i).take (255 - i) ∧
      len = (rem.drop i).take (255 - i) ∧ len.length ≤ adfHostMaxLen) :
    Taken p a b list rem i lines ⟨a, i, lines, len⟩ [] where
  appended := appended_nil hab
  calls := rfl
  grants _ hk := absurd hk (Nat.not_lt_zero _)
  pos := rfl
  count := rfl
  short _ hl := absurd hl List.not_mem_nil
  split := rfl
  last := hlast

/-- A line that is added before the rest. -/
theorem Taken.line {rem l : List UInt8} {i lines : Nat} {a' : Adf} {c : Chunk}
    {ls : List (List UInt8)} (h0 : 0 ∉ l) (hshort : l.length ≤ adfHostMaxLen)
    (hgranted : granted p a = true) (hcalls : a'.pool.calls = a.pool.calls + 2)
    (hsplit : splitLines (rem.drop i) = (l :: (splitLines (rem.drop (i + (l.length + 2)))).1,
      (splitLines (rem.drop (i + (l.length + 2)))).2))
    (ht : Taken p a' (b.setHosts list (b.hosts list ++ [⟨l, h0, hshort⟩])) list rem
      (i + (l.length + 2)) (lines + 1) c ls) :
    Taken p a b list rem i lines c (l :: ls) where
  appended := Appended.append [l] rfl ht.appended
  calls := by
    rw [ht.calls, hcalls, List.length_cons]
    omega
  grants := by
    have hg := (grantsNext_two hgranted).add hcalls ht.grants
    rwa [show 2 + 2 * ls.length = 2 * (l :: ls).length by rw [List.length_cons]; omega] at hg
  pos := by
    rw [ht.pos, size_cons]
    omega
  count := by
    rw [ht.count, List.length_cons]
    omega
  short := List.forall_mem_cons.mpr ⟨hshort, ht.short⟩
  split := by
    rw [hsplit, ht.split]
    rfl
  last := ht.last

variable (p list) in
theorem loadLines_spec {rem : List UInt8} (h0 : 0 ∉ rem) (n : Nat) :
    ∀ (i lines : Nat) {a : Adf} {b : Blocklist}, Abstracts a b → 256 ≤ n + i →
      match loadLines p (.head list) (chunk (rem.take buffSize)) n i lines a with
      | .error .overrun => ∃ l ∈ driverLines (rem.drop i), adfHostMaxLen < l.length
      | .error (.noMemory _) => ¬ GrantsNext p a (2 * (driverLines (rem.drop i)).length)
      | .ok c => ∃ ls, Taken p a b list rem i lines c ls := by
  induction n with
  | zero =>
    intro i lines a b hab hn
    exact ⟨[], .none hab lines fun hi => absurd hi (by omega)⟩
  | succ n ih =>
    intro i lines a b hab hn
    rw [loadLines]
    by_cases hi : buffSize - 1 ≤ i
    · rw [if_pos hi]
      rw [buffSize] at hi
      exact ⟨[], .none hab lines fun hlt => absurd hlt (by omega)⟩
    rw [if_neg hi]
    rw [buffSize] at hi
    simp only [scanLine_chunk h0 (show buffSize - i + i = 256 by rw [buffSize]; omega)]
    generalize hrest : rem.drop i = rest
    have h0' : 0 ∉ rest := fun hm => h0 (List.mem_of_mem_drop (hrest ▸ hm))
    by_cases hlong : adfHostMaxLen < ((rest.take (255 - i)).takeWhile (· ≠ cr)).length
    · rw [if_pos hlong]
      have hne : rest ≠ [] := by
        rintro rfl
        simp at hlong
      exact ⟨_, takeWhile_mem_driverLines hne,
        Nat.lt_of_lt_of_le hlong (takeWhile_take_length_le rest (255 - i))⟩
    rw [if_neg hlong]
    have hshort := Nat.le_of_not_lt hlong
    by_cases hcr : cr ∈ rest.take (255 - i)
    · have hline := takeWhile_take hcr
      rw [hline] at hshort ⊢
      have hmem : cr ∈ rest := List.mem_of_mem_take hcr
      have hl0 : 0 ∉ rest.takeWhile (· ≠ cr) := fun hm =>
        h0' ((List.takeWhile_prefix _).subset hm)
      obtain ⟨hadd, hgr⟩ := addLine p list hab hl0 hshort
      have hdrop : rest.drop ((rest.takeWhile (· ≠ cr)).length + 2) =
          rem.drop (i + ((rest.takeWhile (· ≠ cr)).length + 2)) := by
        rw [← hrest, List.drop_drop]
      have hdl := driverLines_cr hmem
      have hsl := splitLines_cr hmem
      rw [hdrop] at hdl hsl
      simp only [hcr, decide_true, Bool.true_eq_false, if_false]
      revert hadd hgr
      cases addHostList p a (.head list) (textMem (rest.takeWhile (· ≠ cr)))
        (strnlen (textMem (rest.takeWhile (· ≠ cr))) adfHostMaxLen) with
      | mk ok a' =>
        intro hadd hgr
        have hpos : 2 ≤ 2 * (driverLines rest).length := by
          rw [hdl, List.length_cons]
          omega
        cases ok with
        | false =>
          intro hg
          rw [hg.granted hpos] at hadd
          exact absurd hadd (by simp)
        | true =>
          obtain ⟨hcalls, hab'⟩ := hgr hadd.symm
          have hnext := ih (i + ((rest.takeWhile (· ≠ cr)).length + 2)) (lines + 1) hab'
             (by omega)
          revert hnext
          simp only
          cases loadLines p (.head list) (chunk (rem.take buffSize)) n
            (i + ((rest.takeWhile (· ≠ cr)).length + 2)) (lines + 1) a' with
          | error e =>
            cases e with
            | overrun =>
              rintro ⟨l, hl, hlen⟩
              exact ⟨l, hdl ▸ List.mem_cons_of_mem _ hl, hlen⟩
            | noMemory a'' =>
              intro hn hg
              refine hn (GrantsNext.rest (m := 2) ?_ hcalls)
              rw [hdl, List.length_cons] at hg
              intro k hk
              exact hg k (by omega)
          | ok c =>
            rintro ⟨ls, ht⟩
            exact ⟨_, ht.line hl0 hshort hadd.symm hcalls (by rw [hrest]; exact hsl)⟩
    · have hw : (rest.take (255 - i)).takeWhile (· ≠ cr) = rest.take (255 - i) := takeWhile_noCr hcr
      simp only [hcr, decide_false, if_true]
      rw [hw] at hshort ⊢
      exact ⟨[], .none hab lines fun _ => ⟨hrest ▸ hcr, by rw [hrest], hshort⟩⟩

/-- A piece without a whole line is the end of its file. -/
theorem Taken.last_line {rem : List UInt8} {c : Chunk} {ls : List (List UInt8)}
    (ht : Taken p a b list rem 0 0 c ls) (h0 : c.lines = 0) :
    ls = [] ∧ c.len = rem ∧ cr ∉ rem ∧ rem.length ≤ adfHostMaxLen := by
  have hls : ls = [] := List.length_eq_zero_iff.mp (by have h := ht.count; omega)
  have hpos : c.pos = 0 := by
    rw [ht.pos, hls]
    rfl
  obtain ⟨hcr, hlen, hshort⟩ := ht.last (by omega)
  rw [hpos, List.drop_zero, Nat.sub_zero] at hcr hlen
  have hrem : rem.take 255 = rem := by
    refine List.take_of_length_le ?_
    rw [hlen, List.length_take, adfHostMaxLen] at hshort
    omega
  rw [hrem] at hcr hlen
  exact ⟨hls, hlen, hcr, hlen ▸ hshort⟩

theorem Taken.lastOffset {rem : List UInt8} {c : Chunk} {ls : List (List UInt8)}
    (ht : Taken p a b list rem 0 0 c ls) :
    lastOffset rem = c.pos + lastOffset (rem.drop c.pos) ∧
      driverLines rem = ls ++ driverLines (rem.drop c.pos) := by
  have hs := ht.split
  rw [List.drop_zero] at hs
  constructor
  · rw [FileLines.lastOffset, hs, size_append, ht.pos, Nat.zero_add]
    rfl
  · rw [driverLines, hs, List.append_assoc]
    rfl

variable {content : List UInt8}

/-- A load that returns success has added the lines from its offset on, or its
offset has gone round and it has added more than the file holds. -/
theorem loadChunks_returned (h0 : 0 ∉ content) {fuel : Nat} :
    ∀ {call o : Nat} {a : Adf} {b : Blocklist} {closed : Bool} {a' : Adf}, Abstracts a b → o < 2 ^ 32 →
      loadChunks p (.head list) (fileReader content) fuel call o a =
        some (.returned statusSuccess closed a') →
      ∃ ls, Appended a' b list ls ∧ GrantsNext p a (2 * ls.length) ∧
        content.length ≤ 2 ^ 32 + adfHostMaxLen ∧
        ((ls = driverLines (content.drop o) ∧ o + lastOffset (content.drop o) < 2 ^ 32) ∨
          2 ^ 32 + content.length ≤ o + size ls) := by
  have hstatus : statusMemoryNotAllocated ≠ statusSuccess := by decide
  induction fuel with
  | zero =>
    intro call o a b closed a' _ _ h
    simp [loadChunks] at h
  | succ fuel ih =>
    intro call o a b closed a' hab ho h
    rw [loadChunks, fileReader] at h
    by_cases hend : content.length ≤ o
    · simp only [hend, if_true, Option.some.injEq, LoadResult.returned.injEq] at h
      obtain ⟨-, -, rfl⟩ := h
      have hd : content.drop o = [] := List.drop_eq_nil_iff.mpr hend
      refine ⟨[], appended_nil hab, fun _ hk => absurd hk (Nat.not_lt_zero _), by omega,
        Or.inl ⟨by rw [hd, driverLines_nil], ?_⟩⟩
      rw [hd, FileLines.lastOffset, splitLines_noCr List.not_mem_nil]
      simpa using ho
    · simp only [hend, if_false] at h
      have h0' : 0 ∉ content.drop o := fun hm => h0 (List.mem_of_mem_drop hm)
      have hspec := loadLines_spec p list h0' buffSize 0 0 hab
        (by rw [buffSize])
      revert hspec h
      cases loadLines p (.head list) (chunk ((content.drop o).take buffSize)) buffSize 0 0 a with
      | error e =>
        cases e with
        | overrun => simp
        | noMemory a1 => simp [hstatus]
      | ok c =>
        rintro h ⟨ls, ht⟩
        simp only at h
        by_cases hl0 : c.lines = 0
        · obtain ⟨rfl, hlen, hcr, hshort⟩ := ht.last_line hl0
          obtain ⟨hs, hq, habc⟩ := ht.appended
          rw [if_pos hl0, hlen] at h
          obtain ⟨hadd, hgr⟩ := addLine p list habc h0' hshort
          revert hadd hgr h
          cases addHostList p c.adf (.head list) (textMem (content.drop o))
            (strnlen (textMem (content.drop o)) adfHostMaxLen) with
          | mk ok a1 =>
            intro h hadd hgr
            cases ok with
            | false => simp [hstatus] at h
            | true =>
              simp only [Option.some.injEq, LoadResult.returned.injEq] at h
              obtain ⟨-, -, rfl⟩ := h
              obtain ⟨-, hab'⟩ := hgr hadd.symm
              have hne : content.drop o ≠ [] := by
                rw [ne_eq, List.drop_eq_nil_iff]
                exact hend
              refine ⟨[content.drop o], ?_, ?_, ?_, Or.inl ⟨(driverLines_noCr hcr hne).symm, ?_⟩⟩
              · exact Appended.append [] hq ⟨[_], rfl, hab'⟩
              · have hg := grantsNext_two hadd.symm
                intro k hk
                have hk' := hg k hk
                rwa [ht.calls] at hk'
              · rw [List.length_drop] at hshort
                omega
              · rw [FileLines.lastOffset, splitLines_noCr hcr]
                simpa using ho
        · rw [if_neg hl0] at h
          obtain ⟨hs, hq, habc⟩ := ht.appended
          have hmod : (o + c.pos) % 2 ^ 32 < 2 ^ 32 := Nat.mod_lt _ (by decide)
          obtain ⟨ls', happ, hg, hbound, hcase⟩ := ih habc hmod h
          have hpos := ht.pos
          obtain ⟨hoff, hdl⟩ := ht.lastOffset
          refine ⟨ls ++ ls', Appended.append _ hq happ, ?_, hbound, ?_⟩
          · have hg' := ht.grants.add ht.calls hg
            rwa [← Nat.mul_add, ← List.length_append] at hg'
          · rw [size_append]
            by_cases hwrap : o + c.pos < 2 ^ 32
            · rw [Nat.mod_eq_of_lt hwrap, ← List.drop_drop] at hcase
              rcases hcase with ⟨hls', hlt⟩ | hge
              · exact Or.inl ⟨by rw [hdl, hls'], by omega⟩
              · exact Or.inr (by omega)
            · right
              rcases hcase with ⟨hls', -⟩ | hge
              · have hcover := length_le_size (content.drop ((o + c.pos) % 2 ^ 32))
                rw [← hls', List.length_drop] at hcover
                omega
              · omega

/-- With memory for its lines, with lines that fit and an offset that does not go
round, a load ends with success. -/
theorem loadChunks_finishes (h0 : 0 ∉ content) (fuel : Nat) :
    ∀ (call : Nat) {o : Nat} {a : Adf} {b : Blocklist}, Abstracts a b → 1 ≤ fuel →
      content.length + 2 ≤ fuel + o → o + lastOffset (content.drop o) < 2 ^ 32 →
      (∀ l ∈ driverLines (content.drop o), l.length ≤ adfHostMaxLen) →
      GrantsNext p a (2 * (driverLines (content.drop o)).length) →
      ∃ closed a', loadChunks p (.head list) (fileReader content) fuel call o a =
          some (.returned statusSuccess closed a') ∧
        Appended a' b list (driverLines (content.drop o)) := by
  induction fuel with
  | zero =>
    intro call o a b _ hf
    omega
  | succ fuel ih =>
    intro call o a b hab _ hfuel hoff hfit hg
    rw [loadChunks, fileReader]
    by_cases hend : content.length ≤ o
    · simp only [hend, if_true]
      have hd : content.drop o = [] := List.drop_eq_nil_iff.mpr hend
      refine ⟨true, a, rfl, ?_⟩
      rw [hd, driverLines_nil]
      exact appended_nil hab
    · simp only [hend, if_false]
      have h0' : 0 ∉ content.drop o := fun hm => h0 (List.mem_of_mem_drop hm)
      have hspec := loadLines_spec p list h0' buffSize 0 0 hab
        (by rw [buffSize])
      revert hspec
      cases loadLines p (.head list) (chunk ((content.drop o).take buffSize)) buffSize 0 0 a with
      | error e =>
        cases e with
        | overrun =>
          rintro ⟨l, hl, hlen⟩
          exact absurd (hfit l hl) (by omega)
        | noMemory a1 => exact fun hn => absurd hg hn
      | ok c =>
        rintro ⟨ls, ht⟩
        simp only
        obtain ⟨hs, hq, habc⟩ := ht.appended
        obtain ⟨hlast, hdl⟩ := ht.lastOffset
        by_cases hl0 : c.lines = 0
        · obtain ⟨rfl, hlen, hcr, hshort⟩ := ht.last_line hl0
          have hne : content.drop o ≠ [] := by
            rw [ne_eq, List.drop_eq_nil_iff]
            exact hend
          obtain ⟨hadd, hgr⟩ := addLine p list habc h0' hshort
          have hgc : granted p c.adf = true := by
            refine GrantsNext.granted (GrantsNext.rest (m := 0) (n := 2) ?_ ht.calls) (Nat.le_refl 2)
            rw [driverLines_noCr hcr hne] at hg
            exact hg
          obtain ⟨-, hab'⟩ := hgr hgc
          rw [hgc] at hadd
          rw [if_pos hl0, hlen, driverLines_noCr hcr hne]
          revert hadd hab'
          cases addHostList p c.adf (.head list) (textMem (content.drop o))
            (strnlen (textMem (content.drop o)) adfHostMaxLen) with
          | mk ok a1 =>
            rintro rfl hab'
            exact ⟨true, a1, rfl, Appended.append [] hq ⟨[_], rfl, hab'⟩⟩
        · rw [if_neg hl0]
          have hpos : 2 ≤ c.pos := by
            have hcount := ht.count
            cases ls with
            | nil => exact absurd hcount hl0
            | cons l ls =>
              rw [ht.pos, size_cons]
              omega
          have hlt : o + c.pos < 2 ^ 32 := by omega
          rw [Nat.mod_eq_of_lt hlt]
          rw [List.drop_drop] at hlast hdl
          rw [hdl] at hfit hg ⊢
          obtain ⟨closed, a', hload, happ⟩ := ih (call + 1) (o := o + c.pos) habc
            (by omega) (by omega) (by omega) (fun l hl => hfit l (List.mem_append_right _ hl))
            (GrantsNext.rest (m := 2 * ls.length)
              (by rwa [List.length_append, Nat.mul_add] at hg) ht.calls)
          exact ⟨closed, a', hload, Appended.append _ hq happ⟩

end Loading

end AdFilter.Driver.FileLines
