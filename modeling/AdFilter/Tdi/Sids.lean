import AdFilter.Lib.Framed
import AdFilter.Tdi.LogQueue
import AdFilter.Driver.HostList
import Mathlib.Data.List.Find

/-!
# The list of user identifiers

`set_sid_list` gets a buffer of SIDs, each behind its length, and keeps where they start;
`get_sid_id` looks a SID up by its bytes. The element 0 stands for any user and is never
compared. The sum of an offset and a length is a `size_t`, so it can wrap on a 32-bit system.
-/

namespace AdFilter.Tdi.Sids

open AdFilter.Lib.Framed
open AdFilter.Driver.HostList (memcmp textMem bytes bytes_textMem memcmp_iff)
open AdFilter.Tdi.LogQueue (Platform)

def maxSidsCount : Nat := 128

/-- `sizeof(struct sid_nfo)` -/
def sizeofSidNfo : Nat := 4

/-- The loop of `set_sid_list` from the offset `pos` on, with room for `n` more elements:
the offsets it puts into `g_sids.list`, and where it stops. -/
def parseSids (pl : Platform) (buf : List UInt8) (size : Nat) : Nat → Nat → List Nat × Nat
  | 0, pos => ([], pos)
  | n + 1, pos =>
      if (pos + sizeofSidNfo) % pl.sizeT < size then
        let next := (pos + sizeofSidNfo + readLe32 (buf.drop pos)) % pl.sizeT
        if size < next then ([], pos)
        else
          let r := parseSids pl buf size n (next % 2 ^ 32)
          (pos :: r.1, r.2)
      else ([], pos)

/-- `SeLengthSid` -/
def seLengthSid (sid : List UInt8) : Nat := 8 + 4 * (sid.getD 1 0).toNat

/-- "comparing sids byte by byte" -/
def sameSid (sid other : List UInt8) : Bool :=
  decide (seLengthSid sid = seLengthSid other) &&
    memcmp (textMem sid) (textMem other) (seLengthSid sid)

/-- `get_sid_id` over the copy of the buffer and the offsets into it. -/
def getSidId (buf : List UInt8) (list : List Nat) (sid : List UInt8) : Nat :=
  ((List.range' 1 (list.length - 1)).find? fun i =>
    sameSid sid (buf.drop (list.getD i 0 + sizeofSidNfo))).getD 0

/-- The lists of SIDs that a buffer may hold: the last one must not be empty. -/
structure SidList (sids : List (List UInt8)) : Prop where
  fits : sids.length ≤ maxSidsCount
  last : sids.getLast? ≠ some []

variable {buf tail : List UInt8} {sids : List (List UInt8)} {pl : Platform}

/-! ## The loop -/

theorem drop_cons_frames {pos : Nat} {sid : List UInt8} (hd : buf.drop pos = frames (sid :: sids)) :
    buf.drop (pos + 4 + sid.length) = frames sids ∧
      buf.length = pos + 4 + sid.length + (frames sids).length := by
  have hlen := congrArg List.length hd
  rw [List.length_drop, frames_cons, List.length_append, length_frame] at hlen
  constructor
  · rw [Nat.add_assoc, ← List.drop_drop, hd, frames_cons, ← length_frame, List.drop_left]
  · omega

/-- Well-formed entries are taken as long as there is room. -/
theorem parseSids_frames {n pos : Nat} (hsmall : pos + (frames (sids.take n)).length < 2 ^ 32)
    (hT : pos + (frames (sids.take n)).length + 4 < pl.sizeT) (hd : buf.drop pos = frames sids)
    (hpos : pos ≤ buf.length) (hl : sids.getLast? ≠ some []) :
    parseSids pl buf buf.length n pos =
      (offsets pos (sids.take n), pos + (frames (sids.take n)).length) := by
  induction sids generalizing pos n with
  | nil =>
    have hend : pos = buf.length := by
      have hlen := congrArg List.length hd
      rw [List.length_drop, frames_nil, List.length_nil] at hlen
      omega
    rw [List.take_nil, frames_nil, List.length_nil] at hT
    cases n with
    | zero => rfl
    | succ n =>
      have hstop : ¬ (pos + sizeofSidNfo) % pl.sizeT < buf.length := by
        rw [sizeofSidNfo, Nat.mod_eq_of_lt (by omega)]
        omega
      rw [parseSids, if_neg hstop]
      rfl
  | cons sid sids ih =>
    cases n with
    | zero => rfl
    | succ n =>
      obtain ⟨hrest, hlen⟩ := drop_cons_frames hd
      rw [List.take_succ_cons, frames_cons, List.length_append, length_frame] at hsmall hT
      -- an entry without bytes is not the last one, and each further one takes four bytes
      have hmore : pos + 4 < buf.length := by
        cases sids with
        | nil =>
          have hne : sid ≠ [] := fun he => hl (by rw [he]; rfl)
          have := List.length_pos_iff.mpr hne
          omega
        | cons sid' sids =>
          rw [frames_cons, List.length_append, length_frame] at hlen
          omega
      have hread : readLe32 (buf.drop pos) = sid.length := by
        rw [hd, frames_cons, frame, List.append_assoc]
        exact readLe32_append (by omega) _
      have hl' : sids.getLast? ≠ some [] := by
        cases sids with
        | nil => exact fun h => by cases h
        | cons sid' sids => rwa [List.getLast?_cons_cons] at hl
      have hgo : (pos + sizeofSidNfo) % pl.sizeT < buf.length := by
        rw [sizeofSidNfo, Nat.mod_eq_of_lt (by omega)]
        exact hmore
      have hnext : (pos + sizeofSidNfo + sid.length) % pl.sizeT = pos + 4 + sid.length :=
        Nat.mod_eq_of_lt (by rw [sizeofSidNfo]; omega)
      rw [parseSids, if_pos hgo]
      simp only [hread, hnext]
      rw [if_neg (by omega), Nat.mod_eq_of_lt (by omega),
        ih (by omega) (by omega) hrest (by omega) hl', List.take_succ_cons, offsets, frames_cons,
        List.length_append, length_frame, Nat.add_assoc pos 4, Nat.add_assoc]

/-- Without a wrap, the loop comes to the end of the buffer over well-formed entries only. -/
theorem frames_of_parseSids (hsize : buf.length < 2 ^ 32) {n pos : Nat} (hpos : pos ≤ buf.length)
    (h : (parseSids .x64 buf buf.length n pos).2 = buf.length) :
    ∃ sids, buf.drop pos = frames sids ∧ sids.length ≤ n ∧ sids.getLast? ≠ some [] := by
  have hdone : pos = buf.length → buf.drop pos = frames [] := fun he => by simp [he]
  induction n generalizing pos with
  | zero => exact ⟨[], hdone h, Nat.le_refl 0, fun hl => by cases hl⟩
  | succ n ih =>
    have hlt := readLe32_lt (buf.drop pos)
    have hmod : (pos + sizeofSidNfo) % Platform.x64.sizeT = pos + 4 :=
      Nat.mod_eq_of_lt (by simp only [sizeofSidNfo, Platform.sizeT]; omega)
    have hmod' : (pos + sizeofSidNfo + readLe32 (buf.drop pos)) % Platform.x64.sizeT =
        pos + 4 + readLe32 (buf.drop pos) :=
      Nat.mod_eq_of_lt (by simp only [sizeofSidNfo, Platform.sizeT]; omega)
    rw [parseSids, hmod, hmod'] at h
    by_cases hgo : pos + 4 < buf.length
    · rw [if_pos hgo] at h
      by_cases hover : buf.length < pos + 4 + readLe32 (buf.drop pos)
      · simp only [if_pos hover] at h
        omega
      · simp only [if_neg hover] at h
        rw [Nat.mod_eq_of_lt (by omega)] at h
        obtain ⟨sids, hd, hn, hl⟩ := ih (by omega) h (fun he => by simp [he])
        let sid := (buf.drop (pos + 4)).take (readLe32 (buf.drop pos))
        have hsid : sid.length = readLe32 (buf.drop pos) := by
          rw [List.length_take, List.length_drop]
          omega
        refine ⟨sid :: sids, ?_, Nat.succ_le_succ hn, ?_⟩
        · have hfour : 4 ≤ (buf.drop pos).length := by
            rw [List.length_drop]
            omega
          have hsplit : sid ++ buf.drop (pos + 4 + sid.length) = buf.drop (pos + 4) := by
            rw [hsid, ← List.drop_drop]
            exact List.take_append_drop _ _
          calc buf.drop pos
              = le32 (readLe32 (buf.drop pos)) ++ (buf.drop pos).drop 4 :=
                (le32_readLe32 hfour).symm
            _ = le32 sid.length ++ (sid ++ buf.drop (pos + 4 + sid.length)) := by
                rw [hsplit, hsid, List.drop_drop]
            _ = frames (sid :: sids) := by
                rw [frames_cons, frame, List.append_assoc, hsid, hd]
        · cases sids with
          | cons sid' sids => rwa [List.getLast?_cons_cons]
          | nil =>
            -- the last entry ends the buffer, and the test has found more than its length there
            intro he
            have hnil : sid = [] := by simpa using he
            have hend := congrArg List.length hd
            rw [List.length_drop, frames_nil, List.length_nil] at hend
            rw [hnil, List.length_nil] at hsid
            omega
    · rw [if_neg hgo] at h
      exact ⟨[], hdone h, Nat.zero_le _, fun hl => by cases hl⟩

/-! ## The search -/

/-- Whole SIDs are the same when their bytes are. -/
theorem sameSid_iff {sid other : List UInt8} (rest : List UInt8) (hs : sid.length = seLengthSid sid)
    (ho : other.length = seLengthSid other) : sameSid sid (other ++ rest) = true ↔ sid = other := by
  have hlen : seLengthSid (other ++ rest) = seLengthSid other := by
    have hlong : 1 < other.length := by
      rw [ho, seLengthSid]
      omega
    rw [seLengthSid, seLengthSid, List.getD_eq_getElem?_getD, List.getD_eq_getElem?_getD,
      List.getElem?_append_left hlong]
  rw [sameSid, Bool.and_eq_true, decide_eq_true_iff, hlen, memcmp_iff]
  constructor
  · rintro ⟨hl, hb⟩
    rw [bytes_textMem (by omega), bytes_textMem (by rw [List.length_append]; omega),
      List.take_of_length_le (by omega)] at hb
    rw [hb, List.take_append_of_le_length (by omega), List.take_of_length_le (by omega)]
  · rintro rfl
    refine ⟨rfl, ?_⟩
    rw [bytes_textMem (by omega), bytes_textMem (by rw [List.length_append]; omega),
      List.take_append_of_le_length (by omega)]

/-- An element of the list leads to its SID. -/
theorem sameSid_element (hd : buf = frames sids ++ tail) (hw : ∀ sid ∈ sids, sid.length = seLengthSid sid)
    {k : Nat} {sid other : List UInt8} (hk : sids[k]? = some other)
    (hs : sid.length = seLengthSid sid) :
    sameSid sid (buf.drop ((offsets 0 sids).getD k 0 + sizeofSidNfo)) = true ↔ sid = other := by
  have hstart : buf.drop 0 = frames sids ++ tail := hd
  obtain ⟨offset, rest, ho, hdrop⟩ := drop_offset hstart hk
  rw [List.getD_eq_getElem?_getD, ho, Option.getD_some, sizeofSidNfo, ← List.drop_drop, hdrop,
    frame, List.append_assoc, show (4 : Nat) = (le32 other.length).length from rfl, List.drop_left]
  exact sameSid_iff rest hs (hw other (List.mem_of_getElem? hk))

/-- The number of a SID is that of the first element after the one for any user that is
equal to it, or 0. -/
theorem getSidId_offsets (hd : buf = frames sids ++ tail)
    (hw : ∀ sid ∈ sids, sid.length = seLengthSid sid) {sid : List UInt8}
    (hs : sid.length = seLengthSid sid) :
    getSidId buf (offsets 0 sids) sid =
      ((List.range' 1 (sids.length - 1)).find? fun i => sids[i]? = some sid).getD 0 := by
  unfold getSidId
  rw [length_offsets]
  congr 1
  apply List.find?_congr
  intro i hi
  have hlt : i < sids.length := by
    rw [List.mem_range'_1] at hi
    omega
  have hk : sids[i]? = some sids[i] := List.getElem?_eq_getElem hlt
  rw [Bool.eq_iff_iff, sameSid_element hd hw hk hs, decide_eq_true_iff, hk, Option.some.injEq]
  exact eq_comm

end AdFilter.Tdi.Sids
