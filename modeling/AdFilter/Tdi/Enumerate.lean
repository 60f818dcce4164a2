import AdFilter.Tdi.ConnHash
import AdFilter.Tdi.LogQueue

/-!
# Enumerating connections and listeners

`enum_tcp_conn` and `enum_listen` write one record for each entry of their table into a
buffer. After each record they ask whether another one has room, before they know
whether there is another one, so a buffer that is just filled is said to be too small.
-/

namespace AdFilter.Tdi.Enumerate

open AdFilter.Driver.Represent (blankAdf)
open AdFilter.Lib.Linked
open AdFilter.Nt
open AdFilter.Tdi.Ipc
open AdFilter.Tdi.Objects
open AdFilter.Tdi.Machine (blank)
open AdFilter.Tdi.LogQueue (Platform)
open AdFilter.Tdi.ConnBuckets

/-! ## Records -/

structure TcpConnNfo where
  state : Int
  laddr : UInt32
  lport : UInt16
  raddr : UInt32
  rport : UInt16
  pid : Nat
  bytesIn : Nat
  bytesOut : Nat
deriving DecidableEq, Repr

structure ListenNfo where
  ipproto : Nat
  addr : UInt32
  port : UInt16
  pid : Nat
deriving DecidableEq, Repr

/-- `sizeof(struct tcp_conn_nfo)`, packed -/
def sizeofTcpConnNfo : Nat := 28

/-- `sizeof(struct listen_nfo)`, packed -/
def sizeofListenNfo : Nat := 14

/-- What is written for a connection; one that is closed is skipped. -/
def tcpConnNfo (g : Globals) (ce : Nat) : Option TcpConnNfo :=
  let e := g.conn ce
  if e.state = tcpStateClosed then none
  else
    let ote := g.otFindFileobj e.connobj
    some
      { state := e.state, laddr := e.laddr, lport := e.lport, raddr := e.raddr, rport := e.rport,
        pid := ote.elim 0 OtEntry.pid, bytesIn := ote.elim 0 OtEntry.bytesIn,
        bytesOut := ote.elim 0 OtEntry.bytesOut }

def listenNfo (g : Globals) (le : Nat) : Option ListenNfo :=
  let e := g.listen le
  let ote := g.otFindFileobj e.addrobj
  some { ipproto := e.ipproto, addr := e.addr, port := e.port, pid := ote.elim 0 OtEntry.pid }

/-! ## The loops -/

/-- The records that have been written, one after the other, and `*buf_len`. -/
structure Written (ν : Type) where
  buf : List ν := []
  bufLen : Nat := 0

/-- A table as the loops go through it: its buckets, its records and their size. -/
structure Source (ν : Type) where
  hashSize : Nat
  head : Nat → Option Nat
  next : Nat → Option Nat
  nfo : Nat → Option ν
  size : Nat

section Loops

variable {ν : Type}

/-- The record is written, and the status says whether another one has room. The sum is
one of `size_t`. -/
def writeNfo (pl : Platform) (size bufSize : Nat) (w : Written ν) (r : ν) : NtStatus × Written ν :=
  let w := { w with buf := w.buf ++ [r], bufLen := (w.bufLen + size) % 2 ^ 32 }
  (if bufSize < (w.bufLen + size) % pl.sizeT then statusBufferTooSmall else statusSuccess, w)

/-- The loop over one chain, without an outcome when it is not over after `n` entries. -/
def enumChain (pl : Platform) (s : Source ν) (bufSize : Nat) :
    Nat → Option Nat → Written ν → Option (NtStatus × Written ν)
  | _, none, w => some (statusSuccess, w)
  | 0, some _, _ => none
  | n + 1, some e, w =>
      match s.nfo e with
      | none => enumChain pl s bufSize n (s.next e) w
      | some r =>
          let o := writeNfo pl s.size bufSize w r
          if o.1 ≠ statusSuccess then some o else enumChain pl s bufSize n (s.next e) o.2

/-- The loop over the buckets. -/
def enumBuckets (pl : Platform) (s : Source ν) (bufSize n : Nat) :
    List Nat → Written ν → Option (NtStatus × Written ν)
  | [], w => some (statusSuccess, w)
  | hash :: hashes, w =>
      (enumChain pl s bufSize n (s.head hash) w).bind fun o =>
        if o.1 ≠ statusSuccess then some o else enumBuckets pl s bufSize n hashes o.2

def enumTable (pl : Platform) (s : Source ν) (bufSize n : Nat) : Option (NtStatus × Written ν) :=
  if bufSize < s.size then some (statusInvalidParameter, {})
  else enumBuckets pl s bufSize n (List.range s.hashSize) {}

end Loops

def listenHashSize : Nat := 0x1000

def connHashSize : Nat := 0x1000

def connSource (g : Globals) : Source TcpConnNfo :=
  ⟨connHashSize, g.connHash, fun ce => (g.conn ce).next, tcpConnNfo g, sizeofTcpConnNfo⟩

def listenSource (g : Globals) : Source ListenNfo :=
  ⟨listenHashSize, g.listenHash, fun le => (g.listen le).next, listenNfo g, sizeofListenNfo⟩

/-- `enum_tcp_conn` and `enum_listen`, with a bound on the length of the chains. -/
def enumTcpConn (pl : Platform) (g : Globals) (bufSize : UInt32) (n : Nat) :
    Option (NtStatus × Written TcpConnNfo) :=
  enumTable pl (connSource g) bufSize.toNat n

def enumListen (pl : Platform) (g : Globals) (bufSize : UInt32) (n : Nat) :
    Option (NtStatus × Written ListenNfo) :=
  enumTable pl (listenSource g) bufSize.toNat n

/-! ## What an enumeration should do -/

section Right

variable {ν : Type}

/-- The chains of the table are `rows`, and none comes into another one. -/
structure Rows (s : Source ν) (rows : Nat → List Nat) : Prop where
  row : ∀ i < s.hashSize, Spans s.next (s.head i) (rows i)
  disjoint : ∀ i < s.hashSize, ∀ j < s.hashSize, ∀ e, e ∈ rows i → e ∈ rows j → i = j

/-- The entries that are to be enumerated. -/
def reportable (s : Source ν) (rows : Nat → List Nat) : List Nat :=
  ((List.range s.hashSize).flatMap rows).filter fun e => (s.nfo e).isSome

/-- The records fit into the buffer, `*buf_len` is their size, they are of different
entries, and the status tells whether they are of all entries. -/
structure Complete (s : Source ν) (rows : Nat → List Nat) (bufSize : Nat)
    (o : NtStatus × Written ν) : Prop where
  inside : o.2.buf.length * s.size ≤ bufSize
  bufLen : o.2.bufLen = o.2.buf.length * s.size
  entries : ∃ es : List Nat, es.Nodup ∧ (∀ e ∈ es, e ∈ reportable s rows) ∧
    es.map s.nfo = o.2.buf.map some ∧
    (o.1 = statusSuccess ↔ ∀ e ∈ reportable s rows, e ∈ es) ∧
    (o.1 = statusBufferTooSmall → ∃ e ∈ reportable s rows, e ∉ es)

/-- How many entries the buffer is right for: not as many as it has room for, but where
the room for one more is past the `size_t`, not more than that. -/
def RoomFor (pl : Platform) (size bufSize n : Nat) : Prop :=
  if (bufSize / size + 1) * size < pl.sizeT then n ≠ bufSize / size else n ≤ bufSize / size

/-! ## The loops over lists -/

/-- The records of a list of entries are written in their order, as long as there is room. -/
def pack (pl : Platform) (size bufSize : Nat) : List ν → Written ν → NtStatus × Written ν
  | [], w => (statusSuccess, w)
  | r :: rs, w =>
      let o := writeNfo pl size bufSize w r
      if o.1 ≠ statusSuccess then o else pack pl size bufSize rs o.2

variable {pl : Platform} {s : Source ν} {rows : Nat → List Nat} {size bufSize n : Nat}
  {w : Written ν} {o : NtStatus × Written ν}

theorem tooSmall_ne_success : statusBufferTooSmall ≠ statusSuccess := by
  decide

theorem pack_append (rs ss : List ν) (w : Written ν) :
    pack pl size bufSize (rs ++ ss) w =
      if (pack pl size bufSize rs w).1 ≠ statusSuccess then pack pl size bufSize rs w
      else pack pl size bufSize ss (pack pl size bufSize rs w).2 := by
  induction rs generalizing w with
  | nil => rw [pack, if_neg (not_not.mpr rfl), List.nil_append]
  | cons r rs ih =>
    rw [List.cons_append, pack, pack]
    by_cases ho : (writeNfo pl size bufSize w r).1 ≠ statusSuccess
    · rw [if_pos ho, if_pos ho, if_pos ho]
    · rw [if_neg ho, if_neg ho]
      exact ih _

theorem enumChain_eq {p : Option Nat} {as : List Nat} (hs : Spans s.next p as)
    (hn : as.length ≤ n) :
    enumChain pl s bufSize n p w = some (pack pl s.size bufSize (as.filterMap s.nfo) w) := by
  induction as generalizing p n w with
  | nil =>
    obtain rfl := hs
    unfold enumChain
    rfl
  | cons e as ih =>
    obtain ⟨rfl, ht⟩ := hs
    cases n with
    | zero => exact absurd hn (by simp)
    | succ n =>
      have hn := Nat.le_of_succ_le_succ hn
      rw [enumChain]
      cases he : s.nfo e with
      | none =>
        rw [List.filterMap_cons_none he]
        exact ih ht hn
      | some r =>
        rw [List.filterMap_cons_some he, pack]
        dsimp only
        by_cases ho : (writeNfo pl s.size bufSize w r).1 ≠ statusSuccess
        · rw [if_pos ho, if_pos ho]
        · rw [if_neg ho, if_neg ho]
          exact ih ht hn

theorem enumBuckets_eq (hr : Rows s rows) (hn : ∀ i < s.hashSize, (rows i).length ≤ n)
    (hashes : List Nat) (hlt : ∀ i ∈ hashes, i < s.hashSize) :
    ∀ w, enumBuckets pl s bufSize n hashes w =
      some (pack pl s.size bufSize ((hashes.flatMap rows).filterMap s.nfo) w) := by
  induction hashes with
  | nil => exact fun w => rfl
  | cons i hashes ih =>
    obtain ⟨hi, hlt⟩ := List.forall_mem_cons.mp hlt
    intro w
    rw [enumBuckets, enumChain_eq (hr.row i hi) (hn i hi), Option.bind_some, List.flatMap_cons,
      List.filterMap_append, pack_append]
    split
    · rfl
    · exact ih hlt _

/-- The whole enumeration packs the records of the table. -/
theorem enumTable_eq (hr : Rows s rows) (hn : ∀ i < s.hashSize, (rows i).length ≤ n)
    (hb : s.size ≤ bufSize) :
    enumTable pl s bufSize n = some (pack pl s.size bufSize
      (((List.range s.hashSize).flatMap rows).filterMap s.nfo) {}) := by
  rw [enumTable, if_neg (Nat.not_lt.mpr hb), enumBuckets_eq hr hn _ fun i => List.mem_range.mp]

/-- As long as the sum stays within the buffer, all records are written. -/
theorem pack_fits {m : Nat}
    (hm : ∀ i ≤ m, i * size < 2 ^ 32 ∧ (i * size + size) % pl.sizeT ≤ bufSize) (rs : List ν) :
    ∀ {w : Written ν}, w.bufLen = w.buf.length * size → w.buf.length + rs.length ≤ m →
      pack pl size bufSize rs w =
        (statusSuccess, ⟨w.buf ++ rs, (w.buf.length + rs.length) * size⟩) := by
  induction rs with
  | nil =>
    intro w hl _
    simp [pack, ← hl]
  | cons r rs ih =>
    intro w hl hle
    rw [List.length_cons] at hle
    obtain ⟨hlt, hroom⟩ := hm (w.buf.length + 1) (by omega)
    have hlen : (w.bufLen + size) % 2 ^ 32 = (w.buf.length + 1) * size := by
      rw [hl, ← Nat.succ_mul]
      exact Nat.mod_eq_of_lt hlt
    have hwrite : writeNfo pl size bufSize w r =
        (statusSuccess, ⟨w.buf ++ [r], (w.buf.length + 1) * size⟩) := by
      unfold writeNfo
      dsimp only
      rw [hlen, if_neg (Nat.not_lt.mpr hroom)]
    rw [pack, hwrite]
    dsimp only
    rw [if_neg (not_not.mpr rfl), ih (by simp) (by simp; omega)]
    simp [Nat.add_comm, Nat.add_left_comm]

/-- Nothing that has been written is lost. -/
theorem pack_grows (rs : List ν) :
    ∀ w, w.buf.length ≤ (pack pl size bufSize rs w).2.buf.length := by
  induction rs with
  | nil => exact fun w => Nat.le_refl _
  | cons r rs ih =>
    intro w
    have hw : w.buf.length ≤ (writeNfo pl size bufSize w r).2.buf.length := by
      simp [writeNfo]
    rw [pack]
    split
    · exact hw
    · exact Nat.le_trans hw (ih _)

variable (pl size bufSize) in
/-- A record that is left is written, whatever it overwrites. -/
theorem pack_longer {rs : List ν} (hne : rs ≠ []) (w : Written ν) :
    w.buf.length < (pack pl size bufSize rs w).2.buf.length := by
  obtain ⟨r, rs, rfl⟩ := List.exists_cons_of_ne_nil hne
  have hw : w.buf.length < (writeNfo pl size bufSize w r).2.buf.length := by
    simp [writeNfo]
  rw [pack]
  split
  · exact hw
  · exact Nat.lt_of_lt_of_le hw (pack_grows rs _)

/-! ## Room -/

theorem le_sizeT (pl : Platform) : 2 ^ 32 ≤ pl.sizeT := by
  cases pl <;> decide

/-- The check lets `i` records through when one more has room, and where the sum for one
more is past the `size_t`. -/
theorem room_of_le (hb : bufSize < 2 ^ 32) {i : Nat} (hi : i * size ≤ bufSize)
    (h : (i + 1) * size ≤ bufSize ∨ pl.sizeT ≤ (i + 1) * size ∧ size ≤ bufSize) :
    i * size < 2 ^ 32 ∧ (i * size + size) % pl.sizeT ≤ bufSize := by
  have hT := le_sizeT pl
  have hsum : (i + 1) * size = i * size + size := Nat.succ_mul i size
  rw [hsum] at h
  refine ⟨Nat.lt_of_le_of_lt hi hb, ?_⟩
  rcases h with h | ⟨h, hs⟩
  · rw [Nat.mod_eq_of_lt (by omega)]
    exact h
  · rw [Nat.mod_eq_sub_mod h, Nat.mod_eq_of_lt (by omega)]
    omega

/-- The records before the last one that has room are written. -/
theorem pack_before_last (hb : bufSize < 2 ^ 32) {k : Nat} (hk : (k + 1) * size ≤ bufSize)
    {rs : List ν} (hle : rs.length ≤ k) :
    pack pl size bufSize rs {} = (statusSuccess, ⟨rs, rs.length * size⟩) := by
  have hfits : ∀ i ≤ k, i * size < 2 ^ 32 ∧ (i * size + size) % pl.sizeT ≤ bufSize := by
    intro i hi
    have h₁ : (i + 1) * size ≤ (k + 1) * size := Nat.mul_le_mul_right size (by omega)
    have h₂ : i * size ≤ (i + 1) * size := Nat.mul_le_mul_right size (by omega)
    exact room_of_le hb (by omega) (Or.inl (by omega))
  have h := pack_fits hfits rs (w := {}) (Nat.zero_mul size).symm (by simpa using hle)
  simpa using h

/-- The buffer is full: the last record that has room is written, and no other. -/
theorem pack_full (hb : bufSize < 2 ^ 32) {k : Nat} (hk : (k + 1) * size ≤ bufSize)
    (hover : bufSize < (k + 1 + 1) * size) (hT : (k + 1 + 1) * size < pl.sizeT) {rs : List ν}
    (hle : k + 1 ≤ rs.length) :
    pack pl size bufSize rs {} =
      (statusBufferTooSmall, ⟨rs.take (k + 1), (k + 1) * size⟩) := by
  have hbefore : pack pl size bufSize (rs.take k) {} =
      (statusSuccess, ⟨rs.take k, (rs.take k).length * size⟩) := pack_before_last hb hk (by simp)
  have hlen : (rs.take k).length = k := by
    rw [List.length_take]
    omega
  have hlast : (k * size + size) % 2 ^ 32 = (k + 1) * size := by
    rw [← Nat.succ_mul]
    exact Nat.mod_eq_of_lt (Nat.lt_of_le_of_lt hk hb)
  have hmore : ((k + 1) * size + size) % pl.sizeT = (k + 1 + 1) * size := by
    rw [← Nat.succ_mul]
    exact Nat.mod_eq_of_lt hT
  have hwrite : writeNfo pl size bufSize ⟨rs.take k, k * size⟩ rs[k] =
      (statusBufferTooSmall, ⟨rs.take (k + 1), (k + 1) * size⟩) := by
    unfold writeNfo
    dsimp only
    rw [hlast, hmore, if_pos hover, List.take_append_getElem]
  calc pack pl size bufSize rs {}
      = pack pl size bufSize (rs.take k ++ rs[k] :: rs.drop (k + 1)) {} := by
        rw [← List.drop_eq_getElem_cons, List.take_append_drop]
    _ = pack pl size bufSize (rs[k] :: rs.drop (k + 1)) ⟨rs.take k, k * size⟩ := by
        rw [pack_append, hbefore, if_neg (not_not.mpr rfl), hlen]
    _ = (statusBufferTooSmall, ⟨rs.take (k + 1), (k + 1) * size⟩) := by
        rw [pack, hwrite]
        exact if_pos tooSmall_ne_success

/-! ## The entries -/

theorem map_reportable (s : Source ν) (as : List Nat) :
    (as.filter fun e => (s.nfo e).isSome).map s.nfo = (as.filterMap s.nfo).map some := by
  induction as with
  | nil => rfl
  | cons e as ih =>
    cases he : s.nfo e with
    | none => rw [List.filterMap_cons_none he, List.filter_cons_of_neg (by simp [he]), ih]
    | some r =>
      rw [List.filterMap_cons_some he, List.filter_cons_of_pos (by simp [he]), List.map_cons,
        List.map_cons, ih, he]

theorem Rows.nodup_reportable (hr : Rows s rows) : (reportable s rows).Nodup := by
  refine List.Nodup.filter _ (List.nodup_flatMap.mpr ⟨?_, ?_⟩)
  · intro i hi
    exact (hr.row i (List.mem_range.mp hi)).nodup
  · refine List.nodup_range.imp_of_mem ?_
    intro i j hi hj hne e hei hej
    exact hne (hr.disjoint i (List.mem_range.mp hi) j (List.mem_range.mp hj) e hei hej)

theorem length_records (s : Source ν) (rows : Nat → List Nat) :
    (((List.range s.hashSize).flatMap rows).filterMap s.nfo).length =
      (reportable s rows).length := by
  have h := congrArg List.length (map_reportable s ((List.range s.hashSize).flatMap rows))
  rw [List.length_map, List.length_map] at h
  exact h.symm

/-- Some of the entries, with as many records: all of them. -/
theorem Complete.all (hc : Complete s rows bufSize o)
    (hlen : o.2.buf.length = (reportable s rows).length) : o.1 ≠ statusBufferTooSmall := by
  obtain ⟨es, hnd, hsub, hbuf, -, hsmall⟩ := hc.entries
  have hes : (reportable s rows).length ≤ es.length := by
    rw [← hlen, ← List.length_map (f := some), ← hbuf, List.length_map]
  have hperm := (List.subperm_of_subset hnd hsub).perm_of_length_le hes
  intro h
  obtain ⟨e, he, hne⟩ := hsmall h
  exact hne (hperm.mem_iff.mpr he)

theorem complete_of_all (hr : Rows s rows) {rs : List ν}
    (hrs : (reportable s rows).map s.nfo = rs.map some) (hin : rs.length * s.size ≤ bufSize) :
    Complete s rows bufSize (statusSuccess, ⟨rs, rs.length * s.size⟩) where
  inside := hin
  bufLen := rfl
  entries := ⟨reportable s rows, hr.nodup_reportable, fun _ he => he, hrs,
    iff_of_true rfl fun _ he => he, fun h => absurd h.symm tooSmall_ne_success⟩

theorem complete_of_some (hr : Rows s rows) {rs : List ν} {k : Nat}
    (hrs : (reportable s rows).map s.nfo = rs.map some) (hin : k * s.size ≤ bufSize)
    (hlt : k < rs.length) :
    Complete s rows bufSize (statusBufferTooSmall, ⟨rs.take k, k * s.size⟩) := by
  have hnd := hr.nodup_reportable
  have hlen : (reportable s rows).length = rs.length := by
    simpa using congrArg List.length hrs
  have hk : k < (reportable s rows).length := hlen ▸ hlt
  have hleft : ∃ e ∈ reportable s rows, e ∉ (reportable s rows).take k := by
    refine ⟨(reportable s rows)[k], List.getElem_mem hk, fun hmem => ?_⟩
    obtain ⟨i, hi, he⟩ := List.getElem_of_mem hmem
    rw [List.getElem_take, hnd.getElem_inj_iff] at he
    rw [List.length_take] at hi
    omega
  have htake : (rs.take k).length = k := by
    rw [List.length_take]
    omega
  constructor
  · rw [htake]
    exact hin
  · rw [htake]
  · refine ⟨(reportable s rows).take k, hnd.sublist (List.take_sublist k _),
      fun e he => List.mem_of_mem_take he, ?_, ?_, fun _ => hleft⟩
    · rw [List.map_take, hrs, List.map_take]
    · obtain ⟨e, he, hne⟩ := hleft
      exact iff_of_false tooSmall_ne_success fun h => hne (h e he)

/-! ## When the enumeration is complete -/

/-- Room for one more than the buffer holds is within the `size_t`. -/
theorem enumTable_iff_of_lt (hr : Rows s rows) (hn : ∀ i < s.hashSize, (rows i).length ≤ n)
    (h0 : 0 < s.size) (hs : s.size ≤ bufSize) (hb : bufSize < 2 ^ 32)
    (hT : (bufSize / s.size + 1) * s.size < pl.sizeT) :
    (∃ o, enumTable pl s bufSize n = some o ∧ Complete s rows bufSize o) ↔
      (reportable s rows).length ≠ bufSize / s.size := by
  have hrs := map_reportable s ((List.range s.hashSize).flatMap rows)
  rw [enumTable_eq hr hn hs, ← length_records]
  generalize ((List.range s.hashSize).flatMap rows).filterMap s.nfo = rs at hrs ⊢
  change (reportable s rows).map s.nfo = rs.map some at hrs
  have hlen : (reportable s rows).length = rs.length := by
    simpa using congrArg List.length hrs
  have hfull : bufSize / s.size * s.size ≤ bufSize := Nat.div_mul_le_self bufSize s.size
  have hover : bufSize < (bufSize / s.size + 1) * s.size :=
    (Nat.div_lt_iff_lt_mul h0).mp (Nat.lt_succ_self _)
  obtain ⟨k, hk⟩ : ∃ k, bufSize / s.size = k + 1 :=
    Nat.exists_eq_add_one.mpr (Nat.div_pos hs h0)
  rw [hk] at hT hfull hover ⊢
  rcases Nat.lt_or_ge rs.length (k + 1) with hlt | hge
  · refine iff_of_true ⟨_, rfl, ?_⟩ (Nat.ne_of_lt hlt)
    rw [pack_before_last hb hfull (Nat.le_of_lt_succ hlt)]
    refine complete_of_all hr hrs (Nat.le_trans (Nat.mul_le_mul_right _ ?_) hfull)
    exact Nat.le_of_lt hlt
  · rw [pack_full hb hfull hover hT hge]
    rcases Nat.lt_or_eq_of_le hge with hgt | heq
    · exact iff_of_true ⟨_, rfl, complete_of_some hr hrs hfull hgt⟩ (Nat.ne_of_gt hgt)
    · refine iff_of_false ?_ (not_not.mpr heq.symm)
      rintro ⟨o, ho, hc⟩
      obtain rfl := Option.some.inj ho
      refine hc.all ?_ rfl
      rw [hlen, heq, List.take_length]

/-- Room for one more is past the `size_t`, so the check lets every record through. -/
theorem enumTable_iff_of_ge (hr : Rows s rows) (hn : ∀ i < s.hashSize, (rows i).length ≤ n)
    (h0 : 0 < s.size) (hs : s.size ≤ bufSize) (hb : bufSize < 2 ^ 32)
    (hT : pl.sizeT ≤ (bufSize / s.size + 1) * s.size) :
    (∃ o, enumTable pl s bufSize n = some o ∧ Complete s rows bufSize o) ↔
      (reportable s rows).length ≤ bufSize / s.size := by
  have hrs := map_reportable s ((List.range s.hashSize).flatMap rows)
  rw [enumTable_eq hr hn hs, ← length_records]
  generalize ((List.range s.hashSize).flatMap rows).filterMap s.nfo = rs at hrs ⊢
  change (reportable s rows).map s.nfo = rs.map some at hrs
  generalize hk : bufSize / s.size = k at hT ⊢
  have hfull : k * s.size ≤ bufSize := hk ▸ Nat.div_mul_le_self bufSize s.size
  have hover : bufSize < (k + 1) * s.size :=
    (Nat.div_lt_iff_lt_mul h0).mp (hk ▸ Nat.lt_succ_self _)
  have hfits : ∀ i ≤ k, i * s.size < 2 ^ 32 ∧ (i * s.size + s.size) % pl.sizeT ≤ bufSize := by
    intro i hi
    have hle : i * s.size ≤ k * s.size := Nat.mul_le_mul_right _ hi
    refine room_of_le hb (Nat.le_trans hle hfull) ?_
    rcases Nat.lt_or_eq_of_le hi with hlt | rfl
    · exact Or.inl (Nat.le_trans (Nat.mul_le_mul_right _ hlt) hfull)
    · exact Or.inr ⟨hT, hs⟩
  have hpack : ∀ ss : List ν, ss.length ≤ k →
      pack pl s.size bufSize ss {} = (statusSuccess, ⟨ss, ss.length * s.size⟩) := by
    intro ss hss
    have h := pack_fits hfits ss (w := {}) (Nat.zero_mul s.size).symm (by simpa using hss)
    simpa using h
  rcases Nat.lt_or_ge k rs.length with hgt | hle
  · refine iff_of_false ?_ (Nat.not_le.mpr hgt)
    rintro ⟨o, ho, hc⟩
    obtain rfl := Option.some.inj ho
    have htake : (rs.take k).length = k := by
      rw [List.length_take]
      omega
    -- the record after the last one that has room is written past the end
    have hlong : k < (pack pl s.size bufSize rs {}).2.buf.length := by
      rw [← List.take_append_drop k rs, pack_append, hpack (rs.take k) (Nat.le_of_eq htake),
        if_neg (not_not.mpr rfl)]
      have hne : rs.drop k ≠ [] := by simpa using hgt
      have h := pack_longer pl s.size bufSize hne
        ⟨rs.take k, (rs.take k).length * s.size⟩
      exact htake.symm.trans_lt h
    have hmul : (k + 1) * s.size ≤ (pack pl s.size bufSize rs {}).2.buf.length * s.size :=
      Nat.mul_le_mul_right _ hlong
    exact absurd (Nat.le_trans hmul hc.inside) (Nat.not_le.mpr hover)
  · refine iff_of_true ⟨_, rfl, ?_⟩ hle
    rw [hpack rs hle]
    exact complete_of_all hr hrs (Nat.le_trans (Nat.mul_le_mul_right _ hle) hfull)

theorem enumTable_iff (hr : Rows s rows) (hn : ∀ i < s.hashSize, (rows i).length ≤ n)
    (h0 : 0 < s.size) (hs : s.size ≤ bufSize) (hb : bufSize < 2 ^ 32) :
    (∃ o, enumTable pl s bufSize n = some o ∧ Complete s rows bufSize o) ↔
      RoomFor pl s.size bufSize (reportable s rows).length := by
  unfold RoomFor
  split
  · rename_i hT
    exact enumTable_iff_of_lt hr hn h0 hs hb hT
  · rename_i hT
    exact enumTable_iff_of_ge hr hn h0 hs hb (Nat.le_of_not_lt hT)

end Right

/-- Both enumerations are complete or say so exactly when the buffer is not just filled. -/
theorem enumerations_iff (pl : Platform) (g : Globals) (bufSize : UInt32) (n : Nat)
    (conns listens : Nat → List Nat) (hc : Rows (connSource g) conns)
    (hl : Rows (listenSource g) listens) (hcn : ∀ i < connHashSize, (conns i).length ≤ n)
    (hln : ∀ i < listenHashSize, (listens i).length ≤ n) :
    (sizeofTcpConnNfo ≤ bufSize.toNat →
      ((∃ o, enumTcpConn pl g bufSize n = some o ∧
          Complete (connSource g) conns bufSize.toNat o) ↔
        RoomFor pl sizeofTcpConnNfo bufSize.toNat (reportable (connSource g) conns).length)) ∧
      (sizeofListenNfo ≤ bufSize.toNat →
        ((∃ o, enumListen pl g bufSize n = some o ∧
            Complete (listenSource g) listens bufSize.toNat o) ↔
          RoomFor pl sizeofListenNfo bufSize.toNat
            (reportable (listenSource g) listens).length)) := by
  have hb : bufSize.toNat < 2 ^ 32 := bufSize.toNat_lt
  constructor
  · intro hs
    have h0 : 0 < sizeofTcpConnNfo := by decide
    exact enumTable_iff hc hcn h0 hs hb
  · intro hs
    have h0 : 0 < sizeofListenNfo := by decide
    exact enumTable_iff hl hln h0 hs hb

/-- A table with entries in its first bucket only. -/
theorem rows_first {ν : Type} {s : Source ν} {es : List Nat} (h0 : Spans s.next (s.head 0) es)
    (hne : ∀ i ≠ 0, s.head i = none) : Rows s (Function.update (fun _ => []) 0 es) := by
  have hrow : ∀ i ≠ 0, Function.update (fun _ => []) 0 es i = [] :=
    fun i hi => Function.update_of_ne hi _ _
  constructor
  · intro i _
    by_cases hi : i = 0
    · subst hi
      exact h0
    · rw [hrow i hi, hne i hi]
      rfl
  · intro i _ j _ e he he'
    have hi : i = 0 := by_contra fun hi => absurd (hrow i hi ▸ he) List.not_mem_nil
    have hj : j = 0 := by_contra fun hj => absurd (hrow j hj ▸ he') List.not_mem_nil
    rw [hi, hj]

theorem length_first_le (es : List Nat) (i : Nat) :
    (Function.update (fun _ => []) 0 es i).length ≤ es.length := by
  rw [Function.update_apply]
  split
  · exact Nat.le_refl _
  · exact Nat.zero_le _

/-- One connection and two listeners, in the first buckets. -/
def oneOpen : Globals :=
  { blank blankAdf with
    conn := fun _ => { state := tcpStateEstablishedOut }
    connHash := Function.update (fun _ => none) 0 (some 1)
    connPool := ⟨[], [1], 1, false⟩
    listen := fun le => if le = 2 then { next := some 1 } else { prev := some 2 }
    listenHash := Function.update (fun _ => none) 0 (some 2)
    listenPool := ⟨[], [2, 1], 2, false⟩ }

def openRow : Nat → List Nat := Function.update (fun _ => []) 0 [1]

def listenRow : Nat → List Nat := Function.update (fun _ => []) 0 [2, 1]

theorem rows_openRow : Rows (connSource oneOpen) openRow := by
  refine rows_first ⟨rfl, rfl⟩ fun i hi => ?_
  show Function.update (fun _ => none) 0 (some 1) i = none
  rw [Function.update_of_ne hi]

theorem rows_listenRow : Rows (listenSource oneOpen) listenRow := by
  refine rows_first ⟨rfl, rfl, rfl⟩ fun i hi => ?_
  show Function.update (fun _ => none) 0 (some 2) i = none
  rw [Function.update_of_ne hi]

theorem reportable_openRow : (reportable (connSource oneOpen) openRow).length = 1 := by
  decide +kernel

theorem reportable_listenRow : (reportable (listenSource oneOpen) listenRow).length = 2 := by
  decide +kernel

/-- Buffers for one record more. -/
theorem enumerations_oneOpen :
    (∃ o, enumTcpConn .x64 oneOpen 56 2 = some o ∧ Complete (connSource oneOpen) openRow 56 o) ∧
      ∃ o, enumListen .x64 oneOpen 56 2 = some o ∧
        Complete (listenSource oneOpen) listenRow 56 o := by
  have hconn : RoomFor .x64 sizeofTcpConnNfo 56
      (reportable (connSource oneOpen) openRow).length := by
    rw [reportable_openRow, RoomFor, if_pos (by decide)]
    decide
  have hlisten : RoomFor .x64 sizeofListenNfo 56
      (reportable (listenSource oneOpen) listenRow).length := by
    rw [reportable_listenRow, RoomFor, if_pos (by decide)]
    decide
  obtain ⟨h₁, h₂⟩ := enumerations_iff .x64 oneOpen 56 2 openRow listenRow rows_openRow
    rows_listenRow (fun i _ => Nat.le_succ_of_le (length_first_le [1] i))
    fun i _ => length_first_le [2, 1] i
  exact ⟨(h₁ (by decide)).mpr hconn, (h₂ (by decide)).mpr hlisten⟩

/-- A buffer for the one record is too small, although nothing is left out. -/
theorem exact_fit_refused :
    ¬ ∀ (pl : Platform) (g : Globals) (bufSize : UInt32) (n : Nat) (conns : Nat → List Nat),
      Rows (connSource g) conns → (∀ i < connHashSize, (conns i).length ≤ n) →
      sizeofTcpConnNfo ≤ bufSize.toNat →
        ∃ o, enumTcpConn pl g bufSize n = some o ∧
          Complete (connSource g) conns bufSize.toNat o := by
  intro h
  obtain ⟨o, hrun, hc⟩ := h .x64 oneOpen 28 1 openRow rows_openRow
    (fun i _ => length_first_le [1] i) (by decide)
  have ho : (enumTcpConn .x64 oneOpen 28 1).map (fun o => (o.1, o.2.buf.length)) =
      some (statusBufferTooSmall, 1) := by decide +kernel
  rw [hrun] at ho
  obtain ⟨hst, hlen⟩ := Prod.mk.inj (Option.some.inj ho)
  exact hc.all (hlen.trans reportable_openRow.symm) hst

end AdFilter.Tdi.Enumerate
