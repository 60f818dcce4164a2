import AdFilter.Driver.Represent
import AdFilter.Tdi.Datagrams
import Mathlib.Data.List.GetD

/-!
# Accesses to a datagram and to the name buffer

`fmt_dns_msg` once more, with every access to the payload and to `dns_buffer`. When they
stay inside: exactly when a byte of the payload that can end the name is zero, early
enough for the buffer.
-/

namespace AdFilter.Tdi.DnsBounds

open AdFilter.Driver.HostList
open AdFilter.Driver.Filter
open AdFilter.Tdi.Ipc
open AdFilter.Driver.Represent (blankAdf)
open AdFilter.Tdi.Datagrams
open AdFilter.Tdi.Objects

inductive Access where
  | readData (i : Nat)
  | writeDns (i : Nat)
deriving DecidableEq, Repr

/-- The memory from `dns_buffer` on, and what was accessed on the way there. -/
structure Run where
  dns : Mem
  accesses : List Access

def Run.after (r : Run) (accesses : List Access) : Run := { r with accesses := accesses ++ r.accesses }

/-- The loop of `fmt_dns_msg` from index `i`, with `n` rounds left. -/
def fmtDnsLoop (data : Mem) : Nat → Nat → Mem → Run
  | 0, _, dns => ⟨dns, []⟩
  | n + 1, i, dns =>
      let c := data (i + 13)
      if c = 0 then ⟨dns, [.readData (i + 13)]⟩
      else
        (fmtDnsLoop data n (i + 1) (Function.update dns i (dnsChar c))).after
          [.readData (i + 13), .writeDns i]

/-- `memset(dns_buffer, 0, 1024)` -/
def clearDns (dns : Mem) : Run where
  dns := fun i => if i < dnsBufferLen then 0 else dns i
  accesses := (List.range dnsBufferLen).map .writeDns

def fmtDnsRun (data : Mem) (len : Int) (dns : Mem) : Run :=
  (fmtDnsLoop data len.toNat 0 (clearDns dns).dns).after (clearDns dns).accesses

/-- The first `n` reads of `strlen`, from index `i` on. -/
def strlenReads (dns : Mem) : Nat → Nat → List Nat
  | 0, _ => []
  | n + 1, i => i :: if dns i = 0 then [] else strlenReads dns n (i + 1)

/-- `len--` on an `int`. -/
def decrement (len : Int) : Int := (len - 1).bmod (2 ^ 32)

/-- What `tdifw_udp_send` makes `filter` do with the two buffers, if it gets there. -/
def udpSendRun (a : Adf) (needCheck : Bool) (data : Mem) (len : Int) (dns : Mem) : Option Run :=
  if needCheck = false then none
  else if a.paused ≠ 0 then none
  else some (fmtDnsRun data (decrement len) dns)

/-- Of the payload only its bytes are read, the buffer is not left, and its `strlen` does
not leave it either. -/
structure InBounds (payload : Nat) (r : Run) : Prop where
  reads : ∀ i, .readData i ∈ r.accesses → i < payload
  writes : ∀ i, .writeDns i ∈ r.accesses → i < dnsBufferLen
  nul : ∃ i < dnsBufferLen, r.dns i = 0
  strlen : ∀ n, ∀ i ∈ strlenReads r.dns n 0, i < dnsBufferLen

/-! ## The loop -/

section Loop

variable {data : Mem}

/-- The name ends at the first zero byte, or after all rounds. -/
theorem fmtDnsFrom_ends (data : Mem) (n : Nat) : ∀ i, (fmtDnsFrom data n i).length < n →
    data (i + (fmtDnsFrom data n i).length + 13) = 0 := by
  induction n with
  | zero => exact fun i h => absurd h (Nat.not_lt_zero _)
  | succ n ih =>
    intro i h
    rw [fmtDnsFrom] at h ⊢
    split
    · rename_i hz
      exact hz
    · rename_i hz
      rw [if_neg hz, List.length_cons] at h
      have hnext := ih (i + 1) (Nat.lt_of_succ_lt_succ h)
      rw [List.length_cons]
      rwa [show i + ((fmtDnsFrom data n (i + 1)).length + 1) + 13 =
        i + 1 + (fmtDnsFrom data n (i + 1)).length + 13 by omega]

theorem fmtDnsFrom_le (data : Mem) (n : Nat) : ∀ {i k : Nat}, k < n → data (i + k + 13) = 0 →
    (fmtDnsFrom data n i).length ≤ k := by
  induction n with
  | zero => exact fun hk _ => absurd hk (Nat.not_lt_zero _)
  | succ n ih =>
    intro i k hk hz
    rw [fmtDnsFrom]
    split
    · exact Nat.zero_le k
    · rename_i hne
      cases k with
      | zero => exact absurd hz hne
      | succ k =>
        rw [show i + (k + 1) + 13 = i + 1 + k + 13 by omega] at hz
        exact Nat.succ_le_succ (ih (Nat.lt_of_succ_lt_succ hk) hz)

/-- The bytes that the loop reads: those of the name, and the one that ends it. -/
theorem readData_mem_loop (n : Nat) : ∀ {i : Nat} {dns : Mem} {k : Nat},
    .readData k ∈ (fmtDnsLoop data n i dns).accesses ↔
      ∃ j < n, j ≤ (fmtDnsFrom data n i).length ∧ k = i + j + 13 := by
  induction n with
  | zero => simp [fmtDnsLoop]
  | succ n ih =>
    intro i dns k
    rw [fmtDnsLoop, fmtDnsFrom]
    split
    · simp
    · simp only [Run.after, List.mem_append, List.mem_cons, List.not_mem_nil, or_false, ih,
        Access.readData.injEq, reduceCtorEq, List.length_cons]
      constructor
      · rintro (rfl | ⟨j, hj, hle, rfl⟩)
        · exact ⟨0, Nat.succ_pos n, Nat.zero_le _, rfl⟩
        · exact ⟨j + 1, Nat.succ_lt_succ hj, Nat.succ_le_succ hle, by omega⟩
      · rintro ⟨j, hj, hle, rfl⟩
        cases j with
        | zero => exact Or.inl rfl
        | succ j =>
          exact Or.inr ⟨j, Nat.lt_of_succ_lt_succ hj, Nat.le_of_succ_le_succ hle, by omega⟩

theorem writeDns_mem_loop (n : Nat) : ∀ {i : Nat} {dns : Mem} {k : Nat},
    .writeDns k ∈ (fmtDnsLoop data n i dns).accesses ↔
      ∃ j < (fmtDnsFrom data n i).length, k = i + j := by
  induction n with
  | zero => simp [fmtDnsLoop, fmtDnsFrom]
  | succ n ih =>
    intro i dns k
    rw [fmtDnsLoop, fmtDnsFrom]
    split
    · simp
    · simp only [Run.after, List.mem_append, List.mem_cons, List.not_mem_nil, or_false, ih,
        Access.writeDns.injEq, reduceCtorEq, false_or, List.length_cons]
      constructor
      · rintro (rfl | ⟨j, hj, rfl⟩)
        · exact ⟨0, Nat.succ_pos _, rfl⟩
        · exact ⟨j + 1, Nat.succ_lt_succ hj, by omega⟩
      · rintro ⟨j, hj, rfl⟩
        cases j with
        | zero => exact Or.inl rfl
        | succ j => exact Or.inr ⟨j, Nat.lt_of_succ_lt_succ hj, by omega⟩

/-- The loop writes the name from index `i` on, and nothing else. -/
theorem dns_loop (n : Nat) : ∀ {i : Nat} {dns : Mem} {k : Nat},
    (fmtDnsLoop data n i dns).dns k =
      if i ≤ k then (fmtDnsFrom data n i).getD (k - i) (dns k) else dns k := by
  induction n with
  | zero => simp [fmtDnsLoop, fmtDnsFrom]
  | succ n ih =>
    intro i dns k
    rw [fmtDnsLoop, fmtDnsFrom]
    split
    · simp
    · simp only [Run.after, ih]
      rcases Nat.lt_trichotomy k i with hlt | rfl | hgt
      · rw [if_neg (by omega), if_neg (by omega), Function.update_of_ne (by omega)]
      · simp
      · rw [if_pos (by omega), if_pos (by omega), Function.update_of_ne (by omega),
          show k - i = k - (i + 1) + 1 by omega, List.getD_cons_succ]

end Loop

/-! ## The whole call -/

variable {data dns : Mem} {len : Int}

/-- The first bytes of the buffer are the name, and zero after it. -/
theorem dns_fmtDnsRun (data : Mem) (len : Int) (dns : Mem) {k : Nat} (hk : k < dnsBufferLen) :
    (fmtDnsRun data len dns).dns k = (fmtDnsFrom data len.toNat 0).getD k 0 := by
  show (fmtDnsLoop data len.toNat 0 (clearDns dns).dns).dns k = _
  rw [dns_loop, if_pos (Nat.zero_le k), Nat.sub_zero]
  simp only [clearDns, if_pos hk]

theorem nul_iff (data : Mem) (len : Int) (dns : Mem) :
    (∃ k < dnsBufferLen, (fmtDnsRun data len dns).dns k = 0) ↔
      (fmtDnsFrom data len.toNat 0).length < dnsBufferLen := by
  constructor
  · rintro ⟨k, hk, hz⟩
    rw [dns_fmtDnsRun data len dns hk] at hz
    by_contra hge
    have hlt : k < (fmtDnsFrom data len.toNat 0).length := by omega
    rw [List.getD_eq_getElem _ _ hlt] at hz
    exact fmtDnsFrom_noNul data len.toNat 0 (hz ▸ List.getElem_mem hlt)
  · intro h
    refine ⟨_, h, ?_⟩
    rw [dns_fmtDnsRun data len dns h, List.getD_eq_default _ _ (Nat.le_refl _)]

/-- The outcome that the filter works with: the text of the buffer, or none when the
name has no end there. -/
theorem fmtDnsMsg_run (data : Mem) (len : Int) (dns : Mem) :
    (fmtDnsMsg data len = none ↔ ∀ k < dnsBufferLen, (fmtDnsRun data len dns).dns k ≠ 0) ∧
      ∀ name, fmtDnsMsg data len = some name →
        ∀ k < dnsBufferLen, (fmtDnsRun data len dns).dns k = name.getD k 0 := by
  have hnul := nul_iff data len dns
  unfold fmtDnsMsg
  dsimp only
  split
  · rename_i hlt
    refine ⟨iff_of_false (Option.some_ne_none _) fun h => ?_, fun name hname k hk => ?_⟩
    · obtain ⟨k, hk, hz⟩ := hnul.mpr hlt
      exact h k hk hz
    · rw [← Option.some.inj hname]
      exact dns_fmtDnsRun data len dns hk
  · rename_i hge
    refine ⟨iff_of_true rfl fun k hk hz => hge (hnul.mp ⟨k, hk, hz⟩), fun name hname => ?_⟩
    exact absurd hname.symm (Option.some_ne_none name)

theorem strlenReads_le {z : Nat} (hz : dns z = 0) (n : Nat) : ∀ {i j : Nat}, i ≤ z →
    j ∈ strlenReads dns n i → j ≤ z := by
  induction n with
  | zero => exact fun _ hj => absurd hj List.not_mem_nil
  | succ n ih =>
    intro i j hi hj
    rcases List.mem_cons.mp hj with rfl | hrest
    · exact hi
    · split at hrest
      · exact absurd hrest List.not_mem_nil
      · rename_i hne
        have hlt : i ≠ z := fun heq => hne (heq ▸ hz)
        exact ih (by omega) hrest

theorem readData_mem (k : Nat) : .readData k ∈ (fmtDnsRun data len dns).accesses ↔
    ∃ j < len.toNat, j ≤ (fmtDnsFrom data len.toNat 0).length ∧ k = j + 13 := by
  have hclear : Access.readData k ∉ (clearDns dns).accesses := by simp [clearDns]
  rw [fmtDnsRun, Run.after, List.mem_append, or_iff_right hclear, readData_mem_loop]
  simp only [Nat.zero_add]

theorem writeDns_mem (k : Nat) : .writeDns k ∈ (fmtDnsRun data len dns).accesses ↔
    k < dnsBufferLen ∨ k < (fmtDnsFrom data len.toNat 0).length := by
  rw [fmtDnsRun, Run.after, List.mem_append, writeDns_mem_loop]
  simp [clearDns]

/-- The payload bounds the reads, and the buffer bounds the name. -/
theorem inBounds_fmtDnsRun_iff (payload : Nat) : InBounds payload (fmtDnsRun data len dns) ↔
    (∀ j < len.toNat, j ≤ (fmtDnsFrom data len.toNat 0).length → j + 13 < payload) ∧
      (fmtDnsFrom data len.toNat 0).length < dnsBufferLen := by
  constructor
  · intro h
    refine ⟨fun j hj hle => h.reads _ ((readData_mem _).mpr ⟨j, hj, hle, rfl⟩), ?_⟩
    exact (nul_iff data len dns).mp h.nul
  · rintro ⟨hreads, hlen⟩
    obtain ⟨z, hz, hnul⟩ := (nul_iff data len dns).mpr hlen
    refine ⟨fun i hi => ?_, fun i hi => ?_, ⟨z, hz, hnul⟩, fun n i hi => ?_⟩
    · obtain ⟨j, hj, hle, rfl⟩ := (readData_mem i).mp hi
      exact hreads j hj hle
    · rcases (writeDns_mem i).mp hi with h | h
      · exact h
      · exact h.trans hlen
    · exact (strlenReads_le hnul n (Nat.zero_le z) hi).trans_lt hz

/-- A zero byte has to stand between the first label and the end of both buffers. -/
theorem inBounds_iff_zero {payload : Nat} (hlen : len.toNat = payload - 1) :
    InBounds payload (fmtDnsRun data len dns) ↔
      payload ≤ 1 ∨ ∃ j, 13 ≤ j ∧ j < payload ∧ j < 13 + dnsBufferLen ∧ data j = 0 := by
  rw [inBounds_fmtDnsRun_iff, hlen]
  have hle := fmtDnsFrom_length_le data (payload - 1) 0
  constructor
  · rintro ⟨hreads, hname⟩
    by_cases hshort : payload ≤ 1
    · exact Or.inl hshort
    -- all rounds together would read past the payload, so a zero byte ends the name
    have hends : (fmtDnsFrom data (payload - 1) 0).length < payload - 1 := by
      by_contra hge
      have hlast := hreads (payload - 2) (by omega) (by omega)
      omega
    have hzero := fmtDnsFrom_ends data (payload - 1) 0 hends
    have hread := hreads _ hends (Nat.le_refl _)
    rw [Nat.zero_add] at hzero
    exact Or.inr ⟨_, by omega, hread, by omega, hzero⟩
  · rintro (hshort | ⟨j, hj, hpayload, hbuffer, hzero⟩)
    · have hnone : payload - 1 = 0 := by omega
      rw [hnone]
      exact ⟨fun j hj => absurd hj (Nat.not_lt_zero j), Nat.zero_lt_succ 1023⟩
    · obtain ⟨k, rfl⟩ := Nat.exists_eq_add_of_le hj
      have hname := fmtDnsFrom_le data (payload - 1) (i := 0) (k := k) (by omega)
        (by rwa [show 0 + k + 13 = 13 + k by omega])
      exact ⟨fun i _ hi => by omega, by omega⟩

/-- `len--` on the length of a payload, as an `int`. -/
theorem toNat_decrement {payload : Nat} (h : payload < 2 ^ 32) :
    (decrement ((payload : Int).bmod (2 ^ 32))).toNat =
      if payload ≤ 2 ^ 31 then payload - 1 else 0 := by
  unfold decrement Int.bmod
  dsimp only
  split_ifs <;> omega

/-- For a datagram to port 53 every access is in bounds just when the filter is paused, the
length leaves nothing to read, or a byte that can end the name in time is zero. -/
theorem udpSend_inBounds_iff (a : Adf) (needCheck : Bool) {d : Datagram} (ote : OtEntry) (pid : Nat)
    (h53 : d.remoteAddr.sockaddr.port = 53) (hlen : d.sendLength < 2 ^ 32) (dns : Mem) :
    (∀ r, udpSendRun a (tdifwFilter needCheck (sendRequest d ipprotoUdp ote pid)).2 d.data d.len dns =
        some r → InBounds d.sendLength r) ↔
      a.paused ≠ 0 ∨ d.sendLength ≤ 1 ∨ 2 ^ 31 < d.sendLength ∨
        ∃ j, 13 ≤ j ∧ j < d.sendLength ∧ j < 13 + dnsBufferLen ∧ d.data j = 0 := by
  have hudp : (sendRequest d ipprotoUdp ote pid).proto = ipprotoUdp := rfl
  have hport : (sendRequest d ipprotoUdp ote pid).addrTo.port = 53 := h53
  rw [tdifwFilter, if_pos hudp, if_pos hport, udpSendRun, if_neg (by decide)]
  by_cases hp : a.paused ≠ 0
  · rw [if_pos hp]
    exact iff_of_true (fun r hr => absurd hr.symm (Option.some_ne_none r)) (Or.inl hp)
  · rw [if_neg hp, or_iff_right hp]
    have hdec := toNat_decrement hlen
    simp only [Option.some.injEq, forall_eq']
    by_cases hint : d.sendLength ≤ 2 ^ 31
    · have hlarge : ¬ 2 ^ 31 < d.sendLength := Nat.not_lt.mpr hint
      rw [if_pos hint] at hdec
      simp only [hlarge, false_or]
      exact inBounds_iff_zero hdec
    · have hlarge : 2 ^ 31 < d.sendLength := Nat.lt_of_not_le hint
      have hnone : (decrement d.len).toNat = 0 := hdec.trans (if_neg hint)
      simp only [hlarge, true_or, or_true, iff_true]
      refine (inBounds_fmtDnsRun_iff _).mpr ?_
      rw [hnone]
      exact ⟨fun j hj => absurd hj (Nat.not_lt_zero j), Nat.zero_lt_succ 1023⟩

/-- A datagram to port 53. -/
def dnsDatagram (data : Mem) (sendLength : Nat) : Datagram where
  devobj := .udp
  fileobj := 1
  remoteAddr := textMem [14, 0, 2, 0, 0, 53]
  data := data
  sendLength := sendLength

/-- A name that ends after one byte. -/
def shortName : Datagram := dnsDatagram (textMem (List.replicate 12 1 ++ [1, 97, 0])) 15

theorem udpSend_inBounds_short_name :
    ∃ r, udpSendRun blankAdf (tdifwFilter false (sendRequest shortName ipprotoUdp { fileobj := 1 } 4)).2
        shortName.data shortName.len (textMem []) = some r ∧ InBounds shortName.sendLength r := by
  have hzero : ∃ j, 13 ≤ j ∧ j < shortName.sendLength ∧ j < 13 + dnsBufferLen ∧
      shortName.data j = 0 := ⟨14, by decide⟩
  have h53 : shortName.remoteAddr.sockaddr.port = 53 := by decide
  have hlen : shortName.sendLength < 2 ^ 32 := by decide
  refine ⟨_, rfl, ?_⟩
  exact (udpSend_inBounds_iff blankAdf false { fileobj := 1 } 4 h53 hlen (textMem [])).mpr
    (Or.inr (Or.inr (Or.inr hzero))) _ rfl

/-- A header alone: the byte after its last one is skipped, and the next one read. -/
theorem header_out_of_bounds :
    ¬ ∀ (a : Adf) (needCheck : Bool) (d : Datagram) (ote : OtEntry) (pid : Nat) (dns : Mem),
      d.remoteAddr.sockaddr.port = 53 → d.sendLength < 2 ^ 32 →
      ∀ r, udpSendRun a (tdifwFilter needCheck (sendRequest d ipprotoUdp ote pid)).2 d.data d.len dns =
        some r → InBounds d.sendLength r := by
  intro h
  have hbounds := h blankAdf false (dnsDatagram (textMem []) 12) { fileobj := 1 } 4 (textMem []) rfl
    (by decide) _ rfl
  have hread := hbounds.reads 13 ((readData_mem 13).mpr ⟨0, by decide, Nat.zero_le _, rfl⟩)
  exact absurd hread (by decide)

end AdFilter.Tdi.DnsBounds
