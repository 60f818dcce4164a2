import AdFilter.Tdi.Packet

/-!
# Accesses to the packet

When `filter_packet` stays inside the chain: exactly when no header that it goes past is
the end of the packet. The loops that skip empty buffers have no other end than a buffer
with bytes.
-/

namespace AdFilter.Tdi.PacketBounds

open AdFilter.Lib.BufferChain
open AdFilter.Tdi.Ipc
open AdFilter.Tdi.Packet

/-- No buffer is asked for beyond the end of the chain, what is read of a header lies in the
buffer that the pointer to it is from, and the parse comes to its end. -/
structure InChain (chain : List (List UInt8)) (r : Run) : Prop where
  accesses : ∀ x ∈ r.accesses, x.Inside chain
  ends : r.verdict ≠ none

/-- The header ends with its buffer, and only empty buffers come after it. -/
def EndsWith (c : Cursor UInt8) (size : Nat) : Prop := c.left = size ∧ ¬ c.Follows

/-- An IP header that is there as a whole, is not one of a later fragment to the code, and is
the end of the packet. -/
def EndsWithIp (ip : Cursor UInt8) : Prop :=
  ipHdrSize ≤ ip.left ∧ notFirstFragment ip = false ∧ EndsWith ip (hdrLen ip)

/-- The pointer to the first buffer. -/
def start : List (List UInt8) → Option (Cursor UInt8)
  | [] => none
  | buffer :: rest => some ⟨0, buffer, rest, 0⟩

/-- The packet ends with the Ethernet header, or with the IP header after it. -/
def EndsOnHeader (chain : List (List UInt8)) : Prop :=
  ∃ eth, start chain = some eth ∧ etherHdrSize ≤ eth.left ∧
    (EndsWith eth etherHdrSize ∨
      etherType eth = ethertypeIp ∧ ∃ ip, (eth.advance etherHdrSize).2 = some ip ∧ EndsWithIp ip)

variable {chain : List (List UInt8)}

theorem inChain_after {r : Run} {accesses : List Access}
    (h : ∀ x ∈ accesses, x.Inside chain) : InChain chain (r.after accesses) ↔ InChain chain r := by
  constructor
  · exact fun hr => ⟨fun x hx => hr.accesses x (List.mem_append_right _ hx), hr.ends⟩
  · intro hr
    refine ⟨fun x hx => ?_, hr.ends⟩
    rcases List.mem_append.mp hx with hx | hx
    · exact h x hx
    · exact hr.accesses x hx

theorem inChain_done (result log : Bool) (logNfo : PacketRequest) :
    InChain chain (done result log logNfo) :=
  ⟨fun _ hx => absurd hx List.not_mem_nil, by simp [done]⟩

/-- A move stays in the chain unless the header ends the packet. -/
theorem inChain_moved {c : Cursor UInt8} (hc : c.On chain) {size : Nat} (hs : size ≤ c.left)
    (k : Cursor UInt8 → Run) : InChain chain (moved (c.advance size) k) ↔
      ¬ EndsWith c size ∧ ∀ c', (c.advance size).2 = some c' → InChain chain (k c') := by
  have hstay : ¬ EndsWith c size ↔ size < c.left ∨ c.Follows := by
    rw [EndsWith]
    by_cases hf : c.Follows
    · simp [hf]
    · simp only [hf, not_false_eq_true, and_true, or_false]
      omega
  have hin := hc.advance_inside_iff (n := size)
  have hsome := advance_isSome_iff (c := c) (n := size)
  rw [hstay, moved]
  cases ha : (c.advance size).2 with
  | none =>
    rw [ha] at hsome
    constructor
    · exact fun hr => absurd rfl hr.ends
    · exact fun h => absurd (hsome.mpr h.1) Bool.false_ne_true
  | some c' =>
    rw [ha] at hsome
    have hgo := hsome.mp rfl
    rw [inChain_after (hin.mpr hgo)]
    simp [hgo]

/-! ## Headers -/

section Headers

variable {dbg : Bool} {check : PacketRequest → PacketRequest} {c : Cursor UInt8}

/-- Members of a header that is there as a whole, those first that a debug build prints. -/
theorem reads_inside (hc : c.On chain) {size : Nat} (hs : size ≤ c.left) (dbg : Bool)
    (printed members : List (Nat × Nat)) (hp : ∀ m ∈ printed, m.1 + m.2 ≤ size)
    (hm : ∀ m ∈ members, m.1 + m.2 ≤ size) :
    ∀ x ∈ (if dbg then printed.map fun m => c.read m.1 m.2 else []) ++
      members.map fun m => c.read m.1 m.2, x.Inside chain := by
  have hread : ∀ ms : List (Nat × Nat), (∀ m ∈ ms, m.1 + m.2 ≤ size) →
      ∀ x ∈ ms.map fun m => c.read m.1 m.2, x.Inside chain := by
    intro ms hms x hx
    obtain ⟨m, hmem, rfl⟩ := List.mem_map.mp hx
    exact hc.read_inside ((hms m hmem).trans hs)
  intro x hx
  rcases List.mem_append.mp hx with hx | hx
  · cases dbg with
    | false => exact absurd hx List.not_mem_nil
    | true => exact hread printed hp x hx
  · exact hread members hm x hx

theorem etherReads_inside (hc : c.On chain) (hs : etherHdrSize ≤ c.left) (dbg : Bool) :
    ∀ x ∈ etherReads dbg c, x.Inside chain :=
  reads_inside hc hs dbg [(6, 6), (0, 6), (12, 2)] [(0, 6)] (by decide) (by decide)

theorem ipReads_inside (hc : c.On chain) (hs : ipHdrSize ≤ c.left) (dbg : Bool) :
    ∀ x ∈ ipReads dbg c, x.Inside chain :=
  reads_inside hc hs dbg [(12, 4), (16, 4), (9, 1), (4, 2)] [(9, 1), (2, 2), (12, 4), (16, 4)]
    (by decide) (by decide)

theorem tcpReads_inside (hc : c.On chain) (hs : tcpHdrSize ≤ c.left) (dbg : Bool) :
    ∀ x ∈ tcpReads dbg c, x.Inside chain :=
  reads_inside hc hs dbg [(13, 1), (0, 2), (2, 2)] [(13, 1), (0, 2), (2, 2)] (by decide) (by decide)

theorem udpReads_inside (hc : c.On chain) (hs : udpHdrSize ≤ c.left) (dbg : Bool) :
    ∀ x ∈ udpReads dbg c, x.Inside chain :=
  reads_inside hc hs dbg [(0, 2), (2, 2)] [(0, 2), (2, 2)] (by decide) (by decide)

theorem icmpReads_inside (hc : c.On chain) (hs : icmpHdrSize ≤ c.left) (dbg : Bool) :
    ∀ x ∈ icmpReads dbg c, x.Inside chain :=
  reads_inside hc hs dbg [(0, 1), (1, 1)] [(0, 1), (1, 1)] (by decide) (by decide)

/-- `process_transp` reads no more than the header whose size it has compared. -/
theorem processTransp_inside (hc : c.On chain) (proto : Nat) (logNfo : PacketRequest) :
    ∀ x ∈ (processTransp dbg check proto c logNfo).1, x.Inside chain := by
  have hnone : ∀ x ∈ ([] : List Access), x.Inside chain := fun _ h => absurd h List.not_mem_nil
  unfold processTransp
  split_ifs with htcp hsize hudp hsize hicmp hsize
  · exact hnone
  · exact tcpReads_inside hc (Nat.le_of_not_lt hsize) dbg
  · exact hnone
  · exact udpReads_inside hc (Nat.le_of_not_lt hsize) dbg
  · exact hnone
  · exact icmpReads_inside hc (Nat.le_of_not_lt hsize) dbg
  · exact hnone

/-- Whatever the transport header is, its reads are inside. -/
theorem filterTransp_inChain {ip : Cursor UInt8} (hip : ip.On chain) (hs : ipHdrSize ≤ ip.left)
    (hc : c.On chain) (logNfo : PacketRequest) :
    InChain chain (filterTransp dbg check ip logNfo c) := by
  have hproto : (ip.read 9 1).Inside chain :=
    hip.read_inside (Nat.le_trans (by decide : 9 + 1 ≤ ipHdrSize) hs)
  rw [filterTransp]
  refine (inChain_after (List.forall_mem_cons.mpr ⟨hproto, processTransp_inside hc _ logNfo⟩)).mpr ?_
  cases (processTransp dbg check (ip.byte 9).toNat c logNfo).2 with
  | none => exact inChain_done false true logNfo
  | some nfo => exact inChain_done true (nfo.pid == 0) nfo

theorem filterIp_inChain_iff {ip : Cursor UInt8} (hip : ip.On chain) (direction : Int)
    (logNfo : PacketRequest) :
    InChain chain (filterIp dbg check direction logNfo ip) ↔ ¬ EndsWithIp ip := by
  rw [filterIp, EndsWithIp]
  by_cases hs : ip.left < ipHdrSize
  · rw [if_pos hs]
    exact iff_of_true (inChain_done false true logNfo) fun h => absurd h.1 (Nat.not_le.mpr hs)
  have hle : ipHdrSize ≤ ip.left := Nat.le_of_not_lt hs
  have hread : ∀ {k size : Nat}, k + size ≤ ipHdrSize → (ip.read k size).Inside chain :=
    fun h => hip.read_inside (h.trans hle)
  rw [if_neg hs, inChain_after (by simpa using hread (by decide : 0 + 1 ≤ ipHdrSize))]
  by_cases hl : ip.left < hdrLen ip
  · rw [if_pos hl]
    exact iff_of_true (inChain_done false true logNfo) fun h => absurd h.2.2.1 (Nat.ne_of_lt hl)
  have hoff : ∀ x ∈ ip.read 6 2 :: (if ipOffset ip ≠ 0 then [ip.read 6 2] else []),
      x.Inside chain := by
    intro x hx
    have hx : x = ip.read 6 2 := by
      split at hx <;> simpa using hx
    exact hx ▸ hread (by decide : 6 + 2 ≤ ipHdrSize)
  rw [if_neg hl, inChain_after hoff]
  cases hfrag : notFirstFragment ip with
  | true =>
    rw [if_pos rfl]
    exact iff_of_true (inChain_done true false logNfo) fun h => absurd h.2.1 (Bool.noConfusion)
  | false =>
    rw [if_neg Bool.false_ne_true, inChain_after (ipReads_inside hip hle dbg),
      inChain_moved hip (Nat.le_of_not_lt hl)]
    constructor
    · exact fun h hend => h.1 hend.2.2
    · intro h
      exact ⟨fun hend => h ⟨hle, rfl, hend⟩,
        fun c' hc' => filterTransp_inChain hip hle (hip.advance hc') _⟩

end Headers

/-! ## Packets -/

theorem start_on {eth : Cursor UInt8} (h : start chain = some eth) : eth.On chain := by
  cases chain with
  | nil => exact absurd h.symm (Option.some_ne_none eth)
  | cons buffer rest =>
    obtain rfl := Option.some.inj h
    exact ⟨rfl, Nat.zero_le _⟩

theorem left_le_packetLen {eth : Cursor UInt8} (h : start chain = some eth) :
    eth.left ≤ packetLen chain := by
  cases chain with
  | nil => exact absurd h.symm (Option.some_ne_none eth)
  | cons buffer rest =>
    obtain rfl := Option.some.inj h
    simp [Cursor.left, packetLen]

/-- A packet whose first buffer has no room for the Ethernet header does not end on a header. -/
theorem not_endsOnHeader (h : ∀ eth, start chain = some eth → eth.left < etherHdrSize) :
    ¬ EndsOnHeader chain := by
  intro hend
  obtain ⟨eth, hs, hle, -⟩ := hend
  exact absurd hle (Nat.not_le.mpr (h eth hs))

theorem endsOnHeader_iff {eth : Cursor UInt8} (hs : start chain = some eth)
    (hle : etherHdrSize ≤ eth.left) : EndsOnHeader chain ↔ EndsWith eth etherHdrSize ∨
      etherType eth = ethertypeIp ∧ ∃ ip, (eth.advance etherHdrSize).2 = some ip ∧ EndsWithIp ip := by
  constructor
  · intro h
    obtain ⟨eth', hs', -, hcase⟩ := h
    obtain rfl := Option.some.inj (hs.symm.trans hs')
    exact hcase
  · exact fun h => ⟨eth, hs, hle, h⟩

/-- `filter_packet` stays inside the chain exactly when the packet does not end with a
header that the parse goes past. -/
theorem filterPacket_inChain_iff (dbg : Bool) (check : PacketRequest → PacketRequest)
    (direction : Int) (chain : List (List UInt8)) :
    InChain chain (filterPacket dbg check direction chain) ↔ ¬ EndsOnHeader chain := by
  unfold filterPacket
  by_cases hlen : packetLen chain < etherHdrSize
  · rw [if_pos hlen]
    exact iff_of_true (inChain_done ..) (not_endsOnHeader fun eth hs =>
      Nat.lt_of_le_of_lt (left_le_packetLen hs) hlen)
  rw [if_neg hlen]
  cases chain with
  | nil => exact absurd (by decide : packetLen [] < etherHdrSize) hlen
  | cons buffer rest =>
    obtain ⟨eth, hs⟩ : ∃ eth, start (buffer :: rest) = some eth := ⟨_, rfl⟩
    have hon := start_on hs
    have hquery := hon.query_inside
    obtain rfl : ⟨0, buffer, rest, 0⟩ = eth := Option.some.inj hs
    simp only
    rw [inChain_after (by simpa using hquery)]
    by_cases hleft : (⟨0, buffer, rest, 0⟩ : Cursor UInt8).left < etherHdrSize
    · rw [if_pos hleft]
      refine iff_of_true (inChain_done ..) (not_endsOnHeader fun eth hs' => ?_)
      obtain rfl := Option.some.inj (hs.symm.trans hs')
      exact hleft
    have hle := Nat.le_of_not_lt hleft
    rw [if_neg hleft, inChain_after (etherReads_inside hon hle dbg), inChain_moved hon hle,
      endsOnHeader_iff hs hle, not_or, not_and, not_exists]
    refine and_congr_right fun _ => ?_
    have htype : ((⟨0, buffer, rest, 0⟩ : Cursor UInt8).read 12 2).Inside (buffer :: rest) :=
      hon.read_inside (Nat.le_trans (by decide : 12 + 2 ≤ etherHdrSize) hle)
    by_cases hip : etherType ⟨0, buffer, rest, 0⟩ = ethertypeIp
    · simp only [hip, if_true, forall_true_left, not_and]
      refine forall_congr' fun c' => imp_congr_right fun hc' => ?_
      rw [inChain_after (by simpa using htype)]
      exact filterIp_inChain_iff (hon.advance hc') direction _
    · simp only [hip, if_false, false_implies, iff_true]
      intro c' _
      exact (inChain_after (by simpa using htype)).mpr (inChain_done ..)

/-- A packet that is an Ethernet header and no more. -/
theorem bare_header_leaves_chain :
    ¬ ∀ (dbg : Bool) (check : PacketRequest → PacketRequest) (direction : Int)
      (chain : List (List UInt8)), chain ≠ [] →
      InChain chain (filterPacket dbg check direction chain) := by
  intro h
  have hin := h false id directionIn [List.replicate 14 0] (List.cons_ne_nil _ _)
  exact hin.ends rfl

end AdFilter.Tdi.PacketBounds
