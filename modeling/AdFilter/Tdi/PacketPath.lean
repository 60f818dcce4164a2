import AdFilter.Tdi.CheckPacket

/-!
# What becomes of a packet

`hook_proc` for the firewall hook, and `filter_packet` for the packet engine. Both pass on
what has whole headers, whatever the tables say; the tables tell which packets are logged.
No packet from outside goes unnoticed unless somebody listens or is connected.
-/

namespace AdFilter.Tdi.PacketPath

open AdFilter.Lib.BufferChain
open AdFilter.Lib.Runs
open AdFilter.Nt
open AdFilter.Tdi.Ipc
open AdFilter.Tdi.Objects
open AdFilter.Tdi.ConnState
open AdFilter.Tdi.Machine
open AdFilter.Tdi.TcpStates (sAddr sinPort)
open AdFilter.Tdi.Packet
open AdFilter.Tdi.Primitives
open AdFilter.Tdi.ListenRuns
open AdFilter.Tdi.ConnRuns
open AdFilter.Tdi.CheckPacket

variable {env : Env} {g : Globals} {logNfo : PacketRequest}

/-! ## Unnoticed packets -/

/-- Whatever fits an incoming packet asks for an ACK or a FIN, and for a connection. -/
theorem initTcpStates_in : initTcpStates.all (fun d => d.direction = directionIn →
    d.state ≠ tcpStateNone ∧ (d.flags.tcpFlagsSet &&& thAck = thAck ∨
      d.flags.tcpFlagsSet &&& thFin = thFin)) = true := by decide +kernel

theorem has_of_fit {f : TcpFlags} {flag : UInt8} (hf : f.tcpFlagsSet &&& flag = flag)
    (h : f.fit logNfo.tcpFlags = true) (h0 : flag ≠ 0) : hasFlag logNfo flag = true := by
  obtain ⟨hset, -⟩ := of_decide_eq_true h
  refine decide_eq_true fun hz => h0 ?_
  calc flag = f.tcpFlagsSet &&& logNfo.tcpFlags &&& flag := by rw [hset, hf]
    _ = f.tcpFlagsSet &&& (logNfo.tcpFlags &&& flag) := UInt8.and_assoc ..
    _ = 0 := by rw [hz, UInt8.and_zero]

theorem fits_in {state : Int} (h : Fits state directionIn logNfo.tcpFlags) :
    state ≠ tcpStateNone ∧
      (hasFlag logNfo thAck = true ∨ hasFlag logNfo thFin = true) := by
  obtain ⟨i, -, hset, hfit⟩ := h
  rcases foldl_write_cases (fun _ _ _ => {}) initTcpStates state directionIn i with h | ⟨-, heq⟩
  · obtain ⟨d, hd, rfl, hdir, -, heq⟩ := h
    rw [gTcpStates, heq] at hfit
    have hin := List.all_eq_true.mp initTcpStates_in d hd
    simp only [decide_eq_true_eq] at hin
    obtain ⟨hne, hflags⟩ := hin hdir
    refine ⟨hne, hflags.imp (fun h => ?_) fun h => ?_⟩
    · exact has_of_fit h hfit (by decide)
    · exact has_of_fit h hfit (by decide)
  · rw [gTcpStates, heq] at hset
    exact absurd rfl hset

/-- A connection of this machine with the peer of the packet, at an address of the packet
or at none yet. -/
def Connected (g : Globals) (logNfo : FltRequest) : Prop :=
  ∃ state, state ≠ tcpStateNone ∧
    (ConnectedAt g (sAddr (ends logNfo).1) logNfo state ∨ ConnectedAt g 0 logNfo state)

theorem connected_of_connection {state : Int} (h : Connection g logNfo.toFltRequest state)
    (hs : state ≠ tcpStateNone) : Connected g logNfo.toFltRequest := by
  rcases h with h | ⟨-, h | h⟩
  · exact ⟨state, hs, Or.inl h⟩
  · exact ⟨state, hs, Or.inr h⟩
  · exact absurd h.2 hs

/-- An incoming TCP packet that is not logged opens a connection that is listened for, or
is part of one that is there; without ACK, FIN or RST it is never let through in silence. -/
theorem reached_unnoticed (h : Reached (act env) Orderly Initial g) {n : Nat}
    (hnl : g.listenPool.live.length ≤ n) (hnc : g.connPool.live.length ≤ n)
    (hp : logNfo.proto = ipprotoTcp) (hdir : logNfo.direction = directionIn) (hpid : logNfo.pid = 0)
    {r : PacketRequest} (hr : checkPacket g n logNfo = some r) (hq : r.pid ≠ 0) :
    opens logNfo = true ∧ Listened g logNfo.addrTo ipprotoTcp ∨
      opens logNfo = false ∧ Connected g logNfo.toFltRequest ∧
        (hasFlag logNfo thAck = true ∨ hasFlag logNfo thFin = true ∨
          hasFlag logNfo thRst = true) := by
  obtain ⟨hlisten, hg⟩ := reached_invariant (fun g => Listening g ∧ Tracked g)
    (fun _ h₀ => ⟨listening_initial h₀, tracked_initial h₀⟩)
    (fun _ _ _ _ hg ho hs => ⟨listening_act hg.1 ho.placed hs, tracked_act hg.2 ho hs⟩) h
  have hdir' : logNfo.direction = directionIn ∨ logNfo.direction = directionOut := Or.inl hdir
  obtain ⟨state, r', hconn, hr', hj⟩ := checkPacket_spec hlisten.listenExact hg hnl hnc hdir'
  obtain rfl := Option.some.inj (hr'.symm.trans hr)
  have hexp : Expected g logNfo state := by
    by_contra hne
    refine hq ?_
    rw [hj.unexpected hne, reported]
    split <;> exact hpid
  have hout : logNfo.direction ≠ directionOut := by
    rw [hdir]
    decide
  rw [Expected, if_pos hp] at hexp
  by_cases ho : opens logNfo = true
  · rw [if_pos ho] at hexp
    exact Or.inl ⟨ho, hexp⟩
  · refine Or.inr ⟨Bool.not_eq_true _ ▸ ho, ?_⟩
    rw [if_neg ho] at hexp
    by_cases hrst : hasFlag logNfo thRst = true
    · rw [if_pos hrst, or_iff_left fun h => hout h.1] at hexp
      exact ⟨connected_of_connection hconn hexp, Or.inr (Or.inr hrst)⟩
    · rw [if_neg hrst, hdir] at hexp
      obtain ⟨hne, hflags⟩ := fits_in hexp
      exact ⟨connected_of_connection hconn hne, hflags.imp_right Or.inl⟩

/-- The SYN that the server does not log is for an address it listens on. -/
theorem reached_unnoticed_server :
    ∃ g os, run (act (freeBuild fun _ _ => none)) (blank Driver.Represent.blankAdf) serverStarts =
        some (g, os) ∧ checkPacket g 1 (toServer thSyn) = some (unlogged (toServer thSyn)) ∧
      (opens (toServer thSyn) = true ∧ Listened g (toServer thSyn).addrTo ipprotoTcp ∨
        opens (toServer thSyn) = false ∧ Connected g (toServer thSyn).toFltRequest ∧
          (hasFlag (toServer thSyn) thAck = true ∨ hasFlag (toServer thSyn) thFin = true ∨
            hasFlag (toServer thSyn) thRst = true)) := by
  obtain ⟨g, os, hr, hln, hcn, hsyn⟩ : ∃ g os, run (act (freeBuild fun _ _ => none))
      (blank Driver.Represent.blankAdf) serverStarts = some (g, os) ∧
        g.listenPool.live.length = 1 ∧ g.connPool.live.length = 0 ∧
        checkPacket g 1 (toServer thSyn) = some (unlogged (toServer thSyn)) :=
    ⟨_, _, rfl, rfl, rfl, by decide +kernel⟩
  refine ⟨g, os, hr, hsyn, ?_⟩
  exact reached_unnoticed ⟨_, _, os, initial_blank _, orderly_serverStarts, hr⟩
    (Nat.le_of_eq hln) (hcn ▸ Nat.zero_le 1) rfl rfl rfl hsyn (by decide)

/-! ## The firewall hook -/

/-- Whether the packet is for 127.0.0.1. -/
def toLoopback (ip : Cursor UInt8) : Bool := field ip 16 4 == [127, 0, 0, 1]

/-- The request after `process_ip`; a broadcast cannot be told, so every packet may be one. -/
def hookRequest (direction : Int) (ip : Cursor UInt8) : PacketRequest :=
  let logNfo : PacketRequest :=
    { direction := direction, addrFrom := List.replicate 16 0, addrTo := List.replicate 16 0 }
  { processIp direction ip logNfo with isBroadcast := true }

/-- `hook_proc` for the two buffers that it is given: the IP header, and what follows it.
Whether the packet is forwarded, and the request that is logged. -/
def hookProc (dbg : Bool) (check : PacketRequest → PacketRequest) (direction : Int)
    (ip packet : Cursor UInt8) : Verdict :=
  if toLoopback ip then ⟨true, none⟩
  else if notFirstFragment ip then ⟨true, none⟩
  else
    match (processTransp dbg check (ip.byte 9).toNat packet (hookRequest direction ip)).2 with
    | none => ⟨false, none⟩
    | some nfo =>
        ⟨true,
          if nfo.pid = 0 then some { nfo with result := filterPacketLog, pid := 2 ^ 32 - 1 }
          else none⟩

/-- `check_packet` on the tables as they are. -/
def checkOf (g : Globals) (n : Nat) (logNfo : PacketRequest) : PacketRequest :=
  (checkPacket g n logNfo).getD logNfo

/-- The transport header that the protocol asks for is not all there. -/
def ShortHeader (proto : Nat) (packet : Cursor UInt8) : Prop :=
  proto = ipprotoTcp ∧ packet.left < tcpHdrSize ∨ proto = ipprotoUdp ∧ packet.left < udpHdrSize ∨
    proto = ipprotoIcmp ∧ packet.left < icmpHdrSize

/-- The request of a packet as `check_packet` gets it. -/
def parsed (direction : Int) (ip packet : Cursor UInt8) : PacketRequest :=
  let nfo := hookRequest direction ip
  ((processTransp false id (ip.byte 9).toNat packet nfo).2).getD nfo

/-- The check only decides about what becomes of the request. -/
theorem processTransp_eq (dbg : Bool) (check : PacketRequest → PacketRequest) (proto : Nat)
    (pointer : Cursor UInt8) (logNfo : PacketRequest) :
    (processTransp dbg check proto pointer logNfo).2 =
      ((processTransp false id proto pointer logNfo).2).map
        (if proto = ipprotoTcp ∨ proto = ipprotoUdp ∨ proto = ipprotoIcmp then check else id) := by
  unfold processTransp
  by_cases htcp : proto = ipprotoTcp
  · rw [if_pos htcp, if_pos htcp, if_pos (Or.inl htcp)]
    split <;> rfl
  · rw [if_neg htcp, if_neg htcp]
    by_cases hudp : proto = ipprotoUdp
    · rw [if_pos hudp, if_pos hudp, if_pos (Or.inr (Or.inl hudp))]
      split <;> rfl
    · rw [if_neg hudp, if_neg hudp]
      by_cases hicmp : proto = ipprotoIcmp
      · rw [if_pos hicmp, if_pos hicmp, if_pos (Or.inr (Or.inr hicmp))]
        split <;> rfl
      · rw [if_neg hicmp, if_neg hicmp, if_neg (by tauto)]
        rfl

theorem processTransp_none (dbg : Bool) (check : PacketRequest → PacketRequest) (proto : Nat)
    (pointer : Cursor UInt8) (logNfo : PacketRequest) :
    (processTransp dbg check proto pointer logNfo).2 = none ↔ ShortHeader proto pointer := by
  have htu : ipprotoTcp ≠ ipprotoUdp := by decide
  have hti : ipprotoTcp ≠ ipprotoIcmp := by decide
  have hui : ipprotoUdp ≠ ipprotoIcmp := by decide
  unfold processTransp ShortHeader
  by_cases htcp : proto = ipprotoTcp
  · subst htcp
    by_cases hs : pointer.left < tcpHdrSize <;> simp [hs, htu, hti]
  · by_cases hudp : proto = ipprotoUdp
    · subst hudp
      by_cases hs : pointer.left < udpHdrSize <;> simp [hs, htu.symm, hui]
    · by_cases hicmp : proto = ipprotoIcmp
      · subst hicmp
        by_cases hs : pointer.left < icmpHdrSize <;> simp [hs, hti.symm, hui.symm]
      · simp [htcp, hudp, hicmp]

/-- The packet is forwarded, and logged just when it is not expected. -/
structure Forwarded (g : Globals) (nfo : PacketRequest) (v : Verdict) : Prop where
  pass : v.pass = true
  logged : ∃ state, Connection g nfo.toFltRequest state ∧
    (Expected g nfo state → v.logged = none) ∧
    (¬ Expected g nfo state → v.logged =
      some { reported nfo state with result := filterPacketLog, pid := 2 ^ 32 - 1 })

/-- What `hook_proc` does with a packet in any state of the tables: the loopback and what is
seen to be a later fragment pass, the rest is cut short or judged. -/
structure Hooked (g : Globals) (direction : Int) (ip packet : Cursor UInt8) (v : Verdict) :
    Prop where
  past : toLoopback ip = true ∨ notFirstFragment ip = true → v = ⟨true, none⟩
  short : toLoopback ip = false → notFirstFragment ip = false →
    ShortHeader (ip.byte 9).toNat packet → v = ⟨false, none⟩
  whole : toLoopback ip = false → notFirstFragment ip = false →
    ¬ ShortHeader (ip.byte 9).toNat packet → Forwarded g (parsed direction ip packet) v

/-- The transport header goes into its own members. -/
theorem processTransp_kept {proto : Nat} {pointer : Cursor UInt8} {nfo : PacketRequest}
    (h : (processTransp false id proto pointer logNfo).2 = some nfo) :
    nfo.proto = logNfo.proto ∧ nfo.direction = logNfo.direction ∧ nfo.pid = logNfo.pid := by
  unfold processTransp at h
  repeat' split at h
  · exact absurd h.symm (Option.some_ne_none nfo)
  · obtain rfl := Option.some.inj h
    exact ⟨rfl, rfl, rfl⟩
  · exact absurd h.symm (Option.some_ne_none nfo)
  · obtain rfl := Option.some.inj h
    exact ⟨rfl, rfl, rfl⟩
  · exact absurd h.symm (Option.some_ne_none nfo)
  · obtain rfl := Option.some.inj h
    exact ⟨rfl, rfl, rfl⟩
  · obtain rfl := Option.some.inj h
    exact ⟨rfl, rfl, rfl⟩

/-- The request after the check, or as it is when its protocol is not checked. -/
theorem forwarded_of_spec (hl : ListenExact g) (hg : Tracked g) {n : Nat}
    (hnl : g.listenPool.live.length ≤ n) (hnc : g.connPool.live.length ≤ n)
    (hdir : logNfo.direction = directionIn ∨ logNfo.direction = directionOut)
    (hpid : logNfo.pid = 0) :
    let nfo :=
      if logNfo.proto = ipprotoTcp ∨ logNfo.proto = ipprotoUdp ∨ logNfo.proto = ipprotoIcmp then
        checkOf g n logNfo
      else logNfo
    Forwarded g logNfo
      ⟨true, if nfo.pid = 0 then some { nfo with result := filterPacketLog, pid := 2 ^ 32 - 1 }
        else none⟩ := by
  obtain ⟨state, r, hconn, hr, hj⟩ := checkPacket_spec hl hg hnl hnc hdir
  have hcheck : checkOf g n logNfo = r := by
    rw [checkOf, hr]
    rfl
  refine ⟨rfl, state, hconn, fun hexp => ?_, fun hexp => ?_⟩
  · have hproto : logNfo.proto = ipprotoTcp ∨ logNfo.proto = ipprotoUdp := by
      by_contra hno
      rw [not_or] at hno
      rw [Expected, if_neg hno.1, if_neg hno.2] at hexp
      exact hexp
    have hne : (unlogged logNfo).pid ≠ 0 := show (2 ^ 32 - 1 : Nat) ≠ 0 by decide
    rw [if_pos (hproto.imp_right Or.inl), hcheck, hj.expected hexp, if_neg hne]
  · have hsame : (if logNfo.proto = ipprotoTcp ∨ logNfo.proto = ipprotoUdp ∨
        logNfo.proto = ipprotoIcmp then checkOf g n logNfo else logNfo) =
          reported logNfo state := by
      split
      · rw [hcheck, hj.unexpected hexp]
      · rename_i hno
        exact (if_neg fun h => hno (Or.inl h.1)).symm
    have hzero : (reported logNfo state).pid = 0 := by
      rw [reported]
      split <;> exact hpid
    rw [hsame, if_pos hzero]

/-- In every state that a run leads to, the hook lets loopback packets and the later fragments
that it knows as such pass, drops what has no whole header, and reports the rest as `Hooked`
says. -/
theorem reached_hookProc (h : Reached (act env) Orderly Initial g) {n : Nat}
    (hnl : g.listenPool.live.length ≤ n) (hnc : g.connPool.live.length ≤ n) (dbg : Bool)
    {direction : Int} (hdir : direction = directionIn ∨ direction = directionOut)
    (ip packet : Cursor UInt8) :
    Hooked g direction ip packet (hookProc dbg (checkOf g n) direction ip packet) := by
  obtain ⟨hlisten, hg⟩ := reached_invariant (fun g => Listening g ∧ Tracked g)
    (fun _ h₀ => ⟨listening_initial h₀, tracked_initial h₀⟩)
    (fun _ _ _ _ hg ho hs => ⟨listening_act hg.1 ho.placed hs, tracked_act hg.2 ho hs⟩) h
  unfold hookProc
  have htransp := processTransp_eq dbg (checkOf g n) (ip.byte 9).toNat packet
    (hookRequest direction ip)
  refine ⟨fun hpast => ?_, fun hloop hfrag hshort => ?_, fun hloop hfrag hshort => ?_⟩
  · rcases hpast with hloop | hfrag
    · rw [if_pos hloop]
    · rw [if_pos hfrag, ite_self]
  · rw [if_neg (by rw [hloop]; exact Bool.false_ne_true),
      if_neg (by rw [hfrag]; exact Bool.false_ne_true),
      (processTransp_none dbg (checkOf g n) (ip.byte 9).toNat packet _).mpr hshort]
  · rw [if_neg (by rw [hloop]; exact Bool.false_ne_true),
      if_neg (by rw [hfrag]; exact Bool.false_ne_true)]
    obtain ⟨p, hp⟩ := Option.ne_none_iff_exists'.mp fun hnone =>
      hshort ((processTransp_none false id (ip.byte 9).toNat packet
        (hookRequest direction ip)).mp hnone)
    have hparsed : parsed direction ip packet = p := by
      rw [parsed, hp, Option.getD_some]
    obtain ⟨hproto, hdirp, hpid⟩ := processTransp_kept hp
    rw [htransp, hp, Option.map_some, hparsed]
    have hdir' : p.direction = directionIn ∨ p.direction = directionOut := by
      rw [hdirp]
      exact hdir
    have hforward := forwarded_of_spec hlisten.listenExact hg hnl hnc hdir' hpid
    rw [show p.proto = (ip.byte 9).toNat from hproto] at hforward
    split at hforward
    · rename_i hchecked
      rw [if_pos hchecked]
      exact hforward
    · rename_i hchecked
      rw [if_neg hchecked]
      exact hforward

/-- The IP header of a TCP packet from 10.0.0.2 to 10.0.0.1. -/
def clientIp : Cursor UInt8 :=
  ⟨0, [0x45, 0, 0, 40, 0, 0, 0, 0, 64, 6, 0, 0, 10, 0, 0, 2, 10, 0, 0, 1], [], 0⟩

/-- The TCP header from port 1024 to port 80. -/
def clientTcp (tcpFlags : UInt8) : Cursor UInt8 :=
  ⟨1, [4, 0, 0, 80, 0, 0, 0, 0, 0, 0, 0, 0, 0x50, tcpFlags, 0, 0, 0, 0, 0, 0], [], 0⟩

/-- The SYN goes through in silence, the ACK goes through and is logged. -/
theorem reached_hookProc_server :
    ∃ g os, run (act (freeBuild fun _ _ => none)) (blank Driver.Represent.blankAdf) serverStarts =
        some (g, os) ∧
      hookProc false (checkOf g 1) directionIn clientIp (clientTcp thSyn) = ⟨true, none⟩ ∧
      (hookProc false (checkOf g 1) directionIn clientIp (clientTcp thAck)).logged.isSome = true ∧
      ∀ ip packet, Hooked g directionIn ip packet
        (hookProc false (checkOf g 1) directionIn ip packet) := by
  obtain ⟨g, os, hr, hln, hcn, hsyn, hack⟩ : ∃ g os, run (act (freeBuild fun _ _ => none))
      (blank Driver.Represent.blankAdf) serverStarts = some (g, os) ∧
        g.listenPool.live.length = 1 ∧ g.connPool.live.length = 0 ∧
        hookProc false (checkOf g 1) directionIn clientIp (clientTcp thSyn) = ⟨true, none⟩ ∧
        (hookProc false (checkOf g 1) directionIn clientIp (clientTcp thAck)).logged.isSome =
          true :=
    ⟨_, _, rfl, rfl, rfl, by decide +kernel, by decide +kernel⟩
  refine ⟨g, os, hr, hsyn, hack, fun ip packet => ?_⟩
  exact reached_hookProc ⟨_, _, os, initial_blank _, orderly_serverStarts, hr⟩
    (Nat.le_of_eq hln) (hcn ▸ Nat.zero_le 1) false (Or.inl rfl) ip packet

/-! ## The packet engine -/

/-- The same accesses, and the same answer. -/
structure SamePass (r r' : Run) : Prop where
  accesses : r.accesses = r'.accesses
  pass : r.verdict.map Verdict.pass = r'.verdict.map Verdict.pass

theorem SamePass.refl (r : Run) : SamePass r r := ⟨rfl, rfl⟩

theorem SamePass.after {r r' : Run} (h : SamePass r r') (accesses : List Access) :
    SamePass (r.after accesses) (r'.after accesses) := by
  refine ⟨?_, h.pass⟩
  rw [Run.after, Run.after, h.accesses]

theorem samePass_moved (m : List Access × Option (Cursor UInt8)) {k k' : Cursor UInt8 → Run}
    (h : ∀ c, SamePass (k c) (k' c)) : SamePass (moved m k) (moved m k') := by
  unfold moved
  split
  · exact SamePass.refl _
  · exact (h _).after m.1

theorem processTransp_accesses (dbg : Bool) (check check' : PacketRequest → PacketRequest)
    (proto : Nat) (pointer : Cursor UInt8) (logNfo : PacketRequest) :
    (processTransp dbg check proto pointer logNfo).1 =
      (processTransp dbg check' proto pointer logNfo).1 := by
  unfold processTransp
  repeat' split
  all_goals rfl

theorem samePass_filterTransp (dbg : Bool) (check check' : PacketRequest → PacketRequest)
    (ip : Cursor UInt8) (logNfo : PacketRequest) (pointer : Cursor UInt8) :
    SamePass (filterTransp dbg check ip logNfo pointer)
      (filterTransp dbg check' ip logNfo pointer) := by
  unfold filterTransp
  dsimp only
  rw [processTransp_accesses dbg check check', processTransp_eq dbg check,
    processTransp_eq dbg check']
  apply SamePass.after
  cases (processTransp false id (ip.byte 9).toNat pointer logNfo).2 with
  | none => exact SamePass.refl _
  | some nfo => exact ⟨rfl, rfl⟩

/-- What the tables hold changes neither what `filter_packet` reads of a packet nor
whether it passes it on. -/
theorem samePass_filterPacket (dbg : Bool) (check check' : PacketRequest → PacketRequest)
    (direction : Int) (chain : List (List UInt8)) :
    SamePass (filterPacket dbg check direction chain)
      (filterPacket dbg check' direction chain) := by
  have hip : ∀ nfo ip,
      SamePass (filterIp dbg check direction nfo ip) (filterIp dbg check' direction nfo ip) := by
    intro nfo ip
    unfold filterIp
    split
    · exact SamePass.refl _
    · apply SamePass.after
      split
      · exact SamePass.refl _
      · apply SamePass.after
        split
        · exact SamePass.refl _
        · apply SamePass.after
          exact samePass_moved _ fun c => samePass_filterTransp dbg check check' ip _ c
  unfold filterPacket
  extract_lets logNfo
  split
  · exact SamePass.refl _
  · cases chain with
    | nil => exact SamePass.refl _
    | cons buffer rest =>
      apply SamePass.after
      dsimp only
      split
      · exact SamePass.refl _
      · apply SamePass.after
        refine samePass_moved _ fun c => SamePass.after ?_ _
        split
        · exact hip _ c
        · exact SamePass.refl _

end AdFilter.Tdi.PacketPath
