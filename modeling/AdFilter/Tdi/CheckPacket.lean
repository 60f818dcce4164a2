import AdFilter.Tdi.ConnRuns
import AdFilter.Tdi.ListenRuns
import AdFilter.Tdi.Packet

/-!
# Checking a packet against the tables

`check_packet` looks the addresses of a packet up in the listen table and the connection
table, and the flags of a TCP header in `g_tcp_states`. A packet that is expected is not
logged. In every state that the layer reaches the answer is that of the objects: who
listens, and which connections are there.
-/

namespace AdFilter.Tdi.CheckPacket

open AdFilter.Lib.Runs
open AdFilter.Nt
open AdFilter.Tdi.Ipc
open AdFilter.Tdi.Objects
open AdFilter.Tdi.ConnState
open AdFilter.Tdi.Machine
open AdFilter.Tdi.ConnTable (InRange)
open AdFilter.Tdi.TcpStates (sAddr sinPort getTcpConnState checkPacketState)
open AdFilter.Tdi.ConnHash (HasAddresses FoundRight)
open AdFilter.Tdi.Packet
open AdFilter.Tdi.Primitives
open AdFilter.Tdi.ListenTable
open AdFilter.Tdi.ListenRuns
open AdFilter.Tdi.ConnRuns

/-! ## The table of flags -/

def thFin : UInt8 := 0x01
def thSyn : UInt8 := 0x02
def thRst : UInt8 := 0x04
def thAck : UInt8 := 0x10

def maxFlags : Nat := 3

structure TcpFlags where
  tcpFlagsSet : UInt8 := 0
  tcpFlagsNotSet : UInt8 := 0
deriving DecidableEq, Repr

/-- A `DEFINE_STATE_IN` or `DEFINE_STATE_OUT`. -/
structure DefineState where
  direction : Int
  state : Int
  index : Nat
  flags : TcpFlags
deriving DecidableEq, Repr

/-- The body of `init_tcp_states`. -/
def initTcpStates : List DefineState :=
  [⟨directionOut, tcpStateSynSent, 0, ⟨thSyn, thAck⟩⟩,
    ⟨directionOut, tcpStateSynSent, 1, ⟨thAck, thSyn ||| thFin⟩⟩,
    ⟨directionIn, tcpStateSynSent, 0, ⟨thSyn ||| thAck, 0⟩⟩,
    ⟨directionOut, tcpStateSynRcvd, 0, ⟨thSyn ||| thAck, 0⟩⟩,
    ⟨directionIn, tcpStateSynRcvd, 0, ⟨thAck, thFin ||| thSyn⟩⟩,
    ⟨directionIn, tcpStateSynRcvd, 1, ⟨thFin, thSyn⟩⟩,
    ⟨directionIn, tcpStateEstablishedIn, 0, ⟨thAck, thFin ||| thSyn⟩⟩,
    ⟨directionIn, tcpStateEstablishedIn, 1, ⟨thFin, thSyn⟩⟩,
    ⟨directionOut, tcpStateEstablishedIn, 0, ⟨thAck, thFin ||| thSyn⟩⟩,
    ⟨directionOut, tcpStateEstablishedIn, 1, ⟨thFin, thSyn⟩⟩,
    ⟨directionIn, tcpStateEstablishedOut, 0, ⟨thAck, thFin ||| thSyn⟩⟩,
    ⟨directionIn, tcpStateEstablishedOut, 1, ⟨thFin, thSyn⟩⟩,
    ⟨directionIn, tcpStateEstablishedOut, 2, ⟨thAck ||| thSyn, thFin⟩⟩,
    ⟨directionOut, tcpStateEstablishedOut, 0, ⟨thAck, thFin ||| thSyn⟩⟩,
    ⟨directionOut, tcpStateEstablishedOut, 1, ⟨thFin, thSyn⟩⟩,
    ⟨directionIn, tcpStateFinWait1, 0, ⟨thFin, thSyn⟩⟩,
    ⟨directionIn, tcpStateFinWait1, 1, ⟨thAck, thFin ||| thSyn⟩⟩,
    ⟨directionOut, tcpStateFinWait1, 0, ⟨thFin, thSyn⟩⟩,
    ⟨directionOut, tcpStateFinWait1, 1, ⟨thAck, thFin ||| thSyn⟩⟩,
    ⟨directionIn, tcpStateFinWait2, 0, ⟨thFin, thSyn⟩⟩,
    ⟨directionIn, tcpStateFinWait2, 1, ⟨thAck, thFin ||| thSyn⟩⟩,
    ⟨directionOut, tcpStateFinWait2, 0, ⟨thAck, thFin ||| thSyn⟩⟩,
    ⟨directionOut, tcpStateCloseWait, 0, ⟨thAck, thFin ||| thSyn⟩⟩,
    ⟨directionOut, tcpStateLastAck, 0, ⟨thFin, thSyn⟩⟩,
    ⟨directionOut, tcpStateLastAck, 1, ⟨thAck, thFin ||| thSyn⟩⟩,
    ⟨directionIn, tcpStateLastAck, 0, ⟨thAck, thFin ||| thSyn⟩⟩,
    ⟨directionIn, tcpStateLastAck, 1, ⟨thFin, thSyn⟩⟩,
    ⟨directionIn, tcpStateClosed, 0, ⟨thAck, 0⟩⟩,
    ⟨directionIn, tcpStateClosed, 1, ⟨thFin, 0⟩⟩,
    ⟨directionOut, tcpStateClosed, 0, ⟨thRst, 0⟩⟩,
    ⟨directionOut, tcpStateClosed, 1, ⟨thAck, thFin ||| thSyn⟩⟩]

def DefineState.write (t : Int → Int → Nat → TcpFlags) (d : DefineState) :
    Int → Int → Nat → TcpFlags :=
  fun state direction index =>
    if d.state = state ∧ d.direction = direction ∧ d.index = index then d.flags
    else t state direction index

/-- `g_tcp_states`: zeroes but for what the definitions have written. -/
def gTcpStates : Int → Int → Nat → TcpFlags :=
  initTcpStates.foldl DefineState.write fun _ _ _ => {}

/-- The test of the flags of a header against an element of the table. -/
def TcpFlags.fit (f : TcpFlags) (tcpFlags : UInt8) : Bool :=
  f.tcpFlagsSet &&& tcpFlags = f.tcpFlagsSet ∧ f.tcpFlagsNotSet &&& tcpFlags = 0

/-- The loop over the elements for a state and a direction, with `n` of them left. -/
def fitFrom (state direction : Int) (tcpFlags : UInt8) : Nat → Nat → Bool
  | 0, _ => false
  | n + 1, i =>
      let f := gTcpStates state direction i
      if f.tcpFlagsSet = 0 then false
      else if f.fit tcpFlags then true
      else fitFrom state direction tcpFlags n (i + 1)

/-! ## The check -/

/-- `pid` is -1: "don't log this packet". -/
def unlogged (logNfo : PacketRequest) : PacketRequest := { logNfo with pid := 2 ^ 32 - 1 }

def hasFlag (logNfo : PacketRequest) (flag : UInt8) : Bool := logNfo.tcpFlags &&& flag ≠ 0

/-- The address, or any address of this machine, is listened on. -/
def isListenAny (g : Globals) (n : Nat) (addr : SockAddr) (ipproto : Nat) : Option Bool :=
  (isListen g n (sAddr addr) (sinPort addr) ipproto).bind fun b =>
    if b then some true else isListen g n 0 (sinPort addr) ipproto

/-- An incoming SYN. -/
def opens (logNfo : PacketRequest) : Bool :=
  hasFlag logNfo thSyn && !hasFlag logNfo thAck && logNfo.direction = directionIn

/-- A TCP packet that is not an incoming SYN. An index out of the table has no outcome. -/
def checkConn (g : Globals) (n : Nat) (logNfo : PacketRequest) : Option PacketRequest :=
  (checkPacketState g n logNfo.toFltRequest).bind fun state =>
    let correct :=
      if hasFlag logNfo thRst then some (decide (state ≠ tcpStateNone))
      else if InRange state ∧
          (logNfo.direction = directionIn ∨ logNfo.direction = directionOut) then
        some (fitFrom state logNfo.direction logNfo.tcpFlags maxFlags 0)
      else none
    correct.bind fun correct =>
      let correct :=
        if !correct && hasFlag logNfo thRst && logNfo.direction = directionOut then
          isListenAny g n logNfo.addrFrom ipprotoTcp
        else some correct
      correct.map fun correct =>
        if correct then unlogged logNfo else { logNfo with tcpState := state }

def checkUdp (g : Globals) (n : Nat) (logNfo : PacketRequest) : Option Bool :=
  let addr := if logNfo.direction = directionIn then logNfo.addrTo else logNfo.addrFrom
  (isListenAny g n addr logNfo.proto).bind fun b =>
    if b then some true
    else if logNfo.isBroadcast then
      if logNfo.direction = directionIn ∧ sAddr addr = 0xffffffff then some true
      else isBcastListen g n (sAddr addr) (sinPort addr) logNfo.proto
    else some false

/-- `check_packet`; the searches have an outcome when `n` entries are enough. -/
def checkPacket (g : Globals) (n : Nat) (logNfo : PacketRequest) : Option PacketRequest :=
  if logNfo.proto = ipprotoTcp then
    if opens logNfo then
      (isListenAny g n logNfo.addrTo ipprotoTcp).map fun correct =>
        if correct then unlogged logNfo else logNfo
    else checkConn g n logNfo
  else if logNfo.proto = ipprotoUdp then
    (checkUdp g n logNfo).map fun correct => if correct then unlogged logNfo else logNfo
  else some logNfo

/-! ## What it should say -/

/-- Some element of the table for the state and the direction fits the flags. -/
def Fits (state direction : Int) (tcpFlags : UInt8) : Prop :=
  ∃ i < maxFlags, (gTcpStates state direction i).tcpFlagsSet ≠ 0 ∧
    (gTcpStates state direction i).fit tcpFlags = true

def Listened (g : Globals) (addr : SockAddr) (ipproto : Nat) : Prop :=
  Listens g (sAddr addr) (sinPort addr) ipproto ∨ Listens g 0 (sinPort addr) ipproto

/-- A listening address that the broadcast reaches. -/
def BcastListened (g : Globals) (addr : SockAddr) (ipproto : Nat) : Prop :=
  ∃ addrL, Listens g addrL (sinPort addr) ipproto ∧
    ntohl addrL ||| ntohl (sAddr addr) = ntohl (sAddr addr)

/-- The addresses of a packet, the one of this machine first. -/
def ends (logNfo : FltRequest) : SockAddr × SockAddr :=
  if logNfo.direction = directionOut then (logNfo.addrFrom, logNfo.addrTo)
  else (logNfo.addrTo, logNfo.addrFrom)

/-- A connection with these addresses is in the state. -/
def ConnectedAt (g : Globals) (laddr : UInt32) (logNfo : FltRequest) (state : Int) : Prop :=
  ∃ ce ∈ g.connPool.live,
    HasAddresses g laddr (sinPort (ends logNfo).1) (sAddr (ends logNfo).2) (sinPort (ends logNfo).2)
      ce ∧ (g.conn ce).state = state

/-- The state of a connection of the packet: one of its own address, else one of no
address yet, else none. -/
def Connection (g : Globals) (logNfo : FltRequest) (state : Int) : Prop :=
  ConnectedAt g (sAddr (ends logNfo).1) logNfo state ∨
    (∀ s, ¬ ConnectedAt g (sAddr (ends logNfo).1) logNfo s) ∧
      (ConnectedAt g 0 logNfo state ∨ (∀ s, ¬ ConnectedAt g 0 logNfo s) ∧ state = tcpStateNone)

/-- What the driver expects, when the connection of a TCP packet is in the state. -/
def Expected (g : Globals) (logNfo : PacketRequest) (state : Int) : Prop :=
  if logNfo.proto = ipprotoTcp then
    if opens logNfo then Listened g logNfo.addrTo ipprotoTcp
    else if hasFlag logNfo thRst then
      state ≠ tcpStateNone ∨ logNfo.direction = directionOut ∧ Listened g logNfo.addrFrom ipprotoTcp
    else Fits state logNfo.direction logNfo.tcpFlags
  else if logNfo.proto = ipprotoUdp then
    if logNfo.direction = directionIn then
      Listened g logNfo.addrTo ipprotoUdp ∨ logNfo.isBroadcast = true ∧
        (sAddr logNfo.addrTo = 0xffffffff ∨ BcastListened g logNfo.addrTo ipprotoUdp)
    else
      Listened g logNfo.addrFrom ipprotoUdp ∨
        logNfo.isBroadcast = true ∧ BcastListened g logNfo.addrFrom ipprotoUdp
  else False

/-- What an unexpected packet is logged with. -/
def reported (logNfo : PacketRequest) (state : Int) : PacketRequest :=
  if logNfo.proto = ipprotoTcp ∧ opens logNfo = false then { logNfo with tcpState := state }
  else logNfo

variable {env : Env} {g : Globals} {logNfo : PacketRequest}

/-! ## The table has no gaps -/

/-- An element is what the last definition for it has written. -/
theorem foldl_write_cases (t : Int → Int → Nat → TcpFlags) (ds : List DefineState)
    (state direction : Int) (index : Nat) :
    (∃ d ∈ ds, d.state = state ∧ d.direction = direction ∧ d.index = index ∧
        ds.foldl DefineState.write t state direction index = d.flags) ∨
      (∀ d ∈ ds, ¬ (d.state = state ∧ d.direction = direction ∧ d.index = index)) ∧
        ds.foldl DefineState.write t state direction index = t state direction index := by
  induction ds generalizing t with
  | nil => exact Or.inr ⟨fun d hd => absurd hd List.not_mem_nil, rfl⟩
  | cons d ds ih =>
    rw [List.foldl_cons]
    rcases ih (DefineState.write t d) with h | ⟨hno, heq⟩
    · obtain ⟨e, he, h⟩ := h
      exact Or.inl ⟨e, List.mem_cons_of_mem d he, h⟩
    · by_cases hd : d.state = state ∧ d.direction = direction ∧ d.index = index
      · refine Or.inl ⟨d, List.mem_cons_self, hd.1, hd.2.1, hd.2.2, heq.trans ?_⟩
        rw [DefineState.write, if_pos hd]
      · refine Or.inr ⟨List.forall_mem_cons.mpr ⟨hd, hno⟩, heq.trans ?_⟩
        rw [DefineState.write, if_neg hd]

theorem initTcpStates_set : initTcpStates.all (fun d => d.flags.tcpFlagsSet ≠ 0) = true := by decide

/-- Whoever has an index has the one before. -/
theorem initTcpStates_dense : initTcpStates.all (fun d => d.index = 0 ∨ initTcpStates.any fun e =>
    e.state = d.state ∧ e.direction = d.direction ∧ e.index + 1 = d.index) = true := by
  decide +kernel

theorem defined_iff (state direction : Int) (index : Nat) :
    (gTcpStates state direction index).tcpFlagsSet ≠ 0 ↔
      ∃ d ∈ initTcpStates, d.state = state ∧ d.direction = direction ∧ d.index = index := by
  have h := foldl_write_cases (fun _ _ _ => {}) initTcpStates state direction index
  constructor
  · intro hset
    rcases h with h | ⟨-, heq⟩
    · obtain ⟨d, hd, hs, hdir, hi, -⟩ := h
      exact ⟨d, hd, hs, hdir, hi⟩
    · rw [gTcpStates, heq] at hset
      exact absurd rfl hset
  · intro hd
    rcases h with h | ⟨hno, -⟩
    · obtain ⟨d, hd, -, -, -, heq⟩ := h
      rw [gTcpStates, heq]
      simpa using List.all_eq_true.mp initTcpStates_set d hd
    · obtain ⟨d, hd, hmatch⟩ := hd
      exact absurd hmatch (hno d hd)

theorem defined_pred {state direction : Int} {index : Nat}
    (h : (gTcpStates state direction (index + 1)).tcpFlagsSet ≠ 0) :
    (gTcpStates state direction index).tcpFlagsSet ≠ 0 := by
  obtain ⟨d, hd, rfl, rfl, hi⟩ := (defined_iff state direction (index + 1)).mp h
  have hdense := List.all_eq_true.mp initTcpStates_dense d hd
  simp only [decide_eq_true_eq, List.any_eq_true] at hdense
  rcases hdense with h0 | ⟨e, he, hs, hdir, hpred⟩
  · exact absurd (h0.symm.trans hi) (Nat.succ_ne_zero index).symm
  · exact (defined_iff _ _ _).mpr ⟨e, he, hs, hdir, Nat.succ.inj (hpred.trans hi)⟩

theorem defined_of_le {state direction : Int} {i j : Nat} (hij : i ≤ j)
    (h : (gTcpStates state direction j).tcpFlagsSet ≠ 0) :
    (gTcpStates state direction i).tcpFlagsSet ≠ 0 := by
  induction hij with
  | refl => exact h
  | step _ ih => exact ih (defined_pred h)

/-- The end of the loop at an element without flags misses nothing. -/
theorem fitFrom_iff (state direction : Int) (tcpFlags : UInt8) (n i : Nat) :
    fitFrom state direction tcpFlags n i = true ↔
      ∃ j, i ≤ j ∧ j < i + n ∧ (gTcpStates state direction j).tcpFlagsSet ≠ 0 ∧
        (gTcpStates state direction j).fit tcpFlags = true := by
  induction n generalizing i with
  | zero => exact iff_of_false Bool.false_ne_true fun h => by obtain ⟨j, hi, hj, -⟩ := h; omega
  | succ n ih =>
    rw [fitFrom]
    split
    · rename_i hset
      refine iff_of_false Bool.false_ne_true fun h => ?_
      obtain ⟨j, hij, -, hdef, -⟩ := h
      exact defined_of_le hij hdef hset
    · rename_i hset
      split
      · rename_i hfit
        exact iff_of_true rfl ⟨i, Nat.le_refl i, by omega, hset, hfit⟩
      · rename_i hfit
        rw [ih]
        refine exists_congr fun j => ?_
        constructor
        · intro h
          obtain ⟨hij, hj, h⟩ := h
          exact ⟨Nat.le_of_succ_le hij, by omega, h⟩
        · intro h
          obtain ⟨hij, hj, hdef, hfit'⟩ := h
          have hne : i ≠ j := fun he => hfit (he ▸ hfit')
          exact ⟨by omega, by omega, hdef, hfit'⟩

theorem fits_iff (state direction : Int) (tcpFlags : UInt8) :
    fitFrom state direction tcpFlags maxFlags 0 = true ↔ Fits state direction tcpFlags := by
  rw [fitFrom_iff]
  refine exists_congr fun j => ?_
  rw [Nat.zero_add, and_iff_right (Nat.zero_le j)]

/-! ## The look-ups -/

theorem isListenAny_spec (hl : ListenExact g) {n : Nat} (hn : g.listenPool.live.length ≤ n)
    (addr : SockAddr) (ipproto : Nat) :
    ∃ b, isListenAny g n addr ipproto = some b ∧ (b = true ↔ Listened g addr ipproto) := by
  obtain ⟨b, hb, hiff⟩ := hl.isListen n (sAddr addr) (sinPort addr) ipproto hn
  obtain ⟨b₀, hb₀, hiff₀⟩ := hl.isListen n 0 (sinPort addr) ipproto hn
  rw [isListenAny, hb, hb₀, Listened, ← hiff, ← hiff₀]
  cases b
  · exact ⟨b₀, rfl, (or_iff_right Bool.false_ne_true).symm⟩
  · exact ⟨true, rfl, (iff_of_true rfl (Or.inl rfl))⟩

/-- One look-up in the connection table. -/
theorem getTcpConnState_spec (hg : Tracked g) {n : Nat} (hn : g.connPool.live.length ≤ n)
    (laddr : UInt32) (logNfo : FltRequest) :
    ∃ state, getTcpConnState g n laddr (sinPort (ends logNfo).1) (sAddr (ends logNfo).2)
        (sinPort (ends logNfo).2) = some state ∧
      (state = tcpStateNone → ∀ s, ¬ ConnectedAt g laddr logNfo s) ∧
      (state ≠ tcpStateNone → ConnectedAt g laddr logNfo state ∧ InRange state) := by
  obtain ⟨state, hrun, hfound⟩ := hg.invariant.hashExact.lookup n laddr (sinPort (ends logNfo).1)
    (sAddr (ends logNfo).2) (sinPort (ends logNfo).2) hn
  refine ⟨state, hrun, fun hnone s hs => ?_, fun hne => ?_⟩
  · obtain ⟨ce, hce, haddr, -⟩ := hs
    exact hfound.none_iff.mp hnone ce hce haddr
  · obtain ⟨ce, hce, haddr, hstate⟩ := hfound.some hne
    exact ⟨⟨ce, hce, haddr, hstate⟩, hstate ▸ (hg.states ce hce).1⟩

theorem checkPacketState_eq (g : Globals) (n : Nat) (logNfo : FltRequest) :
    checkPacketState g n logNfo =
      (getTcpConnState g n (sAddr (ends logNfo).1) (sinPort (ends logNfo).1) (sAddr (ends logNfo).2)
        (sinPort (ends logNfo).2)).bind fun state =>
          if state = tcpStateNone then
            getTcpConnState g n 0 (sinPort (ends logNfo).1) (sAddr (ends logNfo).2)
              (sinPort (ends logNfo).2)
          else some state := by
  unfold checkPacketState ends
  by_cases h : logNfo.direction = directionOut
  · simp only [if_pos h]
  · simp only [if_neg h]

/-- Both look-ups together. -/
theorem checkPacketState_spec (hg : Tracked g) {n : Nat} (hn : g.connPool.live.length ≤ n)
    (logNfo : FltRequest) :
    ∃ state, checkPacketState g n logNfo = some state ∧ Connection g logNfo state ∧
      InRange state := by
  obtain ⟨s₁, h₁, hnone₁, hsome₁⟩ := getTcpConnState_spec hg hn (sAddr (ends logNfo).1) logNfo
  obtain ⟨s₀, h₀, hnone₀, hsome₀⟩ := getTcpConnState_spec hg hn 0 logNfo
  rw [checkPacketState_eq, h₁, h₀, Option.bind_some]
  by_cases hs₁ : s₁ = tcpStateNone
  · rw [if_pos hs₁]
    refine ⟨s₀, rfl, Or.inr ⟨hnone₁ hs₁, ?_⟩, ?_⟩
    · by_cases hs₀ : s₀ = tcpStateNone
      · exact Or.inr ⟨hnone₀ hs₀, hs₀⟩
      · exact Or.inl (hsome₀ hs₀).1
    · by_cases hs₀ : s₀ = tcpStateNone
      · rw [hs₀]
        decide
      · exact (hsome₀ hs₀).2
  · rw [if_neg hs₁]
    exact ⟨s₁, rfl, Or.inl (hsome₁ hs₁).1, (hsome₁ hs₁).2⟩

theorem checkUdp_spec (hl : ListenExact g) {n : Nat} (hn : g.listenPool.live.length ≤ n)
    (hp : logNfo.proto = ipprotoUdp) (state : Int) :
    ∃ b, checkUdp g n logNfo = some b ∧ (b = true ↔ Expected g logNfo state) := by
  have hne : ¬ logNfo.proto = ipprotoTcp := by
    rw [hp]
    decide
  rw [Expected, if_neg hne, if_pos hp, checkUdp, hp]
  by_cases hin : logNfo.direction = directionIn
  · obtain ⟨b, hb, hiff⟩ := isListenAny_spec hl hn logNfo.addrTo ipprotoUdp
    obtain ⟨b', hb', hiff'⟩ :=
      hl.isBcastListen n (sAddr logNfo.addrTo) (sinPort logNfo.addrTo) ipprotoUdp hn
    simp only [if_pos hin, hb, hb', Option.bind_some, ← hiff]
    rw [BcastListened, ← hiff']
    cases b <;> cases logNfo.isBroadcast <;> simp [hin]
    by_cases haddr : sAddr logNfo.addrTo = 4294967295 <;> simp [haddr]
  · obtain ⟨b, hb, hiff⟩ := isListenAny_spec hl hn logNfo.addrFrom ipprotoUdp
    obtain ⟨b', hb', hiff'⟩ :=
      hl.isBcastListen n (sAddr logNfo.addrFrom) (sinPort logNfo.addrFrom) ipprotoUdp hn
    simp only [if_neg hin, hb, hb', Option.bind_some, ← hiff]
    rw [BcastListened, ← hiff']
    cases b <;> cases logNfo.isBroadcast <;> simp [hin]

/-! ## Every run -/

/-- An expected packet is not logged, another one is logged as it is. -/
structure Judged (g : Globals) (logNfo : PacketRequest) (state : Int) (r : PacketRequest) :
    Prop where
  expected : Expected g logNfo state → r = unlogged logNfo
  unexpected : ¬ Expected g logNfo state → r = reported logNfo state

theorem judged_of_iff {correct : Bool} {state : Int}
    (h : correct = true ↔ Expected g logNfo state) :
    Judged g logNfo state (if correct then unlogged logNfo else reported logNfo state) := by
  refine ⟨fun he => ?_, fun he => ?_⟩
  · rw [if_pos (h.mpr he)]
  · rw [if_neg fun hc => he (h.mp hc)]

theorem checkConn_spec (hl : ListenExact g) (hg : Tracked g) {n : Nat}
    (hnl : g.listenPool.live.length ≤ n) (hnc : g.connPool.live.length ≤ n)
    (hdir : logNfo.direction = directionIn ∨ logNfo.direction = directionOut)
    (hp : logNfo.proto = ipprotoTcp) (ho : opens logNfo = false) :
    ∃ state r, Connection g logNfo.toFltRequest state ∧ checkConn g n logNfo = some r ∧
      Judged g logNfo state r := by
  obtain ⟨state, hrun, hconn, hrange⟩ := checkPacketState_spec hg hnc logNfo.toFltRequest
  have hexp : Expected g logNfo state ↔
      if hasFlag logNfo thRst then
        state ≠ tcpStateNone ∨
          logNfo.direction = directionOut ∧ Listened g logNfo.addrFrom ipprotoTcp
      else Fits state logNfo.direction logNfo.tcpFlags := by
    rw [Expected, if_pos hp, if_neg (by rw [ho]; exact Bool.false_ne_true)]
  have hrep : reported logNfo state = { logNfo with tcpState := state } := by
    rw [reported, if_pos ⟨hp, ho⟩]
  rw [checkConn, hrun, Option.bind_some]
  cases hrst : hasFlag logNfo thRst with
  | false =>
    rw [if_neg (by rw [hrst]; exact Bool.false_ne_true), ← fits_iff] at hexp
    rw [if_neg Bool.false_ne_true, if_pos ⟨hrange, hdir⟩, Option.bind_some]
    simp only [Bool.and_false, Bool.false_and, Bool.false_eq_true, if_false, Option.map_some,
      ← hrep]
    exact ⟨state, _, hconn, rfl, judged_of_iff hexp.symm⟩
  | true =>
    rw [if_pos hrst] at hexp
    rw [if_pos rfl, Option.bind_some]
    obtain ⟨b, hb, hiff⟩ := isListenAny_spec hl hnl logNfo.addrFrom ipprotoTcp
    simp only [Bool.and_true, hb, ← hrep]
    rw [← hiff] at hexp
    by_cases hs : state = tcpStateNone
    · by_cases hout : logNfo.direction = directionOut
      · rw [if_pos (by simp [hs, hout]), Option.map_some]
        refine ⟨state, _, hconn, rfl, judged_of_iff ?_⟩
        rw [hexp, or_iff_right (not_not_intro hs), and_iff_right hout]
      · rw [if_neg (by simp [hout]), Option.map_some]
        refine ⟨state, _, hconn, rfl, judged_of_iff ?_⟩
        rw [hexp, decide_eq_true_iff, or_iff_left fun h => hout h.1]
    · rw [if_neg (by simp [hs]), Option.map_some]
      refine ⟨state, _, hconn, rfl, judged_of_iff ?_⟩
      rw [hexp, decide_eq_true_iff]
      exact iff_of_true hs (Or.inl hs)

theorem checkPacket_spec (hl : ListenExact g) (hg : Tracked g) {n : Nat}
    (hnl : g.listenPool.live.length ≤ n) (hnc : g.connPool.live.length ≤ n)
    (hdir : logNfo.direction = directionIn ∨ logNfo.direction = directionOut) :
    ∃ state r, Connection g logNfo.toFltRequest state ∧ checkPacket g n logNfo = some r ∧
      Judged g logNfo state r := by
  obtain ⟨state, -, hconn, -⟩ := checkPacketState_spec hg hnc logNfo.toFltRequest
  rw [checkPacket]
  by_cases htcp : logNfo.proto = ipprotoTcp
  · rw [if_pos htcp]
    by_cases ho : opens logNfo = true
    · obtain ⟨b, hb, hiff⟩ := isListenAny_spec hl hnl logNfo.addrTo ipprotoTcp
      have hrep : reported logNfo state = logNfo :=
        if_neg fun h => Bool.false_ne_true (h.2.symm.trans ho)
      have hj : Judged g logNfo state (if b then unlogged logNfo else reported logNfo state) := by
        apply judged_of_iff
        rw [Expected, if_pos htcp, if_pos ho, hiff]
      rw [hrep] at hj
      rw [if_pos ho, hb, Option.map_some]
      exact ⟨state, _, hconn, rfl, hj⟩
    · rw [if_neg ho]
      exact checkConn_spec hl hg hnl hnc hdir htcp (Bool.not_eq_true _ ▸ ho)
  · have hrep : reported logNfo state = logNfo := if_neg fun h => htcp h.1
    rw [if_neg htcp]
    by_cases hudp : logNfo.proto = ipprotoUdp
    · obtain ⟨b, hb, hiff⟩ := checkUdp_spec hl hnl hudp state
      have hj := judged_of_iff hiff
      rw [hrep] at hj
      rw [if_pos hudp, hb, Option.map_some]
      exact ⟨state, _, hconn, rfl, hj⟩
    · have hexp : ¬ Expected g logNfo state := by
        rw [Expected, if_neg htcp, if_neg hudp]
        exact not_false
      rw [if_neg hudp]
      exact ⟨state, _, hconn, rfl, fun h => absurd h hexp, fun _ => hrep.symm⟩

/-- In every state that is reached the check has an outcome, and it is right. -/
theorem reached_checkPacket (h : Reached (act env) Orderly Initial g) {n : Nat}
    (hnl : g.listenPool.live.length ≤ n) (hnc : g.connPool.live.length ≤ n)
    (hdir : logNfo.direction = directionIn ∨ logNfo.direction = directionOut) :
    ∃ state r, Connection g logNfo.toFltRequest state ∧ checkPacket g n logNfo = some r ∧
      Judged g logNfo state r := by
  obtain ⟨hlisten, hg⟩ := reached_invariant (fun g => Listening g ∧ Tracked g)
    (fun _ h₀ => ⟨listening_initial h₀, tracked_initial h₀⟩)
    (fun _ _ _ _ hg ho hs => ⟨listening_act hg.1 ho.placed hs, tracked_act hg.2 ho hs⟩) h
  exact checkPacket_spec hlisten.listenExact hg hnl hnc hdir

/-- A packet with these flags from 10.0.0.2:1024 to 10.0.0.1:80. -/
def toServer (tcpFlags : UInt8) : PacketRequest where
  proto := ipprotoTcp
  direction := directionIn
  tcpFlags := tcpFlags
  addrFrom := [2, 0, 4, 0, 10, 0, 0, 2]
  addrTo := [2, 0, 0, 80, 10, 0, 0, 1]

theorem orderly_serverStarts :
    Meets (act (freeBuild fun _ _ => none)) Orderly (blank Driver.Represent.blankAdf) serverStarts := by
  refine meets_serverStarts.mono fun a ha _ hp => ⟨hp, ?_⟩
  rintro connobj garbage rfl
  simp [serverStarts] at ha

/-- The SYN of a client is expected by the server, an ACK out of the blue is not. -/
theorem reached_checkPacket_server :
    ∃ g os, run (act (freeBuild fun _ _ => none)) (blank Driver.Represent.blankAdf) serverStarts =
        some (g, os) ∧
      checkPacket g 1 (toServer thSyn) = some (unlogged (toServer thSyn)) ∧
      checkPacket g 1 (toServer thAck) = some (toServer thAck) ∧
      ∀ tcpFlags, ∃ state r, Connection g (toServer tcpFlags).toFltRequest state ∧
        checkPacket g 1 (toServer tcpFlags) = some r ∧ Judged g (toServer tcpFlags) state r := by
  obtain ⟨g, os, hr, hln, hcn, hsyn, hack⟩ : ∃ g os, run (act (freeBuild fun _ _ => none))
      (blank Driver.Represent.blankAdf) serverStarts = some (g, os) ∧
        g.listenPool.live.length = 1 ∧ g.connPool.live.length = 0 ∧
        checkPacket g 1 (toServer thSyn) = some (unlogged (toServer thSyn)) ∧
        checkPacket g 1 (toServer thAck) = some (toServer thAck) :=
    ⟨_, _, rfl, rfl, rfl, by decide +kernel, by decide +kernel⟩
  refine ⟨g, os, hr, hsyn, hack, fun tcpFlags => ?_⟩
  exact reached_checkPacket ⟨_, _, os, initial_blank _, orderly_serverStarts, hr⟩
    (Nat.le_of_eq hln) (hcn ▸ Nat.zero_le 1) (Or.inl rfl)

end AdFilter.Tdi.CheckPacket
