import AdFilter.Tdi.CloseRuns

/-!
# The states that `check_packet` looks up

`check_packet` takes the state of a connection from the connection table and indexes
`g_tcp_states` with it. A graceful `TDI_DISCONNECT` in a state it does not expect
stores an uninitialised local as the state.
-/

namespace AdFilter.Tdi.TcpStates

open AdFilter.Driver.Represent (blankAdf)
open AdFilter.Lib.Runs
open AdFilter.Nt
open AdFilter.Tdi.Ipc
open AdFilter.Tdi.Objects
open AdFilter.Tdi.ConnState
open AdFilter.Tdi.Connections
open AdFilter.Tdi.Machine
open AdFilter.Tdi.Views
open AdFilter.Tdi.ConnTable
open AdFilter.Tdi.Effects
open AdFilter.Tdi.HandlerEffects
open AdFilter.Tdi.CloseRuns (associated ipAddress)

/-! ## The look-up -/

/-- `sin_port` as it lies in memory. -/
def sinPort (a : SockAddr) : UInt16 := (a.getD 2 0).toUInt16 + (a.getD 3 0).toUInt16 * 256

/-- `sin_addr.s_addr` as it lies in memory. -/
def sAddr (a : SockAddr) : UInt32 :=
  (a.getD 4 0).toUInt32 + (a.getD 5 0).toUInt32 * 0x100 + (a.getD 6 0).toUInt32 * 0x10000 +
    (a.getD 7 0).toUInt32 * 0x1000000

/-- The loop of `get_tcp_conn_state` from the entry `p` on, without an outcome when
it is not over after `n` entries. -/
def findConn (g : Globals) (laddr : UInt32) (lport : UInt16) (raddr : UInt32) (rport : UInt16) :
    Nat → Option Nat → Option Int
  | _, none => some tcpStateNone
  | 0, some _ => none
  | n + 1, some ce =>
      let e := g.conn ce
      if e.laddr = laddr ∧ e.lport = lport ∧ e.raddr = raddr ∧ e.rport = rport then some e.state
      else findConn g laddr lport raddr rport n e.next

def getTcpConnState (g : Globals) (n : Nat) (laddr : UInt32) (lport : UInt16) (raddr : UInt32)
    (rport : UInt16) : Option Int :=
  findConn g laddr lport raddr rport n (g.connHash (calcConnHash laddr lport raddr rport))

/-- The state by which `check_packet` indexes `g_tcp_states`. -/
def checkPacketState (g : Globals) (n : Nat) (logNfo : FltRequest) : Option Int :=
  let near := if logNfo.direction = directionOut then logNfo.addrFrom else logNfo.addrTo
  let far := if logNfo.direction = directionOut then logNfo.addrTo else logNfo.addrFrom
  (getTcpConnState g n (sAddr near) (sinPort near) (sAddr far) (sinPort far)).bind fun state =>
    if state = tcpStateNone then getTcpConnState g n 0 (sinPort near) (sAddr far) (sinPort far)
    else some state

variable {env : Env} {g g' : Globals} {W : Nat → Prop}

theorem inRange_findConn (hg : Known W g) {laddr : UInt32} {lport : UInt16} {raddr : UInt32}
    {rport : UInt16} {state : Int} : ∀ {n : Nat} {p : Option Nat}, (∀ c, p = some c → W c) →
      findConn g laddr lport raddr rport n p = some state → InRange state := by
  intro n
  induction n with
  | zero =>
    intro p _ h
    cases p with
    | none => exact Option.some.inj h ▸ (by decide : InRange tcpStateNone)
    | some ce => exact absurd h.symm (Option.some_ne_none state)
  | succ n ih =>
    intro p hp h
    cases p with
    | none => exact Option.some.inj h ▸ (by decide : InRange tcpStateNone)
    | some ce =>
      have he := hg.good ce (hp ce rfl)
      rw [findConn] at h
      split at h
      · exact Option.some.inj h ▸ he.state
      · exact ih he.next h

theorem inRange_getTcpConnState (hg : Known W g) {n : Nat} {laddr : UInt32} {lport : UInt16}
    {raddr : UInt32} {rport : UInt16} {state : Int}
    (h : getTcpConnState g n laddr lport raddr rport = some state) : InRange state :=
  inRange_findConn hg (hg.bucket _) h

theorem inRange_checkPacketState (hg : Known W g) {n : Nat} {logNfo : FltRequest} {state : Int}
    (h : checkPacketState g n logNfo = some state) : InRange state := by
  obtain ⟨first, hfirst, h⟩ := Option.bind_eq_some_iff.mp h
  split at h
  · exact inRange_getTcpConnState hg h
  · exact Option.some.inj h ▸ inRange_getTcpConnState hg hfirst

/-! ## Every run -/

/-- Every connection entry has one of the states of `g_tcp_states`, and every look-up
there is in range. -/
structure StatesInRange (g : Globals) : Prop where
  entry : ∀ ce ∈ g.connPool.live, InRange (g.conn ce).state
  lookup : ∀ n logNfo state, checkPacketState g n logNfo = some state → InRange state

/-- A graceful disconnect comes in a state that it expects, or finds no entry, or the
stack holds a state already. -/
def Expected (g : Globals) : Event → Prop
  | .disconnect connobj true garbage =>
      (∃ ote, g.otFindFileobj connobj = some ote ∧ ote.connEntry ≠ none) →
        getTcpConnStateByObj g connobj = tcpStateEstablishedIn ∨
          getTcpConnStateByObj g connobj = tcpStateEstablishedOut ∨
          getTcpConnStateByObj g connobj = tcpStateCloseWait ∨ InRange garbage
  | _ => True

theorem known_tdiDisconnect (hg : Known W g) {connobj : FileObj} {release : Bool} {garbage : Int}
    (h : Expected g (.disconnect connobj release garbage)) :
    Known W (tdiDisconnect g connobj release garbage).2 := by
  unfold tdiDisconnect
  cases release with
  | false =>
    exact hg.setTcpConnState connobj fun _ => (by decide : InRange tcpStateClosed)
  | true =>
    simp only [if_true]
    refine hg.setTcpConnState connobj fun hentry => ?_
    split
    · decide
    · rename_i hest
      split
      · decide
      · rename_i hwait
        rcases h hentry with hin | hout | hcw | hgarbage
        · exact absurd (Or.inl hin) hest
        · exact absurd (Or.inr hout) hest
        · exact absurd hcw hwait
        · exact hgarbage

theorem known_step {e : Event} {o : Output} (hg : ∃ W, Known W g) (he : Expected g e)
    (h : step env g e = some (g', o)) : ∃ W, Known W g' := by
  obtain ⟨W, hW⟩ := hg
  rcases step_cases h with heff | ⟨connobj, release, garbage, rfl, rfl⟩ |
    ⟨l, reply, r, rfl, -, hd⟩ | ⟨stop, t, rfl, hsweep⟩
  · obtain ⟨W', -, hW'⟩ := heff.known W hW
    exact ⟨W', hW'⟩
  · exact ⟨W, known_tdiDisconnect hW he⟩
  · obtain ⟨W', -, hW'⟩ := hd.known W hW
    exact ⟨W', hW'⟩
  · exact ⟨W, hW.connThread hsweep⟩

theorem known_initial (h : Initial g) : Known (fun _ => False) g := by
  refine ⟨fun c hc => hc.elim, fun i c hc => ?_, fun c hc => ?_, fun k c hk => ?_, fun c hc => ?_⟩
  · rw [h.connHash] at hc
    exact absurd hc.symm (Option.some_ne_none c)
  · rw [show (view g).head = none from h.connToDel] at hc
    exact absurd hc.symm (Option.some_ne_none c)
  · simp [view, Globals.lookup, h.ot] at hk
  · rw [show (view g).live = [] from h.connPool.1] at hc
    exact List.not_mem_nil hc

theorem reached_statesInRange (h : Reached (step env) Expected Initial g) : StatesInRange g := by
  obtain ⟨W, hW⟩ := reached_invariant (fun g => ∃ W, Known W g) (fun _ h₀ => ⟨_, known_initial h₀⟩)
    (fun _ _ _ _ hg he hs => known_step hg he hs) h
  constructor
  · exact fun ce hce => (hW.good ce (hW.live ce hce)).state
  · exact fun n logNfo state hs => inRange_checkPacketState hW hs

/-! ## A disconnect that comes too early -/

def connected : List Event :=
  associated ++ [.connect ⟨.tcp, 64, ipAddress 80 2⟩ 4 true, .connectComplete 64 statusSuccess none]

/-- An established connection is closed: the state is one of the table. -/
theorem reached_statesInRange_connected :
    ∃ g os, run (step (freeBuild fun _ _ => none)) (blank blankAdf)
      (connected ++ [.disconnect 64 true 4096]) = some (g, os) ∧
        (g.conn 1).state = tcpStateFinWait1 ∧ StatesInRange g := by
  obtain ⟨g, os, hr, hs⟩ : ∃ g os, run (step (freeBuild fun _ _ => none)) (blank blankAdf)
      (connected ++ [.disconnect 64 true 4096]) = some (g, os) ∧
        (g.conn 1).state = tcpStateFinWait1 := ⟨_, _, rfl, rfl⟩
  have hfree : ∀ e ∈ connected, ∀ s, Expected s e := by
    simp [connected, associated, Expected]
  have hm : Meets (step (freeBuild fun _ _ => none)) Expected (blank blankAdf)
      (connected ++ [.disconnect 64 true 4096]) := by
    refine (meets_of_forall_mem hfree _).append fun r hrun => ⟨?_, fun _ _ => trivial⟩
    obtain rfl := Option.some.inj hrun
    exact fun _ => Or.inr (Or.inl rfl)
  exact ⟨g, os, hr, hs, reached_statesInRange ⟨_, _, os, initial_blank blankAdf, hm, hr⟩⟩

/-- A disconnect before the connection is established stores what the stack holds. -/
theorem early_disconnect_out_of_range :
    ¬ ∀ (env : Env) (g : Globals),
      Reached (step env) (fun _ _ => True) Initial g → StatesInRange g := by
  intro h
  obtain ⟨g, os, hr, hlive, hs⟩ : ∃ g os, run (step (freeBuild fun _ _ => none)) (blank blankAdf)
      (associated ++ [.connect ⟨.tcp, 64, ipAddress 80 2⟩ 4 true, .disconnect 64 true 4096]) =
        some (g, os) ∧ g.connPool.live = [1] ∧ (g.conn 1).state = 4096 := ⟨_, _, rfl, rfl, rfl⟩
  have hin := (h _ g ⟨_, _, os, initial_blank blankAdf,
    meets_of_forall (fun _ _ => trivial) _ _, hr⟩).entry 1 (by rw [hlive]; exact List.mem_singleton_self 1)
  rw [hs] at hin
  exact absurd hin (by decide)

end AdFilter.Tdi.TcpStates
