import AdFilter.Lib.Runs
import AdFilter.Tdi.Connections
import AdFilter.Tdi.Creation
import Mathlib.Algebra.Order.BigOperators.Group.List
import Mathlib.Algebra.Order.Ring.Nat

/-!
# The TDI layer as a machine

One event is one stretch of a handler under the lock of the object table, so a
run is any interleaving of requests, completions, indications and sweeps, on any
objects. What the lower driver, the handlers of the clients and the allocations
of the object and context tables do is part of the event.
-/

namespace AdFilter.Tdi.Machine

open AdFilter.Driver.HostList (Adf)
open AdFilter.Nt
open AdFilter.Tdi.Ipc
open AdFilter.Tdi.Objects
open AdFilter.Tdi.ConnState
open AdFilter.Tdi.Datagrams
open AdFilter.Tdi.Connections
open AdFilter.Tdi.Creation

inductive Event
  | create (c : Create) (o : CreateOutcome)
  | createComplete (devobj : DevObj) (fileobj : FileObj) (status : NtStatus) (q : QueryOutcome)
  | createComplete2 (fileobj : FileObj) (addr : TaAddress)
  | cleanup (fileobj : FileObj)
  | associate (connobj : FileObj) (addrobj : Option FileObj) (grantCtx : Bool)
  | disassociate (connobj : FileObj)
  | connect (c : Connect) (pid : Nat) (grantCopy : Bool)
  | connectComplete (connobj : FileObj) (status : NtStatus) (request : Option FltRequest)
  | updateConnInfoComplete (connobj : FileObj) (addr : TaAddress)
  | disconnect (connobj : FileObj) (release : Bool) (garbage : Int)
  | disconnectComplete (connobj : FileObj) (status : NtStatus) (state : Int)
  | eventConnect (i : Indication) (rule : FltRule) (status : NtStatus)
  | accept (l : EventLocals) (reply : HandlerReply) (r : AcceptReads)
  | acceptComplete (connobj : FileObj) (status : NtStatus)
  | eventDisconnect (addrobj : FileObj) (connCtx : Nat) (release : Bool)
  | send (d : Datagram) (pid : Nat)
  | receiveComplete (r : Received)
  | eventReceive (addrobj : FileObj) (remoteAddr : TaAddress) (bytesAvailable : Nat)
      (handler : NtStatus)
  | processNotify (pid : Nat) (create : Bool)
  | sweep (stop : Bool)
  | tick (n : Nat)

/-- What a handler gives back: a filter result, a status, a wait, or nothing. -/
inductive Output
  | result (filter : Nat)
  | status (status : NtStatus)
  | called
  | timeout (t : Int)
  | done
deriving DecidableEq

/-- No next state: `tdifw_udp_send` has no outcome, or the sweep does not end. -/
def step (env : Env) (g : Globals) : Event → Option (Globals × Output)
  | .create c o =>
      let r := tdiCreate g c o
      some (r.after, .result r.result)
  | .createComplete devobj fileobj status q =>
      let r := tdiCreateAddrobjComplete env g devobj fileobj status q
      some (r.2, .status r.1)
  | .createComplete2 fileobj addr => some (tdiCreateAddrobjComplete2 env g fileobj addr, .done)
  | .cleanup fileobj =>
      let r := tdiCleanup g fileobj
      some (r.2, .result r.1)
  | .associate connobj addrobj grantCtx =>
      let r := tdiAssociateAddress g connobj addrobj grantCtx
      some (r.2, .result r.1)
  | .disassociate connobj =>
      let r := tdiDisassociateAddress g connobj
      some (r.2, .result r.1)
  | .connect c pid grantCopy =>
      let r := tdiConnect env g c pid grantCopy
      some (r.1.after, .result r.1.result)
  | .connectComplete connobj status request =>
      let r := tdiConnectComplete g connobj status request
      some (r.2, .status r.1)
  | .updateConnInfoComplete connobj addr => some ((setTcpConnLocal g connobj addr).2, .done)
  | .disconnect connobj release garbage =>
      some ((tdiDisconnect g connobj release garbage).2, .result filterAllow)
  | .disconnectComplete connobj status state =>
      some (tdiDisconnectComplete g connobj status state, .status status)
  | .eventConnect i rule status =>
      let r := eventConnectFilter g i rule status
      some (r.2.2, r.1.elim .called .status)
  | .accept l reply r =>
      let a := eventConnectAccept env g l reply r
      some (a.2, .status a.1)
  | .acceptComplete connobj status => some (evconnAcceptComplete g connobj status, .done)
  | .eventDisconnect addrobj connCtx release =>
      some (tdiEventDisconnect g addrobj connCtx release, .called)
  | .send d pid => (tdiSendDatagram env g d pid).map fun h => (h.after, .result h.result)
  | .receiveComplete r =>
      let f := tdiReceiveDatagramComplete g r
      some (f.2, .status f.1)
  | .eventReceive addrobj remoteAddr bytesAvailable handler =>
      let f := tdiEventReceiveDatagram g addrobj remoteAddr bytesAvailable handler
      some (f.2, .status f.1)
  | .processNotify pid create => some (processNotifyProc g pid create, .done)
  | .sweep stop => (connThread env g stop).map fun r => (r.1, .timeout r.2)
  | .tick n => some ({ g with tickCount := g.tickCount + n }, .done)

/-- The globals after `conn_state_init` and `ot_init`: nothing is tracked. -/
structure Initial (g : Globals) : Prop where
  ot : g.ot = Lib.Chained.Map.empty
  cte : g.cte = Lib.Chained.Map.empty
  listenHash : g.listenHash = fun _ => none
  listenPool : g.listenPool.live = [] ∧ g.listenPool.badFree = false
  connHash : g.connHash = fun _ => none
  connToDel : g.connToDel = none
  connPool : g.connPool.live = [] ∧ g.connPool.badFree = false
  log : g.log = []
  needCheck : g.needCheck = false

/-- The loaded driver, before the first event. -/
def blank (adf : Adf) : Globals where
  ot := Lib.Chained.Map.empty
  cte := Lib.Chained.Map.empty
  listen := fun _ => {}
  listenHash := fun _ => none
  listenPool := ⟨[], [], 0, false⟩
  conn := fun _ => {}
  connHash := fun _ => none
  connToDel := none
  connPool := ⟨[], [], 0, false⟩
  tickCount := 0
  log := []
  needCheck := false
  adf := adf

theorem initial_blank (adf : Adf) : Initial (blank adf) :=
  ⟨rfl, rfl, rfl, ⟨rfl, rfl⟩, rfl, rfl, ⟨rfl, rfl⟩, rfl, rfl⟩

/-- A pool that never fails and numbers its blocks upwards. -/
def numbered : Lib.Pool.Allocator Nat where
  pick used := used.sum + 1
  pick_fresh used h := by
    have hle := List.single_le_sum (fun _ _ => Nat.zero_le _) _ h
    omega
  grants _ := true

/-- A free build on a clock of 10 ms. -/
def freeBuild (matcher : Driver.HostList.Matcher) : Env where
  connAlloc := numbered
  listenAlloc := numbered
  dbg := false
  matcher := matcher
  timeIncrement := 100000

end AdFilter.Tdi.Machine
