import AdFilter.Tdi.Objects

/-!
# Listening and connected objects

`conn_state.c`: the tables of listen and connection entries. A connection entry
that its object lets go of is closed and queued on `g_conn_to_del`, and the sweep
of `conn_thread` takes it out of the table and frees it when it is old enough.
-/

namespace AdFilter.Tdi.ConnState

open AdFilter.Nt
open AdFilter.Tdi.Ipc
open AdFilter.Tdi.Objects

/-! ## Listen entries -/

/-- The new entry goes to the front of its bucket. -/
def linkListen (g : Globals) (le : Nat) : Globals :=
  let hash := (g.listen le).hash
  let first := g.listenHash hash
  let g := g.setListen le fun e => { e with next := first }
  let g := g.setListenAt first fun e => { e with prev := some le }
  g.setListenHash hash (some le)

def addListen (env : Env) (g : Globals) (ote : OtEntry) : NtStatus × Globals :=
  if ote.localAddr.addressType ≠ tdiAddressTypeIp then (statusInvalidParameter, g)
  else
    match g.listenPool.alloc env.listenAlloc with
    | (none, pool) => (statusInsufficientResources, g.setListenPool pool)
    | (some le, pool) =>
        let g := g.setListenPool pool
        let g := g.setListen le fun _ =>
          { addrobj := ote.fileobj, addr := ote.localAddr.inAddr, port := ote.localAddr.sinPort,
            ipproto := ote.ipproto }
        match ote.listenEntry with
        | some _ => (statusObjectNameExists, g.setListenPool (g.listenPool.free le))
        | none => (statusSuccess, linkListen (g.setOte { ote with listenEntry := some le }) le)

def delListenObj (g : Globals) (le : Nat) : Globals :=
  let e := g.listen le
  let g :=
    match e.prev with
    | some p => g.setListen p fun d => { d with next := e.next }
    | none => g.setListenHash e.hash e.next
  let e := g.listen le
  let g := g.setListenAt e.next fun d => { d with prev := e.prev }
  g.setListenPool (g.listenPool.free le)

/-! ## Connection entries -/

/-- The entry goes to the front of the bucket of its addresses. -/
def linkConn (g : Globals) (ce : Nat) : Globals :=
  let hash := (g.conn ce).hash
  let first := g.connHash hash
  let g := g.setConn ce fun e => { e with next := first }
  let g := g.setConnAt first fun e => { e with prev := some ce }
  g.setConnHash hash (some ce)

/-- The entry is taken out of its bucket; its own links stay as they are. -/
def unlinkConn (g : Globals) (ce : Nat) : Globals :=
  let e := g.conn ce
  let g :=
    match e.prev with
    | some p => g.setConn p fun d => { d with next := e.next }
    | none => g.setConnHash e.hash e.next
  let e := g.conn ce
  g.setConnAt e.next fun d => { d with prev := e.prev }

def addTcpConn (env : Env) (g : Globals) (ote : OtEntry) (tcpState : Int) : NtStatus × Globals :=
  if ote.localAddr.addressType ≠ tdiAddressTypeIp ∨ ote.remoteAddr.addressType ≠ tdiAddressTypeIp then
    (statusInvalidParameter, g)
  else
    match g.connPool.alloc env.connAlloc with
    | (none, pool) => (statusInsufficientResources, g.setConnPool pool)
    | (some ce, pool) =>
        let g := g.setConnPool pool
        let g := g.setConn ce fun _ =>
          { connobj := ote.fileobj, laddr := ote.localAddr.inAddr, lport := ote.localAddr.sinPort,
            raddr := ote.remoteAddr.inAddr, rport := ote.remoteAddr.sinPort, state := tcpState }
        match ote.connEntry with
        | some _ => (statusObjectNameExists, g.setConnPool (g.connPool.free ce))
        | none => (statusSuccess, linkConn (g.setOte { ote with connEntry := some ce }) ce)

/-- The entry is closed and queued; the table may still lead to it. -/
def delTcpConnObj (g : Globals) (ce : Nat) : Globals :=
  let g := g.setConn ce fun e =>
    { e with state := tcpStateClosed, nextToDel := g.connToDel, ticks := g.tickCount, connobj := 0 }
  g.setConnToDel (some ce)

/-- What `log_disconnect` tells the log. -/
def disconnectRequest (ote : OtEntry) : FltRequest where
  result := filterDisconnect
  proto := ote.ipproto
  direction := directionAny
  pid := 2 ^ 32 - 1
  addrFrom := ote.localAddr.sockaddr
  addrTo := ote.remoteAddr.sockaddr
  logBytesIn := ote.bytesIn
  logBytesOut := ote.bytesOut

def logDisconnect (g : Globals) (ote : OtEntry) : Globals := g.logRequest (disconnectRequest ote)

def delTcpConn (g : Globals) (connobj : FileObj) (isDisconnect : Bool) : Globals :=
  match g.otFindFileobj connobj with
  | none => g
  | some ote =>
      let g := g.setOte { ote with connEntry := none }
      let g := if isDisconnect && ote.logDisconnect then logDisconnect g ote else g
      match ote.connEntry with
      | some ce => delTcpConnObj g ce
      | none => g

def setTcpConnState (g : Globals) (connobj : FileObj) (state : Int) : NtStatus × Globals :=
  match g.otFindFileobj connobj with
  | none => (statusObjectNameNotFound, g)
  | some ote =>
      match ote.connEntry with
      | some ce => (statusSuccess, g.setConn ce fun e => { e with state := state })
      | none => (statusInvalidParameter, g)

def setTcpConnLocal (g : Globals) (connobj : FileObj) (addr : TaAddress) : NtStatus × Globals :=
  match g.otFindFileobj connobj with
  | none => (statusObjectNameNotFound, g)
  | some ote =>
      match ote.connEntry with
      | some ce =>
          let g := unlinkConn g ce
          let g := g.setConn ce fun e => { e with laddr := addr.inAddr, lport := addr.sinPort }
          let g := linkConn g ce
          (statusSuccess, g.setConn ce fun e => { e with prev := none })
      | none => (statusInvalidParameter, g)

def getTcpConnStateByObj (g : Globals) (connobj : FileObj) : Int :=
  match g.otFindFileobj connobj with
  | none => tcpStateNone
  | some ote =>
      match ote.connEntry with
      | some ce => (g.conn ce).state
      | none => tcpStateNone

/-! ## The sweep -/

/-- An `__int64` -/
def int64 (x : Int) : Int := x.bmod (2 ^ 64)

/-- `MAX_CLOSED_TIME` in units of 100 nanoseconds. -/
def maxClosedTime : Int := 20 * 1000 * 10000

/-- The loop of `conn_thread` at the entry `ce`, after the entry `prev` that it has
kept. It gives the next timeout; without rounds left the loop has not ended. -/
def sweepFrom (env : Env) (ticks : Int) (stop : Bool) :
    Nat → Globals → Option Nat → Option Nat → Int → Option (Globals × Int)
  | _, g, _, none, timeout => some (g, timeout)
  | 0, _, _, some _, _ => none
  | n + 1, g, prev, some ce, timeout =>
      let delta := int64 ((ticks - (g.conn ce).ticks) * env.timeIncrement)
      if maxClosedTime ≤ delta ∨ stop = true then
        let after := (g.conn ce).nextToDel
        let g :=
          match prev with
          | none => g.setConnToDel after
          | some p => g.setConn p fun e => { e with nextToDel := after }
        let g := unlinkConn g ce
        let ce2 := (g.conn ce).nextToDel
        sweepFrom env ticks stop n (g.setConnPool (g.connPool.free ce)) prev ce2 timeout
      else
        let rest := int64 (maxClosedTime - delta)
        let timeout := if -timeout < rest ∨ timeout = 0 then -rest else timeout
        sweepFrom env ticks stop n g (some ce) (g.conn ce).nextToDel timeout

/-- One pass of `conn_thread` over the queue; a chain of live entries without
repeats ends within the rounds. -/
def connThread (env : Env) (g : Globals) (stop : Bool) : Option (Globals × Int) :=
  sweepFrom env g.tickCount stop (g.connPool.live.length + 1) g none g.connToDel 0

end AdFilter.Tdi.ConnState
