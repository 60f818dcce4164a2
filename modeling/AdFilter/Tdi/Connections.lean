import AdFilter.Tdi.Datagrams
import AdFilter.Tdi.ObjTbl

/-!
# Connections

`disp_conn.c` and `ev_conn.c`: connect and disconnect requests with their
completions, and the indications of the lower driver. `tdi_event_connect` gives up
the lock around the original handler, so it comes in two parts, and what it reads
through its pointers in the second part is an input of that part.
-/

namespace AdFilter.Tdi.Connections

open AdFilter.Nt
open AdFilter.Tdi.Ipc
open AdFilter.Tdi.Objects
open AdFilter.Tdi.ConnState
open AdFilter.Tdi.ObjTbl
open AdFilter.Tdi.Datagrams (Handled)

/-! ## Connect -/

structure Connect where
  devobj : DevObj
  fileobj : FileObj
  remoteAddr : TaAddress

def connectRequest (ipproto pid : Nat) (oteAddr : OtEntry) (remoteAddr : TaAddress) : FltRequest where
  type := typeConnect
  direction := directionOut
  proto := ipproto
  pid := if pid = 0 then oteAddr.pid else pid
  addrFrom := oteAddr.localAddr.sockaddr
  addrTo := remoteAddr.sockaddr

/-- The entry the local address is taken from: for TCP that of the associated address object. -/
def addressEntry (g : Globals) (ipproto : Nat) (oteConn : OtEntry) : Option OtEntry :=
  if ipproto = ipprotoTcp then g.otFindFileobj oteConn.associatedFileobj else some oteConn

/-- `tdi_connect` from the call of `quick_filter` on; `grantCopy` is the outcome of
the allocation for the completion's copy of the request. -/
def connectFiltered (env : Env) (g : Globals) (oteConn : OtEntry) (ipproto : Nat)
    (request : FltRequest) (grantCopy : Bool) : Nat × Option FltRequest × Globals :=
  let rule : FltRule := {}
  let f := quickFilter g request
  let g := f.2
  let request := { request with logRuleId := rule.ruleId }
  let logged (g : Globals) : Globals := if ruleLogLog ≤ rule.log then g.logRequest request else g
  if f.1 = filterAllow ∧ ipproto = ipprotoTcp then
    let added := addTcpConn env g oteConn tcpStateSynSent
    if added.1 ≠ statusSuccess then (filterDeny, none, added.2)
    else
      let g := added.2
      if ruleLogLog ≤ rule.log then
        let g :=
          match g.lookup oteConn.fileobj with
          | some ote => g.setOte { ote with logDisconnect := decide (ruleLogCount ≤ rule.log) }
          | none => g
        if grantCopy then (f.1, some request, g) else (f.1, none, logged g)
      else (f.1, none, g)
  else (f.1, none, logged g)

/-- `tdi_connect` in the context of process `pid`, and the request for its completion. -/
def tdiConnect (env : Env) (g : Globals) (c : Connect) (pid : Nat) (grantCopy : Bool) :
    Handled × Option FltRequest :=
  let denied (g : Globals) : Handled × Option FltRequest :=
    (⟨filterDeny, some statusRemoteNotListening, g⟩, none)
  if c.devobj ≠ .tcp ∧ c.devobj ≠ .udp then denied g
  else
    match g.otFindFileobj c.fileobj, getOriginalDevobj c.devobj with
    | some oteConn, some ipproto =>
        match addressEntry g ipproto oteConn with
        | none => denied g
        | some oteAddr =>
            let localAddr := oteAddr.localAddr
            let n := c.remoteAddr.addressLength
            if localAddr.addressLength ≠ n then denied g
            else if taAddressMax < n then denied g
            else
              let oteConn := { oteConn with remoteAddr := oteConn.remoteAddr.memcpy c.remoteAddr n }
              let g := g.setOte oteConn
              if taAddressMax < localAddr.addressLength then denied g
              else
                let oteConn :=
                  { oteConn with
                    localAddr := oteConn.localAddr.memcpy localAddr localAddr.addressLength }
                let g := g.setOte oteConn
                let request := connectRequest ipproto pid oteAddr c.remoteAddr
                let r := connectFiltered env g oteConn ipproto request grantCopy
                if r.1 ≠ filterAllow then denied r.2.2 else (⟨r.1, none, r.2.2⟩, r.2.1)
    | _, _ => denied g

/-- The request of a connect that has failed, as it is logged. -/
def failedConnect (request : FltRequest) (status : NtStatus) : FltRequest :=
  let type :=
    if status = statusConnectionRefused ∨ status = statusConnectionReset then typeConnectReset
    else if status = statusConnectionAborted ∨ status = statusCancelled then typeConnectCanceled
    else if status = statusIoTimeout then typeConnectTimeout
    else if status = statusNetworkUnreachable ∨ status = statusHostUnreachable ∨
        status = statusProtocolUnreachable ∨ status = statusPortUnreachable then typeConnectUnreach
    else typeConnectError
  { request with type := type, status := status }

def logCopy (g : Globals) (request : Option FltRequest) : Globals :=
  match request with
  | some r => g.logRequest r
  | none => g

/-- `tdi_connect_complete`: the status the request ends with. -/
def tdiConnectComplete (g : Globals) (connobj : FileObj) (status : NtStatus)
    (request : Option FltRequest) : NtStatus × Globals :=
  if status = statusSuccess then
    let r := setTcpConnState (logCopy g request) connobj tcpStateEstablishedOut
    (if r.1 ≠ statusSuccess then statusRemoteNotListening else status, r.2)
  else
    let g := logCopy g (request.map (failedConnect · status))
    (status, delTcpConn g connobj false)

/-! ## Disconnect -/

/-- `tdi_disconnect`: the state for its completion. A state the request does not
expect leaves `new_state` as the stack has it, which is `garbage`. -/
def tdiDisconnect (g : Globals) (connobj : FileObj) (release : Bool) (garbage : Int) :
    Int × Globals :=
  if release then
    let state := getTcpConnStateByObj g connobj
    let newState :=
      if state = tcpStateEstablishedIn ∨ state = tcpStateEstablishedOut then tcpStateFinWait1
      else if state = tcpStateCloseWait then tcpStateLastAck
      else garbage
    (newState, (setTcpConnState g connobj newState).2)
  else (tcpStateClosed, (setTcpConnState g connobj tcpStateClosed).2)

def tdiDisconnectComplete (g : Globals) (connobj : FileObj) (status : NtStatus) (state : Int) :
    Globals :=
  if status = statusSuccess then
    if state = tcpStateFinWait1 then (setTcpConnState g connobj tcpStateFinWait2).2
    else if state = tcpStateLastAck then delTcpConn g connobj true
    else if state = tcpStateClosed then delTcpConn g connobj true
    else g
  else g

/-- `tdi_event_disconnect` before it calls the original handler. -/
def tdiEventDisconnect (g : Globals) (addrobj : FileObj) (connCtx : Nat) (release : Bool) : Globals :=
  let connobj := otFindConnCtx g addrobj connCtx
  if release then
    let state := getTcpConnStateByObj g connobj
    if state = tcpStateEstablishedIn ∨ state = tcpStateEstablishedOut then
      (setTcpConnState g connobj tcpStateCloseWait).2
    else if state = tcpStateFinWait2 then (setTcpConnState g connobj tcpStateTimeWait).2
    else g
  else delTcpConn g connobj true

/-! ## Incoming connections -/

/-- The locals of `tdi_event_connect` at a jump to its end. -/
structure EventLocals where
  request : FltRequest := {}
  rule : FltRule
  status : NtStatus
  result : Nat := filterDeny

/-- The end of `tdi_event_connect`; `connobj` is the object of `ote_conn`, if it is
not NULL while the accept request is there to be destroyed. -/
def eventConnectDone (g : Globals) (l : EventLocals) (connobj : Option FileObj) :
    NtStatus × Globals :=
  let g :=
    if ruleLogLog ≤ l.rule.log then
      g.logRequest <|
        if l.result ≠ filterAllow ∧ l.rule.result = filterAllow then
          { l.request with type := typeConnectError, status := l.status }
        else l.request
    else g
  if l.result ≠ filterAllow then
    match connobj.bind g.lookup with
    | none => (statusConnectionRefused, g)
    | some ote =>
        match ote.connEntry with
        | none => (statusConnectionRefused, g)
        | some ce =>
            (statusConnectionRefused, (delTcpConnObj g ce).setOte { ote with connEntry := none })
  else (statusMoreProcessingRequired, g)

/-- A connect indication: the address object it is for, and the peer. -/
structure Indication where
  addrobj : FileObj
  remoteAddr : TaAddress

def indicationRequest (i : Indication) (oteAddr : OtEntry) (ruleId : List UInt8) : FltRequest where
  type := typeConnect
  direction := directionIn
  proto := ipprotoTcp
  pid := oteAddr.pid
  addrFrom := i.remoteAddr.sockaddr
  addrTo := oteAddr.localAddr.sockaddr
  logRuleId := ruleId

/-- The first part of `tdi_event_connect`. The locals `rule` and `status` start as
the stack has them; a status is an answer, none is a call of the original handler. -/
def eventConnectFilter (g : Globals) (i : Indication) (rule : FltRule) (status : NtStatus) :
    Option NtStatus × EventLocals × Globals :=
  let l : EventLocals := { rule := rule, status := status }
  match g.otFindFileobj i.addrobj with
  | none =>
      let d := eventConnectDone g l none
      (some d.1, l, d.2)
  | some oteAddr =>
      let f := quickFilter g (indicationRequest i oteAddr [])
      let l := { l with request := indicationRequest i oteAddr rule.ruleId, result := f.1 }
      if f.1 = filterDeny then
        let d := eventConnectDone f.2 l none
        (some d.1, l, d.2)
      else (none, { l with result := filterDeny }, f.2)

/-- The original handler's answer: its status, the connection object of the accept
request, and the connection context. -/
structure HandlerReply where
  status : NtStatus
  acceptIrp : Option FileObj
  connCtx : Nat

/-- What the second part reads where the lock no longer protects it, and the
outcomes of its allocations. -/
structure AcceptReads where
  addrobj : FileObj
  remoteAddr : TaAddress
  localAddr : TaAddress
  grantParam : Bool
  grantCtx : Bool

/-- The accepted connection takes the handler's context, and the index follows. -/
def changeConnCtx (g : Globals) (ote : OtEntry) (connCtx : Nat) (grantCtx : Bool) :
    NtStatus × OtEntry × Globals :=
  if ote.connCtx = connCtx then (statusSuccess, ote, g)
  else
    let d := otDelConnCtx g ote.associatedFileobj ote.connCtx
    if d.1 ≠ statusSuccess then (d.1, ote, d.2)
    else
      let ote := { ote with connCtx := connCtx }
      let a := otAddConnCtx (d.2.setOte ote) ote.associatedFileobj connCtx ote.fileobj grantCtx
      (a.1, ote, a.2)

/-- "clear listen & conn entries in connobj (fileobject can be reused)": the entry
of the table keeps its pointers to them. -/
def clearEntries (g : Globals) (ote : OtEntry) : Globals :=
  let g :=
    match ote.listenEntry with
    | some le => delListenObj g le
    | none => g
  match ote.connEntry with
  | some ce =>
      let g := if ote.ipproto = ipprotoTcp ∧ ote.logDisconnect = true then logDisconnect g ote else g
      delTcpConnObj g ce
  | none => g

/-- From the clearing of the entries to the new connection. -/
def enterConn (env : Env) (g : Globals) (ote : OtEntry) (rule : FltRule) (r : AcceptReads) :
    NtStatus × Globals :=
  let g := clearEntries g ote
  let ote := { ote with bytesIn := 0, bytesOut := 0, logDisconnect := decide (ruleLogCount ≤ rule.log) }
  let n := r.remoteAddr.addressLength
  let m := r.localAddr.addressLength
  if m ≠ n then (statusInfoLengthMismatch, g.setOte ote)
  else if taAddressMax < n then (statusBufferTooSmall, g.setOte ote)
  else
    let ote := { ote with remoteAddr := ote.remoteAddr.memcpy r.remoteAddr n }
    if taAddressMax < m then (statusBufferTooSmall, g.setOte ote)
    else
      let ote := { ote with localAddr := ote.localAddr.memcpy r.localAddr m }
      addTcpConn env (g.setOte ote) ote tcpStateSynRcvd

/-- The second part of `tdi_event_connect`, after the original handler. -/
def eventConnectAccept (env : Env) (g : Globals) (l : EventLocals) (reply : HandlerReply)
    (r : AcceptReads) : NtStatus × Globals :=
  let fail (g : Globals) (status : NtStatus) (connobj : Option FileObj) :=
    eventConnectDone g { l with status := status, result := filterDeny } connobj
  match reply.acceptIrp with
  | none => fail g reply.status none
  | some connobj =>
      if reply.status ≠ statusMoreProcessingRequired then fail g reply.status none
      else if r.grantParam = false then fail g statusInsufficientResources none
      else
        match g.otFindFileobj connobj with
        | none => fail g statusObjectNameNotFound none
        | some ote =>
            if ote.associatedFileobj ≠ r.addrobj then
              fail g statusInvalidParameter (some connobj)
            else
              let c := changeConnCtx g ote reply.connCtx r.grantCtx
              if c.1 ≠ statusSuccess then fail c.2.2 c.1 (some connobj)
              else
                let e := enterConn env c.2.2 c.2.1 l.rule r
                if e.1 ≠ statusSuccess then fail e.2 e.1 (some connobj)
                else
                  eventConnectDone e.2 { l with status := e.1, result := filterAllow } (some connobj)

/-- `tdi_evconn_accept_complete` but for the original completion routine. -/
def evconnAcceptComplete (g : Globals) (connobj : FileObj) (status : NtStatus) : Globals :=
  if status = statusSuccess then (setTcpConnState g connobj tcpStateEstablishedIn).2
  else delTcpConn g connobj true

end AdFilter.Tdi.Connections
