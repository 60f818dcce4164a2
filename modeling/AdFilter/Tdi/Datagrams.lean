import AdFilter.Tdi.Objects

/-!
# Datagrams

`disp_dg.c`, `ev_dg.c`, and the process notification of `pid_pname.c`: the
handlers that put a request to the filter for a datagram, or for a process. Only
an outgoing datagram is shown to `tdifw_udp_send`, whose result replaces that of
`quick_filter`.
-/

namespace AdFilter.Tdi.Datagrams

open AdFilter.Driver.HostList
open AdFilter.Driver.Filter (tdifwFilter tdifwUdpSend)
open AdFilter.Nt
open AdFilter.Tdi.Ipc
open AdFilter.Tdi.Objects

/-- What a dispatch function leaves: its result, the status it has put into the
request, and the globals. -/
structure Handled where
  result : Nat
  ioStatus : Option NtStatus
  after : Globals

def isDatagramProto (devobj : DevObj) : Option Nat :=
  (getOriginalDevobj devobj).filter fun proto => proto = ipprotoUdp ∨ proto = ipprotoIp

/-- A request to send a datagram; `data` is the payload wherever the request holds it. -/
structure Datagram where
  devobj : DevObj
  fileobj : FileObj
  remoteAddr : TaAddress
  data : Mem
  sendLength : Nat

/-- The length as the `int` that `tdifw_udp_send` takes. -/
def Datagram.len (d : Datagram) : Int := (d.sendLength : Int).bmod (2 ^ 32)

def sendRequest (d : Datagram) (ipproto : Nat) (ote : OtEntry) (pid : Nat) : FltRequest where
  type := typeDatagram
  direction := directionOut
  proto := ipproto
  pid := if pid = 0 then ote.pid else pid
  addrFrom := ote.localAddr.sockaddr
  addrTo := d.remoteAddr.sockaddr

/-- `tdi_send_datagram` in the context of process `pid`; no outcome when
`tdifw_udp_send` has none. -/
def tdiSendDatagram (env : Env) (g : Globals) (d : Datagram) (pid : Nat) : Option Handled :=
  let denied (g : Globals) : Handled := ⟨filterDeny, some statusInvalidAddress, g⟩
  match isDatagramProto d.devobj with
  | none => some (denied g)
  | some ipproto =>
      match g.otFindFileobj d.fileobj with
      | none => some (if env.dbg then ⟨filterAllow, none, g⟩ else denied g)
      | some ote =>
          let request := sendRequest d ipproto ote pid
          let rule : FltRule := {}
          let g := (quickFilter g request).2
          (tdifwUdpSend env.matcher g.adf g.needCheck d.data d.len).map fun result =>
            let request := { request with logRuleId := rule.ruleId }
            let g :=
              if ruleLogLog ≤ rule.log then
                g.logRequest { request with
                  logBytesOut := if ruleLogCount ≤ rule.log then d.sendLength else 2 ^ 32 - 1 }
              else g
            if result = filterDeny then denied g else ⟨result, none, g⟩

def receiveRequest (ipproto : Nat) (ote : OtEntry) (remoteAddr : TaAddress) : FltRequest where
  type := typeDatagram
  direction := directionIn
  proto := ipproto
  pid := ote.pid
  addrFrom := remoteAddr.sockaddr
  addrTo := ote.localAddr.sockaddr

/-- What the two handlers of received datagrams share: the request to the filter
and to the log. -/
def filterReceived (g : Globals) (request : FltRequest) (received : Nat) : Nat × Globals :=
  let rule : FltRule := {}
  let r := quickFilter g request
  let request := { request with logRuleId := rule.ruleId }
  let g :=
    if ruleLogLog ≤ rule.log then
      r.2.logRequest { request with
        logBytesIn := if ruleLogCount ≤ rule.log then received else 2 ^ 32 - 1 }
    else r.2
  (r.1, g)

/-- A receive request that the lower driver has completed. -/
structure Received where
  devobj : DevObj
  fileobj : FileObj
  status : NtStatus
  information : Nat
  remoteAddr : TaAddress

/-- `tdi_receive_datagram_complete`: the status the request ends with. -/
def tdiReceiveDatagramComplete (g : Globals) (r : Received) : NtStatus × Globals :=
  match isDatagramProto r.devobj with
  | none => (r.status, g)
  | some ipproto =>
      if r.status ≠ statusSuccess then (r.status, g)
      else
        match g.otFindFileobj r.fileobj with
        | none => (r.status, g)
        | some ote =>
            let f := filterReceived g (receiveRequest ipproto ote r.remoteAddr) r.information
            (if f.1 = filterAllow then r.status else statusAccessDenied, f.2)

/-- `tdi_event_receive_datagram`; `handler` is what the original handler returns. -/
def tdiEventReceiveDatagram (g : Globals) (addrobj : FileObj) (remoteAddr : TaAddress)
    (bytesAvailable : Nat) (handler : NtStatus) : NtStatus × Globals :=
  match g.otFindFileobj addrobj with
  | none => (statusDataNotAccepted, g)
  | some ote =>
      match isDatagramProto ote.devobj with
      | none => (statusDataNotAccepted, g)
      | some ipproto =>
          let f := filterReceived g (receiveRequest ipproto ote remoteAddr) bytesAvailable
          (if f.1 = filterAllow then handler else statusDataNotAccepted, f.2)

/-- `ProcessNotifyProc` but for the process list: the result of the filter is dropped. -/
def processNotifyProc (g : Globals) (pid : Nat) (create : Bool) : Globals :=
  let request : FltRequest :=
    { pid := pid, type := if create then typeProcessCreate else typeProcessTerminate }
  g.setNeedCheck (tdifwFilter g.needCheck request).2

end AdFilter.Tdi.Datagrams
