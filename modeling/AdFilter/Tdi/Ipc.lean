import AdFilter.Nt

/-!
# Requests of the TDI layer

The request a TDI event puts to the filter and to the log, and the constants it
is made of.
-/

namespace AdFilter.Tdi.Ipc

open AdFilter.Nt

def ipprotoIp : Nat := 0
def ipprotoTcp : Nat := 6
def ipprotoUdp : Nat := 17

def directionIn : Int := 0
def directionOut : Int := 1
def directionAny : Int := -1

def filterAllow : Nat := 1
def filterDeny : Nat := 2
def filterDisconnect : Nat := 5

def tcpStateNone : Int := 0
def tcpStateSynSent : Int := 1
def tcpStateSynRcvd : Int := 2
def tcpStateEstablishedIn : Int := 3
def tcpStateEstablishedOut : Int := 4
def tcpStateFinWait1 : Int := 5
def tcpStateFinWait2 : Int := 6
def tcpStateTimeWait : Int := 7
def tcpStateCloseWait : Int := 8
def tcpStateLastAck : Int := 9
def tcpStateClosed : Int := 10
def tcpStateMax : Int := 11

def typeConnect : Nat := 1
def typeDatagram : Nat := 2
def typeResolvePid : Nat := 3
def typeConnectError : Nat := 4
def typeConnectCanceled : Nat := 7
def typeConnectReset : Nat := 8
def typeConnectTimeout : Nat := 9
def typeConnectUnreach : Nat := 10
def typeProcessCreate : Nat := 11
def typeProcessTerminate : Nat := 12

/-- A `struct sockaddr`: the family, then for IP the port and the address. -/
abbrev SockAddr := List UInt8

/-- `ntohs(sin_port)` -/
def SockAddr.port (a : SockAddr) : Nat := (a.getD 2 0).toNat * 256 + (a.getD 3 0).toNat

/-- A zeroed `struct flt_request`, and what callers put into it. The user's identity
goes through to the log only and is left out. -/
structure FltRequest where
  type : Nat := 0
  status : NtStatus := 0
  result : Nat := 0
  direction : Int := 0
  proto : Nat := 0
  pid : Nat := 0
  addrFrom : SockAddr := []
  addrTo : SockAddr := []
  logBytesIn : Nat := 0
  logBytesOut : Nat := 0
  logRuleId : List UInt8 := []
deriving DecidableEq, Repr

def ruleLogLog : Int := 1
def ruleLogCount : Int := 2

/-- The members of `struct flt_rule` that the handlers read. -/
structure FltRule where
  result : Nat := 0
  log : Int := 0
  ruleId : List UInt8 := []
deriving DecidableEq, Repr

end AdFilter.Tdi.Ipc
