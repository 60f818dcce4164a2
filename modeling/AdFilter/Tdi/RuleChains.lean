import AdFilter.Driver.Dispatch
import AdFilter.Slre.Match
import AdFilter.Tdi.PidPname
import AdFilter.Tdi.Sids

/-!
# Rules chains and the requests of the control device

`g_rules` of the TDI filter with the functions that the control device calls on it, and
`process_request` itself. A block of the pool holds a rule, the name of a chain, or the
copy of the buffer of SIDs; the links of the rules are apart from what they hold.
-/

namespace AdFilter.Tdi.RuleChains

open AdFilter.Nt
open AdFilter.Lib.Framed
open AdFilter.Lib.Pool
open AdFilter.Driver.Dispatch (ctlCode methodBuffered)
open AdFilter.Driver.HostList (cString)
open AdFilter.Slre.Match (toLower)
open AdFilter.Tdi.LogQueue (Platform freePointer)
open AdFilter.Tdi.PidPname (NameSet)
open AdFilter.Tdi.Sids

def maxChainsCount : Nat := 128

/-- An element of `g_rules.chain`. -/
structure FltChain where
  head : Option Nat := none
  tail : Option Nat := none
  pname : Option Nat := none
  active : Bool := false
deriving DecidableEq, Repr

/-- `g_rules` and `g_sids`, the links of the rules, and what the blocks hold: a rule behind
its first member, a string before its NUL, or bytes. -/
structure Tables where
  chain : Nat → FltChain
  sidsBuf : Option Nat
  sidsList : List Nat
  next : Nat → Option Nat
  data : Nat → List UInt8
  pool : Ledger Nat

def Tables.setChain (t : Tables) (i : Nat) (f : FltChain → FltChain) : Tables :=
  { t with chain := Function.update t.chain i (f (t.chain i)) }

/-- "sanity check" -/
def chainIndex (chain : Int) : Option Nat :=
  if chain < 0 ∨ maxChainsCount ≤ chain then none else some chain.toNat

/-! ## The functions on a chain -/

def addFltRule (p : Allocator Nat) (t : Tables) (chain : Int) (rule : List UInt8) :
    NtStatus × Tables :=
  match chainIndex chain with
  | none => (statusInvalidParameter1, t)
  | some i =>
      match t.pool.alloc p with
      | (none, pool) => (statusInsufficientResources, { t with pool })
      | (some newRule, pool) =>
          let t := { t with
            pool
            data := Function.update t.data newRule rule
            next := Function.update t.next newRule none }
          match (t.chain i).tail with
          | none =>
              (statusSuccess,
                t.setChain i fun c => { c with head := some newRule, tail := some newRule })
          | some tail =>
              (statusSuccess,
                { t with next := Function.update t.next tail (some newRule) }.setChain i
                  fun c => { c with tail := some newRule })

/-- The loop of `clear_flt_chain`, without an outcome when it is not over after `n` rules. -/
def freeRules : Nat → Option Nat → Tables → Option Tables
  | _, none, t => some t
  | 0, some _, _ => none
  | n + 1, some rule, t => freeRules n (t.next rule) { t with pool := t.pool.free rule }

def clearFltChain (t : Tables) (chain : Int) : Option (NtStatus × Tables) :=
  match chainIndex chain with
  | none => some (statusInvalidParameter1, t)
  | some i =>
      (freeRules (t.pool.live.length + 1) (t.chain i).head t).map fun t =>
        let t := { t with pool := freePointer t.pool (t.chain i).pname }
        (statusSuccess, t.setChain i fun _ => {})

/-- When there is no memory for the new name the old one is gone too. -/
def setChainPname (p : Allocator Nat) (t : Tables) (chain : Int) (pname : List UInt8) :
    NtStatus × Tables :=
  match chainIndex chain with
  | none => (statusInvalidParameter1, t)
  | some i =>
      match (freePointer t.pool (t.chain i).pname).alloc p with
      | (none, pool) =>
          (statusInsufficientResources,
            { t with pool }.setChain i fun c => { c with pname := none })
      | (some a, pool) =>
          (statusSuccess,
            { t with pool, data := Function.update t.data a pname }.setChain i
              fun c => { c with pname := some a })

/-- `_stricmp` gives 0. -/
def sameName (a b : List UInt8) : Bool := a.map toLower == b.map toLower

/-- `set_pid_pname`: what it calls `pid_pname_set` with. -/
def setPidPname (t : Tables) (pid : Nat) (pname : List UInt8) : NameSet where
  pid := pid
  pname := pname
  context := ((List.range maxChainsCount).find? fun i =>
    (t.chain i).pname.any fun a => sameName pname (t.data a)).getD 0

def activateFltChain (t : Tables) (chain : Int) : NtStatus × Tables :=
  match chainIndex chain with
  | none => (statusInvalidParameter1, t)
  | some i => (statusSuccess, t.setChain i fun c => { c with active := true })

def defaultChainOnly (t : Tables) : Bool :=
  (t.chain 0).active && (List.range' 1 (maxChainsCount - 1)).all fun i => !(t.chain i).active

/-! ## The list of SIDs -/

/-- `set_sid_list` with a buffer of `size` bytes. -/
def setSidList (pl : Platform) (p : Allocator Nat) (t : Tables) (buf : List UInt8) (size : Nat) :
    NtStatus × Tables :=
  let t := { t with pool := freePointer t.pool t.sidsBuf, sidsBuf := none, sidsList := [] }
  if size = 0 then (statusSuccess, t)
  else
    match t.pool.alloc p with
    | (none, pool) => (statusInsufficientResources, { t with pool })
    | (some a, pool) =>
        let copy := buf.take size
        let r := parseSids pl copy size maxSidsCount 0
        (if r.2 = size then statusSuccess else statusInvalidParameter,
          { t with
            pool
            data := Function.update t.data a copy
            sidsBuf := some a
            sidsList := r.1 })

/-! ## Start and end -/

/-- "ALLOW * * FROM ANY TO ANY", behind the first member. -/
def gAllowAll : List UInt8 :=
  [1, 0, 0, 0, 255, 255, 255, 255, 255, 255, 255, 255] ++ List.replicate 24 0 ++ [1, 0, 0, 0] ++
    List.replicate 16 255 ++ [115, 116, 97, 114, 116, 117, 112] ++ List.replicate 25 0

/-- The part of `filter_init` on the chains. -/
def rulesInit (p : Allocator Nat) (t : Tables) : NtStatus × Tables :=
  let t := { t with chain := fun _ => {} }
  match t.pool.alloc p with
  | (none, pool) => (statusInsufficientResources, { t with pool })
  | (some a, pool) =>
      (statusSuccess,
        { t with
            pool
            data := Function.update t.data a gAllowAll
            next := Function.update t.next a none }.setChain 0
          fun c => { c with head := some a, tail := some a, active := true })

/-- The parts of `filter_free` on the chains and on the SIDs. -/
def rulesFree (pl : Platform) (p : Allocator Nat) (t : Tables) : Option Tables :=
  ((List.range maxChainsCount).foldlM (fun t i => (clearFltChain t (i : Nat)).map Prod.snd) t).map
    fun t => (setSidList pl p t [] 0).2

/-! ## The requests -/

def fileDeviceTdiFw : Nat := 0x8e86
def fileDeviceTdiFwNfo : Nat := 0x8e87
def fileAnyAccess : Nat := 0

def tdiFwIoctl (function : Nat) : Nat :=
  ctlCode fileDeviceTdiFw function methodBuffered fileAnyAccess

def ioctlCmdGetrequest : Nat := tdiFwIoctl 0x801
def ioctlCmdClearchain : Nat := tdiFwIoctl 0x802
def ioctlCmdAppendrule : Nat := tdiFwIoctl 0x803
def ioctlCmdSetchainpname : Nat := tdiFwIoctl 0x804
def ioctlCmdSetpname : Nat := tdiFwIoctl 0x805
def ioctlCmdActivatechain : Nat := tdiFwIoctl 0x806
def ioctlCmdSetSids : Nat := tdiFwIoctl 0x807
def ioctlCmdGetCounters : Nat := ctlCode fileDeviceTdiFwNfo 0x903 methodBuffered fileAnyAccess

def sizeofInt : Nat := 4

/-- `sizeof(g_traffic)` -/
def sizeofTraffic : Nat := 32

/-- The pointer in front of a rule; the number of the chain is in its place in a request. -/
def sizeofPointer : Platform → Nat
  | .win32 => 4
  | .x64 => 8

/-- `sizeof(struct flt_rule)`, which is packed. -/
def sizeofFltRule (pl : Platform) : Nat := sizeofPointer pl + 88

/-- `*(int *)buf` -/
def intAt (buf : List UInt8) : Int := (readLe32 buf : Int).bmod (2 ^ 32)

/-- What `DeviceDispatch` takes from a request: the system buffer, and the lengths of the
input and of the room for the output. A buffered request has a buffer that holds its input
unless both lengths are zero. -/
structure Control where
  code : Nat
  buf : Option (List UInt8)
  len : Nat
  size : Nat
  buffered : code % 4 = methodBuffered → (buf = none ↔ len = 0 ∧ size = 0)
  room : ∀ bytes, buf = some bytes → len ≤ bytes.length

/-- What a request comes to: a status of its own, or the call whose answer it passes on. -/
inductive Reply
  | status (status : NtStatus)
  | getRequest (bufSize : Nat)
  | pidPnameSet (name : NameSet)
  | getTrafficCounters
deriving DecidableEq, Repr

/-- A string of a request, which must be zero-terminated, behind a 32-bit number. -/
def zeroTerminated (buf : List UInt8) (len : Nat) : Bool := buf.getD (len - 1) 0 == 0

def processRequest (pl : Platform) (p : Allocator Nat) (t : Tables) (r : Control) :
    Option (Reply × Tables) :=
  let mismatch : Option (Reply × Tables) := some (.status statusInfoLengthMismatch, t)
  let answered (a : NtStatus × Tables) : Reply × Tables := (.status a.1, a.2)
  if r.code = ioctlCmdGetrequest then
    if r.size < pl.sizeofFltRequest ∨ r.buf = none then mismatch
    else some (.getRequest r.size, t)
  else if r.code = ioctlCmdClearchain then
    match r.buf with
    | none => mismatch
    | some buf =>
        if r.len ≠ sizeofInt then mismatch else (clearFltChain t (intAt buf)).map answered
  else if r.code = ioctlCmdAppendrule then
    match r.buf with
    | none => mismatch
    | some buf =>
        if r.len ≠ sizeofFltRule pl then mismatch
        else
          let rule := (buf.take (sizeofFltRule pl)).drop (sizeofPointer pl)
          some (answered (addFltRule p t (intAt buf) rule))
  else if r.code = ioctlCmdSetchainpname then
    match r.buf with
    | none => mismatch
    | some buf =>
        if r.len < sizeofInt + 1 then mismatch
        else if zeroTerminated buf r.len = false then some (.status statusInvalidParameter, t)
        else some (answered (setChainPname p t (intAt buf) (cString (buf.drop sizeofInt))))
  else if r.code = ioctlCmdSetpname then
    match r.buf with
    | none => mismatch
    | some buf =>
        if r.len < sizeofInt + 1 then mismatch
        else if zeroTerminated buf r.len = false then some (.status statusInvalidParameter, t)
        else
          some (.pidPnameSet (setPidPname t (readLe32 buf) (cString (buf.drop sizeofInt))), t)
  else if r.code = ioctlCmdActivatechain then
    match r.buf with
    | none => mismatch
    | some buf =>
        if r.len ≠ sizeofInt then mismatch else some (answered (activateFltChain t (intAt buf)))
  else if r.code = ioctlCmdSetSids then
    if r.len < sizeofInt then mismatch
    else some (answered (setSidList pl p t (r.buf.getD []) r.len))
  else if r.code = ioctlCmdGetCounters then
    if r.size < sizeofTraffic then mismatch else some (.getTrafficCounters, t)
  else some (.status statusNotSupported, t)

end AdFilter.Tdi.RuleChains
