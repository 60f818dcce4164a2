import AdFilter.Driver.Filter
import AdFilter.Lib.Chained
import AdFilter.Lib.Reclaim
import AdFilter.Nt

/-!
# The objects of the TDI layer

Addresses, the entries of the object table, of the context table, of the listen
table and of the connection table, and the globals of the layer. A pointer to a
file object is a number, and zero is NULL; the entries of the listen and connection
tables are reached through pointers, so they have a memory and a pool of their own.
-/

namespace AdFilter.Tdi.Objects

open AdFilter.Driver.HostList
open AdFilter.Lib
open AdFilter.Lib.Pool (Allocator Ledger)
open AdFilter.Nt
open AdFilter.Tdi.Ipc

abbrev FileObj := Nat

/-- The filter's own device objects, and all others. -/
inductive DevObj
  | tcp
  | udp
  | ip
  | other (address : Nat)
deriving DecidableEq, Repr

/-- The protocol of a device object, when it is one of the filter's. -/
def getOriginalDevobj : DevObj → Option Nat
  | .tcp => some ipprotoTcp
  | .udp => some ipprotoUdp
  | .ip => some ipprotoIp
  | .other _ => none

inductive FileobjType
  | controlobj
  | addrobj
  | connobj
deriving DecidableEq, Repr

/-! ## Addresses -/

/-- What a `TA_ADDRESS *` points to. -/
abbrev TaAddress := Mem

namespace TaAddress

def ushort (a : TaAddress) (i : Nat) : UInt16 := (a i).toUInt16 + (a (i + 1)).toUInt16 * 256

def ulong (a : TaAddress) (i : Nat) : UInt32 :=
  (a i).toUInt32 + (a (i + 1)).toUInt32 * 0x100 + (a (i + 2)).toUInt32 * 0x10000 +
    (a (i + 3)).toUInt32 * 0x1000000

def addressLength (a : TaAddress) : Nat := (ushort a 0).toNat
def addressType (a : TaAddress) : Nat := (ushort a 2).toNat
def sinPort (a : TaAddress) : UInt16 := ushort a 4
def inAddr (a : TaAddress) : UInt32 := ulong a 6

/-- The `struct sockaddr` that starts at the type. -/
def sockaddr (a : TaAddress) : SockAddr := bytes (fun i => a (i + 2)) 16

/-- `memcpy` of the first `n` bytes over `dst`. -/
def memcpy (dst src : TaAddress) (n : Nat) : TaAddress := fun i => if i < n then src i else dst i

end TaAddress

def tdiAddressTypeIp : Nat := 2

/-- `TA_ADDRESS_MAX`: the header and the longest address. -/
def taAddressMax : Nat := 6 - 1 + 70

/-! ## Entries -/

/-- A zeroed `struct ot_entry` but for its file object. -/
structure OtEntry where
  fileobj : FileObj
  pid : Nat := 0
  devobj : DevObj := .other 0
  associatedFileobj : FileObj := 0
  type : FileobjType := .controlobj
  ipproto : Nat := 0
  localAddr : TaAddress := fun _ => 0
  remoteAddr : TaAddress := fun _ => 0
  connCtx : Nat := 0
  listenEntry : Option Nat := none
  connEntry : Option Nat := none
  bytesOut : Nat := 0
  bytesIn : Nat := 0
  logDisconnect : Bool := false

structure CtxEntry where
  addrobj : FileObj
  connCtx : Nat
  connobj : FileObj

structure ListenEntry where
  next : Option Nat := none
  prev : Option Nat := none
  ipproto : Nat := 0
  addr : UInt32 := 0
  port : UInt16 := 0
  addrobj : FileObj := 0

structure ConnEntry where
  next : Option Nat := none
  prev : Option Nat := none
  state : Int := 0
  laddr : UInt32 := 0
  lport : UInt16 := 0
  raddr : UInt32 := 0
  rport : UInt16 := 0
  connobj : FileObj := 0
  nextToDel : Option Nat := none
  ticks : Int := 0

def hashSize : Nat := 0x1000

def calcHash (fileobj : FileObj) : Nat := ((fileobj % 2 ^ 32) >>> 5) % hashSize

def CtxEntry.key (cte : CtxEntry) : FileObj × Nat := (cte.addrobj, cte.connCtx)

/-- `CALC_HASH_2` -/
def calcHash2 (k : FileObj × Nat) : Nat := calcHash ((k.1 % 2 ^ 32) ^^^ (k.2 % 2 ^ 32))

def calcListenHash (ipproto : Nat) (port : UInt16) : Nat := (ipproto + port.toNat) % 2 ^ 32 % 0x1000

def calcConnHash (laddr : UInt32) (lport : UInt16) (raddr : UInt32) (rport : UInt16) : Nat :=
  (laddr + lport.toUInt32 + raddr + rport.toUInt32).toNat % 0x1000

def ConnEntry.hash (ce : ConnEntry) : Nat := calcConnHash ce.laddr ce.lport ce.raddr ce.rport

def ListenEntry.hash (le : ListenEntry) : Nat := calcListenHash le.ipproto le.port

/-! ## Globals -/

/-- What the layer runs with: the pools, the build, the matcher and the clock. -/
structure Env where
  connAlloc : Allocator Nat
  listenAlloc : Allocator Nat
  dbg : Bool
  matcher : Matcher
  timeIncrement : Nat

structure Globals where
  ot : Chained.Map OtEntry.fileobj calcHash
  cte : Chained.Map CtxEntry.key calcHash2
  /-- The listen entries: their memory, the buckets of `g_listen`, and the pool. -/
  listen : Nat → ListenEntry
  listenHash : Nat → Option Nat
  listenPool : Ledger Nat
  /-- The connection entries: their memory, the buckets of `g_conn`, and the pool. -/
  conn : Nat → ConnEntry
  connHash : Nat → Option Nat
  connToDel : Option Nat
  connPool : Ledger Nat
  tickCount : Int
  /-- The requests that `log_request` has taken, oldest first. -/
  log : List FltRequest
  needCheck : Bool
  adf : Adf

namespace Globals

/-- The search in the bucket of the object, without the test for NULL. -/
def lookup (g : Globals) (fileobj : FileObj) : Option OtEntry := g.ot.find fileobj

def otFindFileobj (g : Globals) (fileobj : FileObj) : Option OtEntry :=
  if fileobj = 0 then none else g.lookup fileobj

/-- Writes through a pointer to an entry of the table. -/
def setOte (g : Globals) (ote : OtEntry) : Globals := { g with ot := g.ot.put ote }

def setConn (g : Globals) (ce : Nat) (f : ConnEntry → ConnEntry) : Globals :=
  { g with conn := Function.update g.conn ce (f (g.conn ce)) }

def setListen (g : Globals) (le : Nat) (f : ListenEntry → ListenEntry) : Globals :=
  { g with listen := Function.update g.listen le (f (g.listen le)) }

/-- A write through a pointer that is tested for NULL first. -/
def setConnAt (g : Globals) (p : Option Nat) (f : ConnEntry → ConnEntry) : Globals :=
  match p with
  | some ce => g.setConn ce f
  | none => g

def setListenAt (g : Globals) (p : Option Nat) (f : ListenEntry → ListenEntry) : Globals :=
  match p with
  | some le => g.setListen le f
  | none => g

def eraseOte (g : Globals) (fileobj : FileObj) : Globals := { g with ot := g.ot.erase fileobj }

def setListenHash (g : Globals) (hash : Nat) (first : Option Nat) : Globals :=
  { g with listenHash := Function.update g.listenHash hash first }

def setConnHash (g : Globals) (hash : Nat) (first : Option Nat) : Globals :=
  { g with connHash := Function.update g.connHash hash first }

def setConnToDel (g : Globals) (first : Option Nat) : Globals := { g with connToDel := first }

def setListenPool (g : Globals) (pool : Ledger Nat) : Globals := { g with listenPool := pool }

def setConnPool (g : Globals) (pool : Ledger Nat) : Globals := { g with connPool := pool }

def setNeedCheck (g : Globals) (needCheck : Bool) : Globals := { g with needCheck := needCheck }

def logRequest (g : Globals) (request : FltRequest) : Globals :=
  { g with log := g.log ++ [request] }

end Globals

/-- `quick_filter`: the result and the flag; the rule is not written. -/
def quickFilter (g : Globals) (request : FltRequest) : Nat × Globals :=
  let r := Driver.Filter.tdifwFilter g.needCheck request
  (r.1, g.setNeedCheck r.2)

/-! ## The object table -/

variable {g : Globals} {fo : FileObj} {ote : OtEntry}

theorem fileobj_of_lookup (h : g.lookup fo = some ote) : ote.fileobj = fo :=
  Chained.Map.key_of_find h

theorem lookup_of_find (h : g.otFindFileobj fo = some ote) : g.lookup fo = some ote := by
  rw [Globals.otFindFileobj] at h
  split at h
  · exact absurd h (by simp)
  · exact h

theorem fileobj_of_find (h : g.otFindFileobj fo = some ote) : ote.fileobj = fo :=
  fileobj_of_lookup (lookup_of_find h)

/-- What a write through the pointer leaves to be found. -/
theorem lookup_setOte (g : Globals) (ote : OtEntry) (fo : FileObj) :
    (g.setOte ote).lookup fo = if fo = ote.fileobj then some ote else g.lookup fo :=
  g.ot.find_put ote fo

end AdFilter.Tdi.Objects
