import AdFilter.Tdi.ConnState

/-!
# The object table

`obj_tbl.c`: the entries of address and connection objects, and the index from an
address object and a connection context to a connection object.
-/

namespace AdFilter.Tdi.ObjTbl

open AdFilter.Lib
open AdFilter.Nt
open AdFilter.Tdi.Ipc
open AdFilter.Tdi.Objects
open AdFilter.Tdi.ConnState

/-- The listen entry of an address object, or the connection entry of a connection
object, is let go of. -/
def delEntries (g : Globals) (ote : OtEntry) : Globals :=
  match ote.type, ote.listenEntry, ote.connEntry with
  | .addrobj, some le, _ => delListenObj g le
  | .connobj, _, some ce =>
      let g := if ote.ipproto = ipprotoTcp ∧ ote.logDisconnect = true then logDisconnect g ote else g
      delTcpConnObj g ce
  | _, _, _ => g

def otCleanupOte (g : Globals) (ote : OtEntry) : Globals :=
  (delEntries g ote).setOte { fileobj := ote.fileobj }

/-- What a create puts into the table. -/
structure NewObj where
  devobj : DevObj
  fileobj : FileObj
  type : FileobjType
  ipproto : Nat
  connCtx : Nat
  pid : Nat

def NewObj.entry (o : NewObj) : OtEntry where
  fileobj := o.fileobj
  pid := o.pid
  devobj := o.devobj
  type := o.type
  ipproto := o.ipproto
  connCtx := o.connCtx

/-- `ot_add_fileobj`, with the outcome of its allocation. -/
def otAddFileobj (g : Globals) (o : NewObj) (granted : Bool) : NtStatus × Globals :=
  if o.fileobj = 0 then (statusInvalidParameter2, g)
  else
    match g.lookup o.fileobj with
    | none =>
        if granted then (statusSuccess, g.setOte o.entry)
        else (statusInsufficientResources, g)
    | some ote => (statusSuccess, (otCleanupOte g ote).setOte o.entry)

def otDelFileobj (g : Globals) (fileobj : FileObj) : NtStatus × Globals :=
  if fileobj = 0 then (statusInvalidParameter1, g)
  else
    match g.lookup fileobj with
    | none => (statusObjectNameNotFound, g)
    | some ote => (statusSuccess, (delEntries g ote).eraseOte fileobj)

/-! ## Connection contexts -/

def findCtx (g : Globals) (addrobj : FileObj) (connCtx : Nat) : Option CtxEntry :=
  g.cte.find (addrobj, connCtx)

/-- `ot_add_conn_ctx`, with the outcome of its allocation. -/
def otAddConnCtx (g : Globals) (addrobj : FileObj) (connCtx : Nat) (connobj : FileObj)
    (granted : Bool) : NtStatus × Globals :=
  match findCtx g addrobj connCtx with
  | none =>
      if granted then (statusSuccess, { g with cte := g.cte.put ⟨addrobj, connCtx, connobj⟩ })
      else (statusInsufficientResources, g)
  | some cte => (statusSuccess, { g with cte := g.cte.put { cte with connobj := connobj } })

def otDelConnCtx (g : Globals) (addrobj : FileObj) (connCtx : Nat) : NtStatus × Globals :=
  match findCtx g addrobj connCtx with
  | none => (statusObjectNameNotFound, g)
  | some _ => (statusSuccess, { g with cte := g.cte.erase (addrobj, connCtx) })

def otFindConnCtx (g : Globals) (addrobj : FileObj) (connCtx : Nat) : FileObj :=
  match findCtx g addrobj connCtx with
  | none => 0
  | some cte => cte.connobj

end AdFilter.Tdi.ObjTbl
