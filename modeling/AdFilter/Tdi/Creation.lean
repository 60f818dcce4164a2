import AdFilter.Tdi.Datagrams
import AdFilter.Tdi.ObjTbl

/-!
# Creation, cleanup and association of objects

`disp_obj.c` and the part of `tdi_dispatch_complete` it relies on: an entry goes
into the object table before the create is passed on, and the completion of the
create of an address object asks the lower driver for its address.
-/

namespace AdFilter.Tdi.Creation

open AdFilter.Nt
open AdFilter.Tdi.Ipc
open AdFilter.Tdi.Objects
open AdFilter.Tdi.ConnState
open AdFilter.Tdi.ObjTbl

/-- The extended attribute of a create: what kind of object it is for. -/
inductive Ea
  | absent
  | transportAddress
  | connectionContext (connCtx : Nat)
  | other
deriving DecidableEq, Repr

structure Create where
  devobj : DevObj
  fileobj : FileObj
  ea : Ea
  pid : Nat

/-- How the name of the process is found: it is known, the log's reader is asked for
it, or nobody reads the log and the rules are looked at. -/
inductive PidOutcome
  | known
  | asked (answered : Bool)
  | notAsked (defaultChainOnly : Bool)
deriving DecidableEq, Repr

def PidOutcome.resolved : PidOutcome → Bool
  | .known => true
  | .asked answered => answered
  | .notAsked defaultChainOnly => defaultChainOnly

/-- The outcomes inside `tdi_create`. -/
structure CreateOutcome where
  pid : PidOutcome
  grantOte : Bool
  grantQueryIrp : Bool

/-- What `tdi_create` leaves: its result and whether it has set a completion routine. -/
structure Created where
  result : Nat
  completion : Bool
  after : Globals

def tdiCreate (g : Globals) (c : Create) (o : CreateOutcome) : Created :=
  let g :=
    match o.pid with
    | .asked _ => g.logRequest { type := typeResolvePid, pid := c.pid }
    | _ => g
  if o.pid.resolved = false then ⟨filterDeny, false, g⟩
  else if c.ea = .absent then ⟨filterAllow, false, g⟩
  else
    match getOriginalDevobj c.devobj with
    | none => ⟨filterDeny, false, g⟩
    | some ipproto =>
        match c.ea with
        | .transportAddress =>
            let a := otAddFileobj g ⟨c.devobj, c.fileobj, .addrobj, ipproto, 0, c.pid⟩ o.grantOte
            if a.1 ≠ statusSuccess then ⟨filterDeny, false, a.2⟩
            else if o.grantQueryIrp = false then ⟨filterDeny, false, a.2⟩
            else ⟨filterAllow, true, a.2⟩
        | .connectionContext connCtx =>
            let a :=
              otAddFileobj g ⟨c.devobj, c.fileobj, .connobj, ipproto, connCtx, c.pid⟩ o.grantOte
            if a.1 ≠ statusSuccess then ⟨filterDeny, false, a.2⟩ else ⟨filterAllow, false, a.2⟩
        | _ => ⟨filterAllow, false, g⟩

/-! ## Passing a request on -/

/-- What of a request decides how it is passed on, with the outcome of the
allocation for the completion that needs a context of its own. -/
structure Irp where
  ioStatus : NtStatus
  currentLocation : Nat
  grantSkip : Bool

/-- A request is completed here, or goes to the lower driver, with or without the
completion routine of the handler. -/
inductive Dispatched
  | completed (status : NtStatus)
  | forwarded (completion : Bool)
deriving DecidableEq

def tdiDispatchComplete (devobj : DevObj) (irp : Irp) (filter : Nat) (completion : Bool) : Dispatched :=
  if filter = filterDeny then
    .completed (if irp.ioStatus = statusSuccess then statusAccessDenied else irp.ioStatus)
  else if filter = filterAllow then
    if getOriginalDevobj devobj = none then .completed statusUnsuccessful
    else if completion = true ∧ irp.currentLocation ≤ 1 ∧ irp.grantSkip = false then
      .completed statusInsufficientResources
    else .forwarded completion
  else .completed statusSuccess

/-! ## The completion of a create -/

/-- `tdi_create_addrobj_complete2`: the address of the object is stored. -/
def tdiCreateAddrobjComplete2 (env : Env) (g : Globals) (fileobj : FileObj) (addr : TaAddress) :
    Globals :=
  match g.otFindFileobj fileobj with
  | none => g
  | some ote =>
      if taAddressMax < addr.addressLength then g
      else
        let ote := { ote with localAddr := ote.localAddr.memcpy addr addr.addressLength }
        let g := g.setOte ote
        if ote.ipproto ≠ ipprotoTcp then (addListen env g ote).2 else g

/-- The outcomes inside the completion of a create: the allocations, the return of
`IoCallDriver` for the query, the address it brings, and whether the query has
ended by the time of that return. -/
structure QueryOutcome where
  grantCtx : Bool
  grantTai : Bool
  grantMdl : Bool
  status : NtStatus
  addr : TaAddress
  ended : Bool

def QueryOutcome.granted (q : QueryOutcome) : Bool := q.grantCtx && q.grantTai && q.grantMdl

/-- `tdi_create_addrobj_complete`: the status the create ends with. -/
def tdiCreateAddrobjComplete (env : Env) (g : Globals) (devobj : DevObj) (fileobj : FileObj)
    (status : NtStatus) (q : QueryOutcome) : NtStatus × Globals :=
  let r :=
    if status ≠ statusSuccess then (status, g)
    else if q.granted = false then (statusInsufficientResources, g)
    else
      match getOriginalDevobj devobj with
      | none => (statusInvalidParameter, g)
      | some _ =>
          (q.status, if q.ended then tdiCreateAddrobjComplete2 env g fileobj q.addr else g)
  if r.1 ≠ statusPending then (r.1, (otDelFileobj r.2 fileobj).2) else r

/-! ## Cleanup and association -/

/-- `tdi_cleanup`: success anyway. -/
def tdiCleanup (g : Globals) (fileobj : FileObj) : Nat × Globals :=
  (filterAllow, (otDelFileobj g fileobj).2)

/-- `tdi_associate_address`; `addrobj` is what the handle stands for, if anything. -/
def tdiAssociateAddress (g : Globals) (connobj : FileObj) (addrobj : Option FileObj)
    (grantCtx : Bool) : Nat × Globals :=
  match addrobj, g.otFindFileobj connobj with
  | some addrobj, some ote =>
      let g := g.setOte { ote with associatedFileobj := addrobj }
      let a := otAddConnCtx g addrobj ote.connCtx connobj grantCtx
      (if a.1 ≠ statusSuccess then filterDeny else filterAllow, a.2)
  | _, _ => (filterDeny, g)

/-- `tdi_disassociate_address`: success anyway. -/
def tdiDisassociateAddress (g : Globals) (connobj : FileObj) : Nat × Globals :=
  match g.otFindFileobj connobj with
  | none => (filterAllow, g)
  | some ote => (filterAllow, (otDelConnCtx g ote.associatedFileobj ote.connCtx).2)

end AdFilter.Tdi.Creation
