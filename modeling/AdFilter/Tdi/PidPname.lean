import AdFilter.Lib.FirstOfKey
import AdFilter.Lib.Runs
import AdFilter.Nt

/-!
# Process names

The process list, and `tdi_create` waiting for the name of its process. A step is what one
holder of `g_plist.guard` does, so a look-up that finds nothing and the addition after it
are two steps, and any steps of other threads may come between. An event lies on the stack
of the `tdi_create` that waits for it and is named by the number of that call.
-/

namespace AdFilter.Tdi.PidPname

open AdFilter.Nt
open AdFilter.Lib.Chained (modifyFirst)
open AdFilter.Lib.FirstOfKey
open AdFilter.Lib.Runs

structure PlistEntry where
  pid : Nat
  pname : Option (List UInt8) := none
  pnameEvent : Option Nat := none
  context : Int := 0
deriving DecidableEq, Repr

/-- Where a `tdi_create` stands: before the two halves of its first
`pid_pname_set_event`, at `KeWaitForSingleObject`, before the two halves of its second
one, or past all of this. -/
inductive Phase
  | setFind
  | setAdd
  | wait
  | resetFind
  | resetAdd
  | done
deriving DecidableEq, Repr

/-- A `tdi_create` that has not returned: the process it runs in, whether its event is
signalled, and the status it has got from waiting. -/
structure Create where
  pid : Nat
  phase : Phase
  signalled : Bool := false
  status : NtStatus := statusSuccess
deriving DecidableEq, Repr

/-- A `pid_pname_set` that has found no entry. -/
structure NameSet where
  pid : Nat
  pname : List UInt8
  context : Int
deriving DecidableEq, Repr

structure State where
  plist : List PlistEntry
  creates : Nat → Option Create
  /-- How many calls of `tdi_create` there have been. -/
  next : Nat
  nameSets : List NameSet
  live : Nat → Bool

/-- How the wait of a `tdi_create` ends: its event was signalled, the time was up, or the
request could not be logged and only the ruleset decides. -/
inductive Answer
  | signalled
  | timeout
  | unlogged (defaultChainOnly : Bool)
deriving DecidableEq, Repr

inductive Step
  | create (pid : Nat)
  | setFind (call : Nat)
  | setAdd (call : Nat) (granted : Bool)
  | wait (call : Nat) (answer : Answer)
  | resetFind (call : Nat)
  | resetAdd (call : Nat) (granted : Bool)
  | leave (call : Nat)
  | nameFind (name : NameSet) (granted : Bool)
  | nameAdd (name : NameSet) (granted grantedName : Bool)
  | processCreate (pid : Nat) (granted : Bool)
  | processTerminate (pid : Nat)
deriving DecidableEq, Repr

/-- What a call gives back when it ends: `pid_pname_set` its status and the event it has
signalled, `tdi_create` whether it denies the request for want of a name. -/
inductive Output
  | none
  | nameSet (status : NtStatus) (event : Option Nat)
  | returned (denied : Bool)
deriving DecidableEq, Repr

def State.findPle (s : State) (pid : Nat) : Option PlistEntry :=
  s.plist.find? fun e => e.pid = pid

/-- The entry that `add_ple` appends is zeroed but for its id; its caller fills it while it
still holds the lock. -/
def State.addPle (s : State) (granted : Bool) (e : PlistEntry) : State :=
  if granted then { s with plist := s.plist ++ [e] } else s

/-- A write to the entry that `find_ple` gives. -/
def State.writePle (s : State) (pid : Nat) (f : PlistEntry → PlistEntry) : State :=
  { s with plist := modifyFirst PlistEntry.pid pid f s.plist }

def State.setCreate (s : State) (call : Nat) (c : Option Create) : State :=
  { s with creates := Function.update s.creates call c }

/-- A `tdi_create` that stands at a phase. -/
def State.createAt (s : State) (call : Nat) (phase : Phase) : Option Create :=
  (s.creates call).filter fun c => c.phase = phase

/-- `KeSetEvent`, which writes to the stack of the call wherever that call is. -/
def State.keSetEvent (s : State) (event : Nat) : State :=
  match s.creates event with
  | none => s
  | some c => s.setCreate event (some { c with signalled := true })

def State.signal (s : State) (event : Option Nat) : State := event.elim s s.keSetEvent

def PlistEntry.setEvent (e : PlistEntry) (event : Option Nat) : PlistEntry :=
  { e with pnameEvent := event }

/-- The rest of `pid_pname_set` on its entry, when its `malloc_np` is granted or not. -/
def PlistEntry.setName (e : PlistEntry) (name : NameSet) (granted : Bool) : PlistEntry :=
  { e with
    pname := if e.pname = none ∧ granted = true then some name.pname else e.pname
    context := name.context }

/-- The event that `pid_pname_set` signals. -/
def PlistEntry.toSignal (e : PlistEntry) : Option Nat := if e.pname = none then e.pnameEvent else none

def PlistEntry.setNameStatus (e : PlistEntry) (granted : Bool) : NtStatus :=
  if e.pname = none ∧ granted = false then statusInsufficientResources else statusSuccess

def answerStatus : Answer → NtStatus
  | .signalled => statusSuccess
  | .timeout => statusTimeout
  | .unlogged defaultChainOnly => if defaultChainOnly then statusSuccess else statusUnsuccessful

/-- `tdi_create` up to the resolution of the name. -/
def tdiCreate (s : State) (pid : Nat) : State :=
  let known := ((s.findPle pid).bind PlistEntry.pname).isSome
  { s with
    creates := Function.update s.creates s.next
      (some { pid := pid, phase := if known then .done else .setFind })
    next := s.next + 1 }

/-- `pid_pname_set_event` up to its first release of the lock. -/
def setEventFind (s : State) (call : Nat) (c : Create) (event : Option Nat)
    (found missing : Phase) : State :=
  match s.findPle c.pid with
  | none => s.setCreate call (some { c with phase := missing })
  | some _ =>
      (s.writePle c.pid (·.setEvent event)).setCreate call (some { c with phase := found })

/-- `pid_pname_set_event` from `add_ple` on. -/
def setEventAdd (s : State) (call : Nat) (c : Create) (event : Option Nat) (granted : Bool)
    (added : Phase) : State :=
  (s.addPle granted { pid := c.pid, pnameEvent := event }).setCreate call
    (some { c with phase := added })

/-- `pid_pname_set` up to its first release of the lock. -/
def pidPnameSetFind (s : State) (name : NameSet) (granted : Bool) : State × Output :=
  match s.findPle name.pid with
  | none => ({ s with nameSets := name :: s.nameSets }, .none)
  | some e =>
      ((s.writePle name.pid (·.setName name granted)).signal e.toSignal,
        .nameSet (e.setNameStatus granted) e.toSignal)

/-- `pid_pname_set` from `add_ple` on. The event of a new entry is null, so nothing is
signalled. -/
def pidPnameSetAdd (s : State) (name : NameSet) (granted grantedName : Bool) : State × Output :=
  let e : PlistEntry := { pid := name.pid }
  ({ s with nameSets := s.nameSets.erase name }.addPle granted (e.setName name grantedName),
    .nameSet (if granted then e.setNameStatus grantedName else statusInsufficientResources) none)

/-- `ProcessNotifyProc` for a new process. It appends an entry without a look-up. (When
`add_ple` has no memory, the lock it has released is released again.) -/
def processCreate (s : State) (pid : Nat) (granted : Bool) : State :=
  { s with live := Function.update s.live pid true }.addPle granted { pid := pid }

def processTerminate (s : State) (pid : Nat) : State :=
  { s with
    live := Function.update s.live pid false
    plist := s.plist.eraseP fun e => e.pid = pid }

def step (s : State) : Step → Option (State × Output)
  | .create pid => some (tdiCreate s pid, .none)
  | .setFind call => (s.createAt call .setFind).map fun c =>
      (setEventFind s call c (some call) .wait .setAdd, .none)
  | .setAdd call granted => (s.createAt call .setAdd).map fun c =>
      (setEventAdd s call c (some call) granted .wait, .none)
  | .wait call answer => (s.createAt call .wait).bind fun c =>
      if answer = .signalled ∧ c.signalled = false then none
      else some (s.setCreate call (some { c with phase := .resetFind, status := answerStatus answer }),
        .none)
  | .resetFind call => (s.createAt call .resetFind).map fun c =>
      (setEventFind s call c none .done .resetAdd, .none)
  | .resetAdd call granted => (s.createAt call .resetAdd).map fun c =>
      (setEventAdd s call c none granted .done, .none)
  | .leave call => (s.createAt call .done).map fun c =>
      (s.setCreate call none, .returned (decide (c.status ≠ statusSuccess)))
  | .nameFind name granted => some (pidPnameSetFind s name granted)
  | .nameAdd name granted grantedName =>
      if name ∈ s.nameSets then some (pidPnameSetAdd s name granted grantedName) else none
  | .processCreate pid granted => some (processCreate s pid granted, .none)
  | .processTerminate pid => some (processTerminate s pid, .none)

/-- No entry, no call, and any processes running. -/
def Initial (s : State) : Prop :=
  s.plist = [] ∧ (∀ call, s.creates call = none) ∧ s.nameSets = []

end AdFilter.Tdi.PidPname
