import AdFilter.Driver.HostList
import AdFilter.Nt

/-!
# The control device

`device_control` over its six request codes. Besides the state, a call leaves the
set of offsets of the system buffer it reads and writes, and whether it goes
through a null pointer. A debug build also prints the string of a host request
and the result of the list operation, which a free build drops.
-/

namespace AdFilter.Driver.Dispatch

open AdFilter.Nt
open AdFilter.Lib.Pool
open AdFilter.Driver.HostList

def ctlCode (deviceType function method access : Nat) : Nat :=
  deviceType * 2 ^ 16 + access * 2 ^ 14 + function * 2 ^ 2 + method

def fileDeviceController : Nat := 4
def methodBuffered : Nat := 0
/-- `FILE_READ_ACCESS|FILE_WRITE_ACCESS` -/
def readWriteAccess : Nat := 3

def ioctl (function : Nat) : Nat :=
  ctlCode fileDeviceController function methodBuffered readWriteAccess

def ioctlAdfGetPause : Nat := ioctl 0x801
def ioctlAdfSetPause : Nat := ioctl 0x802
def ioctlAdfAddUserHost : Nat := ioctl 0x803
def ioctlAdfDelUserHost : Nat := ioctl 0x804
def ioctlAdfAddExceptHost : Nat := ioctl 0x805
def ioctlAdfDelExceptHost : Nat := ioctl 0x806

/-- A buffered request. The I/O manager supplies a system buffer unless both
lengths are zero: the memory from its start on, past its end too. -/
structure Irp where
  systemBuffer : Option Mem
  ioControlCode : Nat
  inputBufferLength : Nat
  outputBufferLength : Nat
  buffered : systemBuffer = none ↔ inputBufferLength = 0 ∧ outputBufferLength = 0

/-- The input bytes, and whatever lies after them in memory. -/
def inputMem (input : List UInt8) (beyond : Mem) : Mem := fun i =>
  if i < input.length then textMem input i else beyond i

/-- The request of a `DeviceIoControl` call. -/
def irpOf (code : Nat) (input : List UInt8) (outputLength : Nat) (beyond : Mem) : Irp where
  systemBuffer :=
    if input.length = 0 ∧ outputLength = 0 then none
    else some (inputMem input beyond)
  ioControlCode := code
  inputBufferLength := input.length
  outputBufferLength := outputLength
  buffered := by split <;> simp_all

theorem bytes_inputMem (input : List UInt8) (beyond : Mem) (n : Nat) :
    bytes (inputMem input beyond) n = input.take n ++ (bytes beyond n).drop input.length := by
  apply List.ext_getElem
  · simp
    omega
  · intro i h1 h2
    rw [length_bytes] at h1
    simp only [bytes, List.getElem_map, List.getElem_range, inputMem, textMem]
    by_cases hi : i < input.length
    · rw [if_pos hi, List.getElem_append_left (by simp; omega)]
      simp [hi]
    · rw [if_neg hi, List.getElem_append_right (by simp; omega)]
      simp only [List.getElem_drop, List.getElem_map, List.getElem_range, List.length_take]
      congr 1
      omega

/-- What a request that comes to its end leaves. -/
structure Completion where
  status : NtStatus
  adf : Adf
  /-- `IoStatus.Information`, where it is set. -/
  information : Option Nat
  systemBuffer : Option Mem
  /-- The result a debug build prints. -/
  printed : Option Bool

structure Outcome where
  reads : Nat → Bool
  writes : Nat → Bool
  nullDeref : Bool
  /-- Nothing when the call does not come back. -/
  completion : Option Completion

/-- No NUL stands before offset `i`. -/
def noNulBefore (buff : Mem) (i : Nat) : Bool := (List.range i).all fun j => buff j != 0

def loadDword (buff : Mem) : BitVec 32 :=
  (buff 3).toBitVec ++ (buff 2).toBitVec ++ (buff 1).toBitVec ++ (buff 0).toBitVec

def storeDword (buff : Mem) (v : BitVec 32) : Mem := fun i =>
  if i < 4 then UInt8.ofBitVec ((v >>> (8 * i)).truncate 8) else buff i

theorem loadDword_storeDword (buff : Mem) (v : BitVec 32) :
    loadDword (storeDword buff v) = v := by
  apply BitVec.eq_of_getLsbD_eq
  intro i hi
  simp only [loadDword, storeDword, BitVec.getLsbD_append, Nat.reduceLT, if_true,
    BitVec.truncate_eq_setWidth, BitVec.getLsbD_setWidth, BitVec.getLsbD_ushiftRight]
  by_cases h1 : i < 8
  · simp [h1]
  by_cases h2 : i - 8 < 8
  · have h : 8 + (i - 8) = i := by omega
    simp [h1, h2, h]
  by_cases h3 : i - 8 - 8 < 8
  · have h : 16 + (i - 8 - 8) = i := by omega
    simp [h1, h2, h3, h]
  have h4 : i - 8 - 8 - 8 < 8 := by omega
  have h : 24 + (i - 8 - 8 - 8) = i := by omega
  simp [h1, h2, h3, h4, h]

def dword (i : Nat) : Bool := decide (i < 4)

def nothing (_ : Nat) : Bool := false

def refuse (a : Adf) (irp : Irp) : Outcome where
  reads := nothing
  writes := nothing
  nullDeref := false
  completion := some ⟨statusInvalidParameter, a, none, irp.systemBuffer, none⟩

def setPause (a : Adf) (irp : Irp) : Outcome :=
  match irp.systemBuffer with
  | none => refuse a irp
  | some buff =>
      if irp.inputBufferLength = 0 then refuse a irp
      else
        { reads := dword, writes := nothing, nullDeref := false
          completion :=
            some ⟨statusSuccess, { a with paused := loadDword buff }, none, some buff, none⟩ }

def getPause (a : Adf) (irp : Irp) : Outcome :=
  match irp.systemBuffer with
  | none => refuse a irp
  | some buff =>
      if irp.outputBufferLength = 0 then refuse a irp
      else
        { reads := nothing, writes := dword, nullDeref := false
          completion := some ⟨statusSuccess, a, some 4, some (storeDword buff a.paused), none⟩ }

/-- The four requests on a host list. `strnlen` reads up to and with the first NUL,
the list operation only what lies before it, and the debug output runs to the NUL. -/
def hostRequest (p : Allocator Ptr) (dbg : Bool) (a : Adf) (irp : Irp) (add : Bool)
    (list : AdHost) : Outcome :=
  match irp.systemBuffer with
  | none => { reads := nothing, writes := nothing, nullDeref := true, completion := none }
  | some buff =>
      let bufflen := strnlen buff adfHostMaxLen
      let r :=
        if add then some (addHostList p a (.head list) buff bufflen)
        else removeHostList a (.head list) buff bufflen
      { reads := fun i => (decide (i < adfHostMaxLen) || dbg) && noNulBefore buff i
        writes := nothing
        nullDeref := false
        completion := r.map fun q =>
          ⟨statusSuccess, q.2, none, some buff, if dbg then some q.1 else none⟩ }

def deviceControl (p : Allocator Ptr) (dbg : Bool) (a : Adf) (irp : Irp) : Outcome :=
  let code := irp.ioControlCode
  if code = ioctlAdfSetPause then setPause a irp
  else if code = ioctlAdfGetPause then getPause a irp
  else if code = ioctlAdfAddUserHost then hostRequest p dbg a irp true .user
  else if code = ioctlAdfDelUserHost then hostRequest p dbg a irp false .user
  else if code = ioctlAdfAddExceptHost then hostRequest p dbg a irp true .excpt
  else if code = ioctlAdfDelExceptHost then hostRequest p dbg a irp false .excpt
  else
    { reads := nothing, writes := nothing, nullDeref := false
      completion := some ⟨statusSuccess, a, none, irp.systemBuffer, none⟩ }

/-- The major functions a user device gets. -/
inductive MajorFunction
  | create
  | close
  | deviceControl
  | other
deriving DecidableEq, Repr

/-- `tdifw_user_device_dispatch`: the status it returns and completes the request
with. `mine` says that the request is for the control device. -/
def tdifwUserDeviceDispatch (p : Allocator Ptr) (dbg : Bool) (a : Adf) (mine : Bool)
    (major : MajorFunction) (irp : Irp) : Option (NtStatus × Adf) :=
  if !mine then some (statusUnsuccessful, a)
  else
    match major with
    | .deviceControl => (deviceControl p dbg a irp).completion.map fun c => (c.status, c.adf)
    | _ => some (statusSuccess, a)

/-- A host string ends inside the input. -/
def Terminated (irp : Irp) : Prop :=
  ∃ buff, irp.systemBuffer = some buff ∧ ∃ i < irp.inputBufferLength, buff i = 0

theorem Terminated.buffer {irp : Irp} (h : Terminated irp) :
    ∃ buff, irp.systemBuffer = some buff := by
  obtain ⟨buff, hb, -⟩ := h
  exact ⟨buff, hb⟩

/-! ## Which request a code is -/

/-- The six requests of the control device. -/
inductive Request
  | setPause
  | getPause
  | host (add : Bool) (list : AdHost)
  | other
deriving DecidableEq, Repr

def requestOf (code : Nat) : Request :=
  if code = ioctlAdfSetPause then .setPause
  else if code = ioctlAdfGetPause then .getPause
  else if code = ioctlAdfAddUserHost then .host true .user
  else if code = ioctlAdfDelUserHost then .host false .user
  else if code = ioctlAdfAddExceptHost then .host true .excpt
  else if code = ioctlAdfDelExceptHost then .host false .excpt
  else .other

section Cases

variable {p : Allocator Ptr} {dbg : Bool} {a : Adf} {irp : Irp}

/-- A call is decided by the request its code stands for. -/
theorem deviceControl_eq :
    deviceControl p dbg a irp =
      match requestOf irp.ioControlCode with
      | .setPause => setPause a irp
      | .getPause => getPause a irp
      | .host add list => hostRequest p dbg a irp add list
      | .other =>
          { reads := nothing, writes := nothing, nullDeref := false
            completion := some ⟨statusSuccess, a, none, irp.systemBuffer, none⟩ } := by
  simp only [deviceControl, requestOf]
  split_ifs <;> rfl

end Cases

end AdFilter.Driver.Dispatch
