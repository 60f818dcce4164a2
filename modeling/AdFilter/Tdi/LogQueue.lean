import AdFilter.Lib.Pool
import AdFilter.Lib.Runs
import AdFilter.Lib.Window
import AdFilter.Tdi.Ipc

/-!
# The request queue of the log

`g_queue` of the TDI filter: `log_request` writes at the head and drops the oldest
entry of a full queue, `get_request` reads from the tail, `filter_free` frees what
all slots hold. The rules chain of the same file is in `RuleChains`.
-/

namespace AdFilter.Tdi.LogQueue

open AdFilter.Lib.Pool
open AdFilter.Lib.Runs
open AdFilter.Lib.Window
open AdFilter.Nt
open AdFilter.Tdi.Ipc

def requestQueueSize : Nat := 1024

/-- The platforms that the driver is built for. -/
inductive Platform where
  | win32
  | x64
deriving DecidableEq, Repr

/-- `sizeof(struct flt_request)`, which is packed and ends in two pointers. -/
def Platform.sizeofFltRequest : Platform → Nat
  | .win32 => 131
  | .x64 => 139

/-- The values of a `size_t`. -/
def Platform.sizeT : Platform → Nat
  | .win32 => 2 ^ 32
  | .x64 => 2 ^ 64

/-- A `struct flt_request` with the members that the queue uses itself. -/
structure LogEntry where
  structSize : UInt32 := 0
  request : FltRequest := {}
  sidASize : UInt32 := 0
  logSkipped : UInt32 := 0
  pname : Option Nat := none
  sidA : Option Nat := none
deriving DecidableEq, Repr

/-- The blocks that the entry points to. -/
def LogEntry.blocks (e : LogEntry) : List Nat := e.pname.toList ++ e.sidA.toList

/-- `g_queue`, the pool, and the strings that blocks of the pool hold. -/
structure Queue where
  block : Nat
  data : Nat → LogEntry
  head : Nat
  tail : Nat
  pool : Ledger Nat
  text : Nat → List UInt8

/-- The part of `filter_init` on the queue. -/
def filterInit (p : Allocator Nat) (pool : Ledger Nat) (text : Nat → List UInt8) :
    NtStatus × Option Queue :=
  match pool.alloc p with
  | (none, _) => (statusInsufficientResources, none)
  | (some block, pool) => (statusSuccess, some ⟨block, fun _ => {}, 0, 0, pool, text⟩)

/-- `if (ptr != NULL) free(ptr);` -/
def freePointer (pool : Ledger Nat) : Option Nat → Ledger Nat
  | none => pool
  | some a => pool.free a

def freeEntry (pool : Ledger Nat) (e : LogEntry) : Ledger Nat :=
  freePointer (freePointer pool e.pname) e.sidA

/-! ## `log_request` -/

/-- `(ULONG)-1` -/
def noPid : Nat := 2 ^ 32 - 1

def pidPnameResolve (names : Nat → Option (List UInt8)) (pid bufSize : Nat) : Option (List UInt8) :=
  (names pid).map (List.take (bufSize - 1))

/-- The process name in a block of its own, if it is known and there is memory. -/
def resolveName (p : Allocator Nat) (names : Nat → Option (List UInt8)) (q : Queue) (pid : Nat) :
    Option Nat × Queue :=
  match if pid = noPid then none else pidPnameResolve names pid 256 with
  | none => (none, q)
  | some name =>
      match q.pool.alloc p with
      | (none, pool) => (none, { q with pool })
      | (some a, pool) => (some a, { q with pool, text := Function.update q.text a name })

/-- The overflow branch. The slot keeps the pointers that are freed here. -/
def rejectOldest (q : Queue) : Queue :=
  { q with
    pool := freeEntry q.pool (q.data q.tail)
    tail := (q.tail + 1) % requestQueueSize }

/-- The queue has no room. -/
def Queue.Full (q : Queue) : Prop := (q.head + 1) % requestQueueSize = q.tail

instance (q : Queue) : Decidable q.Full := inferInstanceAs (Decidable (_ = _))

/-- A copy of the request goes to the head slot. -/
def enqueue (p : Allocator Nat) (names : Nat → Option (List UInt8)) (q : Queue)
    (request : LogEntry) : Queue :=
  let r := resolveName p names q request.request.pid
  { r.2 with
    data := Function.update r.2.data q.head { request with pname := r.1 }
    head := (q.head + 1) % requestQueueSize }

/-- `log_request`, which also writes to the caller's request. -/
def logRequest (p : Allocator Nat) (gotLog : Bool) (names : Nat → Option (List UInt8)) (q : Queue)
    (request : LogEntry) : Bool × LogEntry × Queue :=
  if gotLog = false ∧ request.request.type = typeResolvePid then (false, request, q)
  else if q.Full then
    let request := { request with logSkipped := (q.data q.tail).logSkipped + 1 }
    (true, { request with sidA := none }, enqueue p names (rejectOldest q) request)
  else
    let request := { request with logSkipped := 0 }
    (true, { request with sidA := none }, enqueue p names q request)

/-! ## `get_request` -/

/-- What `get_request` writes for one entry: the structure and the name behind it. The
SID that may follow is left out. -/
structure Record where
  header : LogEntry
  pname : List UInt8
deriving DecidableEq, Repr

def Queue.pnameSize (q : Queue) (e : LogEntry) : UInt32 :=
  match e.pname with
  | none => 0
  | some a => UInt32.ofNat ((q.text a).length + 1)

def LogEntry.sidSize (e : LogEntry) : UInt32 := if e.sidA.isSome then e.sidASize else 0

/-- `sizeof(struct flt_request) + pname_size + sid_a_size` -/
def Queue.recordSize (pl : Platform) (q : Queue) (e : LogEntry) : Nat :=
  (pl.sizeofFltRequest + (q.pnameSize e).toNat + e.sidSize.toNat) % pl.sizeT

def Queue.record (q : Queue) (e : LogEntry) : Record where
  header := { e with structSize := e.structSize + q.pnameSize e + e.sidSize }
  pname := match e.pname with
    | none => []
    | some a => q.text a

/-- The oldest entry has been copied: its blocks are freed and forgotten. -/
def takeOldest (q : Queue) : Queue :=
  let e := q.data q.tail
  { q with
    data := Function.update q.data q.tail { e with pname := none, sidA := none }
    pool := freeEntry q.pool e
    tail := (q.tail + 1) % requestQueueSize }

/-- The loop of `get_request`, without an outcome when it is not over after `n` entries. -/
def readEntries (pl : Platform) : Nat → UInt32 → Queue → Option (UInt32 × List Record × Queue)
  | n, bufSize, q =>
    if q.head = q.tail then some (0, [], q)
    else
      let e := q.data q.tail
      let size := q.recordSize pl e
      if bufSize.toNat < size then some (0, [], q)
      else
        match n with
        | 0 => none
        | n + 1 =>
            (readEntries pl n (bufSize - UInt32.ofNat size) (takeOldest q)).map fun r =>
              (UInt32.ofNat size + r.1, q.record e :: r.2.1, r.2.2)

def getRequest (pl : Platform) (bufSize : UInt32) (q : Queue) :
    Option (UInt32 × List Record × Queue) :=
  if bufSize.toNat < pl.sizeofFltRequest then some (0, [], q)
  else readEntries pl requestQueueSize bufSize q

/-! ## `filter_free` -/

/-- The part of `filter_free` on the queue, over all slots. -/
def filterFree (q : Queue) : Ledger Nat :=
  ((List.range requestQueueSize).foldl (fun pool i => freeEntry pool (q.data i)) q.pool).free q.block

/-! ## Runs -/

/-- The queue, the SID blocks that callers hold for a request of theirs, and what went
through the queue. -/
structure World where
  queue : Queue
  held : List Nat := []
  accepted : List FltRequest := []
  delivered : List Record := []

inductive Call where
  /-- A caller makes a SID block: `copy_sid_a` or `get_current_sid_a`. -/
  | copySid
  /-- A caller frees a block that it still holds. -/
  | freeSid (sid : Nat)
  | log (gotLog : Bool) (names : Nat → Option (List UInt8)) (request : LogEntry)
  | get (bufSize : UInt32)

inductive Answer where
  | sid (a : Option Nat)
  | freed
  | logged (result : Bool)
  | read (result : UInt32)
deriving DecidableEq, Repr

/-- The caller's list after a call: `log_request` sets `sid_a` to NULL when it keeps it. -/
def leftWith (held : List Nat) (sid rest : Option Nat) : List Nat :=
  match sid, rest with
  | some a, none => held.erase a
  | _, _ => held

/-- One call. A caller only passes on or frees a SID block that it holds. -/
def step (p : Allocator Nat) (pl : Platform) (w : World) : Call → Option (World × Answer)
  | .copySid =>
      let r := w.queue.pool.alloc p
      some ({ w with queue := { w.queue with pool := r.2 }, held := r.1.toList ++ w.held }, .sid r.1)
  | .freeSid sid =>
      if sid ∈ w.held then
        some ({ w with
          queue := { w.queue with pool := w.queue.pool.free sid }
          held := w.held.erase sid }, .freed)
      else none
  | .log gotLog names request =>
      if ∀ sid ∈ request.sidA, sid ∈ w.held then
        let r := logRequest p gotLog names w.queue request
        some ({ w with
          queue := r.2.2
          held := leftWith w.held request.sidA r.2.1.sidA
          accepted := w.accepted ++ if r.1 then [request.request] else [] }, .logged r.1)
      else none
  | .get bufSize =>
      (getRequest pl bufSize w.queue).map fun r =>
        ({ w with queue := r.2.2, delivered := w.delivered ++ r.2.1 }, .read r.1)

/-- What `filter_init` leaves, with any blocks of other parts in the pool. -/
def Initial (p : Allocator Nat) (w : World) : Prop :=
  ∃ pool text q, pool.live.Nodup ∧ pool.badFree = false ∧
    filterInit p pool text = (statusSuccess, some q) ∧ w = { queue := q }

/-- A state that any calls lead to. -/
def Reachable (p : Allocator Nat) (pl : Platform) (w : World) : Prop :=
  Reached (step p pl) (fun _ _ => True) (Initial p) w

structure InRange (q : Queue) : Prop where
  head : q.head < requestQueueSize
  tail : q.tail < requestQueueSize

variable {p : Allocator Nat} {q : Queue}

theorem head_ne_tail (hq : InRange q) (hfull : q.Full) : q.head ≠ q.tail := by
  intro heq
  have hnext : (q.head + 1) % requestQueueSize = q.head := hfull.trans heq.symm
  rw [next_eq hq.head] at hnext
  unfold requestQueueSize at hnext
  split at hnext <;> omega

theorem inRange_reject (hq : InRange q) : InRange (rejectOldest q) := ⟨hq.head, next_lt hq.tail⟩

theorem not_full_reject (hq : InRange q) (hfull : q.Full) : ¬ (rejectOldest q).Full := by
  intro h
  have htail : q.tail = (q.tail + 1) % requestQueueSize := hfull.symm.trans h
  rw [next_eq hq.tail] at htail
  unfold requestQueueSize at htail
  split at htail <;> omega

/-- The name that is put into the entry does not count. -/
theorem resolveName_eq (names : Nat → Option (List UInt8)) (pid : Nat) :
    ∃ pool text, (resolveName p names q pid).2 = { q with pool, text } := by
  unfold resolveName
  split
  · exact ⟨q.pool, q.text, rfl⟩
  · split
    · exact ⟨_, q.text, rfl⟩
    · exact ⟨_, _, rfl⟩

theorem inRange_enqueue (hq : InRange q) (names : Nat → Option (List UInt8)) (e : LogEntry) :
    InRange (enqueue p names q e) := by
  obtain ⟨pool, text, hr⟩ := resolveName_eq (p := p) (q := q) names e.request.pid
  refine ⟨next_lt hq.head, ?_⟩
  rw [enqueue, hr]
  exact hq.tail

theorem inRange_take (hq : InRange q) : InRange (takeOldest q) := ⟨hq.head, next_lt hq.tail⟩

end AdFilter.Tdi.LogQueue
