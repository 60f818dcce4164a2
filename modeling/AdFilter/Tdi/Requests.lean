import AdFilter.Lib.Runs
import AdFilter.Tdi.RuleChains

/-!
# What the requests of the control device are for

The tables as a machine over requests, with other parts of the driver at work on the same
pool, and a machine over lists of rules, names and flags that knows nothing of cells and
blocks. A request is read from the bytes of its input, and is then one command of that
second machine.
-/

namespace AdFilter.Tdi.Requests

open AdFilter.Nt
open AdFilter.Lib.Framed
open AdFilter.Lib.Pool
open AdFilter.Lib.Runs
open AdFilter.Driver.HostList (cString)
open AdFilter.Tdi.LogQueue (Platform)
open AdFilter.Tdi.PidPname (NameSet)
open AdFilter.Tdi.RuleChains
open AdFilter.Tdi.Sids

/-! ## The machine -/

/-- The tables, and the blocks that other parts of the driver have. -/
structure World where
  tables : Tables
  held : List Nat := []

/-- A request, or what another part does with the pool and with a block of its own. -/
inductive Event
  | request (r : Control)
  | take
  | write (a : Nat) (bytes : List UInt8) (link : Option Nat)
  | giveBack (a : Nat)

def step (pl : Platform) (p : Allocator Nat) (w : World) : Event → Option (World × Option Reply)
  | .request r => (processRequest pl p w.tables r).map fun a => ({ w with tables := a.2 }, some a.1)
  | .take =>
      let r := w.tables.pool.alloc p
      some ({ tables := { w.tables with pool := r.2 }, held := r.1.toList ++ w.held }, none)
  | .write a bytes link =>
      if a ∈ w.held then
        some ({ w with tables := { w.tables with
          data := Function.update w.tables.data a bytes
          next := Function.update w.tables.next a link } }, none)
      else some (w, none)
  | .giveBack a =>
      if a ∈ w.held then
        some ({ tables := { w.tables with pool := w.tables.pool.free a }, held := w.held.erase a },
          none)
      else some (w, none)

/-- What `filter_init` leaves, with any blocks of other parts in the pool. -/
def Initial (p : Allocator Nat) (w : World) : Prop :=
  ∃ t, t.sidsBuf = none ∧ t.sidsList = [] ∧ t.pool.live.Nodup ∧ t.pool.badFree = false ∧
    rulesInit p t = (statusSuccess, w.tables) ∧ w.held = t.pool.live

/-! ## What the requests are for -/

/-- A chain: its rules in order, the process it is for, and whether it is in use. -/
structure Ruleset where
  rules : List (List UInt8) := []
  pname : Option (List UInt8) := none
  active : Bool := false
deriving DecidableEq, Repr

/-- All chains, and the buffer of SIDs with the offsets of those that can be found. -/
structure Policy where
  chain : Nat → Ruleset := fun _ => {}
  sids : Option (List UInt8) := none
  sidsList : List Nat := []

/-- The rule that `filter_init` sets up. -/
def startup : Policy where
  chain := Function.update (fun _ => {}) 0 { rules := [gAllowAll], active := true }

inductive Command
  | append (chain : Int) (rule : List UInt8)
  | clear (chain : Int)
  | name (chain : Int) (pname : List UInt8)
  | pidName (pid : Nat) (pname : List UInt8)
  | activate (chain : Int)
  | sids (buf : List UInt8)
  | none (reply : Reply)
deriving Repr

def Policy.setChain (b : Policy) (i : Nat) (c : Ruleset) : Policy :=
  { b with chain := Function.update b.chain i c }

/-- A command on a chain that there is. -/
def Policy.onChain (b : Policy) (chain : Int) (f : Nat → NtStatus × Policy) : NtStatus × Policy :=
  if 0 ≤ chain ∧ chain < maxChainsCount then f chain.toNat else (statusInvalidParameter1, b)

/-- The first chain for a process of this name, or the one for all others. -/
def Policy.chainFor (b : Policy) (pname : List UInt8) : Nat :=
  ((List.range maxChainsCount).find? fun i => (b.chain i).pname.any (sameName pname)).getD 0

/-- One command, when memory for it is granted or not. -/
def Policy.run (pl : Platform) (b : Policy) (granted : Bool) : Command → Reply × Policy
  | .append chain rule =>
      let r := b.onChain chain fun i =>
        if granted then
          (statusSuccess, b.setChain i { b.chain i with rules := (b.chain i).rules ++ [rule] })
        else (statusInsufficientResources, b)
      (.status r.1, r.2)
  | .clear chain =>
      let r := b.onChain chain fun i => (statusSuccess, b.setChain i {})
      (.status r.1, r.2)
  | .name chain pname =>
      let r := b.onChain chain fun i =>
        if granted then (statusSuccess, b.setChain i { b.chain i with pname := some pname })
        else (statusInsufficientResources, b.setChain i { b.chain i with pname := none })
      (.status r.1, r.2)
  | .pidName pid pname => (.pidPnameSet ⟨pid, pname, b.chainFor pname⟩, b)
  | .activate chain =>
      let r := b.onChain chain fun i =>
        (statusSuccess, b.setChain i { b.chain i with active := true })
      (.status r.1, r.2)
  | .sids buf =>
      if buf = [] then (.status statusSuccess, { b with sids := none, sidsList := [] })
      else if granted then
        let r := parseSids pl buf buf.length maxSidsCount 0
        (.status (if r.2 = buf.length then statusSuccess else statusInvalidParameter),
          { b with sids := some buf, sidsList := r.1 })
      else (.status statusInsufficientResources, { b with sids := none, sidsList := [] })
  | .none reply => (reply, b)

/-- The offsets that are kept for a buffer. -/
def listed (pl : Platform) (sids : Option (List UInt8)) : List Nat :=
  sids.elim [] fun buf => (parseSids pl buf buf.length maxSidsCount 0).1

/-- The invariant rule: a command writes one of the chains, or the SIDs. -/
theorem run_keeps {pl : Platform} {P : Policy → Prop} {b : Policy} (h : P b)
    (hchain : ∀ i < maxChainsCount, ∀ c, P (b.setChain i c))
    (hsids : ∀ sids, P { b with sids := sids, sidsList := listed pl sids }) (granted : Bool)
    (c : Command) : P (b.run pl granted c).2 := by
  have hon : ∀ (chain : Int) (f : Nat → NtStatus × Policy), (∀ i < maxChainsCount, P (f i).2) →
      P (b.onChain chain f).2 := by
    intro chain f hf
    unfold Policy.onChain
    split
    · exact hf _ (by omega)
    · exact h
  cases c with
  | append chain rule =>
    refine hon chain _ fun i hi => ?_
    split
    · exact hchain i hi _
    · exact h
  | clear chain => exact hon chain _ fun i hi => hchain i hi _
  | name chain pname =>
    refine hon chain _ fun i hi => ?_
    split <;> exact hchain i hi _
  | pidName pid pname => exact h
  | activate chain => exact hon chain _ fun i hi => hchain i hi _
  | sids buf =>
    simp only [Policy.run]
    split
    · exact hsids none
    · split
      · exact hsids (some buf)
      · exact hsids none
  | none reply => exact h

/-- What a request asks for, read from the bytes of its input. -/
def commandOf (pl : Platform) (code : Nat) (input : List UInt8) (size : Nat) : Command :=
  let mismatch : Command := .none (.status statusInfoLengthMismatch)
  let named (command : List UInt8 → Command) : Command :=
    if input.length ≤ sizeofInt then mismatch
    else if input.getLast? ≠ some 0 then .none (.status statusInvalidParameter)
    else command (cString (input.drop sizeofInt))
  if code = ioctlCmdGetrequest then
    if size < pl.sizeofFltRequest then mismatch else .none (.getRequest size)
  else if code = ioctlCmdClearchain then
    if input.length = sizeofInt then .clear (intAt input) else mismatch
  else if code = ioctlCmdAppendrule then
    if input.length = sizeofFltRule pl then
      .append (intAt input) (input.drop (sizeofPointer pl))
    else mismatch
  else if code = ioctlCmdSetchainpname then named (.name (intAt input))
  else if code = ioctlCmdSetpname then named (.pidName (readLe32 input))
  else if code = ioctlCmdActivatechain then
    if input.length = sizeofInt then .activate (intAt input) else mismatch
  else if code = ioctlCmdSetSids then if input.length < sizeofInt then mismatch else .sids input
  else if code = ioctlCmdGetCounters then
    if size < sizeofTraffic then mismatch else .none .getTrafficCounters
  else .none (.status statusNotSupported)

/-- The bytes of the input of a request. -/
def inputOf (r : Control) : List UInt8 := (r.buf.getD []).take r.len

/-- The label of an event: the command with the fate of its allocation. -/
def labelOf (pl : Platform) (p : Allocator Nat) (w : World) : Event → Option (Bool × Command)
  | .request r => some (p.grants w.tables.pool.calls, commandOf pl r.code (inputOf r) r.size)
  | _ => none

/-- The machine over policies. What other parts do with the pool does not concern it. -/
def Policy.step (pl : Platform) (b : Policy) : Option (Bool × Command) → Policy × Option Reply
  | none => (b, none)
  | some c =>
      let r := b.run pl c.1 c.2
      (r.2, some r.1)

/-! ## A request is its command -/

/-- The functions behind the commands. -/
def exec (pl : Platform) (p : Allocator Nat) (t : Tables) : Command → Option (Reply × Tables)
  | .append chain rule =>
      let a := addFltRule p t chain rule
      some (.status a.1, a.2)
  | .clear chain => (clearFltChain t chain).map fun a => (.status a.1, a.2)
  | .name chain pname =>
      let a := setChainPname p t chain pname
      some (.status a.1, a.2)
  | .pidName pid pname => some (.pidPnameSet (setPidPname t pid pname), t)
  | .activate chain =>
      let a := activateFltChain t chain
      some (.status a.1, a.2)
  | .sids buf =>
      let a := setSidList pl p t buf buf.length
      some (.status a.1, a.2)
  | .none reply => some (reply, t)

section Requests

variable {r : Control} {buf : List UInt8}

theorem inputOf_some (h : r.buf = some buf) :
    inputOf r = buf.take r.len ∧ (inputOf r).length = r.len := by
  have hroom := r.room buf h
  rw [inputOf, h, Option.getD_some]
  exact ⟨rfl, by rw [List.length_take]; omega⟩

/-- Without a buffer there is no input and no room. -/
theorem inputOf_none (hc : r.code % 4 = 0) (h : r.buf = none) :
    inputOf r = [] ∧ r.len = 0 ∧ r.size = 0 := by
  obtain ⟨hl, hs⟩ := (r.buffered hc).mp h
  exact ⟨by rw [inputOf, h]; simp, hl, hs⟩

theorem intAt_take {n : Nat} (h : sizeofInt ≤ n) : intAt (buf.take n) = intAt buf :=
  congrArg (fun v : Nat => (v : Int).bmod (2 ^ 32)) (readLe32_take buf h)

/-- The last byte of the input is the NUL that is asked for. -/
theorem zeroTerminated_iff {n : Nat} (h0 : 0 < n) (h : n ≤ buf.length) :
    zeroTerminated buf n = true ↔ (buf.take n).getLast? = some 0 := by
  have hlt : n - 1 < buf.length := by omega
  rw [zeroTerminated, beq_iff_eq, List.getD_eq_getElem?_getD, List.getElem?_eq_getElem hlt,
    Option.getD_some, List.getLast?_eq_getElem?, List.length_take, Nat.min_eq_left h,
    List.getElem?_take, if_pos (by omega), List.getElem?_eq_getElem hlt, Option.some.injEq]

/-- A string behind a number ends within the input. -/
theorem cString_take {n : Nat} (hz : (buf.take n).getLast? = some 0) (hn : sizeofInt < n)
    (h : n ≤ buf.length) :
    cString ((buf.take n).drop sizeofInt) = cString (buf.drop sizeofInt) := by
  obtain ⟨front, hf⟩ := List.getLast?_eq_some_iff.mp hz
  have hfront : sizeofInt ≤ front.length := by
    have hlen := congrArg List.length hf
    rw [List.length_take, Nat.min_eq_left h, List.length_append, List.length_singleton] at hlen
    omega
  have hbuf : buf = front ++ 0 :: buf.drop n := by
    conv_lhs => rw [← List.take_append_drop n buf, hf]
    simp
  rw [hf]
  conv_rhs => rw [hbuf]
  rw [List.drop_append_of_le_length hfront, List.drop_append_of_le_length hfront]
  -- both stop at the same NUL, if not before it
  simp [cString, List.takeWhile_append]

/-- The requests with an input of one size. -/
theorem sized_eq {pl : Platform} {p : Allocator Nat} {t : Tables} (command : List UInt8 → Command)
    {n : Nat} (hn : n ≠ 0) (hc : r.code % 4 = 0) {f : List UInt8 → Option (Reply × Tables)}
    (hf : ∀ buf, f buf = exec pl p t (command (buf.take n))) :
    (match r.buf with
      | none => some (.status statusInfoLengthMismatch, t)
      | some buf => if r.len ≠ n then some (.status statusInfoLengthMismatch, t) else f buf) =
    exec pl p t
      (if (inputOf r).length = n then command (inputOf r)
        else .none (.status statusInfoLengthMismatch)) := by
  cases hb : r.buf with
  | none =>
    rw [(inputOf_none hc hb).1, List.length_nil, if_neg hn.symm]
    rfl
  | some buf =>
    obtain ⟨hi, hlen⟩ := inputOf_some hb
    dsimp only
    rw [hlen]
    by_cases hl : r.len = n
    · rw [if_neg (not_not_intro hl), if_pos hl, hf, hi, hl]
    · rw [if_pos hl, if_neg hl]
      rfl

/-- The requests with a number and a string behind it. -/
theorem named_eq {pl : Platform} {p : Allocator Nat} {t : Tables}
    (command : List UInt8 → List UInt8 → Command) (hc : r.code % 4 = 0)
    {f : List UInt8 → Option (Reply × Tables)}
    (hf : ∀ buf n, sizeofInt ≤ n →
      f buf = exec pl p t (command (buf.take n) (cString (buf.drop sizeofInt)))) :
    (match r.buf with
      | none => some (.status statusInfoLengthMismatch, t)
      | some buf =>
          if r.len < sizeofInt + 1 then some (.status statusInfoLengthMismatch, t)
          else if zeroTerminated buf r.len = false then some (.status statusInvalidParameter, t)
          else f buf) =
    exec pl p t
      (if (inputOf r).length ≤ sizeofInt then .none (.status statusInfoLengthMismatch)
        else if (inputOf r).getLast? ≠ some 0 then .none (.status statusInvalidParameter)
        else command (inputOf r) (cString ((inputOf r).drop sizeofInt))) := by
  cases hb : r.buf with
  | none =>
    rw [(inputOf_none hc hb).1, List.length_nil, if_pos (Nat.zero_le _)]
    rfl
  | some buf =>
    obtain ⟨hi, hlen⟩ := inputOf_some hb
    have hroom := r.room buf hb
    dsimp only
    rw [hlen]
    by_cases hshort : r.len ≤ sizeofInt
    · rw [if_pos (Nat.lt_succ_of_le hshort), if_pos hshort]
      rfl
    · have hz : zeroTerminated buf r.len = true ↔ (buf.take r.len).getLast? = some 0 :=
        zeroTerminated_iff (by omega) hroom
      rw [if_neg (fun hl => hshort (Nat.le_of_lt_succ hl)), if_neg hshort, hi]
      by_cases hnul : (buf.take r.len).getLast? = some 0
      · rw [if_neg (by rw [hz.mpr hnul]; exact Bool.noConfusion), if_neg (not_not_intro hnul),
          cString_take hnul (Nat.lt_of_not_le hshort) hroom, hf buf r.len (Nat.le_of_not_le hshort)]
      · have hzf : zeroTerminated buf r.len = false :=
          Bool.eq_false_iff.mpr fun ht => hnul (hz.mp ht)
        rw [if_pos hzf, if_pos hnul]
        rfl

theorem setSidList_take (pl : Platform) (p : Allocator Nat) (t : Tables) (n : Nat) :
    setSidList pl p t (buf.take n) n = setSidList pl p t buf n := by
  simp only [setSidList, List.take_take, Nat.min_self]

theorem setSids_eq (pl : Platform) (p : Allocator Nat) (t : Tables) (hc : r.code % 4 = 0) :
    (if r.len < sizeofInt then some (.status statusInfoLengthMismatch, t)
      else
        let a := setSidList pl p t (r.buf.getD []) r.len
        some (.status a.1, a.2)) =
    exec pl p t
      (if (inputOf r).length < sizeofInt then .none (.status statusInfoLengthMismatch)
        else .sids (inputOf r)) := by
  cases hb : r.buf with
  | none =>
    obtain ⟨hi, hl, -⟩ := inputOf_none hc hb
    rw [hi, hl]
    rfl
  | some buf =>
    obtain ⟨hi, hlen⟩ := inputOf_some hb
    by_cases hl : r.len < sizeofInt
    · rw [hlen, if_pos hl, if_pos hl]
      rfl
    · rw [hlen, if_neg hl, if_neg hl, Option.getD_some, exec, hlen, hi]
      simp only [setSidList_take]

/-- Without a buffer there is no room for a request either. -/
theorem getRequest_eq {pl : Platform} {p : Allocator Nat} {t : Tables} (hc : r.code % 4 = 0) :
    (if r.size < pl.sizeofFltRequest ∨ r.buf = none then
        some (.status statusInfoLengthMismatch, t)
      else some (.getRequest r.size, t)) =
    exec pl p t
      (if r.size < pl.sizeofFltRequest then .none (.status statusInfoLengthMismatch)
        else .none (.getRequest r.size)) := by
  have hsize : 0 < pl.sizeofFltRequest := by cases pl <;> decide
  by_cases hs : r.size < pl.sizeofFltRequest
  · rw [if_pos (Or.inl hs), if_pos hs]
    rfl
  · have hb : r.buf ≠ none := fun hb => hs ((inputOf_none hc hb).2.2 ▸ hsize)
    rw [if_neg (not_or.mpr ⟨hs, hb⟩), if_neg hs]
    rfl

/-- `process_request` reads nothing of a request but its code, its lengths and its input. -/
theorem processRequest_eq (pl : Platform) (p : Allocator Nat) (t : Tables) (r : Control) :
    processRequest pl p t r = exec pl p t (commandOf pl r.code (inputOf r) r.size) := by
  have hrule : sizeofInt ≤ sizeofFltRule pl := by
    unfold sizeofFltRule sizeofInt
    omega
  unfold processRequest commandOf
  by_cases h : r.code = ioctlCmdGetrequest
  · rw [if_pos h, if_pos h]
    exact getRequest_eq (by rw [h]; decide)
  rw [if_neg h, if_neg h]
  by_cases h : r.code = ioctlCmdClearchain
  · rw [if_pos h, if_pos h]
    refine sized_eq (fun input => .clear (intAt input)) (by decide) (by rw [h]; decide) fun buf => ?_
    rw [intAt_take (Nat.le_refl _)]
    rfl
  rw [if_neg h, if_neg h]
  by_cases h : r.code = ioctlCmdAppendrule
  · rw [if_pos h, if_pos h]
    refine sized_eq (fun input => .append (intAt input) (input.drop (sizeofPointer pl)))
      (by unfold sizeofInt at hrule; omega) (by rw [h]; decide) fun buf => ?_
    rw [intAt_take hrule]
    rfl
  rw [if_neg h, if_neg h]
  by_cases h : r.code = ioctlCmdSetchainpname
  · rw [if_pos h, if_pos h]
    refine named_eq (fun input => .name (intAt input)) (by rw [h]; decide)
      fun buf n hn => ?_
    rw [intAt_take hn]
    rfl
  rw [if_neg h, if_neg h]
  by_cases h : r.code = ioctlCmdSetpname
  · rw [if_pos h, if_pos h]
    refine named_eq (fun input => .pidName (readLe32 input)) (by rw [h]; decide)
      fun buf n hn => ?_
    rw [readLe32_take buf hn]
    rfl
  rw [if_neg h, if_neg h]
  by_cases h : r.code = ioctlCmdActivatechain
  · rw [if_pos h, if_pos h]
    refine sized_eq (fun input => .activate (intAt input)) (by decide) (by rw [h]; decide)
      fun buf => ?_
    rw [intAt_take (Nat.le_refl _)]
    rfl
  rw [if_neg h, if_neg h]
  by_cases h : r.code = ioctlCmdSetSids
  · rw [if_pos h, if_pos h]
    exact setSids_eq pl p t (by rw [h]; decide)
  rw [if_neg h, if_neg h]
  by_cases h : r.code = ioctlCmdGetCounters
  · rw [if_pos h, if_pos h]
    split <;> rfl
  · rw [if_neg h, if_neg h]
    rfl

end Requests

end AdFilter.Tdi.Requests
