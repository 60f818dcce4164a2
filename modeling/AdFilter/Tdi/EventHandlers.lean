import AdFilter.Driver.Represent
import AdFilter.Tdi.Machine

/-!
# Setting an event handler

`tdi_set_event_handler` of `disp_ev.c`. The handler and the context of the client are
kept in the entry of the object, and the request goes down with a handler of the filter
in their place. Both are written before `add_listen` is asked, so a connect handler that
it refuses leaves them behind.
-/

namespace AdFilter.Tdi.EventHandlers

open AdFilter.Driver.Represent (blankAdf)
open AdFilter.Lib.Pool
open AdFilter.Lib.Runs
open AdFilter.Nt
open AdFilter.Tdi.Ipc
open AdFilter.Tdi.Objects
open AdFilter.Tdi.ConnState
open AdFilter.Tdi.Machine

/-! ## Events and handlers -/

namespace TdiEvent

def connect : Nat := 0
def disconnect : Nat := 1
def receive : Nat := 3
def receiveDatagram : Nat := 4
def receiveExpedited : Nat := 5
def chainedReceive : Nat := 7
def chainedReceiveDatagram : Nat := 8
def chainedReceiveExpedited : Nat := 9
def errorEx : Nat := 10

end TdiEvent

def maxEvent : Nat := TdiEvent.errorEx + 1

/-- What an `EventHandler` that is not NULL points to. -/
inductive Handler
  | client (address : Nat)
  | tdiEventConnect
  | tdiEventDisconnect
  | tdiEventReceiveDatagram
  | tdiEventReceive
  | tdiEventChainedReceive
deriving DecidableEq, Repr

/-- What an `EventContext` that is not NULL points to: `ctx` is an element of the array
of that name in the entry of the object. -/
inductive Context
  | client (address : Nat)
  | ctx (fileobj : FileObj) (event : Nat)
deriving DecidableEq, Repr

/-- `g_tdi_event_handlers` up to its end mark. -/
def gTdiEventHandlers : List (Nat × Option Handler) :=
  [(TdiEvent.connect, some .tdiEventConnect),
    (TdiEvent.disconnect, some .tdiEventDisconnect),
    (TdiEvent.receiveDatagram, some .tdiEventReceiveDatagram),
    (TdiEvent.chainedReceiveDatagram, none),
    (TdiEvent.receive, some .tdiEventReceive),
    (TdiEvent.receiveExpedited, some .tdiEventReceive),
    (TdiEvent.chainedReceive, some .tdiEventChainedReceive),
    (TdiEvent.chainedReceiveExpedited, some .tdiEventChainedReceive)]

/-- A `TDI_EVENT_CONTEXT` but for its object. -/
structure TdiEventContext where
  oldHandler : Option Handler := none
  oldContext : Option Context := none
deriving DecidableEq, Repr

/-- The globals with the array `ctx` of every entry of the object table. -/
structure EventState where
  g : Globals
  ctx : FileObj → Nat → TdiEventContext

def EventState.setCtx (s : EventState) (fileobj : FileObj) (event : Nat) (c : TdiEventContext) :
    EventState :=
  { s with ctx := Function.update s.ctx fileobj (Function.update (s.ctx fileobj) event c) }

/-- A `TDI_REQUEST_KERNEL_SET_EVENT` and the object of its stack location. -/
structure SetEvent where
  fileobj : FileObj
  eventType : Int
  eventHandler : Option Handler
  eventContext : Option Context
deriving DecidableEq, Repr

def SetEvent.replaced (r : SetEvent) (event : Nat) : Option Handler → SetEvent
  | some handler =>
      { r with eventHandler := some handler, eventContext := some (.ctx r.fileobj event) }
  | none => { r with eventHandler := none, eventContext := none }

/-! ## The handler of the request -/

def typeListen : Nat := 5
def typeNotListen : Nat := 6

/-- 127.0.0.1 as it lies in an address. -/
def loopback : UInt32 := 0x0100007f

def listenRequest (oteAddr : OtEntry) (adding : Bool) (pid : Nat) : FltRequest where
  type := if adding then typeListen else typeNotListen
  proto := ipprotoTcp
  pid := if adding then if pid = 0 then oteAddr.pid else pid else 2 ^ 32 - 1
  addrFrom := oteAddr.localAddr.sockaddr

/-- "change LISTEN state", for the handler that the request has by now. -/
def changeListen (env : Env) (g : Globals) (oteAddr : OtEntry) (handler : Option Handler)
    (pid : Nat) : NtStatus × Globals :=
  let changed :=
    match handler, oteAddr.listenEntry with
    | some _, _ => addListen env g oteAddr
    | none, some le =>
        (statusSuccess, (delListenObj g le).setOte { oteAddr with listenEntry := none })
    | none, none => (statusSuccess, g)
  if changed.1 ≠ statusSuccess then changed
  else if oteAddr.localAddr.inAddr ≠ loopback then
    (statusSuccess, changed.2.logRequest (listenRequest oteAddr handler.isSome pid))
  else changed

/-- From the change of the listen state to the end: the result, the request as it goes
down, and the state. -/
def finishSetEvent (env : Env) (oteAddr : OtEntry) (event pid : Nat) (r : SetEvent)
    (s : EventState) : Nat × SetEvent × EventState :=
  if event = TdiEvent.connect then
    let c := changeListen env s.g oteAddr r.eventHandler pid
    (if c.1 ≠ statusSuccess then filterDeny else filterAllow, r, { s with g := c.2 })
  else (filterAllow, r, s)

/-- `tdi_set_event_handler` in the context of process `pid`. -/
def tdiSetEventHandler (env : Env) (s : EventState) (r : SetEvent) (pid : Nat) :
    Nat × SetEvent × EventState :=
  match s.g.otFindFileobj r.fileobj with
  | none => (if r.eventHandler = none then filterAllow else filterDeny, r, s)
  | some oteAddr =>
      if r.eventType < 0 ∨ maxEvent ≤ r.eventType then (filterAllow, r, s)
      else
        let event := r.eventType.toNat
        match r.eventHandler with
        | some handler =>
            match gTdiEventHandlers.lookup event with
            | none => (filterAllow, r, s)
            | some replacement =>
                finishSetEvent env oteAddr event pid (r.replaced event replacement)
                  (s.setCtx r.fileobj event ⟨some handler, r.eventContext⟩)
        | none => finishSetEvent env oteAddr event pid r (s.setCtx r.fileobj event {})

/-! ## What a denied request leaves -/

/-- The event context, the listen entry, and the handler and the context of the request
are as they were. -/
structure Untouched (s : EventState) (r r' : SetEvent) (s' : EventState) : Prop where
  ctx : s'.ctx r.fileobj r.eventType.toNat = s.ctx r.fileobj r.eventType.toNat
  listenEntry : (s'.g.otFindFileobj r.fileobj).map OtEntry.listenEntry =
    (s.g.otFindFileobj r.fileobj).map OtEntry.listenEntry
  eventHandler : r'.eventHandler = r.eventHandler
  eventContext : r'.eventContext = r.eventContext

/-- What makes `add_listen` fail: the type of the address, the memory, or an entry that
the object already has. -/
def ListenRefused (env : Env) (g : Globals) (oteAddr : OtEntry) : Prop :=
  oteAddr.localAddr.addressType ≠ tdiAddressTypeIp ∨
    env.listenAlloc.grants g.listenPool.calls = false ∨ oteAddr.listenEntry ≠ none

/-- The request sets a connect handler on an object of the table that cannot listen. -/
def ConnectRefused (env : Env) (s : EventState) (r : SetEvent) : Prop :=
  r.eventType = TdiEvent.connect ∧ r.eventHandler ≠ none ∧
    ∃ oteAddr, s.g.otFindFileobj r.fileobj = some oteAddr ∧ ListenRefused env s.g oteAddr

/-- What the request would write is there already, in the entry and in the request. -/
def AlreadyReplaced (s : EventState) (r : SetEvent) : Prop :=
  s.ctx r.fileobj TdiEvent.connect = ⟨r.eventHandler, r.eventContext⟩ ∧
    r.eventHandler = some .tdiEventConnect ∧
    r.eventContext = some (.ctx r.fileobj TdiEvent.connect)

variable {env : Env} {s : EventState} {r : SetEvent} {oteAddr : OtEntry}

theorem EventState.ctx_setCtx (s : EventState) (fileobj : FileObj) (event : Nat)
    (c : TdiEventContext) : (s.setCtx fileobj event c).ctx fileobj event = c := by
  unfold EventState.setCtx
  simp only [Function.update_self]

theorem addListen_refused {g : Globals} (h : ListenRefused env g oteAddr) :
    (addListen env g oteAddr).1 ≠ statusSuccess ∧ (addListen env g oteAddr).2.ot = g.ot := by
  unfold addListen
  split
  · exact ⟨(by decide : statusInvalidParameter ≠ statusSuccess), rfl⟩
  · rename_i haddr
    split
    · exact ⟨(by decide : statusInsufficientResources ≠ statusSuccess), rfl⟩
    · rename_i hal
      dsimp only
      split
      · exact ⟨(by decide : statusObjectNameExists ≠ statusSuccess), rfl⟩
      · rename_i hentry
        obtain h | h | h := h
        · exact absurd h haddr
        · rw [alloc_denied h] at hal
          exact absurd (congrArg Prod.fst hal) nofun
        · exact absurd hentry h

theorem addListen_granted {g : Globals} (h : ¬ ListenRefused env g oteAddr) :
    (addListen env g oteAddr).1 = statusSuccess := by
  simp only [ListenRefused, not_or, not_not, Bool.not_eq_false] at h
  obtain ⟨haddr, hgrant, hentry⟩ := h
  unfold addListen
  rw [if_neg (not_not.mpr haddr), alloc_granted hgrant, hentry]

/-- A refused handler is the only way for the change of the listen state to fail. -/
theorem changeListen_refused {g : Globals} (handler : Option Handler) (pid : Nat)
    (hh : handler ≠ none) (h : ListenRefused env g oteAddr) :
    (changeListen env g oteAddr handler pid).1 ≠ statusSuccess ∧
      (changeListen env g oteAddr handler pid).2.ot = g.ot := by
  obtain ⟨handler, rfl⟩ := Option.ne_none_iff_exists'.mp hh
  unfold changeListen
  dsimp only
  rw [if_pos (addListen_refused h).1]
  exact addListen_refused h

theorem changeListen_granted {g : Globals} (handler : Option Handler) (pid : Nat)
    (h : handler ≠ none → ¬ ListenRefused env g oteAddr) :
    (changeListen env g oteAddr handler pid).1 = statusSuccess := by
  unfold changeListen
  extract_lets changed
  have hchanged : changed.1 = statusSuccess := by
    simp only [changed]
    split
    · exact addListen_granted (h nofun)
    · rfl
    · rfl
  rw [if_neg (not_not.mpr hchanged)]
  split
  · rfl
  · exact hchanged

/-- A refused connect handler stays behind in the entry, and the request names the
handler of the filter. -/
theorem tdiSetEventHandler_refused (h : ConnectRefused env s r) (pid : Nat) :
    (tdiSetEventHandler env s r pid).1 = filterDeny ∧
      (tdiSetEventHandler env s r pid).2.1 = r.replaced TdiEvent.connect (some .tdiEventConnect) ∧
      (tdiSetEventHandler env s r pid).2.2.ctx =
        (s.setCtx r.fileobj TdiEvent.connect ⟨r.eventHandler, r.eventContext⟩).ctx ∧
      (tdiSetEventHandler env s r pid).2.2.g.ot = s.g.ot := by
  obtain ⟨htype, hh, oteAddr, hf, hl⟩ := h
  obtain ⟨handler, hh⟩ := Option.ne_none_iff_exists'.mp hh
  have hevent : r.eventType.toNat = TdiEvent.connect := by rw [htype]; rfl
  have hlook : gTdiEventHandlers.lookup TdiEvent.connect = some (some .tdiEventConnect) := rfl
  have hrange : ¬ (r.eventType < 0 ∨ (maxEvent : Int) ≤ r.eventType) := by rw [htype]; decide
  obtain ⟨hne, hot⟩ := changeListen_refused (some .tdiEventConnect) pid nofun hl
  unfold tdiSetEventHandler
  simp only [hf, hh]
  rw [if_neg hrange, hevent, hlook]
  dsimp only
  rw [finishSetEvent, if_pos rfl]
  refine ⟨?_, rfl, rfl, hot⟩
  exact if_pos hne

/-- Past the writing only a refused handler denies the request. -/
theorem finishSetEvent_granted {event : Nat} {r : SetEvent} {s : EventState} (pid : Nat)
    (h : event = TdiEvent.connect → r.eventHandler ≠ none → ¬ ListenRefused env s.g oteAddr) :
    (finishSetEvent env oteAddr event pid r s).1 ≠ filterDeny := by
  have hallow : filterAllow ≠ filterDeny := by decide
  unfold finishSetEvent
  split
  · rename_i hevent
    simp only [changeListen_granted r.eventHandler pid (h hevent)]
    exact hallow
  · exact hallow

/-- Any other request that is denied is for an object that is not in the table. -/
theorem tdiSetEventHandler_denied (h : ¬ ConnectRefused env s r) {pid : Nat}
    (hd : (tdiSetEventHandler env s r pid).1 = filterDeny) :
    (tdiSetEventHandler env s r pid).2 = (r, s) := by
  have hallow : filterAllow ≠ filterDeny := by decide
  unfold tdiSetEventHandler at hd ⊢
  cases hf : s.g.otFindFileobj r.fileobj with
  | none => rfl
  | some oteAddr =>
    simp only [hf] at hd ⊢
    by_cases hrange : r.eventType < 0 ∨ (maxEvent : Int) ≤ r.eventType
    · rw [if_pos hrange]
    · rw [if_neg hrange] at hd ⊢
      have hgrant : r.eventType.toNat = TdiEvent.connect → r.eventHandler ≠ none →
          ¬ ListenRefused env s.g oteAddr := by
        intro hevent hh hl
        have htype : r.eventType = TdiEvent.connect := by omega
        exact h ⟨htype, hh, oteAddr, hf, hl⟩
      cases hh : r.eventHandler with
      | none =>
        simp only [hh] at hd
        exact absurd hd (finishSetEvent_granted pid fun _ hne => absurd hh hne)
      | some handler =>
        simp only [hh] at hd ⊢
        cases hlook : gTdiEventHandlers.lookup r.eventType.toNat with
        | none => rfl
        | some replacement =>
          simp only [hlook] at hd
          exact absurd hd (finishSetEvent_granted pid fun hevent _ => hgrant hevent (hh ▸ nofun))

/-- A denied request changes nothing, unless it is a connect handler that `add_listen`
refuses: then only if nothing is there to change. -/
theorem denied_untouched_iff (env : Env) (s : EventState) (r : SetEvent) (pid : Nat) :
    ((tdiSetEventHandler env s r pid).1 = filterDeny →
        Untouched s r (tdiSetEventHandler env s r pid).2.1 (tdiSetEventHandler env s r pid).2.2) ↔
      ¬ ConnectRefused env s r ∨ AlreadyReplaced s r := by
  by_cases h : ConnectRefused env s r
  · obtain ⟨hd, hr, hctx, hot⟩ := tdiSetEventHandler_refused h pid
    have hevent : r.eventType.toNat = TdiEvent.connect := by rw [h.1]; rfl
    rw [or_iff_right (not_not.mpr h)]
    constructor
    · intro hu
      obtain ⟨hc, -, hhandler, hcontext⟩ := hu hd
      rw [hevent, hctx, EventState.ctx_setCtx] at hc
      rw [hr] at hhandler hcontext
      exact ⟨hc.symm, hhandler.symm, hcontext.symm⟩
    · intro ha _
      refine ⟨?_, ?_, ?_, ?_⟩
      · rw [hevent, hctx, EventState.ctx_setCtx, ha.1]
      · rw [Globals.otFindFileobj, Globals.otFindFileobj, Globals.lookup, Globals.lookup, hot]
      · rw [hr, ha.2.1]
        rfl
      · rw [hr, ha.2.2]
        rfl
  · refine ⟨fun _ => Or.inl h, fun _ hd => ?_⟩
    rw [tdiSetEventHandler_denied h hd]
    exact ⟨rfl, rfl, rfl, rfl⟩

/-- An address object of process 4. -/
def opened : List Event :=
  [.create ⟨.tcp, 32, .transportAddress, 4⟩ ⟨.known, true, true⟩,
    .createComplete2 32 (Driver.HostList.textMem [14, 0, 2, 0, 0, 81, 10, 0, 0, 1])]

/-- A client's request for a connect handler of its own on the object. -/
def clientListens (handler context : Nat) : SetEvent :=
  ⟨32, TdiEvent.connect, some (.client handler), some (.client context)⟩

/-- The second connect handler on an object is denied, but from then on it is the one
that the filter calls. -/
theorem second_handler_denied_kept :
    ¬ ∀ (env : Env) (s : EventState) (r : SetEvent) (pid : Nat),
      (tdiSetEventHandler env s r pid).1 = filterDeny →
        Untouched s r (tdiSetEventHandler env s r pid).2.1 (tdiSetEventHandler env s r pid).2.2 := by
  intro h
  let env := freeBuild fun _ _ => none
  have hrun : ∃ g os, run (step env) (blank blankAdf) opened = some (g, os) ∧
      let s := (tdiSetEventHandler env ⟨g, fun _ _ => {}⟩ (clientListens 1 10) 4).2.2
      s.ctx 32 TdiEvent.connect = ⟨some (.client 1), some (.client 10)⟩ ∧
        (tdiSetEventHandler env s (clientListens 2 20) 4).1 = filterDeny ∧
        (tdiSetEventHandler env s (clientListens 2 20) 4).2.2.ctx 32 TdiEvent.connect =
          ⟨some (.client 2), some (.client 20)⟩ :=
    ⟨_, _, rfl, by decide +kernel, by decide +kernel, by decide +kernel⟩
  obtain ⟨g, os, -, hfirst, hdenied, hkept⟩ := hrun
  have hctx := (h env _ (clientListens 2 20) 4 hdenied).ctx
  exact absurd (hkept.symm.trans (hctx.trans hfirst)) (by decide)

end AdFilter.Tdi.EventHandlers
