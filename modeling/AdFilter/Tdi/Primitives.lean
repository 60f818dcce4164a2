import AdFilter.Tdi.ConnHash
import AdFilter.Tdi.EventHandlers

/-!
# What a step of the layer consists of

Every handler is a sequence of a few kinds of steps: what it does aside from the three
tables, and one call or another that changes them. An invariant of the tables has to be
kept by the calls only.
-/

namespace AdFilter.Tdi.Primitives

open AdFilter.Nt
open AdFilter.Tdi.Ipc
open AdFilter.Tdi.Objects
open AdFilter.Tdi.ConnState
open AdFilter.Tdi.ObjTbl
open AdFilter.Tdi.Datagrams
open AdFilter.Tdi.Connections
open AdFilter.Tdi.Creation
open AdFilter.Tdi.Machine
open AdFilter.Tdi.Tables
open AdFilter.Tdi.ConnTable (InRange)
open AdFilter.Tdi.EventHandlers

/-- The listen entry of an object, and what it has been made from. -/
structure Listener where
  entry : Nat
  type : FileobjType
  ipproto : Nat
  addr : UInt32
  port : UInt16
deriving DecidableEq

def listener (ote : OtEntry) : Option Listener :=
  ote.listenEntry.map fun le =>
    ⟨le, ote.type, ote.ipproto, ote.localAddr.inAddr, ote.localAddr.sinPort⟩

theorem listener_eq_none {ote : OtEntry} (h : ote.listenEntry = none) : listener ote = none := by
  rw [listener, h, Option.map_none]

/-- Nothing happens to the objects, the listen entries and the connection entries. -/
structure Aside (g g' : Globals) : Prop where
  ot : g'.ot = g.ot
  listen : g'.listen = g.listen
  listenHash : g'.listenHash = g.listenHash
  listenPool : g'.listenPool = g.listenPool
  conn : g'.conn = g.conn
  connHash : g'.connHash = g.connHash
  connToDel : g'.connToDel = g.connToDel
  connPool : g'.connPool = g.connPool

/-- A state of a connection that is there. -/
def Recorded (state : Int) : Prop := InRange state ∧ state ≠ tcpStateNone

instance (state : Int) : Decidable (Recorded state) := inferInstanceAs (Decidable (_ ∧ _))

inductive Primitive (env : Env) : Globals → Globals → Prop
  | aside {g g' : Globals} (h : Aside g g') : Primitive env g g'
  /-- Members of an object change, but not its entries. -/
  | members {g : Globals} {ote new : OtEntry} (h : g.lookup new.fileobj = some ote)
      (hc : new.connEntry = ote.connEntry) (hl : listener new = listener ote) :
      Primitive env g (g.setOte new)
  | enter {g : Globals} {new : OtEntry} (h : g.lookup new.fileobj = none)
      (hc : new.connEntry = none) (hl : new.listenEntry = none) : Primitive env g (g.setOte new)
  | cleanup {g : Globals} {ote : OtEntry} (h : g.lookup ote.fileobj = some ote) :
      Primitive env g (otCleanupOte g ote)
  | leave {g : Globals} {ote : OtEntry} (h : g.lookup ote.fileobj = some ote) :
      Primitive env g ((delEntries g ote).eraseOte ote.fileobj)
  | listen {g : Globals} {ote : OtEntry} (h : g.lookup ote.fileobj = some ote)
      (ht : ote.type = .addrobj) : Primitive env g (addListen env g ote).2
  | unlisten {g : Globals} {ote : OtEntry} {le : Nat} (h : g.lookup ote.fileobj = some ote)
      (hl : ote.listenEntry = some le) :
      Primitive env g ((delListenObj g le).setOte { ote with listenEntry := none })
  | addConn {g : Globals} {ote : OtEntry} {state : Int} (h : g.otFindFileobj ote.fileobj = some ote)
      (hs : Recorded state) : Primitive env g (addTcpConn env g ote state).2
  | setState {g : Globals} {fo : FileObj} {state : Int}
      (hs : (∃ ote, g.otFindFileobj fo = some ote ∧ ote.connEntry ≠ none) → Recorded state) :
      Primitive env g (setTcpConnState g fo state).2
  | setLocal {g : Globals} {fo : FileObj} {addr : TaAddress} :
      Primitive env g (setTcpConnLocal g fo addr).2
  | delConn {g : Globals} {fo : FileObj} {isDisconnect : Bool} :
      Primitive env g (delTcpConn g fo isDisconnect)
  /-- The end of a connect indication that is refused. -/
  | refuse {g : Globals} {ote : OtEntry} {ce : Nat} (h : g.lookup ote.fileobj = some ote)
      (hc : ote.connEntry = some ce) :
      Primitive env g ((delTcpConnObj g ce).setOte { ote with connEntry := none })
  | sweep {g g' : Globals} {stop : Bool} {t : Int} (h : connThread env g stop = some (g', t)) :
      Primitive env g g'

abbrev Steps (env : Env) : Globals → Globals → Prop := Relation.ReflTransGen (Primitive env)

variable {env : Env} {g g₁ g₂ g' : Globals} {ote : OtEntry} {fo : FileObj}

theorem Aside.refl (g : Globals) : Aside g g := ⟨rfl, rfl, rfl, rfl, rfl, rfl, rfl, rfl⟩

theorem Aside.trans (h₁ : Aside g g₁) (h₂ : Aside g₁ g₂) : Aside g g₂ :=
  ⟨h₂.ot.trans h₁.ot, h₂.listen.trans h₁.listen, h₂.listenHash.trans h₁.listenHash,
    h₂.listenPool.trans h₁.listenPool, h₂.conn.trans h₁.conn, h₂.connHash.trans h₁.connHash,
    h₂.connToDel.trans h₁.connToDel, h₂.connPool.trans h₁.connPool⟩

theorem Aside.lookup (h : Aside g g') (fo : FileObj) : g'.lookup fo = g.lookup fo := by
  rw [Globals.lookup, Globals.lookup, h.ot]

theorem Aside.steps (h : Aside g g') : Steps env g g' := .single (.aside h)

/-- What the invariant rule asks for. -/
theorem Steps.invariant {I : Globals → Prop} (h : Steps env g g') (hg : I g)
    (hI : ∀ g g', I g → Primitive env g g' → I g') : I g' := by
  induction h with
  | refl => exact hg
  | tail _ hp ih => exact hI _ _ ih hp

/-! ## What is done aside -/

theorem aside_logRequest (g : Globals) (r : FltRequest) : Aside g (g.logRequest r) :=
  ⟨rfl, rfl, rfl, rfl, rfl, rfl, rfl, rfl⟩

theorem aside_logCopy (g : Globals) (request : Option FltRequest) :
    Aside g (logCopy g request) := by
  cases request with
  | none => exact Aside.refl g
  | some r => exact aside_logRequest g r

theorem aside_quickFilter (g : Globals) (r : FltRequest) : Aside g (quickFilter g r).2 :=
  ⟨rfl, rfl, rfl, rfl, rfl, rfl, rfl, rfl⟩

theorem aside_filterReceived (g : Globals) (r : FltRequest) (n : Nat) :
    Aside g (filterReceived g r n).2 := by
  unfold filterReceived
  extract_lets rule f request g₁
  show Aside g g₁
  simp only [g₁]
  split
  · exact (aside_quickFilter g r).trans (aside_logRequest _ _)
  · exact aside_quickFilter g r

theorem aside_tdiReceiveDatagramComplete (g : Globals) (r : Received) :
    Aside g (tdiReceiveDatagramComplete g r).2 := by
  unfold tdiReceiveDatagramComplete
  split
  · exact Aside.refl g
  · split
    · exact Aside.refl g
    · split
      · exact Aside.refl g
      · exact aside_filterReceived g _ r.information

theorem aside_tdiEventReceiveDatagram (g : Globals) (addrobj : FileObj) (remoteAddr : TaAddress)
    (n : Nat) (handler : NtStatus) :
    Aside g (tdiEventReceiveDatagram g addrobj remoteAddr n handler).2 := by
  unfold tdiEventReceiveDatagram
  split
  · exact Aside.refl g
  · split
    · exact Aside.refl g
    · exact aside_filterReceived g _ n

theorem aside_tdiSendDatagram {d : Datagram} {pid : Nat} {h : Handled}
    (hs : tdiSendDatagram env g d pid = some h) : Aside g h.after := by
  unfold tdiSendDatagram at hs
  simp only at hs
  split at hs
  · obtain rfl := Option.some.inj hs
    exact Aside.refl g
  · split at hs
    · obtain rfl := Option.some.inj hs
      split <;> exact Aside.refl g
    · obtain ⟨result, -, rfl⟩ := Option.map_eq_some_iff.mp hs
      have hq := aside_quickFilter g
      split
      · split
        · exact (hq _).trans (aside_logRequest _ _)
        · exact hq _
      · split
        · exact (hq _).trans (aside_logRequest _ _)
        · exact hq _

theorem aside_otAddConnCtx (g : Globals) (addrobj connCtx connobj : Nat) (granted : Bool) :
    Aside g (otAddConnCtx g addrobj connCtx connobj granted).2 := by
  unfold otAddConnCtx
  split
  · split <;> exact ⟨rfl, rfl, rfl, rfl, rfl, rfl, rfl, rfl⟩
  · exact ⟨rfl, rfl, rfl, rfl, rfl, rfl, rfl, rfl⟩

theorem aside_otDelConnCtx (g : Globals) (addrobj connCtx : Nat) :
    Aside g (otDelConnCtx g addrobj connCtx).2 := by
  unfold otDelConnCtx
  split <;> exact ⟨rfl, rfl, rfl, rfl, rfl, rfl, rfl, rfl⟩

/-! ## The handlers -/

theorem steps_members {new : OtEntry} (h : g.lookup fo = some ote) (hf : new.fileobj = fo)
    (hc : new.connEntry = ote.connEntry) (hl : listener new = listener ote) :
    Steps env g (g.setOte new) := .single (.members (hf ▸ h) hc hl)

theorem steps_otAddFileobj (g : Globals) (o : NewObj) (granted : Bool) :
    Steps env g (otAddFileobj g o granted).2 := by
  unfold otAddFileobj
  split
  · exact .refl
  · cases h : g.lookup o.fileobj with
    | none =>
      cases granted with
      | false => exact .refl
      | true => exact .single (.enter h rfl rfl)
    | some ote =>
      have hf := fileobj_of_lookup h
      have hclean : (otCleanupOte g ote).lookup o.fileobj = some { fileobj := ote.fileobj } := by
        rw [otCleanupOte, lookup_setOte, if_pos hf.symm]
      exact .tail (.single (.cleanup (hf.symm ▸ h))) (.members hclean rfl rfl)

theorem steps_otDelFileobj (g : Globals) (fo : FileObj) : Steps env g (otDelFileobj g fo).2 := by
  unfold otDelFileobj
  split
  · exact .refl
  · cases h : g.lookup fo with
    | none => exact .refl
    | some ote =>
      obtain rfl := fileobj_of_lookup h
      exact .single (.leave h)

theorem steps_tdiCreate (g : Globals) (c : Create) (o : CreateOutcome) :
    Steps env g (tdiCreate g c o).after := by
  unfold tdiCreate
  extract_lets g₀
  have hlog : Steps env g g₀ := by
    apply Aside.steps
    cases h : o.pid <;> simp only [g₀, h]
    · exact Aside.refl g
    · exact aside_logRequest g _
    · exact Aside.refl g
  have hadd : ∀ new : NewObj, Steps env g (otAddFileobj g₀ new o.grantOte).2 :=
    fun new => hlog.trans (steps_otAddFileobj g₀ new _)
  clear_value g₀
  split
  · exact hlog
  · split
    · exact hlog
    · split
      · exact hlog
      · split
        · simp only
          split
          · exact hadd _
          · split <;> exact hadd _
        · simp only
          split <;> exact hadd _
        · exact hlog

/-- The object is an address object without a listen entry, if it is there. -/
def NewAddress (g : Globals) (fileobj : FileObj) : Prop :=
  ∀ ote, g.otFindFileobj fileobj = some ote → ote.type = .addrobj ∧ ote.listenEntry = none

theorem steps_tdiCreateAddrobjComplete2 {fileobj : FileObj} (h : NewAddress g fileobj)
    (addr : TaAddress) : Steps env g (tdiCreateAddrobjComplete2 env g fileobj addr) := by
  unfold tdiCreateAddrobjComplete2
  split
  · exact .refl
  · rename_i ote hf
    obtain ⟨htype, hentry⟩ := h ote hf
    have hfo := fileobj_of_find hf
    split
    · exact .refl
    · extract_lets ote' g₁
      have hentry' : ote'.listenEntry = none := hentry
      have hl : listener ote' = listener ote := by
        rw [listener_eq_none hentry', listener_eq_none hentry]
      have h₁ : Steps env g g₁ := steps_members (lookup_of_find hf) hfo rfl hl
      split
      · refine h₁.tail (.listen ?_ htype)
        rw [lookup_setOte, if_pos rfl]
      · exact h₁

theorem steps_tdiCreateAddrobjComplete (devobj : DevObj) (status : NtStatus) (q : QueryOutcome)
    (h : NewAddress g fo) : Steps env g (tdiCreateAddrobjComplete env g devobj fo status q).2 := by
  unfold tdiCreateAddrobjComplete
  simp only
  generalize hr : (if status ≠ statusSuccess then (status, g) else _) = r
  have hq : Steps env g r.2 := by
    rw [← hr]
    split
    · exact .refl
    · split
      · exact .refl
      · split
        · exact .refl
        · simp only
          split
          · exact steps_tdiCreateAddrobjComplete2 h q.addr
          · exact .refl
  split
  · exact hq.trans (steps_otDelFileobj r.2 fo)
  · exact hq

theorem steps_tdiAssociateAddress (g : Globals) (connobj : FileObj) (addrobj : Option FileObj)
    (grantCtx : Bool) : Steps env g (tdiAssociateAddress g connobj addrobj grantCtx).2 := by
  unfold tdiAssociateAddress
  split
  · rename_i a ote hf
    have hset : Steps env g (g.setOte { ote with associatedFileobj := a }) :=
      steps_members (lookup_of_find hf) (fileobj_of_find hf :) rfl rfl
    exact hset.trans (aside_otAddConnCtx _ _ _ _ _).steps
  · exact .refl

theorem steps_tdiDisassociateAddress (g : Globals) (connobj : FileObj) :
    Steps env g (tdiDisassociateAddress g connobj).2 := by
  unfold tdiDisassociateAddress
  split
  · exact .refl
  · exact (aside_otDelConnCtx g _ _).steps

/-- The connection entry of the object is made, after other changes of the object. -/
theorem steps_addTcpConn (h : g.lookup ote.fileobj = some ote) (h0 : ote.fileobj ≠ 0) {state : Int}
    (hs : Recorded state) : Steps env g (addTcpConn env g ote state).2 := by
  refine .single (.addConn ?_ hs)
  rw [Globals.otFindFileobj, if_neg h0, h]

theorem steps_connectFiltered (h : g.lookup ote.fileobj = some ote) (h0 : ote.fileobj ≠ 0)
    (ipproto : Nat) (request : FltRequest) (grantCopy : Bool) :
    Steps env g (connectFiltered env g ote ipproto request grantCopy).2.2 := by
  unfold connectFiltered
  extract_lets rule f g₁ request' logged added g₂ g₃
  have h₁ : Steps env g g₁ := (aside_quickFilter g request).steps
  have hlogged : ∀ g', Steps env g g' → Steps env g (logged g') := by
    intro g' hg'
    simp only [logged]
    split
    · exact hg'.trans (aside_logRequest g' _).steps
    · exact hg'
  have hadd : Steps env g added.2 :=
    h₁.trans (steps_addTcpConn (g := g₁) h h0 (by decide : Recorded tcpStateSynSent))
  have hset : Steps env g g₃ := by
    simp only [g₃]
    split
    · rename_i ote hl
      exact hadd.trans (steps_members hl (fileobj_of_lookup hl :) rfl rfl)
    · exact hadd
  split
  · split
    · exact hadd
    · split
      · split
        · exact hset
        · exact hlogged g₃ hset
      · exact hadd
  · exact hlogged g₁ h₁

/-- A TCP connection is not made on an object that listens. -/
def Connects (g : Globals) (c : Connect) : Prop :=
  c.devobj = .tcp → ∀ ote, g.otFindFileobj c.fileobj = some ote → ote.listenEntry = none

theorem TaAddress.memcpy_self (a : TaAddress) (n : Nat) : a.memcpy a n = a := by
  funext i
  exact ite_self (a i)

theorem steps_tdiConnect {c : Connect} (h : Connects g c) (pid : Nat) (grantCopy : Bool) :
    Steps env g (tdiConnect env g c pid grantCopy).1.after := by
  unfold tdiConnect
  extract_lets denied n
  split
  · exact .refl
  · rename_i hdev
    split
    · rename_i oteConn ipproto hf hproto
      have hl := lookup_of_find hf
      have hfo := fileobj_of_find hf
      split
      · exact .refl
      · rename_i oteAddr hoa
        extract_lets localAddr oteConn₁ g₁ oteConn₂ g₂ request r
        split
        · exact .refl
        · split
          · exact .refl
          · have h₁ : Steps env g g₁ := steps_members hl hfo rfl rfl
            have hl₁ : g₁.lookup c.fileobj = some oteConn₁ := by
              rw [lookup_setOte, if_pos hfo.symm]
            -- the local address of a datagram object is its own
            have hsame : listener oteConn₂ = listener oteConn₁ := by
              by_cases htcp : c.devobj = .tcp
              · have hentry := h htcp oteConn hf
                have hentry₂ : oteConn₂.listenEntry = none := hentry
                have hentry₁ : oteConn₁.listenEntry = none := hentry
                rw [listener_eq_none hentry₂, listener_eq_none hentry₁]
              · have hudp : c.devobj = .udp := by
                  by_contra hudp
                  exact hdev ⟨htcp, hudp⟩
                rw [hudp] at hproto
                obtain rfl := Option.some.inj hproto
                obtain rfl := Option.some.inj hoa
                show listener { oteConn₁ with localAddr := TaAddress.memcpy _ _ _ } = _
                rw [TaAddress.memcpy_self]
            have h₂ : Steps env g g₂ := h₁.trans (steps_members hl₁ hfo rfl hsame)
            have hl₂ : g₂.lookup oteConn₂.fileobj = some oteConn₂ := by
              rw [lookup_setOte, if_pos rfl]
            have h0 : oteConn₂.fileobj ≠ 0 := by
              show oteConn.fileobj ≠ 0
              rw [hfo]
              exact find_pos hf
            have hr : Steps env g r.2.2 :=
              h₂.trans (steps_connectFiltered hl₂ h0 ipproto request grantCopy)
            split
            · exact h₁
            · split <;> exact hr
    · exact .refl

theorem steps_setTcpConnState (g : Globals) (fo : FileObj) {state : Int} (hs : Recorded state) :
    Steps env g (setTcpConnState g fo state).2 := .single (.setState fun _ => hs)

theorem steps_tdiConnectComplete (g : Globals) (fo : FileObj) (status : NtStatus)
    (request : Option FltRequest) : Steps env g (tdiConnectComplete g fo status request).2 := by
  unfold tdiConnectComplete
  split
  · exact (aside_logCopy g request).steps.trans
      (steps_setTcpConnState _ fo (by decide : Recorded tcpStateEstablishedOut))
  · exact (aside_logCopy g _).steps.tail .delConn

/-- A graceful disconnect comes in a state that it expects, or finds no entry, or the
stack holds a state already. -/
def Disconnects (g : Globals) (connobj : FileObj) (garbage : Int) : Prop :=
  (∃ ote, g.otFindFileobj connobj = some ote ∧ ote.connEntry ≠ none) →
    getTcpConnStateByObj g connobj = tcpStateEstablishedIn ∨
      getTcpConnStateByObj g connobj = tcpStateEstablishedOut ∨
      getTcpConnStateByObj g connobj = tcpStateCloseWait ∨ Recorded garbage

theorem steps_tdiDisconnect {release : Bool} {garbage : Int}
    (h : release = true → Disconnects g fo garbage) :
    Steps env g (tdiDisconnect g fo release garbage).2 := by
  unfold tdiDisconnect
  split
  · rename_i hr
    refine .single (.setState fun hentry => ?_)
    rcases h hr hentry with hin | hout | hwait | hgarbage
    · rw [if_pos (Or.inl hin)]
      decide
    · rw [if_pos (Or.inr hout)]
      decide
    · rw [if_neg (by rw [hwait]; decide), if_pos hwait]
      decide
    · split
      · decide
      · split
        · decide
        · exact hgarbage
  · exact steps_setTcpConnState g fo (by decide : Recorded tcpStateClosed)

theorem steps_tdiDisconnectComplete (g : Globals) (fo : FileObj) (status : NtStatus) (state : Int) :
    Steps env g (tdiDisconnectComplete g fo status state) := by
  unfold tdiDisconnectComplete
  split
  · split
    · exact steps_setTcpConnState g fo (by decide : Recorded tcpStateFinWait2)
    · split
      · exact .single .delConn
      · split
        · exact .single .delConn
        · exact .refl
  · exact .refl

theorem steps_tdiEventDisconnect (g : Globals) (addrobj : FileObj) (connCtx : Nat)
    (release : Bool) : Steps env g (tdiEventDisconnect g addrobj connCtx release) := by
  unfold tdiEventDisconnect
  extract_lets connobj state
  split
  · split
    · exact steps_setTcpConnState g _ (by decide : Recorded tcpStateCloseWait)
    · split
      · exact steps_setTcpConnState g _ (by decide : Recorded tcpStateTimeWait)
      · exact .refl
  · exact .single .delConn

theorem steps_evconnAcceptComplete (g : Globals) (fo : FileObj) (status : NtStatus) :
    Steps env g (evconnAcceptComplete g fo status) := by
  unfold evconnAcceptComplete
  split
  · exact steps_setTcpConnState g fo (by decide : Recorded tcpStateEstablishedIn)
  · exact .single .delConn

/-! ## Connect indications -/

theorem steps_eventConnectDone (g : Globals) (l : EventLocals) (connobj : Option FileObj) :
    Steps env g (eventConnectDone g l connobj).2 := by
  unfold eventConnectDone
  extract_lets logged g₁
  have h₁ : Steps env g g₁ := by
    simp only [g₁]
    split
    · exact (aside_logRequest g _).steps
    · exact .refl
  clear_value g₁
  split
  · split
    · exact h₁
    · rename_i ote hb
      obtain ⟨fo, -, hl⟩ := Option.bind_eq_some_iff.mp hb
      obtain rfl := fileobj_of_lookup hl
      split
      · exact h₁
      · rename_i ce hce
        exact h₁.tail (.refuse hl hce)
  · exact h₁

theorem steps_eventConnectFilter (g : Globals) (i : Indication) (rule : FltRule)
    (status : NtStatus) : Steps env g (eventConnectFilter g i rule status).2.2 := by
  unfold eventConnectFilter
  extract_lets l
  split
  · exact steps_eventConnectDone g l none
  · extract_lets f l'
    have hf : Steps env g f.2 := (aside_quickFilter g _).steps
    split
    · exact hf.trans (steps_eventConnectDone f.2 l' none)
    · exact hf

/-- The object takes the new context, and is found with it. -/
theorem steps_changeConnCtx (h : g.otFindFileobj fo = some ote) (connCtx : Nat) (grantCtx : Bool)
    {c : NtStatus × OtEntry × Globals} (hr : changeConnCtx g ote connCtx grantCtx = c) :
    Steps env g c.2.2 ∧ c.2.2.otFindFileobj fo = some c.2.1 ∧
      c.2.1.listenEntry = ote.listenEntry ∧ c.2.1.connEntry = ote.connEntry := by
  have hfo := fileobj_of_find h
  have h0 := find_pos h
  have hfind : ∀ g', Aside g g' → g'.otFindFileobj fo = some ote := by
    intro g' hg'
    rw [Globals.otFindFileobj, hg'.lookup, ← Globals.otFindFileobj, h]
  unfold changeConnCtx at hr
  split at hr
  · subst hr
    exact ⟨.refl, h, rfl, rfl⟩
  · extract_lets d ote' a at hr
    have hd : Aside g d.2 := aside_otDelConnCtx g _ _
    clear_value d
    split at hr
    · subst hr
      exact ⟨hd.steps, hfind d.2 hd, rfl, rfl⟩
    · subst hr
      have hset : Steps env d.2 (d.2.setOte ote') :=
        steps_members (lookup_of_find (hfind d.2 hd)) hfo rfl rfl
      have ha : Aside (d.2.setOte ote') a.2 := aside_otAddConnCtx _ _ _ _ _
      refine ⟨hd.steps.trans (hset.trans ha.steps), ?_, rfl, rfl⟩
      show a.2.otFindFileobj fo = some ote'
      rw [Globals.otFindFileobj, ha.lookup, ← Globals.otFindFileobj]
      exact find_setOte_self h0 hfo

/-- The object has neither a listen entry nor a connection entry. -/
theorem steps_enterConn (h : g.otFindFileobj fo = some ote) (hl : ote.listenEntry = none)
    (hc : ote.connEntry = none) (rule : FltRule) (r : AcceptReads) :
    Steps env g (enterConn env g ote rule r).2 := by
  have hclear : clearEntries g ote = g := by
    unfold clearEntries
    rw [hl, hc]
  have hfo := fileobj_of_find h
  have hmembers : ∀ new : OtEntry, new.fileobj = ote.fileobj → new.listenEntry = none →
      new.connEntry = none → Steps env g (g.setOte new) := by
    intro new hf hln hcn
    refine steps_members (lookup_of_find h) (hf.trans hfo) (hcn.trans hc.symm) ?_
    rw [listener_eq_none hln, listener_eq_none hl]
  unfold enterConn
  rw [hclear]
  extract_lets g₁ ote₁ n m ote₂ ote₃
  split
  · exact hmembers ote₁ rfl hl hc
  · split
    · exact hmembers ote₁ rfl hl hc
    · split
      · exact hmembers ote₂ rfl hl hc
      · have h₃ : Steps env g (g₁.setOte ote₃) := hmembers ote₃ rfl hl hc
        refine h₃.trans (steps_addTcpConn ?_ ?_ (by decide : Recorded tcpStateSynRcvd))
        · rw [lookup_setOte, if_pos rfl]
        · show ote.fileobj ≠ 0
          rw [hfo]
          exact find_pos h

/-- An incoming connection is accepted on an object without entries. -/
def Accepts (g : Globals) (reply : HandlerReply) : Prop :=
  ∀ connobj ote, reply.acceptIrp = some connobj → g.otFindFileobj connobj = some ote →
    ote.listenEntry = none ∧ ote.connEntry = none

theorem steps_eventConnectAccept (l : EventLocals) {reply : HandlerReply} (r : AcceptReads)
    (h : Accepts g reply) : Steps env g (eventConnectAccept env g l reply r).2 := by
  unfold eventConnectAccept
  extract_lets fail
  have hfail : ∀ g' status connobj, Steps env g g' → Steps env g (fail g' status connobj).2 :=
    fun g' status connobj hg' => hg'.trans (steps_eventConnectDone g' _ _)
  split
  · exact hfail g _ _ .refl
  · rename_i connobj hirp
    split
    · exact hfail g _ _ .refl
    · split
      · exact hfail g _ _ .refl
      · split
        · exact hfail g _ _ .refl
        · rename_i ote hfind
          obtain ⟨hl, hc⟩ := h connobj ote hirp hfind
          split
          · exact hfail g _ _ .refl
          · extract_lets c e
            have hctx : Steps env g c.2.2 ∧ _ :=
              steps_changeConnCtx hfind reply.connCtx r.grantCtx rfl
            obtain ⟨hsteps, hfound, hlc, hcc⟩ := hctx
            have he : Steps env g e.2 :=
              hsteps.trans (steps_enterConn hfound (hlc.trans hl) (hcc.trans hc) _ _)
            split
            · exact hfail c.2.2 _ _ hsteps
            · split
              · exact hfail e.2 _ _ he
              · exact he.trans (steps_eventConnectDone e.2 _ _)

/-! ## Event handlers -/

theorem steps_changeListen (h : g.otFindFileobj fo = some ote) (ht : ote.type = .addrobj)
    (handler : Option Handler) (pid : Nat) :
    Steps env g (changeListen env g ote handler pid).2 := by
  have hl : g.lookup ote.fileobj = some ote := by
    rw [fileobj_of_find h]
    exact lookup_of_find h
  unfold changeListen
  extract_lets changed
  have hchanged : Steps env g changed.2 := by
    simp only [changed]
    split
    · exact .single (.listen hl ht)
    · rename_i le hle
      exact .single (.unlisten hl hle)
    · exact .refl
  clear_value changed
  split
  · exact hchanged
  · split
    · exact hchanged.trans (aside_logRequest changed.2 _).steps
    · exact hchanged

/-- The object of the request is an address object, if it is there. -/
def Handles (g : Globals) (r : SetEvent) : Prop :=
  ∀ ote, g.otFindFileobj r.fileobj = some ote → ote.type = .addrobj

theorem steps_tdiSetEventHandler {r : SetEvent} (h : Handles g r)
    (ctx : FileObj → Nat → TdiEventContext) (pid : Nat) :
    Steps env g (tdiSetEventHandler env ⟨g, ctx⟩ r pid).2.2.g := by
  have hfinish : ∀ ote, g.otFindFileobj r.fileobj = some ote → ∀ event r' ctx',
      Steps env g (finishSetEvent env ote event pid r' ⟨g, ctx'⟩).2.2.g := by
    intro ote hf event r' ctx'
    unfold finishSetEvent
    split
    · exact steps_changeListen hf (h ote hf) r'.eventHandler pid
    · exact .refl
  unfold tdiSetEventHandler
  simp only
  split
  · exact .refl
  · rename_i ote hf
    split
    · exact .refl
    · split
      · split
        · exact .refl
        · exact hfinish ote hf _ _ _
      · exact hfinish ote hf _ _ _

/-! ## One step -/

/-- An event of the layer, or a request for an event handler, with what the event
contexts of the objects hold by then. -/
inductive Act
  | event (e : Event)
  | setHandler (ctx : FileObj → Nat → TdiEventContext) (r : SetEvent) (pid : Nat)

def act (env : Env) (g : Globals) : Act → Option (Globals × Output)
  | .event e => step env g e
  | .setHandler ctx r pid =>
      let h := tdiSetEventHandler env ⟨g, ctx⟩ r pid
      some (h.2.2.g, .result h.1)

/-- The address of an address object is stored before the object listens, only address
objects get event handlers, a TCP connection is not made on an object that listens, and an
incoming one is accepted on an object without entries. -/
def Placed (g : Globals) : Act → Prop
  | .event (.createComplete _ fileobj _ _) => NewAddress g fileobj
  | .event (.createComplete2 fileobj _) => NewAddress g fileobj
  | .event (.connect c _ _) => Connects g c
  | .event (.accept _ reply _) => Accepts g reply
  | .setHandler _ r _ => Handles g r
  | _ => True

/-- Besides, a graceful disconnect does not come in a state that `tdi_disconnect` has no
next state for. The listen table does not depend on this. -/
structure Orderly (g : Globals) (a : Act) : Prop where
  placed : Placed g a
  disconnects : ∀ connobj garbage, a = .event (.disconnect connobj true garbage) →
    Disconnects g connobj garbage

theorem steps_of_result {g₁ : Globals} {o o₁ : Output} (h : some (g₁, o₁) = some (g', o))
    (hs : Steps env g g₁) : Steps env g g' := by
  obtain ⟨rfl, -⟩ := Prod.mk.inj (Option.some.inj h)
  exact hs

theorem steps_event {e : Event} {o : Output} (ho : Orderly g (.event e))
    (h : step env g e = some (g', o)) : Steps env g g' := by
  cases e with
  | create c oc => exact steps_of_result h (steps_tdiCreate g c oc)
  | createComplete devobj fileobj status q =>
    exact steps_of_result h (steps_tdiCreateAddrobjComplete devobj status q ho.placed)
  | createComplete2 fileobj addr =>
    exact steps_of_result h (steps_tdiCreateAddrobjComplete2 ho.placed addr)
  | cleanup fileobj => exact steps_of_result h (steps_otDelFileobj g fileobj)
  | associate connobj addrobj grantCtx =>
    exact steps_of_result h (steps_tdiAssociateAddress g connobj addrobj grantCtx)
  | disassociate connobj => exact steps_of_result h (steps_tdiDisassociateAddress g connobj)
  | connect c pid grantCopy => exact steps_of_result h (steps_tdiConnect ho.placed pid grantCopy)
  | connectComplete connobj status request =>
    exact steps_of_result h (steps_tdiConnectComplete g connobj status request)
  | updateConnInfoComplete connobj addr => exact steps_of_result h (.single .setLocal)
  | disconnect connobj release garbage =>
    refine steps_of_result h (steps_tdiDisconnect fun hr => ?_)
    subst hr
    exact ho.disconnects connobj garbage rfl
  | disconnectComplete connobj status state =>
    exact steps_of_result h (steps_tdiDisconnectComplete g connobj status state)
  | eventConnect i rule status => exact steps_of_result h (steps_eventConnectFilter g i rule status)
  | accept l reply r => exact steps_of_result h (steps_eventConnectAccept l r ho.placed)
  | acceptComplete connobj status =>
    exact steps_of_result h (steps_evconnAcceptComplete g connobj status)
  | eventDisconnect addrobj connCtx release =>
    exact steps_of_result h (steps_tdiEventDisconnect g addrobj connCtx release)
  | send d pid =>
    obtain ⟨hd, hs, hq⟩ := Option.map_eq_some_iff.mp h
    obtain ⟨rfl, -⟩ := Prod.mk.inj hq
    exact (aside_tdiSendDatagram hs).steps
  | receiveComplete r => exact steps_of_result h (aside_tdiReceiveDatagramComplete g r).steps
  | eventReceive addrobj remoteAddr n handler =>
    exact steps_of_result h (aside_tdiEventReceiveDatagram g addrobj remoteAddr n handler).steps
  | processNotify pid create =>
    exact steps_of_result h (Aside.steps ⟨rfl, rfl, rfl, rfl, rfl, rfl, rfl, rfl⟩)
  | sweep stop =>
    obtain ⟨⟨g₁, t⟩, hr, hq⟩ := Option.map_eq_some_iff.mp h
    obtain ⟨rfl, -⟩ := Prod.mk.inj hq
    exact .single (.sweep hr)
  | tick n => exact steps_of_result h (Aside.steps ⟨rfl, rfl, rfl, rfl, rfl, rfl, rfl, rfl⟩)

/-- The inversion rule of the layer. -/
theorem steps_act {a : Act} {o : Output} (ho : Orderly g a) (h : act env g a = some (g', o)) :
    Steps env g g' := by
  cases a with
  | event e => exact steps_event ho h
  | setHandler ctx r pid => exact steps_of_result h (steps_tdiSetEventHandler ho.placed ctx pid)

end AdFilter.Tdi.Primitives
