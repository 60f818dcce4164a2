import AdFilter.Tdi.Effects

/-!
# What the handlers do to the connection entries

One handler, one object. The exception is an indication that is accepted on an object
which still owns a connection entry: that entry is queued twice.
-/

namespace AdFilter.Tdi.HandlerEffects

open AdFilter.Lib.Handover
open AdFilter.Lib.Reclaim
open AdFilter.Nt
open AdFilter.Tdi.Ipc
open AdFilter.Tdi.Objects
open AdFilter.Tdi.ConnState
open AdFilter.Tdi.ObjTbl
open AdFilter.Tdi.Datagrams
open AdFilter.Tdi.Connections
open AdFilter.Tdi.Creation
open AdFilter.Tdi.Machine
open AdFilter.Tdi.Views
open AdFilter.Tdi.ConnTable
open AdFilter.Tdi.Effects

variable {env : Env} {g g' : Globals} {ote : OtEntry} {fo : FileObj} {S : FileObj → Prop}
  {P : Int → Prop}

/-! ## Creation and association -/

theorem effect_tdiCreate (g : Globals) (c : Create) (o : CreateOutcome) (hS : S c.fileobj) :
    Effect S P g (tdiCreate g c o).after := by
  unfold tdiCreate
  extract_lets g₀
  have hlog : Effect S P g g₀ := by
    apply effect_of_quiet
    cases h : o.pid <;> simp only [g₀, h]
    · exact Quiet.refl g
    · exact quiet_logRequest g _
    · exact Quiet.refl g
  have hadd : ∀ new : NewObj, new.fileobj = c.fileobj →
      Effect S P g (otAddFileobj g₀ new o.grantOte).2 :=
    fun new hn => hlog.trans (effect_otAddFileobj g₀ new _ (hn ▸ hS))
  clear_value g₀
  split
  · exact hlog
  · split
    · exact hlog
    · split
      · exact hlog
      · split
        · simp only
          split
          · exact hadd _ rfl
          · split <;> exact hadd _ rfl
        · simp only
          split <;> exact hadd _ rfl
        · exact hlog

theorem effect_tdiCreateAddrobjComplete (g : Globals) (devobj : DevObj) (status : NtStatus)
    (q : QueryOutcome) (hS : S fo) :
    Effect S P g (tdiCreateAddrobjComplete env g devobj fo status q).2 := by
  unfold tdiCreateAddrobjComplete
  simp only
  generalize hr : (if status ≠ statusSuccess then (status, g) else _) = r
  have hq : Quiet g r.2 := by
    rw [← hr]
    split
    · exact Quiet.refl g
    · split
      · exact Quiet.refl g
      · split
        · exact Quiet.refl g
        · simp only
          split
          · exact quiet_tdiCreateAddrobjComplete2 g fo q.addr
          · exact Quiet.refl g
  split
  · exact (effect_of_quiet hq).trans (effect_otDelFileobj r.2 hS)
  · exact effect_of_quiet hq

theorem effect_otAddConnCtx (g : Globals) (addrobj connCtx connobj : Nat) (granted : Bool) :
    Effect S P g (otAddConnCtx g addrobj connCtx connobj granted).2 := by
  obtain ⟨hv, hs⟩ := view_otAddConnCtx g addrobj connCtx connobj granted
  refine effect_of_same hv hs fun W hW => ?_
  unfold otAddConnCtx
  split
  · split <;> exact ⟨hW.good, hW.bucket, hW.head, hW.owned, hW.live⟩
  · exact ⟨hW.good, hW.bucket, hW.head, hW.owned, hW.live⟩

theorem effect_otDelConnCtx (g : Globals) (addrobj connCtx : Nat) :
    Effect S P g (otDelConnCtx g addrobj connCtx).2 := by
  obtain ⟨hv, hs⟩ := view_otDelConnCtx g addrobj connCtx
  refine effect_of_same hv hs fun W hW => ?_
  unfold otDelConnCtx
  split <;> exact ⟨hW.good, hW.bucket, hW.head, hW.owned, hW.live⟩

theorem effect_tdiAssociateAddress (g : Globals) (connobj : FileObj) (addrobj : Option FileObj)
    (grantCtx : Bool) : Effect S P g (tdiAssociateAddress g connobj addrobj grantCtx).2 := by
  unfold tdiAssociateAddress
  split
  · rename_i a ote hf
    have hset : Effect S P g (g.setOte { ote with associatedFileobj := a }) :=
      effect_setOte_of_same (lookup_of_find hf) (fileobj_of_find hf :) rfl
    exact hset.trans (effect_otAddConnCtx _ _ _ _ _)
  · exact Effect.refl S P g

theorem effect_tdiDisassociateAddress (g : Globals) (connobj : FileObj) :
    Effect S P g (tdiDisassociateAddress g connobj).2 := by
  unfold tdiDisassociateAddress
  split
  · exact Effect.refl S P g
  · exact effect_otDelConnCtx g _ _

/-! ## Outgoing connections -/

theorem effect_connectFiltered (g : Globals) (oteConn : OtEntry) (ipproto : Nat)
    (request : FltRequest) (grantCopy : Bool) (hS : S oteConn.fileobj)
    (ho : (view g).owner oteConn.fileobj = oteConn.connEntry) :
    Effect S P g (connectFiltered env g oteConn ipproto request grantCopy).2.2 := by
  unfold connectFiltered
  extract_lets rule f g₁ request' logged added g₂ g₃
  have h₁ : Effect S P g g₁ := effect_of_quiet (quiet_quickFilter g request)
  have hlogged : ∀ g', Effect S P g g' → Effect S P g (logged g') := by
    intro g' hg'
    simp only [logged]
    split
    · exact hg'.trans (effect_of_quiet (quiet_logRequest g' _))
    · exact hg'
  have hadd : Effect S P g added.2 :=
    h₁.trans (effect_addTcpConn g₁ oteConn (by decide : InRange tcpStateSynSent) hS ho)
  have hset : Effect S P g g₃ := by
    simp only [g₃]
    split
    · rename_i ote hl
      exact hadd.trans (effect_setOte_of_same hl (fileobj_of_lookup hl :) rfl)
    · exact hadd
  split
  · split
    · exact hadd
    · split
      · split
        · exact hset
        · exact hlogged g₃ hset
      · exact hadd
  · exact hlogged g₁ h₁

theorem effect_tdiConnect (g : Globals) (c : Connect) (pid : Nat) (grantCopy : Bool)
    (hS : S c.fileobj) : Effect S P g (tdiConnect env g c pid grantCopy).1.after := by
  unfold tdiConnect
  extract_lets denied n
  split
  · exact Effect.refl S P g
  · split
    · rename_i oteConn ipproto hf _
      have hl := lookup_of_find hf
      have hfo := fileobj_of_find hf
      split
      · exact Effect.refl S P g
      · extract_lets localAddr oteConn₁ g₁ oteConn₂ g₂ request r
        split
        · exact Effect.refl S P g
        · split
          · exact Effect.refl S P g
          · have h₁ : Effect S P g g₁ := effect_setOte_of_same hl hfo rfl
            have hl₁ : g₁.lookup c.fileobj = some oteConn₁ := by
              rw [lookup_setOte, if_pos hfo.symm]
            have h₂ : Effect S P g g₂ := h₁.trans (effect_setOte_of_same hl₁ hfo rfl)
            have hfo₂ : oteConn₂.fileobj = c.fileobj := hfo
            have hl₂ : g₂.lookup oteConn₂.fileobj = some oteConn₂ := by
              rw [lookup_setOte, if_pos rfl]
            have hr : Effect S P g r.2.2 :=
              h₂.trans (effect_connectFiltered g₂ oteConn₂ ipproto request grantCopy (hfo₂ ▸ hS)
                (owner_of_lookup hl₂))
            split
            · exact h₁
            · split <;> exact hr
    · exact Effect.refl S P g

theorem effect_tdiConnectComplete (g : Globals) (status : NtStatus) (request : Option FltRequest)
    (hS : S fo) (hP : status = statusSuccess → P tcpStateEstablishedOut) :
    Effect S P g (tdiConnectComplete g fo status request).2 := by
  unfold tdiConnectComplete
  split
  · rename_i hs
    exact (effect_of_quiet (quiet_logCopy g request)).trans
      (effect_setTcpConnState _ (by decide : InRange tcpStateEstablishedOut) hS (hP hs))
  · exact (effect_of_quiet (quiet_logCopy g _)).trans (effect_delTcpConn _ false hS)

/-! ## Disconnects -/

theorem moves_tdiDisconnect (g : Globals) (release : Bool) (garbage : Int) (hS : S fo)
    (hP : ∀ s, P s) :
    Moves tcpStateClosed S P (marks g) (marks (tdiDisconnect g fo release garbage).2) := by
  unfold tdiDisconnect
  split <;> exact moves_setTcpConnState g _ hS (hP _)

theorem effect_tdiDisconnectComplete (g : Globals) (status : NtStatus) (state : Int) (hS : S fo)
    (hP : P tcpStateFinWait2) : Effect S P g (tdiDisconnectComplete g fo status state) := by
  unfold tdiDisconnectComplete
  split
  · split
    · exact effect_setTcpConnState g (by decide : InRange tcpStateFinWait2) hS hP
    · split
      · exact effect_delTcpConn g true hS
      · split
        · exact effect_delTcpConn g true hS
        · exact Effect.refl S P g
  · exact Effect.refl S P g

theorem effect_tdiEventDisconnect (g : Globals) (addrobj : FileObj) (connCtx : Nat) (release : Bool)
    (hS : S (otFindConnCtx g addrobj connCtx))
    (hP : release = true → P tcpStateCloseWait ∧ P tcpStateTimeWait) :
    Effect S P g (tdiEventDisconnect g addrobj connCtx release) := by
  unfold tdiEventDisconnect
  extract_lets connobj state
  split
  · rename_i hr
    split
    · exact effect_setTcpConnState g (by decide : InRange tcpStateCloseWait) hS (hP hr).1
    · split
      · exact effect_setTcpConnState g (by decide : InRange tcpStateTimeWait) hS (hP hr).2
      · exact Effect.refl S P g
  · exact effect_delTcpConn g true hS

/-! ## Incoming connections -/

/-- What is logged at the end of the indication. -/
theorem eventConnectDone_logged (g : Globals) (l : EventLocals) (connobj : Option FileObj) :
    ∃ g₁, Quiet g g₁ ∧ g₁.ot = g.ot ∧ (eventConnectDone g l connobj).2 =
      if l.result ≠ filterAllow then
        match connobj.bind g₁.lookup with
        | none => g₁
        | some ote =>
            match ote.connEntry with
            | none => g₁
            | some ce => (delTcpConnObj g₁ ce).setOte { ote with connEntry := none }
      else g₁ := by
  unfold eventConnectDone
  extract_lets logged g₁
  refine ⟨g₁, ?_, ?_, ?_⟩
  · simp only [g₁]
    split
    · exact quiet_logRequest g _
    · exact Quiet.refl g
  · simp only [g₁]
    split <;> rfl
  · by_cases hl : l.result ≠ filterAllow
    · rw [if_pos hl, if_pos hl]
      cases connobj.bind g₁.lookup with
      | none => rfl
      | some ote =>
        dsimp only
        cases ote.connEntry <;> rfl
    · rw [if_neg hl, if_neg hl]

/-- The end of the indication queues the entry of the object, if it has one. -/
theorem effect_eventConnectDone (g : Globals) (l : EventLocals) {connobj : Option FileObj}
    (hS : ∀ fo, connobj = some fo → S fo) : Effect S P g (eventConnectDone g l connobj).2 := by
  obtain ⟨g₁, hq, -, heq⟩ := eventConnectDone_logged g l connobj
  rw [heq]
  refine (effect_of_quiet hq).trans ?_
  split
  · split
    · exact Effect.refl S P g₁
    · rename_i ote hb
      obtain ⟨fo, rfl, hl⟩ := Option.bind_eq_some_iff.mp hb
      split
      · exact Effect.refl S P g₁
      · rename_i ce hce
        have ho : (view g₁).owner fo = some ce := by rw [owner_of_lookup hl, hce]
        refine effect_retire ho (hS fo rfl) ?_ rfl fun W hce hW => ?_
        · rw [view_setOte_forget rfl]
          show View.forget _ ote.fileobj = _
          rw [fileobj_of_lookup hl]
        · exact (hW.delTcpConnObj hce).setOte fun c hc => absurd hc.symm (Option.some_ne_none c)
  · exact Effect.refl S P g₁

theorem effect_eventConnectFilter (g : Globals) (i : Indication) (rule : FltRule)
    (status : NtStatus) : Effect S P g (eventConnectFilter g i rule status).2.2 := by
  have hdone : ∀ g l, Effect S P g (eventConnectDone g l none).2 := fun g l =>
    effect_eventConnectDone g l fun fo hf => absurd hf.symm (Option.some_ne_none fo)
  unfold eventConnectFilter
  extract_lets l
  split
  · exact hdone g l
  · extract_lets f l'
    have hf : Effect S P g f.2 := effect_of_quiet (quiet_quickFilter g _)
    split
    · exact hf.trans (hdone f.2 l')
    · exact hf

theorem effect_evconnAcceptComplete (g : Globals) (status : NtStatus) (hS : S fo)
    (hP : status = statusSuccess → P tcpStateEstablishedIn) :
    Effect S P g (evconnAcceptComplete g fo status) := by
  unfold evconnAcceptComplete
  split
  · rename_i hs
    exact effect_setTcpConnState g (by decide : InRange tcpStateEstablishedIn) hS (hP hs)
  · exact effect_delTcpConn g true hS

/-! ## An indication that is accepted -/

/-- The new context has an entry of the index, or memory for one. -/
def CtxGranted (g : Globals) (ote : OtEntry) (connCtx : Nat) (grantCtx : Bool) : Prop :=
  ote.connCtx = connCtx ∨
    (findCtx g ote.associatedFileobj ote.connCtx).isSome ∧
      (grantCtx = true ∨ (findCtx g ote.associatedFileobj connCtx).isSome)

/-- The second part of the indication comes to the clearing of the entries on an
object that owns a connection entry. -/
def Reuses (g : Globals) (reply : HandlerReply) (r : AcceptReads) : Prop :=
  reply.status = statusMoreProcessingRequired ∧ r.grantParam = true ∧
    ∃ connobj ote, reply.acceptIrp = some connobj ∧ g.otFindFileobj connobj = some ote ∧
      ote.associatedFileobj = r.addrobj ∧ CtxGranted g ote reply.connCtx r.grantCtx ∧
      ote.connEntry ≠ none

theorem findCtx_otDelConnCtx {addrobj connCtx connCtx' : Nat} (h : connCtx ≠ connCtx') :
    findCtx (otDelConnCtx g addrobj connCtx).2 addrobj connCtx' = findCtx g addrobj connCtx' := by
  unfold otDelConnCtx
  split
  · rfl
  · show (g.cte.erase _).find _ = _
    rw [Lib.Chained.Map.find_erase, if_neg fun he => h (Prod.mk.inj he).2.symm]
    rfl

theorem otAddConnCtx_success {addrobj connCtx connobj : Nat} {grantCtx : Bool} :
    (otAddConnCtx g addrobj connCtx connobj grantCtx).1 = statusSuccess ↔
      (grantCtx = true ∨ (findCtx g addrobj connCtx).isSome) := by
  unfold otAddConnCtx
  cases findCtx g addrobj connCtx <;> cases grantCtx <;> simp
  decide

theorem otDelConnCtx_success {addrobj connCtx : Nat} :
    (otDelConnCtx g addrobj connCtx).1 = statusSuccess ↔ (findCtx g addrobj connCtx).isSome := by
  unfold otDelConnCtx
  cases findCtx g addrobj connCtx <;> simp
  decide

theorem lookup_otDelConnCtx (g : Globals) (addrobj connCtx : Nat) (fo : FileObj) :
    (otDelConnCtx g addrobj connCtx).2.lookup fo = g.lookup fo := by
  unfold otDelConnCtx
  split <;> rfl

/-- What the change of the context leaves for the rest of the handler. -/
structure CtxChanged (g : Globals) (fo : FileObj) (ote : OtEntry) (connCtx : Nat) (grantCtx : Bool)
    (c : NtStatus × OtEntry × Globals) : Prop where
  effect : ∀ S P, Effect S P g c.2.2
  owner : (view c.2.2).owner fo = c.2.1.connEntry
  fileobj : c.2.1.fileobj = fo
  entry : c.2.1.connEntry = ote.connEntry
  success : c.1 = statusSuccess ↔ CtxGranted g ote connCtx grantCtx

theorem changeConnCtx_spec (h : g.lookup fo = some ote) (connCtx : Nat) (grantCtx : Bool) :
    CtxChanged g fo ote connCtx grantCtx (changeConnCtx g ote connCtx grantCtx) := by
  have hf := fileobj_of_lookup h
  have howner := owner_of_lookup h
  unfold changeConnCtx
  by_cases hc : ote.connCtx = connCtx
  · rw [if_pos hc]
    exact ⟨fun S P => Effect.refl S P g, howner, hf, rfl, iff_of_true rfl (Or.inl hc)⟩
  · rw [if_neg hc]
    extract_lets d ote' a
    have hd : ∀ S P, Effect S P g d.2 := fun S P => effect_otDelConnCtx g _ _
    have hdv : view d.2 = view g := (view_otDelConnCtx g _ _).1
    have hds : d.1 = statusSuccess ↔ (findCtx g ote.associatedFileobj ote.connCtx).isSome :=
      otDelConnCtx_success
    by_cases hs : d.1 = statusSuccess
    · rw [if_neg (not_not_intro hs)]
      have hl : d.2.lookup fo = some ote := (lookup_otDelConnCtx g _ _ fo).trans h
      have hset : ∀ S P, Effect S P d.2 (d.2.setOte ote') :=
        fun S P => effect_setOte_of_same hl hf rfl
      have hsetv : view (d.2.setOte ote') = view d.2 := view_setOte_of_same hl hf rfl
      have hfind : findCtx (d.2.setOte ote') ote.associatedFileobj connCtx =
          findCtx g ote.associatedFileobj connCtx := findCtx_otDelConnCtx hc
      refine ⟨fun S P => (hd S P).trans ((hset S P).trans (effect_otAddConnCtx _ _ _ _ _)), ?_, hf,
        rfl, ?_⟩
      · show (view a.2).owner fo = ote.connEntry
        rw [(view_otAddConnCtx _ _ _ _ _).1, hsetv, hdv, howner]
      · show a.1 = statusSuccess ↔ _
        rw [otAddConnCtx_success]
        simp only [CtxGranted, ote', hfind, hc, hds.mp hs, false_or, true_and]
    · rw [if_pos hs]
      refine ⟨hd, ?_, hf, rfl, ?_⟩
      · show (view d.2).owner fo = ote.connEntry
        rw [hdv, howner]
      · simp only [CtxGranted, hs, hc, false_or, false_iff]
        exact fun hgr => hs (hds.mpr hgr.1)

/-- An owned entry is queued while its object keeps it. -/
theorem clearEntries_cases (g : Globals) (ote : OtEntry) :
    ote.connEntry = none ∧ Quiet g (clearEntries g ote) ∨ ∃ g₁ ce, Quiet g g₁ ∧
      ote.connEntry = some ce ∧ clearEntries g ote = delTcpConnObj g₁ ce := by
  unfold clearEntries
  extract_lets g₁ g₂
  have h₁ : Quiet g g₁ := by
    simp only [g₁]
    split
    · exact quiet_delListenObj g _
    · exact Quiet.refl g
  have h₂ : Quiet g₁ g₂ := by
    simp only [g₂]
    split
    · exact quiet_logRequest g₁ _
    · exact Quiet.refl g₁
  cases hce : ote.connEntry with
  | none => exact Or.inl ⟨rfl, h₁⟩
  | some ce => exact Or.inr ⟨g₂, ce, h₁.trans h₂, rfl, rfl⟩

theorem effect_enterConn (g : Globals) (h : ote.connEntry = none) (rule : FltRule) (r : AcceptReads)
    (hS : S ote.fileobj) : Effect S P g (enterConn env g ote rule r).2 := by
  have hc : Effect S P g (clearEntries g ote) := by
    rcases clearEntries_cases g ote with ⟨-, hq⟩ | ⟨g₁, ce, -, hce, -⟩
    · exact effect_of_quiet hq
    · exact absurd (hce.symm.trans h) (Option.some_ne_none ce)
  unfold enterConn
  extract_lets g₁ ote₁ n m ote₂ ote₃
  have hset : ∀ new : OtEntry, new.fileobj = ote.fileobj → new.connEntry = none →
      Effect S P g (g₁.setOte new) :=
    fun new hf hn => hc.trans (effect_setOte_none (hf ▸ hS) hn)
  split
  · exact hset ote₁ rfl h
  · split
    · exact hset ote₁ rfl h
    · split
      · exact hset ote₂ rfl h
      · have hl : (g₁.setOte ote₃).lookup ote₃.fileobj = some ote₃ := by
          rw [lookup_setOte, if_pos rfl]
        exact (hset ote₃ rfl h).trans
          (effect_addTcpConn _ ote₃ (by decide : InRange tcpStateSynRcvd) hS (owner_of_lookup hl))

/-- What is left when the object still owns an entry: the entry is queued, the object
keeps it, and the new connection is refused. -/
structure Refused (g : Globals) (fo : FileObj) (ce : Nat) (e : NtStatus × Globals) : Prop where
  status : e.1 ≠ statusSuccess
  entry : ∃ ote, e.2.lookup fo = some ote ∧ ote.connEntry = some ce
  marks : ce ∈ (view g).live → ∃ m,
    Moves tcpStateClosed (fun _ => False) (fun _ => False) (Effects.marks g) m ∧
    m.1.owner fo = some ce ∧ Effects.marks e.2 = push tcpStateClosed m ce
  known : ∀ W, Known W g → ∃ W', (∀ c, W c → W' c) ∧ Known W' e.2

theorem enterConn_refused {ce : Nat} (hf : ote.fileobj = fo) (hce : ote.connEntry = some ce)
    (ho : (view g).owner fo = some ce) (rule : FltRule) (r : AcceptReads) :
    Refused g fo ce (enterConn env g ote rule r) := by
  obtain ⟨g₀, hq, hclear⟩ : ∃ g₀, Quiet g g₀ ∧ clearEntries g ote = delTcpConnObj g₀ ce := by
    rcases clearEntries_cases g ote with ⟨hn, -⟩ | ⟨g₀, ce', hq, hce', heq⟩
    · exact absurd (hce.symm.trans hn) (Option.some_ne_none ce)
    · obtain rfl := Option.some.inj (hce.symm.trans hce')
      exact ⟨g₀, hq, heq⟩
  have hmarks₀ : Effects.marks g₀ = Effects.marks g := marks_congr hq.view hq.states
  unfold enterConn
  rw [hclear]
  extract_lets g₁ ote₁ n m ote₂ ote₃
  have hown₁ : (view g₁).owner fo = some ce := by
    show (view g₀).owner fo = some ce
    rw [hq.view]
    exact ho
  have hmarks₁ : Effects.marks g₁ = push tcpStateClosed (Effects.marks g) ce := by
    rw [← hmarks₀]
    exact Prod.ext (view_delTcpConnObj g₀ ce) (states_delTcpConnObj g₀ ce)
  have hknown₁ : ∀ W, Known W g → Known W g₁ :=
    fun W hW => (hW.of_quiet hq).delTcpConnObj (hW.owned fo ce ho)
  clear_value g₁
  have hset : ∀ new : OtEntry, new.fileobj = fo → new.connEntry = some ce →
      (g₁.setOte new).lookup fo = some new ∧
        Effects.marks (g₁.setOte new) = push tcpStateClosed (Effects.marks g) ce ∧
        ∀ W, Known W g → Known W (g₁.setOte new) := by
    intro new hnf hnce
    have hon : (view g₁).owner new.fileobj = new.connEntry := by rw [hnf, hnce, hown₁]
    refine ⟨by rw [lookup_setOte, if_pos hnf.symm], ?_, fun W hW => (hknown₁ W hW).setOte ?_⟩
    · rw [← hmarks₁]
      refine marks_congr ?_ rfl
      rw [view_setOte, ← hon, Function.update_eq_self]
    · intro c hc
      exact (hknown₁ W hW).owned fo c (by rw [← hc, hnce, hown₁])
  have hfail : ∀ (status : NtStatus) (new : OtEntry), status ≠ statusSuccess →
      new.fileobj = fo → new.connEntry = some ce → Refused g fo ce (status, g₁.setOte new) := by
    intro status new hs hnf hnce
    obtain ⟨hl, hm, hk⟩ := hset new hnf hnce
    exact ⟨hs, ⟨new, hl, hnce⟩, fun _ => ⟨_, .refl, ho, hm⟩,
      fun W hW => ⟨W, fun _ hc => hc, hk W hW⟩⟩
  split
  · exact hfail _ ote₁ (by decide) hf hce
  · split
    · exact hfail _ ote₁ (by decide) hf hce
    · split
      · exact hfail _ ote₂ (by decide) hf hce
      · obtain ⟨hl, hm, hk⟩ := hset ote₃ hf hce
        obtain ⟨hs, hot, hadd⟩ := @addTcpConn_occupied env ote₃ (g₁.setOte ote₃) ce tcpStateSynRcvd hce
        refine ⟨hs, ⟨ote₃, ?_, hce⟩, fun hlive => ?_, fun W hW => ?_⟩
        · rw [Globals.lookup, hot]
          exact hl
        · rcases hadd with hadd | ⟨c, hc, hadd⟩
          · exact ⟨_, .refl, ho, hadd.trans hm⟩
          · have hv : view (g₁.setOte ote₃) = (push tcpStateClosed (Effects.marks g) ce).1 :=
              congrArg Prod.fst hm
            have hst : states (g₁.setOte ote₃) = (push tcpStateClosed (Effects.marks g) ce).2 :=
              congrArg Prod.snd hm
            rw [hv] at hc
            have hne : c ≠ ce := fun he => hc (he ▸ hlive)
            refine ⟨_, .single (.write (Effects.marks g) c none tcpStateSynRcvd hc), ho, ?_⟩
            rw [hadd, hv, hst]
            exact (push_write (Effects.marks g) hne none tcpStateSynRcvd).symm
        · exact (hk W hW).addTcpConn ote₃ (by decide : InRange tcpStateSynRcvd)

/-- The object's entry is queued twice, and the object loses it. -/
structure Doubled (S : FileObj → Prop) (g g' : Globals) : Prop where
  marks : Held tcpStateClosed (marks g) → ∃ m fo ce, S fo ∧
    Moves tcpStateClosed S (fun _ => False) (Effects.marks g) m ∧ m.1.owner fo = some ce ∧
      Effects.marks g' = requeue tcpStateClosed m fo ce
  known : ∀ W, Known W g → ∃ W', (∀ c, W c → W' c) ∧ Known W' g'

/-- The jump to the end after a refusal. -/
theorem doubled_of_refused {ce : Nat} {e : NtStatus × Globals} {g₀ : Globals} (hS : S fo)
    (h₀ : Effect S (fun _ => False) g₀ g) (ho : (view g).owner fo = some ce) (he : Refused g fo ce e)
    (l : EventLocals) (hl : l.result ≠ filterAllow) :
    Doubled S g₀ (eventConnectDone e.2 l (some fo)).2 := by
  obtain ⟨ote, hote, hce⟩ := he.entry
  obtain ⟨g₁, hq, hot, heq⟩ := eventConnectDone_logged e.2 l (some fo)
  have hlookup : g₁.lookup fo = some ote := by
    rw [← hote, Globals.lookup, hot]
    rfl
  have hdone : (eventConnectDone e.2 l (some fo)).2 =
      (delTcpConnObj g₁ ce).setOte { ote with connEntry := none } := by
    rw [heq, if_pos hl, Option.bind_some, hlookup]
    simp only [hce]
  rw [hdone]
  refine ⟨fun hheld => ?_, fun W hW => ?_⟩
  · have hlive : ce ∈ (view g).live := Held.live (Moves.held h₀.moves hheld) ho
    obtain ⟨m, hm, hown, hpush⟩ := he.marks hlive
    have hmS : Moves tcpStateClosed S (fun _ => False) (Effects.marks g₀) m :=
      h₀.moves.trans (Moves.mono hm (fun _ hf => hf.elim) fun _ hf => hf)
    refine ⟨m, fo, ce, hS, hmS, hown, ?_⟩
    have h₁ : Effects.marks g₁ = push tcpStateClosed m ce :=
      (marks_congr hq.view hq.states).trans hpush
    rw [requeue_eq, ← h₁]
    refine Prod.ext ?_ (states_delTcpConnObj g₁ ce)
    show view (Globals.setOte _ _) = _
    rw [view_setOte_forget rfl, view_delTcpConnObj]
    show View.forget _ ote.fileobj = _
    rw [fileobj_of_lookup hote]
    rfl
  · obtain ⟨W₁, hle₁, hW₁⟩ := h₀.known W hW
    have hce₁ : W₁ ce := hW₁.owned fo ce ho
    obtain ⟨W₂, hle₂, hW₂⟩ := he.known W₁ hW₁
    refine ⟨W₂, fun c hc => hle₂ c (hle₁ c hc), ?_⟩
    exact ((hW₂.of_quiet hq).delTcpConnObj (hle₂ ce hce₁)).setOte
      fun c hc => absurd hc.symm (Option.some_ne_none c)

/-- The second part of the indication acts on the object of the accept request. -/
theorem eventConnectAccept_cases (g : Globals) (l : EventLocals) (reply : HandlerReply)
    (r : AcceptReads) (hS : ∀ fo, reply.acceptIrp = some fo → S fo) :
    Effect S P g (eventConnectAccept env g l reply r).2 ∨
      Reuses g reply r ∧ Doubled S g (eventConnectAccept env g l reply r).2 := by
  unfold eventConnectAccept
  extract_lets fail
  have hfail : ∀ g' status connobj, (∀ fo, connobj = some fo → S fo) → Effect S P g g' →
      Effect S P g (fail g' status connobj).2 :=
    fun g' status connobj hS hg' => hg'.trans (effect_eventConnectDone g' _ hS)
  have hnone : ∀ fo, none = some fo → S fo := fun fo hf => absurd hf.symm (Option.some_ne_none fo)
  split
  · exact Or.inl (hfail g _ _ hnone (Effect.refl S P g))
  · rename_i connobj hirp
    have hself : ∀ fo, some connobj = some fo → S fo := fun fo hf => hS fo (hirp.trans hf)
    split
    · exact Or.inl (hfail g _ _ hnone (Effect.refl S P g))
    · rename_i hmore
      split
      · exact Or.inl (hfail g _ _ hnone (Effect.refl S P g))
      · rename_i hparam
        split
        · exact Or.inl (hfail g _ _ hnone (Effect.refl S P g))
        · rename_i ote hfind
          split
          · exact Or.inl (hfail g _ _ hself (Effect.refl S P g))
          · rename_i hassoc
            extract_lets c e
            have hc : CtxChanged g connobj ote reply.connCtx r.grantCtx c :=
              changeConnCtx_spec (lookup_of_find hfind) reply.connCtx r.grantCtx
            split
            · exact Or.inl (hfail c.2.2 _ _ hself (hc.effect S P))
            · rename_i hsuccess
              cases hce : c.2.1.connEntry with
              | none =>
                have he : Effect S P g e.2 :=
                  (hc.effect S P).trans (effect_enterConn c.2.2 hce _ _ (hc.fileobj ▸ hself _ rfl))
                split
                · exact Or.inl (hfail e.2 _ _ hself he)
                · exact Or.inl (he.trans (effect_eventConnectDone e.2 _ hself))
              | some ce =>
                have ho : (view c.2.2).owner connobj = some ce := hc.owner.trans hce
                have he : Refused c.2.2 connobj ce e := enterConn_refused hc.fileobj hce ho l.rule r
                rw [if_pos he.status]
                refine Or.inr ⟨⟨not_not.mp hmore, by simpa using hparam, connobj, ote, hirp, hfind,
                  not_not.mp hassoc, hc.success.mp (not_not.mp hsuccess), ?_⟩, ?_⟩
                · rw [← hc.entry, hce]
                  exact Option.some_ne_none ce
                · exact doubled_of_refused (hself _ rfl) (hc.effect S _) ho he _
                    (show filterDeny ≠ filterAllow by decide)

/-! ## One step -/

/-- The object whose connection entry an event may touch. -/
def actor (g : Globals) : Event → Option FileObj
  | .create c _ => some c.fileobj
  | .createComplete _ fileobj _ _ => some fileobj
  | .cleanup fileobj => some fileobj
  | .connect c _ _ => some c.fileobj
  | .connectComplete connobj _ _ => some connobj
  | .disconnect connobj _ _ => some connobj
  | .disconnectComplete connobj _ _ => some connobj
  | .accept _ reply _ => reply.acceptIrp
  | .acceptComplete connobj _ => some connobj
  | .eventDisconnect addrobj connCtx _ => some (otFindConnCtx g addrobj connCtx)
  | _ => none

/-- The object of the event, as a set. -/
def Acts (g : Globals) (e : Event) (fo : FileObj) : Prop := actor g e = some fo

/-- The states that an event may record for the connection of its object. -/
def Records : Event → Int → Prop
  | .connectComplete _ status _, s => status = statusSuccess ∧ s = tcpStateEstablishedOut
  | .acceptComplete _ status, s => status = statusSuccess ∧ s = tcpStateEstablishedIn
  | .disconnectComplete _ _ _, s => s = tcpStateFinWait2
  | .eventDisconnect _ _ release, s =>
      release = true ∧ (s = tcpStateCloseWait ∨ s = tcpStateTimeWait)
  | _, _ => False

theorem effect_of_result {g₁ : Globals} {o o₁ : Output} (h : some (g₁, o₁) = some (g', o))
    (he : Effect S P g g₁) : Effect S P g g' := by
  obtain ⟨rfl, -⟩ := Prod.mk.inj (Option.some.inj h)
  exact he

/-- All but three kinds of events act on one object at most. -/
theorem step_cases {e : Event} {o : Output} (h : step env g e = some (g', o)) :
    Effect (Acts g e) (Records e) g g' ∨
      (∃ connobj release garbage, e = .disconnect connobj release garbage ∧
        g' = (tdiDisconnect g connobj release garbage).2) ∨
      (∃ l reply r, e = .accept l reply r ∧ Reuses g reply r ∧ Doubled (Acts g e) g g') ∨
      ∃ stop t, e = .sweep stop ∧ connThread env g stop = some (g', t) := by
  cases e with
  | disconnect connobj release garbage =>
    exact Or.inr (Or.inl ⟨connobj, release, garbage, rfl, (Prod.mk.inj (Option.some.inj h)).1.symm⟩)
  | accept l reply r =>
    obtain ⟨rfl, -⟩ := Prod.mk.inj (Option.some.inj h)
    rcases eventConnectAccept_cases g l reply r (fun _ hf => hf) with he | ⟨hr, hd⟩
    · exact Or.inl he
    · exact Or.inr (Or.inr (Or.inl ⟨l, reply, r, rfl, hr, hd⟩))
  | sweep stop =>
    obtain ⟨⟨g₁, t⟩, hr, hq⟩ := Option.map_eq_some_iff.mp h
    obtain ⟨rfl, -⟩ := Prod.mk.inj hq
    exact Or.inr (Or.inr (Or.inr ⟨stop, t, rfl, hr⟩))
  | send d pid =>
    obtain ⟨hd, hs, hq⟩ := Option.map_eq_some_iff.mp h
    obtain ⟨rfl, -⟩ := Prod.mk.inj hq
    exact Or.inl (effect_of_quiet (quiet_tdiSendDatagram hs))
  | create c oc => exact Or.inl (effect_of_result h (effect_tdiCreate g c oc rfl))
  | createComplete devobj fileobj status q =>
    exact Or.inl (effect_of_result h (effect_tdiCreateAddrobjComplete g devobj status q rfl))
  | createComplete2 fileobj addr =>
    exact Or.inl (effect_of_result h (effect_of_quiet (quiet_tdiCreateAddrobjComplete2 g fileobj addr)))
  | cleanup fileobj => exact Or.inl (effect_of_result h (effect_otDelFileobj g rfl))
  | associate connobj addrobj grantCtx =>
    exact Or.inl (effect_of_result h (effect_tdiAssociateAddress g connobj addrobj grantCtx))
  | disassociate connobj =>
    exact Or.inl (effect_of_result h (effect_tdiDisassociateAddress g connobj))
  | connect c pid grantCopy =>
    exact Or.inl (effect_of_result h (effect_tdiConnect g c pid grantCopy rfl))
  | connectComplete connobj status request =>
    exact Or.inl (effect_of_result h (effect_tdiConnectComplete g status request rfl fun hs => ⟨hs, rfl⟩))
  | updateConnInfoComplete connobj addr =>
    exact Or.inl (effect_of_result h (effect_setTcpConnLocal g connobj addr))
  | disconnectComplete connobj status state =>
    exact Or.inl (effect_of_result h (effect_tdiDisconnectComplete g status state rfl rfl))
  | eventConnect i rule status =>
    exact Or.inl (effect_of_result h (effect_eventConnectFilter g i rule status))
  | acceptComplete connobj status =>
    exact Or.inl (effect_of_result h (effect_evconnAcceptComplete g status rfl fun hs => ⟨hs, rfl⟩))
  | eventDisconnect addrobj connCtx release =>
    exact Or.inl (effect_of_result h (effect_tdiEventDisconnect g addrobj connCtx release rfl
      fun hr => ⟨⟨hr, Or.inl rfl⟩, ⟨hr, Or.inr rfl⟩⟩))
  | receiveComplete r =>
    exact Or.inl (effect_of_result h (effect_of_quiet (quiet_tdiReceiveDatagramComplete g r)))
  | eventReceive addrobj remoteAddr n handler =>
    exact Or.inl (effect_of_result h
      (effect_of_quiet (quiet_tdiEventReceiveDatagram g addrobj remoteAddr n handler)))
  | processNotify pid create =>
    exact Or.inl (effect_of_result h (effect_of_quiet ⟨⟨rfl, rfl, rfl⟩, rfl, rfl⟩))
  | tick n => exact Or.inl (effect_of_result h (effect_of_quiet ⟨⟨rfl, rfl, rfl⟩, rfl, rfl⟩))

end AdFilter.Tdi.HandlerEffects
