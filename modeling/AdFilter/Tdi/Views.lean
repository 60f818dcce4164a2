import AdFilter.Lib.SecondaryIndex
import AdFilter.Tdi.Machine
import AdFilter.Tdi.Tables

/-!
# Three views of the globals

Who owns which connection entry and what waits on the closing queue, the states of
the entries, and the names of the connection objects with the index over them. A
step is quiet when it leaves all three and the connection table alone, and most of
what a handler does is.
-/

namespace AdFilter.Tdi.Views

open AdFilter.Lib
open AdFilter.Lib.Pool (Ledger)
open AdFilter.Nt
open AdFilter.Tdi.Ipc
open AdFilter.Tdi.Objects
open AdFilter.Tdi.ConnState
open AdFilter.Tdi.ObjTbl
open AdFilter.Tdi.Datagrams
open AdFilter.Tdi.Connections
open AdFilter.Tdi.Creation
open AdFilter.Tdi.Tables

/-- Who owns which connection entry, and which entries wait on the chain. -/
def view (g : Globals) : Reclaim.View FileObj Nat where
  owner fo := (g.lookup fo).bind OtEntry.connEntry
  head := g.connToDel
  next c := (g.conn c).nextToDel
  live := g.connPool.live

def states (g : Globals) : Nat → Int := fun ce => (g.conn ce).state

/-- The address object and the context of a connection object. -/
def connName (ote : OtEntry) : Option (FileObj × Nat) :=
  if ote.type = .connobj then some (ote.associatedFileobj, ote.connCtx) else none

/-- The names of the connection objects, and the index of `ot_find_conn_ctx`. -/
def naming (g : Globals) : SecondaryIndex.View FileObj (FileObj × Nat) where
  name fo := (g.otFindFileobj fo).bind connName
  idx key := (g.cte.find key).map CtxEntry.connobj

/-- The step moves entries in the connection table, and does nothing else to the views. -/
structure Relinks (g g' : Globals) : Prop where
  view : view g' = view g
  states : states g' = states g
  naming : naming g' = naming g

structure Quiet (g g' : Globals) : Prop extends Relinks g g' where
  conn : g'.conn = g.conn
  connHash : g'.connHash = g.connHash

variable {env : Env} {g g₁ g₂ g' : Globals} {ote : OtEntry} {fo : FileObj}

theorem Relinks.refl (g : Globals) : Relinks g g := ⟨rfl, rfl, rfl⟩

theorem Relinks.trans (h₁ : Relinks g g₁) (h₂ : Relinks g₁ g₂) : Relinks g g₂ :=
  ⟨h₂.view.trans h₁.view, h₂.states.trans h₁.states, h₂.naming.trans h₁.naming⟩

theorem Quiet.refl (g : Globals) : Quiet g g := ⟨Relinks.refl g, rfl, rfl⟩

theorem Quiet.trans (h₁ : Quiet g g₁) (h₂ : Quiet g₁ g₂) : Quiet g g₂ :=
  ⟨h₁.toRelinks.trans h₂.toRelinks, h₂.conn.trans h₁.conn, h₂.connHash.trans h₁.connHash⟩

theorem owner_of_lookup (h : g.lookup fo = some ote) : (view g).owner fo = ote.connEntry := by
  show (g.lookup fo).bind OtEntry.connEntry = ote.connEntry
  rw [h]
  rfl

theorem name_of_find (h : g.otFindFileobj fo = some ote) : (naming g).name fo = connName ote := by
  show (g.otFindFileobj fo).bind connName = connName ote
  rw [h]
  rfl

theorem naming_of_tables (h : tables g' = tables g) : naming g' = naming g := by
  have hname : (naming g').name = (naming g).name := by
    funext fo
    show (g'.otFindFileobj fo).bind connName = (g.otFindFileobj fo).bind connName
    rw [otFindFileobj_congr h]
  have hidx : (naming g').idx = (naming g).idx := by
    show (fun key => (g'.cte.find key).map CtxEntry.connobj) = _
    rw [(Prod.mk.inj h).2]
    rfl
  exact SecondaryIndex.View.ext hname hidx

/-! ## Writes -/

theorem quiet_logRequest (g : Globals) (r : FltRequest) : Quiet g (g.logRequest r) :=
  ⟨⟨rfl, rfl, rfl⟩, rfl, rfl⟩

theorem quiet_setListen (g : Globals) (le : Nat) (f : ListenEntry → ListenEntry) :
    Quiet g (g.setListen le f) := ⟨⟨rfl, rfl, rfl⟩, rfl, rfl⟩

theorem quiet_setListenAt (g : Globals) (p : Option Nat) (f : ListenEntry → ListenEntry) :
    Quiet g (g.setListenAt p f) := by
  cases p <;> exact ⟨⟨rfl, rfl, rfl⟩, rfl, rfl⟩

theorem quiet_setListenHash (g : Globals) (hash : Nat) (p : Option Nat) :
    Quiet g (g.setListenHash hash p) := ⟨⟨rfl, rfl, rfl⟩, rfl, rfl⟩

theorem quiet_setListenPool (g : Globals) (pool : Ledger Nat) : Quiet g (g.setListenPool pool) :=
  ⟨⟨rfl, rfl, rfl⟩, rfl, rfl⟩

theorem relinks_setConnHash (g : Globals) (hash : Nat) (p : Option Nat) :
    Relinks g (g.setConnHash hash p) := ⟨rfl, rfl, rfl⟩

theorem view_setConn (g : Globals) (ce : Nat) (f : ConnEntry → ConnEntry) :
    view (g.setConn ce f) =
      { view g with next := Function.update (view g).next ce (f (g.conn ce)).nextToDel } := by
  have hnext : (view (g.setConn ce f)).next =
      Function.update (view g).next ce (f (g.conn ce)).nextToDel := by
    funext c
    by_cases hc : c = ce
    · subst hc
      simp [view, Globals.setConn]
    · simp [view, Globals.setConn, hc]
  rw [← hnext]
  rfl

theorem states_setConn (g : Globals) (ce : Nat) (f : ConnEntry → ConnEntry) :
    states (g.setConn ce f) = Function.update (states g) ce (f (g.conn ce)).state := by
  funext c
  by_cases hc : c = ce
  · subst hc
    simp [states, Globals.setConn]
  · simp [states, Globals.setConn, hc]

/-- A write to a connection entry that leaves its place in the queue. -/
theorem view_setConn_of_same {ce : Nat} {f : ConnEntry → ConnEntry}
    (hn : ∀ e, (f e).nextToDel = e.nextToDel) : view (g.setConn ce f) = view g := by
  have hself : Function.update (view g).next ce (g.conn ce).nextToDel = (view g).next :=
    Function.update_eq_self ce (view g).next
  rw [view_setConn, hn, hself]

/-- A write that leaves its state too. -/
theorem relinks_setConn {ce : Nat} {f : ConnEntry → ConnEntry}
    (hn : ∀ e, (f e).nextToDel = e.nextToDel) (hs : ∀ e, (f e).state = e.state) :
    Relinks g (g.setConn ce f) := by
  refine ⟨view_setConn_of_same hn, ?_, rfl⟩
  rw [states_setConn, hs]
  exact Function.update_eq_self ce (states g)

theorem relinks_setConnAt {p : Option Nat} {f : ConnEntry → ConnEntry}
    (hn : ∀ e, (f e).nextToDel = e.nextToDel) (hs : ∀ e, (f e).state = e.state) :
    Relinks g (g.setConnAt p f) := by
  cases p with
  | none => exact Relinks.refl g
  | some ce => exact relinks_setConn hn hs

theorem view_setConnToDel (g : Globals) (p : Option Nat) :
    view (g.setConnToDel p) = { view g with head := p } := rfl

theorem view_setConnPool (g : Globals) (pool : Ledger Nat) :
    view (g.setConnPool pool) = { view g with live := pool.live } := rfl

theorem view_setOte (g : Globals) (ote : OtEntry) :
    view (g.setOte ote) =
      { view g with owner := Function.update (view g).owner ote.fileobj ote.connEntry } := by
  have howner : (view (g.setOte ote)).owner =
      Function.update (view g).owner ote.fileobj ote.connEntry := by
    funext fo
    show ((g.setOte ote).lookup fo).bind OtEntry.connEntry = _
    rw [Function.update_apply, lookup_setOte]
    split <;> rfl
  rw [← howner]
  rfl

/-- A write that leaves the connection entry alone. -/
theorem view_setOte_of_same {new : OtEntry} (h : g.lookup fo = some ote) (hf : new.fileobj = fo)
    (hc : new.connEntry = ote.connEntry) : view (g.setOte new) = view g := by
  rw [view_setOte, hf, hc, ← owner_of_lookup h, Function.update_eq_self]

theorem view_setOte_forget {new : OtEntry} (hc : new.connEntry = none) :
    view (g.setOte new) = (view g).forget new.fileobj := by
  rw [view_setOte, hc]
  rfl

theorem view_eraseOte (g : Globals) (fo : FileObj) : view (g.eraseOte fo) = (view g).forget fo := by
  have howner : (view (g.eraseOte fo)).owner = Function.update (view g).owner fo none := by
    funext fo'
    show (((g.ot).erase fo).find fo').bind OtEntry.connEntry = _
    rw [Function.update_apply, Chained.Map.find_erase]
    split <;> rfl
  rw [Reclaim.View.forget, ← howner]
  rfl

theorem naming_setOte {new : OtEntry} (h : new.fileobj ≠ 0) :
    naming (g.setOte new) = (naming g).rename new.fileobj (connName new) := by
  have hname : (naming (g.setOte new)).name =
      Function.update (naming g).name new.fileobj (connName new) := by
    funext fo
    show ((g.setOte new).otFindFileobj fo).bind connName = _
    rw [Function.update_apply, otFindFileobj_setOte h]
    split <;> rfl
  exact SecondaryIndex.View.ext hname rfl

theorem naming_eraseOte (g : Globals) (fo : FileObj) :
    naming (g.eraseOte fo) = (naming g).rename fo none := by
  have hname : (naming (g.eraseOte fo)).name = Function.update (naming g).name fo none := by
    funext fo'
    show ((g.eraseOte fo).otFindFileobj fo').bind connName = _
    rw [Function.update_apply, otFindFileobj_eraseOte]
    split <;> rfl
  exact SecondaryIndex.View.ext hname rfl

/-- A write that leaves the name alone. -/
theorem naming_setOte_of_same {new : OtEntry} (h : g.lookup fo = some ote) (hf : new.fileobj = fo)
    (hn : connName new = connName ote) : naming (g.setOte new) = naming g := by
  by_cases h0 : fo = 0
  · -- a write under NULL is never found
    have hname : (naming (g.setOte new)).name = (naming g).name := by
      funext k
      show ((g.setOte new).otFindFileobj k).bind connName = (g.otFindFileobj k).bind connName
      unfold Globals.otFindFileobj
      by_cases hk : k = 0
      · simp [hk]
      · have hne : k ≠ new.fileobj := by rw [hf, h0]; exact hk
        rw [if_neg hk, if_neg hk, lookup_setOte, if_neg hne]
    exact SecondaryIndex.View.ext hname rfl
  · have hfind : g.otFindFileobj fo = some ote := by rw [Globals.otFindFileobj, if_neg h0, h]
    rw [naming_setOte (by rw [hf]; exact h0), hf, hn, ← name_of_find hfind]
    exact SecondaryIndex.View.ext (Function.update_eq_self fo (naming g).name) rfl

theorem quiet_setOte {new : OtEntry} (h : g.lookup fo = some ote) (hf : new.fileobj = fo)
    (hc : new.connEntry = ote.connEntry) (hn : connName new = connName ote) :
    Quiet g (g.setOte new) :=
  ⟨⟨view_setOte_of_same h hf hc, rfl, naming_setOte_of_same h hf hn⟩, rfl, rfl⟩

/-! ## Listen and connection entries -/

theorem quiet_linkListen (g : Globals) (le : Nat) : Quiet g (linkListen g le) :=
  (quiet_setListen g le _).trans <|
    (quiet_setListenAt _ _ _).trans (quiet_setListenHash _ _ _)

theorem quiet_delListenObj (g : Globals) (le : Nat) : Quiet g (delListenObj g le) := by
  unfold delListenObj
  extract_lets e g₁ e' g₂
  have h₁ : Quiet g g₁ := by
    simp only [g₁]
    split
    · exact quiet_setListen g _ _
    · exact quiet_setListenHash g _ _
  exact h₁.trans ((quiet_setListenAt g₁ _ _).trans (quiet_setListenPool g₂ _))

theorem quiet_addListen (h : g.lookup fo = some ote) : Quiet g (addListen env g ote).2 := by
  unfold addListen
  split
  · exact Quiet.refl g
  · split
    · exact quiet_setListenPool g _
    · rename_i le pool _
      extract_lets g₁ g₂
      have h₂ : Quiet g g₂ := ⟨⟨rfl, rfl, rfl⟩, rfl, rfl⟩
      split
      · exact h₂.trans (quiet_setListenPool g₂ _)
      · have hl : g₂.lookup fo = some ote := h
        have hf := fileobj_of_lookup h
        refine h₂.trans (Quiet.trans ?_ (quiet_linkListen _ le))
        refine quiet_setOte hl ?_ rfl rfl
        exact hf

theorem relinks_linkConn (g : Globals) (ce : Nat) : Relinks g (linkConn g ce) := by
  refine Relinks.trans ?_ (relinks_setConnHash _ _ _)
  refine Relinks.trans (relinks_setConn ?_ ?_) (relinks_setConnAt ?_ ?_) <;> exact fun _ => rfl

theorem relinks_unlinkConn (g : Globals) (ce : Nat) : Relinks g (unlinkConn g ce) := by
  unfold unlinkConn
  extract_lets e g₁ e'
  have h₁ : Relinks g g₁ := by
    simp only [g₁]
    split
    · apply relinks_setConn <;> exact fun _ => rfl
    · exact relinks_setConnHash g _ _
  refine h₁.trans (relinks_setConnAt ?_ ?_) <;> exact fun _ => rfl

theorem relinks_setTcpConnLocal (g : Globals) (connobj : FileObj) (addr : TaAddress) :
    Relinks g (setTcpConnLocal g connobj addr).2 := by
  unfold setTcpConnLocal
  split
  · exact Relinks.refl g
  · split
    · rename_i ce _
      extract_lets g₁ g₂ g₃
      have h₁ : Relinks g g₁ := relinks_unlinkConn g ce
      have h₂ : Relinks g₁ g₂ := by apply relinks_setConn <;> exact fun _ => rfl
      have h₃ : Relinks g₂ g₃ := relinks_linkConn g₂ ce
      have h₄ : Relinks g₃ (g₃.setConn ce fun e => { e with prev := none }) := by
        apply relinks_setConn <;> exact fun _ => rfl
      exact h₁.trans (h₂.trans (h₃.trans h₄))
    · exact Relinks.refl g

theorem view_setTcpConnState (g : Globals) (connobj : FileObj) (state : Int) :
    view (setTcpConnState g connobj state).2 = view g := by
  unfold setTcpConnState
  split
  · rfl
  · split
    · exact view_setConn_of_same fun _ => rfl
    · rfl

theorem view_delTcpConnObj (g : Globals) (ce : Nat) :
    view (delTcpConnObj g ce) =
      { view g with
        head := some ce
        next := Function.update (view g).next ce (view g).head } := by
  rw [delTcpConnObj, view_setConnToDel, view_setConn]
  rfl

theorem states_delTcpConnObj (g : Globals) (ce : Nat) :
    states (delTcpConnObj g ce) = Function.update (states g) ce tcpStateClosed := by
  unfold delTcpConnObj
  extract_lets g₁
  show states g₁ = _
  rw [states_setConn]

/-! ## The index -/

theorem view_otAddConnCtx (g : Globals) (addrobj connCtx connobj : Nat) (granted : Bool) :
    view (otAddConnCtx g addrobj connCtx connobj granted).2 = view g ∧
      states (otAddConnCtx g addrobj connCtx connobj granted).2 = states g := by
  unfold otAddConnCtx
  split
  · split <;> exact ⟨rfl, rfl⟩
  · exact ⟨rfl, rfl⟩

theorem view_otDelConnCtx (g : Globals) (addrobj connCtx : Nat) :
    view (otDelConnCtx g addrobj connCtx).2 = view g ∧
      states (otDelConnCtx g addrobj connCtx).2 = states g := by
  unfold otDelConnCtx
  split <;> exact ⟨rfl, rfl⟩

/-! ## Handlers -/

theorem quiet_quickFilter (g : Globals) (r : FltRequest) : Quiet g (quickFilter g r).2 :=
  ⟨⟨rfl, rfl, rfl⟩, rfl, rfl⟩

theorem quiet_filterReceived (g : Globals) (r : FltRequest) (n : Nat) :
    Quiet g (filterReceived g r n).2 := by
  unfold filterReceived
  extract_lets rule f request g₁
  show Quiet g g₁
  simp only [g₁]
  split
  · exact (quiet_quickFilter g r).trans (quiet_logRequest _ _)
  · exact quiet_quickFilter g r

theorem quiet_tdiReceiveDatagramComplete (g : Globals) (r : Received) :
    Quiet g (tdiReceiveDatagramComplete g r).2 := by
  unfold tdiReceiveDatagramComplete
  split
  · exact Quiet.refl g
  · split
    · exact Quiet.refl g
    · split
      · exact Quiet.refl g
      · exact quiet_filterReceived g _ r.information

theorem quiet_tdiEventReceiveDatagram (g : Globals) (addrobj : FileObj) (remoteAddr : TaAddress)
    (n : Nat) (handler : NtStatus) :
    Quiet g (tdiEventReceiveDatagram g addrobj remoteAddr n handler).2 := by
  unfold tdiEventReceiveDatagram
  split
  · exact Quiet.refl g
  · split
    · exact Quiet.refl g
    · exact quiet_filterReceived g _ n

theorem quiet_tdiSendDatagram {d : Datagram} {pid : Nat} {h : Handled}
    (hs : tdiSendDatagram env g d pid = some h) : Quiet g h.after := by
  unfold tdiSendDatagram at hs
  simp only at hs
  split at hs
  · obtain rfl := Option.some.inj hs
    exact Quiet.refl g
  · split at hs
    · obtain rfl := Option.some.inj hs
      split <;> exact Quiet.refl g
    · obtain ⟨result, -, rfl⟩ := Option.map_eq_some_iff.mp hs
      have hq := quiet_quickFilter g
      split
      · split
        · exact (hq _).trans (quiet_logRequest _ _)
        · exact hq _
      · split
        · exact (hq _).trans (quiet_logRequest _ _)
        · exact hq _

theorem quiet_tdiCreateAddrobjComplete2 (g : Globals) (fileobj : FileObj) (addr : TaAddress) :
    Quiet g (tdiCreateAddrobjComplete2 env g fileobj addr) := by
  unfold tdiCreateAddrobjComplete2
  split
  · exact Quiet.refl g
  · rename_i ote hf
    have hl := lookup_of_find hf
    have hfo := fileobj_of_find hf
    split
    · exact Quiet.refl g
    · extract_lets ote' g₁
      have h₁ : Quiet g g₁ := quiet_setOte hl hfo rfl rfl
      have hl' : g₁.lookup fileobj = some ote' := by
        rw [lookup_setOte, if_pos hfo.symm]
      split
      · exact h₁.trans (quiet_addListen hl')
      · exact h₁

theorem quiet_logCopy (g : Globals) (request : Option FltRequest) : Quiet g (logCopy g request) := by
  cases request with
  | none => exact Quiet.refl g
  | some r => exact quiet_logRequest g r

/-! ## The sweep -/

/-- `ce` is off the queue, where `prev` is before it, and off its bucket. -/
def unhooked (g : Globals) (prev : Option Nat) (ce : Nat) : Globals :=
  let after := (g.conn ce).nextToDel
  let g :=
    match prev with
    | none => g.setConnToDel after
    | some p => g.setConn p fun e => { e with nextToDel := after }
  unlinkConn g ce

/-- `ce` is freed as well. -/
def takenOut (g : Globals) (prev : Option Nat) (ce : Nat) : Globals :=
  (unhooked g prev ce).setConnPool ((unhooked g prev ce).connPool.free ce)

/-- One round of the loop: an entry that is due is taken out, another one is passed. -/
theorem sweepFrom_some (env : Env) (ticks : Int) (stop : Bool) (n : Nat) (g : Globals)
    (prev : Option Nat) (ce : Nat) (timeout : Int) :
    sweepFrom env ticks stop (n + 1) g prev (some ce) timeout =
      let delta := int64 ((ticks - (g.conn ce).ticks) * env.timeIncrement)
      if maxClosedTime ≤ delta ∨ stop = true then
        sweepFrom env ticks stop n (takenOut g prev ce) prev ((takenOut g prev ce).conn ce).nextToDel
          timeout
      else
        let rest := int64 (maxClosedTime - delta)
        sweepFrom env ticks stop n g (some ce) (g.conn ce).nextToDel
          (if -timeout < rest ∨ timeout = 0 then -rest else timeout) :=
  rfl

/-- What both kinds of rounds keep holds when the loop ends. -/
theorem sweepFrom_invariant (I : Globals → Option Nat → Prop)
    (hout : ∀ g prev ce, I g (some ce) →
      I (takenOut g prev ce) ((takenOut g prev ce).conn ce).nextToDel)
    (hstay : ∀ g ce, I g (some ce) → I g (g.conn ce).nextToDel)
    {ticks : Int} {stop : Bool} {r : Globals × Int} :
    ∀ {n : Nat} {g : Globals} {prev p : Option Nat} {timeout : Int}, I g p →
      sweepFrom env ticks stop n g prev p timeout = some r → I r.1 none := by
  intro n
  induction n with
  | zero =>
    intro g prev p timeout hg h
    cases p with
    | none => exact (Prod.mk.inj (Option.some.inj h)).1 ▸ hg
    | some ce => exact absurd h.symm (Option.some_ne_none r)
  | succ n ih =>
    intro g prev p timeout hg h
    cases p with
    | none => exact (Prod.mk.inj (Option.some.inj h)).1 ▸ hg
    | some ce =>
      rw [sweepFrom_some] at h
      dsimp only at h
      split at h
      · exact ih (hout g prev ce hg) h
      · exact ih (hstay g ce hg) h

theorem view_unhooked (g : Globals) (prev : Option Nat) (ce : Nat) :
    view (unhooked g prev ce) = { (view g).release prev ce with live := (view g).live } := by
  unfold unhooked
  rw [(relinks_unlinkConn _ ce).view]
  cases prev with
  | none => rfl
  | some b =>
    dsimp only
    rw [view_setConn]
    rfl

theorem view_takenOut (prev : Option Nat) {ce : Nat} (h : ce ∈ g.connPool.live) :
    view (takenOut g prev ce) = (view g).release prev ce := by
  have hlive : (unhooked g prev ce).connPool.live = g.connPool.live :=
    congrArg Reclaim.View.live (view_unhooked g prev ce)
  rw [takenOut, view_setConnPool, view_unhooked, Pool.free_live (hlive ▸ h), hlive]
  cases prev <;> rfl

theorem states_takenOut (g : Globals) (prev : Option Nat) (ce : Nat) :
    states (takenOut g prev ce) = states g := by
  have h : states (unhooked g prev ce) = states g := by
    unfold unhooked
    rw [(relinks_unlinkConn _ ce).states]
    cases prev with
    | none => rfl
    | some b =>
      dsimp only
      rw [states_setConn]
      exact Function.update_eq_self b (states g)
  exact h

/-- The sweep looks at no owner and records no state. -/
theorem sweepFrom_kept {ticks : Int} {stop : Bool} {r : Globals × Int} {n : Nat} {prev p : Option Nat}
    {timeout : Int} (h : sweepFrom env ticks stop n g prev p timeout = some r) :
    (view r.1).owner = (view g).owner ∧ states r.1 = states g := by
  refine sweepFrom_invariant
    (fun g' _ => (view g').owner = (view g).owner ∧ states g' = states g) ?_ (fun _ _ hg => hg)
    ⟨rfl, rfl⟩ h
  intro g' prev ce hg
  have howner : (view (takenOut g' prev ce)).owner = (view g').owner := by
    show (view (unhooked g' prev ce)).owner = _
    rw [view_unhooked]
    cases prev <;> rfl
  exact ⟨howner.trans hg.1, (states_takenOut g' prev ce).trans hg.2⟩

end AdFilter.Tdi.Views
