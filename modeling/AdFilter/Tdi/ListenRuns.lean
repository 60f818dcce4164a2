import AdFilter.Tdi.ListenTable
import AdFilter.Tdi.Primitives

/-!
# The listen table over runs

Whatever comes to the layer and in whatever order, the listen table holds one entry for
every address object that listens and none besides, each in its bucket, so `is_listen`
and `is_bcast_listen` tell which addresses are listened on.
-/

namespace AdFilter.Tdi.ListenRuns

open AdFilter.Lib
open AdFilter.Lib.Pool
open AdFilter.Lib.Runs
open AdFilter.Nt
open AdFilter.Tdi.Ipc
open AdFilter.Tdi.Objects
open AdFilter.Tdi.ConnState
open AdFilter.Tdi.Connections (tdiDisconnect)
open AdFilter.Tdi.ObjTbl
open AdFilter.Tdi.Machine
open AdFilter.Tdi.EventHandlers
open AdFilter.Tdi.CloseRuns (ipAddress)
open AdFilter.Driver.Represent (blankAdf)
open AdFilter.Tdi.Views
open AdFilter.Tdi.Tables
open AdFilter.Tdi.Primitives
open AdFilter.Tdi.ListenTable

/-- The memory of the listen entries, the buckets and the pool. -/
def listens (g : Globals) : (Nat → ListenEntry) × (Nat → Option Nat) × Ledger Nat :=
  (g.listen, g.listenHash, g.listenPool)

def listeners (g : Globals) (fo : FileObj) : Option Listener := (g.lookup fo).bind listener

/-- The entry says what it has been made from. -/
structure Describes (e : ListenEntry) (fo : FileObj) (l : Listener) : Prop where
  addrobj : e.addrobj = fo
  ipproto : e.ipproto = l.ipproto
  addr : e.addr = l.addr
  port : e.port = l.port

/-- What every step keeps. -/
structure Listening (g : Globals) : Prop where
  filed : ∃ rows, Filed g rows
  owned : ∀ fo l, listeners g fo = some l →
    l.entry ∈ g.listenPool.live ∧ l.type = .addrobj ∧ Describes (g.listen l.entry) fo l
  held : ∀ le ∈ g.listenPool.live,
    ∃ l, listeners g (g.listen le).addrobj = some l ∧ l.entry = le
  freed : g.listenPool.badFree = false

/-- The listen entries and what they have been made from are as they were. -/
structure Idle (g g' : Globals) : Prop where
  listens : listens g' = listens g
  listeners : listeners g' = listeners g

variable {env : Env} {g g₁ g₂ g' : Globals} {ote : OtEntry} {fo : FileObj}

theorem Idle.trans (h₁ : Idle g g₁) (h₂ : Idle g₁ g₂) : Idle g g₂ :=
  ⟨h₂.listens.trans h₁.listens, h₂.listeners.trans h₁.listeners⟩

theorem listeners_congr (h : tables g' = tables g) : listeners g' = listeners g := by
  funext fo
  rw [listeners, listeners, lookup_congr h]

theorem idle_of_tables (ht : tables g' = tables g) (hl : listens g' = listens g) : Idle g g' :=
  ⟨hl, listeners_congr ht⟩

theorem listeners_of_lookup (h : g.lookup fo = some ote) : listeners g fo = listener ote := by
  rw [listeners, h, Option.bind_some]

theorem listeners_setOte (g : Globals) (new : OtEntry) :
    listeners (g.setOte new) = Function.update (listeners g) new.fileobj (listener new) := by
  funext fo
  rw [listeners, lookup_setOte, Function.update_apply]
  split <;> rfl

theorem idle_setOte {new : OtEntry} (h : listeners g new.fileobj = listener new) :
    Idle g (g.setOte new) := by
  refine ⟨rfl, ?_⟩
  rw [listeners_setOte, ← h, Function.update_eq_self]

/-- Entries that are not live may be written over. -/
theorem Listening.of_same (hg : Listening g)
    (hlisten : ∀ le ∈ g.listenPool.live, g'.listen le = g.listen le)
    (hhash : g'.listenHash = g.listenHash) (hlive : g'.listenPool.live = g.listenPool.live)
    (hfreed : g'.listenPool.badFree = g.listenPool.badFree) (ho : listeners g' = listeners g) :
    Listening g' := by
  obtain ⟨rows, hr⟩ := hg.filed
  refine ⟨⟨rows, ?_, hlive ▸ hr.nodup⟩, ?_, ?_, hfreed.trans hg.freed⟩
  · apply hr.table.congr
    · exact hhash
    · exact fun le hle => congrArg ListenEntry.next (hlisten le hle)
    · exact fun le hle => congrArg ListenEntry.prev (hlisten le hle)
    · exact fun le => by rw [hlive]
    · exact fun le hle => congrArg ListenEntry.hash (hlisten le hle)
  · intro fo l h
    rw [ho] at h
    obtain ⟨hl, htype, hdesc⟩ := hg.owned fo l h
    rw [hlive, hlisten l.entry hl]
    exact ⟨hl, htype, hdesc⟩
  · intro le hle
    rw [hlive] at hle
    rw [ho, hlisten le hle]
    exact hg.held le hle

theorem Listening.of_idle (hg : Listening g) (h : Idle g g') : Listening g' := by
  obtain ⟨hlisten, hrest⟩ := Prod.mk.inj h.listens
  obtain ⟨hhash, hpool⟩ := Prod.mk.inj hrest
  refine hg.of_same (fun le _ => ?_) hhash ?_ ?_ h.listeners
  · rw [hlisten]
  · rw [hpool]
  · rw [hpool]

/-! ## The calls for connections -/

theorem listens_setConnAt (g : Globals) (p : Option Nat) (f : ConnEntry → ConnEntry) :
    listens (g.setConnAt p f) = listens g := by
  cases p <;> rfl

theorem listens_linkConn (g : Globals) (ce : Nat) : listens (linkConn g ce) = listens g :=
  listens_setConnAt _ _ _

theorem tables_linkConn (g : Globals) (ce : Nat) : tables (linkConn g ce) = tables g :=
  tables_setConnAt _ _ _

theorem listens_unlinkConn (g : Globals) (ce : Nat) : listens (unlinkConn g ce) = listens g := by
  refine (listens_setConnAt _ _ _).trans ?_
  cases (g.conn ce).prev <;> rfl

theorem idle_addTcpConn (h : g.lookup ote.fileobj = some ote) (state : Int) :
    Idle g (addTcpConn env g ote state).2 := by
  unfold addTcpConn
  split
  · exact idle_of_tables rfl rfl
  · split
    · exact idle_of_tables rfl rfl
    · rename_i ce pool _
      extract_lets g₁ g₂
      have h₂ : Idle g g₂ := idle_of_tables rfl rfl
      have hl : g₂.lookup ote.fileobj = some ote := h
      clear_value g₂
      split
      · exact h₂.trans (idle_of_tables rfl rfl)
      · have hset : Idle g₂ (g₂.setOte { ote with connEntry := some ce }) := by
          apply idle_setOte
          show listeners g₂ ote.fileobj = listener ote
          exact listeners_of_lookup hl
        exact h₂.trans (hset.trans (idle_of_tables (tables_linkConn _ _) (listens_linkConn _ _)))

theorem idle_setTcpConnState (g : Globals) (fo : FileObj) (state : Int) :
    Idle g (setTcpConnState g fo state).2 := by
  refine idle_of_tables (tables_setTcpConnState g fo state) ?_
  unfold setTcpConnState
  split
  · rfl
  · split <;> rfl

theorem idle_setTcpConnLocal (g : Globals) (fo : FileObj) (addr : TaAddress) :
    Idle g (setTcpConnLocal g fo addr).2 := by
  unfold setTcpConnLocal
  split
  · exact idle_of_tables rfl rfl
  · split
    · rename_i ce _
      extract_lets g₁ g₂ g₃
      have h₁ : Idle g g₁ := idle_of_tables (tables_unlinkConn g ce) (listens_unlinkConn g ce)
      have h₃ : Idle g₂ g₃ := idle_of_tables (tables_linkConn g₂ ce) (listens_linkConn g₂ ce)
      exact h₁.trans ((idle_of_tables rfl rfl : Idle g₁ g₂).trans
        (h₃.trans (idle_of_tables rfl rfl)))
    · exact idle_of_tables rfl rfl

theorem idle_delTcpConn (g : Globals) (fo : FileObj) (isDisconnect : Bool) :
    Idle g (delTcpConn g fo isDisconnect) := by
  unfold delTcpConn
  split
  · exact idle_of_tables rfl rfl
  · rename_i ote hf
    extract_lets g₁ g₂
    have h₁ : Idle g g₁ := by
      apply idle_setOte
      show listeners g ote.fileobj = listener ote
      rw [fileobj_of_find hf]
      exact listeners_of_lookup (lookup_of_find hf)
    have h₂ : Idle g₁ g₂ := by
      simp only [g₂]
      split <;> exact idle_of_tables rfl rfl
    split
    · exact h₁.trans (h₂.trans (idle_of_tables rfl rfl))
    · exact h₁.trans h₂

theorem idle_takenOut (g : Globals) (prev : Option Nat) (ce : Nat) :
    Idle g (takenOut g prev ce) := by
  have h : ∀ g₁, Idle g g₁ →
      Idle g ((unlinkConn g₁ ce).setConnPool ((unlinkConn g₁ ce).connPool.free ce)) := by
    intro g₁ h₁
    refine h₁.trans (Idle.trans ?_ (idle_of_tables rfl rfl))
    exact idle_of_tables (tables_unlinkConn g₁ ce) (listens_unlinkConn g₁ ce)
  unfold takenOut unhooked
  cases prev <;> exact h _ (idle_of_tables rfl rfl)

theorem idle_connThread {stop : Bool} {t : Int} (h : connThread env g stop = some (g', t)) :
    Idle g g' := by
  refine sweepFrom_invariant (fun g₁ _ => Idle g g₁) ?_ (fun _ _ h₁ => h₁)
    (idle_of_tables rfl rfl) h
  exact fun g₁ prev ce h₁ => h₁.trans (idle_takenOut g₁ prev ce)

/-! ## Listen entries -/

/-- Two objects have not one entry. -/
theorem Listening.unique (hg : Listening g) {fo fo' : FileObj} {l l' : Listener}
    (h : listeners g fo = some l) (h' : listeners g fo' = some l') (he : l.entry = l'.entry) :
    fo = fo' := by
  have ho := (hg.owned fo l h).2.2.addrobj
  rw [he, (hg.owned fo' l' h').2.2.addrobj] at ho
  exact ho.symm

/-- The members of an entry are what its links and the bucket leave of it. -/
theorem describes_of_bare (h : bareListen g' = bareListen g) {le : Nat} {l : Listener}
    (hd : Describes (g.listen le) fo l) : Describes (g'.listen le) fo l := by
  have he : bareListen g' le = bareListen g le := by rw [h]
  simp only [bareListen, ListenEntry.mk.injEq] at he
  obtain ⟨-, -, hproto, haddr, hport, hobj⟩ := he
  exact ⟨hobj.trans hd.addrobj, hproto.trans hd.ipproto, haddr.trans hd.addr, hport.trans hd.port⟩

/-- The object's entry is taken out of the table and freed, and the object loses it. -/
theorem Listening.delListenObj (hg : Listening g) {l : Listener} (h : listeners g fo = some l)
    (hl : listens g' = listens (delListenObj g l.entry))
    (ho : listeners g' = Function.update (listeners g) fo none) : Listening g' := by
  obtain ⟨hlive, -, hdesc⟩ := hg.owned fo l h
  obtain ⟨rows, hr⟩ := hg.filed
  have hbare : bareListen (ConnState.delListenObj g l.entry) = bareListen g :=
    bareListen_unlinkListen g l.entry
  have hpool : (ConnState.delListenObj g l.entry).listenPool = g.listenPool.free l.entry :=
    congrArg (Ledger.free · l.entry) (listenPool_unlinkListen g l.entry)
  have hmem : ∀ le, le ∈ (ConnState.delListenObj g l.entry).listenPool.live ↔
      le ≠ l.entry ∧ le ∈ g.listenPool.live := by
    intro le
    rw [hpool, free_live hlive, hr.nodup.mem_erase_iff]
  have hkept : Listening { ConnState.delListenObj g l.entry with ot := g'.ot } := by
    have ho' : listeners { ConnState.delListenObj g l.entry with ot := g'.ot } =
        Function.update (listeners g) fo none := ho
    refine ⟨⟨_, (hr.delListenObj hlive).table, (hr.delListenObj hlive).nodup⟩, ?_, ?_, ?_⟩
    · intro fo' l' h'
      rw [ho', Function.update_apply] at h'
      split at h'
      · exact absurd h'.symm (Option.some_ne_none l')
      · rename_i hne
        obtain ⟨hlive', htype, hdesc'⟩ := hg.owned fo' l' h'
        have he : l'.entry ≠ l.entry := fun he => hne (hg.unique h' h he)
        exact ⟨(hmem _).mpr ⟨he, hlive'⟩, htype, describes_of_bare hbare hdesc'⟩
    · intro le hle
      obtain ⟨hne, hle⟩ := (hmem le).mp hle
      obtain ⟨l', h', rfl⟩ := hg.held le hle
      have hd := (hg.owned _ l' h').2.2
      have hobj : ((ConnState.delListenObj g l.entry).listen l'.entry).addrobj =
          (g.listen l'.entry).addrobj := (describes_of_bare hbare hd).addrobj
      refine ⟨l', ?_, rfl⟩
      show listeners { ConnState.delListenObj g l.entry with ot := g'.ot }
        ((ConnState.delListenObj g l.entry).listen l'.entry).addrobj = _
      rw [ho', hobj, Function.update_apply, if_neg, h']
      intro hfo
      rw [hfo, h] at h'
      exact hne (congrArg Listener.entry (Option.some.inj h')).symm
    · show (ConnState.delListenObj g l.entry).listenPool.badFree = false
      rw [hpool, free_live hlive]
      exact hg.freed
  exact hkept.of_idle ⟨hl, rfl⟩

/-- An object leaves the table, or its entry is cleared. -/
theorem Listening.delEntries (hg : Listening g) (h : g.lookup ote.fileobj = some ote)
    (hl : listens g' = listens (delEntries g ote))
    (ho : listeners g' = Function.update (listeners g) ote.fileobj none) : Listening g' := by
  have hlistener := listeners_of_lookup h
  cases hle : ote.listenEntry with
  | none =>
    have hdel : listens (ObjTbl.delEntries g ote) = listens g := by
      unfold ObjTbl.delEntries
      rw [hle]
      split
      · rename_i hsome
        exact absurd hsome.symm (Option.some_ne_none _)
      · simp only
        split <;> rfl
      · rfl
    refine hg.of_idle ⟨hl.trans hdel, ?_⟩
    rw [ho, ← listener_eq_none hle, ← hlistener, Function.update_eq_self]
  | some le =>
    have hsome : listeners g ote.fileobj = some ⟨le, ote.type, ote.ipproto, ote.localAddr.inAddr,
        ote.localAddr.sinPort⟩ := by
      rw [hlistener, listener, hle, Option.map_some]
    have htype : ote.type = .addrobj := (hg.owned _ _ hsome).2.1
    have hdel : ObjTbl.delEntries g ote = ConnState.delListenObj g le := by
      unfold ObjTbl.delEntries
      rw [htype, hle]
    exact hg.delListenObj hsome (hdel ▸ hl) ho

theorem listeners_eraseOte (g : Globals) (fo : FileObj) :
    listeners (g.eraseOte fo) = Function.update (listeners g) fo none := by
  funext fo'
  have hl : (g.eraseOte fo).lookup fo' = if fo' = fo then none else g.lookup fo' :=
    g.ot.find_erase fo fo'
  rw [listeners, hl, Function.update_apply]
  split <;> rfl

theorem Listening.unlisten (hg : Listening g) (h : g.lookup ote.fileobj = some ote) {le : Nat}
    (hle : ote.listenEntry = some le) :
    Listening ((ConnState.delListenObj g le).setOte { ote with listenEntry := none }) := by
  have hsome : listeners g ote.fileobj = some ⟨le, ote.type, ote.ipproto, ote.localAddr.inAddr,
      ote.localAddr.sinPort⟩ := by
    rw [listeners_of_lookup h, listener, hle, Option.map_some]
  refine hg.delListenObj hsome rfl ?_
  rw [listeners_setOte, listeners_congr (tables_delListenObj g le)]
  rfl

/-- The entry that `add_listen` makes for an object. -/
def newListen (ote : OtEntry) : ListenEntry where
  addrobj := ote.fileobj
  addr := ote.localAddr.inAddr
  port := ote.localAddr.sinPort
  ipproto := ote.ipproto

/-- The new entry is in its bucket, and the object has it. -/
theorem Listening.link (hg : Listening g) {le : Nat} (hfresh : le ∉ g.listenPool.live)
    (hentry : listeners g ote.fileobj = none) (ht : ote.type = .addrobj)
    (hnew : g'.listen le = newListen ote)
    (hold : ∀ l, l ≠ le → g'.listen l = g.listen l) (hhash : g'.listenHash = g.listenHash)
    (hlive : g'.listenPool.live = le :: g.listenPool.live)
    (hfreed : g'.listenPool.badFree = g.listenPool.badFree)
    (ho : listeners g' = Function.update (listeners g) ote.fileobj
      (some ⟨le, ote.type, ote.ipproto, ote.localAddr.inAddr, ote.localAddr.sinPort⟩)) :
    Listening (linkListen g' le) := by
  obtain ⟨rows, hr⟩ := hg.filed
  have hbare : bareListen (linkListen g' le) = bareListen g' := bareListen_linkListen g' le
  have hpool := listenPool_linkListen g' le
  have hlisteners : listeners (linkListen g' le) = listeners g' :=
    listeners_congr (tables_linkListen g' le)
  have hconn : ∀ l, g'.listen l = (g.setListen le fun _ => newListen ote).listen l := by
    intro l
    rw [listen_setListen]
    split
    · rename_i hl
      rw [hl, hnew]
    · rename_i hl
      exact hold l hl
  refine ⟨?_, ?_, ?_, ?_⟩
  · refine (hr.setListen_dead hfresh fun _ => newListen ote).linkListen hfresh ?_ ?_ ?_ hlive
    · have htable : ∀ g₁ g₂ : Globals, g₁.listenHash = g₂.listenHash →
          (∀ l, g₁.listen l = g₂.listen l) → listenTable g₁ = listenTable g₂ := by
        intro g₁ g₂ hh hl
        unfold listenTable
        simp only [hh, hl]
      exact htable _ _ hhash hconn
    · exact fun l => by rw [hconn]
    · rw [hnew]
      rfl
  · intro fo l hl
    rw [hlisteners, ho, Function.update_apply] at hl
    rw [hpool, hlive]
    split at hl
    · rename_i hfo
      obtain rfl := Option.some.inj hl
      refine ⟨List.mem_cons_self, ht, describes_of_bare hbare ?_⟩
      rw [hnew, hfo]
      exact ⟨rfl, rfl, rfl, rfl⟩
    · obtain ⟨hmem, htype, hdesc⟩ := hg.owned fo l hl
      refine ⟨List.mem_cons_of_mem le hmem, htype, describes_of_bare hbare ?_⟩
      rw [hold l.entry (ne_of_mem_of_not_mem hmem hfresh)]
      exact hdesc
  · intro l hl
    rw [hpool, hlive] at hl
    have hobj : ((linkListen g' le).listen l).addrobj = (g'.listen l).addrobj :=
      congrArg (fun f => (f l).addrobj) hbare
    rw [hlisteners, ho, hobj]
    rcases List.mem_cons.mp hl with hle | hl
    · rw [hle, hnew]
      exact ⟨_, Function.update_self .., rfl⟩
    · obtain ⟨l', h', rfl⟩ := hg.held l hl
      rw [hold _ (ne_of_mem_of_not_mem hl hfresh)]
      refine ⟨l', ?_, rfl⟩
      rw [Function.update_apply, if_neg, h']
      intro hfo
      rw [hfo, hentry] at h'
      exact Option.some_ne_none l' h'.symm
  · rw [hpool, hfreed, hg.freed]

/-- The object gets an entry of its own unless it is refused. -/
theorem Listening.addListen (hg : Listening g) (h : g.lookup ote.fileobj = some ote)
    (ht : ote.type = .addrobj) : Listening (addListen env g ote).2 := by
  unfold ConnState.addListen
  split
  · exact hg
  · cases hgr : env.listenAlloc.grants g.listenPool.calls with
    | false =>
      rw [alloc_denied hgr]
      exact hg.of_same (fun _ _ => rfl) rfl rfl rfl rfl
    | true =>
      rw [alloc_granted hgr]
      have hfresh := pick_notMem_live env.listenAlloc g.listenPool
      generalize env.listenAlloc.pick (g.listenPool.fixed ++ g.listenPool.live) = le at hfresh ⊢
      generalize hpool : Ledger.mk g.listenPool.fixed (le :: g.listenPool.live)
        (g.listenPool.calls + 1) g.listenPool.badFree = pool
      have hlive : pool.live = le :: g.listenPool.live := hpool ▸ rfl
      have hfreed : pool.badFree = g.listenPool.badFree := hpool ▸ rfl
      have hold : ∀ l, l ≠ le →
          ((g.setListenPool pool).setListen le fun _ => newListen ote).listen l = g.listen l := by
        intro l hl
        rw [listen_setListen, if_neg hl]
        rfl
      cases hentry : ote.listenEntry with
      | some old =>
        -- the new block goes back to the pool
        have hfree : pool.free le = { pool with live := g.listenPool.live } := by
          rw [free_live (hlive ▸ List.mem_cons_self), hlive, List.erase_cons_head]
        refine hg.of_same (fun l hl => hold l (ne_of_mem_of_not_mem hl hfresh)) rfl ?_ ?_ rfl
        · show (pool.free le).live = _
          rw [hfree]
        · show (pool.free le).badFree = _
          rw [hfree, hfreed]
      | none =>
        have hnone : listeners g ote.fileobj = none :=
          (listeners_of_lookup h).trans (listener_eq_none hentry)
        refine hg.link hfresh hnone ht ?_ hold rfl hlive hfreed ?_
        · show ((g.setListenPool pool).setListen le fun _ => newListen ote).listen le = _
          rw [listen_setListen, if_pos rfl]
        · exact listeners_setOte _ _

/-! ## Every run -/

theorem listening_primitive (hg : Listening g) (h : Primitive env g g') : Listening g' := by
  cases h with
  | aside h =>
    refine hg.of_idle ⟨?_, ?_⟩
    · rw [listens, listens, h.listen, h.listenHash, h.listenPool]
    · funext fo
      rw [listeners, listeners, h.lookup]
  | members h hc hl => exact hg.of_idle (idle_setOte ((listeners_of_lookup h).trans hl.symm))
  | enter h hc hl =>
    refine hg.of_idle (idle_setOte ?_)
    rw [listeners, h, listener_eq_none hl]
    rfl
  | cleanup h =>
    refine hg.delEntries h rfl ?_
    rw [otCleanupOte, listeners_setOte, listeners_congr (tables_delEntries g _)]
    rfl
  | leave h =>
    refine hg.delEntries h rfl ?_
    rw [listeners_eraseOte, listeners_congr (tables_delEntries g _)]
  | listen h ht => exact hg.addListen h ht
  | unlisten h hl => exact hg.unlisten h hl
  | addConn h hs => exact hg.of_idle (idle_addTcpConn (lookup_of_find h) _)
  | setState hs => exact hg.of_idle (idle_setTcpConnState g _ _)
  | setLocal => exact hg.of_idle (idle_setTcpConnLocal g _ _)
  | delConn => exact hg.of_idle (idle_delTcpConn g _ _)
  | refuse h hc =>
    have hkept := idle_setOte (listeners_of_lookup h)
    refine hg.of_idle ⟨rfl, ?_⟩
    rw [← hkept.listeners, listeners_setOte, listeners_setOte]
    rfl
  | sweep h => exact hg.of_idle (idle_connThread h)

theorem listening_initial (h : Initial g) : Listening g := by
  have hnone : ∀ fo, listeners g fo = none := by
    intro fo
    simp [listeners, Globals.lookup, h.ot]
  have hlive := h.listenPool.1
  refine ⟨⟨fun _ => [], ?_, ?_⟩, fun fo l hl => ?_, fun le hle => ?_, h.listenPool.2⟩
  · apply Lib.Buckets.Table.exact_empty
    · exact congrFun h.listenHash
    · intro le
      rw [hlive]
      exact List.not_mem_nil
  · rw [hlive]
    exact List.nodup_nil
  · exact absurd ((hnone fo).symm.trans hl) (Option.some_ne_none l).symm
  · rw [hlive] at hle
    exact absurd hle List.not_mem_nil

theorem idle_tdiDisconnect (g : Globals) (fo : FileObj) (release : Bool) (garbage : Int) :
    Idle g (tdiDisconnect g fo release garbage).2 := by
  unfold tdiDisconnect
  split <;> exact idle_setTcpConnState g fo _

theorem listening_act {a : Act} {o : Output} (hg : Listening g) (ho : Placed g a)
    (h : act env g a = some (g', o)) : Listening g' := by
  by_cases hd : ∃ connobj garbage, a = .event (.disconnect connobj true garbage)
  · -- whatever state the disconnect leads to, it is not one of a listen entry
    obtain ⟨connobj, garbage, rfl⟩ := hd
    obtain ⟨rfl, -⟩ := Prod.mk.inj (Option.some.inj h)
    exact hg.of_idle (idle_tdiDisconnect g connobj true garbage)
  · have horderly : Orderly g a := ⟨ho, fun connobj garbage he => absurd ⟨connobj, garbage, he⟩ hd⟩
    exact (steps_act horderly h).invariant hg fun _ _ => listening_primitive

/-- An address object of the table listens on this address and port. -/
def Listens (g : Globals) (addr : UInt32) (port : UInt16) (ipproto : Nat) : Prop :=
  ∃ fo ote, g.lookup fo = some ote ∧ ote.type = .addrobj ∧ ote.listenEntry ≠ none ∧
    ote.localAddr.inAddr = addr ∧ ote.localAddr.sinPort = port ∧ ote.ipproto = ipproto

/-- Both searches are right, and every entry belongs to one object. -/
structure ListenExact (g : Globals) : Prop where
  isListen : ∀ n addr port ipproto, g.listenPool.live.length ≤ n →
    ∃ b, isListen g n addr port ipproto = some b ∧ (b = true ↔ Listens g addr port ipproto)
  isBcastListen : ∀ n addr port ipproto, g.listenPool.live.length ≤ n →
    ∃ b, isBcastListen g n addr port ipproto = some b ∧
      (b = true ↔ ∃ addrL, Listens g addrL port ipproto ∧ ntohl addrL ||| ntohl addr = ntohl addr)
  owner : ∀ le, le ∈ g.listenPool.live ↔
    ∃ fo ote, g.lookup fo = some ote ∧ ote.listenEntry = some le
  unique : ∀ fo fo' ote ote' le, g.lookup fo = some ote → g.lookup fo' = some ote' →
    ote.listenEntry = some le → ote'.listenEntry = some le → fo = fo'
  freed : g.listenPool.badFree = false

theorem Listening.listens_iff (hg : Listening g) (addr : UInt32) (port : UInt16) (ipproto : Nat) :
    (∃ le ∈ g.listenPool.live, (g.listen le).addr = addr ∧ (g.listen le).port = port ∧
      (g.listen le).ipproto = ipproto) ↔ Listens g addr port ipproto := by
  constructor
  · intro h
    obtain ⟨le, hle, haddr, hport, hproto⟩ := h
    obtain ⟨l, hl, rfl⟩ := hg.held le hle
    obtain ⟨-, htype, hd⟩ := hg.owned _ l hl
    obtain ⟨ote, hote, hlistener⟩ := Option.bind_eq_some_iff.mp hl
    obtain ⟨le, hentry, rfl⟩ := Option.map_eq_some_iff.mp hlistener
    refine ⟨_, ote, hote, htype, ?_, hd.addr.symm.trans haddr, hd.port.symm.trans hport,
      hd.ipproto.symm.trans hproto⟩
    rw [hentry]
    exact Option.some_ne_none le
  · intro h
    obtain ⟨fo, ote, hote, -, hentry, haddr, hport, hproto⟩ := h
    obtain ⟨le, hle⟩ := Option.ne_none_iff_exists'.mp hentry
    have hl : listeners g fo = some ⟨le, ote.type, ote.ipproto, ote.localAddr.inAddr,
        ote.localAddr.sinPort⟩ := by
      rw [listeners_of_lookup hote, listener, hle, Option.map_some]
    obtain ⟨hlive, -, hd⟩ := hg.owned fo _ hl
    exact ⟨le, hlive, hd.addr.trans haddr, hd.port.trans hport, hd.ipproto.trans hproto⟩

theorem Listening.listenExact (hg : Listening g) : ListenExact g := by
  obtain ⟨rows, hr⟩ := hg.filed
  have hsome : ∀ fo ote le, g.lookup fo = some ote → ote.listenEntry = some le →
      ∃ l, listeners g fo = some l ∧ l.entry = le := by
    intro fo ote le hl hle
    rw [listeners_of_lookup hl, listener, hle]
    exact ⟨_, rfl, rfl⟩
  refine ⟨fun n addr port ipproto hn => ?_, fun n addr port ipproto hn => ?_, fun le => ?_, ?_,
    hg.freed⟩
  · refine ⟨_, hr.search hn _ fun e he => ?_, ?_⟩
    · simp only [decide_eq_true_eq] at he
      rw [ListenEntry.hash, he.1, he.2.2]
    · rw [decide_eq_true_iff, ← hg.listens_iff]
      refine exists_congr fun le => and_congr_right fun _ => ?_
      rw [decide_eq_true_iff]
      tauto
  · refine ⟨_, hr.search hn _ fun e he => ?_, ?_⟩
    · simp only [Bool.and_eq_true, decide_eq_true_eq] at he
      rw [ListenEntry.hash, he.1.1, he.1.2]
    · rw [decide_eq_true_iff]
      simp only [← hg.listens_iff, Bool.and_eq_true, decide_eq_true_eq, coversBelow_eq_or]
      constructor
      · intro h
        obtain ⟨le, hle, ⟨hproto, hport⟩, hcover⟩ := h
        exact ⟨_, ⟨le, hle, rfl, hport, hproto⟩, hcover⟩
      · intro h
        obtain ⟨addrL, ⟨le, hle, rfl, hport, hproto⟩, hcover⟩ := h
        exact ⟨le, hle, ⟨hproto, hport⟩, hcover⟩
  · constructor
    · intro hle
      obtain ⟨l, hl, rfl⟩ := hg.held le hle
      obtain ⟨ote, hote, hlistener⟩ := Option.bind_eq_some_iff.mp hl
      obtain ⟨le, hentry, rfl⟩ := Option.map_eq_some_iff.mp hlistener
      exact ⟨_, ote, hote, hentry⟩
    · intro h
      obtain ⟨fo, ote, hote, hentry⟩ := h
      obtain ⟨l, hl, rfl⟩ := hsome fo ote le hote hentry
      exact (hg.owned fo l hl).1
  · intro fo fo' ote ote' le hote hote' hentry hentry'
    obtain ⟨l, hl, rfl⟩ := hsome fo ote le hote hentry
    obtain ⟨l', hl', he⟩ := hsome fo' ote' l.entry hote' hentry'
    exact hg.unique hl hl' he.symm

theorem reached_listenExact (h : Reached (act env) Placed Initial g) : ListenExact g :=
  Listening.listenExact <|
    reached_invariant Listening (fun _ => listening_initial)
      (fun _ _ _ _ hg ho hs => listening_act hg ho hs) h

/-- A datagram socket is opened and closed, and a server starts to listen. -/
def serverStarts : List Act :=
  [.event (.create ⟨.udp, 32, .transportAddress, 4⟩ ⟨.known, true, true⟩),
    .event (.createComplete2 32 (ipAddress 53 1)),
    .event (.create ⟨.tcp, 64, .transportAddress, 4⟩ ⟨.known, true, true⟩),
    .event (.createComplete2 64 (ipAddress 80 1)),
    .setHandler (fun _ _ => {}) ⟨64, TdiEvent.connect, some (.client 1), some (.client 10)⟩ 4,
    .event (.cleanup 32)]

theorem meets_serverStarts :
    Meets (act (freeBuild fun _ _ => none)) Placed (blank blankAdf) serverStarts := by
  refine ⟨trivial, fun r hr => ?_⟩
  obtain rfl := Option.some.inj hr
  refine ⟨?_, fun r hr => ?_⟩
  · intro ote h
    obtain rfl := Option.some.inj h
    exact ⟨rfl, rfl⟩
  obtain rfl := Option.some.inj hr
  refine ⟨trivial, fun r hr => ?_⟩
  obtain rfl := Option.some.inj hr
  refine ⟨?_, fun r hr => ?_⟩
  · intro ote h
    obtain rfl := Option.some.inj h
    exact ⟨rfl, rfl⟩
  obtain rfl := Option.some.inj hr
  refine ⟨?_, fun r hr => ?_⟩
  · intro ote h
    obtain rfl := Option.some.inj h
    rfl
  obtain rfl := Option.some.inj hr
  exact ⟨trivial, fun _ _ => trivial⟩

theorem reached_listenExact_server :
    ∃ g os, run (act (freeBuild fun _ _ => none)) (blank blankAdf) serverStarts = some (g, os) ∧
      isListen g 1 0x0100000a 0x5000 ipprotoTcp = some true ∧
      isListen g 1 0x0100000a 0x3500 ipprotoUdp = some false ∧ ListenExact g := by
  obtain ⟨g, os, hr, htcp, hudp⟩ : ∃ g os, run (act (freeBuild fun _ _ => none)) (blank blankAdf)
      serverStarts = some (g, os) ∧ isListen g 1 0x0100000a 0x5000 ipprotoTcp = some true ∧
        isListen g 1 0x0100000a 0x3500 ipprotoUdp = some false :=
    ⟨_, _, rfl, by decide +kernel, by decide +kernel⟩
  exact ⟨g, os, hr, htcp, hudp, reached_listenExact ⟨_, _, os, initial_blank blankAdf,
    meets_serverStarts, hr⟩⟩

end AdFilter.Tdi.ListenRuns
