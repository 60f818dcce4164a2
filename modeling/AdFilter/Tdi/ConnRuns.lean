import AdFilter.Tdi.Primitives

/-!
# The connection table over the runs of the layer

The calls of `conn_state.c` come from the handlers here, in any order that the objects
allow: every connection entry is in the bucket of its addresses, with a state that
`check_packet` knows.
-/

namespace AdFilter.Tdi.ConnRuns

open AdFilter.Lib.Buckets
open AdFilter.Lib.Reclaim
open AdFilter.Lib.Runs
open AdFilter.Nt
open AdFilter.Tdi.Ipc
open AdFilter.Tdi.Objects
open AdFilter.Tdi.ConnState
open AdFilter.Tdi.ObjTbl
open AdFilter.Tdi.Machine
open AdFilter.Tdi.Views
open AdFilter.Tdi.Effects
open AdFilter.Tdi.CloseRuns (Closing sound_initial)
open AdFilter.Tdi.ConnBuckets
open AdFilter.Tdi.ConnHash
open AdFilter.Tdi.Primitives

/-- What every step keeps. -/
structure Tracked (g : Globals) : Prop where
  hashed : ∃ rows, Hashed g rows
  closing : Closing g
  states : ∀ ce ∈ g.connPool.live, Recorded (g.conn ce).state

variable {env : Env} {g g' : Globals} {ote : OtEntry} {fo : FileObj}

theorem Tracked.invariant (hg : Tracked g) : ConnHash.Invariant g :=
  ⟨hg.hashed, hg.closing, fun ce hce => (hg.states ce hce).2⟩

/-- The entries stay where they are, and at most are closed. -/
theorem Tracked.of_kept (hg : Tracked g) (ht : connTable g' = connTable g)
    (hconn : ∀ ce, (g'.conn ce).hash = (g.conn ce).hash ∧
      ((g'.conn ce).state = tcpStateClosed ∨ (g'.conn ce).state = (g.conn ce).state))
    (hl : g'.connPool.live = g.connPool.live) (hc : Closing g') : Tracked g' := by
  obtain ⟨rows, hr⟩ := hg.hashed
  refine ⟨⟨rows, hr.of_same ht (fun ce => (hconn ce).1) hl⟩, hc, fun ce hce => ?_⟩
  rcases (hconn ce).2 with h | h
  · rw [h]
    decide
  · rw [h]
    exact hg.states ce (hl ▸ hce)

theorem Tracked.of_same (hg : Tracked g) (hconn : g'.conn = g.conn)
    (hhash : g'.connHash = g.connHash) (hv : view g' = view g) : Tracked g' := by
  refine hg.of_kept ?_ (fun ce => ?_) (congrArg View.live hv) ?_
  · unfold connTable
    rw [hconn, hhash]
  · rw [hconn]
    exact ⟨rfl, Or.inr rfl⟩
  · rw [Closing, hv]
    exact hg.closing

/-- What is done for an object that leaves, and what comes of its place in the table. -/
theorem Tracked.delEntries (hg : Tracked g) (h : g.lookup fo = some ote)
    (hconn : g'.conn = (delEntries g ote).conn) (hhash : g'.connHash = (delEntries g ote).connHash)
    (hv : view g' = (view (delEntries g ote)).forget fo) : Tracked g' := by
  have hc : Closing g' := by
    rcases delEntries_cases g ote with hq | ⟨g₁, ce, hq, hce, heq⟩
    · obtain ⟨cs, hs⟩ := hg.closing
      refine ⟨cs, ?_⟩
      rw [hv, hq.view]
      exact hs.forget fo
    · have ho : (view g₁).owner fo = some ce := by rw [hq.view, owner_of_lookup h, hce]
      obtain ⟨cs, hs⟩ := hg.closing
      refine ⟨ce :: cs, ?_⟩
      rw [hv, heq, view_delTcpConnObj]
      rw [← hq.view] at hs
      exact hs.retire ho
  have hkept : connTable (ObjTbl.delEntries g ote) = connTable g ∧ ∀ ce,
      ((ObjTbl.delEntries g ote).conn ce).hash = (g.conn ce).hash ∧
        (((ObjTbl.delEntries g ote).conn ce).state = tcpStateClosed ∨
          ((ObjTbl.delEntries g ote).conn ce).state = (g.conn ce).state) := by
    rcases delEntries_cases g ote with hq | ⟨g₁, ce, hq, -, heq⟩
    · refine ⟨?_, fun c => ?_⟩
      · unfold connTable
        rw [hq.conn, hq.connHash]
      · rw [hq.conn]
        exact ⟨rfl, Or.inr rfl⟩
    · rw [heq]
      obtain ⟨ht, hstate⟩ := delTcpConnObj_stays g₁ ce
      refine ⟨ht.trans ?_, fun c => ?_⟩
      · unfold connTable
        rw [hq.conn, hq.connHash]
      · rw [← hq.conn]
        exact hstate c
  refine hg.of_kept ?_ (fun ce => ?_) ?_ hc
  · refine Eq.trans ?_ hkept.1
    unfold connTable
    rw [hconn, hhash]
  · rw [hconn]
    exact hkept.2 ce
  · rcases delEntries_cases g ote with hq | ⟨g₁, ce, hq, -, heq⟩
    · exact (congrArg View.live hv).trans (congrArg View.live hq.view)
    · refine (congrArg View.live hv).trans ?_
      rw [heq]
      exact congrArg View.live hq.view

theorem Tracked.refuse (hg : Tracked g) (h : g.lookup ote.fileobj = some ote) {ce : Nat}
    (hc : ote.connEntry = some ce) :
    Tracked ((delTcpConnObj g ce).setOte { ote with connEntry := none }) := by
  obtain ⟨ht, hconn⟩ := delTcpConnObj_stays g ce
  refine hg.of_kept ht hconn rfl ?_
  have ho : (view g).owner ote.fileobj = some ce := by rw [owner_of_lookup h, hc]
  obtain ⟨cs, hs⟩ := hg.closing
  refine ⟨ce :: cs, ?_⟩
  rw [view_setOte_forget rfl, view_delTcpConnObj]
  exact hs.retire ho

theorem Tracked.addTcpConn (hg : Tracked g) (h : g.otFindFileobj fo = some ote) {state : Int}
    (hs : Recorded state) : Tracked (addTcpConn env g ote state).2 := by
  obtain ⟨rows, hr⟩ := hg.hashed
  have hi : ConnHash.Invariant (ConnState.addTcpConn env g ote state).2 :=
    hg.invariant.addTcpConn h hs.2
  refine ⟨hi.hashed, hi.closing, fun ce hce => ?_⟩
  rcases (addTcpConn_enters env hr ote state).2 ce hce with hnew | ⟨hold, hsame⟩
  · rw [hnew]
    exact hs
  · rw [hsame]
    exact hg.states ce hold

theorem Tracked.setTcpConnState (hg : Tracked g) {state : Int}
    (hs : (∃ ote, g.otFindFileobj fo = some ote ∧ ote.connEntry ≠ none) → Recorded state) :
    Tracked (setTcpConnState g fo state).2 := by
  by_cases he : ∃ ote, g.otFindFileobj fo = some ote ∧ ote.connEntry ≠ none
  · have hi := hg.invariant.setTcpConnState fo (hs he).2
    refine ⟨hi.hashed, hi.closing, ?_⟩
    unfold ConnState.setTcpConnState
    split
    · exact hg.states
    · split
      · intro ce hce
        dsimp only
        rw [conn_setConn]
        split
        · exact hs he
        · exact hg.states ce hce
      · exact hg.states
  · have hsame : (ConnState.setTcpConnState g fo state).2 = g := by
      unfold ConnState.setTcpConnState
      split
      · rfl
      · rename_i ote hf
        split
        · rename_i ce hce
          exact absurd ⟨ote, hf, hce ▸ Option.some_ne_none ce⟩ he
        · rfl
    rw [hsame]
    exact hg

theorem Tracked.setTcpConnLocal (hg : Tracked g) (fo : FileObj) (addr : TaAddress) :
    Tracked (setTcpConnLocal g fo addr).2 := by
  have hi := hg.invariant.setTcpConnLocal fo addr
  have hrel := relinks_setTcpConnLocal g fo addr
  refine ⟨hi.hashed, hi.closing, fun ce hce => ?_⟩
  rw [show ((ConnState.setTcpConnLocal g fo addr).2.conn ce).state = _ from
    congrFun hrel.states ce]
  have hlive : (ConnState.setTcpConnLocal g fo addr).2.connPool.live = g.connPool.live :=
    congrArg View.live hrel.view
  exact hg.states ce (hlive ▸ hce)

theorem Tracked.delTcpConn (hg : Tracked g) (fo : FileObj) (isDisconnect : Bool) :
    Tracked (delTcpConn g fo isDisconnect) := by
  have hc : Closing (ConnState.delTcpConn g fo isDisconnect) :=
    (hg.invariant.delTcpConn fo isDisconnect).closing
  revert hc
  unfold ConnState.delTcpConn
  split
  · exact fun _ => hg
  · rename_i ote _
    extract_lets g₁ g₂
    have h₂ : connTable g₂ = connTable g ∧ g₂.conn = g.conn ∧
        g₂.connPool.live = g.connPool.live := by
      simp only [g₂]
      split <;> exact ⟨rfl, rfl, rfl⟩
    clear_value g₂
    obtain ⟨ht, hconn, hl⟩ := h₂
    cases ote.connEntry with
    | none =>
      refine hg.of_kept ht (fun ce => ?_) hl
      rw [hconn]
      exact ⟨rfl, Or.inr rfl⟩
    | some ce =>
      obtain ⟨ht', hconn'⟩ := delTcpConnObj_stays g₂ ce
      refine hg.of_kept (ht'.trans ht) (fun c => ?_) hl
      rw [← hconn]
      exact hconn' c

theorem Tracked.connThread (hg : Tracked g) {stop : Bool} {t : Int}
    (h : connThread env g stop = some (g', t)) : Tracked g' := by
  obtain ⟨g₁, t₁, hrun, hi⟩ := hg.invariant.sweep env stop
  obtain ⟨rfl, -⟩ := Prod.mk.inj (Option.some.inj (hrun.symm.trans h))
  have hlive : ∀ ce ∈ g₁.connPool.live, ce ∈ g.connPool.live := by
    refine sweepFrom_invariant (fun g' _ => ∀ ce ∈ g'.connPool.live, ce ∈ g.connPool.live) ?_
      (fun _ _ hsub => hsub) (fun _ hce => hce) h
    intro g' prev ce hsub c hc
    have hview : (unhooked g' prev ce).connPool.live = g'.connPool.live :=
      congrArg View.live (view_unhooked g' prev ce)
    have hc : c ∈ ((unhooked g' prev ce).connPool.free ce).live := hc
    unfold Lib.Pool.Ledger.free at hc
    split at hc
    · exact hsub c (hview ▸ List.mem_of_mem_erase hc)
    · exact hsub c (hview ▸ hc)
  refine ⟨hi.hashed, hi.closing, fun ce hce => ?_⟩
  rw [show (g₁.conn ce).state = _ from congrFun (sweepFrom_kept h).2 ce]
  exact hg.states ce (hlive ce hce)

theorem tracked_primitive (hg : Tracked g) (h : Primitive env g g') : Tracked g' := by
  cases h with
  | aside h =>
    refine hg.of_same h.conn h.connHash ?_
    have hview : ∀ g₁ g₂ : Globals, g₁.ot = g₂.ot → g₁.conn = g₂.conn →
        g₁.connToDel = g₂.connToDel → g₁.connPool = g₂.connPool → view g₁ = view g₂ := by
      intro g₁ g₂ hot hconn hdel hpool
      unfold view Globals.lookup
      rw [hot, hconn, hdel, hpool]
    exact hview _ _ h.ot h.conn h.connToDel h.connPool
  | members h hc hl => exact hg.of_same rfl rfl (view_setOte_of_same h rfl hc)
  | enter h hc hl =>
    refine hg.of_same rfl rfl ?_
    rw [view_setOte, hc]
    have ho : (view g).owner _ = none := (congrArg (Option.bind · OtEntry.connEntry) h :)
    rw [← ho, Function.update_eq_self]
  | cleanup h =>
    refine hg.delEntries h rfl rfl ?_
    rw [otCleanupOte, view_setOte_forget rfl]
  | leave h => exact hg.delEntries h rfl rfl (view_eraseOte _ _)
  | @listen ote h ht =>
    have hq : Quiet g (addListen env g ote).2 := quiet_addListen h
    exact hg.of_same hq.conn hq.connHash hq.view
  | @unlisten ote le h hl =>
    have hq : Quiet g (delListenObj g le) := quiet_delListenObj g le
    have hkept : (delListenObj g le).lookup ote.fileobj = some ote := by
      rw [Tables.lookup_congr (Tables.tables_delListenObj g le), h]
    refine hg.of_same hq.conn hq.connHash (Eq.trans ?_ hq.view)
    exact view_setOte_of_same hkept rfl rfl
  | addConn h hs => exact hg.addTcpConn h hs
  | setState hs => exact hg.setTcpConnState hs
  | setLocal => exact hg.setTcpConnLocal _ _
  | delConn => exact hg.delTcpConn _ _
  | refuse h hc => exact hg.refuse h hc
  | sweep h => exact hg.connThread h

theorem tracked_initial (h : Initial g) : Tracked g := by
  have hi : ConnHash.Invariant g := by
    refine invariant_empty ⟨h.connHash, h.connToDel, h.connPool.1, fun fo ote hl => ?_⟩
    simp [Globals.lookup, h.ot] at hl
  refine ⟨hi.hashed, hi.closing, fun ce hce => ?_⟩
  rw [h.connPool.1] at hce
  exact absurd hce List.not_mem_nil

theorem tracked_act {a : Act} {o : Output} (hg : Tracked g) (ho : Orderly g a)
    (h : act env g a = some (g', o)) : Tracked g' :=
  (steps_act ho h).invariant hg fun _ _ => tracked_primitive

end AdFilter.Tdi.ConnRuns
