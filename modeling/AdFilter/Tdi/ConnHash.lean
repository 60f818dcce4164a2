import AdFilter.Tdi.Sweep
import AdFilter.Tdi.TcpStates

/-!
# The connection hash over runs

`add_tcp_conn`, `set_tcp_conn_state`, `set_tcp_conn_local`, `del_tcp_conn` and the sweeps
of `conn_thread` in any order, over objects whose addresses change at will. Every entry
stays in the bucket of its addresses until it is freed, and a look-up finds it there.
-/

namespace AdFilter.Tdi.ConnHash

open AdFilter.Driver.Represent (blankAdf)
open AdFilter.Lib.Buckets
open AdFilter.Lib.Linked
open AdFilter.Lib.Pool
open AdFilter.Lib.Reclaim
open AdFilter.Lib.Runs
open AdFilter.Nt
open AdFilter.Tdi.Ipc
open AdFilter.Tdi.Objects
open AdFilter.Tdi.ConnState
open AdFilter.Tdi.Machine (blank freeBuild)
open AdFilter.Tdi.Views
open AdFilter.Tdi.Effects
open AdFilter.Tdi.CloseRuns
open AdFilter.Tdi.TcpStates (findConn getTcpConnState)
open AdFilter.Tdi.ConnBuckets
open AdFilter.Tdi.Sweep

inductive Op
  /-- An object comes into the table, or members other than its connection entry change. -/
  | object (ote : OtEntry)
  | add (connobj : FileObj) (tcpState : Int)
  | setState (connobj : FileObj) (state : Int)
  | setLocal (connobj : FileObj) (addr : TaAddress)
  | del (connobj : FileObj) (isDisconnect : Bool)
  | sweep (stop : Bool)
  | tick (n : Nat)

/-- The state after the call and the status that it gives back, if it has one. -/
def step (env : Env) (g : Globals) : Op → Option (Globals × Option NtStatus)
  | .object ote => some (g.setOte ote, none)
  | .add connobj tcpState =>
      match g.otFindFileobj connobj with
      | none => some (g, none)
      | some ote =>
          let r := addTcpConn env g ote tcpState
          some (r.2, some r.1)
  | .setState connobj state =>
      let r := setTcpConnState g connobj state
      some (r.2, some r.1)
  | .setLocal connobj addr =>
      let r := setTcpConnLocal g connobj addr
      some (r.2, some r.1)
  | .del connobj isDisconnect => some (delTcpConn g connobj isDisconnect, none)
  | .sweep stop => (connThread env g stop).map fun r => (r.1, none)
  | .tick n => some ({ g with tickCount := g.tickCount + n }, none)

/-- No call records `TCP_STATE_NONE`, and nothing else writes the pointer of an object to
its connection entry. -/
def Allowed (g : Globals) : Op → Prop
  | .object ote => ote.connEntry = (g.lookup ote.fileobj).bind OtEntry.connEntry
  | .add _ state => state ≠ tcpStateNone
  | .setState _ state => state ≠ tcpStateNone
  | _ => True

/-- No connection has ever been entered. -/
structure Empty (g : Globals) : Prop where
  connHash : g.connHash = fun _ => none
  connToDel : g.connToDel = none
  live : g.connPool.live = []
  objects : ∀ fo ote, g.lookup fo = some ote → ote.connEntry = none

/-- The entry has these four addresses. -/
def HasAddresses (g : Globals) (laddr : UInt32) (lport : UInt16) (raddr : UInt32) (rport : UInt16)
    (ce : Nat) : Prop :=
  (g.conn ce).laddr = laddr ∧ (g.conn ce).lport = lport ∧ (g.conn ce).raddr = raddr ∧
    (g.conn ce).rport = rport

/-- The answer of `get_tcp_conn_state` is right for these addresses. -/
structure FoundRight (g : Globals) (laddr : UInt32) (lport : UInt16) (raddr : UInt32)
    (rport : UInt16) (state : Int) : Prop where
  none_iff : state = tcpStateNone ↔
    ∀ ce ∈ g.connPool.live, ¬ HasAddresses g laddr lport raddr rport ce
  some : state ≠ tcpStateNone →
    ∃ ce ∈ g.connPool.live, HasAddresses g laddr lport raddr rport ce ∧ (g.conn ce).state = state

/-- Every entry that is not freed is in one bucket, that of its addresses, linked to its
neighbours in both ways, and look-ups find what is there. -/
structure HashExact (g : Globals) : Prop where
  buckets : ∃ rows : Nat → List Nat,
    (∀ i, (rows i).Nodup ∧ Segment (fun ce => (g.conn ce).next) (fun ce => (g.conn ce).prev) none
      (g.connHash i) (rows i) none) ∧
    ∀ ce ∈ g.connPool.live, ∀ i, ce ∈ rows i ↔ i = (g.conn ce).hash
  lookup : ∀ n laddr lport raddr rport, g.connPool.live.length ≤ n →
    ∃ state, getTcpConnState g n laddr lport raddr rport = some state ∧
      FoundRight g laddr lport raddr rport state

/-- What every call keeps. -/
structure Invariant (g : Globals) : Prop where
  hashed : ∃ rows, Hashed g rows
  closing : Closing g
  states : ∀ ce ∈ g.connPool.live, (g.conn ce).state ≠ tcpStateNone

variable {env : Env} {g g' : Globals} {ote : OtEntry} {fo : FileObj}

/-! ## Look-ups -/

/-- The loop gives the state of the first entry with the addresses. -/
theorem findConn_spec (laddr : UInt32) (lport : UInt16) (raddr : UInt32) (rport : UInt16)
    {p : Option Nat} {as : List Nat} {n : Nat} (hs : Spans (fun ce => (g.conn ce).next) p as)
    (hn : as.length ≤ n) :
    ∃ state, findConn g laddr lport raddr rport n p = some state ∧
      ((state = tcpStateNone ∧ ∀ ce ∈ as, ¬ HasAddresses g laddr lport raddr rport ce) ∨
        ∃ ce ∈ as, HasAddresses g laddr lport raddr rport ce ∧ (g.conn ce).state = state) := by
  induction as generalizing p n with
  | nil =>
    obtain rfl := hs
    exact ⟨tcpStateNone, by unfold findConn; rfl, Or.inl ⟨rfl, fun _ h => absurd h List.not_mem_nil⟩⟩
  | cons c as ih =>
    obtain ⟨rfl, ht⟩ := hs
    cases n with
    | zero => exact absurd hn (by simp)
    | succ n =>
      rw [findConn]
      by_cases hc : HasAddresses g laddr lport raddr rport c <;> unfold HasAddresses at hc
      · rw [if_pos hc]
        exact ⟨_, rfl, Or.inr ⟨c, List.mem_cons_self, hc, rfl⟩⟩
      · rw [if_neg hc]
        obtain ⟨state, hrun, hstate⟩ := ih ht (Nat.le_of_succ_le_succ hn)
        refine ⟨state, hrun, hstate.imp ?_ ?_⟩
        · exact fun h => ⟨h.1, List.forall_mem_cons.mpr ⟨hc, h.2⟩⟩
        · intro hfound
          obtain ⟨ce, hce, h⟩ := hfound
          exact ⟨ce, List.mem_cons_of_mem c hce, h⟩

theorem Invariant.hashExact (hg : Invariant g) : HashExact g := by
  obtain ⟨⟨rows, hr⟩, -, hstates⟩ := hg
  refine ⟨⟨rows, fun i => ⟨hr.table.nodup i, hr.table.row i⟩, fun ce hce i => ?_⟩, ?_⟩
  · rw [hr.table.mem, and_iff_right hce]
    exact eq_comm
  · intro n laddr lport raddr rport hn
    have hlen : (rows (calcConnHash laddr lport raddr rport)).length ≤ n := by
      refine Nat.le_trans (List.subperm_of_subset (hr.table.nodup _) ?_).length_le hn
      exact fun ce hce => ((hr.table.mem _ ce).mp hce).1
    obtain ⟨state, hrun, hstate⟩ := findConn_spec laddr lport raddr rport (hr.table.spans _) hlen
    refine ⟨state, hrun, ?_⟩
    rcases hstate with ⟨rfl, hnone⟩ | ⟨ce, hce, haddr, rfl⟩
    · refine ⟨iff_of_true rfl fun ce hlive haddr => hnone ce ?_ haddr, fun h => absurd rfl h⟩
      obtain ⟨rfl, rfl, rfl, rfl⟩ := haddr
      exact (hr.table.mem _ ce).mpr ⟨hlive, rfl⟩
    · have hlive := ((hr.table.mem _ ce).mp hce).1
      have hne := hstates ce hlive
      exact ⟨iff_of_false hne fun h => h ce hlive haddr, fun _ => ⟨ce, hlive, haddr, rfl⟩⟩

/-! ## The calls -/

theorem Invariant.of_same (hg : Invariant g) (ht : connTable g' = connTable g)
    (hconn : ∀ ce, (g'.conn ce).hash = (g.conn ce).hash ∧ (g'.conn ce).state = (g.conn ce).state)
    (hl : g'.connPool.live = g.connPool.live) (hc : Closing g') : Invariant g' := by
  obtain ⟨rows, hr⟩ := hg.hashed
  refine ⟨⟨rows, hr.of_same ht (fun ce => (hconn ce).1) hl⟩, hc, fun ce hce => ?_⟩
  rw [(hconn ce).2]
  exact hg.states ce (hl ▸ hce)

/-- A new entry is in its bucket with its state, and the others are as they were. -/
theorem addTcpConn_enters (env : Env) {rows : Nat → List Nat} (hr : Hashed g rows) (ote : OtEntry)
    (state : Int) :
    (∃ rows', Hashed (addTcpConn env g ote state).2 rows') ∧
      ∀ c ∈ (addTcpConn env g ote state).2.connPool.live,
        ((addTcpConn env g ote state).2.conn c).state = state ∨
          c ∈ g.connPool.live ∧ ((addTcpConn env g ote state).2.conn c).state = (g.conn c).state := by
  have hstay : ∀ g', connTable g' = connTable g → g'.conn = g.conn →
      g'.connPool.live = g.connPool.live → (∃ rows', Hashed g' rows') ∧
        ∀ c ∈ g'.connPool.live, (g'.conn c).state = state ∨
          c ∈ g.connPool.live ∧ (g'.conn c).state = (g.conn c).state := by
    intro g' ht hconn hl
    refine ⟨⟨rows, hr.of_same ht (fun c => by rw [hconn]) hl⟩, fun c hc => Or.inr ⟨hl ▸ hc, ?_⟩⟩
    rw [hconn]
  unfold addTcpConn
  split
  · exact hstay g rfl rfl rfl
  · cases hgr : env.connAlloc.grants g.connPool.calls with
    | false =>
      rw [alloc_denied hgr]
      exact hstay _ rfl rfl rfl
    | true =>
      rw [alloc_granted hgr]
      have hfresh := pick_notMem_live env.connAlloc g.connPool
      generalize env.connAlloc.pick (g.connPool.fixed ++ g.connPool.live) = ce at hfresh ⊢
      generalize hpool : Ledger.mk g.connPool.fixed (ce :: g.connPool.live)
        (g.connPool.calls + 1) g.connPool.badFree = pool
      have hlive : pool.live = ce :: g.connPool.live := hpool ▸ rfl
      dsimp only
      generalize hg₂ : Globals.setConn (g.setConnPool pool) ce _ = g₂
      have hconn : ∀ c ∈ g.connPool.live, g₂.conn c = g.conn c := by
        intro c hc
        rw [← hg₂, conn_setConn, if_neg (ne_of_mem_of_not_mem hc hfresh)]
        rfl
      have hnew : (g₂.conn ce).prev = none ∧ (g₂.conn ce).state = state := by
        rw [← hg₂, conn_setConn, if_pos rfl]
        exact ⟨rfl, rfl⟩
      have hlive₂ : g₂.connPool.live = ce :: g.connPool.live := by
        rw [← hg₂]
        exact hlive
      obtain ⟨g₀, hr₀, hl₀, ht₂, hconn₂⟩ : ∃ g₀, Hashed g₀ rows ∧
          g₀.connPool.live = g.connPool.live ∧ connTable g₂ = connTable g₀ ∧ g₂.conn = g₀.conn := by
        obtain ⟨f, hf⟩ : ∃ f, Globals.setConn (g.setConnPool pool) ce f = g₂ := ⟨_, hg₂⟩
        rw [← hf]
        exact ⟨g.setConn ce f, hr.setConn_dead hfresh f, rfl, rfl, rfl⟩
      cases ote.connEntry with
      | some old =>
        -- the new block goes back to the pool
        have hfree : (g₂.connPool.free ce).live = g.connPool.live := by
          rw [free_live (hlive₂ ▸ List.mem_cons_self)]
          show g₂.connPool.live.erase ce = _
          rw [hlive₂, List.erase_cons_head]
        refine ⟨⟨rows, hr₀.of_same ht₂ (fun c => ?_) (hfree.trans hl₀.symm)⟩, fun c hc => Or.inr ?_⟩
        · show (g₂.conn c).hash = _
          rw [hconn₂]
        · have hc : c ∈ g.connPool.live := hfree ▸ hc
          exact ⟨hc, congrArg ConnEntry.state (hconn c hc)⟩
      | none =>
        refine ⟨Hashed.link hr₀ (hl₀ ▸ hfresh) ht₂ (fun c => ?_) hnew.1 ?_, fun c hc => ?_⟩
        · show (g₂.conn c).hash = _
          rw [hconn₂]
        · rw [hl₀]
          exact hlive₂
        · rw [live_linkConn] at hc
          rw [show ((linkConn _ ce).conn c).state = _ from
            congrFun (relinks_linkConn (Globals.setOte _ _) ce).states c]
          rcases List.mem_cons.mp (hlive₂ ▸ hc) with rfl | hc
          · exact Or.inl hnew.2
          · exact Or.inr ⟨hc, congrArg ConnEntry.state (hconn c hc)⟩

theorem Invariant.addTcpConn (hg : Invariant g) (hf : g.otFindFileobj fo = some ote) {state : Int}
    (hs : state ≠ tcpStateNone) : Invariant (addTcpConn env g ote state).2 := by
  have ho : (view g).owner ote.fileobj = ote.connEntry := by
    rw [fileobj_of_find hf, owner_of_lookup (lookup_of_find hf)]
  obtain ⟨rows, hr⟩ := hg.hashed
  obtain ⟨hhashed, hstates⟩ := addTcpConn_enters env hr ote state
  refine ⟨hhashed, ?_, fun c hc => ?_⟩
  · exact hg.closing.moves
      (moves_addTcpConn (S := fun _ => True) (P := fun _ => True) g ote state trivial ho)
  · rcases hstates c hc with hnew | ⟨hold, hsame⟩
    · rw [hnew]
      exact hs
    · rw [hsame]
      exact hg.states c hold

theorem Invariant.setTcpConnState (hg : Invariant g) (connobj : FileObj) {state : Int}
    (hs : state ≠ tcpStateNone) : Invariant (setTcpConnState g connobj state).2 := by
  obtain ⟨rows, hr⟩ := hg.hashed
  have hc : Closing (ConnState.setTcpConnState g connobj state).2 :=
    hg.closing.moves <| moves_setTcpConnState (S := fun _ => True) (P := fun _ => True) g state
      trivial trivial
  revert hc
  unfold ConnState.setTcpConnState
  split
  · exact fun _ => hg
  · split
    · rename_i ce _
      intro hc
      refine ⟨⟨rows, hr.of_same ?_ (fun c => ?_) rfl⟩, hc, fun c hlive => ?_⟩
      · apply connTable_setConn_of_same <;> exact fun _ => rfl
      · dsimp only
        rw [conn_setConn]
        split
        · rename_i h
          exact h ▸ rfl
        · rfl
      · dsimp only
        rw [conn_setConn]
        split
        · exact hs
        · exact hg.states c hlive
    · exact fun _ => hg

theorem Invariant.setTcpConnLocal (hg : Invariant g) (connobj : FileObj) (addr : TaAddress) :
    Invariant (setTcpConnLocal g connobj addr).2 := by
  obtain ⟨rows, hr⟩ := hg.hashed
  obtain ⟨cs, hsound⟩ := hg.closing
  have hrel := relinks_setTcpConnLocal g connobj addr
  have hlive : (ConnState.setTcpConnLocal g connobj addr).2.connPool.live = g.connPool.live :=
    congrArg View.live hrel.view
  refine ⟨?_, ⟨cs, hrel.view ▸ hsound⟩, fun c hc => ?_⟩
  · unfold ConnState.setTcpConnLocal
    split
    · exact ⟨rows, hr⟩
    · rename_i ote hf
      split
      · rename_i ce hce
        have ho : (view g).owner connobj = some ce := by
          rw [owner_of_lookup (lookup_of_find hf), hce]
        apply hr.rehash (hsound.owned connobj ce ho).1 <;> exact fun _ => rfl
      · exact ⟨rows, hr⟩
  · rw [show ((ConnState.setTcpConnLocal g connobj addr).2.conn c).state = _ from
      congrFun hrel.states c]
    exact hg.states c (hlive ▸ hc)

/-- A closed entry stays where it is. -/
theorem delTcpConnObj_stays (g : Globals) (ce : Nat) :
    connTable (delTcpConnObj g ce) = connTable g ∧ ∀ c,
      ((delTcpConnObj g ce).conn c).hash = (g.conn c).hash ∧
        (((delTcpConnObj g ce).conn c).state = tcpStateClosed ∨
          ((delTcpConnObj g ce).conn c).state = (g.conn c).state) := by
  unfold delTcpConnObj
  extract_lets g₁
  refine ⟨?_, fun c => ?_⟩
  · show connTable g₁ = connTable g
    apply connTable_setConn_of_same <;> exact fun _ => rfl
  · show (g₁.conn c).hash = _ ∧ ((g₁.conn c).state = _ ∨ (g₁.conn c).state = _)
    simp only [g₁]
    rw [conn_setConn]
    split
    · rename_i h
      exact ⟨h ▸ rfl, Or.inl rfl⟩
    · exact ⟨rfl, Or.inr rfl⟩

theorem Invariant.delTcpConn (hg : Invariant g) (connobj : FileObj) (isDisconnect : Bool) :
    Invariant (delTcpConn g connobj isDisconnect) := by
  obtain ⟨rows, hr⟩ := hg.hashed
  have hc : Closing (ConnState.delTcpConn g connobj isDisconnect) :=
    hg.closing.moves
      (effect_delTcpConn (S := fun _ => True) (P := fun _ => True) g isDisconnect trivial).moves
  have hclosed : tcpStateClosed ≠ tcpStateNone := by decide
  revert hc
  unfold ConnState.delTcpConn
  split
  · exact fun _ => hg
  · rename_i ote _
    extract_lets g₁ g₂
    have h₂ : connTable g₂ = connTable g ∧ g₂.conn = g.conn ∧
        g₂.connPool.live = g.connPool.live := by
      simp only [g₂]
      split <;> exact ⟨rfl, rfl, rfl⟩
    clear_value g₂
    obtain ⟨ht, hconn, hl⟩ := h₂
    intro hc
    cases hce : ote.connEntry with
    | none =>
      rw [hce] at hc
      exact hg.of_same ht (fun c => by rw [hconn]; exact ⟨rfl, rfl⟩) hl hc
    | some ce =>
      rw [hce] at hc
      obtain ⟨ht', hc'⟩ := delTcpConnObj_stays g₂ ce
      refine ⟨⟨rows, hr.of_same (ht'.trans ht) (fun c => ?_) hl⟩, hc, fun c hlive => ?_⟩
      · rw [(hc' c).1, hconn]
      · rcases (hc' c).2 with h | h
        · rw [h]
          exact hclosed
        · rw [h, hconn]
          exact hg.states c (hl ▸ hlive)

theorem Invariant.sweep (hg : Invariant g) (env : Env) (stop : Bool) :
    ∃ g' t, connThread env g stop = some (g', t) ∧ Invariant g' := by
  obtain ⟨rows, hr⟩ := hg.hashed
  obtain ⟨cs, hs⟩ := hg.closing
  obtain ⟨g', t, cs', hrun, hs', -⟩ := connThread_spec env hs stop
  have hq : Sound (queue g) cs :=
    ⟨hs.spans, hs.nodup, hs.retired, fun k => k.elim, fun k => k.elim⟩
  obtain ⟨g₁, hrun₁, -, hbare, hrows⟩ := sweepFrom_exact env g.tickCount stop
    (fun ce => (g.conn ce).ticks) cs _ g [] _ 0 (Nat.le_succ_of_le hs.length_le) (fun _ => rfl) hq
    hs.spans
  obtain ⟨rfl, -⟩ := Prod.mk.inj (Option.some.inj (hrun.symm.trans hrun₁))
  refine ⟨g', t, hrun, ⟨_, hrows rows hr⟩, ⟨cs', hs'⟩, fun c hc => ?_⟩
  have hmem := ((hrows rows hr).table.mem _ c).mpr ⟨hc, rfl⟩
  have hlive := ((hr.table.mem _ c).mp (List.mem_of_mem_filter hmem)).1
  rw [show (g'.conn c).state = _ from congrFun (sweepFrom_kept hrun).2 c]
  exact hg.states c hlive

/-! ## Every run -/

theorem invariant_empty (h : Empty g) : Invariant g := by
  refine ⟨⟨fun _ => [], ⟨?_, ?_⟩⟩, ⟨[], h.connToDel, List.nodup_nil, ?_, ?_, ?_⟩, ?_⟩
  · apply Table.exact_empty
    · exact fun i => congrFun h.connHash i
    · intro c
      rw [h.live]
      exact List.not_mem_nil
  · rw [h.live]
    exact List.nodup_nil
  · exact fun c hc => absurd hc List.not_mem_nil
  · intro fo c hc
    obtain ⟨ote, hl, hce⟩ := Option.bind_eq_some_iff.mp hc
    exact absurd (hce.symm.trans (h.objects fo ote hl)) nofun
  · intro fo _ c hc
    obtain ⟨ote, hl, hce⟩ := Option.bind_eq_some_iff.mp hc
    exact absurd (hce.symm.trans (h.objects fo ote hl)) nofun
  · intro c hc
    rw [h.live] at hc
    exact absurd hc List.not_mem_nil

theorem step_invariant (op : Op) (hg : Invariant g) (ha : Allowed g op) :
    ∃ g' o, step env g op = some (g', o) ∧ Invariant g' := by
  cases op with
  | object ote =>
    have hv : view (g.setOte ote) = view g := by
      rw [view_setOte, show ote.connEntry = (view g).owner ote.fileobj from ha,
        Function.update_eq_self]
    refine ⟨_, _, rfl, hg.of_same rfl (fun _ => ⟨rfl, rfl⟩) rfl ?_⟩
    rw [Closing, hv]
    exact hg.closing
  | add connobj tcpState =>
    cases hf : g.otFindFileobj connobj with
    | none => exact ⟨g, none, by simp only [step, hf], hg⟩
    | some ote => exact ⟨_, _, by simp only [step, hf]; rfl, hg.addTcpConn hf ha⟩
  | setState connobj state => exact ⟨_, _, rfl, hg.setTcpConnState connobj ha⟩
  | setLocal connobj addr => exact ⟨_, _, rfl, hg.setTcpConnLocal connobj addr⟩
  | del connobj isDisconnect => exact ⟨_, _, rfl, hg.delTcpConn connobj isDisconnect⟩
  | sweep stop =>
    obtain ⟨g', t, hrun, hg'⟩ := hg.sweep env stop
    exact ⟨g', none, by rw [step, hrun]; rfl, hg'⟩
  | tick n => exact ⟨_, _, rfl, hg.of_same rfl (fun _ => ⟨rfl, rfl⟩) rfl hg.closing⟩

/-- From an empty table on, no order of the calls stops, and each leaves the buckets exact
and the look-ups right. -/
theorem reached_hashExact (env : Env) {g₀ : Globals} (h₀ : Empty g₀) {ops : List Op}
    (hm : Meets (step env) Allowed g₀ ops) :
    ∃ g os, run (step env) g₀ ops = some (g, os) ∧ HashExact g := by
  obtain ⟨g, os, hrun, hg⟩ := run_progress Invariant (fun _ op hi ha => step_invariant op hi ha)
    (invariant_empty h₀) hm
  exact ⟨g, os, hrun, hg.hashExact⟩

/-- A connection that moves to another address and closes, beside another one. -/
def twoConnections : List Op :=
  [.object { fileobj := 64, localAddr := ipAddress 80 1, remoteAddr := ipAddress 81 2 },
    .object { fileobj := 96, localAddr := ipAddress 80 1, remoteAddr := ipAddress 81 2 },
    .add 64 tcpStateSynSent, .add 96 tcpStateSynRcvd, .setState 64 tcpStateEstablishedOut,
    .setLocal 64 (ipAddress 80 3), .del 96 true, .tick 1, .sweep false]

theorem reached_hashExact_two :
    ∃ g os, run (step (freeBuild fun _ _ => none)) (blank blankAdf) twoConnections =
      some (g, os) ∧ HashExact g := by
  apply reached_hashExact (freeBuild fun _ _ => none)
  · refine ⟨rfl, rfl, rfl, fun fo ote h => ?_⟩
    simp [Globals.lookup, blank] at h
  · refine ⟨rfl, fun r hr => ?_⟩
    obtain rfl := Option.some.inj hr
    refine ⟨rfl, fun r _ => ?_⟩
    apply meets_of_forall_mem
    simp [Allowed, tcpStateNone, tcpStateSynSent, tcpStateSynRcvd, tcpStateEstablishedOut]

end AdFilter.Tdi.ConnHash
