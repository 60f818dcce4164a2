import AdFilter.Tdi.Views

/-!
# Where the pointers of the connection table lead

Pointers into the memory of connection entries lead to entries that the pool has
handed out and whose state is one of `TCP_STATE_*`. This holds of an entry that is
freed as well, since nothing overwrites it.
-/

namespace AdFilter.Tdi.ConnTable

open AdFilter.Lib.Pool
open AdFilter.Nt
open AdFilter.Tdi.Ipc
open AdFilter.Tdi.Objects
open AdFilter.Tdi.ConnState
open AdFilter.Tdi.Views

/-- A `TCP_STATE_*` value below `TCP_STATE_MAX`. -/
def InRange (state : Int) : Prop := 0 ≤ state ∧ state < tcpStateMax

instance (state : Int) : Decidable (InRange state) := inferInstanceAs (Decidable (_ ∧ _))

/-- An entry whose pointers stay within `W`, with a state in range. -/
structure Good (W : Nat → Prop) (e : ConnEntry) : Prop where
  next : ∀ d, e.next = some d → W d
  prev : ∀ d, e.prev = some d → W d
  nextToDel : ∀ d, e.nextToDel = some d → W d
  state : InRange e.state

/-- Every pointer leads to an entry of `W`, and these are good. -/
structure Known (W : Nat → Prop) (g : Globals) : Prop where
  good : ∀ c, W c → Good W (g.conn c)
  bucket : ∀ i c, g.connHash i = some c → W c
  head : ∀ c, (view g).head = some c → W c
  owned : ∀ k c, (view g).owner k = some c → W c
  live : ∀ c ∈ (view g).live, W c

variable {env : Env} {g g' : Globals} {ote : OtEntry} {fo : FileObj} {W : Nat → Prop} {ce : Nat}

theorem Known.of_quiet (hg : Known W g) (h : Quiet g g') : Known W g' := by
  constructor
  · rw [h.conn]
    exact hg.good
  · rw [h.connHash]
    exact hg.bucket
  · rw [h.view]
    exact hg.head
  · rw [h.view]
    exact hg.owned
  · rw [h.view]
    exact hg.live

/-! ## Writes -/

theorem Known.setConn (hg : Known W g) {f : ConnEntry → ConnEntry} (hf : Good W (f (g.conn ce))) :
    Known W (g.setConn ce f) := by
  refine ⟨fun c hc => ?_, hg.bucket, hg.head, hg.owned, hg.live⟩
  show Good W (Function.update g.conn ce (f (g.conn ce)) c)
  rw [Function.update_apply]
  split
  · exact hf
  · exact hg.good c hc

theorem Known.setConnAt (hg : Known W g) {p : Option Nat} (hp : ∀ c, p = some c → W c)
    {f : ConnEntry → ConnEntry} (hf : ∀ e, Good W e → Good W (f e)) :
    Known W (g.setConnAt p f) := by
  cases p with
  | none => exact hg
  | some c => exact hg.setConn (hf _ (hg.good c (hp c rfl)))

theorem Known.setConnHash (hg : Known W g) {hash : Nat} {p : Option Nat}
    (hp : ∀ c, p = some c → W c) : Known W (g.setConnHash hash p) := by
  refine ⟨hg.good, fun i c hc => ?_, hg.head, hg.owned, hg.live⟩
  have hc : Function.update g.connHash hash p i = some c := hc
  rw [Function.update_apply] at hc
  split at hc
  · exact hp c hc
  · exact hg.bucket i c hc

theorem Known.setConnToDel (hg : Known W g) {p : Option Nat} (hp : ∀ c, p = some c → W c) :
    Known W (g.setConnToDel p) :=
  ⟨hg.good, hg.bucket, hp, hg.owned, hg.live⟩

theorem Known.setConnPool (hg : Known W g) {pool : Ledger Nat} (hp : ∀ c ∈ pool.live, W c) :
    Known W (g.setConnPool pool) :=
  ⟨hg.good, hg.bucket, hg.head, hg.owned, hp⟩

theorem Known.setOte (hg : Known W g) {new : OtEntry} (hn : ∀ c, new.connEntry = some c → W c) :
    Known W (g.setOte new) := by
  refine ⟨hg.good, hg.bucket, hg.head, fun k c hk => ?_, hg.live⟩
  rw [view_setOte] at hk
  have hk : Function.update (view g).owner new.fileobj new.connEntry k = some c := hk
  rw [Function.update_apply] at hk
  split at hk
  · exact hn c hk
  · exact hg.owned k c hk

theorem Known.eraseOte (hg : Known W g) (fo : FileObj) : Known W (g.eraseOte fo) := by
  refine ⟨hg.good, hg.bucket, hg.head, fun k c hk => ?_, hg.live⟩
  rw [view_eraseOte] at hk
  exact hg.owned k c (Lib.Reclaim.owner_of_update_none hk).2

theorem Known.free (hg : Known W g) (ce : Nat) :
    Known W (g.setConnPool (g.connPool.free ce)) := by
  refine hg.setConnPool fun c hc => ?_
  unfold Ledger.free at hc
  split at hc
  · exact hg.live c (List.mem_of_mem_erase hc)
  · exact hg.live c hc

/-! ## The functions of the table -/

theorem Known.linkConn (hg : Known W g) (hce : W ce) : Known W (linkConn g ce) := by
  have hfirst : ∀ c, g.connHash (g.conn ce).hash = some c → W c := hg.bucket _
  have hself : ∀ c, some ce = some c → W c := fun c hc => Option.some.inj hc ▸ hce
  refine Known.setConnHash (Known.setConnAt (hg.setConn ?_) hfirst fun e he => ?_) hself
  · exact { hg.good ce hce with next := hfirst }
  · exact { he with prev := hself }

theorem Known.unlinkConn (hg : Known W g) (hce : W ce) : Known W (unlinkConn g ce) := by
  unfold ConnState.unlinkConn
  extract_lets e g₁ e'
  have h₁ : Known W g₁ := by
    simp only [g₁]
    split
    · rename_i p hp
      have hpW : W p := (hg.good ce hce).prev p hp
      exact hg.setConn { hg.good p hpW with next := (hg.good ce hce).next }
    · exact hg.setConnHash (hg.good ce hce).next
  have he' : Good W e' := h₁.good ce hce
  exact h₁.setConnAt he'.next fun d hd => { hd with prev := he'.prev }

/-- The pool's new block is written over whole. -/
theorem Known.adopt (hg : Known W g) (ce : Nat) {pool : Ledger Nat} {e : ConnEntry}
    (hp : ∀ c ∈ pool.live, c = ce ∨ W c) (he : Good (fun c => c = ce ∨ W c) e) :
    Known (fun c => c = ce ∨ W c) ((g.setConnPool pool).setConn ce fun _ => e) := by
  refine ⟨fun c hc => ?_, fun i c hc => Or.inr (hg.bucket i c hc), fun c hc => Or.inr (hg.head c hc),
    fun k c hc => Or.inr (hg.owned k c hc), hp⟩
  show Good _ (Function.update g.conn ce e c)
  rw [Function.update_apply]
  split
  · exact he
  · rename_i hne
    have hold := hg.good c (hc.resolve_left hne)
    exact ⟨fun d hd => Or.inr (hold.next d hd), fun d hd => Or.inr (hold.prev d hd),
      fun d hd => Or.inr (hold.nextToDel d hd), hold.state⟩

theorem Known.addTcpConn (hg : Known W g) (ote : OtEntry) {tcpState : Int}
    (hs : InRange tcpState) :
    ∃ W', (∀ c, W c → W' c) ∧ Known W' (addTcpConn env g ote tcpState).2 := by
  have hstay : ∀ g', Known W g' → ∃ W', (∀ c, W c → W' c) ∧ Known W' g' :=
    fun g' hg' => ⟨W, fun _ hc => hc, hg'⟩
  unfold ConnState.addTcpConn
  split
  · exact hstay g hg
  · cases hgr : env.connAlloc.grants g.connPool.calls with
    | false =>
      rw [alloc_denied hgr]
      exact hstay _ (hg.setConnPool hg.live)
    | true =>
      rw [alloc_granted hgr]
      generalize env.connAlloc.pick (g.connPool.fixed ++ g.connPool.live) = ce
      simp only
      refine ⟨fun c => c = ce ∨ W c, fun _ hc => Or.inr hc, ?_⟩
      have hpool : ∀ c ∈ ce :: g.connPool.live, c = ce ∨ W c :=
        fun c hc => (List.mem_cons.mp hc).imp_right (hg.live c)
      have hnone : ∀ d, none = some d → d = ce ∨ W d :=
        fun d hd => absurd hd.symm (Option.some_ne_none d)
      split
      · exact (hg.adopt ce hpool ⟨hnone, hnone, hnone, hs⟩).free ce
      · refine Known.linkConn (Known.setOte ?_ fun c hc => ?_) (Or.inl rfl)
        · exact hg.adopt ce hpool ⟨hnone, hnone, hnone, hs⟩
        · exact Or.inl (Option.some.inj hc).symm

theorem Known.delTcpConnObj (hg : Known W g) (hce : W ce) : Known W (delTcpConnObj g ce) := by
  refine Known.setConnToDel (hg.setConn ?_) fun c hc => Option.some.inj hc ▸ hce
  exact { hg.good ce hce with nextToDel := hg.head, state := (by decide : InRange tcpStateClosed) }

theorem Known.setTcpConnLocal (hg : Known W g) (connobj : FileObj) (addr : TaAddress) :
    Known W (setTcpConnLocal g connobj addr).2 := by
  unfold ConnState.setTcpConnLocal
  split
  · exact hg
  · rename_i ote hf
    split
    · rename_i ce hce
      have hW : W ce := hg.owned connobj ce (by rw [owner_of_lookup (lookup_of_find hf), hce])
      extract_lets g₁ g₂ g₃
      have h₁ : Known W g₁ := hg.unlinkConn hW
      have h₂ : Known W g₂ := by
        apply h₁.setConn
        have he := h₁.good ce hW
        exact ⟨he.next, he.prev, he.nextToDel, he.state⟩
      have h₃ : Known W g₃ := h₂.linkConn hW
      dsimp only
      apply h₃.setConn
      have he := h₃.good ce hW
      exact { he with prev := fun d hd => absurd hd.symm (Option.some_ne_none d) }
    · exact hg

/-- The state is written when there is an entry to write it to. -/
theorem Known.setTcpConnState (hg : Known W g) (connobj : FileObj) {state : Int}
    (hs : (∃ ote, g.otFindFileobj connobj = some ote ∧ ote.connEntry ≠ none) → InRange state) :
    Known W (setTcpConnState g connobj state).2 := by
  unfold ConnState.setTcpConnState
  split
  · exact hg
  · rename_i ote hf
    split
    · rename_i ce hce
      have ho : (view g).owner connobj = some ce := by
        rw [owner_of_lookup (lookup_of_find hf), hce]
      have he := hg.good ce (hg.owned connobj ce ho)
      dsimp only
      apply hg.setConn
      exact ⟨he.next, he.prev, he.nextToDel, hs ⟨ote, hf, by rw [hce]; exact Option.some_ne_none ce⟩⟩
    · exact hg

/-! ## The sweep -/

theorem Known.takenOut {prev : Option Nat} {ce : Nat} (hg : Known W g) (hce : W ce) :
    Known W (takenOut g prev ce) := by
  have hafter := (hg.good ce hce).nextToDel
  have h : Known W (unhooked g prev ce) := by
    unfold unhooked
    refine Known.unlinkConn ?_ hce
    cases prev with
    | none => exact hg.setConnToDel hafter
    | some q =>
      refine ⟨fun c hc => ?_, hg.bucket, hg.head, hg.owned, hg.live⟩
      show Good W (Function.update g.conn q _ c)
      rw [Function.update_apply]
      split
      · rename_i hcq
        exact { hg.good q (hcq ▸ hc) with nextToDel := hafter }
      · exact hg.good c hc
  exact h.free ce

theorem Known.sweepFrom {ticks : Int} {stop : Bool} {r : Globals × Int} {n : Nat}
    {prev p : Option Nat} {timeout : Int} (hg : Known W g) (hp : ∀ c, p = some c → W c)
    (h : sweepFrom env ticks stop n g prev p timeout = some r) : Known W r.1 := by
  refine (sweepFrom_invariant (fun g p => Known W g ∧ ∀ c, p = some c → W c) ?_ ?_ ⟨hg, hp⟩ h).1
  · intro g prev ce hg
    have hce := hg.2 ce rfl
    have hout : Known W (Views.takenOut g prev ce) := hg.1.takenOut hce
    exact ⟨hout, (hout.good ce hce).nextToDel⟩
  · intro g ce hg
    exact ⟨hg.1, (hg.1.good ce (hg.2 ce rfl)).nextToDel⟩

theorem Known.connThread (hg : Known W g) {stop : Bool} {r : Globals × Int}
    (h : connThread env g stop = some r) : Known W r.1 :=
  hg.sweepFrom hg.head h

end AdFilter.Tdi.ConnTable
