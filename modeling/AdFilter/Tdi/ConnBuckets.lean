import AdFilter.Lib.Buckets
import AdFilter.Tdi.Views

/-!
# The buckets of the connection table

`g_conn` as a table of doubly linked cells. `Hashed` says that its buckets hold the
entries that are not freed, each in the bucket of its addresses.
-/

namespace AdFilter.Tdi.ConnBuckets

open AdFilter.Lib.Buckets
open AdFilter.Lib.Pool
open AdFilter.Tdi.Objects
open AdFilter.Tdi.ConnState
open AdFilter.Tdi.Views

def connTable (g : Globals) : Table Nat Nat where
  head := g.connHash
  next ce := (g.conn ce).next
  prev ce := (g.conn ce).prev

/-- An entry without its links. -/
def bare (g : Globals) (ce : Nat) : ConnEntry :=
  { g.conn ce with next := none, prev := none, nextToDel := none }

/-- The buckets are `rows`, and hold what is not freed. -/
structure Hashed (g : Globals) (rows : Nat → List Nat) : Prop where
  table : (connTable g).Exact rows (· ∈ g.connPool.live) fun ce => (g.conn ce).hash
  nodup : g.connPool.live.Nodup

variable {env : Env} {g g' : Globals} {rows : Nat → List Nat} {ce : Nat}

theorem hash_of_bare (h : bare g' = bare g) (ce : Nat) : (g'.conn ce).hash = (g.conn ce).hash := by
  have hce : (bare g' ce).hash = (bare g ce).hash := by rw [h]
  exact hce

theorem ticks_of_bare (h : bare g' = bare g) (ce : Nat) : (g'.conn ce).ticks = (g.conn ce).ticks := by
  have hce : (bare g' ce).ticks = (bare g ce).ticks := by rw [h]
  exact hce

/-! ## Writes -/

theorem conn_setConn (g : Globals) (ce : Nat) (f : ConnEntry → ConnEntry) (c : Nat) :
    (g.setConn ce f).conn c = if c = ce then f (g.conn ce) else g.conn c :=
  Function.update_apply g.conn ce (f (g.conn ce)) c

theorem connTable_setConn (g : Globals) (ce : Nat) (f : ConnEntry → ConnEntry) :
    connTable (g.setConn ce f) =
      { connTable g with
        next := Function.update (connTable g).next ce (f (g.conn ce)).next
        prev := Function.update (connTable g).prev ce (f (g.conn ce)).prev } := by
  apply Table.ext
  · rfl
  · funext c
    show ((g.setConn ce f).conn c).next = Function.update (connTable g).next ce _ c
    rw [conn_setConn, Function.update_apply]
    split <;> rfl
  · funext c
    show ((g.setConn ce f).conn c).prev = Function.update (connTable g).prev ce _ c
    rw [conn_setConn, Function.update_apply]
    split <;> rfl

theorem connTable_setNext (g : Globals) (ce : Nat) (v : Option Nat) :
    connTable (g.setConn ce fun e => { e with next := v }) =
      { connTable g with next := Function.update (connTable g).next ce v } := by
  have hprev : Function.update (connTable g).prev ce (g.conn ce).prev = (connTable g).prev :=
    Function.update_eq_self ce (connTable g).prev
  rw [connTable_setConn, hprev]

theorem connTable_setPrev (g : Globals) (ce : Nat) (v : Option Nat) :
    connTable (g.setConn ce fun e => { e with prev := v }) =
      { connTable g with prev := Function.update (connTable g).prev ce v } := by
  have hnext : Function.update (connTable g).next ce (g.conn ce).next = (connTable g).next :=
    Function.update_eq_self ce (connTable g).next
  rw [connTable_setConn, hnext]

theorem connTable_setPrevAt (g : Globals) (p v : Option Nat) :
    connTable (g.setConnAt p fun e => { e with prev := v }) =
      { connTable g with prev := writeAt (connTable g).prev p v } := by
  cases p with
  | none => rfl
  | some ce => exact connTable_setPrev g ce v

/-- A write that leaves the links. -/
theorem connTable_setConn_of_same (g : Globals) (ce : Nat) {f : ConnEntry → ConnEntry}
    (hn : ∀ e, (f e).next = e.next) (hp : ∀ e, (f e).prev = e.prev) :
    connTable (g.setConn ce f) = connTable g := by
  have hnext : Function.update (connTable g).next ce (g.conn ce).next = (connTable g).next :=
    Function.update_eq_self ce (connTable g).next
  have hprev : Function.update (connTable g).prev ce (g.conn ce).prev = (connTable g).prev :=
    Function.update_eq_self ce (connTable g).prev
  rw [connTable_setConn, hn, hp, hnext, hprev]

/-- A write to the links of an entry. -/
theorem bare_setConn (g : Globals) (ce : Nat) {f : ConnEntry → ConnEntry}
    (hf : ∀ e : ConnEntry, { f e with next := none, prev := none, nextToDel := none } =
      { e with next := none, prev := none, nextToDel := none }) :
    bare (g.setConn ce f) = bare g := by
  funext c
  unfold bare
  rw [conn_setConn]
  split
  · rename_i hc
    rw [hf, hc]
  · rfl

theorem bare_setPrevAt (g : Globals) (p v : Option Nat) :
    bare (g.setConnAt p fun e => { e with prev := v }) = bare g := by
  cases p with
  | none => rfl
  | some ce => exact bare_setConn g ce (f := fun e => { e with prev := v }) fun _ => rfl

/-! ## The operations -/

theorem connTable_linkConn (g : Globals) (ce : Nat) :
    connTable (linkConn g ce) = (connTable g).link (g.conn ce).hash ce := by
  unfold linkConn
  extract_lets hash first g₁ g₂
  have hhead : g₂.connHash = g.connHash := by
    simp only [g₂, g₁]
    cases first <;> rfl
  show { connTable g₂ with head := Function.update g₂.connHash hash (some ce) } = _
  rw [hhead, connTable_setPrevAt, connTable_setNext]
  rfl

theorem bare_linkConn (g : Globals) (ce : Nat) : bare (linkConn g ce) = bare g :=
  (bare_setPrevAt _ _ _).trans (bare_setConn g ce fun _ => rfl)

theorem connTable_unlinkConn (g : Globals) (ce : Nat) :
    connTable (unlinkConn g ce) = (connTable g).unlink (g.conn ce).hash ce := by
  unfold unlinkConn Table.unlink
  extract_lets e g₁ e' t'
  have h₁ : connTable g₁ = t' := by
    have hprev : (connTable g).prev ce = (g.conn ce).prev := rfl
    simp only [g₁, t', e, hprev]
    cases (g.conn ce).prev with
    | none => rfl
    | some p => exact connTable_setNext g p _
  rw [connTable_setPrevAt, h₁, ← h₁]
  rfl

theorem bare_unlinkConn (g : Globals) (ce : Nat) : bare (unlinkConn g ce) = bare g := by
  unfold unlinkConn
  extract_lets e g₁ e'
  have h₁ : bare g₁ = bare g := by
    simp only [g₁]
    split
    · exact bare_setConn g _ fun _ => rfl
    · rfl
  exact (bare_setPrevAt _ _ _).trans h₁

theorem live_linkConn (g : Globals) (ce : Nat) : (linkConn g ce).connPool.live = g.connPool.live :=
  congrArg Lib.Reclaim.View.live (relinks_linkConn g ce).view

theorem live_unlinkConn (g : Globals) (ce : Nat) :
    (unlinkConn g ce).connPool.live = g.connPool.live :=
  congrArg Lib.Reclaim.View.live (relinks_unlinkConn g ce).view

/-! ## What keeps the buckets exact -/

theorem Hashed.of_same (h : Hashed g rows) (ht : connTable g' = connTable g)
    (hb : ∀ ce, (g'.conn ce).hash = (g.conn ce).hash)
    (hl : g'.connPool.live = g.connPool.live) : Hashed g' rows := by
  refine ⟨?_, hl ▸ h.nodup⟩
  apply h.table.congr
  · rw [ht]
  · intro _ _
    rw [ht]
  · intro _ _
    rw [ht]
  · intro _
    rw [hl]
  · exact fun ce _ => hb ce

/-- The pool's new block may hold anything. -/
theorem Hashed.setConn_dead (h : Hashed g rows) (hce : ce ∉ g.connPool.live)
    (f : ConnEntry → ConnEntry) : Hashed (g.setConn ce f) rows := by
  have hconn : ∀ c ∈ g.connPool.live, (g.setConn ce f).conn c = g.conn c := by
    intro c hc
    rw [conn_setConn, if_neg (ne_of_mem_of_not_mem hc hce)]
  refine ⟨?_, h.nodup⟩
  apply h.table.congr
  · rfl
  · exact fun c hc => congrArg ConnEntry.next (hconn c hc)
  · exact fun c hc => congrArg ConnEntry.prev (hconn c hc)
  · exact fun _ => Iff.rfl
  · exact fun c hc => congrArg ConnEntry.hash (hconn c hc)

/-- An entry goes from its bucket to the pool. -/
theorem Hashed.release (h : Hashed g rows) (hce : ce ∈ g.connPool.live) :
    Hashed ((unlinkConn g ce).setConnPool ((unlinkConn g ce).connPool.free ce))
      fun i => (rows i).filter (· ≠ ce) := by
  have hlive := live_unlinkConn g ce
  have hfree : ((unlinkConn g ce).connPool.free ce).live = g.connPool.live.erase ce := by
    rw [free_live (hlive ▸ hce)]
    exact congrArg (List.erase · ce) hlive
  constructor
  · have ht := h.table.unlink hce
    rw [← connTable_unlinkConn] at ht
    apply ht.congr
    · rfl
    · exact fun _ _ => rfl
    · exact fun _ _ => rfl
    · intro c
      show c ∈ ((unlinkConn g ce).connPool.free ce).live ↔ _
      rw [hfree, h.nodup.mem_erase_iff]
      exact and_comm
    · exact fun c _ => hash_of_bare (bare_unlinkConn g ce) c
  · show ((unlinkConn g ce).connPool.free ce).live.Nodup
    rw [hfree]
    exact h.nodup.erase ce

/-- A new entry goes to the bucket of its addresses. -/
theorem Hashed.link (h : Hashed g rows) (hce : ce ∉ g.connPool.live)
    (ht : connTable g' = connTable g) (hb : ∀ c, (g'.conn c).hash = (g.conn c).hash)
    (hprev : (g'.conn ce).prev = none) (hl : g'.connPool.live = ce :: g.connPool.live) :
    ∃ rows', Hashed (linkConn g' ce) rows' := by
  have hhead : (connTable g).head (g.conn ce).hash ≠ some ce := by
    intro hf
    have hs := h.table.spans (g.conn ce).hash
    rw [hf] at hs
    obtain ⟨cs, hcs, -⟩ := Lib.Linked.spans_some_iff.mp hs
    exact hce ((h.table.mem _ ce).mp (hcs ▸ List.mem_cons_self)).1
  have hpush := h.table.push hce fun _ _ => rfl
  rw [← Table.link_eq_push (ht ▸ hprev) hhead, ← ht, ← hb, ← connTable_linkConn] at hpush
  refine ⟨_, Table.Exact.congr hpush rfl (fun _ _ => rfl) (fun _ _ => rfl) ?_ ?_, ?_⟩
  · intro c
    rw [live_linkConn, hl, List.mem_cons]
  · exact fun c _ => (hash_of_bare (bare_linkConn g' ce) c).trans (hb c)
  · rw [live_linkConn, hl]
    exact List.nodup_cons.mpr ⟨hce, h.nodup⟩

/-- The entry goes from its bucket to that of its new addresses. -/
theorem Hashed.rehash (h : Hashed g rows) (hce : ce ∈ g.connPool.live)
    {f : ConnEntry → ConnEntry} (hn : ∀ e, (f e).next = e.next) (hp : ∀ e, (f e).prev = e.prev) :
    ∃ rows', Hashed ((linkConn ((unlinkConn g ce).setConn ce f) ce).setConn ce
      fun e => { e with prev := none }) rows' := by
  let g₁ := (unlinkConn g ce).setConn ce f
  have hother : ∀ c, c ≠ ce → (g₁.conn c).hash = (g.conn c).hash := by
    intro c hc
    rw [conn_setConn, if_neg hc]
    exact hash_of_bare (bare_unlinkConn g ce) c
  have hunlink := h.table.unlink hce
  rw [← connTable_unlinkConn, ← connTable_setConn_of_same (unlinkConn g ce) ce hn hp] at hunlink
  have hpush := hunlink.push (fun hl => hl.2 rfl) fun c hl => hother c hl.2
  have hlive : (linkConn g₁ ce).connPool.live = g.connPool.live :=
    (live_linkConn g₁ ce).trans (live_unlinkConn g ce)
  refine ⟨_, Table.Exact.congr hpush ?_ ?_ ?_ ?_ ?_, ?_⟩
  · rw [connTable_setPrev, connTable_linkConn]
    rfl
  · rw [connTable_setPrev, connTable_linkConn]
    exact fun _ _ => rfl
  · rw [connTable_setPrev, connTable_linkConn]
    exact fun _ _ => rfl
  · intro c
    show c ∈ (linkConn g₁ ce).connPool.live ↔ _
    rw [hlive]
    constructor
    · exact fun hc => (eq_or_ne c ce).imp_right fun hne => ⟨hc, hne⟩
    · rintro (rfl | hc)
      · exact hce
      · exact hc.1
  · intro c _
    exact hash_of_bare ((bare_setPrevAt (linkConn g₁ ce) (some ce) none).trans
      (bare_linkConn g₁ ce)) c
  · show (linkConn g₁ ce).connPool.live.Nodup
    rw [hlive]
    exact h.nodup

end AdFilter.Tdi.ConnBuckets
