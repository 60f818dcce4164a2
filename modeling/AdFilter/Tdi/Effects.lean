import AdFilter.Lib.Handover
import AdFilter.Tdi.ConnTable

/-!
# What the functions do to the connection entries

Every function that touches connection entries does so for one object: what it does
is a sequence of moves for that object, and its pointers lead to known entries.
-/

namespace AdFilter.Tdi.Effects

open AdFilter.Lib.Handover
open AdFilter.Lib.Pool
open AdFilter.Lib.Reclaim
open AdFilter.Nt
open AdFilter.Tdi.Ipc
open AdFilter.Tdi.Objects
open AdFilter.Tdi.ConnState
open AdFilter.Tdi.ObjTbl
open AdFilter.Tdi.Datagrams
open AdFilter.Tdi.Connections
open AdFilter.Tdi.Creation
open AdFilter.Tdi.Views
open AdFilter.Tdi.ConnTable

/-- The view with the recorded states. -/
def marks (g : Globals) : Marks FileObj Nat Int := (view g, states g)

/-- The moves of the objects of `S`, which record states of `P`, lead from one state to
the other, and the pointers still lead to known entries. -/
structure Effect (S : FileObj → Prop) (P : Int → Prop) (g g' : Globals) : Prop where
  moves : Moves tcpStateClosed S P (marks g) (marks g')
  known : ∀ W, Known W g → ∃ W', (∀ c, W c → W' c) ∧ Known W' g'

variable {env : Env} {g g₁ g₂ g' : Globals} {ote : OtEntry} {fo : FileObj} {S : FileObj → Prop}
  {P : Int → Prop}

theorem Effect.refl (S : FileObj → Prop) (P : Int → Prop) (g : Globals) : Effect S P g g :=
  ⟨.refl, fun W hW => ⟨W, fun _ hc => hc, hW⟩⟩

theorem Effect.trans (h₁ : Effect S P g g₁) (h₂ : Effect S P g₁ g₂) : Effect S P g g₂ := by
  refine ⟨h₁.moves.trans h₂.moves, fun W hW => ?_⟩
  obtain ⟨W₁, hle₁, hW₁⟩ := h₁.known W hW
  obtain ⟨W₂, hle₂, hW₂⟩ := h₂.known W₁ hW₁
  exact ⟨W₂, fun c hc => hle₂ c (hle₁ c hc), hW₂⟩

theorem marks_congr (hv : view g' = view g) (hs : states g' = states g) : marks g' = marks g :=
  Prod.ext hv hs

theorem effect_of_same (hv : view g' = view g) (hs : states g' = states g)
    (hk : ∀ W, Known W g → Known W g') : Effect S P g g' := by
  refine ⟨?_, fun W hW => ⟨W, fun _ hc => hc, hk W hW⟩⟩
  rw [marks_congr hv hs]

theorem effect_of_quiet (h : Quiet g g') : Effect S P g g' :=
  effect_of_same h.view h.states fun _ hW => hW.of_quiet h

/-! ## The object table -/

theorem effect_setOte_of_owner {new : OtEntry} (h : (view g).owner new.fileobj = new.connEntry) :
    Effect S P g (g.setOte new) := by
  refine effect_of_same ?_ rfl fun W hW => hW.setOte fun c hce => ?_
  · rw [view_setOte, ← h, Function.update_eq_self]
  · apply hW.owned new.fileobj
    rw [h, hce]

theorem effect_setOte_of_same {new : OtEntry} (h : g.lookup fo = some ote) (hf : new.fileobj = fo)
    (hc : new.connEntry = ote.connEntry) : Effect S P g (g.setOte new) := by
  apply effect_setOte_of_owner
  rw [hf, owner_of_lookup h, hc]

theorem effect_setOte_none {new : OtEntry} (hS : S new.fileobj) (hc : new.connEntry = none) :
    Effect S P g (g.setOte new) := by
  refine ⟨?_, fun W hW => ⟨W, fun _ h => h, hW.setOte fun c hce => ?_⟩⟩
  · have hmarks : marks (g.setOte new) = ((view g).forget new.fileobj, states g) :=
      Prod.ext (view_setOte_forget hc) rfl
    rw [hmarks]
    exact .single (.forget (marks g) new.fileobj hS)
  · rw [hc] at hce
    exact absurd hce.symm (Option.some_ne_none c)

/-- An object's entry is queued, and the object loses it. -/
theorem effect_retire {ce : Nat} (ho : (view g).owner fo = some ce) (hS : S fo)
    (hv : view g' = (view (delTcpConnObj g ce)).forget fo)
    (hs : states g' = states (delTcpConnObj g ce))
    (hk : ∀ W, W ce → Known W g → Known W g') : Effect S P g g' := by
  refine ⟨?_, fun W hW => ⟨W, fun _ h => h, hk W (hW.owned fo ce ho) hW⟩⟩
  have hmarks : marks g' = ((view g).retire fo ce, Function.update (states g) ce tcpStateClosed) := by
    refine Prod.ext ?_ ?_
    · rw [show (marks g').1 = view g' from rfl, hv, view_delTcpConnObj]
      rfl
    · rw [show (marks g').2 = states g' from rfl, hs, states_delTcpConnObj]
  rw [hmarks]
  exact .single (.retire (marks g) fo ce hS ho)

/-- What is done for an entry of the table: at most its connection entry is queued. -/
theorem delEntries_cases (g : Globals) (ote : OtEntry) :
    Quiet g (delEntries g ote) ∨ ∃ g₁ ce, Quiet g g₁ ∧ ote.connEntry = some ce ∧
      delEntries g ote = delTcpConnObj g₁ ce := by
  unfold delEntries
  split
  · exact Or.inl (quiet_delListenObj g _)
  · rename_i ce _ hce
    refine Or.inr ⟨_, ce, ?_, hce, rfl⟩
    split
    · exact quiet_logRequest g _
    · exact Quiet.refl g
  · exact Or.inl (Quiet.refl g)

/-- The entry of the table is cleared afterwards. -/
theorem effect_delEntries (h : g.lookup fo = some ote) (hS : S fo)
    (hv : view g' = (view (delEntries g ote)).forget fo) (hs : states g' = states (delEntries g ote))
    (hk : ∀ W, Known W (delEntries g ote) → Known W g') : Effect S P g g' := by
  rcases delEntries_cases g ote with hq | ⟨g₁, ce, hq, hce, heq⟩
  · refine (effect_of_quiet hq).trans ⟨?_, fun W hW => ⟨W, fun _ hc => hc, hk W hW⟩⟩
    rw [show marks g' = ((view _).forget fo, states _) from Prod.ext hv hs]
    exact .single (.forget (marks (delEntries g ote)) fo hS)
  · rw [heq] at hv hs hk
    have ho : (view g₁).owner fo = some ce := by rw [hq.view, owner_of_lookup h, hce]
    refine (effect_of_quiet hq).trans (effect_retire ho hS hv hs fun W hce hW => ?_)
    exact hk W (hW.delTcpConnObj hce)

theorem effect_otDelFileobj (g : Globals) (hS : S fo) : Effect S P g (otDelFileobj g fo).2 := by
  unfold otDelFileobj
  split
  · exact Effect.refl S P g
  · cases h : g.lookup fo with
    | none => exact Effect.refl S P g
    | some ote =>
      exact effect_delEntries h hS (view_eraseOte _ fo) rfl fun _ hW => hW.eraseOte fo

theorem effect_otAddFileobj (g : Globals) (o : NewObj) (granted : Bool) (hS : S o.fileobj) :
    Effect S P g (otAddFileobj g o granted).2 := by
  unfold otAddFileobj
  split
  · exact Effect.refl S P g
  · cases h : g.lookup o.fileobj with
    | none =>
      cases granted with
      | false => exact Effect.refl S P g
      | true => exact effect_setOte_none hS rfl
    | some ote =>
      have hclean : Effect S P g (otCleanupOte g ote) := by
        apply effect_delEntries h hS
        · rw [otCleanupOte, view_setOte_forget rfl]
          show View.forget _ ote.fileobj = _
          rw [fileobj_of_lookup h]
        · rfl
        · exact fun W hW => hW.setOte fun c hc => absurd hc.symm (Option.some_ne_none c)
      exact hclean.trans (effect_setOte_none hS rfl)

/-! ## The connection table -/

theorem marks_setConnPool (g : Globals) (pool : Ledger Nat) :
    marks (g.setConnPool pool) = ({ (marks g).1 with live := pool.live }, (marks g).2) := rfl

theorem marks_setOte (g : Globals) (new : OtEntry) :
    marks (g.setOte new) =
      ({ (marks g).1 with
          owner := Function.update (marks g).1.owner new.fileobj new.connEntry }, (marks g).2) :=
  Prod.ext (view_setOte g new) rfl

theorem marks_linkConn (g : Globals) (ce : Nat) : marks (linkConn g ce) = marks g :=
  marks_congr (relinks_linkConn g ce).view (relinks_linkConn g ce).states

/-- The pool's new block is written over whole. -/
theorem marks_written (g : Globals) (pool : Ledger Nat) (ce : Nat) (e : ConnEntry) :
    marks ((g.setConnPool pool).setConn ce fun _ => e) =
      ({ view g with
          next := Function.update (view g).next ce e.nextToDel
          live := pool.live }, Function.update (states g) ce e.state) :=
  Prod.ext (view_setConn (g.setConnPool pool) ce _) (states_setConn (g.setConnPool pool) ce _)

/-- An object with an entry gets no other: at most a block that was not live is written. -/
theorem addTcpConn_occupied (g : Globals) {ce : Nat} (tcpState : Int) (h : ote.connEntry = some ce) :
    (addTcpConn env g ote tcpState).1 ≠ statusSuccess ∧
      (addTcpConn env g ote tcpState).2.ot = g.ot ∧
      (marks (addTcpConn env g ote tcpState).2 = marks g ∨ ∃ c ∉ (view g).live,
        marks (addTcpConn env g ote tcpState).2 =
          ({ view g with next := Function.update (view g).next c none },
            Function.update (states g) c tcpState)) := by
  unfold addTcpConn
  split
  · exact ⟨show statusInvalidParameter ≠ statusSuccess by decide, rfl, Or.inl rfl⟩
  · cases hgr : env.connAlloc.grants g.connPool.calls with
    | false =>
      rw [alloc_denied hgr]
      exact ⟨show statusInsufficientResources ≠ statusSuccess by decide, rfl, Or.inl rfl⟩
    | true =>
      rw [alloc_granted hgr]
      have hfresh := pick_notMem_live env.connAlloc g.connPool
      generalize env.connAlloc.pick (g.connPool.fixed ++ g.connPool.live) = ce' at hfresh ⊢
      simp only [h]
      refine ⟨by decide, rfl, Or.inr ⟨ce', hfresh, ?_⟩⟩
      have hfree : (Ledger.free { g.connPool with
          calls := g.connPool.calls + 1, live := ce' :: g.connPool.live } ce').live =
          g.connPool.live := by
        rw [free_live List.mem_cons_self, List.erase_cons_head]
      rw [marks_setConnPool, marks_written]
      exact Prod.ext (View.ext rfl rfl rfl hfree) rfl

theorem moves_addTcpConn (g : Globals) (ote : OtEntry) (tcpState : Int) (hS : S ote.fileobj)
    (ho : (view g).owner ote.fileobj = ote.connEntry) :
    Moves tcpStateClosed S P (marks g) (marks (addTcpConn env g ote tcpState).2) := by
  cases hce : ote.connEntry with
  | some ce =>
    obtain ⟨-, -, hm | ⟨c, hc, hm⟩⟩ := @addTcpConn_occupied env ote g ce tcpState hce
    · rw [hm]
    · rw [hm]
      exact .single (.write (marks g) c none tcpState hc)
  | none =>
    unfold addTcpConn
    split
    · exact .refl
    · cases hgr : env.connAlloc.grants g.connPool.calls with
      | false =>
        rw [alloc_denied hgr]
        exact .refl
      | true =>
        rw [alloc_granted hgr]
        have hfresh := pick_notMem_live env.connAlloc g.connPool
        generalize env.connAlloc.pick (g.connPool.fixed ++ g.connPool.live) = ce at hfresh ⊢
        simp only [hce]
        rw [marks_linkConn, marks_setOte, marks_written]
        exact .single (.adopt (marks g) ote.fileobj ce none tcpState hS (ho.trans hce) hfresh)

theorem effect_addTcpConn (g : Globals) (ote : OtEntry) {tcpState : Int} (hs : InRange tcpState)
    (hS : S ote.fileobj) (ho : (view g).owner ote.fileobj = ote.connEntry) :
    Effect S P g (addTcpConn env g ote tcpState).2 :=
  ⟨moves_addTcpConn g ote tcpState hS ho, fun _ hW => hW.addTcpConn ote hs⟩

theorem moves_setTcpConnState (g : Globals) (state : Int) (hS : S fo) (hP : P state) :
    Moves tcpStateClosed S P (marks g) (marks (setTcpConnState g fo state).2) := by
  have hv := view_setTcpConnState g fo state
  unfold setTcpConnState at hv ⊢
  split
  · exact .refl
  · rename_i ote hf
    cases hce : ote.connEntry with
    | none => exact .refl
    | some ce =>
      simp only [hf, hce] at hv ⊢
      have ho : (view g).owner fo = some ce := by
        rw [owner_of_lookup (lookup_of_find hf), hce]
      have hmarks : marks (g.setConn ce fun e => { e with state := state }) =
          (view g, Function.update (states g) ce state) := Prod.ext hv (states_setConn g ce _)
      rw [hmarks]
      exact .single (.label (marks g) fo ce state hS ho hP)

theorem effect_setTcpConnState (g : Globals) {state : Int} (hs : InRange state) (hS : S fo)
    (hP : P state) : Effect S P g (setTcpConnState g fo state).2 :=
  ⟨moves_setTcpConnState g state hS hP,
    fun W hW => ⟨W, fun _ hc => hc, hW.setTcpConnState fo fun _ => hs⟩⟩

theorem effect_setTcpConnLocal (g : Globals) (connobj : FileObj) (addr : TaAddress) :
    Effect S P g (setTcpConnLocal g connobj addr).2 := by
  have h := relinks_setTcpConnLocal g connobj addr
  exact effect_of_same h.view h.states fun W hW => hW.setTcpConnLocal connobj addr

theorem effect_delTcpConn (g : Globals) (isDisconnect : Bool) (hS : S fo) :
    Effect S P g (delTcpConn g fo isDisconnect) := by
  unfold delTcpConn
  split
  · exact Effect.refl S P g
  · rename_i ote hfind
    have hl := lookup_of_find hfind
    have hf := fileobj_of_find hfind
    extract_lets g₁ g₂
    have h₂ : Quiet g₁ g₂ := by
      simp only [g₂]
      split
      · exact quiet_logRequest g₁ _
      · exact Quiet.refl g₁
    have hv : view g₁ = (view g).forget fo := by
      simp only [g₁]
      rw [view_setOte_forget rfl, ← hf]
    cases hce : ote.connEntry with
    | none =>
      have hforget : Effect S P g g₁ := by
        apply effect_setOte_none
        · rw [show OtEntry.fileobj _ = ote.fileobj from rfl, hf]
          exact hS
        · rfl
      exact hforget.trans (effect_of_quiet h₂)
    | some ce =>
      have ho : (view g).owner fo = some ce := by rw [owner_of_lookup hl, hce]
      apply effect_retire ho hS
      · rw [view_delTcpConnObj, h₂.view, hv, view_delTcpConnObj]
        rfl
      · rw [states_delTcpConnObj, h₂.states, states_delTcpConnObj]
        rfl
      · intro W hW hg
        have h₁ : Known W g₁ := hg.setOte fun c hc => absurd hc.symm (Option.some_ne_none c)
        exact (h₁.of_quiet h₂).delTcpConnObj hW

end AdFilter.Tdi.Effects
