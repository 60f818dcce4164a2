import AdFilter.Driver.Represent
import AdFilter.Tdi.CloseRuns

/-!
# The index of connection contexts

Whether `ot_find_conn_ctx` leads to a connection object that has the address object
and the context it was asked for. Most events leave names and index alone; a file
object that leaves the object table, or is given another name, has to be out of the
index before.
-/

namespace AdFilter.Tdi.CtxIndex

open AdFilter.Driver.Represent (blankAdf)
open AdFilter.Lib
open AdFilter.Lib.Runs
open AdFilter.Lib.SecondaryIndex
open AdFilter.Nt
open AdFilter.Tdi.Ipc
open AdFilter.Tdi.Objects
open AdFilter.Tdi.ConnState
open AdFilter.Tdi.ObjTbl
open AdFilter.Tdi.Connections
open AdFilter.Tdi.Creation
open AdFilter.Tdi.Machine
open AdFilter.Tdi.Tables
open AdFilter.Tdi.Views
open AdFilter.Tdi.CloseRuns (associated)
open AdFilter.Tdi.HandlerEffects (CtxGranted findCtx_otDelConnCtx otAddConnCtx_success
  otDelConnCtx_success)

variable {env : Env} {g g' : Globals} {ote : OtEntry} {fo : FileObj}

/-! ## The tables of entries -/

theorem naming_addTcpConn {old : OtEntry} (h : g.lookup fo = some old) (hf : ote.fileobj = fo)
    (hn : connName ote = connName old) (tcpState : Int) :
    naming (addTcpConn env g ote tcpState).2 = naming g := by
  unfold addTcpConn
  split
  · rfl
  · split
    · rfl
    · rename_i ce pool _
      extract_lets g₁ g₂
      have h₂ : g₂.lookup fo = some old := h
      split
      · rfl
      · rw [(relinks_linkConn _ ce).naming]
        refine Eq.trans (naming_setOte_of_same h₂ ?_ ?_) rfl
        · exact hf
        · exact hn

theorem naming_delTcpConn (g : Globals) (connobj : FileObj) (isDisconnect : Bool) :
    naming (delTcpConn g connobj isDisconnect) = naming g := by
  unfold delTcpConn
  split
  · rfl
  · rename_i ote hfind
    have hl := lookup_of_find hfind
    have hf := fileobj_of_find hfind
    extract_lets g₁ g₂
    have h₁ : naming g₁ = naming g := naming_setOte_of_same hl hf rfl
    have h₂ : naming g₂ = naming g := by
      simp only [g₂]
      split
      · exact h₁
      · exact h₁
    split
    · exact h₂
    · exact h₂

theorem naming_otDelFileobj (g : Globals) (fo : FileObj) :
    naming (otDelFileobj g fo).2 = naming g ∨
      naming (otDelFileobj g fo).2 = (naming g).rename fo none := by
  unfold otDelFileobj
  split
  · exact Or.inl rfl
  · split
    · exact Or.inl rfl
    · rename_i ote _
      right
      rw [naming_eraseOte, naming_of_tables (tables_delEntries g ote)]

/-- The entry that is cleared and the new one have the same file object. -/
theorem naming_otAddFileobj (g : Globals) (o : NewObj) (granted : Bool) :
    naming (otAddFileobj g o granted).2 = naming g ∨
      naming (otAddFileobj g o granted).2 = (naming g).rename o.fileobj (connName o.entry) := by
  unfold otAddFileobj
  split
  · exact Or.inl rfl
  · rename_i h0
    have hentry : o.entry.fileobj ≠ 0 := h0
    split
    · split
      · exact Or.inr (naming_setOte hentry)
      · exact Or.inl rfl
    · rename_i ote hl
      right
      have hf : ote.fileobj = o.fileobj := fileobj_of_lookup hl
      have hclean : naming (otCleanupOte g ote) =
          (naming g).rename o.fileobj (connName { fileobj := ote.fileobj }) := by
        unfold otCleanupOte
        rw [naming_setOte (by show ote.fileobj ≠ 0; rw [hf]; exact h0),
          naming_of_tables (tables_delEntries g ote)]
        show (naming g).rename ote.fileobj _ = _
        rw [hf]
      rw [naming_setOte hentry, hclean]
      exact SecondaryIndex.View.ext (Function.update_idem ..) rfl

/-! ## The index -/

theorem naming_otAddConnCtx (g : Globals) (addrobj connCtx connobj : Nat) (granted : Bool) :
    naming (otAddConnCtx g addrobj connCtx connobj granted).2 =
      if (otAddConnCtx g addrobj connCtx connobj granted).1 = statusSuccess then
        (naming g).setIdx (addrobj, connCtx) (some connobj)
      else naming g := by
  have hput : ∀ cte : CtxEntry, cte.key = (addrobj, connCtx) → cte.connobj = connobj →
      naming { g with cte := g.cte.put cte } =
        (naming g).setIdx (addrobj, connCtx) (some connobj) := by
    intro cte hk hc
    refine SecondaryIndex.View.ext rfl ?_
    funext key
    show ((g.cte.put cte).find key).map CtxEntry.connobj = _
    rw [Chained.Map.find_put, idx_setIdx, hk]
    split
    · rw [Option.map_some, hc]
    · rfl
  unfold otAddConnCtx
  split
  · split
    · rw [if_pos rfl]
      exact hput _ rfl rfl
    · have hfail : statusInsufficientResources ≠ statusSuccess := by decide
      rw [if_neg hfail]
  · rename_i cte hfind
    rw [if_pos rfl]
    have hk : cte.key = (addrobj, connCtx) := Chained.Map.key_of_find hfind
    exact hput _ hk rfl

theorem naming_otDelConnCtx (g : Globals) (addrobj connCtx : Nat) :
    naming (otDelConnCtx g addrobj connCtx).2 = (naming g).setIdx (addrobj, connCtx) none := by
  unfold otDelConnCtx
  split
  · rename_i hfind
    refine SecondaryIndex.View.ext rfl ?_
    funext key
    rw [idx_setIdx]
    split
    · rename_i hk
      show (g.cte.find key).map CtxEntry.connobj = none
      rw [hk, show g.cte.find (addrobj, connCtx) = none from hfind]
      rfl
    · rfl
  · refine SecondaryIndex.View.ext rfl ?_
    funext key
    show ((g.cte.erase (addrobj, connCtx)).find key).map CtxEntry.connobj = _
    rw [Chained.Map.find_erase, idx_setIdx]
    split <;> rfl

/-! ## Handlers of connections -/

theorem naming_connectFiltered (h : g.lookup ote.fileobj = some ote) (ipproto : Nat)
    (request : FltRequest) (grantCopy : Bool) :
    naming (connectFiltered env g ote ipproto request grantCopy).2.2 = naming g := by
  unfold connectFiltered
  extract_lets rule f g₁ request' logged added g₂ g₃
  have hlogged : ∀ g', naming (logged g') = naming g' := by
    intro g'
    simp only [logged]
    split <;> rfl
  have h₁ : naming g₁ = naming g := (quiet_quickFilter g request).naming
  have hl₁ : g₁.lookup ote.fileobj = some ote := h
  have hadd : naming added.2 = naming g :=
    (naming_addTcpConn hl₁ rfl rfl tcpStateSynSent).trans h₁
  have hset : naming g₃ = naming g := by
    simp only [g₃]
    split
    · rename_i ote' hl
      have hf := fileobj_of_lookup hl
      refine (naming_setOte_of_same hl ?_ ?_).trans hadd
      · exact hf
      · rfl
    · exact hadd
  split
  · split
    · exact hadd
    · split
      · split
        · exact hset
        · exact (hlogged g₃).trans hset
      · exact hadd
  · exact (hlogged g₁).trans h₁

theorem naming_tdiConnect (g : Globals) (c : Connect) (pid : Nat) (grantCopy : Bool) :
    naming (tdiConnect env g c pid grantCopy).1.after = naming g := by
  unfold tdiConnect
  extract_lets denied n
  split
  · rfl
  · split
    · rename_i oteConn ipproto hfind _
      have hl := lookup_of_find hfind
      have hf := fileobj_of_find hfind
      split
      · rfl
      · extract_lets localAddr oteConn₁ g₁ oteConn₂ g₂ request r
        have h₁ : naming g₁ = naming g := naming_setOte_of_same hl hf rfl
        have hl₁ : g₁.lookup c.fileobj = some oteConn₁ := by rw [lookup_setOte, if_pos hf.symm]
        have h₂ : naming g₂ = naming g := by
          refine (naming_setOte_of_same hl₁ ?_ ?_).trans h₁
          · exact hf
          · rfl
        have hl₂ : g₂.lookup oteConn₂.fileobj = some oteConn₂ := by rw [lookup_setOte, if_pos rfl]
        have hr : naming r.2.2 = naming g :=
          (naming_connectFiltered hl₂ ipproto request grantCopy).trans h₂
        split
        · rfl
        · split
          · rfl
          · split
            · exact h₁
            · split <;> exact hr
    · rfl

theorem naming_setTcpConnState (g : Globals) (connobj : FileObj) (state : Int) :
    naming (setTcpConnState g connobj state).2 = naming g :=
  naming_of_tables (tables_setTcpConnState g connobj state)

theorem naming_tdiConnectComplete (g : Globals) (connobj : FileObj) (status : NtStatus)
    (request : Option FltRequest) :
    naming (tdiConnectComplete g connobj status request).2 = naming g := by
  unfold tdiConnectComplete
  split
  · exact (naming_setTcpConnState _ connobj _).trans (quiet_logCopy g request).naming
  · exact (naming_delTcpConn _ connobj false).trans (quiet_logCopy g _).naming

theorem naming_tdiDisconnect (g : Globals) (connobj : FileObj) (release : Bool) (garbage : Int) :
    naming (tdiDisconnect g connobj release garbage).2 = naming g := by
  unfold tdiDisconnect
  split <;> exact naming_setTcpConnState g connobj _

theorem naming_tdiDisconnectComplete (g : Globals) (connobj : FileObj) (status : NtStatus)
    (state : Int) : naming (tdiDisconnectComplete g connobj status state) = naming g := by
  unfold tdiDisconnectComplete
  split
  · split
    · exact naming_setTcpConnState g connobj _
    · split
      · exact naming_delTcpConn g connobj true
      · split
        · exact naming_delTcpConn g connobj true
        · rfl
  · rfl

theorem naming_tdiEventDisconnect (g : Globals) (addrobj : FileObj) (connCtx : Nat)
    (release : Bool) : naming (tdiEventDisconnect g addrobj connCtx release) = naming g := by
  unfold tdiEventDisconnect
  extract_lets connobj state
  split
  · split
    · exact naming_setTcpConnState g connobj _
    · split
      · exact naming_setTcpConnState g connobj _
      · rfl
  · exact naming_delTcpConn g connobj true

theorem naming_eventConnectDone (g : Globals) (l : EventLocals) (connobj : Option FileObj) :
    naming (eventConnectDone g l connobj).2 = naming g := by
  unfold eventConnectDone
  extract_lets logged g₁
  have h₁ : naming g₁ = naming g := by
    simp only [g₁]
    split <;> rfl
  clear_value g₁
  split
  · split
    · exact h₁
    · rename_i ote hb
      obtain ⟨fo, rfl, hl⟩ := Option.bind_eq_some_iff.mp hb
      split
      · exact h₁
      · rename_i ce _
        have hl' : (delTcpConnObj g₁ ce).lookup fo = some ote := hl
        have hf := fileobj_of_lookup hl
        refine Eq.trans (naming_setOte_of_same hl' ?_ ?_) h₁
        · exact hf
        · rfl
  · exact h₁

theorem naming_eventConnectFilter (g : Globals) (i : Indication) (rule : FltRule)
    (status : NtStatus) : naming (eventConnectFilter g i rule status).2.2 = naming g := by
  unfold eventConnectFilter
  extract_lets l
  split
  · exact naming_eventConnectDone g l none
  · extract_lets f l'
    split
    · exact (naming_eventConnectDone f.2 l' none).trans (quiet_quickFilter g _).naming
    · exact (quiet_quickFilter g _).naming

theorem naming_evconnAcceptComplete (g : Globals) (connobj : FileObj) (status : NtStatus) :
    naming (evconnAcceptComplete g connobj status) = naming g := by
  unfold evconnAcceptComplete
  split
  · exact naming_setTcpConnState g connobj _
  · exact naming_delTcpConn g connobj true

/-- The sweep does not touch the object table and the index. -/
theorem tables_sweepFrom {ticks : Int} {stop : Bool} {n : Nat} {prev p : Option Nat} {timeout : Int}
    {r : Globals × Int} (h : sweepFrom env ticks stop n g prev p timeout = some r) :
    tables r.1 = tables g := by
  refine sweepFrom_invariant (fun g' _ => tables g' = tables g) ?_ (fun _ _ hg => hg) rfl h
  intro g' prev ce hg
  refine Eq.trans ?_ hg
  refine Eq.trans (tables_unlinkConn _ ce) ?_
  cases prev <;> rfl

theorem naming_connThread {stop : Bool} {r : Globals × Int} (h : connThread env g stop = some r) :
    naming r.1 = naming g :=
  naming_of_tables (tables_sweepFrom h)

/-! ## Handlers that name objects -/

/-- The index leads only to objects of that name. -/
def Exact (g : Globals) : Prop := Consistent (naming g)

theorem Exact.of_naming (hg : Exact g) (h : naming g' = naming g) : Exact g' := by
  unfold Exact
  rw [h]
  exact hg

theorem Exact.otDelFileobj (hg : Exact g) (h : ¬ InIndex (naming g) fo) :
    Exact (otDelFileobj g fo).2 := by
  rcases naming_otDelFileobj g fo with he | he
  · exact hg.of_naming he
  · unfold Exact
    rw [he]
    exact hg.rename h none

theorem Exact.otAddFileobj (hg : Exact g) {o : NewObj} (h : ¬ InIndex (naming g) o.fileobj)
    (granted : Bool) : Exact (otAddFileobj g o granted).2 := by
  rcases naming_otAddFileobj g o granted with he | he
  · exact hg.of_naming he
  · unfold Exact
    rw [he]
    exact hg.rename h _

/-- The create puts an entry into the object table. -/
def EntersTable (c : Create) (o : CreateOutcome) : Prop :=
  o.pid.resolved = true ∧ getOriginalDevobj c.devobj ≠ none ∧ c.ea ≠ .absent ∧ c.ea ≠ .other

theorem exact_tdiCreate (hg : Exact g) (c : Create) (o : CreateOutcome)
    (h : EntersTable c o → ¬ InIndex (naming g) c.fileobj) : Exact (tdiCreate g c o).after := by
  unfold tdiCreate
  extract_lets g₀
  have h₀ : naming g₀ = naming g := by
    cases hp : o.pid <;> simp only [g₀, hp]
    exact (quiet_logRequest g _).naming
  have hg₀ : Exact g₀ := hg.of_naming h₀
  clear_value g₀
  split
  · exact hg₀
  · rename_i hp
    split
    · exact hg₀
    · rename_i hea
      split
      · exact hg₀
      · rename_i proto hdev
        have henters : c.ea ≠ .other → ¬ InIndex (naming g₀) c.fileobj := by
          rw [h₀]
          intro ho
          exact h ⟨by simpa using hp, by rw [hdev]; exact Option.some_ne_none proto, hea, ho⟩
        split
        · rename_i ht
          have hn := henters (by rw [ht]; exact Ea.noConfusion)
          simp only
          split
          · exact hg₀.otAddFileobj hn o.grantOte
          · split <;> exact hg₀.otAddFileobj hn o.grantOte
        · rename_i connCtx ht
          have hn := henters (by rw [ht]; exact Ea.noConfusion)
          simp only
          split <;> exact hg₀.otAddFileobj hn o.grantOte
        · exact hg₀

/-- The completion of the create lets the object be: the create, or its query, is pending. -/
def CompletesPending (devobj : DevObj) (status : NtStatus) (q : QueryOutcome) : Prop :=
  if status ≠ statusSuccess then status = statusPending
  else q.granted = true ∧ getOriginalDevobj devobj ≠ none ∧ q.status = statusPending

theorem exact_tdiCreateAddrobjComplete (hg : Exact g) (devobj : DevObj) (fileobj : FileObj)
    (status : NtStatus) (q : QueryOutcome)
    (h : CompletesPending devobj status q ∨ ¬ InIndex (naming g) fileobj) :
    Exact (tdiCreateAddrobjComplete env g devobj fileobj status q).2 := by
  unfold tdiCreateAddrobjComplete
  extract_lets r
  have hr : naming r.2 = naming g ∧ (CompletesPending devobj status q → r.1 = statusPending) := by
    simp only [r]
    unfold CompletesPending
    split
    · exact ⟨rfl, id⟩
    · split
      · rename_i hq
        exact ⟨rfl, fun hc => absurd (hc.1.symm.trans hq) (by decide)⟩
      · split
        · rename_i hd
          exact ⟨rfl, fun hc => absurd hd hc.2.1⟩
        · refine ⟨?_, fun hc => hc.2.2⟩
          simp only
          split
          · exact (quiet_tdiCreateAddrobjComplete2 g fileobj q.addr).naming
          · rfl
  clear_value r
  split
  · rename_i hp
    refine Exact.otDelFileobj (hg.of_naming hr.1) ?_
    rw [hr.1]
    exact h.resolve_left fun hc => hp (hr.2 hc)
  · exact hg.of_naming hr.1

/-- The association gets into the index. -/
def Associates (g : Globals) (addrobj : FileObj) (ote : OtEntry) (grantCtx : Bool) : Prop :=
  grantCtx = true ∨ (findCtx g addrobj ote.connCtx).isSome

/-- An object that is associated anew is out of the index, and one that gets in is a
connection object. -/
def AssociatesRight (g : Globals) (connobj addrobj : FileObj) (grantCtx : Bool) : Prop :=
  ∀ ote, g.otFindFileobj connobj = some ote →
    (ote.associatedFileobj ≠ addrobj → ¬ InIndex (naming g) connobj) ∧
      (Associates g addrobj ote grantCtx → ote.type = .connobj)

/-- The name of an entry may change once it is out of the index, and must stay otherwise. -/
theorem Exact.setOte (hg : Exact g) {new : OtEntry} (h : g.otFindFileobj fo = some ote)
    (hf : new.fileobj = fo) (hn : connName new = connName ote ∨ ¬ InIndex (naming g) fo) :
    Exact (g.setOte new) := by
  rcases hn with hn | hn
  · exact hg.of_naming (naming_setOte_of_same (lookup_of_find h) hf hn)
  · unfold Exact
    rw [naming_setOte (by rw [hf]; exact find_pos h), hf]
    exact hg.rename hn _

/-- A connection object goes into the index under its own name. -/
theorem Exact.otAddConnCtx (hg : Exact g) {addrobj connCtx : Nat} {granted : Bool}
    (h : (otAddConnCtx g addrobj connCtx fo granted).1 = statusSuccess →
      (naming g).name fo = some (addrobj, connCtx)) :
    Exact (otAddConnCtx g addrobj connCtx fo granted).2 := by
  unfold Exact
  rw [naming_otAddConnCtx]
  split
  · rename_i hs
    exact hg.insert (h hs)
  · exact hg

theorem exact_tdiAssociateAddress (hg : Exact g) (connobj : FileObj) (addrobj : Option FileObj)
    (grantCtx : Bool) (h : ∀ a, addrobj = some a → AssociatesRight g connobj a grantCtx) :
    Exact (tdiAssociateAddress g connobj addrobj grantCtx).2 := by
  unfold tdiAssociateAddress
  split
  · rename_i a ote hfind
    extract_lets g₁ c
    obtain ⟨hout, htype⟩ := h a rfl ote hfind
    have hf := fileobj_of_find hfind
    have h₁ : Exact g₁ := by
      refine hg.setOte hfind hf ?_
      by_cases ha : ote.associatedFileobj = a
      · subst ha
        exact Or.inl rfl
      · exact Or.inr (hout ha)
    refine h₁.otAddConnCtx fun hs => ?_
    have hc : ote.type = .connobj := by
      refine htype ?_
      have hadd := otAddConnCtx_success.mp hs
      exact hadd
    have hfind₁ : g₁.otFindFileobj connobj = some { ote with associatedFileobj := a } :=
      find_setOte_self (find_pos hfind) hf
    rw [name_of_find hfind₁]
    simp only [connName, hc, if_true]
  · exact hg

theorem exact_tdiDisassociateAddress (hg : Exact g) (connobj : FileObj) :
    Exact (tdiDisassociateAddress g connobj).2 := by
  unfold tdiDisassociateAddress
  split
  · exact hg
  · unfold Exact
    simp only
    rw [naming_otDelConnCtx]
    exact hg.remove _

/-! ## Accepting a connection -/

/-- What the rest of the handler works with: the entry of the object, as far as its name goes. -/
def Named (g : Globals) (fo : FileObj) (ote : OtEntry) : Prop :=
  ote.fileobj = fo ∧ ∃ old, g.lookup fo = some old ∧ connName ote = connName old

theorem exact_changeConnCtx (hg : Exact g) (h : g.otFindFileobj fo = some ote) (connCtx : Nat)
    (grantCtx : Bool)
    (htype : ote.connCtx ≠ connCtx → CtxGranted g ote connCtx grantCtx → ote.type = .connobj) :
    Exact (changeConnCtx g ote connCtx grantCtx).2.2 ∧
      Named (changeConnCtx g ote connCtx grantCtx).2.2 fo
        (changeConnCtx g ote connCtx grantCtx).2.1 := by
  have hl := lookup_of_find h
  have hf := fileobj_of_find h
  unfold changeConnCtx
  split
  · exact ⟨hg, hf, ote, hl, rfl⟩
  · rename_i hc
    extract_lets d ote' a
    have hd : naming d.2 = (naming g).setIdx (ote.associatedFileobj, ote.connCtx) none :=
      naming_otDelConnCtx g _ _
    have hg₁ : Exact d.2 := by
      unfold Exact
      rw [hd]
      exact hg.remove _
    have hot : d.2.ot = g.ot := by
      simp only [d, otDelConnCtx]
      split <;> rfl
    have hfind₁ : d.2.otFindFileobj fo = some ote := by
      rw [Globals.otFindFileobj, Globals.lookup, hot]
      exact h
    split
    · exact ⟨hg₁, hf, ote, lookup_of_find hfind₁, rfl⟩
    · rename_i hs
      have hs : d.1 = statusSuccess := not_not.mp hs
      -- the old name is out of the index, and a new name is given to a connection object
      have hname : connName ote' = connName ote ∨ ¬ InIndex (naming d.2) fo := by
        by_cases ht : ote.type = .connobj
        · right
          rw [hd]
          refine not_inIndex_remove ?_
          rw [name_of_find h, connName, if_pos ht]
        · left
          have ht' : ote'.type ≠ .connobj := ht
          rw [connName, connName, if_neg ht, if_neg ht']
      have hg₂ : Exact (d.2.setOte ote') := by
        refine hg₁.setOte hfind₁ ?_ hname
        exact hf
      have hfind₂ : (d.2.setOte ote').otFindFileobj fo = some ote' :=
        find_setOte_self (find_pos h) hf
      refine ⟨?_, hf, ote', ?_, rfl⟩
      · have ha : a.2 = (otAddConnCtx (d.2.setOte ote') ote'.associatedFileobj connCtx
            fo grantCtx).2 := by
          simp only [a]
          rw [show ote'.fileobj = fo from hf]
        rw [ha]
        refine hg₂.otAddConnCtx fun hadd => ?_
        have hgrant := otAddConnCtx_success.mp hadd
        have hctx : findCtx (d.2.setOte ote') ote.associatedFileobj connCtx =
            findCtx g ote.associatedFileobj connCtx := findCtx_otDelConnCtx hc
        have hct : ote.type = .connobj := by
          refine htype hc (Or.inr ⟨otDelConnCtx_success.mp hs, ?_⟩)
          rw [← hctx]
          exact hgrant
        rw [name_of_find hfind₂, connName, if_pos hct]
      · have hla : a.2.ot = (d.2.setOte ote').ot := by
          simp only [a, otAddConnCtx]
          split
          · split <;> rfl
          · rfl
        rw [Globals.lookup, hla]
        exact lookup_of_find hfind₂

theorem tables_clearEntries (g : Globals) (ote : OtEntry) : tables (clearEntries g ote) = tables g := by
  unfold clearEntries
  extract_lets g₁ g₂
  have h₁ : tables g₁ = tables g := by
    simp only [g₁]
    split
    · exact tables_delListenObj g _
    · rfl
  split
  · refine Eq.trans ?_ h₁
    show tables g₂ = tables g₁
    simp only [g₂]
    split <;> rfl
  · exact h₁

theorem naming_enterConn (h : Named g fo ote) (rule : FltRule) (r : AcceptReads) :
    naming (enterConn env g ote rule r).2 = naming g := by
  obtain ⟨hf, old, hl, hn⟩ := h
  unfold enterConn
  extract_lets g₁ ote₁ n m ote₂ ote₃
  have htables : tables g₁ = tables g := tables_clearEntries g ote
  have h₁ : naming g₁ = naming g := naming_of_tables htables
  have hl₁ : g₁.lookup fo = some old := (lookup_congr htables fo).trans hl
  have hset : ∀ new : OtEntry, new.fileobj = fo → connName new = connName old →
      naming (g₁.setOte new) = naming g :=
    fun new hf' hn' => (naming_setOte_of_same hl₁ hf' hn').trans h₁
  clear_value g₁
  split
  · exact hset ote₁ hf hn
  · split
    · exact hset ote₁ hf hn
    · split
      · exact hset ote₂ hf hn
      · have hl₃ : (g₁.setOte ote₃).lookup fo = some ote₃ := by
          have hf₃ : ote₃.fileobj = fo := hf
          rw [lookup_setOte, if_pos hf₃.symm]
        refine (naming_addTcpConn hl₃ ?_ rfl _).trans (hset ote₃ hf hn)
        exact hf

/-- The second part of the indication gives an object another context, and gets it
into the index. -/
def ChangesCtx (g : Globals) (reply : HandlerReply) (r : AcceptReads) (ote : OtEntry) : Prop :=
  reply.status = statusMoreProcessingRequired ∧ r.grantParam = true ∧
    ote.associatedFileobj = r.addrobj ∧ ote.connCtx ≠ reply.connCtx ∧
      CtxGranted g ote reply.connCtx r.grantCtx

theorem exact_eventConnectAccept (hg : Exact g) (l : EventLocals) (reply : HandlerReply)
    (r : AcceptReads)
    (h : ∀ connobj ote, reply.acceptIrp = some connobj → g.otFindFileobj connobj = some ote →
      ChangesCtx g reply r ote → ote.type = .connobj) :
    Exact (eventConnectAccept env g l reply r).2 := by
  unfold eventConnectAccept
  extract_lets fail
  have hfail : ∀ g' status connobj, Exact g' → Exact (fail g' status connobj).2 :=
    fun g' status connobj hg' => hg'.of_naming (naming_eventConnectDone g' _ connobj)
  split
  · exact hfail g _ _ hg
  · rename_i connobj hirp
    split
    · exact hfail g _ _ hg
    · rename_i hmore
      split
      · exact hfail g _ _ hg
      · rename_i hparam
        split
        · exact hfail g _ _ hg
        · rename_i ote hfind
          split
          · exact hfail g _ _ hg
          · rename_i hassoc
            extract_lets c e
            obtain ⟨hc, hnamed⟩ := exact_changeConnCtx hg hfind reply.connCtx r.grantCtx
              fun hne hgr => h connobj ote hirp hfind
                ⟨not_not.mp hmore, by simpa using hparam, not_not.mp hassoc, hne, hgr⟩
            have he : Exact e.2 := Exact.of_naming hc (naming_enterConn hnamed l.rule r)
            split
            · exact hfail c.2.2 _ _ hc
            · split
              · exact hfail e.2 _ _ he
              · exact he.of_naming (naming_eventConnectDone e.2 _ _)

/-! ## Every run -/

/-- An object leaves the table, or gets another name, only when the index does not
lead to it, and only connection objects get into the index. -/
def NoStale (g : Globals) : Event → Prop
  | .create c o => EntersTable c o → ¬ InIndex (naming g) c.fileobj
  | .createComplete devobj fileobj status q =>
      CompletesPending devobj status q ∨ ¬ InIndex (naming g) fileobj
  | .cleanup fileobj => ¬ InIndex (naming g) fileobj
  | .associate connobj addrobj grantCtx =>
      ∀ a, addrobj = some a → AssociatesRight g connobj a grantCtx
  | .accept _ reply r => ∀ connobj ote, reply.acceptIrp = some connobj →
      g.otFindFileobj connobj = some ote → ChangesCtx g reply r ote → ote.type = .connobj
  | _ => True

theorem exact_step {e : Event} {o : Output} (hg : Exact g) (he : NoStale g e)
    (h : step env g e = some (g', o)) : Exact g' := by
  cases e with
  | create c oc => exact (Prod.mk.inj (Option.some.inj h)).1 ▸ exact_tdiCreate hg c oc he
  | createComplete devobj fileobj status q =>
    exact (Prod.mk.inj (Option.some.inj h)).1 ▸
      exact_tdiCreateAddrobjComplete hg devobj fileobj status q he
  | createComplete2 fileobj addr =>
    exact hg.of_naming ((Prod.mk.inj (Option.some.inj h)).1 ▸
      (quiet_tdiCreateAddrobjComplete2 g fileobj addr).naming)
  | cleanup fileobj => exact (Prod.mk.inj (Option.some.inj h)).1 ▸ hg.otDelFileobj he
  | associate connobj addrobj grantCtx =>
    exact (Prod.mk.inj (Option.some.inj h)).1 ▸
      exact_tdiAssociateAddress hg connobj addrobj grantCtx he
  | disassociate connobj =>
    exact (Prod.mk.inj (Option.some.inj h)).1 ▸ exact_tdiDisassociateAddress hg connobj
  | connect c pid grantCopy =>
    exact hg.of_naming ((Prod.mk.inj (Option.some.inj h)).1 ▸ naming_tdiConnect g c pid grantCopy)
  | connectComplete connobj status request =>
    exact hg.of_naming ((Prod.mk.inj (Option.some.inj h)).1 ▸
      naming_tdiConnectComplete g connobj status request)
  | updateConnInfoComplete connobj addr =>
    exact hg.of_naming ((Prod.mk.inj (Option.some.inj h)).1 ▸
      (relinks_setTcpConnLocal g connobj addr).naming)
  | disconnect connobj release garbage =>
    exact hg.of_naming ((Prod.mk.inj (Option.some.inj h)).1 ▸
      naming_tdiDisconnect g connobj release garbage)
  | disconnectComplete connobj status state =>
    exact hg.of_naming ((Prod.mk.inj (Option.some.inj h)).1 ▸
      naming_tdiDisconnectComplete g connobj status state)
  | eventConnect i rule status =>
    exact hg.of_naming ((Prod.mk.inj (Option.some.inj h)).1 ▸
      naming_eventConnectFilter g i rule status)
  | accept l reply r =>
    exact (Prod.mk.inj (Option.some.inj h)).1 ▸ exact_eventConnectAccept hg l reply r he
  | acceptComplete connobj status =>
    exact hg.of_naming ((Prod.mk.inj (Option.some.inj h)).1 ▸
      naming_evconnAcceptComplete g connobj status)
  | eventDisconnect addrobj connCtx release =>
    exact hg.of_naming ((Prod.mk.inj (Option.some.inj h)).1 ▸
      naming_tdiEventDisconnect g addrobj connCtx release)
  | send d pid =>
    obtain ⟨hd, hs, hq⟩ := Option.map_eq_some_iff.mp h
    exact hg.of_naming ((Prod.mk.inj hq).1 ▸ (quiet_tdiSendDatagram hs).naming)
  | receiveComplete r =>
    exact hg.of_naming ((Prod.mk.inj (Option.some.inj h)).1 ▸
      (quiet_tdiReceiveDatagramComplete g r).naming)
  | eventReceive addrobj remoteAddr n handler =>
    exact hg.of_naming ((Prod.mk.inj (Option.some.inj h)).1 ▸
      (quiet_tdiEventReceiveDatagram g addrobj remoteAddr n handler).naming)
  | processNotify pid create =>
    exact hg.of_naming ((Prod.mk.inj (Option.some.inj h)).1 ▸ rfl)
  | sweep stop =>
    obtain ⟨r, hr, hq⟩ := Option.map_eq_some_iff.mp h
    exact hg.of_naming ((Prod.mk.inj hq).1 ▸ naming_connThread hr)
  | tick n => exact hg.of_naming ((Prod.mk.inj (Option.some.inj h)).1 ▸ rfl)

theorem exact_initial (h : Initial g) : Exact g := by
  intro key k hk
  simp [naming, h.cte] at hk

/-- What `ot_find_conn_ctx` returns is a connection object with that address object
and that context. -/
def LeadsRight (g : Globals) : Prop :=
  ∀ addrobj connCtx connobj, otFindConnCtx g addrobj connCtx = connobj → connobj ≠ 0 →
    ∃ ote, g.otFindFileobj connobj = some ote ∧ ote.type = .connobj ∧
      ote.associatedFileobj = addrobj ∧ ote.connCtx = connCtx

theorem Exact.leadsRight (hg : Exact g) : LeadsRight g := by
  intro addrobj connCtx connobj hfind h0
  unfold otFindConnCtx at hfind
  split at hfind
  · exact absurd hfind.symm h0
  · rename_i cte hcte
    have hidx : (naming g).idx (addrobj, connCtx) = some connobj := by
      show (g.cte.find (addrobj, connCtx)).map CtxEntry.connobj = some connobj
      rw [show g.cte.find (addrobj, connCtx) = some cte from hcte, Option.map_some, hfind]
    obtain ⟨ote, hote, hn⟩ := Option.bind_eq_some_iff.mp (hg _ _ hidx)
    unfold connName at hn
    split at hn
    · rename_i ht
      obtain ⟨ha, hc⟩ := Prod.mk.inj (Option.some.inj hn)
      exact ⟨ote, hote, ht, ha, hc⟩
    · exact absurd hn.symm (Option.some_ne_none _)

/-- In every run under the condition the index never outlives its objects. -/
theorem reached_leadsRight (h : Reached (step env) NoStale Initial g) : LeadsRight g :=
  Exact.leadsRight <|
    reached_invariant Exact (fun _ h₀ => exact_initial h₀)
      (fun _ _ _ _ hg he hs => exact_step hg he hs) h

/-! ## A connection object that is cleaned up in the index -/

theorem not_inIndex_of_empty (h : g.cte = Chained.Map.empty) (fo : FileObj) :
    ¬ InIndex (naming g) fo := by
  rintro ⟨b, -, hb⟩
  simp [naming, h] at hb

theorem associated_noStale :
    Meets (step (freeBuild fun _ _ => none)) NoStale (blank blankAdf) associated := by
  refine ⟨fun _ => not_inIndex_of_empty rfl 32, fun r₁ h₁ => ⟨trivial, fun r₂ h₂ =>
    ⟨fun _ => ?_, fun r₃ h₃ => ⟨?_, fun _ _ => trivial⟩⟩⟩⟩ <;> obtain rfl := Option.some.inj h₁ <;>
    obtain rfl := Option.some.inj h₂
  · exact not_inIndex_of_empty rfl 64
  · obtain rfl := Option.some.inj h₃
    intro a ha ote hfind
    obtain rfl := Option.some.inj hfind
    exact ⟨fun _ => not_inIndex_of_empty rfl 64, fun _ => rfl⟩

/-- A new connection object is found under its address object and its context. -/
theorem reached_leadsRight_associated :
    ∃ g os, run (step (freeBuild fun _ _ => none)) (blank blankAdf) associated = some (g, os) ∧
      otFindConnCtx g 32 7 = 64 ∧ LeadsRight g := by
  obtain ⟨g, os, hr, hf⟩ : ∃ g os, run (step (freeBuild fun _ _ => none)) (blank blankAdf)
      associated = some (g, os) ∧ otFindConnCtx g 32 7 = 64 := ⟨_, _, rfl, rfl⟩
  exact ⟨g, os, hr, hf, reached_leadsRight
    ⟨_, _, os, initial_blank blankAdf, associated_noStale, hr⟩⟩

/-- The index still leads to an object that is gone. -/
theorem cleanup_leaves_stale_context :
    ¬ ∀ (env : Env) (g : Globals),
      Reached (step env) (fun _ _ => True) Initial g → LeadsRight g := by
  intro h
  obtain ⟨g, os, hr, hf, hgone⟩ : ∃ g os, run (step (freeBuild fun _ _ => none)) (blank blankAdf)
      (associated ++ [.cleanup 64]) = some (g, os) ∧ otFindConnCtx g 32 7 = 64 ∧
        g.otFindFileobj 64 = none := ⟨_, _, rfl, rfl, rfl⟩
  obtain ⟨ote, hote, -⟩ := h _ g
    ⟨_, _, os, initial_blank blankAdf, meets_of_forall (fun _ _ => trivial) _ _, hr⟩ 32 7 64 hf
    (by decide)
  exact absurd (hote.symm.trans hgone) (Option.some_ne_none ote)

end AdFilter.Tdi.CtxIndex
