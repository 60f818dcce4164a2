import AdFilter.Tdi.ObjTbl

/-!
# What the functions leave of the two tables

The functions of the listen and connection entries do not touch the object table
and the context table, and the functions of these tables find what they have put.
-/

namespace AdFilter.Tdi.Tables

open AdFilter.Lib
open AdFilter.Nt
open AdFilter.Tdi.Ipc
open AdFilter.Tdi.Objects
open AdFilter.Tdi.ConnState
open AdFilter.Tdi.ObjTbl

/-- The object table and the context table. -/
def tables (g : Globals) :
    Chained.Map OtEntry.fileobj calcHash × Chained.Map CtxEntry.key calcHash2 := (g.ot, g.cte)

variable {g g' : Globals} {fo : FileObj} {ote : OtEntry}

theorem lookup_congr (h : tables g' = tables g) (fo : FileObj) : g'.lookup fo = g.lookup fo := by
  rw [Globals.lookup, Globals.lookup, (Prod.mk.inj h).1]

theorem otFindFileobj_congr (h : tables g' = tables g) (fo : FileObj) :
    g'.otFindFileobj fo = g.otFindFileobj fo := by
  rw [Globals.otFindFileobj, Globals.otFindFileobj, lookup_congr h]

/-! ## Listen and connection entries -/

@[simp] theorem tables_logRequest (g : Globals) (r : FltRequest) :
    tables (g.logRequest r) = tables g := rfl

@[simp] theorem tables_setConnAt (g : Globals) (p : Option Nat) (f : ConnEntry → ConnEntry) :
    tables (g.setConnAt p f) = tables g := by
  cases p <;> rfl

@[simp] theorem tables_setListenAt (g : Globals) (p : Option Nat) (f : ListenEntry → ListenEntry) :
    tables (g.setListenAt p f) = tables g := by
  cases p <;> rfl

theorem tables_linkListen (g : Globals) (le : Nat) : tables (linkListen g le) = tables g :=
  tables_setListenAt _ _ _

theorem tables_delListenObj (g : Globals) (le : Nat) : tables (delListenObj g le) = tables g := by
  refine (tables_setListenAt _ _ _).trans ?_
  cases (g.listen le).prev <;> rfl

theorem tables_unlinkConn (g : Globals) (ce : Nat) : tables (unlinkConn g ce) = tables g := by
  refine (tables_setConnAt _ _ _).trans ?_
  cases (g.conn ce).prev <;> rfl

theorem tables_delTcpConnObj (g : Globals) (ce : Nat) : tables (delTcpConnObj g ce) = tables g := rfl

theorem tables_setTcpConnState (g : Globals) (connobj : FileObj) (state : Int) :
    tables (setTcpConnState g connobj state).2 = tables g := by
  unfold setTcpConnState
  split
  · rfl
  · split <;> rfl

theorem tables_delEntries (g : Globals) (ote : OtEntry) : tables (delEntries g ote) = tables g := by
  unfold delEntries
  split
  · exact tables_delListenObj g _
  · simp only
    split <;> rfl
  · rfl

/-! ## The object table -/

theorem otFindFileobj_setOte (h : ote.fileobj ≠ 0) (fo : FileObj) :
    (g.setOte ote).otFindFileobj fo = if fo = ote.fileobj then some ote else g.otFindFileobj fo := by
  rw [Globals.otFindFileobj, Globals.otFindFileobj, lookup_setOte]
  by_cases hf : fo = ote.fileobj
  · subst hf
    simp [h]
  · simp [hf]

theorem otFindFileobj_eraseOte (g : Globals) (fo fo' : FileObj) :
    (g.eraseOte fo).otFindFileobj fo' = if fo' = fo then none else g.otFindFileobj fo' := by
  have hl : (g.eraseOte fo).lookup fo' = if fo' = fo then none else g.lookup fo' :=
    g.ot.find_erase fo fo'
  rw [Globals.otFindFileobj, Globals.otFindFileobj, hl]
  by_cases hf : fo' = fo <;> simp [hf]

theorem find_pos (h : g.otFindFileobj fo = some ote) : fo ≠ 0 := by
  rintro rfl
  exact absurd h (by simp [Globals.otFindFileobj])

theorem find_setOte_self {new : OtEntry} (h0 : fo ≠ 0) (hf : new.fileobj = fo) :
    (g.setOte new).otFindFileobj fo = some new := by
  rw [otFindFileobj_setOte (by rw [hf]; exact h0), if_pos hf.symm]

/-- A write through a pointer finds nothing new. -/
theorem found_setOte {new : OtEntry} (h : g.otFindFileobj new.fileobj ≠ none) (fo : FileObj) :
    (g.setOte new).otFindFileobj fo ≠ none ↔ g.otFindFileobj fo ≠ none := by
  obtain ⟨ote, hote⟩ := Option.ne_none_iff_exists'.mp h
  rw [otFindFileobj_setOte (find_pos hote)]
  by_cases hf : fo = new.fileobj
  · subst hf
    simp [h]
  · simp [hf]

/-- `ot_add_fileobj` succeeds when the entry is there or there is memory for it. -/
theorem otAddFileobj_success (g : Globals) (o : NewObj) (granted : Bool) :
    (otAddFileobj g o granted).1 = statusSuccess ↔
      o.fileobj ≠ 0 ∧ (g.otFindFileobj o.fileobj ≠ none ∨ granted = true) := by
  unfold otAddFileobj Globals.otFindFileobj
  by_cases h0 : o.fileobj = 0
  · have hne : statusInvalidParameter2 ≠ statusSuccess := by decide
    simp [h0, hne]
  · simp only [h0, if_false]
    cases g.lookup o.fileobj <;> cases granted <;> simp [h0]
    decide

/-- What is found after `ot_add_fileobj`. -/
theorem otFindFileobj_otAddFileobj (g : Globals) (o : NewObj) (granted : Bool) (fo : FileObj) :
    (otAddFileobj g o granted).2.otFindFileobj fo =
      if (otAddFileobj g o granted).1 = statusSuccess ∧ fo = o.fileobj then some o.entry
      else g.otFindFileobj fo := by
  by_cases hs : (otAddFileobj g o granted).1 = statusSuccess
  · obtain ⟨h0, hor⟩ := (otAddFileobj_success g o granted).mp hs
    have hentry : o.entry.fileobj ≠ 0 := h0
    have hset : ∀ g₀ : Globals, tables g₀ = tables g →
        (g₀.setOte o.entry).otFindFileobj fo =
          if fo = o.fileobj then some o.entry else g.otFindFileobj fo := by
      intro g₀ ht
      rw [otFindFileobj_setOte hentry, otFindFileobj_congr ht]
      rfl
    rw [if_congr (and_iff_right hs) rfl rfl]
    unfold otAddFileobj
    rw [if_neg h0]
    cases hl : g.lookup o.fileobj with
    | none =>
      have hg : granted = true := by
        rcases hor with h | h
        · rw [Globals.otFindFileobj, if_neg h0, hl] at h
          exact absurd rfl h
        · exact h
      simp only [hg, if_true]
      exact hset g rfl
    | some ote =>
      simp only
      have hclean : (otCleanupOte g ote).setOte o.entry =
          ((delEntries g ote).setOte { fileobj := ote.fileobj }).setOte o.entry := rfl
      have hf : ote.fileobj = o.fileobj := fileobj_of_lookup hl
      rw [hclean, otFindFileobj_setOte hentry, otFindFileobj_setOte (by rw [hf]; exact h0),
        otFindFileobj_congr (tables_delEntries g ote)]
      show (if fo = o.fileobj then _ else if fo = ote.fileobj then _ else _) = _
      rw [hf]
      by_cases hfo : fo = o.fileobj <;> simp [hfo]
  · rw [if_neg fun h => hs h.1]
    unfold otAddFileobj at hs ⊢
    split
    · rfl
    · cases hl : g.lookup o.fileobj with
      | none => cases granted <;> simp_all
      | some ote => simp_all

/-- What is found after `ot_del_fileobj`. -/
theorem otFindFileobj_otDelFileobj (g : Globals) (fo fo' : FileObj) :
    (otDelFileobj g fo).2.otFindFileobj fo' = if fo' = fo then none else g.otFindFileobj fo' := by
  unfold otDelFileobj
  by_cases h0 : fo = 0
  · subst h0
    by_cases hf : fo' = 0 <;> simp [hf, Globals.otFindFileobj]
  · rw [if_neg h0]
    cases hl : g.lookup fo with
    | none =>
      by_cases hf : fo' = fo
      · subst hf
        simp [Globals.otFindFileobj, hl]
      · simp [hf]
    | some ote =>
      simp only
      rw [otFindFileobj_eraseOte, otFindFileobj_congr (tables_delEntries g ote)]

end AdFilter.Tdi.Tables
