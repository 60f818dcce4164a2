import AdFilter.Tdi.Creation
import AdFilter.Tdi.History
import AdFilter.Tdi.Tables

/-!
# The life of an address object

A create of an address object with its completion routines, from the entry that
`tdi_create` puts into the object table to the status the create ends with. The
completion takes the entry out on every status but pending, success included.
-/

namespace AdFilter.Tdi.AddressLife

open AdFilter.Driver.Filter (tdifwFilter tdifwUdpSend)
open AdFilter.Driver.Represent (blankAdf)
open AdFilter.Nt
open AdFilter.Tdi.Ipc
open AdFilter.Tdi.Objects
open AdFilter.Tdi.ConnState
open AdFilter.Tdi.ObjTbl
open AdFilter.Tdi.Datagrams
open AdFilter.Tdi.Creation
open AdFilter.Tdi.Machine
open AdFilter.Tdi.Tables
open AdFilter.Tdi.History

/-- How a create has ended. -/
structure Life where
  denied : Bool
  status : NtStatus
  after : Globals

/-- The lower driver ends the create with `lower`. A query that is under way when
`IoCallDriver` returns ends later. -/
def createLife (env : Env) (g : Globals) (c : Create) (o : CreateOutcome) (irp : Irp)
    (lower : NtStatus) (q : QueryOutcome) : Life :=
  let r := tdiCreate g c o
  let denied := decide (r.result = filterDeny)
  match tdiDispatchComplete c.devobj irp r.result r.completion with
  | .completed status => ⟨denied, status, r.after⟩
  | .forwarded false => ⟨denied, lower, r.after⟩
  | .forwarded true =>
      let e := tdiCreateAddrobjComplete env r.after c.devobj c.fileobj lower q
      ⟨denied, e.1,
        if lower = statusSuccess ∧ q.granted = true ∧ q.ended = false then
          tdiCreateAddrobjComplete2 env e.2 c.fileobj q.addr
        else e.2⟩

variable {env : Env} {g : Globals} {c : Create} {o : CreateOutcome} {irp : Irp} {lower : NtStatus}
  {q : QueryOutcome} {ote : OtEntry}

/-- The status of the create once the query has been sent or given up. -/
def queryStatus (lower : NtStatus) (q : QueryOutcome) : NtStatus :=
  if lower ≠ statusSuccess then lower
  else if q.granted = false then statusInsufficientResources
  else q.status

/-- The object is in the table just when the create was let through and did not
fail, and then its datagrams are put to the filter. -/
structure Tracked (env : Env) (fileobj : FileObj) (l : Life) : Prop where
  found : l.after.otFindFileobj fileobj ≠ none ↔ l.denied = false ∧ ntSuccess l.status = true
  filtered : l.denied = false → ntSuccess l.status = true → ∀ (d : Datagram) (pid : Nat),
    d.devobj = .udp → d.fileobj = fileobj → ∃ ote, l.after.otFindFileobj fileobj = some ote ∧
      (tdiSendDatagram env l.after d pid).map Handled.result =
        tdifwUdpSend env.matcher l.after.adf
          (tdifwFilter l.after.needCheck (sendRequest d ipprotoUdp ote pid)).2 d.data d.len

/-- What is found decides both parts. -/
theorem tracked_iff (fileobj : FileObj) (l : Life) :
    Tracked env fileobj l ↔
      (l.after.otFindFileobj fileobj ≠ none ↔ l.denied = false ∧ ntSuccess l.status = true) := by
  refine ⟨Tracked.found, fun h => ⟨h, fun hd hs d pid hdev hfo => ?_⟩⟩
  obtain ⟨ote, hote⟩ := Option.ne_none_iff_exists'.mp (h.mpr ⟨hd, hs⟩)
  have hp : isDatagramProto d.devobj = some ipprotoUdp := by rw [hdev]; decide
  exact ⟨ote, hote, send_known hp (hfo ▸ hote)⟩

/-! ## The completion routines -/

theorem found_addListen (h : g.otFindFileobj ote.fileobj ≠ none) (fo : FileObj) :
    (addListen env g ote).2.otFindFileobj fo ≠ none ↔ g.otFindFileobj fo ≠ none := by
  unfold addListen
  split
  · exact Iff.rfl
  · split
    · exact Iff.rfl
    · rename_i le pool _
      split
      · exact Iff.rfl
      · rw [otFindFileobj_congr (tables_linkListen _ le)]
        refine (found_setOte ?_ fo).trans Iff.rfl
        exact h

/-- The second completion finds nothing new, and loses nothing. -/
theorem found_complete2 (g : Globals) (fileobj fo : FileObj) (addr : TaAddress) :
    (tdiCreateAddrobjComplete2 env g fileobj addr).otFindFileobj fo ≠ none ↔
      g.otFindFileobj fo ≠ none := by
  unfold tdiCreateAddrobjComplete2
  split
  · exact Iff.rfl
  · rename_i ote hf
    have hfound : g.otFindFileobj ote.fileobj ≠ none := by
      rw [fileobj_of_find hf, hf]
      exact Option.some_ne_none ote
    split
    · exact Iff.rfl
    · extract_lets ote' g₁
      have h₁ : ∀ fo, g₁.otFindFileobj fo ≠ none ↔ g.otFindFileobj fo ≠ none := found_setOte hfound
      split
      · have hfound' : g₁.otFindFileobj ote'.fileobj ≠ none := (h₁ ote.fileobj).mpr hfound
        exact (found_addListen hfound' fo).trans (h₁ fo)
      · exact h₁ fo

/-- The first completion gives the create its status, and takes the entry out on
every status but pending. -/
theorem complete_spec (env : Env) (g : Globals) (lower : NtStatus) (q : QueryOutcome)
    (hp : getOriginalDevobj c.devobj ≠ none) (fo : FileObj) :
    (tdiCreateAddrobjComplete env g c.devobj c.fileobj lower q).1 = queryStatus lower q ∧
      ((tdiCreateAddrobjComplete env g c.devobj c.fileobj lower q).2.otFindFileobj fo ≠ none ↔
        (queryStatus lower q = statusPending ∨ fo ≠ c.fileobj) ∧ g.otFindFileobj fo ≠ none) := by
  obtain ⟨proto, hp⟩ := Option.ne_none_iff_exists'.mp hp
  have hdel : ∀ g₀ : Globals, (∀ fo, g₀.otFindFileobj fo ≠ none ↔ g.otFindFileobj fo ≠ none) →
      ∀ status : NtStatus, (if status ≠ statusPending then (status, (otDelFileobj g₀ c.fileobj).2)
        else (status, g₀)).1 = status ∧
      ((if status ≠ statusPending then (status, (otDelFileobj g₀ c.fileobj).2)
        else (status, g₀)).2.otFindFileobj fo ≠ none ↔
        (status = statusPending ∨ fo ≠ c.fileobj) ∧ g.otFindFileobj fo ≠ none) := by
    intro g₀ h₀ status
    by_cases hs : status = statusPending
    · rw [if_neg (not_not_intro hs)]
      exact ⟨rfl, (h₀ fo).trans (by simp [hs])⟩
    · rw [if_pos hs]
      refine ⟨rfl, ?_⟩
      rw [otFindFileobj_otDelFileobj]
      by_cases hf : fo = c.fileobj
      · simp [hf, hs]
      · rw [if_neg hf, h₀ fo]
        simp [hf]
  unfold tdiCreateAddrobjComplete queryStatus
  simp only [hp]
  by_cases hl : lower = statusSuccess
  · by_cases hq : q.granted = false
    · simp only [hl, hq, not_true_eq_false, if_false, if_true, ne_eq]
      exact hdel g (fun _ => Iff.rfl) _
    · simp only [hl, hq, not_true_eq_false, if_false, ne_eq]
      refine hdel _ (fun fo => ?_) q.status
      cases q.ended with
      | true => exact found_complete2 g c.fileobj fo q.addr
      | false => exact Iff.rfl
  · simp only [hl, not_false_eq_true, if_true, ne_eq]
    exact hdel g (fun _ => Iff.rfl) lower

/-! ## The create -/

/-- `tdi_create` comes to `ot_add_fileobj`. -/
def Reaches (c : Create) (o : CreateOutcome) : Prop :=
  o.pid.resolved = true ∧ getOriginalDevobj c.devobj ≠ none

/-- There is an entry to reuse or memory for a new one. -/
def Addable (g : Globals) (c : Create) (o : CreateOutcome) : Prop :=
  c.fileobj ≠ 0 ∧ (g.otFindFileobj c.fileobj ≠ none ∨ o.grantOte = true)

theorem create_spec (hea : c.ea = .transportAddress) :
    (¬ (Reaches c o ∧ Addable g c o) → (tdiCreate g c o).result = filterDeny ∧
      ∀ fo, (tdiCreate g c o).after.otFindFileobj fo = g.otFindFileobj fo) ∧
    (Reaches c o ∧ Addable g c o →
      (tdiCreate g c o).after.otFindFileobj c.fileobj ≠ none ∧
      (tdiCreate g c o).completion = o.grantQueryIrp ∧
      (tdiCreate g c o).result = if o.grantQueryIrp then filterAllow else filterDeny) := by
  unfold tdiCreate
  extract_lets g₀
  have h₀ : tables g₀ = tables g := by
    cases h : o.pid <;> simp only [g₀, h]
    rfl
  have hfind := otFindFileobj_congr h₀
  clear_value g₀
  rw [if_neg (show c.ea ≠ .absent by rw [hea]; exact Ea.noConfusion)]
  by_cases hp : o.pid.resolved = false
  · simp [hp, Reaches, hfind]
  · rw [if_neg hp]
    cases hdev : getOriginalDevobj c.devobj with
    | none => simp [Reaches, hdev, hfind]
    | some proto =>
      simp only [hea]
      have hr : Reaches c o := ⟨by simpa using hp, by rw [hdev]; exact Option.some_ne_none proto⟩
      let new : NewObj := ⟨c.devobj, c.fileobj, .addrobj, proto, 0, c.pid⟩
      have hadd : (otAddFileobj g₀ new o.grantOte).1 = statusSuccess ↔ Addable g c o := by
        rw [otAddFileobj_success, hfind]
        rfl
      have hafter : ∀ fo, (otAddFileobj g₀ new o.grantOte).2.otFindFileobj fo =
          if (otAddFileobj g₀ new o.grantOte).1 = statusSuccess ∧ fo = c.fileobj then
            some new.entry
          else g.otFindFileobj fo := by
        intro fo
        rw [otFindFileobj_otAddFileobj, hfind]
      by_cases ha : Addable g c o
      · rw [if_neg (not_not_intro (hadd.mpr ha))]
        refine ⟨fun h => absurd ⟨hr, ha⟩ h, fun _ => ?_⟩
        have hf := hafter c.fileobj
        rw [if_pos ⟨hadd.mpr ha, rfl⟩] at hf
        have hne : (otAddFileobj g₀ new o.grantOte).2.otFindFileobj c.fileobj ≠ none := by
          rw [hf]
          exact Option.some_ne_none _
        cases o.grantQueryIrp <;> exact ⟨hne, rfl, rfl⟩
      · rw [if_pos fun h => ha (hadd.mp h)]
        refine ⟨fun _ => ⟨rfl, fun fo => ?_⟩, fun h => absurd h.2 ha⟩
        rw [hafter, if_neg fun h => ha (hadd.mp h.1)]

/-! ## The whole life -/

/-- The create fails below, or its query is not made, is pending or fails. -/
def EndsPendingOrFailed (lower : NtStatus) (q : QueryOutcome) : Prop :=
  if lower = statusSuccess then
    q.granted = false ∨ q.status = statusPending ∨ ntSuccess q.status = false
  else lower = statusPending ∨ ntSuccess lower = false

/-- A create that does not come to the table leaves an object nobody knows; one that
does gets its query request and its context, and ends pending or failed. -/
def LeavesInStep (g : Globals) (c : Create) (o : CreateOutcome) (irp : Irp) (lower : NtStatus)
    (q : QueryOutcome) : Prop :=
  (¬ (Reaches c o ∧ Addable g c o) ∧ g.otFindFileobj c.fileobj = none) ∨
    (Reaches c o ∧ Addable g c o ∧ o.grantQueryIrp = true ∧
      (1 < irp.currentLocation ∨ irp.grantSkip = true) ∧ EndsPendingOrFailed lower q)

theorem endsPendingOrFailed_iff (lower : NtStatus) (q : QueryOutcome) :
    EndsPendingOrFailed lower q ↔
      (queryStatus lower q = statusPending ↔ ntSuccess (queryStatus lower q) = true) := by
  have hpend : ∀ s : NtStatus, (s = statusPending ∨ ntSuccess s = false) ↔
      (s = statusPending ↔ ntSuccess s = true) := by
    intro s
    by_cases hs : s = statusPending
    · subst hs
      decide
    · simp [hs]
  unfold EndsPendingOrFailed queryStatus
  by_cases hl : lower = statusSuccess
  · by_cases hq : q.granted = false
    · simp only [hl, hq, if_true, not_true_eq_false, if_false, true_or, true_iff, ne_eq]
      decide
    · simp [hl, hq, hpend]
  · simp [hl, hpend]

/-- The object table and the create agree exactly when the create does not reach the
table, or ends pending or failed after it is passed on. -/
theorem tracked_createLife_iff (env : Env) (g : Globals) (c : Create) (o : CreateOutcome) (irp : Irp)
    (lower : NtStatus) (q : QueryOutcome) (hea : c.ea = .transportAddress) :
    Tracked env c.fileobj (createLife env g c o irp lower q) ↔
      LeavesInStep g c o irp lower q := by
  obtain ⟨hdenied, hadded⟩ := @create_spec g c o hea
  rw [tracked_iff]
  unfold createLife LeavesInStep
  extract_lets r denied
  by_cases hr : Reaches c o ∧ Addable g c o
  · obtain ⟨hfound, hcompletion, hresult⟩ := hadded hr
    have hfound : r.after.otFindFileobj c.fileobj ≠ none := hfound
    rw [or_iff_right fun h => h.1 hr, and_iff_right hr.1, and_iff_right hr.2]
    cases hq : o.grantQueryIrp with
    | false =>
      -- no query request: denied with the entry in the table
      have hdeny : r.result = filterDeny := by rw [hresult, hq]; rfl
      simp [tdiDispatchComplete, denied, hdeny, hfound]
    | true =>
      have hallow : r.result = filterAllow := by rw [hresult, hq]; rfl
      have hnd : denied = false := by simp only [denied, hallow]; decide
      have hcomp : r.completion = true := hcompletion.trans hq
      have hne : filterAllow ≠ filterDeny := by decide
      rw [and_iff_right rfl]
      by_cases hskip : 1 < irp.currentLocation ∨ irp.grantSkip = true
      · -- passed on, and completed by the lower driver
        have hforward : tdiDispatchComplete c.devobj irp r.result r.completion =
            .forwarded true := by
          rw [hallow, hcomp, tdiDispatchComplete, if_neg hne, if_pos rfl, if_neg hr.1.2, if_neg]
          rintro ⟨-, hle, hg⟩
          rcases hskip with h | h
          · omega
          · exact absurd (hg.symm.trans h) (by decide)
        obtain ⟨hstatus, hleft⟩ := complete_spec env r.after lower q hr.1.2 c.fileobj
        have hlate : ∀ (p : Prop) [Decidable p] (g₁ : Globals),
            ((if p then tdiCreateAddrobjComplete2 env g₁ c.fileobj q.addr else g₁).otFindFileobj
              c.fileobj ≠ none ↔ g₁.otFindFileobj c.fileobj ≠ none) := by
          intro p _ g₁
          split
          · exact found_complete2 g₁ c.fileobj c.fileobj q.addr
          · exact Iff.rfl
        rw [hforward, and_iff_right hskip, endsPendingOrFailed_iff]
        simp only
        rw [hlate, hleft, hstatus, hnd]
        simp [hfound]
      · -- no context for the completion: completed here with the entry in the table
        have hcompleted : tdiDispatchComplete c.devobj irp r.result r.completion =
            .completed statusInsufficientResources := by
          rw [hallow, hcomp, tdiDispatchComplete, if_neg hne, if_pos rfl, if_neg hr.1.2, if_pos]
          simpa using hskip
        have hfail : ntSuccess statusInsufficientResources = false := by decide
        rw [hcompleted]
        simp [hskip, hfail, hfound]
  · obtain ⟨hresult, hfind⟩ := hdenied hr
    have hdeny : r.result = filterDeny := hresult
    have hsame : r.after.otFindFileobj c.fileobj = g.otFindFileobj c.fileobj := hfind c.fileobj
    rw [or_iff_left fun h => hr ⟨h.1, h.2.1⟩, and_iff_right hr]
    simp [denied, hdeny, tdiDispatchComplete, hsame]

/-! ## A query that succeeds at once -/

def udpCreate : Create := ⟨.udp, 32, .transportAddress, 4⟩

def allGranted : CreateOutcome := ⟨.known, true, true⟩

def ampleIrp : Irp := ⟨statusSuccess, 2, true⟩

/-- A query that the lower driver answers with the status, before or after its return. -/
def queryOf (status : NtStatus) (ended : Bool) : QueryOutcome :=
  ⟨true, true, true, status, Driver.HostList.textMem [14, 0, 2, 0, 0, 9, 10, 0, 0, 1], ended⟩

/-- A query that is pending keeps the object. -/
theorem tracked_pending :
    Tracked (freeBuild slre) 32 (createLife (freeBuild slre) (blank blankAdf) udpCreate allGranted
      ampleIrp statusSuccess (queryOf statusPending false)) := by
  refine (tracked_createLife_iff _ _ udpCreate _ _ _ _ rfl).mpr (Or.inr ?_)
  refine ⟨⟨rfl, by decide⟩, ⟨by decide, Or.inr rfl⟩, rfl, Or.inl (by decide), ?_⟩
  rw [EndsPendingOrFailed, if_pos rfl]
  exact Or.inr (Or.inl rfl)

/-- A query that succeeds at once loses the object of a successful create. -/
theorem synchronous_query_loses_object :
    ¬ ∀ (env : Env) (g : Globals) (c : Create) (o : CreateOutcome) (irp : Irp) (lower : NtStatus)
      (q : QueryOutcome), c.ea = .transportAddress →
      Tracked env c.fileobj (createLife env g c o irp lower q) := by
  intro h
  have ht := (h (freeBuild slre) (blank blankAdf) udpCreate allGranted ampleIrp statusSuccess
    (queryOf statusSuccess true) rfl).found
  exact ht.mpr ⟨rfl, rfl⟩ rfl

end AdFilter.Tdi.AddressLife
