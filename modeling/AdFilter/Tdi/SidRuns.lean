import AdFilter.Tdi.ChainRuns

/-!
# The list of SIDs over runs

Which buffers `IOCTL_CMD_SET_SIDS` takes on a 64-bit system, and what `get_sid_id` finds in
any state that the requests lead to.
-/

namespace AdFilter.Tdi.SidRuns

open AdFilter.Nt
open AdFilter.Lib.Framed
open AdFilter.Lib.Pool
open AdFilter.Lib.Runs
open AdFilter.Tdi.ChainRuns
open AdFilter.Tdi.LogQueue (Platform freePointer)
open AdFilter.Tdi.Machine (numbered)
open AdFilter.Tdi.Requests
open AdFilter.Tdi.RuleChains
open AdFilter.Tdi.Sids (SidList maxSidsCount parseSids parseSids_frames frames_of_parseSids
  seLengthSid getSidId_offsets)

/-- `get_sid_id` on the tables. -/
def getSidId (t : Tables) (sid : List UInt8) : Nat :=
  Sids.getSidId ((t.sidsBuf.map t.data).getD []) t.sidsList sid

variable {pl : Platform} {p : Allocator Nat} {w w' : World} {b : Policy}

/-! ## Which buffers are taken -/

/-- A list of SIDs is taken whole. -/
theorem parseSids_list {sids : List (List UInt8)} (hsize : (frames sids).length < 2 ^ 32)
    (hs : SidList sids) : parseSids .x64 (frames sids) (frames sids).length maxSidsCount 0 =
      (offsets 0 sids, (frames sids).length) := by
  have hall : sids.take maxSidsCount = sids := List.take_of_length_le hs.fits
  have hT : 0 + (frames (sids.take maxSidsCount)).length + 4 < Platform.x64.sizeT := by
    rw [hall]
    simp only [Platform.sizeT]
    omega
  rw [parseSids_frames (by rw [hall]; omega) hT List.drop_zero (Nat.zero_le _) hs.last, hall, Nat.zero_add]

/-- The loop comes to the end of a buffer just when it is a list of SIDs. -/
theorem parseSids_iff {buf : List UInt8} (hsize : buf.length < 2 ^ 32) :
    (parseSids .x64 buf buf.length maxSidsCount 0).2 = buf.length ↔
      ∃ sids, SidList sids ∧ buf = frames sids := by
  constructor
  · intro h
    obtain ⟨sids, hd, hn, hl⟩ := frames_of_parseSids hsize (Nat.zero_le _) h
    exact ⟨sids, ⟨hn, hl⟩, hd⟩
  · rintro ⟨sids, hs, rfl⟩
    rw [parseSids_list hsize hs]

theorem length_inputOf {r : Control} (hc : r.code % 4 = 0) : (inputOf r).length = r.len := by
  cases hb : r.buf with
  | none =>
    obtain ⟨hi, hl, -⟩ := inputOf_none hc hb
    rw [hi, hl]
    rfl
  | some buf => exact (inputOf_some hb).2

theorem commandOf_setSids (pl : Platform) (input : List UInt8) (size : Nat) :
    commandOf pl ioctlCmdSetSids input size =
      if input.length < sizeofInt then .none (.status statusInfoLengthMismatch) else .sids input :=
  rfl

/-- `set_sid_list` succeeds just when there is memory for the buffer, and the buffer is a
list of SIDs. -/
theorem setSidList_iff (p : Allocator Nat) (t : Tables) {buf : List UInt8} (hne : buf.length ≠ 0)
    (hsize : buf.length < 2 ^ 32) :
    (setSidList .x64 p t buf buf.length).1 = statusSuccess ↔
      p.grants t.pool.calls = true ∧ ∃ sids, SidList sids ∧ buf = frames sids := by
  have hnext : (freePointer t.pool t.sidsBuf).calls = t.pool.calls := by
    rw [freePointer_eq, freeAll_calls]
  rw [← parseSids_iff hsize]
  simp only [setSidList, if_neg hne]
  by_cases hg : p.grants t.pool.calls = true
  · rw [alloc_granted (by rw [hnext]; exact hg)]
    simp only [hg, List.take_length, true_and]
    by_cases hend : (parseSids .x64 buf buf.length maxSidsCount 0).2 = buf.length
    · rw [if_pos hend]
      exact iff_of_true rfl hend
    · rw [if_neg hend]
      exact iff_of_false (by decide) hend
  · rw [alloc_denied (by rw [hnext]; exact Bool.eq_false_iff.mpr hg)]
    simp only [hg, Bool.false_eq_true, false_and, iff_false]
    decide

/-- Then the buffer is kept, and where its SIDs start. -/
theorem setSidList_kept (p : Allocator Nat) (t : Tables) {sids : List (List UInt8)}
    (hne : (frames sids).length ≠ 0) (hsize : (frames sids).length < 2 ^ 32) (hs : SidList sids)
    (hg : p.grants t.pool.calls = true) {t' : Tables}
    (ht : t' = (setSidList .x64 p t (frames sids) (frames sids).length).2) :
    t'.sidsBuf.map t'.data = some (frames sids) ∧ t'.sidsList = offsets 0 sids := by
  have hnext : (freePointer t.pool t.sidsBuf).calls = t.pool.calls := by
    rw [freePointer_eq, freeAll_calls]
  simp only [setSidList, if_neg hne] at ht
  rw [alloc_granted (by rw [hnext]; exact hg)] at ht
  simp only [List.take_length, parseSids_list hsize hs] at ht
  rw [ht]
  simp

/-- `IOCTL_CMD_SET_SIDS` on a 64-bit system, whatever the tables are: which requests succeed,
and what is kept of them. -/
theorem processRequest_setSids (p : Allocator Nat) (t : Tables) {r : Control}
    (hcode : r.code = ioctlCmdSetSids) (hsmall : r.len < 2 ^ 32) :
    ∃ s t', processRequest .x64 p t r = some (.status s, t') ∧
      (s = statusSuccess ↔ 4 ≤ r.len ∧ p.grants t.pool.calls = true ∧
        ∃ sids, SidList sids ∧ inputOf r = frames sids) ∧
      (s = statusSuccess → ∀ sids, SidList sids → inputOf r = frames sids →
        t'.sidsBuf.map t'.data = some (inputOf r) ∧ t'.sidsList = offsets 0 sids) := by
  have hlen : (inputOf r).length = r.len := length_inputOf (by rw [hcode]; rfl)
  rw [processRequest_eq, hcode, commandOf_setSids, hlen]
  by_cases hshort : r.len < sizeofInt
  · rw [if_pos hshort]
    have hno : ¬ 4 ≤ r.len := Nat.not_le.mpr hshort
    have hfail : statusInfoLengthMismatch ≠ statusSuccess := by decide
    exact ⟨_, t, rfl, iff_of_false hfail fun h => hno h.1, fun h => absurd h hfail⟩
  · rw [if_neg hshort]
    have hlong : 4 ≤ r.len := Nat.le_of_not_lt hshort
    have hiff := setSidList_iff p t (hlen ▸ (by omega) : (inputOf r).length ≠ 0) (by omega)
    refine ⟨_, _, rfl, by rw [hiff]; simp only [hlong, true_and], fun hok sids hs hi => ?_⟩
    rw [hi]
    exact setSidList_kept p t (by rw [← hi]; omega) (by rw [← hi]; omega) hs (hiff.mp hok).1
      rfl

/-- One SID, whose bytes do not matter here. -/
def oneSid : Control := inputRequest ioctlCmdSetSids 1 [0, 0, 0, 5]

theorem processRequest_oneSid :
    ∃ t', processRequest .x64 numbered started.tables oneSid = some (.status statusSuccess, t') ∧
      t'.sidsBuf.map t'.data = some [1, 0, 0, 0, 5] ∧ t'.sidsList = [0] := by
  obtain ⟨s, t', hp, hiff, hkept⟩ :=
    processRequest_setSids numbered started.tables (r := oneSid) rfl (by decide)
  have hlist : SidList [[5]] := ⟨by decide, by decide⟩
  have hok : s = statusSuccess := hiff.mpr ⟨by decide, rfl, [[5]], hlist, rfl⟩
  exact ⟨t', hok ▸ hp, hkept hok [[5]] hlist rfl⟩

/-- A sum that wraps takes the loop of a 32-bit system back to the length it has just read. -/
example : parseSids .win32 ([253, 255, 255, 255, 255, 0, 0, 0] ++ List.replicate 255 0) 263
    maxSidsCount 0 = ([0, 1, 4], 263) := by
  decide +kernel

/-! ## What is found -/

/-- The offsets that are kept are those of the buffer that is kept. -/
theorem sidsList_policyRun (pl : Platform) (p : Allocator Nat) (w : World) (es : List Event) :
    (policyRun pl p w es).1.sidsList = listed pl (policyRun pl p w es).1.sids := by
  refine runTotal_invariant (fun b : Policy => b.sidsList = listed pl b.sids) (fun b l h => ?_) _ rfl
  cases l with
  | none => exact h
  | some c =>
    exact run_keeps (P := fun b => b.sidsList = listed pl b.sids) h (fun _ _ _ => h)
      (fun _ => rfl) c.1 c.2

/-- Whole SIDs take little room. -/
theorem length_frames_le {sids : List (List UInt8)}
    (hw : ∀ sid ∈ sids, sid.length = seLengthSid sid) : (frames sids).length ≤ 1032 * sids.length := by
  induction sids with
  | nil => exact Nat.zero_le _
  | cons sid sids ih =>
    have hlen := hw sid List.mem_cons_self
    have hsub := (sid.getD 1 0).toNat_lt
    have hrest := ih fun sid hs => hw sid (List.mem_cons_of_mem _ hs)
    rw [seLengthSid] at hlen
    rw [frames_cons, List.length_append, length_frame, List.length_cons]
    omega

/-- In whatever state the requests have come to: when the buffer of SIDs is a list of whole
ones, the number of a SID is that of the first entry after the one for any user that is
equal to it, among those there is room for, or 0. -/
theorem run_getSidId (h : Initial p w) {es : List Event} {os : List (Option Reply)}
    (hrun : run (step pl p) w es = some (w', os)) {sids : List (List UInt8)}
    (hb : (policyRun pl p w es).1.sids = some (frames sids))
    (hw : ∀ sid ∈ sids, sid.length = seLengthSid sid) {sid : List UInt8}
    (hsid : sid.length = seLengthSid sid) :
    getSidId w'.tables sid =
      ((List.range' 1 ((sids.take maxSidsCount).length - 1)).find? fun i =>
        (sids.take maxSidsCount)[i]? = some sid).getD 0 := by
  obtain ⟨w₁, hrun', ⟨own, hr⟩, -⟩ := run_inState pl h es
  obtain rfl : w₁ = w' := congrArg Prod.fst (Option.some.inj (hrun'.symm.trans hrun))
  have hkept : ∀ sid ∈ sids.take maxSidsCount, sid.length = seLengthSid sid :=
    fun sid hs => hw sid (List.mem_of_mem_take hs)
  have hlist : (policyRun pl p w es).1.sidsList = offsets 0 (sids.take maxSidsCount) := by
    have hroom := length_frames_le hkept
    have hcount : (sids.take maxSidsCount).length ≤ 128 := List.length_take_le _ _
    have hT : 0 + (frames (sids.take maxSidsCount)).length + 4 < pl.sizeT := by
      cases pl <;> simp only [Platform.sizeT] <;> omega
    have hlast : sids.getLast? ≠ some [] := fun hl =>
      absurd (hw [] (List.mem_of_getLast? hl)) (by decide)
    rw [sidsList_policyRun, hb]
    simp only [listed, Option.elim_some]
    rw [parseSids_frames (by omega) hT List.drop_zero (Nat.zero_le _) hlast]
  have hsplit : frames sids =
      frames (sids.take maxSidsCount) ++ frames (sids.drop maxSidsCount) := by
    rw [← frames_append, List.take_append_drop]
  rw [getSidId, hr.shows.sids, hr.shows.sidsList, hb, hlist]
  exact getSidId_offsets hsplit hkept hsid

/-- S-1-1-0 and S-1-5-18. -/
def everyone : List UInt8 := [1, 1, 0, 0, 0, 0, 0, 1, 0, 0, 0, 0]
def localSystem : List UInt8 := [1, 1, 0, 0, 0, 0, 0, 5, 18, 0, 0, 0]

def setTwoSids : List Event :=
  [.request (inputRequest ioctlCmdSetSids 12 ([0, 0, 0] ++ everyone ++ frame localSystem)), .take]

theorem run_getSidId_localSystem : ∃ w' os,
    run (step .x64 numbered) started setTwoSids = some (w', os) ∧
      getSidId w'.tables localSystem = 1 := by
  obtain ⟨w', hrun, -⟩ := run_inState .x64 initial_started setTwoSids
  refine ⟨w', _, hrun, ?_⟩
  have hb : (policyRun .x64 numbered started setTwoSids).1.sids =
      some (frames [everyone, localSystem]) := by decide +kernel
  have hw : ∀ sid ∈ [everyone, localSystem], sid.length = seLengthSid sid := by decide
  rw [run_getSidId initial_started hrun hb hw (by decide)]
  decide

end AdFilter.Tdi.SidRuns
