import AdFilter.Lib.LossLog
import AdFilter.Tdi.LogQueue
import AdFilter.Tdi.Machine

/-!
# Counted losses

Over any calls the queue stands for a log that counts what it loses: `log_request` is a
push, `get_request` a number of pops.
-/

namespace AdFilter.Tdi.LogLoss

open AdFilter.Lib.LossLog
open AdFilter.Lib.Pool
open AdFilter.Lib.Runs
open AdFilter.Lib.Window
open AdFilter.Tdi.Ipc
open AdFilter.Tdi.LogQueue
open AdFilter.Tdi.Machine (numbered)

/-- The occupied slots, from the tail on. -/
def queued (q : Queue) : List LogEntry := window requestQueueSize q.data q.tail q.head

/-- How many accepted requests were neither handed out nor are still queued. -/
def dropped (w : World) : Nat :=
  w.accepted.length - (w.delivered.length + (queued w.queue).length)

/-! ## The queue as a log -/

def counted (e : LogEntry) : FltRequest × Nat := (e.request, e.logSkipped.toNat)

def contents (q : Queue) : List (FltRequest × Nat) :=
  window requestQueueSize (fun i => counted (q.data i)) q.tail q.head

def log (w : World) : Log FltRequest :=
  ⟨w.accepted, w.delivered.map fun r => counted r.header, contents w.queue⟩

variable {p : Allocator Nat} {pl : Platform} {q : Queue}

theorem length_contents : (contents q).length = (queued q).length := by
  simp [contents, queued]

theorem map_counted : (queued q).map counted = contents q := map_window counted

theorem full_iff (hq : InRange q) : q.Full ↔ (contents q).length = requestQueueSize - 1 := by
  unfold Queue.Full contents
  rw [AdFilter.Lib.Window.full_iff hq.tail hq.head, length_window]
  unfold requestQueueSize
  omega

theorem contents_reject (hq : InRange q) (hfull : q.Full) :
    contents q = counted (q.data q.tail) :: contents (rejectOldest q) :=
  window_pop hq.tail hq.head (head_ne_tail hq hfull)

theorem contents_enqueue (hq : InRange q) (hfull : ¬ q.Full) (names : Nat → Option (List UInt8))
    (e : LogEntry) : contents (enqueue p names q e) = contents q ++ [counted e] := by
  obtain ⟨pool, text, hr⟩ := resolveName_eq (p := p) (q := q) names e.request.pid
  unfold contents enqueue
  dsimp only
  rw [hr, ← window_push hq.tail hq.head hfull]
  congr 1
  funext i
  exact Function.apply_update (fun _ => counted) q.data q.head _ i

/-- `log_request` is a push, with the skip count that it writes to the slot. -/
theorem contents_logRequest (hq : InRange q) {gotLog : Bool} {names : Nat → Option (List UInt8)}
    {request : LogEntry} (h : (logRequest p gotLog names q request).1 = true) {l : Log FltRequest}
    (hl : l.queued = contents q) :
    InRange (logRequest p gotLog names q request).2.2 ∧
      contents (logRequest p gotLog names q request).2.2 =
        (l.push (2 ^ 32) (requestQueueSize - 1) request.request).queued := by
  unfold logRequest at h ⊢
  split at h
  · exact absurd h Bool.false_ne_true
  rename_i hlog
  rw [if_neg hlog]
  have hlen := full_iff hq
  rw [← hl] at hlen
  by_cases hfull : q.Full
  · have hcons := contents_reject hq hfull
    rw [← hl] at hcons
    rw [if_pos hfull, push_of_full _ hcons (hlen.mp hfull)]
    refine ⟨inRange_enqueue (inRange_reject hq) names _, ?_⟩
    rw [contents_enqueue (inRange_reject hq) (not_full_reject hq hfull)]
    simp [counted, UInt32.toNat_add]
  · rw [if_neg hfull, push_of_room _ (mt hlen.mpr hfull), hl]
    refine ⟨inRange_enqueue hq names _, ?_⟩
    exact contents_enqueue hq hfull names _

theorem refused_logRequest {gotLog : Bool} {names : Nat → Option (List UInt8)} {request : LogEntry}
    (h : (logRequest p gotLog names q request).1 = false) :
    (logRequest p gotLog names q request).2.2 = q := by
  unfold logRequest at h ⊢
  split at h
  · rename_i hearly
    rw [if_pos hearly]
  · split at h <;> exact absurd h.symm Bool.false_ne_true

/-! ## `get_request` pops -/

theorem contents_take (hq : InRange q) (hne : q.head ≠ q.tail) :
    contents q = counted (q.data q.tail) :: contents (takeOldest q) := by
  have hdata : (fun i => counted ((takeOldest q).data i)) = fun i => counted (q.data i) := by
    funext i
    rcases eq_or_ne i q.tail with rfl | hi
    · simp [takeOldest, counted]
    · simp [takeOldest, Function.update_of_ne hi]
  unfold contents
  rw [hdata]
  exact window_pop hq.tail hq.head hne

theorem contents_readEntries {n : Nat} : ∀ {bufSize res : UInt32} {q q' : Queue} {rs : List Record},
    InRange q → readEntries pl n bufSize q = some (res, rs, q') →
      InRange q' ∧ contents q = (rs.map fun r => counted r.header) ++ contents q' := by
  induction n with
  | zero =>
    intro bufSize res q q' rs hq h
    rw [readEntries] at h
    split at h
    · obtain ⟨-, rfl, rfl⟩ := h
      exact ⟨hq, rfl⟩
    · dsimp only at h
      split at h
      · obtain ⟨-, rfl, rfl⟩ := h
        exact ⟨hq, rfl⟩
      · exact absurd h.symm (Option.some_ne_none _)
  | succ n ih =>
    intro bufSize res q q' rs hq h
    rw [readEntries] at h
    split at h
    · obtain ⟨-, rfl, rfl⟩ := h
      exact ⟨hq, rfl⟩
    · rename_i hne
      dsimp only at h
      split at h
      · obtain ⟨-, rfl, rfl⟩ := h
        exact ⟨hq, rfl⟩
      · obtain ⟨⟨res', rs', q''⟩, hrest, heq⟩ := Option.map_eq_some_iff.mp h
        obtain ⟨-, rfl, rfl⟩ := heq
        obtain ⟨hq', hc⟩ := ih (inRange_take hq) hrest
        refine ⟨hq', ?_⟩
        rw [contents_take hq hne, hc]
        rfl

theorem readEntries_isSome {n : Nat} : ∀ {bufSize : UInt32} {q : Queue}, InRange q →
    (contents q).length ≤ n → (readEntries pl n bufSize q).isSome = true := by
  induction n with
  | zero =>
    intro bufSize q hq hn
    have hempty : q.head = q.tail := by
      by_contra hne
      rw [contents_take hq hne, List.length_cons] at hn
      omega
    rw [readEntries, if_pos hempty]
    rfl
  | succ n ih =>
    intro bufSize q hq hn
    rw [readEntries]
    split
    · rfl
    · rename_i hne
      dsimp only
      split
      · rfl
      · rw [Option.isSome_map]
        apply ih (inRange_take hq)
        rw [contents_take hq hne, List.length_cons] at hn
        omega

theorem length_contents_lt (hq : InRange q) : (contents q).length < requestQueueSize := by
  unfold contents
  rw [length_window]
  exact count_lt hq.tail hq.head

theorem getRequest_isSome (hq : InRange q) (bufSize : UInt32) :
    (getRequest pl bufSize q).isSome = true := by
  unfold getRequest
  split
  · rfl
  · exact readEntries_isSome hq (Nat.le_of_lt (length_contents_lt hq))

theorem contents_getRequest (hq : InRange q) {bufSize : UInt32} {r : UInt32 × List Record × Queue}
    (h : getRequest pl bufSize q = some r) :
    InRange r.2.2 ∧ contents q = (r.2.1.map fun e => counted e.header) ++ contents r.2.2 := by
  unfold getRequest at h
  split at h
  · obtain rfl := Option.some.inj h
    exact ⟨hq, rfl⟩
  · exact contents_readEntries hq h

/-! ## Every run -/

def Consistent (w : World) : Prop :=
  InRange w.queue ∧ Accounted (2 ^ 32) (requestQueueSize - 1) (log w)

theorem consistent_initial {w : World} (h : Initial p w) : Consistent w := by
  obtain ⟨pool, text, q, -, -, hinit, rfl⟩ := h
  unfold filterInit at hinit
  split at hinit
  · exact absurd (congrArg Prod.snd hinit) (by simp)
  · obtain rfl := Option.some.inj (congrArg Prod.snd hinit)
    exact ⟨⟨Nat.zero_lt_succ 1023, Nat.zero_lt_succ 1023⟩, accounted_empty⟩

theorem Consistent.logRequest {w : World} (hw : Consistent w) (gotLog : Bool)
    (names : Nat → Option (List UInt8)) (request : LogEntry) (held : List Nat) :
    Consistent { w with
      queue := (logRequest p gotLog names w.queue request).2.2
      held
      accepted := w.accepted ++
        if (logRequest p gotLog names w.queue request).1 then [request.request] else [] } := by
  obtain ⟨hq, hacc⟩ := hw
  cases hlog : (LogQueue.logRequest p gotLog names w.queue request).1 with
  | false =>
    rw [refused_logRequest hlog, if_neg Bool.false_ne_true, List.append_nil]
    exact ⟨hq, hacc⟩
  | true =>
    obtain ⟨hq', hpush⟩ := contents_logRequest hq hlog (l := log w) rfl
    refine ⟨hq', ?_⟩
    have hnext := hacc.push (by decide) request.request
    unfold log
    rw [hpush]
    exact hnext

theorem consistent_step {w w' : World} {call : Call} {o : Answer} (hw : Consistent w)
    (h : step p pl w call = some (w', o)) : Consistent w' := by
  cases call with
  | copySid =>
    obtain ⟨rfl, -⟩ := h
    exact ⟨⟨hw.1.head, hw.1.tail⟩, hw.2⟩
  | freeSid sid =>
    rw [step] at h
    split at h
    · obtain ⟨rfl, -⟩ := h
      exact ⟨⟨hw.1.head, hw.1.tail⟩, hw.2⟩
    · exact absurd h.symm (Option.some_ne_none _)
  | log gotLog names request =>
    rw [step] at h
    split at h
    · obtain ⟨rfl, -⟩ := h
      exact hw.logRequest gotLog names request _
    · exact absurd h.symm (Option.some_ne_none _)
  | get bufSize =>
    obtain ⟨r, hr, heq⟩ := Option.map_eq_some_iff.mp h
    obtain ⟨rfl, -⟩ := heq
    obtain ⟨hq', hc⟩ := contents_getRequest hw.1 hr
    have hacc := hw.2
    refine ⟨hq', ?_⟩
    unfold log at hacc ⊢
    rw [hc] at hacc
    rw [List.map_append]
    exact Accounted.pops _ hacc

theorem reachable_consistent {w : World} (h : Reachable p pl w) : Consistent w :=
  reached_invariant Consistent (fun _ => consistent_initial)
    (fun _ _ _ _ hw _ hs => consistent_step hw hs) h

theorem kept_log (w : World) : (log w).kept =
    (w.delivered.map fun r => counted r.header) ++ (queued w.queue).map counted := by
  rw [map_counted]
  rfl

theorem lost_log (w : World) : (log w).lost = dropped w := by
  rw [Log.lost, kept_log, List.length_append, List.length_map, List.length_map]
  rfl

/-- What was handed out and what is queued is a subsequence of what was accepted, the
queue is bounded, and every dropped request is counted once. -/
theorem reachable_accounted {w : World} (h : Reachable p pl w) :
    ((w.delivered.map fun r => r.header.request) ++
        (queued w.queue).map LogEntry.request).Sublist w.accepted ∧
      (queued w.queue).length ≤ requestQueueSize - 1 ∧
      (dropped w < 2 ^ 32 →
        (w.delivered.map fun r => r.header.logSkipped.toNat).sum +
          ((queued w.queue).map fun e => e.logSkipped.toNat).sum = dropped w) ∧
      ∀ bufSize, (step p pl w (.get bufSize)).isSome = true := by
  obtain ⟨hq, hacc⟩ := reachable_consistent h
  refine ⟨?_, ?_, fun hw => ?_, fun bufSize => ?_⟩
  · have hsub := hacc.subsequence
    rw [kept_log, List.map_append, List.map_map, List.map_map] at hsub
    exact hsub
  · rw [← length_contents]
    exact hacc.bound
  · have hsum := hacc.counted (by rwa [lost_log])
    rw [kept_log, lost_log, List.map_append, List.map_map, List.map_map, List.sum_append] at hsum
    exact hsum
  · rw [step, Option.isSome_map]
    exact getRequest_isSome hq bufSize

/-- The queue that `filter_init` makes in an empty pool. -/
def started : World := { queue := ⟨1, fun _ => {}, 0, 0, ⟨[], [1], 1, false⟩, fun _ => []⟩ }

theorem initial_started : Initial numbered started :=
  ⟨⟨[], [], 0, false⟩, fun _ => [], started.queue, List.nodup_nil, rfl, rfl, rfl⟩

/-- Requests without a SID are all accepted. -/
theorem run_logs (p : Allocator Nat) (pl : Platform) (names : Nat → Option (List UInt8))
    {request : LogEntry} (hsid : request.sidA = none) (n : Nat) (w : World) :
    ∃ w' os, run (step p pl) w (List.replicate n (.log true names request)) = some (w', os) ∧
      w'.accepted.length = w.accepted.length + n ∧ w'.delivered = w.delivered := by
  induction n generalizing w with
  | zero => exact ⟨w, [], rfl, rfl, rfl⟩
  | succ n ih =>
    have hlogged : (logRequest p true names w.queue request).1 = true := by
      rw [logRequest, if_neg (by simp)]
      split <;> rfl
    have hstep : ∃ t, step p pl w (.log true names request) = some (t, .logged true) ∧
        t.accepted = w.accepted ++ [request.request] ∧ t.delivered = w.delivered := by
      rw [step, if_pos (by simp [hsid])]
      dsimp only
      rw [hlogged]
      exact ⟨_, rfl, rfl, rfl⟩
    obtain ⟨t, ht, hacc, hdel⟩ := hstep
    obtain ⟨w', os, hrun, hacc', hdel'⟩ := ih t
    refine ⟨w', .logged true :: os, ?_, ?_, hdel'.trans hdel⟩
    · rw [List.replicate_succ, run_cons _ ht, hrun]
      rfl
    · rw [hacc', hacc, List.length_append, List.length_singleton]
      omega

/-- One request that is read, and then more of them than there are slots. -/
theorem reachable_accounted_overflow :
    ∃ w, Reachable numbered .x64 w ∧ w.delivered.length = 1 ∧ 0 < dropped w ∧
      (w.delivered.map fun r => r.header.logSkipped.toNat).sum +
        ((queued w.queue).map fun e => e.logSkipped.toNat).sum = dropped w := by
  let names : Nat → Option (List UInt8) := fun _ => none
  let request : LogEntry := { request := { pid := 4 } }
  have hsid : request.sidA = none := rfl
  obtain ⟨w₁, os₁, hrun₁, hacc₁, hdel₁⟩ : ∃ w os,
      run (step numbered .x64) started [.log true names request, .get 200] = some (w, os) ∧
        w.accepted.length = 1 ∧ w.delivered.length = 1 := ⟨_, _, rfl, rfl, rfl⟩
  obtain ⟨w, os, hrun, hacc, hdel⟩ := run_logs numbered .x64 names hsid requestQueueSize w₁
  have hreach : Reachable numbered .x64 w :=
    ⟨started, _ ++ _, _, initial_started, meets_of_forall (fun _ _ => trivial) _ _,
      by rw [run_append, hrun₁, Option.bind_some, hrun]; rfl⟩
  obtain ⟨-, hbound, hcounted, -⟩ := reachable_accounted hreach
  have hlost : dropped w = 1 + requestQueueSize - (1 + (queued w.queue).length) := by
    rw [dropped, hacc, hacc₁, hdel, hdel₁]
  rw [requestQueueSize] at hlost hbound
  exact ⟨w, hreach, by rw [hdel, hdel₁], by omega, hcounted (by omega)⟩

end AdFilter.Tdi.LogLoss
