import AdFilter.Driver.Represent
import AdFilter.Tdi.HandlerEffects

/-!
# The chain of closed connections over runs

A connection entry is owned by one entry of the object table, or closed and on
`g_conn_to_del`, or forgotten. Every event keeps it so but one: an indication whose
accept request names an object that still owns a connection entry queues that entry
and leaves the object's pointer to it, and the jump to the end queues it again.
-/

namespace AdFilter.Tdi.CloseRuns

open AdFilter.Driver.Represent (blankAdf)
open AdFilter.Lib.Handover
open AdFilter.Lib.Linked
open AdFilter.Lib.Reclaim
open AdFilter.Lib.Runs
open AdFilter.Nt
open AdFilter.Tdi.Ipc
open AdFilter.Tdi.Objects
open AdFilter.Tdi.ConnState
open AdFilter.Tdi.Machine
open AdFilter.Tdi.Views
open AdFilter.Tdi.Effects
open AdFilter.Tdi.HandlerEffects

def Closing (g : Globals) : Prop := ∃ cs, Sound (view g) cs

variable {env : Env} {g g' : Globals} {S : FileObj → Prop} {P : Int → Prop}

theorem Closing.moves (hg : Closing g) (h : Moves tcpStateClosed S P (marks g) (marks g')) :
    Closing g' :=
  Moves.sound h hg

/-! ## The sweep -/

/-- The loop has kept `ks`, and `rest` is before it. -/
theorem sweepFrom_spec (ticks : Int) (stop : Bool) :
    ∀ (rest : List Nat) (n : Nat) (g : Globals) (ks : List Nat) (p : Option Nat) (timeout : Int),
      rest.length ≤ n → Sound (view g) (ks ++ rest) → Spans (view g).next p rest →
        ∃ g' t cs, sweepFrom env ticks stop n g ks.getLast? p timeout = some (g', t) ∧
          Sound (view g') cs ∧ ∀ c ∈ cs, c ∈ ks ++ rest := by
  intro rest
  induction rest with
  | nil =>
    intro n g ks p timeout _ hs hp
    obtain rfl := hp
    exact ⟨g, timeout, ks ++ [], by unfold sweepFrom; rfl, hs, fun c hc => hc⟩
  | cons ce rest ih =>
    intro n g ks p timeout hn hs hp
    obtain ⟨rfl, hrest⟩ := hp
    cases n with
    | zero => exact absurd hn (by simp)
    | succ n =>
      rw [sweepFrom_some]
      dsimp only
      split
      · -- the entry is old enough: it leaves the queue and is freed
        have hview := view_takenOut ks.getLast? (hs.retired ce (by simp))
        have hnext : ((takenOut g ks.getLast? ce).conn ce).nextToDel = (view g).next ce := by
          show (view (takenOut g ks.getLast? ce)).next ce = _
          rw [hview]
          exact hs.next_release
        have hs₁ : Sound (view (takenOut g ks.getLast? ce)) (ks ++ rest) := by
          rw [hview]
          exact hs.release
        have hrest₁ : Spans (view (takenOut g ks.getLast? ce)).next ((view g).next ce) rest := by
          rw [hview]
          exact hs.spans_release hrest
        rw [hnext]
        obtain ⟨g', t, cs, h, hcs, hsub⟩ :=
          ih n _ ks _ timeout (Nat.le_of_succ_le_succ hn) hs₁ hrest₁
        refine ⟨g', t, cs, h, hcs, fun c hc => ?_⟩
        exact ((List.sublist_cons_self ce rest).append_left ks).subset (hsub c hc)
      · -- the entry stays, and is the one after which the next is taken out
        have hlast : some ce = (ks ++ [ce]).getLast? := by simp
        rw [hlast]
        have hs₁ : Sound (view g) ((ks ++ [ce]) ++ rest) := by
          rw [List.append_assoc]
          exact hs
        obtain ⟨g', t, cs, h, hcs, hsub⟩ :=
          ih n g (ks ++ [ce]) _ _ (Nat.le_of_succ_le_succ hn) hs₁ hrest
        refine ⟨g', t, cs, h, hcs, fun c hc => ?_⟩
        rw [← List.singleton_append, ← List.append_assoc]
        exact hsub c hc

/-- The pass over a queue that ends is over, and keeps none but entries of the queue. -/
theorem connThread_spec (env : Env) {cs : List Nat} (hs : Sound (view g) cs) (stop : Bool) :
    ∃ g' t cs', connThread env g stop = some (g', t) ∧ Sound (view g') cs' ∧ ∀ c ∈ cs', c ∈ cs :=
  sweepFrom_spec g.tickCount stop cs _ g [] _ 0 (Nat.le_succ_of_le hs.length_le) hs hs.spans

/-- A queue that is a circle keeps the loop running. -/
theorem sweepFrom_endless {ticks : Int} {stop : Bool} {C : Nat → Prop} :
    ∀ {n : Nat} {g : Globals} {prev : Option Nat} {ce : Nat} {timeout : Int},
      Endless (view g).next C → C ce →
        sweepFrom env ticks stop n g prev (some ce) timeout = none := by
  intro n
  induction n with
  | zero => exact fun _ _ => rfl
  | succ n ih =>
    intro g prev ce timeout hC hce
    rw [sweepFrom_some]
    dsimp only
    split
    · have hC₁ : Endless (view (takenOut g prev ce)).next C := by
        show Endless (view (unhooked g prev ce)).next C
        rw [view_unhooked]
        cases prev with
        | none => exact hC
        | some b => exact hC.update hce b
      obtain ⟨d, hnext, hd⟩ := hC₁ ce hce
      have hlink : ((takenOut g prev ce).conn ce).nextToDel = some d := hnext
      rw [hlink]
      exact ih hC₁ hd
    · obtain ⟨d, hnext, hd⟩ := hC ce hce
      have hlink : (g.conn ce).nextToDel = some d := hnext
      rw [hlink]
      exact ih hC hd

/-- When the pass ends, what is left on the queue was on it before. -/
theorem held_connThread {stop : Bool} {t : Int} (hg : Held tcpStateClosed (marks g))
    (h : connThread env g stop = some (g', t)) :
    Held tcpStateClosed (marks g') ∧ (view g').owner = (view g).owner ∧ states g' = states g := by
  obtain ⟨ho, hst⟩ := sweepFrom_kept h
  refine ⟨?_, ho, hst⟩
  obtain ⟨R, hR, hclosed⟩ := hg
  rcases spans_or_endless (view g).next (view g).head with ⟨cs, hcs⟩ | ⟨C, c, hC, hhead, hc⟩
  · obtain ⟨hs, hsub⟩ := hR.sound hcs
    obtain ⟨g₁, t₁, cs', hrun, hs', hsub'⟩ := connThread_spec env hs stop
    obtain ⟨rfl, -⟩ := Prod.mk.inj (Option.some.inj (hrun.symm.trans h))
    refine ⟨(· ∈ cs'), hs'.apart, fun d hd => ?_⟩
    show states g₁ d = tcpStateClosed
    rw [hst]
    exact hclosed d (hsub d (hsub' d hd))
  · have hnone : connThread env g stop = none := by
      unfold connThread
      rw [show g.connToDel = some c from hhead]
      exact sweepFrom_endless hC hc
    exact absurd (h.symm.trans hnone) (Option.some_ne_none _)

/-! ## Every run -/

/-- No incoming connection is accepted on an object that still owns a connection entry. -/
def NoReuse (g : Globals) : Event → Prop
  | .accept _ reply r => ¬ Reuses g reply r
  | _ => True

theorem closing_step {e : Event} {o : Output} (hg : Closing g) (he : NoReuse g e)
    (h : step env g e = some (g', o)) : Closing g' := by
  rcases step_cases h with heff | ⟨connobj, release, garbage, rfl, rfl⟩ |
    ⟨l, reply, r, rfl, hr, -⟩ | ⟨stop, t, rfl, hsweep⟩
  · exact hg.moves heff.moves
  · exact hg.moves <| moves_tdiDisconnect (S := fun _ => True) (P := fun _ => True) g release
      garbage trivial fun _ => trivial
  · exact absurd hr he
  · obtain ⟨cs, hs⟩ := hg
    obtain ⟨g₁, t₁, cs', hrun, hs', -⟩ := connThread_spec env hs stop
    obtain ⟨rfl, -⟩ := Prod.mk.inj (Option.some.inj (hrun.symm.trans hsweep))
    exact ⟨cs', hs'⟩

theorem sound_initial (h : Initial g) : Sound (view g) [] := by
  refine ⟨h.connToDel, List.nodup_nil, fun c hc => absurd hc List.not_mem_nil, ?_, ?_⟩
  · intro fo c hc
    simp [view, Globals.lookup, h.ot] at hc
  · intro fo fo' c hc
    simp [view, Globals.lookup, h.ot] at hc

/-- The queue of closed entries ends and has no repeats, and no entry of the object
table points to a queued or freed connection entry. -/
def ClosedApart (g : Globals) : Prop :=
  ∃ cs, Spans (fun ce => (g.conn ce).nextToDel) g.connToDel cs ∧ cs.Nodup ∧
    ∀ i, ∀ ote ∈ g.ot.buckets i, ∀ ce, ote.connEntry = some ce → ce ∈ g.connPool.live ∧ ce ∉ cs

theorem Closing.closedApart (hg : Closing g) : ClosedApart g := by
  obtain ⟨cs, hs⟩ := hg
  refine ⟨cs, hs.spans, hs.nodup, fun i ote hm ce hce => hs.owned ote.fileobj ce ?_⟩
  rw [owner_of_lookup (g.ot.find_of_mem hm), hce]

theorem reached_closedApart (h : Reached (step env) NoReuse Initial g) : ClosedApart g :=
  Closing.closedApart <|
    reached_invariant Closing (fun _ h₀ => ⟨[], sound_initial h₀⟩)
      (fun _ _ _ _ hg he hs => closing_step hg he hs) h

/-! ## Closed once and accepted twice -/

/-- An IP address of 14 bytes. -/
def ipAddress (port host : UInt8) : TaAddress :=
  Driver.HostList.textMem [14, 0, 2, 0, 0, port, 10, 0, 0, host]

/-- An address object and a connection object that is associated with it. -/
def associated : List Event :=
  [.create ⟨.tcp, 32, .transportAddress, 4⟩ ⟨.known, true, true⟩,
    .createComplete2 32 (ipAddress 81 1),
    .create ⟨.tcp, 64, .connectionContext 7, 4⟩ ⟨.known, true, true⟩,
    .associate 64 (some 32) true]

/-- A connect, and an abortive disconnect of the connection. -/
def connectedOnce : List Event :=
  [.connect ⟨.tcp, 64, ipAddress 80 2⟩ 4 true, .connectComplete 64 statusSuccess none,
    .disconnect 64 false 0, .disconnectComplete 64 statusSuccess tcpStateClosed]

/-- The aborted connection is queued, and its object owns nothing. -/
theorem reached_closedApart_connected :
    ∃ g os, run (step (freeBuild fun _ _ => none)) (blank blankAdf) (associated ++ connectedOnce) =
      some (g, os) ∧ g.connToDel = some 1 ∧ ClosedApart g := by
  obtain ⟨g, os, hr, hd⟩ : ∃ g os, run (step (freeBuild fun _ _ => none)) (blank blankAdf)
      (associated ++ connectedOnce) = some (g, os) ∧ g.connToDel = some 1 := ⟨_, _, rfl, rfl⟩
  have hm : ∀ e ∈ associated ++ connectedOnce, ∀ s, NoReuse s e := by
    simp [associated, connectedOnce, NoReuse]
  exact ⟨g, os, hr, hd, reached_closedApart
    ⟨_, _, os, initial_blank blankAdf, meets_of_forall_mem hm _, hr⟩⟩

/-- The handler of the client accepts on the connection object. -/
def acceptOnce : List Event :=
  [.eventConnect ⟨32, ipAddress 80 2⟩ {} statusSuccess,
    .accept { rule := {}, status := statusSuccess } ⟨statusMoreProcessingRequired, some 64, 7⟩
      ⟨32, ipAddress 80 2, ipAddress 81 1, true, true⟩]

/-- The second accept queues the entry of the first one twice. -/
theorem accepted_twice_queued_twice :
    ¬ ∀ (env : Env) (g : Globals),
      Reached (step env) (fun _ _ => True) Initial g → ClosedApart g := by
  intro h
  have hrun : ∃ g os, run (step (freeBuild fun _ _ => none)) (blank blankAdf)
      (associated ++ acceptOnce ++ acceptOnce) = some (g, os) ∧
        g.connToDel = some 1 ∧ (g.conn 1).nextToDel = some 1 := ⟨_, _, rfl, rfl, rfl⟩
  obtain ⟨g, os, hr, hhead, hnext⟩ := hrun
  obtain ⟨cs, hs, -⟩ := h _ g
    ⟨_, _, os, initial_blank blankAdf, meets_of_forall (fun _ _ => trivial) _ _, hr⟩
  rw [hhead] at hs
  exact not_spans_of_self hnext cs hs

end AdFilter.Tdi.CloseRuns
