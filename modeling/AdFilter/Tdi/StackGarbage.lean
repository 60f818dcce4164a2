import AdFilter.Tdi.CloseRuns

/-!
# The uninitialised rule of an incoming connection

`tdi_event_connect` leaves its local `rule` to `quick_filter`, which no longer writes it,
and reads it on three branches. Two runs on two contents of the stack are compared; the
`quick_filter` that is commented out clears the rule first.
-/

namespace AdFilter.Tdi.StackGarbage

open AdFilter.Driver.Represent (blankAdf)
open AdFilter.Lib.Runs
open AdFilter.Nt
open AdFilter.Tdi.Ipc
open AdFilter.Tdi.Objects
open AdFilter.Tdi.ConnState
open AdFilter.Tdi.Connections
open AdFilter.Tdi.Machine
open AdFilter.Tdi.CloseRuns

/-- A whole call of `tdi_event_connect`. The lock is not held around the original
handler, so `handler` stands for all that goes on until the second part takes it again. -/
def tdiEventConnect (env : Env) (handler : Globals → HandlerReply × AcceptReads × Globals)
    (g : Globals) (i : Indication) (rule : FltRule) (status : NtStatus) : NtStatus × Globals :=
  let f := eventConnectFilter g i rule status
  match f.1 with
  | some answer => (answer, f.2.2)
  | none =>
      let h := handler f.2.2
      eventConnectAccept env h.2.2 f.2.1 h.1 h.2.1

/-- The call is the event of the indication and, after the handler, that of the accept. -/
theorem tdiEventConnect_steps (env : Env) (handler : Globals → HandlerReply × AcceptReads × Globals)
    (g : Globals) (i : Indication) (rule : FltRule) (status : NtStatus) :
    ∃ g₁ out, step env g (.eventConnect i rule status) = some (g₁, out) ∧
      (out ≠ .called ∧ (tdiEventConnect env handler g i rule status).2 = g₁ ∨
        out = .called ∧ ∃ l, step env (handler g₁).2.2 (.accept l (handler g₁).1 (handler g₁).2.1) =
          some ((tdiEventConnect env handler g i rule status).2,
            .status (tdiEventConnect env handler g i rule status).1)) := by
  refine ⟨_, _, rfl, ?_⟩
  unfold tdiEventConnect
  cases h : (eventConnectFilter g i rule status).1 with
  | some answer =>
    left
    exact ⟨nofun, by simp only [h]⟩
  | none =>
    right
    refine ⟨rfl, (eventConnectFilter g i rule status).2.1, ?_⟩
    simp only [h, step]

/-- Two calls answer the same and leave the same object table, connection table and log. -/
structure Agree (r r' : NtStatus × Globals) : Prop where
  status : r.1 = r'.1
  ot : r.2.ot = r'.2.ot
  conn : r.2.conn = r'.2.conn
  connHash : r.2.connHash = r'.2.connHash
  connToDel : r.2.connToDel = r'.2.connToDel
  connPool : r.2.connPool = r'.2.connPool
  log : r.2.log = r'.2.log

/-- No two contents of the local `rule` can be told apart. -/
def Independent (env : Env) (handler : Globals → HandlerReply × AcceptReads × Globals)
    (g : Globals) (i : Indication) (status : NtStatus) : Prop :=
  ∀ rule rule', Agree (tdiEventConnect env handler g i rule status)
    (tdiEventConnect env handler g i rule' status)

/-! ## The log -/

/-- The number of requests that the end of the call gives to the log. -/
def entries (rule : FltRule) : Nat := if ruleLogLog ≤ rule.log then 1 else 0

theorem log_eventConnectDone (g : Globals) (l : EventLocals) (connobj : Option FileObj) :
    (eventConnectDone g l connobj).2.log.length = g.log.length + entries l.rule := by
  unfold eventConnectDone
  extract_lets logged g₁
  have hg : g₁.log.length = g.log.length + entries l.rule := by
    simp only [g₁, entries]
    split
    · exact List.length_append
    · rfl
  rw [← hg]
  split
  · split
    · rfl
    · split <;> rfl
  · rfl

/-- What the second part adds to the log before its end. -/
theorem log_enterConn (env : Env) (g : Globals) (ote : OtEntry) (rule : FltRule) (r : AcceptReads) :
    (enterConn env g ote rule r).2.log = (clearEntries g ote).log := by
  have hadd : ∀ (g : Globals) (ote : OtEntry) state, (addTcpConn env g ote state).2.log = g.log := by
    intro g ote state
    unfold addTcpConn
    split
    · rfl
    · split
      · rfl
      · simp only
        split
        · rfl
        · unfold linkConn Globals.setConnAt
          simp only
          split <;> rfl
  unfold enterConn
  simp only
  split
  · rfl
  · split
    · rfl
    · split
      · rfl
      · rw [hadd]
        rfl

/-- The second part logs as much under any rule, but for its end. -/
theorem log_eventConnectAccept (env : Env) (g : Globals) (reply : HandlerReply) (r : AcceptReads) :
    ∃ n, ∀ l : EventLocals,
      (eventConnectAccept env g l reply r).2.log.length = n + entries l.rule := by
  unfold eventConnectAccept
  simp only
  cases reply.acceptIrp with
  | none => exact ⟨_, fun l => log_eventConnectDone g _ none⟩
  | some connobj =>
    dsimp only
    split
    · exact ⟨_, fun l => log_eventConnectDone g _ none⟩
    · split
      · exact ⟨_, fun l => log_eventConnectDone g _ none⟩
      · split
        · exact ⟨_, fun l => log_eventConnectDone g _ none⟩
        · split
          · exact ⟨_, fun l => log_eventConnectDone g _ _⟩
          · split
            · exact ⟨_, fun l => log_eventConnectDone _ _ _⟩
            · rename_i ote _ _ _
              let c := changeConnCtx g ote reply.connCtx r.grantCtx
              refine ⟨(clearEntries c.2.2 c.2.1).log.length, fun l => ?_⟩
              rw [← log_enterConn env c.2.2 c.2.1 l.rule r]
              split <;> exact log_eventConnectDone _ _ _

/-- A whole call logs as much under any rule, but for its end. -/
theorem log_tdiEventConnect (env : Env)
    (handler : Globals → HandlerReply × AcceptReads × Globals) (g : Globals) (i : Indication)
    (status : NtStatus) :
    ∃ n, ∀ rule, (tdiEventConnect env handler g i rule status).2.log.length = n + entries rule := by
  unfold tdiEventConnect eventConnectFilter
  cases g.otFindFileobj i.addrobj with
  | none => exact ⟨_, fun rule => log_eventConnectDone g _ none⟩
  | some oteAddr =>
    dsimp only
    split
    · exact ⟨_, fun rule => log_eventConnectDone _ _ none⟩
    · let h := handler (quickFilter g (indicationRequest i oteAddr [])).2
      obtain ⟨n, hn⟩ := log_eventConnectAccept env h.2.2 h.1 h.2.1
      exact ⟨n, fun rule => hn _⟩

/-- Any call tells two contents of the local apart: a garbage log level makes it log. -/
theorem not_independent (env : Env) (handler : Globals → HandlerReply × AcceptReads × Globals)
    (g : Globals) (i : Indication) (status : NtStatus) :
    ¬ Independent env handler g i status := by
  intro h
  obtain ⟨n, hn⟩ := log_tdiEventConnect env handler g i status
  have hlog : n + entries {} = n + entries { log := ruleLogLog } := by
    rw [← hn, ← hn, (h {} { log := ruleLogLog }).log]
  have hentries : entries {} + 1 = entries { log := ruleLogLog } := rfl
  omega

/-- The client accepts on the connection object 64, and nothing else goes on. -/
def acceptedAt64 (g : Globals) : HandlerReply × AcceptReads × Globals :=
  (⟨statusMoreProcessingRequired, some 64, 7⟩,
    ⟨32, ipAddress 80 2, ipAddress 81 1, true, true⟩, g)

/-- The first indication of a listener whose client accepts it: with one content of the
local the disconnect of the connection is to be logged, with another one it is not. -/
theorem accept_reads_garbage :
    ¬ ∀ (env : Env) (handler : Globals → HandlerReply × AcceptReads × Globals) (g : Globals)
      (i : Indication) (status : NtStatus), Independent env handler g i status := by
  intro h
  have hrun : ∃ g os, run (step (freeBuild fun _ _ => none)) (blank blankAdf) associated =
        some (g, os) ∧
      ∀ rule ∈ [{}, { log := ruleLogCount }],
        ((tdiEventConnect (freeBuild fun _ _ => none) acceptedAt64 g ⟨32, ipAddress 80 2⟩ rule
          statusSuccess).2.lookup 64).map OtEntry.logDisconnect =
        some (decide (ruleLogCount ≤ rule.log)) := ⟨_, _, rfl, by
          intro rule hr
          rcases List.mem_pair.mp hr with rfl | rfl <;> rfl⟩
  obtain ⟨g, os, -, hbit⟩ := hrun
  have hot := (h (freeBuild fun _ _ => none) acceptedAt64 g ⟨32, ipAddress 80 2⟩ statusSuccess {}
    { log := ruleLogCount }).ot
  have hclear := hbit {} (List.mem_pair.mpr (Or.inl rfl))
  have hset := hbit { log := ruleLogCount } (List.mem_pair.mpr (Or.inr rfl))
  rw [Globals.lookup] at hclear hset
  rw [hot, hset] at hclear
  exact absurd hclear (by decide)

/-! ## A cleared rule -/

variable {env : Env} {rule rule' : FltRule}

theorem eventConnectDone_of_nolog {g : Globals} {l l' : EventLocals} {connobj : Option FileObj}
    (hl : l.rule.log < ruleLogLog) (hl' : l'.rule.log < ruleLogLog) (hr : l.result = l'.result) :
    eventConnectDone g l connobj = eventConnectDone g l' connobj := by
  have hg : ∀ (l : EventLocals) (g' : Globals), l.rule.log < ruleLogLog →
      (if ruleLogLog ≤ l.rule.log then g' else g) = g := fun l g' h => if_neg (by omega)
  unfold eventConnectDone
  rw [hg l _ hl, hg l' _ hl', hr]

theorem enterConn_of_nolog {g : Globals} {ote : OtEntry} {r : AcceptReads}
    (hl : rule.log < ruleLogLog) (hl' : rule'.log < ruleLogLog) :
    enterConn env g ote rule r = enterConn env g ote rule' r := by
  have hcount : ∀ rule : FltRule, rule.log < ruleLogLog → decide (ruleLogCount ≤ rule.log) = false := by
    intro rule hl
    have hle : ruleLogLog ≤ ruleLogCount := by decide
    exact decide_eq_false (by omega)
  unfold enterConn
  rw [hcount rule hl, hcount rule' hl']

theorem eventConnectAccept_of_nolog {g : Globals} {l l' : EventLocals} {reply : HandlerReply}
    {r : AcceptReads} (hl : l.rule.log < ruleLogLog) (hl' : l'.rule.log < ruleLogLog) :
    eventConnectAccept env g l reply r = eventConnectAccept env g l' reply r := by
  have hdone : ∀ g status result connobj,
      eventConnectDone g { l with status, result } connobj =
        eventConnectDone g { l' with status, result } connobj :=
    fun _ _ _ _ => eventConnectDone_of_nolog hl hl' rfl
  unfold eventConnectAccept
  simp only [hdone, enterConn_of_nolog hl hl']

/-- With no log level on the stack, as a cleared rule has none, nothing of the local
shows, nor does the status that is not written. -/
theorem tdiEventConnect_of_nolog
    (handler : Globals → HandlerReply × AcceptReads × Globals) (g : Globals) (i : Indication)
    (status status' : NtStatus) (hl : rule.log < ruleLogLog) (hl' : rule'.log < ruleLogLog) :
    tdiEventConnect env handler g i rule status = tdiEventConnect env handler g i rule' status' := by
  have hdone : ∀ g (l l' : EventLocals), l.rule = rule → l'.rule = rule' → l.result = l'.result →
      eventConnectDone g l none = eventConnectDone g l' none :=
    fun _ _ _ h h' hr => eventConnectDone_of_nolog (h ▸ hl) (h' ▸ hl') hr
  unfold tdiEventConnect eventConnectFilter
  cases g.otFindFileobj i.addrobj with
  | none =>
    dsimp only
    rw [Prod.mk.eta, Prod.mk.eta]
    apply hdone <;> rfl
  | some oteAddr =>
    dsimp only
    by_cases hd : (quickFilter g (indicationRequest i oteAddr [])).1 = filterDeny
    · rw [if_pos hd, if_pos hd]
      dsimp only
      rw [Prod.mk.eta, Prod.mk.eta]
      apply hdone <;> rfl
    · rw [if_neg hd, if_neg hd]
      exact eventConnectAccept_of_nolog hl hl'

end AdFilter.Tdi.StackGarbage
