import AdFilter.Tdi.TcpStates

/-!
# Graceful closing from both sides

A run with its history: which connections are established, which disconnect requests
are under way and what they hand to their completions, and which of the two sides has
closed. A graceful indication between a request and its completion is ignored, and the
completion then records a half-closed connection.
-/

namespace AdFilter.Tdi.GracefulClose

open AdFilter.Driver.Represent (blankAdf)
open AdFilter.Lib.Handover
open AdFilter.Lib.Reclaim
open AdFilter.Lib.Runs
open AdFilter.Nt
open AdFilter.Tdi.Ipc
open AdFilter.Tdi.Objects
open AdFilter.Tdi.ConnState
open AdFilter.Tdi.ObjTbl
open AdFilter.Tdi.Connections
open AdFilter.Tdi.Machine
open AdFilter.Tdi.Views
open AdFilter.Tdi.Effects
open AdFilter.Tdi.HandlerEffects
open AdFilter.Tdi.CloseRuns

/-! ## The history -/

/-- The connection entry that `get_tcp_conn_state_by_obj` reads. -/
def entryOf (g : Globals) (connobj : FileObj) : Option Nat :=
  (g.otFindFileobj connobj).bind OtEntry.connEntry

/-- The recorded state of an object's connection, while the object has its entry. -/
def recorded (g : Globals) (connobj : FileObj) : Option Int := (entryOf g connobj).map (states g)

/-- What has happened to the present connection of an object; the number tells it from
the earlier ones. -/
structure Life where
  number : Nat := 0
  established : Bool := false
  localDone : Bool := false
  remoteDone : Bool := false

/-- A disconnect request under way: the state for its completion, and its connection. -/
structure Request where
  connobj : FileObj
  release : Bool
  handed : Int
  number : Nat

structure World where
  globals : Globals
  life : FileObj → Life
  requests : List Request

/-- An event of the layer, or the completion of the i-th disconnect request under way. -/
inductive WorldEvent
  | layer (e : Event)
  | complete (i : Nat) (status : NtStatus)

/-- The object has got a new connection entry. -/
def Reused (g g' : Globals) (connobj : FileObj) : Prop :=
  entryOf g' connobj ≠ none ∧ entryOf g' connobj ≠ entryOf g connobj

instance (g g' : Globals) (connobj : FileObj) : Decidable (Reused g g' connobj) :=
  inferInstanceAs (Decidable (_ ∧ _))

/-- The lower driver has completed the connect or the accept of the object's connection. -/
def Establishes (g : Globals) (e : Event) (connobj : FileObj) : Bool :=
  match e with
  | .connectComplete fo status _ =>
      decide (fo = connobj ∧ status = statusSuccess ∧ entryOf g connobj ≠ none)
  | .acceptComplete fo status =>
      decide (fo = connobj ∧ status = statusSuccess ∧ entryOf g connobj ≠ none)
  | _ => false

/-- The peer has closed the object's connection gracefully. -/
def RemoteCloses (g : Globals) (e : Event) (connobj : FileObj) : Bool :=
  match e with
  | .eventDisconnect addrobj connCtx true => decide (otFindConnCtx g addrobj connCtx = connobj)
  | _ => false

def lifeAfter (g g' : Globals) (e : Event) (life : FileObj → Life) (connobj : FileObj) : Life :=
  let l := life connobj
  if Reused g g' connobj then { number := l.number }
  else if Establishes g e connobj then { number := l.number + 1, established := true }
  else if RemoteCloses g e connobj then { l with remoteDone := true }
  else l

def requestsAfter (g : Globals) (e : Event) (life : FileObj → Life) (requests : List Request) :
    List Request :=
  match e with
  | .disconnect connobj release garbage =>
      requests ++ [⟨connobj, release, (tdiDisconnect g connobj release garbage).1,
        (life connobj).number⟩]
  | _ => requests

/-- The request was for the present connection of its object. -/
def Request.IsOwn (q : Request) (l : Life) : Prop := l.established = true ∧ q.number = l.number

instance (q : Request) (l : Life) : Decidable (q.IsOwn l) := inferInstanceAs (Decidable (_ ∧ _))

def lifeCompleted (q : Request) (status : NtStatus) (life : FileObj → Life) (connobj : FileObj) :
    Life :=
  let l := life connobj
  if status = statusSuccess ∧ q.release = true ∧ q.connobj = connobj ∧ q.IsOwn l then
    { l with localDone := true }
  else l

/-- The layer with its history; a completion is always that of a request under way. -/
def worldStep (env : Env) (w : World) : WorldEvent → Option (World × Output)
  | .layer (.disconnectComplete _ _ _) => none
  | .layer e =>
      (step env w.globals e).map fun r =>
        (⟨r.1, lifeAfter w.globals r.1 e w.life, requestsAfter w.globals e w.life w.requests⟩, r.2)
  | .complete i status =>
      match w.requests[i]? with
      | none => none
      | some q =>
          (step env w.globals (.disconnectComplete q.connobj status q.handed)).map fun r =>
            (⟨r.1, lifeCompleted q status w.life, w.requests.eraseIdx i⟩, r.2)

structure InitialWorld (w : World) : Prop where
  globals : Initial w.globals
  life : w.life = fun _ => {}
  requests : w.requests = []

/-- An entry that the chain from `g_conn_to_del` comes to. -/
inductive OnQueue (g : Globals) : Nat → Prop
  | head {ce : Nat} (h : g.connToDel = some ce) : OnQueue g ce
  | next {ce ce' : Nat} (h : OnQueue g ce) (hn : (g.conn ce).nextToDel = some ce') : OnQueue g ce'

/-- A connection that both sides have closed is in TIME_WAIT or CLOSED, or its object has
let go of the entry; and what is let go of is CLOSED. -/
structure Confluent (w : World) : Prop where
  closing : ∀ connobj state, (w.life connobj).established = true →
    (w.life connobj).localDone = true → (w.life connobj).remoteDone = true →
      recorded w.globals connobj = some state → state = tcpStateTimeWait ∨ state = tcpStateClosed
  queued : ∀ ce, OnQueue w.globals ce → (w.globals.conn ce).state = tcpStateClosed

/-- A graceful request for an established connection comes in a state that it expects;
and no completion reports FIN_WAIT2 for a connection that the peer has closed, while it
stands for the local side's close or comes after it. -/
def InOrder (w : World) : WorldEvent → Prop
  | .layer (.disconnect connobj true _) =>
      (w.life connobj).established = true → ∀ state, recorded w.globals connobj = some state →
        state = tcpStateEstablishedIn ∨ state = tcpStateEstablishedOut ∨ state = tcpStateCloseWait
  | .complete i status => ∀ q, w.requests[i]? = some q → status = statusSuccess →
      q.handed = tcpStateFinWait1 → (w.life q.connobj).established = true →
        (w.life q.connobj).remoteDone = true → recorded w.globals q.connobj ≠ none →
          ¬ (q.IsOwn (w.life q.connobj) ∨ (w.life q.connobj).localDone = true)
  | _ => True

variable {env : Env} {g g' : Globals} {connobj : FileObj} {w w' : World}

/-! ## The recorded state -/

theorem entryOf_eq (g : Globals) (connobj : FileObj) :
    entryOf g connobj = if connobj = 0 then none else (view g).owner connobj := by
  unfold entryOf Globals.otFindFileobj
  split <;> rfl

theorem entryOf_congr (h : (view g').owner connobj = (view g).owner connobj) :
    entryOf g' connobj = entryOf g connobj := by
  rw [entryOf_eq, entryOf_eq, h]

theorem owner_of_entryOf {ce : Nat} (h : entryOf g connobj = some ce) :
    (view g).owner connobj = some ce := by
  rw [entryOf_eq] at h
  split at h
  · exact absurd h.symm (Option.some_ne_none ce)
  · exact h

theorem recorded_eq_none : recorded g connobj = none ↔ entryOf g connobj = none :=
  Option.map_eq_none_iff

theorem recorded_setTcpConnState (g : Globals) (connobj : FileObj) (state : Int) :
    recorded (setTcpConnState g connobj state).2 connobj = (recorded g connobj).map fun _ => state := by
  have howner : entryOf (setTcpConnState g connobj state).2 connobj = entryOf g connobj :=
    entryOf_congr (by rw [view_setTcpConnState])
  unfold recorded
  rw [howner]
  cases he : entryOf g connobj with
  | none => rfl
  | some ce =>
    obtain ⟨ote, hf, hce⟩ := Option.bind_eq_some_iff.mp he
    show some (states (setTcpConnState g connobj state).2 ce) = some state
    unfold setTcpConnState
    simp only [hf, hce]
    rw [states_setConn, Function.update_self]

theorem recorded_delTcpConn (g : Globals) (connobj : FileObj) (isDisconnect : Bool) :
    recorded (delTcpConn g connobj isDisconnect) connobj = none := by
  rw [recorded_eq_none]
  unfold delTcpConn
  split
  · rename_i hf
    rw [entryOf, hf]
    rfl
  · rename_i ote hf
    extract_lets g₁ g₂
    have h₁ : g₁.otFindFileobj connobj = some { ote with connEntry := none } :=
      Tables.find_setOte_self (Tables.find_pos hf) (fileobj_of_find hf :)
    have h₂ : ∀ g', Tables.tables g' = Tables.tables g₁ → entryOf g' connobj = none := by
      intro g' ht
      rw [entryOf, Tables.otFindFileobj_congr ht, h₁]
      rfl
    have ht : Tables.tables g₂ = Tables.tables g₁ := by
      simp only [g₂]
      split <;> rfl
    split
    · exact h₂ _ ((Tables.tables_delTcpConnObj g₂ _).trans ht)
    · exact h₂ _ ht

/-! ## What a step leaves of the other connections -/

/-- An object keeps its entry with the state, or loses the entry, or gets a new one. -/
def Calm (g g' : Globals) (connobj : FileObj) : Prop :=
  recorded g' connobj = recorded g connobj ∨ recorded g' connobj = none ∨ Reused g g' connobj

theorem calm_of_kept (ho : (view g').owner connobj = (view g).owner connobj)
    (hs : ∀ ce, (view g).owner connobj = some ce → states g' ce = states g ce) :
    recorded g' connobj = recorded g connobj := by
  unfold recorded
  rw [entryOf_congr ho]
  cases he : entryOf g connobj with
  | none => rfl
  | some ce => exact congrArg some (hs ce (owner_of_entryOf he))

/-- What the moves leave of the owners without moves. -/
theorem recorded_of_moves {S : FileObj → Prop} {P : Int → Prop}
    (hg : Held tcpStateClosed (marks g)) (h : Moves tcpStateClosed S P (marks g) (marks g'))
    (hk : ¬ S connobj) : recorded g' connobj = recorded g connobj :=
  calm_of_kept (Moves.owner h hk) fun _ hce => Moves.kept h hg hk hce

/-- Moves that record no state are calm. -/
theorem calm_of_keeps (h : ∀ ce, (view g).owner connobj = some ce →
    Keeps (fun _ => False) (marks g) (marks g') connobj ce) : Calm g g' connobj := by
  by_cases hn : recorded g' connobj = none
  · exact Or.inr (Or.inl hn)
  · have hn' : entryOf g' connobj ≠ none := fun he => hn (recorded_eq_none.mpr he)
    by_cases he : entryOf g' connobj = entryOf g connobj
    · left
      obtain ⟨ce, hce⟩ := Option.ne_none_iff_exists'.mp hn'
      have ho := owner_of_entryOf (he ▸ hce)
      have ho' := owner_of_entryOf hce
      rcases h ce ho with ⟨-, hs | hfalse⟩ | ⟨hlost, -⟩
      · unfold recorded
        rw [← he, hce]
        exact congrArg some hs
      · exact hfalse.elim
      · exact absurd ho' hlost
    · exact Or.inr (Or.inr ⟨hn', he⟩)

theorem calm_of_moves {S : FileObj → Prop} (hg : Held tcpStateClosed (marks g))
    (h : Moves tcpStateClosed S (fun _ => False) (marks g) (marks g')) (connobj : FileObj) :
    Calm g g' connobj :=
  calm_of_keeps fun _ hce => Moves.keeps h hg hce

theorem calm_of_doubled {S : FileObj → Prop} (hg : Held tcpStateClosed (marks g))
    (h : Doubled S g g') (connobj : FileObj) : Calm g g' connobj := by
  obtain ⟨m, fo, ce, -, hm, hown, heq⟩ := h.marks hg
  apply calm_of_keeps
  intro c hc
  unfold Keeps
  rw [heq]
  by_cases hk : connobj = fo
  · right
    subst hk
    refine ⟨fun hn => Option.some_ne_none c (hn.symm.trans (Function.update_self _ _ _)), ?_⟩
    rcases Moves.keeps hm hg hc with ⟨ho, -⟩ | ⟨-, hl⟩
    · exact Held.live (Moves.held hm hg) ho
    · exact hl
  · rcases Moves.keeps hm hg hc with ⟨ho, hs⟩ | ⟨ho, hl⟩
    · refine Or.inl ⟨(Function.update_of_ne hk _ _).trans ho, ?_⟩
      rw [requeue_kept (Moves.held hm hg) hown hk ho]
      exact hs
    · exact Or.inr ⟨fun hn => ho ((Function.update_of_ne hk _ _).symm.trans hn), hl⟩

theorem held_of_doubled {S : FileObj → Prop} (hg : Held tcpStateClosed (marks g))
    (h : Doubled S g g') : Held tcpStateClosed (marks g') := by
  obtain ⟨m, fo, ce, -, hm, hown, heq⟩ := h.marks hg
  rw [heq]
  exact (Moves.held hm hg).requeue hown

/-! ## The invariant -/

/-- What is known of an established connection after its local side has closed. -/
def Fine (state : Option Int) (l : Life) : Prop :=
  l.established = true → l.localDone = true → ∀ s, state = some s →
    if l.remoteDone then s = tcpStateTimeWait ∨ s = tcpStateClosed
    else s = tcpStateFinWait2 ∨ s = tcpStateClosed

/-- What a graceful request for the present connection hands to its completion. -/
structure Sent (state : Option Int) (l : Life) (q : Request) : Prop where
  number : q.number ≤ l.number
  handed : q.IsOwn l → q.release = true → state ≠ none →
    q.handed = tcpStateFinWait1 ∨ q.handed = tcpStateLastAck

structure Tracked (w : World) : Prop where
  held : Held tcpStateClosed (marks w.globals)
  fine : ∀ connobj, Fine (recorded w.globals connobj) (w.life connobj)
  sent : ∀ q ∈ w.requests, Sent (recorded w.globals q.connobj) (w.life q.connobj) q

theorem fine_none (l : Life) : Fine none l := fun _ _ s hs => absurd hs.symm (Option.some_ne_none s)

theorem fine_of_open {state : Option Int} {l : Life} (h : l.localDone = false) : Fine state l := by
  intro _ hl
  rw [h] at hl
  exact absurd hl (by decide)

theorem fine_lifeAfter {e : Event} {life : FileObj → Life} (hc : Calm g g' connobj)
    (hr : RemoteCloses g e connobj = false) (h : Fine (recorded g connobj) (life connobj)) :
    Fine (recorded g' connobj) (lifeAfter g g' e life connobj) := by
  unfold lifeAfter
  extract_lets l
  split
  · exact fine_of_open rfl
  · rename_i hreused
    split
    · exact fine_of_open rfl
    · rw [hr, if_neg Bool.false_ne_true]
      rcases hc with hsame | hnone | hre
      · rw [hsame]
        exact h
      · rw [hnone]
        exact fine_none l
      · exact absurd hre hreused

/-- What has been sent stays so: a new connection has another number. -/
theorem sent_lifeAfter {e : Event} {life : FileObj → Life} {q : Request}
    (h : Sent (recorded g connobj) (life connobj) q) :
    Sent (recorded g' connobj) (lifeAfter g g' e life connobj) q := by
  have hentry : ¬ Reused g g' connobj → recorded g' connobj ≠ none → recorded g connobj ≠ none := by
    intro hr hn hnone
    have hn' : entryOf g' connobj ≠ none := fun he => hn (recorded_eq_none.mpr he)
    refine hr ⟨hn', fun he => hn' ?_⟩
    rw [he]
    exact recorded_eq_none.mp hnone
  unfold lifeAfter
  extract_lets l
  split
  · exact ⟨h.number, fun ho => absurd ho.1 Bool.false_ne_true⟩
  · rename_i hr
    split
    · refine ⟨Nat.le_succ_of_le h.number, fun ho => ?_⟩
      have hnumber : q.number = l.number + 1 := ho.2
      have hle : q.number ≤ l.number := h.number
      omega
    · split
      · exact ⟨h.number, fun ho hrel hs => h.handed ho hrel (hentry hr hs)⟩
      · exact ⟨h.number, fun ho hrel hs => h.handed ho hrel (hentry hr hs)⟩

theorem getTcpConnStateByObj_eq (g : Globals) (connobj : FileObj) :
    getTcpConnStateByObj g connobj = (recorded g connobj).getD tcpStateNone := by
  unfold getTcpConnStateByObj recorded entryOf
  cases g.otFindFileobj connobj with
  | none => rfl
  | some ote =>
    simp only [Option.bind_some]
    cases ote.connEntry <;> rfl

/-- The state after a graceful indication. -/
def closedByPeer (state : Int) : Int :=
  if state = tcpStateEstablishedIn ∨ state = tcpStateEstablishedOut then tcpStateCloseWait
  else if state = tcpStateFinWait2 then tcpStateTimeWait
  else state

theorem recorded_tdiEventDisconnect (g : Globals) (addrobj connCtx : Nat) :
    recorded (tdiEventDisconnect g addrobj connCtx true) (otFindConnCtx g addrobj connCtx) =
      (recorded g (otFindConnCtx g addrobj connCtx)).map closedByPeer := by
  unfold tdiEventDisconnect
  extract_lets fo state
  have hstate : state = (recorded g fo).getD tcpStateNone := getTcpConnStateByObj_eq g fo
  rw [if_pos rfl]
  show recorded _ fo = _
  unfold closedByPeer
  cases hs : recorded g fo with
  | none =>
    have hnone : ∀ s, recorded (setTcpConnState g fo s).2 fo = none := by
      intro s
      rw [recorded_setTcpConnState, hs]
      rfl
    split
    · exact hnone _
    · split
      · exact hnone _
      · exact hs
  | some s =>
    rw [hs, Option.getD_some] at hstate
    subst hstate
    split
    · rename_i h
      rw [recorded_setTcpConnState, hs, Option.map_some, Option.map_some, if_pos h]
    · rename_i h
      split
      · rename_i h2
        rw [recorded_setTcpConnState, hs, Option.map_some, Option.map_some, if_neg h, if_pos h2]
      · rename_i h2
        rw [hs, Option.map_some, if_neg h, if_neg h2]

/-! ## One step -/

/-- The events that record a state, but for the disconnects. -/
theorem records_cases {e : Event} {state : Int} (h : Records e state) :
    (∃ fo, actor g e = some fo ∧ ∀ connobj, (Establishes g e connobj = true ↔
      fo = connobj ∧ entryOf g connobj ≠ none)) ∨
    (∃ addrobj connCtx, e = .eventDisconnect addrobj connCtx true) ∨
    ∃ fo status state, e = .disconnectComplete fo status state := by
  cases e with
  | connectComplete fo status request =>
    exact Or.inl ⟨fo, rfl, fun connobj => by simp [Establishes, h.1]⟩
  | acceptComplete fo status =>
    exact Or.inl ⟨fo, rfl, fun connobj => by simp [Establishes, h.1]⟩
  | disconnectComplete fo status state => exact Or.inr (Or.inr ⟨fo, status, state, rfl⟩)
  | eventDisconnect addrobj connCtx release =>
    obtain ⟨rfl, -⟩ := h
    exact Or.inr (Or.inl ⟨addrobj, connCtx, rfl⟩)
  | _ => exact h.elim

theorem remoteCloses_of {e : Event} (h : RemoteCloses g e connobj = true) :
    actor g e = some connobj ∧ Records e tcpStateCloseWait := by
  cases e with
  | eventDisconnect addrobj connCtx release =>
    cases release with
    | true => exact ⟨congrArg some (of_decide_eq_true h), rfl, Or.inl rfl⟩
    | false => exact absurd h Bool.false_ne_true
  | _ => exact absurd h Bool.false_ne_true

theorem fine_establish {e : Event} {life : FileObj → Life}
    (h : entryOf g connobj ≠ none → Establishes g e connobj = true) :
    Fine (recorded g' connobj) (lifeAfter g g' e life connobj) := by
  unfold lifeAfter
  extract_lets l
  split
  · exact fine_of_open rfl
  · rename_i hreused
    split
    · exact fine_of_open rfl
    · rename_i hest
      have hnone : entryOf g connobj = none := by
        by_contra hn
        exact hest (h hn)
      have hnone' : entryOf g' connobj = none := by
        by_contra hn
        exact hreused ⟨hn, by rw [hnone]; exact hn⟩
      rw [recorded_eq_none.mpr hnone']
      exact fine_none _

theorem fine_eventDisconnect {addrobj connCtx : Nat} {life : FileObj → Life}
    (h : Fine (recorded g (otFindConnCtx g addrobj connCtx)) (life (otFindConnCtx g addrobj connCtx))) :
    Fine (recorded (tdiEventDisconnect g addrobj connCtx true) (otFindConnCtx g addrobj connCtx))
      (lifeAfter g (tdiEventDisconnect g addrobj connCtx true) (.eventDisconnect addrobj connCtx true)
        life (otFindConnCtx g addrobj connCtx)) := by
  rw [recorded_tdiEventDisconnect]
  generalize hfo : otFindConnCtx g addrobj connCtx = fo at h ⊢
  unfold lifeAfter
  extract_lets l
  split
  · exact fine_of_open rfl
  · have hne : ¬ Establishes g (.eventDisconnect addrobj connCtx true) fo = true :=
      Bool.false_ne_true
    have hremote : RemoteCloses g (.eventDisconnect addrobj connCtx true) fo = true :=
      decide_eq_true hfo
    rw [if_neg hne, if_pos hremote]
    intro hest hlocal s hs
    obtain ⟨s₀, hs₀, rfl⟩ := Option.map_eq_some_iff.mp hs
    rw [if_pos rfl]
    have hold := h hest hlocal s₀ hs₀
    split at hold
    · rcases hold with rfl | rfl
      · exact Or.inl (by decide)
      · exact Or.inr (by decide)
    · rcases hold with rfl | rfl
      · exact Or.inl (by decide)
      · exact Or.inr (by decide)

theorem recorded_tdiDisconnect (g : Globals) (connobj : FileObj) (release : Bool) (garbage : Int) :
    recorded (tdiDisconnect g connobj release garbage).2 connobj =
      (recorded g connobj).map fun _ => (tdiDisconnect g connobj release garbage).1 := by
  unfold tdiDisconnect
  split <;> exact recorded_setTcpConnState g connobj _

theorem handed_of_expected {garbage state : Int} (hs : recorded g connobj = some state)
    (h : state = tcpStateEstablishedIn ∨ state = tcpStateEstablishedOut ∨
      state = tcpStateCloseWait) :
    (tdiDisconnect g connobj true garbage).1 = tcpStateFinWait1 ∨
      (tdiDisconnect g connobj true garbage).1 = tcpStateLastAck := by
  unfold tdiDisconnect
  rw [if_pos rfl, getTcpConnStateByObj_eq, hs]
  rcases h with rfl | rfl | rfl
  · exact Or.inl rfl
  · exact Or.inl rfl
  · exact Or.inr rfl

/-- A request in a state that it expects comes before the local side has closed. -/
theorem fine_tdiDisconnect {life : FileObj → Life} {release : Bool} {garbage : Int}
    (hok : release = true → (life connobj).established = true → ∀ state,
      recorded g connobj = some state → state = tcpStateEstablishedIn ∨
        state = tcpStateEstablishedOut ∨ state = tcpStateCloseWait)
    (h : Fine (recorded g connobj) (life connobj)) :
    Fine (recorded (tdiDisconnect g connobj release garbage).2 connobj)
      (lifeAfter g (tdiDisconnect g connobj release garbage).2
        (.disconnect connobj release garbage) life connobj) := by
  rw [recorded_tdiDisconnect]
  unfold lifeAfter
  extract_lets l
  split
  · exact fine_of_open rfl
  · have hne : ¬ Establishes g (.disconnect connobj release garbage) connobj = true :=
      Bool.false_ne_true
    have hnr : ¬ RemoteCloses g (.disconnect connobj release garbage) connobj = true :=
      Bool.false_ne_true
    rw [if_neg hne, if_neg hnr]
    intro hest hlocal s hs
    obtain ⟨s₀, hs₀, rfl⟩ := Option.map_eq_some_iff.mp hs
    cases release with
    | false =>
      -- an abortive request records CLOSED
      split <;> exact Or.inr rfl
    | true =>
      have hold := h hest hlocal s₀ hs₀
      have hexp := hok rfl hest s₀ hs₀
      split at hold <;> rcases hold with rfl | rfl <;> exact absurd hexp (by decide)

theorem recorded_tdiDisconnectComplete (g : Globals) (connobj : FileObj) (handed : Int) :
    recorded (tdiDisconnectComplete g connobj statusSuccess handed) connobj =
      if handed = tcpStateFinWait1 then (recorded g connobj).map fun _ => tcpStateFinWait2
      else if handed = tcpStateLastAck ∨ handed = tcpStateClosed then none
      else recorded g connobj := by
  unfold tdiDisconnectComplete
  rw [if_pos rfl]
  split
  · exact recorded_setTcpConnState g connobj _
  · by_cases hlast : handed = tcpStateLastAck
    · rw [if_pos hlast, if_pos (Or.inl hlast)]
      exact recorded_delTcpConn g connobj true
    · by_cases hclosed : handed = tcpStateClosed
      · rw [if_neg hlast, if_pos hclosed, if_pos (Or.inr hclosed)]
        exact recorded_delTcpConn g connobj true
      · rw [if_neg hlast, if_neg hclosed, if_neg (not_or_intro hlast hclosed)]

/-- A successful completion of a request under way. -/
theorem fine_completed {life : FileObj → Life} {q : Request}
    (hq : Sent (recorded g q.connobj) (life q.connobj) q)
    (hok : q.handed = tcpStateFinWait1 → (life q.connobj).established = true →
      (life q.connobj).remoteDone = true → recorded g q.connobj ≠ none →
        ¬ (q.IsOwn (life q.connobj) ∨ (life q.connobj).localDone = true))
    (h : Fine (recorded g q.connobj) (life q.connobj)) :
    Fine (recorded (tdiDisconnectComplete g q.connobj statusSuccess q.handed) q.connobj)
      (lifeCompleted q statusSuccess life q.connobj) := by
  rw [recorded_tdiDisconnectComplete]
  unfold lifeCompleted
  extract_lets l
  have hdone : ∀ l' : Life, l'.established = l.established → l'.remoteDone = l.remoteDone →
      (l'.localDone = true → q.IsOwn l ∨ l.localDone = true) → q.handed = tcpStateFinWait1 →
        Fine ((recorded g q.connobj).map fun _ => tcpStateFinWait2) l' := by
    intro l' he hr hl hf hest hlocal s hs
    obtain ⟨s₀, hs₀, rfl⟩ := Option.map_eq_some_iff.mp hs
    split
    · rename_i hremote
      have hne : recorded g q.connobj ≠ none := by
        rw [hs₀]
        exact Option.some_ne_none s₀
      exact absurd (hl hlocal) (hok hf (he ▸ hest) (hr ▸ hremote) hne)
    · exact Or.inl rfl
  split
  · rename_i hf
    split
    · rename_i hown
      exact hdone _ rfl rfl (fun _ => Or.inl hown.2.2.2) hf
    · exact hdone _ rfl rfl Or.inr hf
  · rename_i hf
    split
    · exact fine_none _
    · rename_i hlast
      split
      · rename_i hown
        have hnone : recorded g q.connobj = none := by
          by_contra hn
          rcases hq.handed hown.2.2.2 hown.2.1 hn with he | he
          · exact hf he
          · exact hlast (Or.inl he)
        rw [hnone]
        exact fine_none _
      · exact h

/-- The requests under way after an event other than a disconnect. -/
theorem requestsAfter_of {e : Event} {life : FileObj → Life} {requests : List Request}
    (h : ∀ fo release garbage, e ≠ .disconnect fo release garbage) :
    requestsAfter g e life requests = requests := by
  cases e with
  | disconnect fo release garbage => exact absurd rfl (h fo release garbage)
  | _ => rfl

/-- A layer event with the history after it, from what it does to each object. -/
theorem tracked_after {e : Event} (hw : Tracked w) (hheld : Held tcpStateClosed (marks g'))
    (he : ∀ fo release garbage, e ≠ .disconnect fo release garbage)
    (hfine : ∀ fo, Fine (recorded g' fo) (lifeAfter w.globals g' e w.life fo)) :
    Tracked ⟨g', lifeAfter w.globals g' e w.life, requestsAfter w.globals e w.life w.requests⟩ := by
  refine ⟨hheld, hfine, fun q hq => ?_⟩
  rw [requestsAfter_of he] at hq
  exact sent_lifeAfter (hw.sent q hq)

/-- Events that record no state, or the state of another object. -/
theorem tracked_calm {e : Event} (hw : Tracked w) (hheld : Held tcpStateClosed (marks g'))
    (he : ∀ fo release garbage, e ≠ .disconnect fo release garbage)
    (hr : ∀ fo, RemoteCloses w.globals e fo = false) (hc : ∀ fo, Calm w.globals g' fo) :
    Tracked ⟨g', lifeAfter w.globals g' e w.life, requestsAfter w.globals e w.life w.requests⟩ :=
  tracked_after hw hheld he fun fo => fine_lifeAfter (hc fo) (hr fo) (hw.fine fo)

theorem tracked_disconnect {release : Bool} {garbage : Int} (hw : Tracked w)
    (hok : InOrder w (.layer (.disconnect connobj release garbage))) :
    Tracked ⟨(tdiDisconnect w.globals connobj release garbage).2,
      lifeAfter w.globals (tdiDisconnect w.globals connobj release garbage).2
        (.disconnect connobj release garbage) w.life,
      requestsAfter w.globals (.disconnect connobj release garbage) w.life w.requests⟩ := by
  have hmoves : Moves tcpStateClosed (· = connobj) (fun _ => True) (marks w.globals)
      (marks (tdiDisconnect w.globals connobj release garbage).2) :=
    moves_tdiDisconnect w.globals release garbage rfl fun _ => trivial
  have hexp : release = true → (w.life connobj).established = true → ∀ state,
      recorded w.globals connobj = some state → state = tcpStateEstablishedIn ∨
        state = tcpStateEstablishedOut ∨ state = tcpStateCloseWait := by
    rintro rfl
    exact hok
  refine ⟨Moves.held hmoves hw.held, fun fo => ?_, fun q hq => ?_⟩
  · by_cases hfo : fo = connobj
    · subst hfo
      exact fine_tdiDisconnect hexp (hw.fine fo)
    · exact fine_lifeAfter (Or.inl (recorded_of_moves hw.held hmoves hfo)) rfl (hw.fine fo)
  · rcases List.mem_append.mp hq with hq | hq
    · exact sent_lifeAfter (hw.sent q hq)
    · obtain rfl := List.mem_singleton.mp hq
      apply sent_lifeAfter
      refine ⟨Nat.le_refl _, fun hown hrel hne => ?_⟩
      obtain ⟨state, hs⟩ := Option.ne_none_iff_exists'.mp hne
      have hrel : release = true := hrel
      subst hrel
      exact handed_of_expected hs (hexp rfl hown.1 state hs)

theorem tracked_layer {e : Event} {o : Output} (hw : Tracked w) (hok : InOrder w (.layer e))
    (hdc : ∀ fo status state, e ≠ .disconnectComplete fo status state)
    (h : step env w.globals e = some (g', o)) :
    Tracked ⟨g', lifeAfter w.globals g' e w.life, requestsAfter w.globals e w.life w.requests⟩ := by
  by_cases he : ∃ fo release garbage, e = .disconnect fo release garbage
  · obtain ⟨fo, release, garbage, rfl⟩ := he
    obtain rfl : (tdiDisconnect w.globals fo release garbage).2 = g' :=
      (Prod.mk.inj (Option.some.inj h)).1
    exact tracked_disconnect hw hok
  · have he : ∀ fo release garbage, e ≠ .disconnect fo release garbage :=
      fun fo release garbage heq => he ⟨fo, release, garbage, heq⟩
    rcases step_cases h with heff | ⟨fo, release, garbage, heq, -⟩ | ⟨l, reply, r, rfl, -, hd⟩ |
      ⟨stop, t, rfl, hsweep⟩
    · have hheld := Moves.held heff.moves hw.held
      by_cases hrec : ∃ s, Records e s
      · obtain ⟨s, hs⟩ := hrec
        refine tracked_after hw hheld he fun fo => ?_
        by_cases hfo : Acts w.globals e fo
        · rcases records_cases (g := w.globals) hs with ⟨fo', hact, hest⟩ | ⟨a, c, rfl⟩ |
            ⟨fo', status, state, rfl⟩
          · obtain rfl := Option.some.inj (hact.symm.trans hfo)
            exact fine_establish fun hn => (hest fo').mpr ⟨rfl, hn⟩
          · obtain rfl := Option.some.inj hfo
            obtain rfl : tdiEventDisconnect w.globals a c true = g' :=
              (Prod.mk.inj (Option.some.inj h)).1
            exact fine_eventDisconnect (hw.fine _)
          · exact absurd rfl (hdc fo' status state)
        · refine fine_lifeAfter (Or.inl (recorded_of_moves hw.held heff.moves hfo)) ?_ (hw.fine fo)
          exact Bool.eq_false_iff.mpr fun hr => hfo (remoteCloses_of hr).1
      · have hcalm : Moves tcpStateClosed (Acts w.globals e) (fun _ => False) (marks w.globals)
            (marks g') :=
          Moves.mono heff.moves (fun _ hk => hk) fun s hs => hrec ⟨s, hs⟩
        refine tracked_calm hw hheld he (fun fo => ?_) (calm_of_moves hw.held hcalm)
        exact Bool.eq_false_iff.mpr fun hr => hrec ⟨_, (remoteCloses_of hr).2⟩
    · exact absurd heq (he fo release garbage)
    · exact tracked_calm hw (held_of_doubled hw.held hd) he (fun _ => rfl)
        (calm_of_doubled hw.held hd)
    · obtain ⟨hheld, ho, hs⟩ := held_connThread hw.held hsweep
      refine tracked_calm hw hheld he (fun _ => rfl) fun fo => Or.inl ?_
      exact calm_of_kept (by rw [ho]) fun ce _ => by rw [hs]

theorem lifeCompleted_same (q : Request) (status : NtStatus) (life : FileObj → Life)
    (connobj : FileObj) :
    (lifeCompleted q status life connobj).number = (life connobj).number ∧
      (lifeCompleted q status life connobj).established = (life connobj).established := by
  unfold lifeCompleted
  extract_lets l
  split <;> exact ⟨rfl, rfl⟩

/-- A completion gives no object an entry. -/
theorem recorded_completed_ne_none {status : NtStatus} {handed : Int}
    (h : recorded (tdiDisconnectComplete g connobj status handed) connobj ≠ none) :
    recorded g connobj ≠ none := by
  intro hnone
  by_cases hs : status = statusSuccess
  · subst hs
    rw [recorded_tdiDisconnectComplete, hnone] at h
    split at h
    · exact h rfl
    · split at h
      · exact h rfl
      · exact h rfl
  · rw [tdiDisconnectComplete, if_neg hs] at h
    exact h hnone

theorem tracked_complete {i : Nat} {q : Request} {status : NtStatus} (hw : Tracked w)
    (hq : w.requests[i]? = some q) (hok : InOrder w (.complete i status)) :
    Tracked ⟨tdiDisconnectComplete w.globals q.connobj status q.handed,
      lifeCompleted q status w.life, w.requests.eraseIdx i⟩ := by
  have hmem : q ∈ w.requests := List.mem_of_getElem? hq
  have heff : Effect (· = q.connobj) (fun _ => True) w.globals
      (tdiDisconnectComplete w.globals q.connobj status q.handed) :=
    effect_tdiDisconnectComplete w.globals status q.handed rfl trivial
  have hrec : ∀ fo, fo ≠ q.connobj →
      recorded (tdiDisconnectComplete w.globals q.connobj status q.handed) fo =
        recorded w.globals fo :=
    fun fo hfo => recorded_of_moves hw.held heff.moves hfo
  have hother : ∀ fo, ¬ (status = statusSuccess ∧ fo = q.connobj) →
      lifeCompleted q status w.life fo = w.life fo := by
    intro fo hfo
    unfold lifeCompleted
    exact if_neg fun h => hfo ⟨h.1, h.2.2.1.symm⟩
  refine ⟨Moves.held heff.moves hw.held, fun fo => ?_, fun p hp => ?_⟩
  · show Fine (recorded _ fo) (lifeCompleted q status w.life fo)
    by_cases hfo : fo = q.connobj
    · subst hfo
      by_cases hs : status = statusSuccess
      · subst hs
        exact fine_completed (hw.sent q hmem) (hok q hq rfl) (hw.fine _)
      · rw [hother _ fun h => hs h.1, tdiDisconnectComplete, if_neg hs]
        exact hw.fine _
    · rw [hrec fo hfo, hother fo fun h => hfo h.2]
      exact hw.fine fo
  · have hsent := hw.sent p (List.mem_of_mem_eraseIdx hp)
    obtain ⟨hnumber, hest⟩ := lifeCompleted_same q status w.life p.connobj
    refine ⟨hnumber ▸ hsent.number, fun hown hrel hne => ?_⟩
    refine hsent.handed ⟨hest ▸ hown.1, hnumber ▸ hown.2⟩ hrel ?_
    by_cases hfo : p.connobj = q.connobj
    · rw [hfo] at hne ⊢
      exact recorded_completed_ne_none hne
    · exact hrec _ hfo ▸ hne

/-! ## Every run -/

theorem tracked_step {e : WorldEvent} {o : Output} (hw : Tracked w) (hok : InOrder w e)
    (h : worldStep env w e = some (w', o)) : Tracked w' := by
  cases e with
  | layer e =>
    have hdc : ∀ fo status state, e ≠ .disconnectComplete fo status state := by
      rintro fo status state rfl
      exact Option.some_ne_none _ h.symm
    have hmap : (step env w.globals e).map (fun r => ((⟨r.1, lifeAfter w.globals r.1 e w.life,
        requestsAfter w.globals e w.life w.requests⟩ : World), r.2)) = some (w', o) := by
      rw [← h]
      cases e with
      | disconnectComplete fo status state => exact absurd rfl (hdc fo status state)
      | _ => rfl
    obtain ⟨⟨g', o'⟩, hs, heq⟩ := Option.map_eq_some_iff.mp hmap
    obtain ⟨rfl, -⟩ := Prod.mk.inj heq
    exact tracked_layer hw hok hdc hs
  | complete i status =>
    unfold worldStep at h
    simp only at h
    cases hq : w.requests[i]? with
    | none =>
      rw [hq] at h
      exact absurd h.symm (Option.some_ne_none _)
    | some q =>
      rw [hq] at h
      obtain ⟨rfl, -⟩ := Prod.mk.inj (Option.some.inj h)
      exact tracked_complete hw hq hok

theorem tracked_initial (h : InitialWorld w) : Tracked w := by
  refine ⟨⟨_, (sound_initial h.globals).apart, fun c hc => absurd hc List.not_mem_nil⟩,
    fun fo => ?_, fun q hq => ?_⟩
  · rw [h.life]
    exact fine_of_open rfl
  · rw [h.requests] at hq
    exact absurd hq List.not_mem_nil

theorem closed_of_onQueue (hg : Held tcpStateClosed (marks g)) {ce : Nat} (h : OnQueue g ce) :
    (g.conn ce).state = tcpStateClosed := by
  obtain ⟨R, hR, hclosed⟩ := hg
  have hce : R ce := by
    induction h with
    | head hh => exact hR.head _ hh
    | next _ hn ih => exact hR.closed _ _ ih hn
  exact hclosed ce hce

theorem Tracked.confluent (hw : Tracked w) : Confluent w := by
  refine ⟨fun fo state hest hlocal hremote hs => ?_, fun ce h => closed_of_onQueue hw.held h⟩
  have hfine := hw.fine fo hest hlocal state hs
  rwa [if_pos hremote] at hfine

/-- In every run whose disconnects come in order, closing is confluent. -/
theorem reached_confluent (h : Reached (worldStep env) InOrder InitialWorld w) : Confluent w :=
  Tracked.confluent <|
    reached_invariant Tracked (fun _ h₀ => tracked_initial h₀)
      (fun _ _ _ _ hw hok hs => tracked_step hw hok hs) h

/-! ## An indication before the completion -/

def blankWorld : World := ⟨blank blankAdf, fun _ => {}, []⟩

theorem initialWorld_blank : InitialWorld blankWorld := ⟨initial_blank blankAdf, rfl, rfl⟩

/-- An established connection, and a request to close it. -/
def closingLocally : List WorldEvent :=
  TcpStates.connected.map .layer ++ [.layer (.disconnect 64 true 4096)]

/-- The completion comes before the peer's close. -/
theorem reached_confluent_closed :
    ∃ w os, run (worldStep (freeBuild fun _ _ => none)) blankWorld
      (closingLocally ++ [.complete 0 statusSuccess, .layer (.eventDisconnect 32 7 true)]) =
        some (w, os) ∧ recorded w.globals 64 = some tcpStateTimeWait ∧ Confluent w := by
  obtain ⟨w, os, hr, hs⟩ : ∃ w os, run (worldStep (freeBuild fun _ _ => none)) blankWorld
      (closingLocally ++ [.complete 0 statusSuccess, .layer (.eventDisconnect 32 7 true)]) =
        some (w, os) ∧ recorded w.globals 64 = some tcpStateTimeWait := ⟨_, _, rfl, rfl⟩
  have hfree : ∀ e ∈ TcpStates.connected.map WorldEvent.layer, ∀ w, InOrder w e := by
    simp [TcpStates.connected, associated, InOrder]
  obtain ⟨w₁, os₁, hr₁, hs₁⟩ : ∃ w₁ os₁, run (worldStep (freeBuild fun _ _ => none)) blankWorld
      (TcpStates.connected.map .layer) = some (w₁, os₁) ∧
        recorded w₁.globals 64 = some tcpStateEstablishedOut := ⟨_, _, rfl, rfl⟩
  have hlocal : Meets (worldStep (freeBuild fun _ _ => none)) InOrder blankWorld closingLocally := by
    refine (meets_of_forall_mem hfree _).append fun r hrun => ⟨?_, fun _ _ => trivial⟩
    obtain rfl := Option.some.inj (hr₁.symm.trans hrun)
    exact fun _ state hstate => Or.inr (Or.inl (Option.some.inj (hstate.symm.trans hs₁)))
  obtain ⟨w₂, os₂, hr₂, hq₂, hremote₂⟩ : ∃ w₂ os₂, run (worldStep (freeBuild fun _ _ => none))
      blankWorld closingLocally = some (w₂, os₂) ∧
        w₂.requests = [⟨64, true, tcpStateFinWait1, 1⟩] ∧ (w₂.life 64).remoteDone = false :=
    ⟨_, _, rfl, rfl, rfl⟩
  have hm : Meets (worldStep (freeBuild fun _ _ => none)) InOrder blankWorld
      (closingLocally ++ [.complete 0 statusSuccess, .layer (.eventDisconnect 32 7 true)]) := by
    refine hlocal.append fun r hrun => ⟨?_, fun _ _ => ⟨trivial, fun _ _ => trivial⟩⟩
    obtain rfl := Option.some.inj (hr₂.symm.trans hrun)
    intro q hq _ _ _ hremote
    rw [hq₂] at hq
    obtain rfl := Option.some.inj hq
    exact absurd (hremote₂.symm.trans hremote) Bool.false_ne_true
  exact ⟨w, os, hr, hs, reached_confluent ⟨_, _, os, initialWorld_blank, hm, hr⟩⟩

/-- The peer's close comes between the request and its completion. -/
theorem indication_between_half_open :
    ¬ ∀ (env : Env) (w : World),
      Reached (worldStep env) (fun _ _ => True) InitialWorld w → Confluent w := by
  intro h
  obtain ⟨w, os, hr, hs, hest, hlocal, hremote⟩ : ∃ w os,
      run (worldStep (freeBuild fun _ _ => none)) blankWorld
        (closingLocally ++ [.layer (.eventDisconnect 32 7 true), .complete 0 statusSuccess]) =
          some (w, os) ∧ recorded w.globals 64 = some tcpStateFinWait2 ∧
      (w.life 64).established = true ∧ (w.life 64).localDone = true ∧
        (w.life 64).remoteDone = true := ⟨_, _, rfl, rfl, rfl, rfl, rfl⟩
  have hc := h _ w ⟨_, _, os, initialWorld_blank, meets_of_forall (fun _ _ => trivial) _ _, hr⟩
  exact absurd (hc.closing 64 _ hest hlocal hremote hs) (by decide)

end AdFilter.Tdi.GracefulClose
