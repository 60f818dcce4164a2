import AdFilter.Lib.Holdings
import AdFilter.Tdi.LogLoss

/-!
# Who owns the blocks of the request queue

The pointers of all slots, the SID blocks of the callers and the array itself are
different live blocks, as long as no overflow frees a pointer that it leaves in the slot.
-/

namespace AdFilter.Tdi.LogOwnership

open AdFilter.Lib.Holdings
open AdFilter.Lib.Pool
open AdFilter.Lib.Runs
open AdFilter.Nt
open AdFilter.Tdi.Ipc
open AdFilter.Tdi.LogQueue
open AdFilter.Tdi.LogLoss (started initial_started)
open AdFilter.Tdi.Machine (numbered)

/-- Every pointer in a slot is to a live block that belongs to this slot alone. -/
def SlotOwned (w : World) : Prop :=
  ∀ i < requestQueueSize, ∀ a ∈ (w.queue.data i).blocks,
    a ∈ w.queue.pool.live ∧ (w.queue.data i).blocks.count a = 1 ∧ a ∉ w.held ∧ a ≠ w.queue.block ∧
      ∀ j < requestQueueSize, j ≠ i → a ∉ (w.queue.data j).blocks

/-- `filter_free` frees the blocks of all slots, and nothing that is not allocated. -/
def FreesOnce (w : World) : Prop :=
  (filterFree w.queue).badFree = false ∧
    ∀ i < requestQueueSize, ∀ a ∈ (w.queue.data i).blocks, a ∉ (filterFree w.queue).live

/-- The entry that a full queue drops for an accepted request has no pointers. -/
def Spares (w : World) : Call → Prop
  | .log gotLog _ request =>
      (gotLog = true ∨ request.request.type ≠ typeResolvePid) → w.queue.Full →
        (w.queue.data w.queue.tail).pname = none ∧ (w.queue.data w.queue.tail).sidA = none
  | _ => True

/-! ## Owners -/

inductive Owner where
  | slot (i : Nat)
  | callers
  | array
deriving DecidableEq

def own (w : World) : Owner → List Nat
  | .slot i => (w.queue.data i).blocks
  | .callers => w.held
  | .array => [w.queue.block]

structure Sound (w : World) : Prop where
  owned : Owned (own w) w.queue.pool.live
  clean : w.queue.pool.badFree = false

variable {p : Allocator Nat} {pl : Platform} {w w' : World}

theorem freeEntry_eq (pool : Ledger Nat) (e : LogEntry) :
    freeEntry pool e = pool.freeAll e.blocks := by
  cases e with
  | mk structSize request sidASize logSkipped pname sidA =>
    cases pname <;> cases sidA <;> rfl

theorem freeEntry_none {pool : Ledger Nat} {e : LogEntry} (hp : e.pname = none) (hs : e.sidA = none) :
    freeEntry pool e = pool := by
  simp [freeEntry, freePointer, hp, hs]

theorem filterFree_eq (q : Queue) : filterFree q =
    (q.pool.freeAll ((List.range requestQueueSize).flatMap fun i => (q.data i).blocks)).free
      q.block := by
  have hfold : ∀ (is : List Nat) (pool : Ledger Nat),
      is.foldl (fun pool i => freeEntry pool (q.data i)) pool =
        pool.freeAll (is.flatMap fun i => (q.data i).blocks) := by
    intro is
    induction is with
    | nil => exact fun _ => rfl
    | cons i is ih =>
      intro pool
      rw [List.foldl_cons, ih, List.flatMap_cons, freeAll_append, freeEntry_eq]
  rw [filterFree, hfold]

/-- The order in which `filter_free` goes through the owners. -/
def freed : List Owner := (List.range requestQueueSize).map Owner.slot ++ [.array]

theorem nodup_freed : freed.Nodup := by
  refine List.Nodup.append ?_ (List.nodup_singleton _) ?_
  · exact List.nodup_range.map fun i j h => Owner.slot.inj h
  · simp [List.Disjoint]

theorem slot_mem_freed {i : Nat} (hi : i < requestQueueSize) : Owner.slot i ∈ freed := by
  rw [freed, List.mem_append, List.mem_map]
  exact Or.inl ⟨i, List.mem_range.mpr hi, rfl⟩

theorem filterFree_own (w : World) :
    filterFree w.queue = w.queue.pool.freeAll (freed.flatMap (own w)) := by
  rw [filterFree_eq, freed, List.flatMap_append, freeAll_append, List.flatMap_map,
    List.flatMap_singleton, own, freeAll_cons, freeAll_nil]
  simp only [own]

theorem Sound.slotOwned (h : Sound w) : SlotOwned w := by
  intro i _ a ha
  refine ⟨h.owned.valid (.slot i) a ha, List.count_eq_one_of_mem (h.owned.once (.slot i)) ha, ?_,
    ?_, ?_⟩
  · exact h.owned.apart (.slot i) .callers (by simp) a ha
  · intro heq
    exact h.owned.apart (.slot i) .array (by simp) a ha (heq ▸ List.mem_singleton_self a)
  · intro j _ hji
    exact h.owned.apart (.slot i) (.slot j) (by simpa using Ne.symm hji) a ha

theorem Sound.freesOnce (h : Sound w) : FreesOnce w := by
  unfold FreesOnce
  rw [filterFree_own, h.owned.freeAll nodup_freed]
  refine ⟨h.clean, fun i hi a ha hmem => ?_⟩
  dsimp only at hmem
  rw [h.owned.distinct.mem_sdiff_iff] at hmem
  exact hmem.2 (List.mem_flatMap.mpr ⟨.slot i, slot_mem_freed hi, ha⟩)

/-! ## One call -/

/-- A call that leaves the slots alone. -/
theorem sound_of_held (w : World) (hdata : w'.queue.data = w.queue.data)
    (hblock : w'.queue.block = w.queue.block) (hclean : w'.queue.pool.badFree = false)
    (h : Owned (Function.update (own w) .callers w'.held) w'.queue.pool.live) : Sound w' := by
  refine ⟨?_, hclean⟩
  have hown : own w' = Function.update (own w) .callers w'.held := by
    funext o
    cases o <;> simp [own, hdata, hblock]
  rwa [hown]

/-- A call that writes one slot. -/
theorem sound_of_write (w : World) (i : Nat) (e : LogEntry)
    (hdata : w'.queue.data = Function.update w.queue.data i e)
    (hblock : w'.queue.block = w.queue.block) (hclean : w'.queue.pool.badFree = false)
    (h : Owned (Function.update (Function.update (own w) .callers w'.held) (.slot i) e.blocks)
      w'.queue.pool.live) : Sound w' := by
  refine ⟨?_, hclean⟩
  have hown : own w' =
      Function.update (Function.update (own w) .callers w'.held) (.slot i) e.blocks := by
    funext o
    cases o with
    | slot j =>
      rcases eq_or_ne j i with rfl | hne
      · simp [own, hdata]
      · rw [Function.update_of_ne (by simpa using hne), Function.update_of_ne (by simp)]
        simp [own, hdata, hne]
    | callers => simp [own]
    | array => simp [own, hblock]
  rwa [hown]

theorem sound_copySid (h : Sound w) : Sound { w with
    queue := { w.queue with pool := (w.queue.pool.alloc p).2 }
    held := (w.queue.pool.alloc p).1.toList ++ w.held } := by
  cases hg : p.grants w.queue.pool.calls with
  | false =>
    rw [alloc_denied hg]
    exact ⟨h.owned, h.clean⟩
  | true =>
    rw [alloc_granted hg]
    exact sound_of_held w rfl rfl h.clean (h.owned.take .callers (pick_notMem_live p _))

theorem sound_freeSid (h : Sound w) {sid : Nat} (hs : sid ∈ w.held) :
    Sound { w with
      queue := { w.queue with pool := w.queue.pool.free sid }
      held := w.held.erase sid } := by
  rw [free_live (h.owned.valid .callers sid hs)]
  refine sound_of_held w rfl rfl h.clean ?_
  have hrel := h.owned.release .callers (List.cons_subset.mpr ⟨hs, List.nil_subset _⟩)
  rwa [List.diff_cons, List.diff_nil, List.diff_cons, List.diff_nil] at hrel

/-- What the pool does for the name: nothing, a refusal, or a fresh block. -/
theorem resolveName_cases (p : Allocator Nat) (names : Nat → Option (List UInt8)) (q : Queue)
    (pid : Nat) :
    ∃ name pool text, resolveName p names q pid = (name, { q with pool, text }) ∧
      pool.badFree = q.pool.badFree ∧
      (name = none ∧ pool.live = q.pool.live ∨
        ∃ a, name = some a ∧ a ∉ q.pool.live ∧ pool.live = a :: q.pool.live) := by
  unfold resolveName
  split
  · exact ⟨none, q.pool, q.text, rfl, rfl, Or.inl ⟨rfl, rfl⟩⟩
  · cases hg : p.grants q.pool.calls with
    | false =>
      rw [alloc_denied hg]
      exact ⟨none, _, q.text, rfl, rfl, Or.inl ⟨rfl, rfl⟩⟩
    | true =>
      rw [alloc_granted hg]
      exact ⟨_, _, _, rfl, rfl, Or.inr ⟨_, rfl, pick_notMem_live p _, rfl⟩⟩

/-- The slot takes over the SID block of the caller, and a fresh block for the name. -/
theorem sound_enqueue (h : Sound w) (names : Nat → Option (List UInt8)) (request : LogEntry)
    (hsid : ∀ sid ∈ request.sidA, sid ∈ w.held) (accepted : List FltRequest) :
    Sound { w with
      queue := enqueue p names w.queue request
      held := w.held.diff request.sidA.toList
      accepted } := by
  obtain ⟨name, pool, text, hr, hbad, hname⟩ :=
    resolveName_cases p names w.queue request.request.pid
  have hput := h.owned.put (i := .callers) (j := .slot w.queue.head) (by simp)
    (fun a ha => hsid a (Option.mem_toList.mp ha)) (by cases request.sidA <;> simp)
  unfold enqueue
  rw [hr]
  refine sound_of_write w w.queue.head { request with pname := name } rfl rfl (hbad.trans h.clean) ?_
  show Owned _ pool.live
  rcases hname with ⟨rfl, hlive⟩ | ⟨a, rfl, hfresh, hlive⟩
  · rw [hlive]
    exact hput
  · have htake := hput.take (.slot w.queue.head) hfresh
    rw [Function.update_self, Function.update_idem] at htake
    rw [hlive]
    exact htake

/-- Freeing an entry without pointers changes nothing that has an owner. -/
theorem sound_reject (h : Sound w) (hp : (w.queue.data w.queue.tail).pname = none)
    (hs : (w.queue.data w.queue.tail).sidA = none) :
    Sound { w with queue := rejectOldest w.queue } := by
  rw [rejectOldest, freeEntry_none hp hs]
  refine ⟨?_, h.clean⟩
  have hown : own { w with queue := { w.queue with tail := (w.queue.tail + 1) % requestQueueSize } } =
      own w := by
    funext o
    cases o <;> rfl
  rw [hown]
  exact h.owned

theorem leftWith_none (held : List Nat) (sid : Option Nat) :
    leftWith held sid none = held.diff sid.toList := by
  cases sid <;> simp [leftWith]

theorem leftWith_self (held : List Nat) (sid : Option Nat) : leftWith held sid sid = held := by
  cases sid <;> rfl

theorem sound_log (h : Sound w) {gotLog : Bool} {names : Nat → Option (List UInt8)}
    {request : LogEntry} (hsid : ∀ sid ∈ request.sidA, sid ∈ w.held)
    (hspares : Spares w (.log gotLog names request)) (accepted : List FltRequest) :
    Sound { w with
      queue := (logRequest p gotLog names w.queue request).2.2
      held := leftWith w.held request.sidA (logRequest p gotLog names w.queue request).2.1.sidA
      accepted } := by
  unfold logRequest
  split
  · rw [leftWith_self]
    exact ⟨h.owned, h.clean⟩
  · rename_i hlog
    split
    · rename_i hfull
      rw [leftWith_none]
      have hnone := hspares (by cases gotLog <;> simp_all) hfull
      exact sound_enqueue (sound_reject h hnone.1 hnone.2) names
        { request with logSkipped := (w.queue.data w.queue.tail).logSkipped + 1 } hsid accepted
    · rw [leftWith_none]
      exact sound_enqueue h names { request with logSkipped := 0 } hsid accepted

theorem Sound.freeEntry (h : Sound w) (i : Nat) :
    freeEntry w.queue.pool (w.queue.data i) =
      { w.queue.pool with live := w.queue.pool.live.diff (own w (.slot i)) } := by
  rw [freeEntry_eq]
  exact freeAll_live (h.owned.once (.slot i)) (h.owned.valid (.slot i))

/-- The reader frees what the oldest slot owns, and the slot forgets it. -/
theorem sound_take (h : Sound w) : Sound { w with queue := takeOldest w.queue } := by
  unfold takeOldest
  dsimp only
  rw [h.freeEntry w.queue.tail]
  refine sound_of_write w w.queue.tail
    { w.queue.data w.queue.tail with pname := none, sidA := none } rfl rfl h.clean ?_
  show Owned (Function.update (Function.update (own w) .callers (own w .callers)) _ []) _
  rw [Function.update_eq_self]
  exact h.owned.release_all _

theorem sound_readEntries {n : Nat} : ∀ {bufSize res : UInt32} {w : World} {q : Queue}
    {rs : List Record}, Sound w → readEntries pl n bufSize w.queue = some (res, rs, q) →
      Sound { w with queue := q } := by
  induction n with
  | zero =>
    intro bufSize res w q rs hw h
    rw [readEntries] at h
    split at h
    · obtain ⟨-, -, rfl⟩ := h
      exact hw
    · dsimp only at h
      split at h
      · obtain ⟨-, -, rfl⟩ := h
        exact hw
      · exact absurd h.symm (Option.some_ne_none _)
  | succ n ih =>
    intro bufSize res w q rs hw h
    rw [readEntries] at h
    split at h
    · obtain ⟨-, -, rfl⟩ := h
      exact hw
    · dsimp only at h
      split at h
      · obtain ⟨-, -, rfl⟩ := h
        exact hw
      · obtain ⟨⟨res', rs', q'⟩, hrest, heq⟩ := Option.map_eq_some_iff.mp h
        obtain ⟨-, -, rfl⟩ := heq
        exact ih (w := { w with queue := takeOldest w.queue }) (sound_take hw) hrest

theorem sound_step (hw : Sound w) {call : Call} {o : Answer} (hs : Spares w call)
    (h : step p pl w call = some (w', o)) : Sound w' := by
  cases call with
  | copySid =>
    obtain ⟨rfl, -⟩ := h
    exact sound_copySid hw
  | freeSid sid =>
    rw [step] at h
    split at h
    · rename_i hmem
      obtain ⟨rfl, -⟩ := h
      exact sound_freeSid hw hmem
    · exact absurd h.symm (Option.some_ne_none _)
  | log gotLog names request =>
    rw [step] at h
    split at h
    · rename_i hsid
      obtain ⟨rfl, -⟩ := h
      exact sound_log hw hsid hs _
    · exact absurd h.symm (Option.some_ne_none _)
  | get bufSize =>
    obtain ⟨r, hr, heq⟩ := Option.map_eq_some_iff.mp h
    obtain ⟨rfl, -⟩ := heq
    unfold getRequest at hr
    split at hr
    · obtain rfl := Option.some.inj hr
      exact ⟨hw.owned, hw.clean⟩
    · have hread := sound_readEntries hw hr
      exact ⟨hread.owned, hread.clean⟩

/-! ## Every run -/

theorem sound_initial (h : Initial p w) : Sound w := by
  obtain ⟨pool, text, q, hdistinct, hclean, hinit, rfl⟩ := h
  unfold filterInit at hinit
  cases hg : p.grants pool.calls with
  | false =>
    rw [alloc_denied hg] at hinit
    exact absurd (congrArg Prod.snd hinit) (by simp)
  | true =>
    rw [alloc_granted hg] at hinit
    obtain rfl := Option.some.inj (congrArg Prod.snd hinit)
    refine ⟨?_, hclean⟩
    have htake := (owned_none hdistinct).take Owner.array (pick_notMem_live p pool)
    have hown : own { queue := ⟨p.pick (pool.fixed ++ pool.live), fun _ => {}, 0, 0,
        { pool with
          calls := pool.calls + 1
          live := p.pick (pool.fixed ++ pool.live) :: pool.live }, text⟩ } =
        Function.update (fun _ => []) .array [p.pick (pool.fixed ++ pool.live)] := by
      funext o
      cases o <;> rfl
    rw [hown]
    exact htake

/-- As long as every entry that a full queue drops has no pointers, all pointers in the
slots are owned, and `filter_free` frees each block once. -/
theorem reached_owned (h : Reached (step p pl) Spares (Initial p) w) :
    SlotOwned w ∧ FreesOnce w := by
  have hsound : Sound w := reached_invariant Sound (fun _ => sound_initial)
    (fun _ _ _ _ hw hs he => sound_step hw hs he) h
  exact ⟨hsound.slotOwned, hsound.freesOnce⟩

/-- A named entry that the reader has taken, and an unnamed one. -/
theorem reached_owned_read : ∃ w, Reached (step numbered .x64) Spares (Initial numbered) w ∧
    w.delivered.length = 1 ∧ SlotOwned w ∧ FreesOnce w := by
  let calls : List Call :=
    [.log true (fun _ => some [97]) { request := { pid := 4 } }, .get 200,
      .log true (fun _ => none) {}]
  obtain ⟨w, os, hrun, hd⟩ : ∃ w os, run (step numbered .x64) started calls = some (w, os) ∧
      w.delivered.length = 1 := ⟨_, _, rfl, rfl⟩
  have hmeets : Meets (step numbered .x64) Spares started calls := by
    refine ⟨fun _ hfull => absurd hfull (by decide), fun r hr => ⟨trivial, fun r' hr' => ?_⟩⟩
    obtain rfl := Option.some.inj hr
    obtain rfl := Option.some.inj hr'
    exact ⟨fun _ hfull => absurd hfull (by decide), fun _ _ => trivial⟩
  have hreach : Reached (step numbered .x64) Spares (Initial numbered) w :=
    ⟨started, calls, os, initial_started, hmeets, hrun⟩
  exact ⟨w, hreach, hd, reached_owned hreach⟩

/-! ## A dropped entry with a pointer -/

/-- A good `filter_free` needs pointers to live blocks, and no two alike. -/
theorem live_of_clean (hd : w.queue.pool.live.Nodup) (hc : w.queue.pool.badFree = false)
    (h : (filterFree w.queue).badFree = false) {i j a : Nat} (hi : i < requestQueueSize)
    (hj : j < requestQueueSize) (hij : i ≠ j) (ha : a ∈ (w.queue.data i).blocks) :
    a ∈ w.queue.pool.live ∧ a ∉ (w.queue.data j).blocks := by
  rw [filterFree_own, freeAll_clean_iff _ hd hc] at h
  refine ⟨h.2 a (List.mem_flatMap.mpr ⟨.slot i, slot_mem_freed hi, ha⟩), ?_⟩
  exact apart_of_nodup_flatMap h.1 (slot_mem_freed hi) (slot_mem_freed hj)
    (fun heq => hij (Owner.slot.inj heq)) ha

theorem step_log_full (hfull : w.queue.Full) {gotLog : Bool} {names : Nat → Option (List UInt8)}
    {request : LogEntry} {o : Answer} (hlog : gotLog = true ∨ request.request.type ≠ typeResolvePid)
    (hs : step p pl w (.log gotLog names request) = some (w', o)) :
    ∃ e, w'.queue = enqueue p names (rejectOldest w.queue) e := by
  rw [step] at hs
  split at hs
  · obtain ⟨rfl, -⟩ := hs
    have hearly : ¬ (gotLog = false ∧ request.request.type = typeResolvePid) := by
      cases gotLog <;> simp_all
    exact ⟨_, by rw [logRequest, if_neg hearly, if_pos hfull]⟩
  · exact absurd hs.symm (Option.some_ne_none _)

/-- A pointer of the dropped entry stays in its slot: the block is gone, or the pool has
handed it out again for the new entry. -/
theorem drop_dangles (h : Sound w) (hq : InRange w.queue) (hfull : w.queue.Full) {gotLog : Bool}
    {names : Nat → Option (List UInt8)} {request : LogEntry} {o : Answer}
    (hlog : gotLog = true ∨ request.request.type ≠ typeResolvePid)
    (hs : step p pl w (.log gotLog names request) = some (w', o)) {a : Nat}
    (ha : a ∈ (w.queue.data w.queue.tail).blocks) :
    ¬ SlotOwned w' ∧ (filterFree w'.queue).badFree = true := by
  have hne := head_ne_tail hq hfull
  obtain ⟨e, hqueue⟩ := step_log_full hfull hlog hs
  obtain ⟨name, pool, text, hr, hbad, hname⟩ :=
    resolveName_cases p names (rejectOldest w.queue) e.request.pid
  have hreject := h.freeEntry w.queue.tail
  have hpool : w'.queue.pool = pool := by rw [hqueue, enqueue, hr]
  have hdata : w'.queue.data =
      Function.update w.queue.data w.queue.head { e with pname := name } := by
    rw [hqueue, enqueue, hr]
    rfl
  have hold : a ∈ (w'.queue.data w.queue.tail).blocks := by
    rw [hdata, Function.update_of_ne (Ne.symm hne)]
    exact ha
  have hgone : a ∉ (rejectOldest w.queue).pool.live := by
    rw [rejectOldest, hreject]
    exact fun hmem => (h.owned.distinct.mem_sdiff_iff.mp hmem).2 ha
  have hagain : a ∈ w'.queue.pool.live → a ∈ (w'.queue.data w.queue.head).blocks := by
    intro hmem
    rw [hpool] at hmem
    rcases hname with ⟨rfl, hlive⟩ | ⟨b, rfl, -, hlive⟩
    · exact absurd (hlive ▸ hmem) hgone
    · rw [hlive] at hmem
      rcases List.mem_cons.mp hmem with rfl | hmem
      · rw [hdata, Function.update_self]
        exact List.mem_cons_self
      · exact absurd hmem hgone
  have hdistinct : w'.queue.pool.live.Nodup := by
    have hdiff : (rejectOldest w.queue).pool.live.Nodup := by
      rw [rejectOldest, hreject]
      exact h.owned.distinct.diff
    rw [hpool]
    rcases hname with ⟨-, hlive⟩ | ⟨b, -, hfresh, hlive⟩
    · rwa [hlive]
    · rw [hlive]
      exact List.nodup_cons.mpr ⟨hfresh, hdiff⟩
  have hclean : w'.queue.pool.badFree = false := by
    rw [hpool, hbad, rejectOldest, hreject]
    exact h.clean
  constructor
  · intro hown
    obtain ⟨hlive, -, -, -, hapart⟩ := hown w.queue.tail hq.tail a hold
    exact hapart w.queue.head hq.head hne (hagain hlive)
  · by_contra hfree
    obtain ⟨hlive, hapart⟩ := live_of_clean hdistinct hclean (Bool.eq_false_of_not_eq_true hfree)
      hq.tail hq.head (Ne.symm hne) hold
    exact hapart (hagain hlive)

/-! ## Filling the queue -/

/-- A request that no process name is known for. -/
def unnamed : Call := .log true (fun _ => none) {}

theorem step_unnamed (p : Allocator Nat) (pl : Platform) (hfull : ¬ w.queue.Full) :
    step p pl w unnamed = some ({ w with
      queue := { w.queue with
        data := Function.update w.queue.data w.queue.head {}
        head := (w.queue.head + 1) % requestQueueSize }
      accepted := w.accepted ++ [{}] }, .logged true) := by
  rw [unnamed, step, if_pos (by simp)]
  simp only [logRequest, hfull, Bool.true_eq_false, false_and, if_false]
  rfl

theorem fill (p : Allocator Nat) (pl : Platform) (n : Nat) : ∀ {w : World}, Sound w → w.queue.tail = 0 →
    0 < w.queue.head → w.queue.head + n < requestQueueSize →
    ∃ w' os, run (step p pl) w (List.replicate n unnamed) = some (w', os) ∧ Sound w' ∧
      w'.queue.tail = 0 ∧ w'.queue.head = w.queue.head + n ∧ w'.queue.data 0 = w.queue.data 0 := by
  induction n with
  | zero => exact fun h ht _ _ => ⟨_, [], rfl, h, ht, rfl, rfl⟩
  | succ n ih =>
    intro w h ht h0 hn
    have hnext : (w.queue.head + 1) % requestQueueSize = w.queue.head + 1 :=
      Nat.mod_eq_of_lt (by omega)
    have hfull : ¬ w.queue.Full := by
      unfold Queue.Full
      rw [hnext, ht]
      exact Nat.succ_ne_zero _
    have hstep := step_unnamed p pl hfull
    have hspares : Spares w unnamed := fun _ hf => absurd hf hfull
    obtain ⟨w', os, hrun, hsound, htail, hhead, hdata⟩ := ih (sound_step h hspares hstep) ht
      (by rw [hnext]; exact Nat.succ_pos _) (by rw [hnext]; dsimp only; omega)
    refine ⟨w', _, by rw [List.replicate_succ, run_cons _ hstep, hrun]; rfl, hsound, htail, ?_, ?_⟩
    · rw [hhead, hnext]
      dsimp only
      omega
    · rw [hdata]
      exact Function.update_of_ne (by omega) _ _

/-- A request of a process with a name. -/
def named : Call := .log true (fun _ => some [97]) { request := { pid := 4 } }

/-- The named entry is the oldest of a full queue, and is dropped. -/
theorem dropped_name_freed_twice : Initial numbered started ∧ ∃ w os,
    run (step numbered .x64) started (named :: (List.replicate 1022 unnamed ++ [unnamed])) =
        some (w, os) ∧
      ¬ SlotOwned w ∧ ¬ FreesOnce w := by
  refine ⟨initial_started, ?_⟩
  obtain ⟨w₁, o₁, h₁, htail₁, hhead₁, hdata₁⟩ : ∃ w₁ o₁,
      step numbered .x64 started named = some (w₁, o₁) ∧ w₁.queue.tail = 0 ∧ w₁.queue.head = 1 ∧
        (w₁.queue.data 0).blocks = [2] := ⟨_, _, rfl, rfl, rfl, rfl⟩
  have hroom : ¬ started.queue.Full := by decide
  have hspares : Spares started named := fun _ hfull => absurd hfull hroom
  have hsound₁ := sound_step (sound_initial initial_started) hspares h₁
  obtain ⟨w₂, os₂, h₂, hsound₂, htail₂, hhead₂, hdata₂⟩ := fill numbered .x64 1022 hsound₁
    htail₁ (by rw [hhead₁]; decide) (by rw [hhead₁]; decide)
  have hq : InRange w₂.queue := ⟨by rw [hhead₂, hhead₁]; decide, by rw [htail₂]; decide⟩
  have hfull : w₂.queue.Full := by
    unfold Queue.Full
    rw [hhead₂, hhead₁, htail₂]
    rfl
  obtain ⟨w₃, o₃, h₃⟩ : ∃ w₃ o₃, step numbered .x64 w₂ unnamed = some (w₃, o₃) :=
    ⟨_, _, by rw [unnamed, step, if_pos (by simp)]⟩
  have hdangles := drop_dangles hsound₂ hq hfull (Or.inl rfl) h₃ (a := 2)
    (by rw [htail₂, hdata₂, hdata₁]; exact List.mem_cons_self)
  refine ⟨w₃, o₁ :: (os₂ ++ [o₃]), ?_, hdangles.1, fun h => ?_⟩
  · rw [run_cons _ h₁, run_append, h₂, Option.bind_some, run_cons _ h₃]
    rfl
  · exact absurd (h.1.symm.trans hdangles.2) Bool.false_ne_true

end AdFilter.Tdi.LogOwnership
