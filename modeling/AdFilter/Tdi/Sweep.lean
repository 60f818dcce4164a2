import AdFilter.Tdi.CloseRuns
import AdFilter.Tdi.ConnBuckets

/-!
# One sweep

One pass of `conn_thread` over the queue of closed entries: which entries it takes out of
the queue and out of their buckets, and how long the thread waits then. The comment asks
for the smallest timeout to the next entry, and the loop keeps the largest.
-/

namespace AdFilter.Tdi.Sweep

open AdFilter.Driver.Represent (blankAdf)
open AdFilter.Lib.Linked
open AdFilter.Lib.Reclaim
open AdFilter.Tdi.Ipc
open AdFilter.Tdi.Objects
open AdFilter.Tdi.ConnState
open AdFilter.Tdi.Machine
open AdFilter.Tdi.Views
open AdFilter.Tdi.ConnBuckets

/-! ## What the loop computes -/

/-- The age of an entry that was queued at `ticks'`, in 64 bits. -/
def delta (env : Env) (ticks ticks' : Int) : Int := int64 ((ticks - ticks') * env.timeIncrement)

/-- The entry is taken out. -/
def Due (env : Env) (ticks : Int) (stop : Bool) (ticks' : Int) : Prop :=
  maxClosedTime ≤ delta env ticks ticks' ∨ stop = true

instance (env : Env) (ticks : Int) (stop : Bool) (ticks' : Int) :
    Decidable (Due env ticks stop ticks') := inferInstanceAs (Decidable (_ ∨ _))

/-- What the loop takes for the time that an entry has left. -/
def rest (env : Env) (ticks ticks' : Int) : Int := int64 (maxClosedTime - delta env ticks ticks')

/-- The timeout after an entry that stays. -/
def wait (env : Env) (ticks timeout ticks' : Int) : Int :=
  if -timeout < rest env ticks ticks' ∨ timeout = 0 then -rest env ticks ticks' else timeout

/-- The queue of closed entries, whoever owns the others. -/
def queue (g : Globals) : View Empty Nat where
  owner := Empty.elim
  head := (view g).head
  next := (view g).next
  live := (view g).live

variable {env : Env} {g g' : Globals} {rows : Nat → List Nat} {cs : List Nat}

theorem queue_takenOut (prev : Option Nat) {ce : Nat} (h : ce ∈ g.connPool.live) :
    queue (takenOut g prev ce) = (queue g).release prev ce := by
  unfold queue
  rw [view_takenOut prev h]
  cases prev <;> rfl

theorem bare_takenOut (g : Globals) (prev : Option Nat) (ce : Nat) :
    bare (takenOut g prev ce) = bare g := by
  have h : bare (unhooked g prev ce) = bare g := by
    unfold unhooked
    rw [bare_unlinkConn]
    cases prev with
    | none => rfl
    | some q =>
      apply bare_setConn
      exact fun _ => rfl
  exact h

theorem hashed_takenOut {prev : Option Nat} {ce : Nat} (hr : Hashed g rows)
    (hce : ce ∈ g.connPool.live) :
    Hashed (takenOut g prev ce) fun i => (rows i).filter (· ≠ ce) := by
  unfold takenOut unhooked
  cases prev with
  | none => exact Hashed.release (hr.of_same rfl (fun _ => rfl) rfl) hce
  | some q =>
    refine Hashed.release (hr.of_same ?_ ?_ rfl) hce
    · apply connTable_setConn_of_same <;> exact fun _ => rfl
    · apply hash_of_bare
      apply bare_setConn
      exact fun _ => rfl

/-- The loop has kept `ks`, and `rest` is before it. -/
theorem sweepFrom_exact (env : Env) (ticks : Int) (stop : Bool) (t : Nat → Int) :
    ∀ (rest : List Nat) (n : Nat) (g : Globals) (ks : List Nat) (p : Option Nat) (timeout : Int),
      rest.length ≤ n → (∀ c, (g.conn c).ticks = t c) → Sound (queue g) (ks ++ rest) →
      Spans (queue g).next p rest →
        ∃ g', sweepFrom env ticks stop n g ks.getLast? p timeout =
            some (g', (rest.filter fun c => ¬ Due env ticks stop (t c)).foldl
              (fun timeout c => wait env ticks timeout (t c)) timeout) ∧
          Sound (queue g') (ks ++ rest.filter fun c => ¬ Due env ticks stop (t c)) ∧
          bare g' = bare g ∧
          ∀ rows, Hashed g rows → Hashed g' fun i =>
            (rows i).filter fun c => ¬ (c ∈ rest ∧ Due env ticks stop (t c)) := by
  intro rest
  induction rest with
  | nil =>
    intro n g ks p timeout _ _ hs hp
    obtain rfl := hp
    refine ⟨g, by unfold sweepFrom; rfl, hs, rfl, fun rows hr => ?_⟩
    simpa using hr
  | cons ce rest ih =>
    intro n g ks p timeout hn ht hs hp
    obtain ⟨rfl, hrest⟩ := hp
    cases n with
    | zero => exact absurd hn (by simp)
    | succ n =>
      have hdelta : int64 ((ticks - (g.conn ce).ticks) * env.timeIncrement) =
          delta env ticks (t ce) := by rw [ht, delta]
      rw [sweepFrom_some, hdelta]
      dsimp only
      split
      · -- the entry is due: it leaves the queue and its bucket and is freed
        rename_i hdue
        have hdue : Due env ticks stop (t ce) := hdue
        have hlive : ce ∈ g.connPool.live := hs.retired ce (by simp)
        have hqueue := queue_takenOut ks.getLast? hlive
        have hbare := bare_takenOut g ks.getLast? ce
        have hnext : ((takenOut g ks.getLast? ce).conn ce).nextToDel = (queue g).next ce := by
          show (queue (takenOut g ks.getLast? ce)).next ce = _
          rw [hqueue]
          exact hs.next_release
        have hs₁ : Sound (queue (takenOut g ks.getLast? ce)) (ks ++ rest) := by
          rw [hqueue]
          exact hs.release
        have hrest₁ : Spans (queue (takenOut g ks.getLast? ce)).next ((queue g).next ce) rest := by
          rw [hqueue]
          exact hs.spans_release hrest
        obtain ⟨g', hrun, hsound, hbare', hrows⟩ := ih n _ ks _ timeout
          (Nat.le_of_succ_le_succ hn) (fun c => (ticks_of_bare hbare c).trans (ht c)) hs₁ hrest₁
        have hfilter : (ce :: rest).filter (fun c => ¬ Due env ticks stop (t c)) =
            rest.filter fun c => ¬ Due env ticks stop (t c) :=
          List.filter_cons_of_neg (by simpa using hdue)
        rw [hnext, hfilter]
        refine ⟨g', hrun, hsound, hbare'.trans hbare, fun rows hr => ?_⟩
        convert hrows _ (hashed_takenOut hr hlive) using 2 with i
        rw [List.filter_filter]
        apply List.filter_congr
        intro c _
        by_cases hc : c = ce <;> simp [hc, hdue]
      · rename_i hdue
        have hdue : ¬ Due env ticks stop (t ce) := hdue
        have hlast : some ce = (ks ++ [ce]).getLast? := by simp
        have hs₁ : Sound (queue g) ((ks ++ [ce]) ++ rest) := by
          rw [List.append_assoc]
          exact hs
        obtain ⟨g', hrun, hsound, hbare, hrows⟩ := ih n g (ks ++ [ce]) _
          (wait env ticks timeout (t ce)) (Nat.le_of_succ_le_succ hn) ht hs₁ hrest
        have hfilter : (ce :: rest).filter (fun c => ¬ Due env ticks stop (t c)) =
            ce :: rest.filter fun c => ¬ Due env ticks stop (t c) :=
          List.filter_cons_of_pos (by simpa using hdue)
        rw [hfilter, hlast]
        refine ⟨g', hrun, ?_, hbare, fun rows hr => ?_⟩
        · rw [List.append_assoc] at hsound
          exact hsound
        · convert hrows rows hr using 2 with i
          apply List.filter_congr
          intro c _
          by_cases hc : c = ce <;> simp [hc, hdue]

/-! ## What a sweep should do -/

/-- The age of an entry, in units of 100 nanoseconds. -/
def age (env : Env) (g : Globals) (ce : Nat) : Int :=
  (g.tickCount - (g.conn ce).ticks) * env.timeIncrement

/-- The entry has waited for `MAX_CLOSED_TIME` seconds, or the thread is to stop. -/
def Expired (env : Env) (g : Globals) (stop : Bool) (ce : Nat) : Prop :=
  maxClosedTime ≤ age env g ce ∨ stop = true

instance (env : Env) (g : Globals) (stop : Bool) (ce : Nat) : Decidable (Expired env g stop ce) :=
  inferInstanceAs (Decidable (_ ∨ _))

def kept (env : Env) (g : Globals) (stop : Bool) (cs : List Nat) : List Nat :=
  cs.filter fun ce => ¬ Expired env g stop ce

/-- The time until an entry expires. -/
def remaining (env : Env) (g : Globals) (ce : Nat) : Int := maxClosedTime - age env g ce

/-- The queue is `cs`, and its entries are in the buckets. -/
structure Queued (g : Globals) (rows : Nat → List Nat) (cs : List Nat) : Prop where
  chain : Spans (fun ce => (g.conn ce).nextToDel) g.connToDel cs
  live : ∀ ce ∈ cs, ce ∈ g.connPool.live
  buckets : Hashed g rows

/-- What expired has left the queue and the buckets, the rest is as it was, and the thread
waits until the first of the rest expires. -/
structure Swept (env : Env) (g : Globals) (rows : Nat → List Nat) (cs : List Nat) (stop : Bool)
    (g' : Globals) (timeout : Int) : Prop where
  chain : Spans (fun ce => (g'.conn ce).nextToDel) g'.connToDel (kept env g stop cs)
  buckets : Hashed g' fun i => (rows i).filter fun ce => ¬ (ce ∈ cs ∧ Expired env g stop ce)
  unlimited : timeout = 0 ↔ kept env g stop cs = []
  least : kept env g stop cs ≠ [] →
    (∃ ce ∈ kept env g stop cs, -timeout = remaining env g ce) ∧
      ∀ ce ∈ kept env g stop cs, -timeout ≤ remaining env g ce

/-- In 64 bits every entry is on the side of the limit that it is on, and no entry that stays
has more time left than another one. -/
structure Timely (env : Env) (g : Globals) (stop : Bool) (cs : List Nat) : Prop where
  aged : stop = false → ∀ ce ∈ cs,
    (maxClosedTime ≤ int64 (age env g ce) ↔ maxClosedTime ≤ age env g ce)
  alike : ∀ ce ∈ kept env g stop cs, ∀ ce' ∈ kept env g stop cs,
    int64 (remaining env g ce) ≤ remaining env g ce'
  exact : kept env g stop cs ≠ [] →
    ∃ ce ∈ kept env g stop cs, int64 (remaining env g ce) = remaining env g ce

theorem Queued.sound (hq : Queued g rows cs) : Sound (queue g) cs :=
  ⟨hq.chain, hq.chain.nodup, hq.live, fun k => k.elim, fun k => k.elim⟩

theorem remaining_pos {stop : Bool} {ce : Nat} (hce : ce ∈ kept env g stop cs) :
    0 < remaining env g ce := by
  have hfresh : ¬ Expired env g stop ce := of_decide_eq_true (List.mem_filter.mp hce).2
  exact Int.sub_pos_of_lt (Int.not_le.mp fun h => hfresh (Or.inl h))

/-- The loop has the remaining time in 64 bits, although it takes the age so first. -/
theorem rest_eq (env : Env) (g : Globals) (ce : Nat) :
    rest env g.tickCount (g.conn ce).ticks = int64 (remaining env g ce) := by
  unfold rest delta int64 remaining age
  exact Int.sub_bmod_bmod

theorem due_iff {stop : Bool} (ce : Nat) : Due env g.tickCount stop (g.conn ce).ticks ↔
    maxClosedTime ≤ int64 (age env g ce) ∨ stop = true := Iff.rfl

theorem wait_spec (env : Env) (g : Globals) (timeout : Int) (ce : Nat) :
    let w := wait env g.tickCount timeout (g.conn ce).ticks
    int64 (remaining env g ce) ≤ -w ∧ (timeout = 0 ∨ -timeout ≤ -w) ∧
      (w = timeout ∨ int64 (remaining env g ce) = -w) := by
  unfold wait
  rw [rest_eq]
  dsimp only
  split <;> omega

theorem foldl_wait_pos (env : Env) (g : Globals) (l : List Nat) :
    ∀ timeout : Int, (0 < -timeout ∨ ∃ ce ∈ l, 0 < int64 (remaining env g ce)) →
      0 < -l.foldl (fun timeout ce => wait env g.tickCount timeout (g.conn ce).ticks) timeout := by
  induction l with
  | nil => exact fun timeout h => h.elim id fun ⟨_, hce, _⟩ => absurd hce List.not_mem_nil
  | cons c l ih =>
    intro timeout h
    obtain ⟨hle, hkeep, -⟩ := wait_spec env g timeout c
    rw [List.foldl_cons]
    apply ih
    rcases h with h | ⟨ce, hce, h⟩
    · exact Or.inl (by omega)
    rcases List.mem_cons.mp hce with rfl | hce
    · exact Or.inl (Int.lt_of_lt_of_le h hle)
    · exact Or.inr ⟨ce, hce, h⟩

/-- A wait with a limit is the largest of the times that are left. -/
theorem foldl_wait_max (env : Env) (g : Globals) (l : List Nat) :
    ∀ timeout : Int,
      let t := l.foldl (fun timeout ce => wait env g.tickCount timeout (g.conn ce).ticks) timeout
      0 < -t → -timeout ≤ -t ∧ (∀ ce ∈ l, int64 (remaining env g ce) ≤ -t) ∧
        (t = timeout ∨ ∃ ce ∈ l, int64 (remaining env g ce) = -t) := by
  induction l with
  | nil => exact fun timeout _ => ⟨Int.le_refl _, fun _ hce => absurd hce List.not_mem_nil, Or.inl rfl⟩
  | cons c l ih =>
    intro timeout
    obtain ⟨hle, hkeep, hone⟩ := wait_spec env g timeout c
    have hmax := ih (wait env g.tickCount timeout (g.conn c).ticks)
    dsimp only at hle hkeep hone hmax ⊢
    rw [List.foldl_cons]
    intro hpos
    obtain ⟨hw, hall, hattained⟩ := hmax hpos
    refine ⟨?_, ?_, ?_⟩
    · rcases hkeep with rfl | hkeep
      · exact Int.le_of_lt hpos
      · exact Int.le_trans hkeep hw
    · intro ce hce
      rcases List.mem_cons.mp hce with rfl | hce
      · exact Int.le_trans hle hw
      · exact hall ce hce
    · rcases hattained with heq | ⟨ce, hce, heq⟩
      · rw [heq]
        exact hone.imp_right fun h => ⟨c, List.mem_cons_self, h⟩
      · exact Or.inr ⟨ce, List.mem_cons_of_mem c hce, heq⟩

/-- A pass does what the comment says just when in 64 bits every entry is on the side of the
limit that it is on, and the times that are left to the entries that stay are one. -/
theorem sweep_iff (hq : Queued g rows cs) (stop : Bool) :
    (∃ g' timeout, connThread env g stop = some (g', timeout) ∧
        Swept env g rows cs stop g' timeout) ↔ Timely env g stop cs := by
  have hlen : cs.length ≤ g.connPool.live.length + 1 := Nat.le_succ_of_le hq.sound.length_le
  obtain ⟨g₁, hrun, hsound, hbare, hrows⟩ := sweepFrom_exact env g.tickCount stop
    (fun ce => (g.conn ce).ticks) cs _ g [] _ 0 hlen (fun _ => rfl) hq.sound hq.chain
  have hpos := foldl_wait_pos env g (kept env g stop cs) 0
  have hmax := foldl_wait_max env g (kept env g stop cs) 0
  dsimp only at hmax
  constructor
  · rintro ⟨g', timeout, hrun', hswept⟩
    obtain ⟨rfl, rfl⟩ := Prod.mk.inj (Option.some.inj (hrun.symm.trans hrun'))
    have heq : cs.filter (fun ce => ¬ Due env g.tickCount stop (g.conn ce).ticks) =
        kept env g stop cs := hsound.spans.unique hswept.chain
    rw [heq] at hswept
    refine ⟨fun hstop ce hce => ?_, fun ce hce ce' hce' => ?_, fun hne => ?_⟩
    · subst hstop
      have hiff : ce ∈ cs.filter (fun ce => ¬ Due env g.tickCount false (g.conn ce).ticks) ↔
          ce ∈ kept env g false cs := by rw [heq]
      rw [kept, List.mem_filter, List.mem_filter, and_iff_right hce, and_iff_right hce,
        decide_eq_true_iff, decide_eq_true_iff, not_iff_not, due_iff] at hiff
      simpa [Expired] using hiff
    · obtain ⟨⟨d, hd, htd⟩, hleast⟩ := hswept.least (List.ne_nil_of_mem hce)
      obtain ⟨-, hall, -⟩ := hmax (htd ▸ remaining_pos hd)
      exact Int.le_trans (hall ce hce) (hleast ce' hce')
    · -- the smallest time is one that the loop has met, so it is in range
      obtain ⟨⟨ce, hce, hte⟩, -⟩ := hswept.least hne
      have hpositive := remaining_pos hce
      rw [← hte] at hpositive
      obtain ⟨-, -, hattained⟩ := hmax hpositive
      refine ⟨ce, hce, ?_⟩
      rcases hattained with h0 | ⟨ce', hce', hte'⟩
      · rw [h0] at hpositive
        exact absurd hpositive (by decide)
      · rw [← hte, ← hte']
        exact Int.bmod_bmod ..
  · intro ht
    have hdue : ∀ ce ∈ cs, Due env g.tickCount stop (g.conn ce).ticks ↔ Expired env g stop ce := by
      intro ce hce
      cases stop with
      | true => exact iff_of_true (Or.inr rfl) (Or.inr rfl)
      | false => exact or_congr_left (ht.aged rfl ce hce)
    have heq : cs.filter (fun ce => ¬ Due env g.tickCount stop (g.conn ce).ticks) =
        kept env g stop cs := by
      apply List.filter_congr
      exact fun ce hce => decide_eq_decide.mpr (not_congr (hdue ce hce))
    rw [heq] at hrun hsound
    have hlimit : kept env g stop cs ≠ [] → 0 < -(kept env g stop cs).foldl
        (fun timeout ce => wait env g.tickCount timeout (g.conn ce).ticks) 0 := by
      intro hne
      obtain ⟨ce, hce, hexact⟩ := ht.exact hne
      exact hpos (Or.inr ⟨ce, hce, by rw [hexact]; exact remaining_pos hce⟩)
    refine ⟨g₁, _, hrun, hsound.spans, ?_, ⟨fun h0 => ?_, fun hnil => ?_⟩, fun hne => ?_⟩
    · convert hrows rows hq.buckets using 2 with i
      apply List.filter_congr
      intro ce _
      exact decide_eq_decide.mpr (not_congr (and_congr_right fun hce => (hdue ce hce).symm))
    · by_contra hne
      have hpositive := hlimit hne
      rw [h0] at hpositive
      exact absurd hpositive (by decide)
    · rw [hnil]
      rfl
    · obtain ⟨ce, hce, hexact⟩ := ht.exact hne
      obtain ⟨-, hall, hattained⟩ := hmax (hlimit hne)
      obtain ⟨k, hk, hkr⟩ := hattained.resolve_left fun h0 =>
        absurd (h0 ▸ hlimit hne) (by decide)
      rw [← hkr]
      refine ⟨⟨ce, hce, Int.le_antisymm (ht.alike k hk ce hce) ?_⟩, ht.alike k hk⟩
      rw [hkr, ← hexact]
      exact hall ce hce

/-- An expired entry looks young in 64 bits. -/
def Overflows (env : Env) (g : Globals) (ce : Nat) : Prop :=
  maxClosedTime ≤ age env g ce ∧ int64 (age env g ce) < maxClosedTime

theorem int64_of_nonneg {x : Int} (h0 : 0 ≤ x) (h : x ≤ maxClosedTime) : int64 x = x := by
  unfold maxClosedTime at h
  exact Int.bmod_eq_of_le_mul_two (by omega) (by omega)

/-- With no closing time past the clock, the pass is right when no age overflows and the
entries that stay are all of one age. -/
theorem timely_iff {stop : Bool} (hclock : ∀ ce ∈ cs, (g.conn ce).ticks ≤ g.tickCount) :
    Timely env g stop cs ↔ (stop = false → ∀ ce ∈ cs, ¬ Overflows env g ce) ∧
      ∀ ce ∈ kept env g stop cs, ∀ ce' ∈ kept env g stop cs, age env g ce = age env g ce' := by
  have hage : ∀ ce ∈ cs, 0 ≤ age env g ce := fun ce hce =>
    Int.mul_nonneg (Int.sub_nonneg_of_le (hclock ce hce)) (Int.natCast_nonneg _)
  have hin : ∀ ce ∈ kept env g stop cs, int64 (remaining env g ce) = remaining env g ce := by
    intro ce hce
    have h0 := hage ce (List.mem_of_mem_filter hce)
    exact int64_of_nonneg (Int.le_of_lt (remaining_pos hce)) (by unfold remaining; omega)
  have hside : ∀ ce ∈ cs, (maxClosedTime ≤ int64 (age env g ce) ↔ maxClosedTime ≤ age env g ce) ↔
      ¬ Overflows env g ce := by
    intro ce hce
    have h0 := hage ce hce
    unfold Overflows
    by_cases hold : maxClosedTime ≤ age env g ce
    · rw [iff_true_right hold, and_iff_right hold, Int.not_lt]
    · rw [int64_of_nonneg h0 (Int.le_of_not_le hold)]
      exact iff_of_true Iff.rfl fun h => hold h.1
  constructor
  · intro ht
    refine ⟨fun hstop ce hce => (hside ce hce).mp (ht.aged hstop ce hce), fun ce hce ce' hce' => ?_⟩
    have h₁ := ht.alike ce hce ce' hce'
    have h₂ := ht.alike ce' hce' ce hce
    rw [hin ce hce] at h₁
    rw [hin ce' hce'] at h₂
    unfold remaining at h₁ h₂
    omega
  · rintro ⟨hover, hone⟩
    refine ⟨fun hstop ce hce => (hside ce hce).mpr (hover hstop ce hce), fun ce hce ce' hce' => ?_,
      fun hne => ?_⟩
    · rw [hin ce hce, remaining, remaining, hone ce hce ce' hce']
    · obtain ⟨ce, hce⟩ := List.exists_mem_of_ne_nil _ hne
      exact ⟨ce, hce, hin ce hce⟩

/-! ## Two entries -/

/-- Two closed entries of one bucket that were queued at the ticks `t₂` and, first, `t₁`. -/
def twoClosed (t₁ t₂ now : Int) : Globals :=
  { blank blankAdf with
    conn := fun ce =>
      if ce = 2 then { next := some 1, state := tcpStateClosed, nextToDel := some 1, ticks := t₂ }
      else { prev := some 2, state := tcpStateClosed, ticks := t₁ }
    connHash := Function.update (fun _ => none) 0 (some 2)
    connToDel := some 2
    connPool := ⟨[], [2, 1], 2, false⟩
    tickCount := now }

def twoRows : Nat → List Nat := Function.update (fun _ => []) 0 [2, 1]

theorem queued_twoClosed (t₁ t₂ now : Int) : Queued (twoClosed t₁ t₂ now) twoRows [2, 1] := by
  have hhash : ∀ ce, ((twoClosed t₁ t₂ now).conn ce).hash = 0 := by
    intro ce
    show ConnEntry.hash (if ce = 2 then _ else _) = 0
    split <;> rfl
  refine ⟨⟨rfl, rfl, rfl⟩, fun ce hce => hce, ⟨⟨fun i => ?_, fun i ce => ?_⟩,
    (by decide : [2, 1].Nodup)⟩⟩
  · by_cases hi : i = 0
    · subst hi
      exact ⟨rfl, rfl, rfl, rfl, rfl⟩
    · show Lib.Buckets.Segment _ _ none (Function.update (fun _ => none) 0 (some 2) i)
        (Function.update (fun _ => []) 0 [2, 1] i) none
      rw [Function.update_of_ne hi, Function.update_of_ne hi]
      rfl
  · rw [hhash]
    by_cases hi : i = 0
    · subst hi
      exact (and_iff_left rfl).symm
    · rw [twoRows, Function.update_of_ne hi]
      exact ⟨fun h => absurd h List.not_mem_nil, fun h => absurd h.2.symm hi⟩

theorem age_twoClosed {t₁ t₂ now : Int} {ce : Nat} (hce : ce ∈ [2, 1]) :
    age (freeBuild fun _ _ => none) (twoClosed t₁ t₂ now) ce =
      (now - if ce = 2 then t₂ else t₁) * 100000 := by
  rcases List.mem_pair.mp hce with rfl | rfl <;> rfl

/-- Closed at the same time, half a second ago. -/
theorem sweep_twoClosed :
    ∃ g' timeout, connThread (freeBuild fun _ _ => none) (twoClosed 50 50 100) false =
        some (g', timeout) ∧
      Swept (freeBuild fun _ _ => none) (twoClosed 50 50 100) twoRows [2, 1] false g' timeout := by
  have hage : ∀ ce ∈ [2, 1], age (freeBuild fun _ _ => none) (twoClosed 50 50 100) ce = 5000000 := by
    intro ce hce
    rw [age_twoClosed hce, ite_self]
    rfl
  have hclock : ∀ ce ∈ [2, 1], ((twoClosed 50 50 100).conn ce).ticks ≤ 100 := by decide
  refine (sweep_iff (queued_twoClosed 50 50 100) false).mpr ((timely_iff hclock).mpr ⟨?_, ?_⟩)
  · rintro - ce hce ⟨hle, -⟩
    rw [hage ce hce] at hle
    exact absurd hle (by decide)
  · intro ce hce ce' hce'
    rw [hage ce (List.mem_of_mem_filter hce), hage ce' (List.mem_of_mem_filter hce')]

/-- Half a second after the first entry and right after the second one, the thread waits
20 seconds instead of 19.5. -/
theorem waits_for_the_last :
    ¬ ∀ (env : Env) (g : Globals) (rows : Nat → List Nat) (cs : List Nat) (stop : Bool),
      Queued g rows cs → ∃ g' timeout, connThread env g stop = some (g', timeout) ∧
        Swept env g rows cs stop g' timeout := by
  intro h
  obtain ⟨g', timeout, hrun, hswept⟩ := h (freeBuild fun _ _ => none) (twoClosed 50 100 100)
    twoRows [2, 1] false (queued_twoClosed 50 100 100)
  have hwait : (connThread (freeBuild fun _ _ => none) (twoClosed 50 100 100) false).map Prod.snd =
      some (-maxClosedTime) := by decide +kernel
  rw [hrun] at hwait
  obtain rfl := Option.some.inj hwait
  have hkept : 1 ∈ kept (freeBuild fun _ _ => none) (twoClosed 50 100 100) false [2, 1] := by
    decide +kernel
  have hle := (hswept.least (List.ne_nil_of_mem hkept)).2 1 hkept
  rw [remaining, age_twoClosed (by decide)] at hle
  exact absurd hle (by decide)

end AdFilter.Tdi.Sweep
