import AdFilter.Tdi.PidPname

/-!
# Events in the process list

Two threads of a process that start before it has an entry both find none and both append
one. The call that returns first then clears the event of the other, whose own event stays
in the list. When no append finds that an entry has come between its look-up and itself,
every event belongs to a call that still waits for it, and no running process has two
entries.
-/

namespace AdFilter.Tdi.PidEvents

open AdFilter.Lib.FirstOfKey
open AdFilter.Lib.Runs
open AdFilter.Nt
open AdFilter.Tdi.PidPname

/-- Every event is that of a `tdi_create` that has not returned, and no running process has
two entries. -/
structure Sound (s : State) : Prop where
  event : ∀ e ∈ s.plist, ∀ call, e.pnameEvent = some call → s.creates call ≠ none
  entry : ∀ pid, s.live pid = true → count PlistEntry.pid pid s.plist ≤ 1

/-- What a look-up before has seen is still so when the entry is appended: there is no
entry of the process, which only for a process that is not running, and without an event,
does not matter. -/
def Rechecked (s : State) : Step → Prop
  | .setAdd call true => ∀ c, s.creates call = some c → s.findPle c.pid = none
  | .resetAdd call true =>
      ∀ c, s.creates call = some c → s.live c.pid = true → s.findPle c.pid = none
  | .nameAdd name true _ => s.live name.pid = true → s.findPle name.pid = none
  | .processCreate pid true => s.findPle pid = none
  | .processCreate pid false => count PlistEntry.pid pid s.plist ≤ 1
  | _ => True

/-! ## The invariant -/

/-- The event of the call may be in the list. -/
def Armed (p : Phase) : Prop := p = .wait ∨ p = .resetFind

structure Inv (s : State) : Prop where
  led : Led PlistEntry.pid (fun e => e.pnameEvent ≠ none) s.plist
  armed : ∀ e ∈ s.plist, ∀ call, e.pnameEvent = some call →
    ∃ c, s.creates call = some c ∧ c.pid = e.pid ∧ Armed c.phase
  numbered : ∀ call, s.next ≤ call → s.creates call = none
  entry : ∀ pid, s.live pid = true → count PlistEntry.pid pid s.plist ≤ 1

variable {s s' : State} {call : Nat} {c : Create}

theorem Inv.sound (hi : Inv s) : Sound s where
  event e he call hev := by
    obtain ⟨c, hc, -⟩ := hi.armed e he call hev
    rw [hc]
    exact Option.some_ne_none c
  entry := hi.entry

theorem findPle_none_iff {pid : Nat} : s.findPle pid = none ↔ ∀ e ∈ s.plist, e.pid ≠ pid := by
  simp [State.findPle]

theorem count_of_findPle_none {pid : Nat} (h : s.findPle pid = none) :
    count PlistEntry.pid pid s.plist = 0 := count_eq_zero_iff.mpr (findPle_none_iff.mp h)

theorem createAt_eq_some {phase : Phase} :
    s.createAt call phase = some c ↔ s.creates call = some c ∧ c.phase = phase := by
  rw [State.createAt, Option.filter_eq_some_iff]
  simp

/-- A step that a call takes at a phase. -/
theorem of_createAt {β : Type} {phase : Phase} {f : Create → β} {b : β}
    (h : (s.createAt call phase).map f = some b) :
    ∃ c, s.creates call = some c ∧ c.phase = phase ∧ f c = b := by
  obtain ⟨c, hc, hb⟩ := Option.map_eq_some_iff.mp h
  obtain ⟨hc, hp⟩ := createAt_eq_some.mp hc
  exact ⟨c, hc, hp, hb⟩

theorem Inv.lt_next (hi : Inv s) (hc : s.creates call = some c) : call < s.next := by
  by_contra hge
  rw [hi.numbered call (Nat.le_of_not_lt hge)] at hc
  exact absurd hc.symm (Option.some_ne_none c)

/-- A call that has not set its event, or has reset it, has no event in the list. -/
theorem Inv.not_armed (hi : Inv s) (hc : s.creates call = some c) (hn : ¬ Armed c.phase) :
    ∀ e ∈ s.plist, e.pnameEvent ≠ some call := by
  intro e he hev
  obtain ⟨c', hc', -, ha⟩ := hi.armed e he call hev
  obtain rfl := Option.some.inj (hc.symm.trans hc')
  exact hn ha

theorem Inv.setCreate (hi : Inv s) (hc : s.creates call = some c) {o : Option Create}
    (h : ∀ e ∈ s.plist, e.pnameEvent = some call → ∃ c', o = some c' ∧ c'.pid = e.pid ∧
      Armed c'.phase) : Inv (s.setCreate call o) where
  led := hi.led
  armed e he call' hev := by
    by_cases hq : call' = call
    · subst hq
      simp only [State.setCreate, Function.update_self]
      exact h e he hev
    · simp only [State.setCreate, Function.update_of_ne hq]
      exact hi.armed e he call' hev
  numbered call' hn := by
    have hne : call' ≠ call := fun hq => absurd (hi.lt_next hc) (Nat.not_lt.mpr (hq ▸ hn))
    simp only [State.setCreate, Function.update_of_ne hne]
    exact hi.numbered call' hn
  entry := hi.entry

/-- A step of a call whose event is not in the list. -/
theorem Inv.setCreate_idle (hi : Inv s) (hc : s.creates call = some c) (hn : ¬ Armed c.phase)
    (o : Option Create) : Inv (s.setCreate call o) :=
  hi.setCreate hc fun e he hev => absurd hev (hi.not_armed hc hn e he)

/-- A step of a call that does not touch the list. -/
theorem Inv.setCreate_armed (hi : Inv s) (hc : s.creates call = some c) {c' : Create}
    (hpid : c'.pid = c.pid) (ha : Armed c.phase → Armed c'.phase) :
    Inv (s.setCreate call (some c')) := by
  refine hi.setCreate hc fun e he hev => ?_
  obtain ⟨c₁, hc₁, hp, harm⟩ := hi.armed e he call hev
  obtain rfl := Option.some.inj (hc.symm.trans hc₁)
  exact ⟨c', rfl, hpid.trans hp, ha harm⟩

theorem Inv.addPle (hi : Inv s) (granted : Bool) (e : PlistEntry)
    (hlive : granted = true → s.live e.pid = true → s.findPle e.pid = none)
    (hev : granted = true → ∀ call, e.pnameEvent = some call → s.findPle e.pid = none ∧
      ∃ c, s.creates call = some c ∧ c.pid = e.pid ∧ Armed c.phase) :
    Inv (s.addPle granted e) := by
  cases granted with
  | false => exact hi
  | true =>
    refine ⟨hi.led.append fun hm => ?_, fun e' he' call hcall => ?_, hi.numbered, fun pid hp => ?_⟩
    · obtain ⟨call, hcall⟩ := Option.ne_none_iff_exists'.mp hm
      exact findPle_none_iff.mp (hev rfl call hcall).1
    · rcases List.mem_append.mp he' with he' | he'
      · exact hi.armed e' he' call hcall
      · obtain rfl := List.mem_singleton.mp he'
        exact (hev rfl call hcall).2
    · have hle := hi.entry pid hp
      simp only [State.addPle, if_true, count_append_singleton]
      split_ifs with hq
      · subst hq
        rw [count_of_findPle_none (hlive rfl hp)]
      · exact hle

theorem Inv.addPle_unset (hi : Inv s) (granted : Bool) {e : PlistEntry} (he : e.pnameEvent = none)
    (hlive : granted = true → s.live e.pid = true → s.findPle e.pid = none) :
    Inv (s.addPle granted e) := by
  refine hi.addPle granted e hlive fun _ call hcall => ?_
  rw [he] at hcall
  exact absurd hcall.symm (Option.some_ne_none call)

/-- A write to the entry of a process that leaves it the entry of this process. -/
theorem Inv.writePle (hi : Inv s) (pid : Nat) (f : PlistEntry → PlistEntry)
    (hpid : ∀ e, (f e).pid = e.pid)
    (hev : ∀ e ∈ s.plist, e.pid = pid → ∀ call, (f e).pnameEvent = some call →
      ∃ c, s.creates call = some c ∧ c.pid = e.pid ∧ Armed c.phase) : Inv (s.writePle pid f) where
  led := hi.led.modifyFirst fun e he => (hpid e).trans he
  armed e he call hcall := by
    rcases mem_modifyFirst he with he | ⟨e₀, he₀, hk, rfl⟩
    · exact hi.armed e he call hcall
    · rw [hpid e₀]
      exact hev e₀ he₀ hk call hcall
  numbered := hi.numbered
  entry pid' hp := by
    have hc : count PlistEntry.pid pid' (s.writePle pid f).plist =
        count PlistEntry.pid pid' s.plist := count_modifyFirst fun e he => (hpid e).trans he
    rw [hc]
    exact hi.entry pid' hp

/-! ## The steps -/

theorem Inv.tdiCreate (hi : Inv s) (pid : Nat) : Inv (tdiCreate s pid) where
  led := hi.led
  armed e he call hev := by
    obtain ⟨c, hc, hp, ha⟩ := hi.armed e he call hev
    have hne : call ≠ s.next := Nat.ne_of_lt (hi.lt_next hc)
    exact ⟨c, (Function.update_of_ne hne ..).trans hc, hp, ha⟩
  numbered call hn := by
    have hle : s.next + 1 ≤ call := hn
    have hne : call ≠ s.next := by omega
    exact (Function.update_of_ne hne ..).trans (hi.numbered call (by omega))
  entry := hi.entry

/-- An event is set in an entry that is there. -/
theorem Inv.setFind (hi : Inv s) (hc : s.creates call = some c) (hp : c.phase = .setFind) :
    Inv (setEventFind s call c (some call) .wait .setAdd) := by
  have hn : ¬ Armed c.phase := by simp [Armed, hp]
  rw [setEventFind]
  cases s.findPle c.pid with
  | none => exact hi.setCreate_idle hc hn _
  | some e =>
    have hw := (hi.setCreate_idle hc hn (some { c with phase := .wait })).writePle c.pid
      (·.setEvent (some call)) fun _ => rfl
    refine hw fun e _ hpid call' hcall => ?_
    obtain rfl : call = call' := Option.some.inj hcall
    exact ⟨{ c with phase := .wait }, Function.update_self .., hpid.symm, Or.inl rfl⟩

/-- An event is set in a new entry, which is the only one of its process. -/
theorem Inv.setAdd (hi : Inv s) (hc : s.creates call = some c) (hp : c.phase = .setAdd)
    {granted : Bool} (hg : granted = true → s.findPle c.pid = none) :
    Inv (setEventAdd s call c (some call) granted .wait) := by
  have hn : ¬ Armed c.phase := by simp [Armed, hp]
  have ha := (hi.setCreate_idle hc hn (some { c with phase := .wait })).addPle granted
    { pid := c.pid, pnameEvent := some call } (fun h _ => hg h)
    fun h call' hcall => by
      obtain rfl : call = call' := Option.some.inj hcall
      exact ⟨hg h, { c with phase := .wait }, Function.update_self .., rfl, Or.inl rfl⟩
  cases granted <;> exact ha

/-- The look-up of a reset finds the entry that was set: no event of the call is left. -/
theorem Inv.resetFind (hi : Inv s) (hc : s.creates call = some c) :
    Inv (setEventFind s call c none .done .resetAdd) := by
  rw [setEventFind]
  cases hf : s.findPle c.pid with
  | none =>
    refine hi.setCreate hc fun e he hev => ?_
    obtain ⟨c', hc', hpid, -⟩ := hi.armed e he call hev
    obtain rfl := Option.some.inj (hc.symm.trans hc')
    exact absurd hpid.symm (findPle_none_iff.mp hf e he)
  | some e =>
    have hw : Inv (s.writePle c.pid (·.setEvent none)) :=
      hi.writePle c.pid _ (fun _ => rfl)
        fun _ _ _ call hcall => absurd hcall.symm (Option.some_ne_none call)
    have hc₁ : (s.writePle c.pid (·.setEvent none)).creates call = some c := hc
    refine hw.setCreate hc₁ fun e he hev => ?_
    obtain ⟨c', hc', hpid, -⟩ := hw.armed e he call hev
    obtain rfl := Option.some.inj (hc.symm.trans hc')
    have hun := hi.led.unmarked_modifyFirst (fun _ _ h => h rfl) he hpid.symm
    exact absurd (by rw [hev]; exact Option.some_ne_none call) hun

theorem Inv.resetAdd (hi : Inv s) (hc : s.creates call = some c) (hp : c.phase = .resetAdd)
    {granted : Bool} (hg : granted = true → s.live c.pid = true → s.findPle c.pid = none) :
    Inv (setEventAdd s call c none granted .done) := by
  have hn : ¬ Armed c.phase := by simp [Armed, hp]
  have hset := hi.setCreate_idle hc hn (some { c with phase := .done })
  have ha : Inv ((s.setCreate call (some { c with phase := .done })).addPle granted
    { pid := c.pid }) := hset.addPle_unset granted rfl hg
  cases granted <;> exact ha

theorem Inv.signal (hi : Inv s) (event : Option Nat) : Inv (s.signal event) := by
  cases event with
  | none => exact hi
  | some event =>
    change Inv (s.keSetEvent event)
    rw [State.keSetEvent]
    cases hc : s.creates event with
    | none => exact hi
    | some c => exact hi.setCreate_armed hc rfl id

theorem Inv.nameFind (hi : Inv s) (name : NameSet) (granted : Bool) :
    Inv (pidPnameSetFind s name granted).1 := by
  rw [pidPnameSetFind]
  cases s.findPle name.pid with
  | none => exact ⟨hi.led, hi.armed, hi.numbered, hi.entry⟩
  | some e =>
    have hw : Inv (s.writePle name.pid (·.setName name granted)) :=
      hi.writePle name.pid _ (fun _ => rfl) fun e he _ call hcall => hi.armed e he call hcall
    exact hw.signal e.toSignal

theorem Inv.nameAdd (hi : Inv s) (name : NameSet) {granted : Bool} (grantedName : Bool)
    (hg : granted = true → s.live name.pid = true → s.findPle name.pid = none) :
    Inv (pidPnameSetAdd s name granted grantedName).1 := by
  have hs : Inv { s with nameSets := s.nameSets.erase name } :=
    ⟨hi.led, hi.armed, hi.numbered, hi.entry⟩
  exact hs.addPle_unset granted rfl hg

/-- A process that starts has no entry yet. -/
theorem Inv.processCreate (hi : Inv s) {pid : Nat} {granted : Bool}
    (hg : granted = true → s.findPle pid = none) (hd : count PlistEntry.pid pid s.plist ≤ 1) :
    Inv (processCreate s pid granted) := by
  have hs : Inv { s with live := Function.update s.live pid true } := by
    refine ⟨hi.led, hi.armed, hi.numbered, fun pid' hp => ?_⟩
    replace hp : Function.update s.live pid true pid' = true := hp
    by_cases hq : pid' = pid
    · exact hq ▸ hd
    · rw [Function.update_of_ne hq] at hp
      exact hi.entry pid' hp
  exact hs.addPle_unset granted rfl fun h _ => hg h

theorem Inv.processTerminate (hi : Inv s) (pid : Nat) : Inv (processTerminate s pid) where
  led := hi.led.eraseP _
  armed e he := hi.armed e (List.mem_of_mem_eraseP he)
  numbered := hi.numbered
  entry pid' hp := by
    replace hp : Function.update s.live pid false pid' = true := hp
    have hne : pid' ≠ pid := by
      intro hq
      rw [hq, Function.update_self] at hp
      exact Bool.false_ne_true hp
    rw [Function.update_of_ne hne] at hp
    exact (count_eraseP_le _).trans (hi.entry pid' hp)

/-- The step lemma. -/
theorem inv_step {e : Step} {o : Output} (hi : Inv s) (hok : Rechecked s e)
    (h : step s e = some (s', o)) : Inv s' := by
  cases e with
  | create pid =>
    obtain ⟨rfl, -⟩ := Prod.mk.inj (Option.some.inj h)
    exact hi.tdiCreate pid
  | setFind call =>
    obtain ⟨c, hc, hp, hq⟩ := of_createAt h
    obtain ⟨rfl, -⟩ := Prod.mk.inj hq
    exact hi.setFind hc hp
  | setAdd call granted =>
    obtain ⟨c, hc, hp, hq⟩ := of_createAt h
    obtain ⟨rfl, -⟩ := Prod.mk.inj hq
    refine hi.setAdd hc hp fun hg => ?_
    subst hg
    exact hok c hc
  | wait call answer =>
    obtain ⟨c, hc, hq⟩ := Option.bind_eq_some_iff.mp h
    obtain ⟨hc, hp⟩ := createAt_eq_some.mp hc
    split at hq
    · exact absurd hq.symm (Option.some_ne_none _)
    · obtain ⟨rfl, -⟩ := Prod.mk.inj (Option.some.inj hq)
      exact hi.setCreate_armed hc rfl fun _ => Or.inr rfl
  | resetFind call =>
    obtain ⟨c, hc, -, hq⟩ := of_createAt h
    obtain ⟨rfl, -⟩ := Prod.mk.inj hq
    exact hi.resetFind hc
  | resetAdd call granted =>
    obtain ⟨c, hc, hp, hq⟩ := of_createAt h
    obtain ⟨rfl, -⟩ := Prod.mk.inj hq
    refine hi.resetAdd hc hp fun hg => ?_
    subst hg
    exact hok c hc
  | leave call =>
    obtain ⟨c, hc, hp, hq⟩ := of_createAt h
    obtain ⟨rfl, -⟩ := Prod.mk.inj hq
    exact hi.setCreate_idle hc (by simp [Armed, hp]) none
  | nameFind name granted =>
    obtain ⟨rfl, -⟩ := Prod.mk.inj (Option.some.inj h)
    exact hi.nameFind name granted
  | nameAdd name granted grantedName =>
    rw [step] at h
    split at h
    · obtain ⟨rfl, -⟩ := Prod.mk.inj (Option.some.inj h)
      refine hi.nameAdd name grantedName fun hg => ?_
      subst hg
      exact hok
    · exact absurd h.symm (Option.some_ne_none _)
  | processCreate pid granted =>
    obtain ⟨rfl, -⟩ := Prod.mk.inj (Option.some.inj h)
    cases granted with
    | false => exact hi.processCreate (fun hg => absurd hg Bool.false_ne_true) hok
    | true => exact hi.processCreate (fun _ => hok) (by simp [count_of_findPle_none hok])
  | processTerminate pid =>
    obtain ⟨rfl, -⟩ := Prod.mk.inj (Option.some.inj h)
    exact hi.processTerminate pid

theorem inv_initial (h : Initial s) : Inv s where
  led := h.1 ▸ led_nil
  armed e he := absurd (h.1 ▸ he) List.not_mem_nil
  numbered call _ := h.2.1 call
  entry pid _ := by simp [h.1, count]

/-! ## Every run -/

theorem reached_inv (h : Reached step Rechecked Initial s) : Inv s :=
  reached_invariant Inv (fun _ => inv_initial) (fun _ _ _ _ => inv_step) h

/-- What a look-up has found missing is still missing when the entry is appended: then every
event in the list is that of a call that has not returned, and no running process has two
entries. -/
theorem reached_sound (h : Reached step Rechecked Initial s) : Sound s := (reached_inv h).sound

/-- The only process that runs. -/
def running (pid : Nat) : State where
  plist := []
  creates _ := none
  next := 0
  nameSets := []
  live := fun p => p == pid

theorem initial_running (pid : Nat) : Initial (running pid) := ⟨rfl, fun _ => rfl, rfl⟩

/-- The first thread of a process waits for the name. -/
theorem reached_sound_waiting :
    ∃ s os, run step (running 8) [.create 8, .setFind 0, .setAdd 0 true] = some (s, os) ∧
      s.plist = [{ pid := 8, pnameEvent := some 0 }] ∧ Sound s := by
  obtain ⟨s, os, hr, hl⟩ : ∃ s os, run step (running 8) [.create 8, .setFind 0, .setAdd 0 true] =
      some (s, os) ∧ s.plist = [{ pid := 8, pnameEvent := some 0 }] := ⟨_, _, rfl, rfl⟩
  have hm : Meets step Rechecked (running 8) [.create 8, .setFind 0, .setAdd 0 true] := by
    refine ⟨trivial, fun r₁ h₁ => ⟨trivial, fun r₂ h₂ => ⟨fun c _ => ?_, fun _ _ => trivial⟩⟩⟩
    obtain rfl := Option.some.inj h₁
    obtain rfl := Option.some.inj h₂
    rfl
  exact ⟨s, os, hr, hl, reached_sound ⟨_, _, os, initial_running 8, hm, hr⟩⟩

/-- Two threads of a process append an entry each. The second one gives up waiting and
returns; its reset has cleared the event of the first. -/
theorem two_threads_stale_event :
    ¬ ∀ s, Reached step (fun _ _ => True) Initial s → Sound s := by
  intro h
  obtain ⟨s, os, hr, hl, hc⟩ : ∃ s os, run step (running 8)
      [.create 8, .create 8, .setFind 0, .setFind 1, .setAdd 0 true, .setAdd 1 true,
        .wait 1 .timeout, .resetFind 1, .leave 1] = some (s, os) ∧
      s.plist = [{ pid := 8 }, { pid := 8, pnameEvent := some 1 }] ∧ s.creates 1 = none :=
    ⟨_, _, rfl, rfl, rfl⟩
  have hs := h s ⟨_, _, os, initial_running 8, meets_of_forall (fun _ _ => trivial) _ _, hr⟩
  exact hs.event { pid := 8, pnameEvent := some 1 } (by simp [hl]) 1 rfl hc

/-! ## The condition is needed -/

/-- One entry more than the state before leaves a running process one entry only when it had
none. -/
theorem findPle_none_of_append (hs : Sound s') {pid : Nat} {e : PlistEntry}
    (hl : s'.plist = s.plist ++ [e]) (he : e.pid = pid) (hlive : s'.live pid = true) :
    s.findPle pid = none := by
  have hle := hs.entry pid hlive
  rw [hl, count_append_singleton, if_pos he] at hle
  exact findPle_none_iff.mpr (count_eq_zero_iff.mp (by omega))

/-- A step of the threads of running processes that breaks the condition breaks the
property at once. -/
theorem rechecked_of_sound {e : Step} {o : Output} (h : step s e = some (s', o))
    (hlive : ∀ call c, s.creates call = some c → s.live c.pid = true) (hs : Sound s') :
    Rechecked s e := by
  cases e with
  | setAdd call granted =>
    obtain ⟨c, hc, -, hq⟩ := of_createAt h
    obtain ⟨rfl, -⟩ := Prod.mk.inj hq
    cases granted with
    | false => trivial
    | true =>
      intro c' hc'
      obtain rfl := Option.some.inj (hc.symm.trans hc')
      exact findPle_none_of_append hs rfl rfl (hlive call c hc')
  | resetAdd call granted =>
    obtain ⟨c, hc, -, hq⟩ := of_createAt h
    obtain ⟨rfl, -⟩ := Prod.mk.inj hq
    cases granted with
    | false => trivial
    | true =>
      intro c' hc' hp
      obtain rfl := Option.some.inj (hc.symm.trans hc')
      exact findPle_none_of_append hs rfl rfl hp
  | nameAdd name granted grantedName =>
    rw [step] at h
    split at h
    · obtain ⟨rfl, -⟩ := Prod.mk.inj (Option.some.inj h)
      cases granted with
      | false => trivial
      | true => exact fun hp => findPle_none_of_append hs rfl rfl hp
    · exact absurd h.symm (Option.some_ne_none _)
  | processCreate pid granted =>
    obtain ⟨rfl, -⟩ := Prod.mk.inj (Option.some.inj h)
    cases granted with
    | false => exact hs.entry pid (Function.update_self ..)
    | true => exact findPle_none_of_append hs rfl rfl (Function.update_self ..)
  | create pid => trivial
  | setFind call => trivial
  | wait call answer => trivial
  | resetFind call => trivial
  | leave call => trivial
  | nameFind name granted => trivial
  | processTerminate pid => trivial

end AdFilter.Tdi.PidEvents
