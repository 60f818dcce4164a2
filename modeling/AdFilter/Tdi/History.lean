import AdFilter.Driver.Represent
import AdFilter.Slre.Plain
import AdFilter.Tdi.Machine

/-!
# Verdicts and what came before

The verdict on a datagram after two histories. A UDP datagram sets the flag that its
own verdict reads; a RawIP datagram reads what the last UDP request has left.
-/

namespace AdFilter.Tdi.History

open AdFilter.Driver.HostList
open AdFilter.Driver.Abstract
open AdFilter.Driver.Represent
open AdFilter.Driver.Filter
open AdFilter.Lib.Runs
open AdFilter.Nt
open AdFilter.Slre.Match
open AdFilter.Slre.Plain
open AdFilter.Tdi.Ipc
open AdFilter.Tdi.Objects
open AdFilter.Tdi.Datagrams
open AdFilter.Tdi.Creation
open AdFilter.Tdi.Machine

variable {env : Env}

/-- The outcome of a datagram that is sent after the events. -/
def verdictAfter (env : Env) (g : Globals) (es : List Event) (d : Datagram) (pid : Nat) :
    Option Output :=
  (run (step env) g es).bind fun r => (step env r.1 (.send d pid)).map Prod.snd

theorem verdictAfter_eq {g g' : Globals} {es : List Event} {os : List Output}
    (h : run (step env) g es = some (g', os)) (d : Datagram) (pid : Nat) :
    verdictAfter env g es d pid =
      ((tdiSendDatagram env g' d pid).map Handled.result).map Output.result := by
  rw [verdictAfter, h, Option.bind_some, step, Option.map_map, Option.map_map]
  rfl

/-- Two histories are compared by the results of the send alone. -/
theorem verdictAfter_inj {s₁ s₂ g₁ g₂ : Globals} {es₁ es₂ : List Event} {os₁ os₂ : List Output}
    (h₁ : run (step env) s₁ es₁ = some (g₁, os₁)) (h₂ : run (step env) s₂ es₂ = some (g₂, os₂))
    (d : Datagram) (pid : Nat) :
    verdictAfter env s₁ es₁ d pid = verdictAfter env s₂ es₂ d pid ↔
      (tdiSendDatagram env g₁ d pid).map Handled.result =
        (tdiSendDatagram env g₂ d pid).map Handled.result := by
  have hinj : Function.Injective (Option.map Output.result) :=
    Option.map_injective fun _ _ h => Output.result.inj h
  rw [verdictAfter_eq h₁, verdictAfter_eq h₂, hinj.eq_iff]

/-! ## One datagram -/

section Send

variable {g : Globals} {d : Datagram} {pid : Nat}

theorem send_no_proto (hp : isDatagramProto d.devobj = none) :
    (tdiSendDatagram env g d pid).map Handled.result = some filterDeny := by
  simp [tdiSendDatagram, hp]

theorem send_unknown {proto : Nat} (hp : isDatagramProto d.devobj = some proto)
    (ho : g.otFindFileobj d.fileobj = none) :
    (tdiSendDatagram env g d pid).map Handled.result =
      some (if env.dbg then filterAllow else filterDeny) := by
  simp only [tdiSendDatagram, hp, ho]
  cases env.dbg <;> rfl

/-- The result for a known object is that of `tdifw_udp_send` after `tdifw_filter`. -/
theorem send_known {proto : Nat} {ote : OtEntry} (hp : isDatagramProto d.devobj = some proto)
    (ho : g.otFindFileobj d.fileobj = some ote) :
    (tdiSendDatagram env g d pid).map Handled.result =
      tdifwUdpSend env.matcher g.adf
        (tdifwFilter g.needCheck (sendRequest d proto ote pid)).2 d.data d.len := by
  simp only [tdiSendDatagram, hp, ho, Option.map_map]
  have hq : (quickFilter g (sendRequest d proto ote pid)).2.adf = g.adf := rfl
  have hn : (quickFilter g (sendRequest d proto ote pid)).2.needCheck =
      (tdifwFilter g.needCheck (sendRequest d proto ote pid)).2 := rfl
  rw [hq, hn]
  cases tdifwUdpSend env.matcher g.adf
    (tdifwFilter g.needCheck (sendRequest d proto ote pid)).2 d.data d.len with
  | none => rfl
  | some result =>
    simp only [Option.map_some, Function.comp]
    split
    · rename_i hr
      rw [hr]
    · rfl

end Send

/-! ## Two states with the same lists -/

section Lists

variable {a₁ a₂ : Adf} {b : Blocklist} {m : Matcher} {data : Mem} {len : Int}

/-- The search depends on the lists, not on where their entries lie. -/
theorem filter_congr (h₁ : Abstracts a₁ b) (h₂ : Abstracts a₂ b) :
    filter m a₁ data len = filter m a₂ data len := by
  unfold filter search
  simp only [h₁.isMatchHostList, h₂.isMatchHostList]

theorem paused_eq (h : Abstracts a₁ b) : a₁.paused = b.paused := by
  obtain ⟨-, -, hp, -⟩ := h
  exact hp

theorem filterAllow_eq_verdict {o : Option Bool} :
    some filterAllow = o.map (fun found => found.toNat + 1) ↔ o = some false := by
  cases o with
  | none => simp
  | some found => cases found <;> simp [filterAllow]

/-- Only where the flag decides anything does it matter. -/
theorem tdifwUdpSend_eq_iff (h₁ : Abstracts a₁ b) (h₂ : Abstracts a₂ b) (x y : Bool) :
    tdifwUdpSend m a₁ x data len = tdifwUdpSend m a₂ y data len ↔
      x = y ∨ b.paused ≠ 0 ∨ filter m a₁ data (len - 1) = some false := by
  unfold tdifwUdpSend
  rw [paused_eq h₁, paused_eq h₂, ← filter_congr h₁ h₂]
  by_cases hp : b.paused = 0
  · have hl := filterAllow_eq_verdict (o := filter m a₁ data (len - 1))
    cases x <;> cases y <;> simp [hp, ← hl, eq_comm]
  · have hp' : ¬ b.paused = 0#32 := hp
    simp [hp']

end Lists

/-- What the flag is set to for a datagram does not depend on it, but for RawIP. -/
theorem flag_eq_iff {d : Datagram} {proto : Nat} (hp : isDatagramProto d.devobj = some proto)
    (ote : OtEntry) (pid : Nat) (x y : Bool) :
    (tdifwFilter x (sendRequest d proto ote pid)).2 = (tdifwFilter y (sendRequest d proto ote pid)).2 ↔
      d.devobj ≠ .ip ∨ x = y := by
  unfold isDatagramProto at hp
  cases hd : d.devobj with
  | udp =>
    obtain rfl : ipprotoUdp = proto := by simpa [hd, getOriginalDevobj, Option.filter] using hp
    simp [tdifwFilter, sendRequest]
  | ip =>
    obtain rfl : ipprotoIp = proto := by simpa [hd, getOriginalDevobj, Option.filter] using hp
    simp [tdifwFilter, sendRequest, ipprotoIp, ipprotoUdp]
  | tcp => simp [hd, getOriginalDevobj, ipprotoTcp, ipprotoUdp, ipprotoIp, Option.filter] at hp
  | other address => simp [hd, getOriginalDevobj] at hp

/-- Two histories that end with the same object table and the same lists give a
datagram the same verdict exactly when it is not RawIP, or its object is unknown, or
the flag ends the same, or the filter is paused, or the payload names no listed host. -/
theorem verdictAfter_eq_iff {s₁ s₂ g₁ g₂ : Globals} {es₁ es₂ : List Event} {os₁ os₂ : List Output}
    {b : Blocklist} (h₁ : run (step env) s₁ es₁ = some (g₁, os₁))
    (h₂ : run (step env) s₂ es₂ = some (g₂, os₂)) (hot : g₁.ot = g₂.ot) (ha₁ : Abstracts g₁.adf b)
    (ha₂ : Abstracts g₂.adf b) (d : Datagram) (pid : Nat) :
    verdictAfter env s₁ es₁ d pid = verdictAfter env s₂ es₂ d pid ↔
      d.devobj ≠ .ip ∨ g₁.otFindFileobj d.fileobj = none ∨ g₁.needCheck = g₂.needCheck ∨
        b.paused ≠ 0 ∨ filter env.matcher g₁.adf d.data (d.len - 1) = some false := by
  have hfind : g₂.otFindFileobj d.fileobj = g₁.otFindFileobj d.fileobj := by
    rw [Globals.otFindFileobj, Globals.otFindFileobj, Globals.lookup, Globals.lookup, hot]
  rw [verdictAfter_inj h₁ h₂]
  cases hp : isDatagramProto d.devobj with
  | none =>
    have hd : d.devobj ≠ .ip := fun he => by
      rw [he] at hp
      exact absurd hp (by decide)
    simp [send_no_proto hp, hd]
  | some proto =>
    cases ho : g₁.otFindFileobj d.fileobj with
    | none => simp [send_unknown hp ho, send_unknown hp (hfind.trans ho)]
    | some ote =>
      rw [send_known hp ho, send_known hp (hfind.trans ho), tdifwUdpSend_eq_iff ha₁ ha₂,
        flag_eq_iff hp]
      simp [or_assoc]

/-! ## A RawIP datagram after a UDP datagram -/

/-- An address object for UDP on port 53 and one for RawIP. -/
def addressObjects : List Event :=
  [.create ⟨.udp, 32, .transportAddress, 4⟩ ⟨.known, true, true⟩,
    .createComplete2 32 (textMem [14, 0, 2, 0, 0, 53, 10, 0, 0, 1]),
    .create ⟨.ip, 64, .transportAddress, 4⟩ ⟨.known, true, true⟩]

/-- A datagram comes in for the UDP object. -/
def received : Event := .eventReceive 32 (textMem [14, 0, 2, 0, 0, 9, 10, 0, 0, 2]) 1 statusSuccess

/-- A RawIP datagram that has `a.b` where a DNS query has its name. -/
def rawDatagram : Datagram where
  devobj := .ip
  fileobj := 64
  remoteAddr := textMem []
  data := textMem (List.replicate 12 0 ++ [1, 97, 1, 98, 0, 0, 1, 0, 1])
  sendLength := 21

/-- `a.b` -/
def listed : Host := hostAB

/-- The lists once `a.b` is added to those of the user. -/
def listedAdf : Adf :=
  (addHostList bumpAllocator (initLists blankAdf) (.head .user) (textMem listed.chars) 3).2

theorem abstracts_listedAdf :
    Abstracts listedAdf (Blocklist.setHosts ⟨0, fun _ => []⟩ .user [listed]) := by
  have hab : Abstracts (initLists blankAdf) ⟨0, fun _ => []⟩ :=
    ⟨fun _ => [], represents_initLists ⟨rfl, rfl, rfl⟩, rfl, rfl⟩
  exact (hab.add (fun _ _ => false) bumpAllocator .user (h := listed) (by decide)).2

/-- The driver's matcher. -/
def slre : Matcher := fun re s => slreMatch (fun _ => ⟨0, 0, 0, 0⟩) re s slreIgnoreCase

theorem filter_rawDatagram :
    filter slre listedAdf rawDatagram.data (rawDatagram.len - 1) = some true := by
  have hname : fmtDnsMsg rawDatagram.data (rawDatagram.len - 1) = some [97, 46, 98] := by decide
  have hmatch : slre [97, 46, 98] [97, 46, 98] = some 3 :=
    slreMatch_same_length _ (by decide) rfl
  rw [filter, hname, Option.bind_some, search, abstracts_listedAdf.isMatchHostList,
    abstracts_listedAdf.isMatchHostList, setHosts_self, setHosts_of_ne _ _ (by decide)]
  simp [List.findM?, listed, hostAB, hmatch]

/-- Receiving a datagram changes the flag and the log only. -/
theorem tdiEventReceiveDatagram_frame (g : Globals) (addrobj : FileObj) (remoteAddr : TaAddress)
    (n : Nat) (handler : NtStatus) :
    (tdiEventReceiveDatagram g addrobj remoteAddr n handler).2.ot = g.ot ∧
      (tdiEventReceiveDatagram g addrobj remoteAddr n handler).2.adf = g.adf := by
  unfold tdiEventReceiveDatagram
  split
  · exact ⟨rfl, rfl⟩
  · split
    · exact ⟨rfl, rfl⟩
    · unfold filterReceived
      simp only
      split <;> exact ⟨rfl, rfl⟩

/-- The flag and the RawIP object after some events. -/
def flagAfter (es : List Event) : Option (Bool × Bool) :=
  (run (step (freeBuild slre)) (blank listedAdf) es).map fun r =>
    (r.1.needCheck, (r.1.otFindFileobj 64).isSome)

/-- The two histories differ in the flag and in nothing that has to be the same. -/
theorem run_received :
    ∃ g₁ os₁ g₂ os₂, run (step (freeBuild slre)) (blank listedAdf) (addressObjects ++ [received]) =
        some (g₁, os₁) ∧
      run (step (freeBuild slre)) (blank listedAdf) addressObjects = some (g₂, os₂) ∧
      g₁.ot = g₂.ot ∧ g₁.adf = listedAdf ∧ g₂.adf = listedAdf ∧ g₁.needCheck = true ∧
      g₂.needCheck = false ∧ g₁.otFindFileobj 64 ≠ none := by
  have hf₁ : flagAfter (addressObjects ++ [received]) = some (true, true) := by decide +kernel
  have hf₂ : flagAfter addressObjects = some (false, true) := by decide +kernel
  obtain ⟨⟨g₁, os₁⟩, h₁, hq₁⟩ := Option.map_eq_some_iff.mp hf₁
  obtain ⟨⟨g₂, os₂⟩, h₂, hq₂⟩ := Option.map_eq_some_iff.mp hf₂
  obtain ⟨hn₁, hs₁⟩ := Prod.mk.inj hq₁
  obtain ⟨hn₂, -⟩ := Prod.mk.inj hq₂
  have ha : g₂.adf = listedAdf := by
    have hadf : (run (step (freeBuild slre)) (blank listedAdf) addressObjects).map
        (fun r => r.1.adf) = some listedAdf := rfl
    rw [h₂] at hadf
    exact Option.some.inj hadf
  have hlast := h₁
  rw [run_append, h₂] at hlast
  obtain ⟨rfl, -⟩ := Prod.mk.inj (Option.some.inj hlast)
  have hframe := tdiEventReceiveDatagram_frame g₂ 32 (textMem [14, 0, 2, 0, 0, 9, 10, 0, 0, 2]) 1
    statusSuccess
  exact ⟨_, _, _, _, h₁, h₂, hframe.1, hframe.2.trans ha, ha, hn₁, hn₂,
    Option.isSome_iff_ne_none.mp hs₁⟩

/-- A datagram on UDP has the same verdict after both. -/
theorem verdictAfter_eq_udp :
    verdictAfter (freeBuild slre) (blank listedAdf) (addressObjects ++ [received])
        { rawDatagram with devobj := .udp } 4 =
      verdictAfter (freeBuild slre) (blank listedAdf) addressObjects
        { rawDatagram with devobj := .udp } 4 := by
  obtain ⟨g₁, os₁, g₂, os₂, h₁, h₂, hot, ha₁, ha₂, -⟩ := run_received
  exact (verdictAfter_eq_iff h₁ h₂ hot (ha₁ ▸ abstracts_listedAdf) (ha₂ ▸ abstracts_listedAdf)
    _ 4).mpr (Or.inl (by decide))

/-- A RawIP datagram is denied after the UDP datagram, and allowed without it. -/
theorem rawIp_verdict_depends_on_history :
    ¬ ∀ (env : Env) (s₁ s₂ g₁ g₂ : Globals) (es₁ es₂ : List Event) (os₁ os₂ : List Output)
      (b : Blocklist) (d : Datagram) (pid : Nat), Initial s₁ → Initial s₂ →
      run (step env) s₁ es₁ = some (g₁, os₁) → run (step env) s₂ es₂ = some (g₂, os₂) →
      g₁.ot = g₂.ot → Abstracts g₁.adf b → Abstracts g₂.adf b →
      verdictAfter env s₁ es₁ d pid = verdictAfter env s₂ es₂ d pid := by
  intro h
  obtain ⟨g₁, os₁, g₂, os₂, h₁, h₂, hot, ha₁, ha₂, hf₁, hf₂, hknown⟩ := run_received
  obtain ⟨ote, hote⟩ := Option.ne_none_iff_exists'.mp hknown
  have hote₂ : g₂.otFindFileobj 64 = some ote := by
    rw [← hote, Globals.otFindFileobj, Globals.otFindFileobj, Globals.lookup, Globals.lookup, hot]
  have hip : isDatagramProto rawDatagram.devobj = some ipprotoIp := by decide
  have heq := h _ _ _ _ _ _ _ _ _ _ rawDatagram 4 (initial_blank _) (initial_blank _) h₁ h₂ hot
    (ha₁ ▸ abstracts_listedAdf) (ha₂ ▸ abstracts_listedAdf)
  rw [verdictAfter_inj h₁ h₂] at heq
  rw [send_known hip hote, send_known hip hote₂, ha₁, ha₂] at heq
  have hiff := (tdifwUdpSend_eq_iff abstracts_listedAdf abstracts_listedAdf _ _).mp heq
  rw [flag_eq_iff hip, hf₁, hf₂] at hiff
  rcases hiff with (hd | hflag) | hp | hfilter
  · exact hd rfl
  · exact absurd hflag (by decide)
  · exact hp rfl
  · exact absurd (filter_rawDatagram.symm.trans hfilter) (by decide)

end AdFilter.Tdi.History
