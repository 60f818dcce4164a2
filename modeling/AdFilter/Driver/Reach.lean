import AdFilter.Driver.PoolRuns
import AdFilter.Driver.Refine

/-!
# Reachable states

A driver state is reached by `load_cfg` and then any requests and verdicts, with
any allocations failing. All of them stand for a state of the abstract machine.
-/

namespace AdFilter.Driver.Reach

open AdFilter.Nt
open AdFilter.Lib.Pool
open AdFilter.Lib.Runs
open AdFilter.Driver.HostList
open AdFilter.Driver.Abstract
open AdFilter.Driver.Represent
open AdFilter.Driver.Dispatch
open AdFilter.Driver.LoadFile
open AdFilter.Driver.PoolRuns (started loadCfg_invariant)
open AdFilter.Driver.Refine

/-- The state stands for some state of the abstract machine. -/
def Sound (a : Adf) : Prop := ∃ b, Abstracts a b

/-- What `load_cfg` leaves, whatever the registry and the files hold. -/
def Loaded (p : Allocator Ptr) (a : Adf) : Prop :=
  ∃ a0 fuel cfg status, Fresh a0 ∧ loadCfg p fuel a0 cfg = some (status, a)

/-- What a run of any requests and verdicts leaves. -/
def Reachable (p : Allocator Ptr) (dbg : Bool) (m : Matcher) (a : Adf) : Prop :=
  Reached (step p dbg m) (fun _ _ => True) (Loaded p) a

section Preservation

variable {p : Allocator Ptr} {a : Adf}

theorem sound_of_represents {es : AdHost → List Entry} (hr : Represents a es) : Sound a :=
  ⟨⟨a.paused, hosts es⟩, es, hr, rfl, rfl⟩

theorem Sound.add (hs : Sound a) (list : AdHost) {src : Mem} {len : Nat} {h : Host}
    (hh : bytes src len = h.chars) : Sound (addHostList p a (.head list) src len).2 := by
  obtain ⟨b, hab⟩ := hs
  exact ⟨_, (hab.add (fun _ _ => false) p list hh).2⟩

theorem bytes_cut (src : Mem) : bytes src (strnlen src adfHostMaxLen) = (cut src).chars := rfl

theorem loaded_sound (h : Loaded p a) : Sound a := by
  obtain ⟨a0, fuel, cfg, status, hf, h⟩ := h
  refine loadCfg_invariant Sound (fun _ list len hs => hs.add list (bytes_cut (textMem len))) ?_ h
  rw [started]
  cases cfg.pause with
  | error e => exact sound_of_represents (represents_initLists hf)
  | ok v => exact sound_of_represents ((represents_initLists hf).paused v)

/-- Whatever a request holds, a call that comes back keeps the lists sound. -/
theorem deviceControl_sound {dbg : Bool} {irp : Irp} {c : Completion} (hs : Sound a)
    (h : (deviceControl p dbg a irp).completion = some c) : Sound c.adf := by
  rw [deviceControl_eq] at h
  cases hreq : requestOf irp.ioControlCode with
  | setPause =>
    simp only [hreq, setPause, refuse] at h
    obtain ⟨b, es, hr, hp, hh⟩ := hs
    cases hb : irp.systemBuffer with
    | none =>
      simp only [hb, Option.some.injEq] at h
      exact h ▸ ⟨b, es, hr, hp, hh⟩
    | some buff =>
      simp only [hb] at h
      split at h <;> simp only [Option.some.injEq] at h
      · exact h ▸ ⟨b, es, hr, hp, hh⟩
      · exact h ▸ ⟨{ b with paused := _ }, es, hr.paused _, rfl, hh⟩
  | getPause =>
    simp only [hreq, getPause, refuse] at h
    cases hb : irp.systemBuffer with
    | none =>
      simp only [hb, Option.some.injEq] at h
      exact h ▸ hs
    | some buff =>
      simp only [hb] at h
      split at h <;> simp only [Option.some.injEq] at h <;> exact h ▸ hs
  | host add list =>
    simp only [hreq] at h
    obtain ⟨b, hab⟩ := hs
    cases hb : irp.systemBuffer with
    | none =>
      rw [hostRequest, hb] at h
      exact absurd h (by simp)
    | some buff =>
      obtain ⟨c', hc', -, hab'⟩ :=
        hostRequest_simulates p dbg (fun _ _ => 0) hab irp hb add list
      obtain rfl : c' = c := Option.some.inj (hc'.symm.trans h)
      exact ⟨_, hab'⟩
  | other =>
    simp only [hreq, Option.some.injEq] at h
    exact h ▸ hs

/-- The run lemma: every reachable state represents three sequences of hosts. -/
theorem reachable_sound {dbg : Bool} {m : Matcher} (h : Reachable p dbg m a) : Sound a := by
  refine reached_invariant Sound (fun s hl => loaded_sound hl) ?_ h
  intro s e s' o hs _ hstep
  cases e with
  | ioctl irp =>
    obtain ⟨c, hc, hq⟩ := Option.map_eq_some_iff.mp hstep
    obtain ⟨rfl, -⟩ := Prod.mk.inj hq
    exact deviceControl_sound hs hc
  | verdict data len =>
    obtain ⟨found, -, hq⟩ := Option.map_eq_some_iff.mp hstep
    obtain ⟨rfl, -⟩ := Prod.mk.inj hq
    exact hs

end Preservation

/-- A registry without any of the driver's values. -/
def noConfig : Config :=
  ⟨.error statusUnsuccessful, .error statusUnsuccessful, .error statusUnsuccessful,
    .error statusUnsuccessful⟩

theorem loaded_blank (p : Allocator Ptr) : Loaded p (initLists blankAdf) :=
  ⟨blankAdf, 0, noConfig, statusUnsuccessful, ⟨rfl, rfl, rfl⟩, rfl⟩

/-- A host request with a terminated string. -/
def hostIrp (code : Nat) (host : List UInt8) : Irp := irpOf code (host ++ [0]) 0 (textMem [])

/-- Additions to the user's list lead to a state with just these hosts. -/
theorem reachable_added (m : Matcher) (hs : List Host) :
    ∃ a, Reachable bumpAllocator false m a ∧
      Abstracts a (Blocklist.setHosts ⟨0, fun _ => []⟩ .user hs) := by
  induction hs using List.reverseRecOn with
  | nil =>
    refine ⟨_, ⟨_, [], [], loaded_blank bumpAllocator, trivial, rfl⟩, ?_⟩
    rw [Blocklist.setHosts, Function.update_eq_self]
    exact abstracts_blank
  | append_singleton hs h ih =>
    obtain ⟨a, hr, hab⟩ := ih
    have hbuf : (hostIrp ioctlAdfAddUserHost h.chars).systemBuffer =
        some (inputMem (h.chars ++ [0]) (textMem [])) := by
      simp [hostIrp, irpOf]
    obtain ⟨c, hc, -, hab'⟩ := hostRequest_simulates bumpAllocator false (fun _ _ => 0) hab
      (hostIrp ioctlAdfAddUserHost h.chars) hbuf true .user
    have hstep : step bumpAllocator false m a (.ioctl (hostIrp ioctlAdfAddUserHost h.chars)) =
        some (c.adf, replyOf c) := by
      rw [step, deviceControl_eq]
      exact congrArg (Option.map _) hc
    refine ⟨c.adf, reached_step hr trivial hstep, ?_⟩
    have hg : granted bumpAllocator a = true := rfl
    rw [if_pos rfl, hg, cut_inputMem, Blocklist.step, if_pos rfl, setHosts_self, Blocklist.setHosts,
      Blocklist.setHosts, Function.update_idem] at hab'
    exact hab'

end AdFilter.Driver.Reach
