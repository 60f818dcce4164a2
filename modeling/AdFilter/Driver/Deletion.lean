import AdFilter.Driver.Reach

/-!
# Deletions

`removeHostList` stops at the first hit from the tail, so a deletion rids the list
of a host exactly when the host stood in it at most once. Nothing in the driver
keeps a host from being listed twice.
-/

namespace AdFilter.Driver.Deletion

open AdFilter.Nt
open AdFilter.Lib.Pool
open AdFilter.Lib.Runs
open AdFilter.Driver.HostList
open AdFilter.Driver.Abstract
open AdFilter.Driver.Represent
open AdFilter.Driver.Dispatch
open AdFilter.Driver.LoadFile
open AdFilter.Driver.Refine
open AdFilter.Driver.Reach

section Deletions

variable {a : Adf} {b : Blocklist}

/-- `isInHostList` finds a string exactly when it is one of the hosts. -/
theorem isInHostList_abstracts (hab : Abstracts a b) (list : AdHost) {dst : Mem} {len : Nat}
    {h : Host} (hd : bytes dst len = h.chars) :
    isInHostList a (.head list) dst len = some (decide (h ∈ b.hosts list)) := by
  obtain ⟨es, hr, -, hs⟩ := hab
  rw [isInHostList, hr.searchBack_sameHost list hd, ← hs, Option.map_some, Option.some.injEq,
    Bool.eq_iff_iff, Option.isSome_map, List.find?_isSome, decide_eq_true_iff]
  simp [hosts]

/-- What a deletion leaves of its list. -/
theorem deletion_hosts {p : Allocator Ptr} {dbg : Bool} (hab : Abstracts a b) {irp : Irp}
    {list : AdHost} {buff : Mem} {c : Completion}
    (hq : requestOf irp.ioControlCode = .host false list) (hb : irp.systemBuffer = some buff)
    (hc : (deviceControl p dbg a irp).completion = some c) :
    Abstracts c.adf (b.setHosts list (eraseLast (cut buff) (b.hosts list))) := by
  obtain ⟨c', hc', -, hab'⟩ :=
    hostRequest_simulates p dbg (fun _ _ => 0) hab irp hb false list
  rw [deviceControl_eq, hq] at hc
  obtain rfl : c' = c := Option.some.inj (hc'.symm.trans hc)
  exact hab'

end Deletions

/-- In every reachable state, a deletion that returns success leaves no entry equal
to its string exactly when there was one at most. -/
theorem deletion_effective_iff {p : Allocator Ptr} {dbg : Bool} {m : Matcher} {a : Adf}
    (hr : Reachable p dbg m a) {irp : Irp} {list : AdHost} {buff : Mem} {c : Completion}
    (hq : requestOf irp.ioControlCode = .host false list) (hb : irp.systemBuffer = some buff)
    (hc : (deviceControl p dbg a irp).completion = some c) (_ : c.status = statusSuccess) :
    (∃ b, Abstracts a b) ∧ ∀ b, Abstracts a b →
      (isInHostList c.adf (.head list) buff (strnlen buff adfHostMaxLen) = some false ↔
        (b.hosts list).count (cut buff) ≤ 1) := by
  refine ⟨reachable_sound hr, fun b hab => ?_⟩
  have hab' := deletion_hosts hab hq hb hc
  rw [isInHostList_abstracts hab' list (bytes_cut buff), ← notMem_eraseLast_iff]
  simp [Blocklist.setHosts]

/-- `c.d` -/
def hostCD : Host := ⟨[99, 46, 100], by decide, by decide⟩

/-- A deletion of `a.b` from a list with `a.b` and `c.d`. -/
theorem deletion_effective_iff_listed :
    ∃ a c, Reachable bumpAllocator false (fun _ _ => none) a ∧
      Abstracts a (Blocklist.setHosts ⟨0, fun _ => []⟩ .user [hostAB, hostCD]) ∧
      (deviceControl bumpAllocator false a (hostIrp ioctlAdfDelUserHost hostAB.chars)).completion =
        some c ∧
      isInHostList c.adf (.head .user) (inputMem [97, 46, 98, 0] (textMem [])) 3 = some false := by
  obtain ⟨a, hr, hab⟩ := reachable_added (fun _ _ => none) [hostAB, hostCD]
  have hbuff : (hostIrp ioctlAdfDelUserHost hostAB.chars).systemBuffer =
      some (inputMem [97, 46, 98, 0] (textMem [])) := rfl
  obtain ⟨c, hc, hreply, -⟩ :=
    hostRequest_simulates bumpAllocator false (fun _ _ => 0) hab _ hbuff false .user
  have hsuccess : c.status = statusSuccess := by
    injection hreply
  have hlisted := (deletion_effective_iff hr rfl hbuff hc hsuccess).2 _ hab
  exact ⟨a, c, hr, hab, hc, hlisted.mpr (by decide)⟩

/-- Added twice and deleted once, a host is still in the list. -/
theorem deletion_leaves_second_entry :
    ¬ ∀ (p : Allocator Ptr) (dbg : Bool) (m : Matcher) (a : Adf) (irp : Irp) (list : AdHost)
      (buff : Mem) (c : Completion), Reachable p dbg m a →
      requestOf irp.ioControlCode = .host false list → irp.systemBuffer = some buff →
      (deviceControl p dbg a irp).completion = some c → c.status = statusSuccess →
      isInHostList c.adf (.head list) buff (strnlen buff adfHostMaxLen) = some false := by
  intro h
  have hin := h bumpAllocator false (fun _ _ => none) _ (hostIrp ioctlAdfDelUserHost [97, 46, 98])
    .user _ _
    ⟨_, [.ioctl (hostIrp ioctlAdfAddUserHost [97, 46, 98]),
      .ioctl (hostIrp ioctlAdfAddUserHost [97, 46, 98])], _, loaded_blank bumpAllocator,
      meets_of_forall (fun _ _ => trivial) _ _, rfl⟩ rfl rfl rfl rfl
  exact absurd hin (by decide)

end AdFilter.Driver.Deletion
