import AdFilter.App.Agreement

/-!
# Editing a host

`s_LostFocus` of the host view deletes the old text and adds the new one. Either call may
refuse, and nothing puts the old text back when the second one does. What the driver deletes
and adds is what comes through of the texts.
-/

namespace AdFilter.App.Editing

open AdFilter.Lib.Pool
open AdFilter.Driver.HostList
open AdFilter.Driver.Abstract
open AdFilter.Driver.Represent
open AdFilter.App.Adf
open AdFilter.App.ViewModel
open AdFilter.App.Agreement

/-- The end of an edit: both lists after it, and the messages that were shown. `beyond` and
`beyond'` lie past the buffers of its two requests. -/
def sLostFocus (vm : HostViewModel) (c : CodePage) (d : Device) (beyond beyond' : Mem) (a : Adf)
    (orgHost newHost : Text) : Option (HostViewModel × Adf × List Msg) :=
  if newHost = orgHost then some (vm, a, [])
  else
    (vm.del c { d with beyond := beyond } a orgHost).bind fun r =>
      (r.1.add c { d with beyond := beyond' } r.2.1 newHost).map fun s =>
        (s.1, s.2.1, r.2.2.toList ++ s.2.2.toList)

/-- Whatever lies past the buffers, one occurrence of the old host has given its place to the
new one in both lists, or neither has changed. -/
def AllOrNothing (c : CodePage) (d : Device) (a : Adf) (b : Blocklist) (vm : HostViewModel)
    (orgHost newHost : Text) : Prop :=
  ∀ beyond beyond', ∃ vm' a' msgs b',
    sLostFocus vm c d beyond beyond' a orgHost newHost = some (vm', a', msgs) ∧ Abstracts a' b' ∧
    (vm'.hosts.Perm (newHost :: vm.hosts.erase orgHost) ∧
        (kernel vm.except b').Perm
          (c.ansi newHost :: (kernel vm.except b).erase (c.ansi orgHost)) ∨
      vm'.hosts = vm.hosts ∧ kernel vm.except b' = kernel vm.except b)

/-- When an edit is right: the text has not changed, the driver is not there, or the old text
goes to the driver just when the new one does, and then both come through whole and there is
memory. -/
def Editable (c : CodePage) (d : Device) (a : Adf) (vm : HostViewModel)
    (orgHost newHost : Text) : Prop :=
  newHost = orgHost ∨ d.opened = false ∨
    if 1 < orgHost.length ∧ orgHost.length ≤ adfHostMaxLen then
      Acceptable vm newHost ∧ Whole c orgHost ∧ Whole c newHost ∧ granted d.pool a = true
    else ¬ Acceptable vm newHost

variable {c : CodePage} {d : Device} {a : Adf} {b : Blocklist} {vm : HostViewModel}
  {orgHost newHost : Text}

/-! ## The deletion -/

/-- `Del` on a host that is shown. -/
theorem del_eq (horg : orgHost ∈ vm.hosts) :
    vm.del c d a orgHost = (delHost c d a orgHost vm.except).map fun r =>
      (if r.1 then { vm with hosts := vm.hosts.erase orgHost } else vm, r.2, some .hostDel) := by
  have hlen : vm.hosts.length ≠ 0 := Nat.ne_of_gt (List.length_pos_of_mem horg)
  have hlt : vm.hosts.idxOf orgHost < vm.hosts.length := List.idxOf_lt_length_iff.mpr horg
  have hfind : vm.hosts.findIdx? (· == orgHost) = some (vm.hosts.idxOf orgHost) :=
    List.findIdx?_eq_some_iff_findIdx_eq.mpr ⟨hlt, rfl⟩
  rw [HostViewModel.del, if_neg hlen, hfind]
  dsimp only
  rw [HostViewModel.removeAt, List.getD_eq_getElem _ _ hlt, List.getElem_idxOf hlt,
    ← List.erase_eq_eraseIdx_of_idxOf rfl]

/-- A deletion that does not reach the driver. -/
theorem del_refused (horg : orgHost ∈ vm.hosts)
    (h : ¬ (1 < orgHost.length ∧ orgHost.length ≤ adfHostMaxLen) ∨ d.opened = false) :
    vm.del c d a orgHost = some (vm, a, some .hostDel) := by
  have hdel : delHost c d a orgHost vm.except = some (false, a) := by
    rw [delHost]
    by_cases hone : orgHost.length ≤ 1
    · exact if_pos hone
    rw [if_neg hone]
    by_cases hlong : adfHostMaxLen < orgHost.length
    · exact adfHost_too_long _ hlong _ _
    · refine adfHost_closed (h.resolve_left (not_not.mpr ?_)) _ _ _ _
      exact ⟨Nat.lt_of_not_le hone, Nat.le_of_not_lt hlong⟩
  rw [del_eq horg, hdel]
  rfl

theorem del_opened (ho : d.opened = true) (hab : Abstracts a b) (horg : orgHost ∈ vm.hosts)
    (hone : 1 < orgHost.length) (hlong : orgHost.length ≤ adfHostMaxLen) :
    ∃ a₁ b₁, vm.del c d a orgHost =
        some ({ vm with hosts := vm.hosts.erase orgHost }, a₁, some .hostDel) ∧
      Abstracts a₁ b₁ ∧
      (kernel vm.except b₁).Perm ((kernel vm.except b).erase
        (received d.beyond (lpStr c orgHost) orgHost.length).chars) ∧
      granted d.pool a₁ = granted d.pool a := by
  obtain ⟨a₁, hrun, hab₁, hcalls⟩ :=
    adfHost_opened ho hab (lpStr c orgHost) hlong false vm.except
  refine ⟨a₁, _, ?_, hab₁, kernel_erase vm.except b _, ?_⟩
  · rw [del_eq horg, delHost, if_neg (Nat.not_le.mpr hone), hrun]
    rfl
  · rw [granted, granted, hcalls rfl]

/-! ## The edit -/

theorem sLostFocus_eq (hne : newHost ≠ orgHost) {beyond beyond' : Mem} {msg : Option Msg}
    {vm₁ : HostViewModel} {a₁ : Adf}
    (hdel : vm.del c { d with beyond := beyond } a orgHost = some (vm₁, a₁, msg)) :
    sLostFocus vm c d beyond beyond' a orgHost newHost =
      (vm₁.add c { d with beyond := beyond' } a₁ newHost).map fun s =>
        (s.1, s.2.1, msg.toList ++ s.2.2.toList) := by
  rw [sLostFocus, if_neg hne, hdel]
  rfl

/-- When the deletion does nothing, the edit is an addition. -/
theorem allOrNothing_of_refused (hab : Abstracts a b) (horg : orgHost ∈ vm.hosts)
    (hne : newHost ≠ orgHost)
    (h : ¬ (1 < orgHost.length ∧ orgHost.length ≤ adfHostMaxLen) ∨ d.opened = false) :
    AllOrNothing c d a b vm orgHost newHost ↔ d.opened = false ∨ ¬ Acceptable vm newHost := by
  have hedit : ∀ beyond beyond', sLostFocus vm c d beyond beyond' a orgHost newHost =
      (vm.add c { d with beyond := beyond' } a newHost).map fun s =>
        (s.1, s.2.1, (some Msg.hostDel).toList ++ s.2.2.toList) := by
    intro beyond beyond'
    have hdel : vm.del c { d with beyond := beyond } a orgHost = some (vm, a, some .hostDel) :=
      del_refused horg h
    exact sLostFocus_eq hne hdel
  constructor
  · intro hall
    by_contra hcon
    obtain ⟨ho, hacc⟩ := not_or.mp hcon
    have hacc := not_not.mp hacc
    obtain ⟨vm', a', msgs, b', hrun, -, hlists⟩ := hall d.beyond d.beyond
    obtain ⟨a₁, hadd, -⟩ := add_opened (c := c) (Bool.of_not_eq_false ho) hab hacc
    rw [hedit, hadd] at hrun
    obtain ⟨rfl, -⟩ := Prod.mk.inj (Option.some.inj hrun)
    dsimp only at hlists
    have hpos := List.length_pos_of_mem horg
    rcases hlists with ⟨hperm, -⟩ | ⟨hsame, -⟩
    · have hlen := hperm.length_eq
      rw [List.length_append, List.length_singleton, List.length_cons,
        List.length_erase_of_mem horg] at hlen
      omega
    · have hlen := congrArg List.length hsame
      rw [List.length_append, List.length_singleton] at hlen
      omega
  · intro hwhy beyond beyond'
    obtain ⟨msg, hadd⟩ :=
      add_unsent (c := c) (d := { d with beyond := beyond' }) (a := a) hwhy.symm
    have hrun := hedit beyond beyond'
    rw [hadd] at hrun
    exact ⟨vm, a, _, b, hrun, hab, Or.inr ⟨rfl, rfl⟩⟩

theorem acceptable_erase (hne : newHost ≠ orgHost) :
    Acceptable { vm with hosts := vm.hosts.erase orgHost } newHost ↔ Acceptable vm newHost := by
  unfold Acceptable
  dsimp only
  rw [List.mem_erase_of_ne hne]

section Opened

variable (ho : d.opened = true) (hab : Abstracts a b) (horg : orgHost ∈ vm.hosts)
  (hone : 1 < orgHost.length) (hlong : orgHost.length ≤ adfHostMaxLen) (hne : newHost ≠ orgHost)

include ho hab horg hone hlong hne

/-- Both lists after an edit whose two requests reach the driver. -/
theorem edit_accepted (hacc : Acceptable vm newHost) (beyond beyond' : Mem) :
    ∃ a₂ msgs b₂, sLostFocus vm c d beyond beyond' a orgHost newHost =
        some ({ vm with hosts := vm.hosts.erase orgHost ++ [newHost] }, a₂, msgs) ∧
      Abstracts a₂ b₂ ∧
      (kernel vm.except b₂).Perm
        ((if granted d.pool a then
            [(received beyond' (lpStr c newHost) newHost.length).chars] else []) ++
          (kernel vm.except b).erase
            (received beyond (lpStr c orgHost) orgHost.length).chars) := by
  obtain ⟨a₁, b₁, hdel, hab₁, hkernel, hgranted⟩ := del_opened (c := c)
    (d := { d with beyond := beyond }) ho hab horg hone hlong
  obtain ⟨a₂, hadd, hab₂⟩ := add_opened (c := c) (d := { d with beyond := beyond' }) ho hab₁
    ((acceptable_erase hne).mpr hacc)
  refine ⟨a₂, _, _, (sLostFocus_eq hne hdel).trans (by rw [hadd]; rfl), hab₂, ?_⟩
  rw [show granted d.pool a₁ = granted d.pool a from hgranted]
  split
  · rw [kernel, setHosts_self, List.map_append]
    exact List.perm_append_comm.trans (hkernel.append_left _)
  · exact hkernel

/-- Then the edit is right just when the kernel list is. -/
theorem allOrNothing_of_accepted (hacc : Acceptable vm newHost) :
    AllOrNothing c d a b vm orgHost newHost ↔ ∀ beyond beyond',
      ((if granted d.pool a then
          [(received beyond' (lpStr c newHost) newHost.length).chars] else []) ++
        (kernel vm.except b).erase
          (received beyond (lpStr c orgHost) orgHost.length).chars).Perm
        (c.ansi newHost :: (kernel vm.except b).erase (c.ansi orgHost)) := by
  refine forall_congr' fun beyond => forall_congr' fun beyond' => ?_
  obtain ⟨a₂, msgs, b₂, hrun, hab₂, hkernel⟩ :=
    edit_accepted (c := c) ho hab horg hone hlong hne hacc beyond beyond'
  constructor
  · rintro ⟨vm', a', msgs', b', hrun', hab', hlists⟩
    obtain ⟨rfl, hrest⟩ := Prod.mk.inj (Option.some.inj (hrun.symm.trans hrun'))
    obtain ⟨rfl, -⟩ := Prod.mk.inj hrest
    rcases hlists with ⟨-, hperm⟩ | ⟨hback, -⟩
    · rw [hab'.unique hab₂] at hperm
      exact hkernel.symm.trans hperm
    · have hin : newHost ∈ vm.hosts := hback ▸ List.mem_append_right _ List.mem_cons_self
      exact absurd hin hacc.2
  · intro hperm
    exact ⟨_, a₂, msgs, b₂, hrun, hab₂, Or.inl ⟨List.perm_append_comm, hkernel.trans hperm⟩⟩

/-- When the new text is refused, the old one is gone all the same. -/
theorem not_allOrNothing_of_refused (hacc : ¬ Acceptable vm newHost) :
    ¬ AllOrNothing c d a b vm orgHost newHost := by
  intro hall
  obtain ⟨vm', a', msgs, b', hrun, -, hlists⟩ := hall d.beyond d.beyond
  obtain ⟨a₁, b₁, hdel, -⟩ := del_opened (c := c) ho hab horg hone hlong
  obtain ⟨msg, hadd⟩ := add_refused (c := c) (d := d) (a := a₁)
    (mt (acceptable_erase hne).mp hacc)
  rw [sLostFocus_eq hne hdel, hadd] at hrun
  obtain ⟨rfl, -⟩ := Prod.mk.inj (Option.some.inj hrun)
  dsimp only at hlists
  have hpos := List.length_pos_of_mem horg
  have herase := List.length_erase_of_mem horg
  rcases hlists with ⟨hperm, -⟩ | ⟨hback, -⟩
  · have hlen := hperm.length_eq
    rw [List.length_cons] at hlen
    omega
  · have hlen := congrArg List.length hback
    omega

end Opened

/-- Erasing another element leaves another list. -/
theorem erase_perm_erase_iff {l : List (List UInt8)} {x y : List UInt8} (hy : y ∈ l) :
    (l.erase x).Perm (l.erase y) ↔ x = y := by
  refine ⟨fun h => by_contra fun hxy => ?_, fun h => h ▸ List.Perm.refl _⟩
  have hcount := h.count_eq y
  have hpos := List.count_pos_iff.mpr hy
  rw [List.count_erase_of_ne (Ne.symm hxy), List.count_erase_self] at hcount
  omega

/-- The kernel list is right whatever lies past the buffers just when there is memory and both
texts come through. -/
theorem perm_iff_whole {kept : List (List UInt8)} (horg : c.ansi orgHost ∈ kept)
    (hfits : (c.ansi orgHost).length ≤ adfHostMaxLen) (h0 : 0 ∉ c.ansi orgHost)
    (hold : orgHost.length ≤ adfHostMaxLen) (hnew : newHost.length ≤ adfHostMaxLen) (g : Bool) :
    (∀ beyond beyond',
      ((if g then [(received beyond' (lpStr c newHost) newHost.length).chars] else []) ++
        kept.erase (received beyond (lpStr c orgHost) orgHost.length).chars).Perm
          (c.ansi newHost :: kept.erase (c.ansi orgHost))) ↔
      Whole c orgHost ∧ Whole c newHost ∧ g = true := by
  rw [← received_lpStr_iff hold, ← received_lpStr_iff hnew]
  constructor
  · intro h
    obtain ⟨beyond₀, hbeyond₀⟩ := exists_received h0 hfits hold
    have hg : g = true := by
      refine Bool.of_not_eq_false fun hg => ?_
      have hlen := (h beyond₀ beyond₀).length_eq
      rw [hg, hbeyond₀, if_neg Bool.false_ne_true, List.nil_append, List.length_cons] at hlen
      omega
    have hnews : ∀ beyond', (received beyond' (lpStr c newHost) newHost.length).chars =
        c.ansi newHost := by
      intro beyond'
      have hperm := h beyond₀ beyond'
      rw [if_pos hg, hbeyond₀] at hperm
      exact List.singleton_perm_singleton.mp ((List.perm_append_right_iff _).mp hperm)
    refine ⟨fun beyond => ?_, hnews, hg⟩
    have hperm := h beyond beyond₀
    rw [if_pos hg, hnews] at hperm
    exact (erase_perm_erase_iff horg).mp hperm.cons_inv
  · rintro ⟨hold, hnews, rfl⟩ beyond beyond'
    rw [if_pos rfl, hold, hnews]
    exact List.Perm.refl _

/-- An edit is all or nothing exactly when the new text is accepted after the old one has
been deleted, or neither call does anything. -/
theorem edit_iff (hab : Abstracts a b) (hagree : (kernel vm.except b).Perm (vm.hosts.map c.ansi))
    (horg : orgHost ∈ vm.hosts) (newHost : Text) :
    AllOrNothing c d a b vm orgHost newHost ↔ Editable c d a vm orgHost newHost := by
  unfold Editable
  by_cases hne : newHost = orgHost
  · refine iff_of_true (fun _ _ => ⟨vm, a, [], b, ?_, hab, Or.inr ⟨rfl, rfl⟩⟩) (Or.inl hne)
    rw [sLostFocus, if_pos hne]
  rw [or_iff_right hne]
  cases ho : d.opened with
  | false =>
    rw [allOrNothing_of_refused hab horg hne (Or.inr ho)]
    exact iff_of_true (Or.inl ho) (Or.inl rfl)
  | true =>
    rw [or_iff_right (by decide)]
    by_cases hreach : 1 < orgHost.length ∧ orgHost.length ≤ adfHostMaxLen
    · rw [if_pos hreach]
      obtain ⟨hone, hlong⟩ := hreach
      by_cases hacc : Acceptable vm newHost
      · have hmem : c.ansi orgHost ∈ kernel vm.except b :=
          hagree.mem_iff.mpr (List.mem_map_of_mem horg)
        obtain ⟨k, -, hk⟩ := List.mem_map.mp hmem
        rw [and_iff_right hacc,
          allOrNothing_of_accepted (c := c) ho hab horg hone hlong hne hacc]
        exact perm_iff_whole hmem (hk ▸ k.fits) (hk ▸ k.noNul) hlong hacc.1.2.2 _
      · refine iff_of_false ?_ fun h => hacc h.1
        exact not_allOrNothing_of_refused ho hab horg hone hlong hne hacc
    · rw [if_neg hreach, allOrNothing_of_refused hab horg hne (Or.inl hreach), ho]
      exact or_iff_right (by decide)

/-- `a.b` in the black list. -/
def oneHost : Blocklist where
  paused := 0
  hosts list := if list = .user then [hostAB] else []

def oneShown : HostViewModel := ⟨[[97, 46, 98]], false⟩

/-- `a.b` becomes `c.d`. -/
theorem edit_oneHost :
    ∃ a, AllOrNothing asciiPage (openDevice bumpAllocator) a oneHost oneShown [97, 46, 98]
      [99, 46, 100] := by
  obtain ⟨a, hab⟩ := exists_abstracts oneHost
  have hnew : Acceptable oneShown [99, 46, 100] := ⟨⟨rfl, by decide, by decide⟩, by decide⟩
  refine ⟨a, (edit_iff hab (List.Perm.refl _) List.mem_cons_self [99, 46, 100]).mpr ?_⟩
  exact Or.inr (Or.inr ⟨hnew, ⟨by decide, Or.inl (by decide)⟩, ⟨by decide, Or.inl (by decide)⟩,
    rfl⟩)

/-- `a.b` becomes `c`: the text without a dot is refused, and `a.b` is gone. -/
theorem invalid_edit_deletes :
    ¬ ∀ (c : CodePage) (d : Device) (a : Adf) (b : Blocklist) (vm : HostViewModel)
        (orgHost newHost : Text), Abstracts a b →
      (kernel vm.except b).Perm (vm.hosts.map c.ansi) → orgHost ∈ vm.hosts →
        AllOrNothing c d a b vm orgHost newHost := by
  intro h
  obtain ⟨a, hab⟩ := exists_abstracts oneHost
  have horg : [97, 46, 98] ∈ oneShown.hosts := List.mem_cons_self
  have hnew : ¬ Acceptable oneShown [99] := fun hacc => absurd hacc.1.1 (by decide)
  exact not_allOrNothing_of_refused (c := asciiPage) (d := openDevice bumpAllocator) rfl hab horg
    (by decide) (by decide) (by decide) hnew
    (h asciiPage (openDevice bumpAllocator) a oneHost oneShown [97, 46, 98] [99] hab
      (List.Perm.refl _) horg)

end AdFilter.App.Editing
