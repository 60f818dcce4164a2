import AdFilter.App.ViewModel

/-!
# Reported additions

`device_control` completes every host request with success, so the library reports
an addition whether or not `addHostList` had the memory for it, and whatever it took out of
the request. The report is right when the request does not reach the driver, or the host has
no NUL and both allocations are granted. The view shows a host of the driver when, besides,
all of its text comes through.
-/

namespace AdFilter.App.ReportedAdd

open AdFilter.Lib.Pool
open AdFilter.Driver.HostList
open AdFilter.Driver.Abstract
open AdFilter.Driver.Represent
open AdFilter.Driver.Refine (abstracts_blank)
open AdFilter.App.Adf
open AdFilter.App.ViewModel

/-- The result of an addition says whether the list has gained the host. -/
def Reported (d : Device) (a : Adf) (b : Blocklist) (h : List UInt8) (except : Bool) : Prop :=
  ∃ r a' b', adfHost d a (some (cStr h)) h.length true except = some (r, a') ∧ Abstracts a' b' ∧
    (r = true → ∃ k : Host, k.chars = h ∧
      (b'.hosts (listOf except)).Perm (k :: b.hosts (listOf except))) ∧
    (r = false → b'.hosts = b.hosts)

/-- The driver has the bytes of a text as a host. -/
def Listed (c : CodePage) (b : Blocklist) (except : Bool) (s : Text) : Prop :=
  ∃ k ∈ b.hosts (listOf except), k.chars = c.ansi s

/-- The driver has every host that the view shows. -/
def Backed (c : CodePage) (vm : HostViewModel) (b : Blocklist) : Prop :=
  ∀ s ∈ vm.hosts, Listed c b vm.except s

/-- `Add` shows no host that the driver does not have, whatever lies past its buffers. -/
def Shown (c : CodePage) (d : Device) (a : Adf) (b : Blocklist) (s : Text) (except : Bool) : Prop :=
  ∀ (beyond : Mem) (vm : HostViewModel), vm.except = except → Backed c vm b →
    ∃ vm' a' msg b', vm.add c { d with beyond := beyond } a s = some (vm', a', msg) ∧
      Abstracts a' b' ∧ Backed c vm' b'

section Additions

variable {c : CodePage} {d : Device} {a : Adf} {b : Blocklist} {except : Bool}

/-- A report is right just when the driver is not asked, or it stores all of the host. -/
theorem reported_iff (hab : Abstracts a b) (h : List UInt8) :
    Reported d a b h except ↔
      adfHostMaxLen < h.length ∨ d.opened = false ∨ granted d.pool a = true ∧ 0 ∉ h := by
  by_cases hlong : adfHostMaxLen < h.length
  · refine iff_of_true ⟨false, a, b, ?_, hab, nofun, fun _ => rfl⟩ (Or.inl hlong)
    exact adfHost_too_long _ hlong _ _
  rw [or_iff_right hlong]
  have hfits := Nat.le_of_not_lt hlong
  cases ho : d.opened with
  | false =>
    refine iff_of_true ⟨false, a, b, ?_, hab, nofun, fun _ => rfl⟩ (Or.inl rfl)
    exact adfHost_closed ho _ _ _ _
  | true =>
    rw [or_iff_right (by decide)]
    obtain ⟨a₁, hrun, hab₁, -⟩ := adfHost_opened ho hab (cStr h) hfits true except
    rw [if_pos rfl] at hab₁
    constructor
    · rintro ⟨r, a', b', hadf, hab', hgain, -⟩
      obtain ⟨rfl, rfl⟩ := Prod.mk.inj (Option.some.inj (hrun.symm.trans hadf))
      obtain ⟨k, rfl, hperm⟩ := hgain rfl
      refine ⟨Bool.of_not_eq_false fun hg => ?_, k.noNul⟩
      rw [hg, if_neg Bool.false_ne_true] at hab₁
      have hlen := hperm.length_eq
      rw [hab'.unique hab₁, List.length_cons] at hlen
      omega
    · rintro ⟨hg, h0⟩
      rw [if_pos hg, received_cStr d.beyond ⟨h, h0, hfits⟩] at hab₁
      refine ⟨true, a₁, _, hrun, hab₁, fun _ => ⟨⟨h, h0, hfits⟩, rfl, ?_⟩, nofun⟩
      rw [setHosts_self]
      exact List.perm_append_comm

/-- What the driver has after an addition. -/
theorem listed_added (g : Bool) (k : Host) (s : Text) :
    Listed c (if g then b.setHosts (listOf except) (b.hosts (listOf except) ++ [k]) else b)
        except s ↔
      Listed c b except s ∨ g = true ∧ k.chars = c.ansi s := by
  unfold Listed
  cases g with
  | false => simp
  | true =>
    rw [if_pos rfl, setHosts_self]
    constructor
    · rintro ⟨k', hk, hchars⟩
      rcases List.mem_append.mp hk with hk | hk
      · exact Or.inl ⟨k', hk, hchars⟩
      · exact Or.inr ⟨rfl, List.mem_singleton.mp hk ▸ hchars⟩
    · rintro (⟨k', hk, hchars⟩ | ⟨-, hchars⟩)
      · exact ⟨k', List.mem_append_left _ hk, hchars⟩
      · exact ⟨k, List.mem_append_right _ (List.mem_singleton_self k), hchars⟩

/-- Additions show only hosts of the driver just when the text does not reach it, is there
already, or is stored whole. -/
theorem shown_iff (hab : Abstracts a b) (s : Text) :
    Shown c d a b s except ↔
      ¬ Sendable s ∨ d.opened = false ∨ Listed c b except s ∨
        granted d.pool a = true ∧ Whole c s := by
  constructor
  · intro h
    by_contra hcon
    simp only [not_or, not_not, Bool.not_eq_false] at hcon
    obtain ⟨hs, ho, hnew, hbad⟩ := hcon
    have hadded : ∀ beyond, granted d.pool a = true ∧
        (received beyond (lpStr c s) s.length).chars = c.ansi s := by
      intro beyond
      have hacc : Acceptable ⟨[], except⟩ s := ⟨hs, List.not_mem_nil⟩
      obtain ⟨vm', a', msg, b', hrun, hab', hback⟩ := h beyond ⟨[], except⟩ rfl nofun
      obtain ⟨a₁, hrun₁, hab₁⟩ :=
        add_opened (c := c) (d := { d with beyond := beyond }) ho hab hacc
      obtain ⟨rfl, hrest⟩ := Prod.mk.inj (Option.some.inj (hrun₁.symm.trans hrun))
      obtain ⟨rfl, -⟩ := Prod.mk.inj hrest
      have hlisted := hback s (List.mem_singleton_self s)
      rw [hab'.unique hab₁] at hlisted
      exact ((listed_added _ _ s).mp hlisted).resolve_left hnew
    have hwhole : Whole c s := (received_lpStr_iff hs.2.2).mp fun beyond => (hadded beyond).2
    exact hbad ⟨(hadded d.beyond).1, hwhole⟩
  · rintro hc beyond vm rfl hback
    by_cases hwhy : Acceptable vm s ∧ d.opened = true
    · obtain ⟨hacc, ho⟩ := hwhy
      obtain ⟨a', hrun, hab'⟩ := add_opened (c := c) (d := { d with beyond := beyond }) ho hab hacc
      refine ⟨_, a', _, _, hrun, hab', fun t ht => (listed_added _ _ t).mpr ?_⟩
      rcases List.mem_append.mp ht with ht | ht
      · exact Or.inl (hback t ht)
      obtain rfl := List.mem_singleton.mp ht
      rcases hc with hs | hclosed | hlisted | ⟨hg, hwhole⟩
      · exact absurd hacc.1 hs
      · exact absurd (hclosed.symm.trans ho) Bool.false_ne_true
      · exact Or.inl hlisted
      · exact Or.inr ⟨hg, (received_lpStr_iff hacc.1.2.2).mpr hwhole beyond⟩
    · have hunsent : ¬ Acceptable vm s ∨ d.opened = false :=
        (not_and_or.mp hwhy).imp_right Bool.of_not_eq_true
      obtain ⟨msg, hrun⟩ := add_unsent (c := c) (d := { d with beyond := beyond }) (a := a) hunsent
      exact ⟨vm, a, msg, b, hrun, hab, hback⟩

end Additions

/-- In every state of the lists, an addition is reported as it went exactly when the host is
too long, the handle is invalid, or both allocations are granted and the host has no NUL; and
the view shows only hosts of the driver exactly when the text does not reach it, is there
already, or is stored whole. -/
theorem reported_add_iff {d : Device} {a : Adf} {b : Blocklist} (hab : Abstracts a b)
    (h : List UInt8) (c : CodePage) (s : Text) (except : Bool) :
    (Reported d a b h except ↔
      adfHostMaxLen < h.length ∨ d.opened = false ∨ granted d.pool a = true ∧ 0 ∉ h) ∧
    (Shown c d a b s except ↔
      ¬ Sendable s ∨ d.opened = false ∨ Listed c b except s ∨
        granted d.pool a = true ∧ Whole c s) :=
  ⟨reported_iff hab h, shown_iff hab s⟩

/-- An allocator without memory. -/
def emptyAllocator : Allocator Ptr := { bumpAllocator with grants := fun _ => false }

/-- `a.b` is reported and shown as it is added. -/
theorem reported_add_iff_blank :
    Reported (openDevice bumpAllocator) (initLists blankAdf) ⟨0, fun _ => []⟩ [97, 46, 98] false ∧
      Shown asciiPage (openDevice bumpAllocator) (initLists blankAdf) ⟨0, fun _ => []⟩
        [97, 46, 98] false := by
  obtain ⟨hreported, hshown⟩ := reported_add_iff (d := openDevice bumpAllocator) abstracts_blank
    [97, 46, 98] asciiPage [97, 46, 98] false
  exact ⟨hreported.mpr (Or.inr (Or.inr ⟨rfl, by decide⟩)),
    hshown.mpr (Or.inr (Or.inr (Or.inr ⟨rfl, by decide, Or.inl (by decide)⟩)))⟩

/-- Without memory an addition is reported all the same. -/
theorem unreported_failed_add :
    ¬ ∀ (d : Device) (a : Adf) (b : Blocklist), Abstracts a b →
      ∀ (h : List UInt8) (except : Bool), h.length ≤ adfHostMaxLen →
        Reported d a b h except ∧ ∀ (c : CodePage) (s : Text), Shown c d a b s except := by
  intro h
  obtain ⟨hreported, -⟩ := h (openDevice emptyAllocator) (initLists blankAdf) ⟨0, fun _ => []⟩
    abstracts_blank [97, 46, 98] false (by decide)
  have hbad := (reported_iff abstracts_blank [97, 46, 98]).mp hreported
  rcases hbad with hlong | hclosed | ⟨hg, -⟩
  · exact absurd hlong (by decide)
  · exact absurd hclosed (by decide)
  · exact absurd hg (by decide)

end AdFilter.App.ReportedAdd
