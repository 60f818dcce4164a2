import AdFilter.App.Readers
import AdFilter.Lib.Runs
import Mathlib.Data.List.GetD

/-!
# The view model and the driver over whole sessions

Sessions of the view model over one host file, with restarts of the driver between
them. The shown hosts and the kernel list are the same up to their order, and so
are the list and the lines of the file between two sessions, as long as the driver
does not load a file whose size has no place in its 32-bit offset.
-/

namespace AdFilter.App.Agreement

open AdFilter.Nt
open AdFilter.Lib.Pool
open AdFilter.Lib.Runs
open AdFilter.Lib.TextLines
open AdFilter.Lib.Utf
open AdFilter.Driver.HostList
open AdFilter.Driver.Abstract
open AdFilter.Driver.Represent
open AdFilter.Driver.LoadFile
open AdFilter.Driver.FileLines
open AdFilter.Driver.Refine (abstracts_blank)
open AdFilter.App.Adf
open AdFilter.App.ViewModel
open AdFilter.App.Readers

/-- The driver, the host file, and the view model of the session that is open. -/
structure System where
  adf : Adf
  file : List UInt8
  vm : Option HostViewModel

inductive Event
  /-- The driver starts again from the given memory and loads the file. -/
  | restart (a : Adf)
  | ctor
  | add (host : Text)
  | del (host : Text)
  | delIndex (index : Int)
  | dispose

/-- A call of the open session, with the state after it. -/
def call (s : System) (f : HostViewModel → Adf → Option (HostViewModel × Adf × Option Msg)) :
    Option (System × Option Msg) :=
  s.vm.bind fun vm => (f vm s.adf).map fun r =>
    ({ s with adf := r.2.1, vm := some r.1 }, r.2.2)

/-- One event. A restart has a next state when its load ends with success, the end of a session
when the file is written. -/
def step (c : CodePage) (other : List UInt8 → List Char) (d : Device) (except : Bool) (fuel : Nat)
    (s : System) : Event → Option (System × Option Msg)
  | .restart a =>
      match loadFile d.pool fuel a true (.ok (fileReader s.file)) (.head (listOf except)) with
      | some (.returned status _ a') =>
          if status = statusSuccess then some ({ s with adf := a' }, none) else none
      | _ => none
  | .ctor => some ({ s with vm := some (HostViewModel.ctor other except (some s.file)) }, none)
  | .add host => call s fun vm a => vm.add c d a host
  | .del host => call s fun vm a => vm.del c d a host
  | .delIndex index => call s fun vm a => vm.delIndex c d a index
  | .dispose => s.vm.bind fun vm => vm.dispose.map fun file =>
      ({ s with file := file, vm := none }, none)

def Printable (l : List UInt8) : Prop := ∀ c ∈ l, 0x20 ≤ c ∧ c ≤ 0x7e

/-- A string of printable ASCII characters. -/
def PrintableText (s : Text) : Prop := ∀ u ∈ s, 0x20 ≤ u ∧ u ≤ 0x7e

/-- Sessions are opened and closed in turn, strings are printable, and the driver
restarts between sessions, with an empty list. -/
def Allowed (except : Bool) (s : System) : Event → Prop
  | .restart a => s.vm = none ∧ ∃ b, Abstracts a b ∧ b.hosts (listOf except) = []
  | .ctor => s.vm = none
  | .add host => s.vm ≠ none ∧ PrintableText host
  | .del host => s.vm ≠ none ∧ PrintableText host
  | .delIndex _ => s.vm ≠ none
  | .dispose => s.vm ≠ none

/-- The file that a restart loads is smaller than 4 GiB. -/
def SmallFile (s : System) : Event → Prop
  | .restart _ => s.file.length < 2 ^ 32
  | _ => True

structure HostLine (l : List UInt8) : Prop where
  nonempty : l ≠ []
  short : l.length ≤ adfHostMaxLen
  printable : Printable l

/-- A file of lines, each with a CR and a LF. -/
def joined (ls : List (List UInt8)) : List UInt8 := ls.flatMap fun l => l ++ [cr, lf]

def HostFile (content : List UInt8) : Prop := ∃ ls, (∀ l ∈ ls, HostLine l) ∧ content = joined ls

/-- The strings of the kernel list. -/
def kernel (except : Bool) (b : Blocklist) : List (List UInt8) :=
  (b.hosts (listOf except)).map Host.chars

/-- The kernel list holds what the open session shows, or what the file has when
there is none. -/
def Agree (except : Bool) (s : System) : Prop :=
  ∃ b, Abstracts s.adf b ∧
    match s.vm with
    | some vm => ((kernel except b).map wide).Perm vm.hosts
    | none => ∃ ls, s.file = joined ls ∧ (kernel except b).Perm ls

/-! ## The file -/

theorem HostLine.isLine {l : List UInt8} (hl : HostLine l) : IsLine cr lf l where
  nonempty := hl.nonempty
  noCr h := absurd (hl.printable cr h).1 (by decide)
  noLf h := absurd (hl.printable lf h).1 (by decide)

theorem Printable.noNul {l : List UInt8} (hl : Printable l) : 0 ∉ l :=
  fun h => absurd (hl 0 h).1 (by decide)

theorem Printable.ascii {l : List UInt8} (hl : Printable l) : ∀ b ∈ l, b.toNat < 0x80 :=
  fun b hb => Nat.lt_of_le_of_lt (UInt8.le_iff_toNat_le.mp (hl b hb).2) (by decide)

/-- The bytes of a printable string. -/
theorem PrintableText.exists_wide {s : Text} (hs : PrintableText s) :
    ∃ l, s = wide l ∧ Printable l := by
  obtain ⟨l, rfl⟩ := AdFilter.Lib.Utf.exists_wide fun u hu =>
    Nat.lt_of_le_of_lt (UInt16.le_iff_toNat_le.mp (hs u hu).2) (by decide)
  refine ⟨l, rfl, fun b hb => ?_⟩
  obtain ⟨h1, h2⟩ := hs _ (List.mem_map_of_mem hb)
  rw [UInt16.le_iff_toNat_le, UInt8.toNat_toUInt16] at h1 h2
  exact ⟨UInt8.le_iff_toNat_le.mpr h1, UInt8.le_iff_toNat_le.mpr h2⟩

section File

variable {ls : List (List UInt8)}

@[simp] theorem joined_cons (l : List UInt8) (ls : List (List UInt8)) :
    joined (l :: ls) = l ++ cr :: lf :: joined ls := by
  simp [joined]

theorem length_joined (ls : List (List UInt8)) : (joined ls).length = size ls := by
  induction ls with
  | nil => rfl
  | cons l ls ih =>
    rw [joined_cons, List.length_append, List.length_cons, List.length_cons, size_cons, ih]
    omega

theorem noNul_joined (hl : ∀ l ∈ ls, 0 ∉ l) : 0 ∉ joined ls := by
  intro h
  obtain ⟨l, hm, h0⟩ := List.mem_flatMap.mp h
  rcases List.mem_append.mp h0 with h0 | h0
  · exact hl l hm h0
  · exact absurd h0 (by decide)

theorem ascii_joined (hl : ∀ l ∈ ls, ∀ b ∈ l, b.toNat < 0x80) :
    ∀ b ∈ joined ls, b.toNat < 0x80 := by
  intro b hb
  obtain ⟨l, hm, hb⟩ := List.mem_flatMap.mp hb
  rcases List.mem_append.mp hb with hb | hb
  · exact hl l hm b hb
  · rcases List.mem_pair.mp hb with rfl | rfl <;> decide

/-- The lines of the file are the lines it was made of. -/
theorem filled_joined (hl : ∀ l ∈ ls, IsLine cr lf l) : filled cr lf (joined ls) = ls := by
  induction ls with
  | nil => exact filled_nil
  | cons l ls ih =>
    rw [joined_cons, (hl l List.mem_cons_self).filled_cr cr_ne_lf, List.head?_cons, if_pos rfl,
      List.tail_cons, ih fun l' hl' => hl l' (List.mem_cons_of_mem l hl')]

/-- They are the lines of the driver too, whatever comes after them. -/
theorem splitLines_joined_append (hl : ∀ l ∈ ls, cr ∉ l) (rest : List UInt8) :
    splitLines (joined ls ++ rest) = (ls ++ (splitLines rest).1, (splitLines rest).2) := by
  induction ls with
  | nil => rfl
  | cons l ls ih =>
    have hfile : joined (l :: ls) ++ rest = l ++ cr :: (lf :: (joined ls ++ rest)) := by simp
    have htake := takeWhile_line (hl l List.mem_cons_self) (lf :: (joined ls ++ rest))
    have hdrop : (l ++ cr :: lf :: (joined ls ++ rest)).drop (l.length + 2) =
        joined ls ++ rest := by
      simp [List.drop_append]
    rw [hfile, splitLines_cr (by simp), htake, hdrop,
      ih fun l' hl' => hl l' (List.mem_cons_of_mem l hl')]
    rfl

theorem driverLines_joined_append (hl : ∀ l ∈ ls, cr ∉ l) (rest : List UInt8) :
    driverLines (joined ls ++ rest) = ls ++ driverLines rest := by
  rw [driverLines, splitLines_joined_append hl, List.append_assoc]
  rfl

theorem driverLines_joined (hl : ∀ l ∈ ls, cr ∉ l) : driverLines (joined ls) = ls := by
  have h := driverLines_joined_append hl []
  rwa [List.append_nil, driverLines_nil, List.append_nil] at h

theorem lastOffset_joined_append (hl : ∀ l ∈ ls, cr ∉ l) {rest : List UInt8} (hr : cr ∉ rest) :
    lastOffset (joined ls ++ rest) = (joined ls).length := by
  rw [lastOffset, splitLines_joined_append hl, splitLines_noCr hr, List.append_nil, length_joined]

/-- The last read of the file is at its end. -/
theorem lastOffset_joined (hl : ∀ l ∈ ls, cr ∉ l) :
    lastOffset (joined ls) = (joined ls).length := by
  have h := lastOffset_joined_append hl List.not_mem_nil
  rwa [List.append_nil] at h

theorem text_utf16 (ls : List (List Char)) :
    ((ls.map utf16).flatMap fun h => h ++ [0x0d, 0x0a]) =
      utf16 (ls.flatMap fun l => l ++ ['\r', '\n']) := by
  induction ls with
  | nil => rfl
  | cons l ls ih =>
    rw [List.map_cons, List.flatMap_cons, ih, List.flatMap_cons, utf16_append, utf16_append]
    rfl

theorem joined_utf8 (ls : List (List Char)) :
    joined (ls.map utf8) = utf8 (ls.flatMap fun l => l ++ ['\r', '\n']) := by
  induction ls with
  | nil => rfl
  | cons l ls ih =>
    rw [List.map_cons, joined_cons, ih, List.flatMap_cons, utf8_append, utf8_append]
    simp [utf8, String.utf8EncodeChar, cr, lf]

/-- What the view model writes of lines of well-formed characters. -/
theorem dispose_utf16 {vm : HostViewModel} {ls : List (List Char)}
    (hvm : vm.hosts = ls.map utf16) :
    vm.dispose = some (joined ((ls.filter fun l => decide (0 < l.length)).map utf8)) := by
  have hfilter : vm.hosts.filter (fun h => decide (0 < h.length)) =
      (ls.filter fun l => decide (0 < l.length)).map utf16 := by
    rw [hvm, List.filter_map]
    congr 1
    refine List.filter_congr fun l _ => ?_
    exact decide_eq_decide.mpr (respects_utf16.length_flatMap_pos_iff l)
  rw [HostViewModel.dispose, HostViewModel.text, hfilter, text_utf16, streamWriter,
    utf16Chars_utf16, Option.map_some, joined_utf8]

theorem dispose_joined {vm : HostViewModel} (hvm : vm.hosts = ls.map wide)
    (ha : ∀ l ∈ ls, ∀ b ∈ l, b.toNat < 0x80) :
    vm.dispose = some (joined (ls.filter fun l => decide (0 < l.length))) := by
  have hchars : vm.hosts = (ls.map asciiChars).map utf16 := by
    rw [hvm, List.map_map]
    exact List.map_congr_left fun l hm => (utf16_asciiChars (ha l hm)).symm
  rw [dispose_utf16 hchars, List.filter_map, List.map_map]
  congr 2
  refine (List.map_congr_left fun l hm => ?_).trans ((List.map_id _).trans ?_)
  · exact utf8_asciiChars (ha l (List.mem_of_mem_filter hm))
  · exact List.filter_congr fun l _ => by rw [Function.comp_apply, asciiChars, List.length_map]

theorem filter_filled (hl : ∀ l ∈ ls, IsLine cr lf l) :
    ls.filter (fun l => decide (0 < l.length)) = ls :=
  List.filter_eq_self.mpr fun l hm => decide_eq_true (List.length_pos_iff.mpr (hl l hm).nonempty)

end File

/-! ## One session -/

/-- The view model shows the hosts of the kernel list. -/
def InSession (except : Bool) (a : Adf) (vm : HostViewModel) : Prop :=
  ∃ b ls, Abstracts a b ∧ vm.except = except ∧ vm.hosts = ls.map wide ∧ (∀ l ∈ ls, HostLine l) ∧
    (kernel except b).Perm ls

theorem kernel_erase (except : Bool) (b : Blocklist) (h : Host) :
    (kernel except (b.setHosts (listOf except) (eraseLast h (b.hosts (listOf except))))).Perm
      ((kernel except b).erase h.chars) := by
  rw [kernel, setHosts_self, kernel, ← List.map_erase chars_injective]
  exact (perm_eraseLast h _).map _

section Session

variable {c : CodePage} {d : Device} {except : Bool} {a : Adf} {vm : HostViewModel}

theorem InSession.add (ho : d.opened = true) (hg : ∀ n, d.pool.grants n = true)
    (hs : InSession except a vm) {host : Text} (hp : PrintableText host) :
    ∃ vm' a' msg, vm.add c d a host = some (vm', a', msg) ∧ InSession except a' vm' := by
  by_cases hacc : Acceptable vm host
  · obtain ⟨b, ls, hab, hx, hls, hl, hperm⟩ := hs
    obtain ⟨l, rfl, hline⟩ := hp.exists_wide
    obtain ⟨-, hone, hlong⟩ := id hacc.1
    rw [length_wide] at hone
    have hshort : l.length ≤ adfHostMaxLen := length_wide l ▸ hlong
    have hreceived := received_wide c d.beyond hline.ascii hline.noNul hshort
    obtain ⟨a', hadf, hab', -⟩ := adfHost_opened ho hab (lpStr c (wide l)) hlong true except
    have hgr : granted d.pool a = true := by simp [granted, hg]
    simp only [if_true, hgr, hreceived] at hab'
    refine ⟨{ vm with hosts := vm.hosts ++ [wide l] }, a', some .hostAdd, ?_, _, ls ++ [l], hab',
      hx, ?_, ?_, ?_⟩
    · rw [add_accepted hacc, hx, hadf]
      rfl
    · rw [hls, List.map_append]
      rfl
    · intro l' hm
      rcases List.mem_append.mp hm with hm | hm
      · exact hl l' hm
      · obtain rfl := List.mem_singleton.mp hm
        exact ⟨List.length_pos_iff.mp (by omega), hshort, hline⟩
    · rw [kernel, setHosts_self, List.map_append]
      exact hperm.append_right _
  · obtain ⟨msg, hadd⟩ := add_refused (c := c) (d := d) (a := a) hacc
    exact ⟨vm, a, msg, hadd, hs⟩

/-- Deleting at an index of the view takes the same string out of both lists. -/
theorem InSession.removeAt (ho : d.opened = true) (hs : InSession except a vm) {index : Nat}
    (hi : index < vm.hosts.length) :
    ∃ vm' a' msg, vm.removeAt c d a index = some (vm', a', msg) ∧ InSession except a' vm' := by
  obtain ⟨b, ls, hab, hx, hls, hl, hperm⟩ := id hs
  have hils : index < ls.length := by
    rwa [hls, List.length_map] at hi
  have hget : vm.hosts.getD index [] = wide ls[index] := by
    rw [List.getD_eq_getElem _ _ hi]
    simp only [hls, List.getElem_map]
  have hmem : ls[index] ∈ ls := List.getElem_mem hils
  have hline := hl _ hmem
  rw [HostViewModel.removeAt, hget, delHost]
  by_cases hone : (wide ls[index]).length ≤ 1
  · exact ⟨vm, a, some .hostDel, by rw [if_pos hone]; rfl, hs⟩
  · have hreceived :=
      received_wide c d.beyond hline.printable.ascii hline.printable.noNul hline.short
    have hshort : (wide ls[index]).length ≤ adfHostMaxLen := by
      rw [length_wide]
      exact hline.short
    obtain ⟨a', hadf, hab', -⟩ :=
      adfHost_opened ho hab (lpStr c (wide ls[index])) hshort false except
    simp only [Bool.false_eq_true, if_false, hreceived] at hab'
    refine ⟨{ vm with hosts := vm.hosts.eraseIdx index }, a', some .hostDel, ?_, _,
      ls.eraseIdx index, hab', hx, ?_, fun l hm => hl l (List.mem_of_mem_eraseIdx hm), ?_⟩
    · rw [if_neg hone, hx, hadf]
      rfl
    · rw [hls, List.eraseIdx_map]
    · have herase : (ls.erase ls[index]).Perm (ls.eraseIdx index) :=
        ((List.perm_cons_erase hmem).symm.trans
          (List.getElem_cons_eraseIdx_perm hils).symm).cons_inv
      exact (kernel_erase except b _).trans ((hperm.erase _).trans herase)

theorem InSession.del (ho : d.opened = true) (hs : InSession except a vm) (host : Text) :
    ∃ vm' a' msg, vm.del c d a host = some (vm', a', msg) ∧ InSession except a' vm' := by
  rw [HostViewModel.del]
  by_cases h0 : vm.hosts.length = 0
  · exact ⟨vm, a, none, by rw [if_pos h0], hs⟩
  rw [if_neg h0]
  cases hf : vm.hosts.findIdx? (· == host) with
  | none => exact ⟨vm, a, none, rfl, hs⟩
  | some index => exact hs.removeAt ho (List.findIdx?_eq_some_iff_findIdx_eq.mp hf).1

theorem InSession.delIndex (ho : d.opened = true) (hs : InSession except a vm) (index : Int) :
    ∃ vm' a' msg, vm.delIndex c d a index = some (vm', a', msg) ∧ InSession except a' vm' := by
  rw [HostViewModel.delIndex]
  by_cases h : index < 0 ∨ (vm.hosts.length : Int) - 1 < index
  · exact ⟨vm, a, none, by rw [if_pos h], hs⟩
  · rw [if_neg h]
    exact hs.removeAt ho (by omega)

end Session

/-! ## Runs -/

/-- What every step keeps: agreement, and lines that both programs read back. -/
def Invariant (except : Bool) (s : System) : Prop :=
  match s.vm with
  | some vm => InSession except s.adf vm
  | none => ∃ b ls, Abstracts s.adf b ∧ (∀ l ∈ ls, HostLine l) ∧ s.file = joined ls ∧
      (kernel except b).Perm ls

section Steps

variable {c : CodePage} {other : List UInt8 → List Char} {d : Device} {except : Bool} {fuel : Nat}
  {s : System}

theorem Invariant.agree (h : Invariant except s) : Agree except s := by
  obtain ⟨a, file, vm⟩ := s
  cases vm with
  | none =>
    obtain ⟨b, ls, hab, -, hfile, hperm⟩ := h
    exact ⟨b, hab, ls, hfile, hperm⟩
  | some vm =>
    obtain ⟨b, ls, hab, -, hls, -, hperm⟩ := h
    refine ⟨b, hab, ?_⟩
    show ((kernel except b).map wide).Perm vm.hosts
    rw [hls]
    exact hperm.map wide

/-- A restart on a file that the offset can reach loads just the lines of the file. -/
theorem step_restart (hg : ∀ n, d.pool.grants n = true) (hf : 2 ^ 32 + 2 ≤ fuel)
    (hvm : s.vm = none) (hfile : HostFile s.file) (hsmall : s.file.length < 2 ^ 32) {a : Adf}
    {b : Blocklist} (hab : Abstracts a b) (hb : b.hosts (listOf except) = []) :
    ∃ s' msg, step c other d except fuel s (.restart a) = some (s', msg) ∧ Invariant except s' := by
  obtain ⟨ls, hl, hq⟩ := hfile
  have hcr : ∀ l ∈ ls, cr ∉ l := fun l hm => (hl l hm).isLine.noCr
  have hlines := driverLines_joined hcr
  have hnul : 0 ∉ s.file := hq ▸ noNul_joined fun l hm => (hl l hm).printable.noNul
  obtain ⟨closed, a', hload, happ⟩ := loadChunks_finishes hnul fuel 0 (o := 0) hab
    (by omega) (by omega) (by rwa [List.drop_zero, Nat.zero_add, hq, lastOffset_joined hcr, ← hq])
    (by rw [List.drop_zero, hq, hlines]; exact fun l hm => (hl l hm).short)
    (fun k _ => hg _)
  refine ⟨{ s with adf := a' }, none, ?_, ?_⟩
  · have hfileLoad : loadFile d.pool fuel a true (.ok (fileReader s.file)) (.head (listOf except)) =
        some (.returned statusSuccess closed a') := hload
    rw [step, hfileLoad]
    rfl
  · rw [List.drop_zero, hq, hlines] at happ
    obtain ⟨hs, hq', hab'⟩ := happ
    rw [Invariant, hvm]
    refine ⟨_, ls, hab', hl, hq, ?_⟩
    rw [kernel, setHosts_self, hb, List.nil_append, hq']

/-- A call of the session that keeps agreement. -/
theorem step_call {f : HostViewModel → Adf → Option (HostViewModel × Adf × Option Msg)}
    (hinv : Invariant except s) (hvm : s.vm ≠ none)
    (hf : ∀ vm, InSession except s.adf vm →
      ∃ vm' a' msg, f vm s.adf = some (vm', a', msg) ∧ InSession except a' vm') :
    ∃ s' msg, call s f = some (s', msg) ∧ Invariant except s' := by
  obtain ⟨vm, hv⟩ := Option.ne_none_iff_exists'.mp hvm
  rw [Invariant, hv] at hinv
  obtain ⟨vm', a', msg, hcall, hs⟩ := hf vm hinv
  refine ⟨{ s with adf := a', vm := some vm' }, msg, ?_, hs⟩
  rw [call, hv, Option.bind_some, hcall]
  rfl

theorem step_invariant (ho : d.opened = true) (hg : ∀ n, d.pool.grants n = true)
    (hf : 2 ^ 32 + 2 ≤ fuel) (hinv : Invariant except s) {e : Event} (ha : Allowed except s e)
    (hsmall : SmallFile s e) :
    ∃ s' msg, step c other d except fuel s e = some (s', msg) ∧ Invariant except s' := by
  cases e with
  | restart a =>
    obtain ⟨hvm, b, hab, hb⟩ := ha
    rw [Invariant, hvm] at hinv
    obtain ⟨-, ls, -, hl, hfile, -⟩ := hinv
    exact step_restart hg hf hvm ⟨ls, hl, hfile⟩ hsmall hab hb
  | ctor =>
    rw [Invariant, show s.vm = none from ha] at hinv
    obtain ⟨b, ls, hab, hl, hfile, hperm⟩ := hinv
    refine ⟨_, _, rfl, b, ls, hab, rfl, ?_, hl, hperm⟩
    rw [hfile, ctor_ascii (ascii_joined fun l hm => (hl l hm).printable.ascii),
      filled_joined fun l hm => (hl l hm).isLine]
  | add host =>
    exact step_call (f := fun vm a => vm.add c d a host) hinv ha.1 fun vm hs => hs.add ho hg ha.2
  | del host =>
    exact step_call (f := fun vm a => vm.del c d a host) hinv ha.1 fun vm hs => hs.del ho host
  | delIndex index =>
    exact step_call (f := fun vm a => vm.delIndex c d a index) hinv ha
      fun vm hs => hs.delIndex ho index
  | dispose =>
    obtain ⟨vm, hv⟩ := Option.ne_none_iff_exists'.mp ha
    rw [Invariant, hv] at hinv
    obtain ⟨b, ls, hab, -, hls, hl, hperm⟩ := hinv
    have hfile : vm.dispose = some (joined ls) := by
      rw [dispose_joined hls fun l hm => (hl l hm).printable.ascii,
        filter_filled fun l hm => (hl l hm).isLine]
    refine ⟨{ s with file := joined ls, vm := none }, none, ?_, b, ls, hab, hl, rfl, hperm⟩
    rw [step, hv, Option.bind_some, hfile]
    rfl

end Steps

/-- From the first load on, view model and driver agree after every step of every
run whose loads are of files below 4 GiB. -/
theorem gui_driver_agree {c : CodePage} {other : List UInt8 → List Char} {d : Device}
    {except : Bool} (ho : d.opened = true) (hg : ∀ n, d.pool.grants n = true) {fuel : Nat}
    (hf : 2 ^ 32 + 2 ≤ fuel) {s : System} (hfile : HostFile s.file) {a : Adf} {es : List Event}
    (hm : Meets (step c other d except fuel) (fun s e => Allowed except s e ∧ SmallFile s e) s
      (.restart a :: es)) :
    ∃ s' msgs, run (step c other d except fuel) s (.restart a :: es) = some (s', msgs) ∧
      Agree except s' := by
  obtain ⟨⟨⟨hvm, b, hab, hb⟩, hsmall⟩, hrest⟩ := hm
  obtain ⟨s₁, msg, hs₁, hinv⟩ := step_restart hg hf hvm hfile hsmall hab hb
  obtain ⟨s', msgs, hrun, hinv'⟩ := run_progress (Invariant except)
    (fun t e ht ho' => step_invariant ho hg hf ht ho'.1 ho'.2) hinv (hrest _ hs₁)
  exact ⟨s', msg :: msgs, by rw [run_cons es hs₁, hrun]; rfl, hinv'.agree⟩

theorem loaded_of_step {c : CodePage} {other : List UInt8 → List Char} {d : Device} {except : Bool}
    {fuel : Nat} {s s' : System} {a : Adf}
    {msg : Option Msg} (h : step c other d except fuel s (.restart a) = some (s', msg)) :
    ∃ closed a', loadFile d.pool fuel a true (.ok (fileReader s.file)) (.head (listOf except)) =
      some (.returned statusSuccess closed a') ∧ s' = { s with adf := a' } := by
  rw [step] at h
  revert h
  cases loadFile d.pool fuel a true (.ok (fileReader s.file)) (.head (listOf except)) with
  | none => simp
  | some r =>
    cases r with
    | overrun => simp
    | returned status closed a' =>
      intro h
      by_cases hst : status = statusSuccess
      · simp only [hst, if_true, Option.some.injEq, Prod.mk.injEq] at h
        exact ⟨closed, a', by rw [hst], h.1.symm⟩
      · simp [hst] at h

/-- The file with `a.b` in it. -/
def smallFile : List UInt8 := joined [[97, 46, 98]]

theorem hostLine_ab : HostLine [97, 46, 98] := ⟨by decide, by decide, by simp [Printable]⟩

/-- Calls with printable strings in an open session, and its end. -/
theorem meets_session {c : CodePage} {other : List UInt8 → List Char} {d : Device} {except : Bool}
    {fuel : Nat} {es : List Event}
    (hes : ∀ e ∈ es, ∃ host, PrintableText host ∧ (e = .add host ∨ e = .del host)) {s : System}
    (hvm : s.vm ≠ none) :
    Meets (step c other d except fuel) (fun s e => Allowed except s e ∧ SmallFile s e) s
      (es ++ [.dispose]) := by
  induction es generalizing s with
  | nil => exact ⟨⟨hvm, trivial⟩, fun _ _ => trivial⟩
  | cons e es ih =>
    have hopen : ∀ f r, call s f = some r → r.1.vm ≠ none := by
      intro f r hr
      obtain ⟨vm, -, hr⟩ := Option.bind_eq_some_iff.mp hr
      obtain ⟨q, -, rfl⟩ := Option.map_eq_some_iff.mp hr
      exact Option.some_ne_none _
    have hrest : ∀ r : System × Option Msg, r.1.vm ≠ none → _ := fun r =>
      ih (fun e' he' => hes e' (List.mem_cons_of_mem e he'))
    obtain ⟨host, hp, rfl | rfl⟩ := hes e List.mem_cons_self
    · exact ⟨⟨⟨hvm, hp⟩, trivial⟩, fun r hr => hrest r (hopen (fun vm a => vm.add c d a host) r hr)⟩
    · exact ⟨⟨⟨hvm, hp⟩, trivial⟩, fun r hr => hrest r (hopen (fun vm a => vm.del c d a host) r hr)⟩

/-- A session in which `c.d` is added and `a.b` is deleted. -/
theorem gui_driver_agree_open :
    ∃ s' msgs, run (step asciiPage (fun _ => []) (openDevice bumpAllocator) false (2 ^ 32 + 2))
        ⟨initLists blankAdf, smallFile, none⟩
        [.restart (initLists blankAdf), .ctor, .add [99, 46, 100], .del [97, 46, 98], .dispose] =
          some (s', msgs) ∧ Agree false s' := by
  have hes : ∀ e ∈ [Event.add [99, 46, 100], .del [97, 46, 98]],
      ∃ host, PrintableText host ∧ (e = .add host ∨ e = .del host) := by
    intro e he
    rcases List.mem_pair.mp he with rfl | rfl
    · exact ⟨[99, 46, 100], by simp [PrintableText], Or.inl rfl⟩
    · exact ⟨[97, 46, 98], by simp [PrintableText], Or.inr rfl⟩
  refine gui_driver_agree rfl (fun _ => rfl) (Nat.le_refl _) (s := ⟨_, smallFile, none⟩)
    ⟨[[97, 46, 98]], fun l hl => ?_, rfl⟩
    ⟨⟨⟨rfl, _, abstracts_blank, rfl⟩, (by decide : smallFile.length < 2 ^ 32)⟩,
      fun r hr => ⟨⟨?_, trivial⟩, fun r' hr' => ?_⟩⟩
  · obtain rfl := List.mem_singleton.mp hl
    exact hostLine_ab
  · obtain ⟨closed, a', -, hs⟩ := loaded_of_step hr
    show r.1.vm = none
    rw [hs]
  · have hvm : r'.1 =
        ⟨r.1.adf, r.1.file, some (HostViewModel.ctor (fun _ => []) false (some r.1.file))⟩ :=
      (Prod.mk.inj (Option.some.inj hr')).1.symm
    apply meets_session hes
    rw [hvm]
    exact Option.some_ne_none _

/-- Lines of 126 characters. -/
def equalLines (n : Nat) : List (List UInt8) := List.replicate n (List.replicate 126 97)

theorem hostLine_equal (n : Nat) : ∀ l ∈ equalLines n, HostLine l := by
  intro l hl
  rw [List.eq_of_mem_replicate hl]
  refine ⟨by simp, by simp [adfHostMaxLen], fun c hc => ?_⟩
  rw [List.eq_of_mem_replicate hc]
  decide

theorem size_equal (n : Nat) : size (equalLines n) = n * 128 := by
  rw [size, equalLines, List.map_replicate, List.sum_replicate_nat, List.length_replicate]

/-- A load of a file of 4 GiB does not leave the lines of the file. -/
theorem large_file_disagrees :
    ¬ ∀ (c : CodePage) (other : List UInt8 → List Char) (d : Device) (except : Bool),
      d.opened = true → (∀ n, d.pool.grants n = true) → ∀ (s : System) (a : Adf) (es : List Event),
      HostFile s.file →
      (∀ fuel, Meets (step c other d except fuel) (Allowed except) s (.restart a :: es)) →
      ∃ fuel s' msgs, run (step c other d except fuel) s (.restart a :: es) = some (s', msgs) ∧
        Agree except s' := by
  intro h
  obtain ⟨fuel, s', msgs, hrun, hagree⟩ := h asciiPage (fun _ => []) (openDevice bumpAllocator)
    false rfl (fun _ => rfl)
    ⟨initLists blankAdf, joined (equalLines (2 ^ 25)), none⟩ (initLists blankAdf) []
    ⟨_, hostLine_equal _, rfl⟩
    (fun fuel => ⟨⟨rfl, _, abstracts_blank, rfl⟩, fun _ _ => trivial⟩)
  obtain ⟨t, msg, os, hstep, hnil, -⟩ := run_cons_some hrun
  obtain ⟨rfl, -⟩ := Prod.mk.inj (Option.some.inj hnil)
  obtain ⟨closed, a', hload, rfl⟩ := loaded_of_step hstep
  obtain ⟨b', hab', ls', hfile, hperm⟩ := hagree
  have hline := hostLine_equal (2 ^ 25)
  have hnoNul := noNul_joined fun l hm => (hline l hm).printable.noNul
  obtain ⟨ls, happ, -, -, hcase⟩ := loadChunks_returned hnoNul abstracts_blank (by decide) hload
  have hls : kernel false b' = ls := happ.hosts rfl hab'
  have hsize : size ls = 2 ^ 32 := by
    rw [← hls, size, (hperm.map _).sum_nat]
    have hq := congrArg List.length hfile
    rw [length_joined, length_joined, size_equal] at hq
    exact hq.symm
  rw [List.drop_zero, lastOffset_joined fun l hm => (hline l hm).isLine.noCr, length_joined,
    size_equal, hsize] at hcase
  omega

end AdFilter.App.Agreement
