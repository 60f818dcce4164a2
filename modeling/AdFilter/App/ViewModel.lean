import AdFilter.App.Adf
import AdFilter.Driver.LoadFile

/-!
# The view model of the host lists

`HostViewModel` over `Adf`: the shown hosts, what `Add` and the two `Del` do to them
and to the driver, and the file they are read from and written to. The strings are those of
the runtime, which reads and writes the file as UTF-8.
-/

namespace AdFilter.App.ViewModel

open AdFilter.Lib.TextLines
open AdFilter.Lib.Utf
open AdFilter.Driver.HostList (Adf adfHostMaxLen)
open AdFilter.Driver.Abstract
open AdFilter.Driver.Represent
open AdFilter.Driver.LoadFile (cr)
open AdFilter.App.Adf

def lf : UInt8 := 0x0a

/-- The messages the view shows. -/
inductive Msg
  | hostInvalid
  | hostExist
  | hostAdd
  | hostDel
deriving DecidableEq, Repr

structure HostViewModel where
  hosts : List Text
  /-- The white list rather than the black one. -/
  except : Bool
deriving DecidableEq, Repr

/-! ## The calls to the driver -/

def addHost (c : CodePage) (d : Device) (a : Adf) (host : Text) (allow : Bool) :
    Option (Bool × Adf) :=
  if host.length ≤ 1 then some (false, a)
  else adfHost d a (some (lpStr c host)) host.length true allow

def delHost (c : CodePage) (d : Device) (a : Adf) (host : Text) (allow : Bool) :
    Option (Bool × Adf) :=
  if host.length ≤ 1 then some (false, a)
  else adfHost d a (some (lpStr c host)) host.length false allow

/-- A string splits at its dots into more than one part. -/
def checkHost (host : Text) : Bool := host.contains 0x2e

namespace HostViewModel

def add (vm : HostViewModel) (c : CodePage) (d : Device) (a : Adf) (host : Text) :
    Option (HostViewModel × Adf × Option Msg) :=
  if checkHost host = false then some (vm, a, some .hostInvalid)
  else if (vm.hosts.find? (· == host)).isSome then some (vm, a, some .hostExist)
  else
    (addHost c d a host vm.except).map fun r =>
      (if r.1 then { vm with hosts := vm.hosts ++ [host] } else vm, r.2, some .hostAdd)

/-- The end of both deletions. -/
def removeAt (vm : HostViewModel) (c : CodePage) (d : Device) (a : Adf) (index : Nat) :
    Option (HostViewModel × Adf × Option Msg) :=
  (delHost c d a (vm.hosts.getD index []) vm.except).map fun r =>
    (if r.1 then { vm with hosts := vm.hosts.eraseIdx index } else vm, r.2, some .hostDel)

def del (vm : HostViewModel) (c : CodePage) (d : Device) (a : Adf) (host : Text) :
    Option (HostViewModel × Adf × Option Msg) :=
  if vm.hosts.length = 0 then some (vm, a, none)
  else
    match vm.hosts.findIdx? (· == host) with
    | none => some (vm, a, none)
    | some index => vm.removeAt c d a index

def delIndex (vm : HostViewModel) (c : CodePage) (d : Device) (a : Adf) (index : Int) :
    Option (HostViewModel × Adf × Option Msg) :=
  if index < 0 ∨ (vm.hosts.length : Int) - 1 < index then some (vm, a, none)
  else vm.removeAt c d a index.toNat

end HostViewModel

/-- A text that the checks before the driver let through. -/
def Sendable (host : Text) : Prop :=
  checkHost host = true ∧ 1 < host.length ∧ host.length ≤ adfHostMaxLen

/-- A text that `Add` takes to the driver. -/
def Acceptable (vm : HostViewModel) (host : Text) : Prop := Sendable host ∧ host ∉ vm.hosts

section Add

variable {vm : HostViewModel} {c : CodePage} {d : Device} {a : Adf} {b : Blocklist} {host : Text}

theorem find_isSome_iff : (vm.hosts.find? (· == host)).isSome = true ↔ host ∈ vm.hosts := by
  rw [List.find?_isSome]
  simp

/-- A text that is refused changes nothing. -/
theorem add_refused (h : ¬ Acceptable vm host) : ∃ msg, vm.add c d a host = some (vm, a, msg) := by
  rw [HostViewModel.add]
  by_cases hc : checkHost host = false
  · exact ⟨_, if_pos hc⟩
  rw [if_neg hc]
  by_cases hf : (vm.hosts.find? (· == host)).isSome = true
  · exact ⟨_, if_pos hf⟩
  rw [if_neg hf, addHost]
  by_cases hone : host.length ≤ 1
  · rw [if_pos hone]
    exact ⟨_, rfl⟩
  rw [if_neg hone]
  by_cases hlong : adfHostMaxLen < host.length
  · rw [adfHost_too_long _ hlong]
    exact ⟨_, rfl⟩
  · exact absurd ⟨⟨Bool.of_not_eq_false hc, Nat.lt_of_not_le hone, Nat.le_of_not_lt hlong⟩,
      mt find_isSome_iff.mpr hf⟩ h

theorem add_accepted (h : Acceptable vm host) :
    vm.add c d a host =
      (adfHost d a (some (lpStr c host)) host.length true vm.except).map fun r =>
        (if r.1 then { vm with hosts := vm.hosts ++ [host] } else vm, r.2, some .hostAdd) := by
  obtain ⟨⟨hc, hone, -⟩, hm⟩ := h
  rw [HostViewModel.add, if_neg (by rw [hc]; decide), if_neg (mt find_isSome_iff.mp hm), addHost,
    if_neg (Nat.not_le.mpr hone)]

/-- Where the driver is not there or not asked, nothing changes. -/
theorem add_unsent (h : ¬ Acceptable vm host ∨ d.opened = false) :
    ∃ msg, vm.add c d a host = some (vm, a, msg) := by
  by_cases hacc : Acceptable vm host
  · rw [add_accepted hacc, adfHost_closed (h.resolve_left (not_not.mpr hacc))]
    exact ⟨_, rfl⟩
  · exact add_refused hacc

/-- An accepted text comes back with success, and the list has gained what was received of it,
or nothing. -/
theorem add_opened (ho : d.opened = true) (hab : Abstracts a b) (hacc : Acceptable vm host) :
    ∃ a', vm.add c d a host = some ({ vm with hosts := vm.hosts ++ [host] }, a', some .hostAdd) ∧
      Abstracts a' (if granted d.pool a then
        b.setHosts (listOf vm.except)
          (b.hosts (listOf vm.except) ++ [received d.beyond (lpStr c host) host.length])
        else b) := by
  obtain ⟨a', hrun, hab', -⟩ := adfHost_opened ho hab (lpStr c host) hacc.1.2.2 true vm.except
  rw [if_pos rfl] at hab'
  refine ⟨a', ?_, hab'⟩
  rw [add_accepted hacc, hrun]
  rfl

end Add

/-! ## The host file -/

def byteOrderMark : Char := '\uFEFF'

/-- What a `StreamReader` gives of a file: the characters of well-formed UTF-8, without a byte
order mark in front. What it makes of other bytes, with replacement characters or in the
encoding that their mark names, is `other`. -/
def streamReader (other : List UInt8 → List Char) (file : List UInt8) : Text :=
  match utf8Chars file with
  | some cs => utf16 (if cs.head? = some byteOrderMark then cs.tail else cs)
  | none => utf16 (other file)

/-- What a `StreamWriter` makes of a text: UTF-8 without a mark. It throws on half of a
surrogate pair. -/
def streamWriter (text : Text) : Option (List UInt8) := (utf16Chars text).map utf8

/-- The loop of the constructor over `ReadLine`: all lines of a text but the empty ones. -/
def readHosts (text : Text) : List Text := filled 0x0d 0x0a text

/-- The constructor. A file that cannot be read leaves no hosts. -/
def HostViewModel.ctor (other : List UInt8 → List Char) (except : Bool)
    (file : Option (List UInt8)) : HostViewModel where
  hosts := (file.map fun bytes => readHosts (streamReader other bytes)).getD []
  except := except

/-- What `Dispose` writes: each host that is not empty as a line. -/
def HostViewModel.text (vm : HostViewModel) : Text :=
  (vm.hosts.filter fun h => decide (0 < h.length)).flatMap fun h => h ++ [0x0d, 0x0a]

/-- The file that `Dispose` leaves, where the writer does not throw. -/
def HostViewModel.dispose (vm : HostViewModel) : Option (List UInt8) := streamWriter vm.text

/-! ## Files of ASCII characters -/

section Ascii

variable {bs : List UInt8}

theorem utf8Chars_ascii (h : ∀ b ∈ bs, b.toNat < 0x80) : utf8Chars bs = some (asciiChars bs) :=
  utf8Chars_eq_some_iff.mpr (utf8_asciiChars h).symm

theorem streamReader_ascii (h : ∀ b ∈ bs, b.toNat < 0x80) (other : List UInt8 → List Char) :
    streamReader other bs = wide bs := by
  have hmark : ¬ (asciiChars bs).head? = some byteOrderMark := by
    cases bs with
    | nil => exact nofun
    | cons b bs =>
      intro hhead
      have hb := h b List.mem_cons_self
      have hnat := congrArg Char.toNat (Option.some.inj hhead)
      rw [toNat_ofNat_ascii hb] at hnat
      rw [hnat] at hb
      exact absurd hb (by decide)
  rw [streamReader, utf8Chars_ascii h]
  dsimp only
  rw [if_neg hmark, utf16_asciiChars h]

theorem readHosts_wide (bs : List UInt8) : readHosts (wide bs) = (filled cr lf bs).map wide :=
  filled_wide bs

/-- The view model on a file of ASCII characters. -/
theorem ctor_ascii (h : ∀ b ∈ bs, b.toNat < 0x80) (other : List UInt8 → List Char) (except : Bool) :
    (HostViewModel.ctor other except (some bs)).hosts = (filled cr lf bs).map wide := by
  rw [HostViewModel.ctor, Option.map_some, Option.getD_some, streamReader_ascii h, readHosts_wide]

end Ascii

end AdFilter.App.ViewModel
