import AdFilter.Driver.Refine
import AdFilter.Lib.Utf

/-!
# The client library

`adf.c` over the driver: a call builds a buffered request, the driver handles it,
and the caller sees whether its status is a success. `Adf.cs` calls it with a string in the
code page of the system, and with the length of the string in its own units.
-/

namespace AdFilter.App.Adf

open AdFilter.Lib.Pool
open AdFilter.Lib.Utf
open AdFilter.Nt
open AdFilter.Driver.HostList
open AdFilter.Driver.Abstract
open AdFilter.Driver.Represent
open AdFilter.Driver.Dispatch
open AdFilter.Driver.Refine (chars_cut_inputMem chars_cut_append_nul cut_inputMem)

/-- The driver behind a handle: its allocator and its build, the memory past the
buffers it is given, and whether the handle is a valid one. -/
structure Device where
  pool : Allocator Ptr
  dbg : Bool
  beyond : Mem
  opened : Bool

/-- A valid handle to a free build. -/
def openDevice (p : Allocator Ptr) : Device := ⟨p, false, textMem [], true⟩

def deviceIoControl (d : Device) (a : Adf) (code : Nat) (input : List UInt8)
    (outputLength : Nat) : Option (Bool × Adf) :=
  if d.opened = false then some (false, a)
  else
    (tdifwUserDeviceDispatch d.pool d.dbg a true .deviceControl
      (irpOf code input outputLength d.beyond)).map fun r => (ntSuccess r.1, r.2)

/-- The list a host request is about. -/
def listOf (except : Bool) : AdHost := if except then .excpt else .user

def hostCode (add except : Bool) : Nat :=
  if except then (if add then ioctlAdfAddExceptHost else ioctlAdfDelExceptHost)
  else (if add then ioctlAdfAddUserHost else ioctlAdfDelUserHost)

def adfHost (d : Device) (a : Adf) (host : Option Mem) (len : Nat) (add except : Bool) :
    Option (Bool × Adf) :=
  if adfHostMaxLen < len then some (false, a)
  else
    match host with
    | none => some (false, a)
    | some host => deviceIoControl d a (hostCode add except) (bytes host (len + 1)) 0

theorem requestOf_hostCode (add except : Bool) :
    requestOf (hostCode add except) = .host add (listOf except) := by
  cases add <;> cases except <;> decide

/-! ## Strings -/

/-- A string of the runtime: UTF-16 units. -/
abbrev Text := List UInt16

/-- The string of a C program, with a NUL at its end. -/
def cStr (s : List UInt8) : Mem := textMem (s ++ [0])

/-- What the runtime makes of a string in the code page of the system: its bytes, and the
memory past the NUL that it puts behind them. Characters of seven bits stay as they are. -/
structure CodePage where
  ansi : Text → List UInt8
  past : Mem
  ascii : ∀ bs : List UInt8, (∀ b ∈ bs, b.toNat < 0x80) → ansi (wide bs) = bs

/-- A string of the runtime as it is passed to the library (`UnmanagedType.LPStr`). -/
def lpStr (c : CodePage) (s : Text) : Mem := inputMem (c.ansi s ++ [0]) c.past

/-- The host that the driver takes out of a request with the `len + 1` bytes at `host`. -/
def received (beyond host : Mem) (len : Nat) : Host := cut (inputMem (bytes host (len + 1)) beyond)

/-- A string of a C program comes through unchanged. -/
theorem received_cStr (beyond : Mem) (h : Host) :
    received beyond (cStr h.chars) h.chars.length = h := by
  have hbytes : bytes (cStr h.chars) (h.chars.length + 1) = h.chars ++ [0] := by
    rw [cStr, bytes_textMem (by simp), List.take_of_length_le (by simp)]
  rw [received, hbytes, cut_inputMem]

/-- All of a string of the runtime comes through: it has no NUL, and its bytes are at most as
many as its units, or just as many as a host may have. -/
def Whole (c : CodePage) (s : Text) : Prop :=
  0 ∉ c.ansi s ∧ ((c.ansi s).length ≤ s.length ∨
    s.length + 1 = adfHostMaxLen ∧ (c.ansi s).length = adfHostMaxLen)

section Received

variable {c : CodePage} {s : Text}

theorem bytes_lpStr (c : CodePage) (s : Text) :
    bytes (lpStr c s) (s.length + 1) = (c.ansi s ++ [0]).take (s.length + 1) ++
      (bytes c.past (s.length + 1)).drop ((c.ansi s).length + 1) := by
  rw [lpStr, bytes_inputMem, List.length_append, List.length_singleton]

theorem received_of_le (h0 : 0 ∉ c.ansi s) (hle : (c.ansi s).length ≤ s.length)
    (hs : s.length ≤ adfHostMaxLen) (beyond : Mem) :
    (received beyond (lpStr c s) s.length).chars = c.ansi s := by
  rw [received, bytes_lpStr, List.take_of_length_le (by simp; omega), List.append_assoc,
    List.singleton_append, chars_cut_append_nul h0, List.take_of_length_le (by omega)]

/-- The request ends before the NUL, and the driver reads on. -/
theorem received_of_lt (h0 : 0 ∉ c.ansi s) (hlt : s.length < (c.ansi s).length) (beyond : Mem) :
    (received beyond (lpStr c s) s.length).chars = ((c.ansi s).take (s.length + 1) ++
      cString ((bytes beyond (max adfHostMaxLen (s.length + 1))).drop (s.length + 1))).take
        adfHostMaxLen := by
  have hinput : bytes (lpStr c s) (s.length + 1) = (c.ansi s).take (s.length + 1) := by
    rw [bytes_lpStr, List.take_append_of_le_length hlt,
      List.drop_eq_nil_of_le (by rw [length_bytes]; omega), List.append_nil]
  have hlen : ((c.ansi s).take (s.length + 1)).length = s.length + 1 := by
    rw [List.length_take]
    omega
  rw [received, hinput, chars_cut_inputMem, hlen,
    cString_append fun h => h0 (List.mem_of_mem_take h)]

/-- Memory past the buffer that completes the string. -/
theorem exists_received (h0 : 0 ∉ c.ansi s) (hl : (c.ansi s).length ≤ adfHostMaxLen)
    (hs : s.length ≤ adfHostMaxLen) :
    ∃ beyond, (received beyond (lpStr c s) s.length).chars = c.ansi s := by
  rcases Nat.lt_or_ge s.length (c.ansi s).length with hlt | hle
  · refine ⟨textMem (c.ansi s), ?_⟩
    have hmax : max adfHostMaxLen (s.length + 1) = adfHostMaxLen := Nat.max_eq_left (by omega)
    have hrest : 0 ∉ (c.ansi s).drop (s.length + 1) := fun h => h0 (List.mem_of_mem_drop h)
    rw [received_of_lt h0 hlt, hmax, bytes_textMem_of_le hl, List.drop_append_of_le_length hlt,
      cString_append hrest, cString_replicate_nul, List.append_nil, List.take_append_drop,
      List.take_of_length_le hl]
  · exact ⟨textMem [], received_of_le h0 hle hs _⟩

/-- Whatever lies past the buffer, just these strings come through whole. -/
theorem received_lpStr_iff (hs : s.length ≤ adfHostMaxLen) :
    (∀ beyond, (received beyond (lpStr c s) s.length).chars = c.ansi s) ↔ Whole c s := by
  constructor
  · intro h
    have h0 : 0 ∉ c.ansi s := h (textMem []) ▸ (received _ _ _).noNul
    have hfits : (c.ansi s).length ≤ adfHostMaxLen := h (textMem []) ▸ (received _ _ _).fits
    refine ⟨h0, (Nat.lt_or_ge s.length (c.ansi s).length).symm.imp id fun hlt => ?_⟩
    suffices hroom : adfHostMaxLen ≤ s.length + 1 by omega
    by_contra hroom
    have hmax : max adfHostMaxLen (s.length + 1) = adfHostMaxLen := Nat.max_eq_left (by omega)
    -- the string cannot go on both with a NUL and with other bytes
    have hends : (c.ansi s).length = s.length + 1 := by
      have hnul := congrArg List.length (h fun _ => 0)
      rw [received_of_lt h0 hlt, hmax, bytes_const, List.drop_replicate, cString_replicate_nul,
        List.append_nil, List.length_take, List.length_take] at hnul
      omega
    have hgoes : (c.ansi s).length = adfHostMaxLen := by
      have hone := congrArg List.length (h fun _ => 1)
      have hones : ∀ n, cString (List.replicate n 1) = List.replicate n 1 := fun n =>
        cString_eq_self fun h => absurd (List.eq_of_mem_replicate h) (by decide)
      rw [received_of_lt h0 hlt, hmax, bytes_const, List.drop_replicate, hones, List.length_take,
        List.length_append, List.length_take, List.length_replicate] at hone
      omega
    omega
  · rintro ⟨h0, hle | ⟨hlen, hansi⟩⟩ beyond
    · exact received_of_le h0 hle hs beyond
    · rw [received_of_lt h0 (by omega), hlen, ← hansi, List.take_length, List.take_left']
      rfl

/-- A string of ASCII characters comes through unchanged. -/
theorem received_wide (c : CodePage) (beyond : Mem) {l : List UInt8} (ha : ∀ b ∈ l, b.toNat < 0x80)
    (h0 : 0 ∉ l) (hl : l.length ≤ adfHostMaxLen) :
    received beyond (lpStr c (wide l)) (wide l).length = ⟨l, h0, hl⟩ := by
  have hansi := c.ascii l ha
  have hchars := received_of_le (hansi ▸ h0) (by rw [hansi, length_wide])
    (by rwa [length_wide]) beyond
  exact chars_injective (hchars.trans hansi)

end Received

section Hosts

variable {d : Device} {a : Adf} {b : Blocklist}

/-- A host request through an open handle comes back with success, and the state is that of the
list operation on the host that the driver has received. A deletion asks the pool for nothing. -/
theorem adfHost_opened (ho : d.opened = true) (hab : Abstracts a b) (host : Mem) {len : Nat}
    (hlen : len ≤ adfHostMaxLen) (add except : Bool) :
    ∃ a', adfHost d a (some host) len add except = some (true, a') ∧
      Abstracts a' (if add then
          (if granted d.pool a then
            b.setHosts (listOf except) (b.hosts (listOf except) ++ [received d.beyond host len])
          else b)
        else
          b.setHosts (listOf except)
            (eraseLast (received d.beyond host len) (b.hosts (listOf except)))) ∧
      (add = false → a'.pool.calls = a.pool.calls) := by
  have hbuf : (irpOf (hostCode add except) (bytes host (len + 1)) 0 d.beyond).systemBuffer =
      some (inputMem (bytes host (len + 1)) d.beyond) := by
    simp [irpOf]
  have hreq : requestOf
      (irpOf (hostCode add except) (bytes host (len + 1)) 0 d.beyond).ioControlCode =
        .host add (listOf except) := requestOf_hostCode add except
  have hcut : bytes (inputMem (bytes host (len + 1)) d.beyond)
      (strnlen (inputMem (bytes host (len + 1)) d.beyond) adfHostMaxLen) =
        (received d.beyond host len).chars := rfl
  rw [adfHost, if_neg (Nat.not_lt.mpr hlen)]
  simp only [deviceIoControl, ho, Bool.true_eq_false, if_false, tdifwUserDeviceDispatch,
    Bool.not_true, deviceControl_eq, hreq, hostRequest, hbuf]
  cases add with
  | true =>
    obtain ⟨-, h2⟩ := hab.add (fun _ _ => false) d.pool (listOf except) hcut
    exact ⟨_, rfl, h2, fun h => absurd h (by decide)⟩
  | false =>
    obtain ⟨a', h1, h2⟩ := hab.del (fun _ _ => false) (listOf except) hcut
    refine ⟨a', ?_, h2, fun _ => removeHostList_calls h1⟩
    simp only [Bool.false_eq_true, if_false, h1, Option.map_some, ntSuccess]
    rfl

theorem adfHost_too_long (host : Mem) {len : Nat} (hl : adfHostMaxLen < len) (add except : Bool) :
    adfHost d a (some host) len add except = some (false, a) := by
  rw [adfHost, if_pos hl]

theorem adfHost_closed (ho : d.opened = false) (host : Mem) (len : Nat) (add except : Bool) :
    adfHost d a (some host) len add except = some (false, a) := by
  unfold adfHost
  dsimp only
  rw [deviceIoControl, if_pos ho, ite_self]

end Hosts

/-! ## A code page -/

/-- Characters past the first 128 become question marks. -/
def asciiPage : CodePage where
  ansi s := s.map fun u => if u.toNat < 0x80 then u.toUInt8 else 0x3f
  past := textMem []
  ascii bs h := by
    rw [wide, List.map_map]
    refine (List.map_congr_left fun b hb => ?_).trans (List.map_id bs)
    rw [Function.comp_apply, UInt8.toNat_toUInt16, if_pos (h b hb), id]
    exact UInt8.toUInt8_toUInt16 b

end AdFilter.App.Adf
