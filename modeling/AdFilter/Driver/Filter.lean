import AdFilter.Driver.HostList
import AdFilter.Slre.Match
import AdFilter.Tdi.Ipc

/-!
# The filter callbacks

`filter.c`: the name taken out of a DNS message, the search through the three
lists, and the two callbacks with the flag that ties them together. The name
buffer holds 1024 bytes with the NUL; a longer name leaves it, which is no outcome.
-/

namespace AdFilter.Driver.Filter

open AdFilter.Driver.HostList
open AdFilter.Slre.Match (byte charVal)
open AdFilter.Tdi.Ipc

def dnsBufferLen : Nat := 1024

/-- The character stored for a byte of the message. -/
def dnsChar (b : UInt8) : UInt8 := if charVal b < charVal (byte '0') then byte '.' else b

/-- The loop of `fmt_dns_msg` from index `i`, with `n` rounds left. -/
def fmtDnsFrom (data : Mem) : Nat → Nat → List UInt8
  | 0, _ => []
  | n + 1, i =>
      if data (i + 13) = 0 then [] else dnsChar (data (i + 13)) :: fmtDnsFrom data n (i + 1)

def fmtDnsMsg (data : Mem) (len : Int) : Option (List UInt8) :=
  let dns := fmtDnsFrom data len.toNat 0
  if dns.length < dnsBufferLen then some dns else none

/-- The search order: an exception ends it, then the user's list, then the system's. -/
def search (m : Matcher) (a : Adf) (dns : List UInt8) : Option Bool :=
  match isMatchHostList m a (.head .excpt) dns with
  | none => none
  | some true => some false
  | some false =>
      match isMatchHostList m a (.head .user) dns with
      | none => none
      | some true => some true
      | some false => isMatchHostList m a (.head .sys) dns

def filter (m : Matcher) (a : Adf) (data : Mem) (len : Int) : Option Bool :=
  (fmtDnsMsg data len).bind (search m a)

/-- `tdifw_filter`: its result and `g_need_check` after it. -/
def tdifwFilter (needCheck : Bool) (request : FltRequest) : Nat × Bool :=
  let needCheck' :=
    if request.proto = ipprotoUdp then
      if request.addrTo.port = 53 then true else false
    else needCheck
  (filterAllow, needCheck')

def tdifwUdpSend (m : Matcher) (a : Adf) (needCheck : Bool) (data : Mem) (len : Int) : Option Nat :=
  if needCheck = false then some filterAllow
  else if a.paused ≠ 0 then some filterAllow
  else (filter m a data (len - 1)).map fun found => found.toNat + 1

theorem fmtDnsFrom_length_le (data : Mem) (n i : Nat) : (fmtDnsFrom data n i).length ≤ n := by
  induction n generalizing i with
  | zero => exact Nat.le_refl 0
  | succ n ih =>
    by_cases h : data (i + 13) = 0
    · simp [fmtDnsFrom, h]
    · have hi := ih (i + 1)
      simp only [fmtDnsFrom, h, if_false, List.length_cons]
      omega

theorem dnsChar_ne_zero {b : UInt8} (h : b ≠ 0) : dnsChar b ≠ 0 := by
  unfold dnsChar
  split
  · decide
  · exact h

/-- The name is a C string: nothing of it is lost to the `strlen` after the call. -/
theorem fmtDnsFrom_noNul (data : Mem) (n i : Nat) : 0 ∉ fmtDnsFrom data n i := by
  induction n generalizing i with
  | zero => simp [fmtDnsFrom]
  | succ n ih =>
    by_cases h : data (i + 13) = 0
    · simp [fmtDnsFrom, h]
    · simp only [fmtDnsFrom, h, if_false, List.mem_cons, not_or]
      exact ⟨(dnsChar_ne_zero h).symm, ih (i + 1)⟩

end AdFilter.Driver.Filter
