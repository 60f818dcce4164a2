import AdFilter.Driver.HostList
import AdFilter.Nt
import Mathlib.Data.List.Perm.Basic

/-!
# What the driver is for: a blocklist

An abstract machine with a pause flag and three finite sequences of hosts. It
knows nothing of memory: a host is a string that fits the list, an addition goes
to the end, a deletion takes the last occurrence.
-/

namespace AdFilter.Driver.Abstract

open AdFilter.Nt
open AdFilter.Driver.HostList

/-- A host that the lists can hold. -/
structure Host where
  chars : List UInt8
  noNul : 0 ∉ chars
  fits : chars.length ≤ adfHostMaxLen
deriving DecidableEq

theorem chars_injective : Function.Injective Host.chars := fun h k heq => by
  cases h
  cases k
  simpa using heq

/-- The string behind a pointer, cut at the longest host. -/
def cut (src : Mem) : Host where
  chars := bytes src (strnlen src adfHostMaxLen)
  noNul := strnlen_noNul src adfHostMaxLen
  fits := by
    rw [length_bytes]
    exact strnlen_le src adfHostMaxLen

/-- `a.b` -/
def hostAB : Host := ⟨[97, 46, 98], by decide, by decide⟩

section EraseLast

variable {α : Type} [DecidableEq α]

/-- The list without its last occurrence of `x`. -/
def eraseLast (x : α) (xs : List α) : List α := (xs.reverse.erase x).reverse

theorem eraseLast_append {x : α} {as bs : List α} (h : x ∉ bs) :
    eraseLast x (as ++ x :: bs) = as ++ bs := by
  rw [eraseLast, List.reverse_append, List.reverse_cons, List.append_assoc,
    List.erase_append_right _ (by simpa using h)]
  simp

theorem eraseLast_of_notMem {x : α} {xs : List α} (h : x ∉ xs) : eraseLast x xs = xs := by
  rw [eraseLast, List.erase_of_not_mem (by simpa using h), List.reverse_reverse]

theorem perm_eraseLast (x : α) (xs : List α) : (eraseLast x xs).Perm (xs.erase x) :=
  (List.reverse_perm _).trans ((List.reverse_perm xs).erase x)

theorem count_eraseLast (x : α) (xs : List α) : (eraseLast x xs).count x = xs.count x - 1 := by
  rw [(perm_eraseLast x xs).count_eq, List.count_erase_self]

/-- One deletion is enough exactly for a host that stands in the list at most once. -/
theorem notMem_eraseLast_iff (x : α) (xs : List α) : x ∉ eraseLast x xs ↔ xs.count x ≤ 1 := by
  rw [← List.count_eq_zero, count_eraseLast]
  omega

end EraseLast

structure Blocklist where
  paused : BitVec 32
  hosts : AdHost → List Host

/-- What a request amounts to. An addition says whether its allocations succeed. -/
inductive Command
  | setPause (value : BitVec 32)
  | getPause
  | add (list : AdHost) (host : Host) (granted : Bool)
  | del (list : AdHost) (host : Host)
  | other
  | verdict (name : List UInt8)

/-- The answer to a request: a status with the value it returns, or a verdict. -/
inductive Reply
  | status (code : NtStatus) (output : Option (BitVec 32))
  | found (verdict : Bool)
deriving DecidableEq, Repr

variable (hit : Host → List UInt8 → Bool)

/-- A name is found when no exception matches it and a user or system entry does. -/
def Blocklist.found (b : Blocklist) (name : List UInt8) : Bool :=
  !(b.hosts .excpt).any (hit · name) &&
    ((b.hosts .user).any (hit · name) || (b.hosts .sys).any (hit · name))

def Blocklist.setHosts (b : Blocklist) (list : AdHost) (hs : List Host) : Blocklist :=
  { b with hosts := Function.update b.hosts list hs }

@[simp] theorem setHosts_self (b : Blocklist) (list : AdHost) (hs : List Host) :
    (b.setHosts list hs).hosts list = hs :=
  Function.update_self ..

theorem setHosts_of_ne (b : Blocklist) {list l : AdHost} (hs : List Host) (h : l ≠ list) :
    (b.setHosts list hs).hosts l = b.hosts l :=
  Function.update_of_ne h ..

def Blocklist.step (b : Blocklist) : Command → Blocklist × Reply
  | .setPause value => ({ b with paused := value }, .status statusSuccess none)
  | .getPause => (b, .status statusSuccess (some b.paused))
  | .add list h granted =>
      (if granted then b.setHosts list (b.hosts list ++ [h]) else b, .status statusSuccess none)
  | .del list h =>
      (b.setHosts list (eraseLast h (b.hosts list)), .status statusSuccess none)
  | .other => (b, .status statusSuccess none)
  | .verdict name => (b, .found (b.found hit name))

/-- The list a command may change. -/
def Command.target : Command → Option AdHost
  | .add list _ _ => some list
  | .del list _ => some list
  | _ => none

/-- A command changes no list but its own. -/
theorem step_hosts_of_ne (b : Blocklist) (c : Command) {list : AdHost} (h : c.target ≠ some list) :
    (b.step hit c).1.hosts list = b.hosts list := by
  cases c with
  | add l host granted =>
    have hl : list ≠ l := fun hq => h (by rw [hq]; rfl)
    cases granted <;> simp [Blocklist.step, Blocklist.setHosts, hl]
  | del l host =>
    have hl : list ≠ l := fun hq => h (by rw [hq]; rfl)
    simp [Blocklist.step, Blocklist.setHosts, hl]
  | setPause value => rfl
  | getPause => rfl
  | other => rfl
  | verdict name => rfl

theorem found_iff (b : Blocklist) (name : List UInt8) :
    b.found hit name = true ↔ (∀ h ∈ b.hosts .excpt, hit h name = false) ∧
      ∃ h, (h ∈ b.hosts .user ∨ h ∈ b.hosts .sys) ∧ hit h name = true := by
  simp only [Blocklist.found, Bool.and_eq_true, Bool.not_eq_true', Bool.or_eq_true, List.any_eq_true,
    List.any_eq_false]
  refine and_congr ?_ ⟨?_, ?_⟩
  · simp
  · rintro (⟨h, hm, hh⟩ | ⟨h, hm, hh⟩)
    · exact ⟨h, Or.inl hm, hh⟩
    · exact ⟨h, Or.inr hm, hh⟩
  · rintro ⟨h, hm | hm, hh⟩
    · exact Or.inl ⟨h, hm, hh⟩
    · exact Or.inr ⟨h, hm, hh⟩

/-- A verdict depends on which hosts are listed, not on their order. -/
theorem found_perm {b b' : Blocklist} (hp : ∀ list, (b.hosts list).Perm (b'.hosts list))
    (name : List UInt8) : b.found hit name = b'.found hit name := by
  have hany : ∀ list, (b.hosts list).any (hit · name) = (b'.hosts list).any (hit · name) := by
    intro list
    exact (hp list).any_eq
  simp only [Blocklist.found, hany]

end AdFilter.Driver.Abstract
