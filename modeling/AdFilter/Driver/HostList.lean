import AdFilter.Lib.Ring
import AdFilter.Lib.Pool

/-!
# The host lists of the driver

The operations of `list.c` over the memory they work on: the links of the three
circular lists, the `name` of every entry, the text of every pool block and the
ledger of the pool. A loop over a list has a budget of steps; a walk that is not
over by then has no outcome.
-/

namespace AdFilter.Driver.HostList

open AdFilter.Lib.Ring
open AdFilter.Lib.Pool

/-- The three lists of `Adf.AdHost`. -/
inductive AdHost
  | sys
  | user
  | excpt
deriving DecidableEq, Repr

inductive Ptr
  | head (list : AdHost)
  | block (n : Nat)
deriving DecidableEq, Repr

/-- Memory read through a pointer, by offset. -/
abbrev Mem := Nat → UInt8

structure AnsiString where
  buffer : Ptr
  length : Nat
  maximumLength : Nat
deriving DecidableEq, Repr

/-- The global `Adf` and the memory of its lists. -/
structure Adf where
  paused : BitVec 32
  links : Links Ptr
  name : Ptr → AnsiString
  text : Ptr → List UInt8
  pool : Ledger Ptr

def heads : List Ptr := [.head .sys, .head .user, .head .excpt]

def adfHostMaxLen : Nat := 128

/-- `InitializeListHead` on the three heads. -/
def initLists (a : Adf) : Adf :=
  { a with
    links := initHead (initHead (initHead a.links (.head .sys)) (.head .user)) (.head .excpt) }

/-- The first `len` bytes behind a pointer. -/
def bytes (src : Mem) (len : Nat) : List UInt8 := (List.range len).map src

def textMem (text : List UInt8) : Mem := fun i => text.getD i 0

def strnlenFrom (src : Mem) : Nat → Nat → Nat
  | 0, i => i
  | n + 1, i => if src i = 0 then i else strnlenFrom src n (i + 1)

def strnlen (src : Mem) (max : Nat) : Nat := strnlenFrom src max 0

def memcmp (xs ys : Mem) (n : Nat) : Bool := (List.range n).all fun i => xs i == ys i

/-- More steps than any list of live entries takes. -/
def budget (a : Adf) : Nat := a.pool.live.length + 1

def isSameHost (a : Adf) (entry : Ptr) (name : Mem) (len : Nat) : Bool :=
  let host := a.name entry
  if host.length ≠ len then false
  else memcmp (textMem (a.text host.buffer)) name host.length

def isInHostList (a : Adf) (header : Ptr) (dst : Mem) (len : Nat) : Option Bool :=
  (searchBack a.links header (fun h => some (isSameHost a h dst len)) (budget a)
    (a.links.blink header)).map Option.isSome

def newHostList (p : Allocator Ptr) (a : Adf) (src : Mem) (len : Nat) : Option Ptr × Adf :=
  match a.pool.alloc p with
  | (none, l) => (none, { a with pool := l })
  | (some e, l) =>
      match l.alloc p with
      | (none, l') => (none, { a with pool := l'.free e })
      | (some b, l') =>
          (some e, { a with
            pool := l'
            text := Function.update a.text b (bytes src len ++ [0])
            name := Function.update a.name e ⟨b, len % 65536, (len + 1) % 65536⟩ })

def addHostList (p : Allocator Ptr) (a : Adf) (header : Ptr) (src : Mem) (len : Nat) :
    Bool × Adf :=
  match newHostList p a src len with
  | (none, a') => (false, a')
  | (some h, a') => (true, { a' with links := insertTail a'.links header h })

def removeHostList (a : Adf) (header : Ptr) (dst : Mem) (len : Nat) : Option (Bool × Adf) :=
  (searchBack a.links header (fun h => some (isSameHost a h dst len)) (budget a)
    (a.links.blink header)).map fun
  | none => (false, a)
  | some h => (true, { a with
      links := remove a.links h
      pool := (a.pool.free (a.name h).buffer).free h })

/-- The loop of `clearHostList`, from the entry that was unlinked last. -/
def clearFrom (header : Ptr) : Nat → Ptr → Adf → Option Adf
  | 0, _, _ => none
  | n + 1, entry, a =>
      if entry = header then some a
      else
        let a' := { a with pool := (a.pool.free (a.name entry).buffer).free entry }
        let r := removeTail a'.links header
        clearFrom header n r.1 { a' with links := r.2 }

def clearHostList (a : Adf) (header : Ptr) : Option Adf :=
  let r := removeTail a.links header
  clearFrom header (budget a) r.1 { a with links := r.2 }

/-- A regular expression matcher: pattern and subject to the end of the match, or
no answer when it does not return. -/
abbrev Matcher := List UInt8 → List UInt8 → Option Int

/-- The C string behind a pointer to a pool block. -/
def cString (text : List UInt8) : List UInt8 := text.takeWhile (· ≠ 0)

def isMatchHostList (m : Matcher) (a : Adf) (header : Ptr) (dst : List UInt8) : Option Bool :=
  (searchBack a.links header
    (fun h => (m (cString (a.text (a.name h).buffer)) dst).map (· == (dst.length : Int)))
    (budget a) (a.links.blink header)).map Option.isSome

/-- A deletion asks the pool for nothing. -/
theorem removeHostList_calls {a a' : Adf} {header : Ptr} {dst : Mem} {len : Nat} {r : Bool}
    (h : removeHostList a header dst len = some (r, a')) : a'.pool.calls = a.pool.calls := by
  obtain ⟨found, -, h⟩ := Option.map_eq_some_iff.mp h
  cases found with
  | none =>
    obtain ⟨-, rfl⟩ := Prod.mk.inj h
    rfl
  | some e =>
    obtain ⟨-, rfl⟩ := Prod.mk.inj h
    exact (free_calls _ _).trans (free_calls _ _)

/-! ## Strings -/

@[simp] theorem length_bytes (src : Mem) (n : Nat) : (bytes src n).length = n := by
  simp [bytes]

theorem strnlenFrom_spec (src : Mem) (n i : Nat) :
    i ≤ strnlenFrom src n i ∧ strnlenFrom src n i ≤ i + n ∧
      ∀ j, i ≤ j → j < strnlenFrom src n i → src j ≠ 0 := by
  induction n generalizing i with
  | zero =>
    refine ⟨Nat.le_refl i, Nat.le_refl i, fun j hj hlt => absurd hlt ?_⟩
    simp [strnlenFrom]
    omega
  | succ n ih =>
    obtain ⟨h1, h2, h3⟩ := ih (i + 1)
    by_cases h0 : src i = 0
    · simp only [strnlenFrom, h0, if_true]
      exact ⟨Nat.le_refl i, by omega, fun j hj hlt => absurd hlt (by omega)⟩
    · simp only [strnlenFrom, h0, if_false]
      refine ⟨by omega, by omega, fun j hj hlt => ?_⟩
      by_cases he : j = i
      · exact he ▸ h0
      · exact h3 j (by omega) hlt

theorem strnlen_le (src : Mem) (max : Nat) : strnlen src max ≤ max := by
  have h := (strnlenFrom_spec src max 0).2.1
  simpa [strnlen] using h

theorem strnlen_noNul (src : Mem) (max : Nat) : 0 ∉ bytes src (strnlen src max) := by
  simp only [bytes, List.mem_map, List.mem_range, not_exists, not_and]
  intro j hj
  exact (strnlenFrom_spec src max 0).2.2 j (Nat.zero_le j) hj

theorem takeWhile_strnlenFrom (src : Mem) (n i : Nat) :
    ((List.range' i n).map src).takeWhile (· ≠ 0) =
      (List.range' i (strnlenFrom src n i - i)).map src := by
  induction n generalizing i with
  | zero => simp [strnlenFrom]
  | succ n ih =>
    rw [List.range'_succ, List.map_cons, strnlenFrom]
    by_cases h0 : src i = 0
    · simp [h0]
    · have hle := (strnlenFrom_spec src n (i + 1)).1
      have hlen : strnlenFrom src n (i + 1) - i = strnlenFrom src n (i + 1) - (i + 1) + 1 := by omega
      rw [List.takeWhile_cons_of_pos (by simpa using h0), ih, if_neg h0, hlen, List.range'_succ,
        List.map_cons]

/-- `strnlen` stops at the first NUL, or at the limit. -/
theorem bytes_strnlen (src : Mem) (max : Nat) :
    bytes src (strnlen src max) = cString (bytes src max) := by
  have h := takeWhile_strnlenFrom src max 0
  rw [cString, bytes, bytes, List.range_eq_range', List.range_eq_range', h, strnlen, Nat.sub_zero]

theorem take_bytes (src : Mem) {n m : Nat} (h : n ≤ m) : (bytes src m).take n = bytes src n := by
  rw [bytes, ← List.map_take, List.take_range, Nat.min_eq_left h, bytes]

theorem strnlenFrom_eq {src : Mem} {n i k : Nat} (hik : i ≤ k) (hk : k ≤ i + n)
    (hne : ∀ j, i ≤ j → j < k → src j ≠ 0) (hz : k = i + n ∨ src k = 0) :
    strnlenFrom src n i = k := by
  induction n generalizing i with
  | zero =>
    simp only [strnlenFrom]
    omega
  | succ n ih =>
    by_cases he : i = k
    · subst he
      have h0 : src i = 0 := by
        rcases hz with h | h
        · omega
        · exact h
      simp [strnlenFrom, h0]
    · rw [strnlenFrom, if_neg (hne i (Nat.le_refl i) (by omega))]
      refine ih (by omega) (by omega) (fun j hj => hne j (by omega)) ?_
      rcases hz with h | h
      · exact Or.inl (by omega)
      · exact Or.inr h

theorem memcmp_iff (xs ys : Mem) (n : Nat) : memcmp xs ys n = true ↔ bytes xs n = bytes ys n := by
  simp [memcmp, bytes]

theorem bytes_textMem {text : List UInt8} {n : Nat} (h : n ≤ text.length) :
    bytes (textMem text) n = text.take n := by
  apply List.ext_getElem
  · simp [h]
  · intro i h1 h2
    have hi : i < text.length := by
      simp only [length_bytes] at h1
      omega
    simp [bytes, textMem, hi]

theorem bytes_const (b : UInt8) (n : Nat) : bytes (fun _ => b) n = List.replicate n b := by
  simp [bytes, List.map_const']

theorem bytes_textMem_of_le {text : List UInt8} {n : Nat} (h : text.length ≤ n) :
    bytes (textMem text) n = text ++ List.replicate (n - text.length) 0 := by
  apply List.ext_getElem
  · simp
    omega
  · intro i h1 h2
    by_cases hi : i < text.length
    · simp [bytes, textMem, hi]
    · rw [List.getElem_append_right (by omega)]
      simp [bytes, textMem, Nat.le_of_not_lt hi]

theorem cString_append {pre : List UInt8} (h : 0 ∉ pre) (post : List UInt8) :
    cString (pre ++ post) = pre ++ cString post := by
  rw [cString, List.takeWhile_append_of_pos, cString]
  intro b hb
  exact decide_eq_true fun he => h (he ▸ hb)

theorem cString_eq_self {text : List UInt8} (h : 0 ∉ text) : cString text = text := by
  have hnil : cString [] = [] := rfl
  have happ := cString_append h []
  rwa [hnil, List.append_nil] at happ

theorem cString_replicate_nul (n : Nat) : cString (List.replicate n 0) = [] := by
  cases n <;> rfl

theorem cString_append_nul {pre : List UInt8} (h : 0 ∉ pre) (post : List UInt8) :
    cString (pre ++ 0 :: post) = pre := by
  rw [cString_append h]
  simp [cString]

end AdFilter.Driver.HostList
