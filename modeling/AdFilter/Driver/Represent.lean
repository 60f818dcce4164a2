import AdFilter.Driver.Abstract
import AdFilter.Driver.Ownership

/-!
# The lists in memory represent sequences of hosts

`Represents` is the invariant of the three lists: every list is a ring over the
cells of its entries, every entry holds its host, and the live blocks of the pool
are the two blocks of each entry and nothing else. Every operation of `list.c`
keeps it, whatever the allocator does.
-/

namespace AdFilter.Driver.Represent

open AdFilter.Lib.Ring
open AdFilter.Lib.Pool
open AdFilter.Driver.HostList
open AdFilter.Driver.Abstract
open AdFilter.Driver.Ownership

/-- An entry of a list: its block, the block of its name, and the host. -/
structure Entry where
  cell : Ptr
  buffer : Ptr
  host : Host

def Entry.blocks (e : Entry) : List Ptr := [e.cell, e.buffer]

def adHosts : List AdHost := [.sys, .user, .excpt]

/-- The blocks of all entries of the three lists. -/
def blocks (es : AdHost → List Entry) : List Ptr :=
  adHosts.flatMap fun list => (es list).flatMap Entry.blocks

structure Holds (a : Adf) (e : Entry) : Prop where
  name : a.name e.cell = ⟨e.buffer, e.host.chars.length, e.host.chars.length + 1⟩
  text : a.text e.buffer = e.host.chars ++ [0]

structure Represents (a : Adf) (es : AdHost → List Entry) : Prop where
  ring : ∀ list, IsRing a.links (.head list) ((es list).map Entry.cell)
  holds : ∀ list, ∀ e ∈ es list, Holds a e
  live : (blocks es).Perm a.pool.live
  nodup : a.pool.live.Nodup
  fixed : a.pool.fixed = heads
  apart : ∀ list, Ptr.head list ∉ a.pool.live
  noBadFree : a.pool.badFree = false

/-- The hosts of a list, in order. -/
def hosts (es : AdHost → List Entry) (list : AdHost) : List Host := (es list).map Entry.host

/-- The memory stands for a state of the abstract machine. -/
def Abstracts (a : Adf) (b : Blocklist) : Prop :=
  ∃ es, Represents a es ∧ a.paused = b.paused ∧ hosts es = b.hosts

/-- The cells of a list, in order. -/
def entryCells (es : AdHost → List Entry) (list : AdHost) : List Ptr := (es list).map Entry.cell

theorem hosts_update (es : AdHost → List Entry) (list : AdHost) (xs : List Entry) :
    hosts (Function.update es list xs) = Function.update (hosts es) list (xs.map Entry.host) := by
  funext l
  by_cases h : l = list <;> simp [hosts, h]

theorem entryCells_update (es : AdHost → List Entry) (list : AdHost) (xs : List Entry) :
    entryCells (Function.update es list xs) =
      Function.update (entryCells es) list (xs.map Entry.cell) := by
  funext l
  by_cases h : l = list <;> simp [entryCells, h]

section Invariant

variable {a : Adf} {es : AdHost → List Entry}

theorem ownedBlocks_entryCells (hh : ∀ list, ∀ e ∈ es list, Holds a e) :
    ownedBlocks a.name (entryCells es) = blocks es := by
  refine List.flatMap_congr fun list _ => ?_
  rw [entryCells, List.flatMap_map]
  refine List.flatMap_congr fun e he => ?_
  rw [entryBlocks, (hh list e he).name, Entry.blocks]

theorem Represents.owns (hr : Represents a es) : Owns a (entryCells es) where
  ring := hr.ring
  live := (ownedBlocks_entryCells hr.holds).symm ▸ hr.live
  nodup := hr.nodup
  fixed := hr.fixed
  apart := hr.apart
  noBadFree := hr.noBadFree

/-- What the pool owns and what the entries hold make up the invariant. -/
theorem represents_of_owns (ho : Owns a (entryCells es)) (hh : ∀ list, ∀ e ∈ es list, Holds a e) :
    Represents a es where
  ring := ho.ring
  holds := hh
  live := ownedBlocks_entryCells hh ▸ ho.live
  nodup := ho.nodup
  fixed := ho.fixed
  apart := ho.apart
  noBadFree := ho.noBadFree

theorem Represents.cell_live (hr : Represents a es) {list : AdHost} {e : Entry} (he : e ∈ es list) :
    e.cell ∈ a.pool.live := by
  have hc : e.cell ∈ entryCells es list := List.mem_map_of_mem he
  exact hr.owns.cell_live hc

theorem Represents.buffer_live (hr : Represents a es) {list : AdHost} {e : Entry}
    (he : e ∈ es list) : e.buffer ∈ a.pool.live := by
  have hc : e.cell ∈ entryCells es list := List.mem_map_of_mem he
  have hb := hr.owns.live_of_mem hc (buffer_mem a.name e.cell)
  rwa [(hr.holds list e he).name] at hb

/-- A host entry is compared with a string as a host. -/
theorem Holds.isSameHost {e : Entry} (he : Holds a e) {name : Mem} {len : Nat} {h : Host}
    (hn : bytes name len = h.chars) : isSameHost a e.cell name len = decide (e.host = h) := by
  have hlen : len = h.chars.length := by rw [← hn, length_bytes]
  have htext : bytes (textMem (a.text e.buffer)) e.host.chars.length = e.host.chars := by
    rw [bytes_textMem (by simp [he.text]), he.text]
    simp
  have heq : e.host = h ↔ e.host.chars = h.chars :=
    ⟨congrArg Host.chars, fun hc => by cases hh : e.host; cases h; simp_all⟩
  rw [HostList.isSameHost, he.name]
  simp only
  by_cases hl : e.host.chars.length = len
  · rw [if_neg (by simpa using hl), Bool.eq_iff_iff, memcmp_iff, htext, hl, hn,
      decide_eq_true_iff, heq]
  · rw [if_pos (by simpa using hl)]
    refine (decide_eq_false fun hq => hl ?_).symm
    rw [hq, hlen]

/-- What a matcher is given for an entry is the host of that entry. -/
theorem Holds.pattern {e : Entry} (he : Holds a e) :
    cString (a.text (a.name e.cell).buffer) = e.host.chars := by
  rw [he.name]
  simp only
  rw [he.text, cString_append_nul e.host.noNul]

theorem Represents.searchBack_sameHost (hr : Represents a es) (list : AdHost) {dst : Mem} {len : Nat}
    {h : Host} (hd : bytes dst len = h.chars) :
    searchBack a.links (.head list) (fun c => some (isSameHost a c dst len)) (budget a)
        (a.links.blink (.head list)) =
      some (((es list).reverse.find? fun e => decide (e.host = h)).map Entry.cell) := by
  rw [(hr.ring list).searchBack _ (hr.owns.length_lt_budget list), ← List.map_reverse]
  refine findM?_map_some _ _ _ fun e he => ?_
  rw [(hr.holds list e (List.mem_reverse.mp he)).isSameHost hd]

/-- The search for a match looks at the hosts of the list, the last one first. -/
theorem Represents.isMatchHostList (hr : Represents a es) (m : Matcher) (list : AdHost)
    (dst : List UInt8) :
    isMatchHostList m a (.head list) dst =
      ((hosts es list).reverse.findM? fun h =>
        (m h.chars dst).map (· == (dst.length : Int))).map Option.isSome := by
  rw [HostList.isMatchHostList, (hr.ring list).searchBack _ (hr.owns.length_lt_budget list),
    ← List.map_reverse, hosts, ← List.map_reverse]
  refine findM?_map_isSome _ _ _ _ fun e he => ?_
  rw [(hr.holds list e (List.mem_reverse.mp he)).pattern]

end Invariant

/-! ## Additions -/

/-- Whether both allocations of an addition are granted. -/
def granted (p : Allocator Ptr) (a : Adf) : Bool :=
  p.grants a.pool.calls && p.grants (a.pool.calls + 1)

section Additions

variable {p : Allocator Ptr} {a : Adf} {es : AdHost → List Entry}

/-- Only the number of requests made so far changes. -/
theorem Represents.calls (hr : Represents a es) (n : Nat) :
    Represents { a with pool := { a.pool with calls := n } } es :=
  represents_of_owns (hr.owns.calls n) fun list e he =>
    ⟨(hr.holds list e he).name, (hr.holds list e he).text⟩

theorem newHostList_denied (hg : granted p a = false) (src : Mem) (len : Nat) :
    ∃ n, newHostList p a src len = (none, { a with pool := { a.pool with calls := n } }) := by
  cases h1 : p.grants a.pool.calls with
  | false => exact ⟨_, by rw [newHostList, alloc_denied h1]⟩
  | true =>
    have h2 : p.grants (a.pool.calls + 1) = false := by simpa [granted, h1] using hg
    refine ⟨a.pool.calls + 1 + 1, ?_⟩
    rw [newHostList, alloc_granted h1]
    simp only
    rw [alloc_denied h2]
    simp [Ledger.free]

theorem newHostList_granted (hg : granted p a = true) (src : Mem) (len : Nat) :
    ∃ c b, c ∉ a.pool.fixed ∧ c ∉ a.pool.live ∧ b ∉ a.pool.fixed ∧ b ∉ c :: a.pool.live ∧
      newHostList p a src len = (some c, { a with
        pool := { a.pool with calls := a.pool.calls + 1 + 1, live := b :: c :: a.pool.live }
        text := Function.update a.text b (bytes src len ++ [0])
        name := Function.update a.name c ⟨b, len % 65536, (len + 1) % 65536⟩ }) := by
  obtain ⟨h1, h2⟩ := Bool.and_eq_true_iff.mp hg
  let c := p.pick (a.pool.fixed ++ a.pool.live)
  let l : Ledger Ptr := { a.pool with calls := a.pool.calls + 1, live := c :: a.pool.live }
  refine ⟨c, p.pick (l.fixed ++ l.live), pick_notMem_fixed p a.pool, pick_notMem_live p a.pool,
    pick_notMem_fixed p l, pick_notMem_live p l, ?_⟩
  have hl : l.alloc p = (some (p.pick (l.fixed ++ l.live)),
      { l with calls := l.calls + 1, live := p.pick (l.fixed ++ l.live) :: l.live }) :=
    alloc_granted h2
  rw [newHostList, alloc_granted h1]
  simp only
  rw [hl]

/-- A failed addition leaves the lists as they were. -/
theorem addHostList_denied (hr : Represents a es) (hg : granted p a = false) (list : AdHost)
    (src : Mem) (len : Nat) :
    (addHostList p a (.head list) src len).1 = false ∧
      Represents (addHostList p a (.head list) src len).2 es ∧
      (addHostList p a (.head list) src len).2.paused = a.paused := by
  obtain ⟨n, hn⟩ := newHostList_denied hg src len
  rw [addHostList, hn]
  exact ⟨rfl, hr.calls n, rfl⟩

/-- A successful addition puts one entry for the host at the end of its list. -/
theorem addHostList_granted (hr : Represents a es) (hg : granted p a = true) (list : AdHost)
    {src : Mem} {len : Nat} {h : Host} (hh : bytes src len = h.chars) :
    ∃ e : Entry, e.host = h ∧ (addHostList p a (.head list) src len).1 = true ∧
      Represents (addHostList p a (.head list) src len).2
        (Function.update es list (es list ++ [e])) ∧
      (addHostList p a (.head list) src len).2.paused = a.paused := by
  obtain ⟨c, b, hcf, hcl, hbf, hbl, hn⟩ := newHostList_granted hg src len
  have hlen : len = h.chars.length := by rw [← hh, length_bytes]
  have hfit : len ≤ 128 := hlen ▸ h.fits
  refine ⟨⟨c, b, h⟩, rfl, ?_⟩
  rw [addHostList, hn]
  refine ⟨rfl, represents_of_owns ?_ ?_, rfl⟩
  · rw [entryCells_update, List.map_append, List.map_singleton]
    exact hr.owns.insert list hcf hcl hbf hbl _ _ rfl
  · intro l e he
    have hold : ∀ e ∈ es l, Holds { a with
        pool := { a.pool with calls := a.pool.calls + 1 + 1, live := b :: c :: a.pool.live }
        text := Function.update a.text b (bytes src len ++ [0])
        name := Function.update a.name c ⟨b, len % 65536, (len + 1) % 65536⟩
        links := insertTail a.links (.head list) c } e := by
      intro e he
      have h1 : e.cell ≠ c := fun hq => hcl (hq ▸ hr.cell_live he)
      have h2 : e.buffer ≠ b := fun hq => hbl (hq ▸ List.mem_cons_of_mem c (hr.buffer_live he))
      have hh := hr.holds l e he
      exact ⟨by simp [h1, hh.name], by simp [h2, hh.text]⟩
    by_cases hl : l = list
    · subst hl
      rw [Function.update_self] at he
      rcases List.mem_append.mp he with he | he
      · exact hold e he
      · obtain rfl := List.mem_singleton.mp he
        refine ⟨?_, by simp [hh]⟩
        simp only [Function.update_self, AnsiString.mk.injEq, true_and, ← hlen]
        omega
    · rw [Function.update_of_ne hl] at he
      exact hold e he

end Additions

/-! ## Deletions -/

section Deletions

variable {a : Adf} {es : AdHost → List Entry}

/-- Unlinking an entry and freeing its two blocks removes just that entry. -/
theorem Represents.unlink (hr : Represents a es) {list : AdHost} {xs ys : List Entry} {e : Entry}
    (hs : es list = xs ++ e :: ys) :
    Represents { a with
      links := remove a.links e.cell
      pool := (a.pool.free (a.name e.cell).buffer).free e.cell }
      (Function.update es list (xs ++ ys)) := by
  refine represents_of_owns ?_ fun l e' he' => ?_
  · rw [entryCells_update, List.map_append]
    refine hr.owns.unlink ?_
    rw [entryCells, hs, List.map_append, List.map_cons]
  · have hm : e' ∈ es l := by
      by_cases hl : l = list
      · subst hl
        rw [Function.update_self] at he'
        rw [hs]
        rcases List.mem_append.mp he' with hx | hy
        · exact List.mem_append_left _ hx
        · exact List.mem_append_right _ (List.mem_cons_of_mem e hy)
      · rwa [Function.update_of_ne hl] at he'
    exact ⟨(hr.holds l e' hm).name, (hr.holds l e' hm).text⟩

/-- `removeHostList` deletes the last entry equal to the string, if there is one. -/
theorem removeHostList_spec (hr : Represents a es) (list : AdHost) {dst : Mem} {len : Nat} {h : Host}
    (hd : bytes dst len = h.chars) :
    ∃ a' es', removeHostList a (.head list) dst len = some (decide (h ∈ hosts es list), a') ∧
      Represents a' es' ∧ a'.paused = a.paused ∧
      hosts es' = Function.update (hosts es) list (eraseLast h (hosts es list)) := by
  rw [removeHostList, hr.searchBack_sameHost list hd]
  cases hf : (es list).reverse.find? fun e => decide (e.host = h) with
  | none =>
    have hn : h ∉ hosts es list := by
      intro hm
      obtain ⟨e, he, hq⟩ := List.mem_map.mp hm
      have h0 := List.find?_eq_none.mp hf e (List.mem_reverse.mpr he)
      exact h0 (decide_eq_true hq)
    refine ⟨a, es, by simp [hn], hr, rfl, ?_⟩
    rw [eraseLast_of_notMem hn, Function.update_eq_self]
  | some e =>
    obtain ⟨hq, as, bs, hrev, hne⟩ := List.find?_eq_some_iff_append.mp hf
    have hq' : e.host = h := of_decide_eq_true hq
    have hs : es list = bs.reverse ++ e :: as.reverse := by
      have h0 := congrArg List.reverse hrev
      simpa using h0
    have hm : h ∈ hosts es list := by simp [hosts, hs, hq']
    have hna : h ∉ as.reverse.map Entry.host := by
      intro hm
      obtain ⟨e', he', hq''⟩ := List.mem_map.mp hm
      have h0 := hne e' (List.mem_reverse.mp he')
      simp [hq''] at h0
    refine ⟨_, _, by simp [hm], hr.unlink hs, rfl, ?_⟩
    have he : hosts es list = bs.reverse.map Entry.host ++ h :: as.reverse.map Entry.host := by
      rw [hosts, hs, List.map_append, List.map_cons, hq']
    rw [hosts_update, he, eraseLast_append hna, List.map_append]

end Deletions

/-! ## The abstract machine -/

/-- The pool before the driver has asked it for anything. -/
def Fresh (a : Adf) : Prop := a.pool.fixed = heads ∧ a.pool.live = [] ∧ a.pool.badFree = false

/-- Initialized heads are empty lists. -/
theorem represents_initLists {a : Adf} (hf : Fresh a) : Represents (initLists a) fun _ => [] :=
  represents_of_owns (owns_initLists hf.1 hf.2.1 hf.2.2) fun _ _ he => absurd he List.not_mem_nil

section Machine

variable (hit : Host → List UInt8 → Bool) {a : Adf} {b : Blocklist}

theorem Represents.paused {es : AdHost → List Entry} (hr : Represents a es) (v : BitVec 32) :
    Represents { a with paused := v } es :=
  represents_of_owns (hr.owns.paused v) fun list e he =>
    ⟨(hr.holds list e he).name, (hr.holds list e he).text⟩

/-- The memory stands for one state of the abstract machine only. -/
theorem Abstracts.unique {b' : Blocklist} (hab : Abstracts a b) (hab' : Abstracts a b') : b = b' := by
  obtain ⟨es, hr, hp, hs⟩ := hab
  obtain ⟨es', hr', hp', hs'⟩ := hab'
  have hmap : ∀ (xs ys : List Entry), (∀ e ∈ xs, Holds a e) → (∀ e ∈ ys, Holds a e) →
      xs.map Entry.cell = ys.map Entry.cell → xs.map Entry.host = ys.map Entry.host := by
    intro xs
    induction xs with
    | nil =>
      intro ys _ _ hc
      obtain rfl := List.map_eq_nil_iff.mp hc.symm
      rfl
    | cons x xs ih =>
      intro ys hx hy hc
      cases ys with
      | nil => simp at hc
      | cons y ys =>
        obtain ⟨h1, h2⟩ := List.cons.inj hc
        have hchars : x.host.chars = y.host.chars := by
          rw [← (hx x List.mem_cons_self).pattern, ← (hy y List.mem_cons_self).pattern, h1]
        have hhost : x.host = y.host := by
          cases hh : x.host
          cases hh' : y.host
          simpa [hh, hh'] using hchars
        rw [List.map_cons, List.map_cons, hhost,
          ih ys (fun e he => hx e (List.mem_cons_of_mem x he))
            (fun e he => hy e (List.mem_cons_of_mem y he)) h2]
  have hhosts : b.hosts = b'.hosts := by
    rw [← hs, ← hs']
    funext list
    exact hmap _ _ (hr.holds list) (hr'.holds list) ((hr.ring list).unique (hr'.ring list))
  cases b
  cases b'
  simp_all

/-- `addHostList` is the abstract addition. -/
theorem Abstracts.add (hab : Abstracts a b) (p : Allocator Ptr) (list : AdHost) {src : Mem}
    {len : Nat} {h : Host} (hh : bytes src len = h.chars) :
    (addHostList p a (.head list) src len).1 = granted p a ∧
      Abstracts (addHostList p a (.head list) src len).2
        (b.step hit (.add list h (granted p a))).1 := by
  obtain ⟨es, hr, hp, hs⟩ := hab
  cases hg : granted p a with
  | false =>
    obtain ⟨h1, h2, h3⟩ := addHostList_denied hr hg list src len
    exact ⟨h1, es, h2, h3.trans hp, hs⟩
  | true =>
    obtain ⟨e, he, h1, h2, h3⟩ := addHostList_granted hr hg list hh
    refine ⟨h1, _, h2, h3.trans hp, ?_⟩
    rw [hosts_update, List.map_append, List.map_singleton, he, ← hosts]
    simp [Blocklist.step, Blocklist.setHosts, hs]

/-- `removeHostList` is the abstract deletion. -/
theorem Abstracts.del (hab : Abstracts a b) (list : AdHost) {dst : Mem} {len : Nat} {h : Host}
    (hd : bytes dst len = h.chars) :
    ∃ a', removeHostList a (.head list) dst len = some (decide (h ∈ b.hosts list), a') ∧
      Abstracts a' (b.step hit (.del list h)).1 := by
  obtain ⟨es, hr, hp, hs⟩ := hab
  obtain ⟨a', es', h1, h2, h3, h4⟩ := removeHostList_spec hr list hd
  refine ⟨a', hs ▸ h1, es', h2, h3.trans hp, ?_⟩
  rw [h4, hs]
  rfl

/-- `isMatchHostList` searches the hosts of the abstract list, the last one first. -/
theorem Abstracts.isMatchHostList (hab : Abstracts a b) (m : Matcher) (list : AdHost)
    (dst : List UInt8) :
    isMatchHostList m a (.head list) dst =
      ((b.hosts list).reverse.findM? fun h =>
        (m h.chars dst).map (· == (dst.length : Int))).map Option.isSome := by
  obtain ⟨es, hr, -, hs⟩ := hab
  rw [hr.isMatchHostList, hs]

end Machine

/-! ## Every three sequences have a representation -/

/-- An allocator that never fails and numbers its blocks upwards. -/
def bumpAllocator : Allocator Ptr where
  pick used := .block (used.foldr (fun x n => match x with
    | .head _ => n
    | .block k => max n (k + 1)) 0)
  pick_fresh used := by
    have hlt : ∀ (l : List Ptr) (k : Nat), Ptr.block k ∈ l →
        k < l.foldr (fun x n => match x with
          | .head _ => n
          | .block k => max n (k + 1)) 0 := by
      intro l k hk
      induction l with
      | nil => exact absurd hk List.not_mem_nil
      | cons x l ih =>
        rcases List.mem_cons.mp hk with rfl | hk
        · exact Nat.lt_of_lt_of_le (Nat.lt_succ_self k) (Nat.le_max_right _ _)
        · have h0 := ih hk
          cases x with
          | head l' => exact h0
          | block k' => exact Nat.lt_of_lt_of_le h0 (Nat.le_max_left _ _)
    exact fun hm => Nat.lt_irrefl _ (hlt used _ hm)
  grants _ := true

/-- The driver's memory before `load_cfg` has run. -/
def blankAdf : Adf where
  paused := 0
  links := ⟨id, id⟩
  name _ := ⟨.head .sys, 0, 0⟩
  text _ := []
  pool := ⟨heads, [], 0, false⟩

theorem exists_represents_append {a : Adf} {es : AdHost → List Entry} (hr : Represents a es)
    (list : AdHost) (hs : List Host) :
    ∃ a' es', Represents a' es' ∧
      hosts es' = Function.update (hosts es) list (hosts es list ++ hs) := by
  induction hs generalizing a es with
  | nil => exact ⟨a, es, hr, by simp⟩
  | cons h hs ih =>
    have hb : bytes (textMem h.chars) h.chars.length = h.chars := by
      rw [bytes_textMem (Nat.le_refl _), List.take_length]
    obtain ⟨e, he, -, hr', -⟩ := addHostList_granted (p := bumpAllocator) hr rfl list hb
    obtain ⟨a', es', hr'', hq⟩ := ih hr'
    refine ⟨a', es', hr'', ?_⟩
    rw [hq, hosts_update, List.map_append, List.map_singleton, he, ← hosts]
    simp

theorem exists_abstracts (b : Blocklist) : ∃ a, Abstracts a b := by
  have h0 : Represents (initLists blankAdf) fun _ => [] :=
    represents_initLists ⟨rfl, rfl, rfl⟩
  obtain ⟨a1, es1, h1, q1⟩ := exists_represents_append h0 .sys (b.hosts .sys)
  obtain ⟨a2, es2, h2, q2⟩ := exists_represents_append h1 .user (b.hosts .user)
  obtain ⟨a3, es3, h3, q3⟩ := exists_represents_append h2 .excpt (b.hosts .excpt)
  refine ⟨{ a3 with paused := b.paused }, es3, h3.paused b.paused, rfl, ?_⟩
  funext list
  rw [q3, q2, q1]
  cases list <;> simp [hosts]

end AdFilter.Driver.Represent
