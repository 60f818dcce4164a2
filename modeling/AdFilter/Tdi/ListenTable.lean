import AdFilter.Tdi.ConnBuckets
import Mathlib.Data.Nat.Bitwise

/-!
# The buckets of the listen table

`g_listen` as a table of doubly linked cells, and the two searches in it: `is_listen` for
an address, and `is_bcast_listen` for the addresses that a broadcast reaches.
-/

namespace AdFilter.Tdi.ListenTable

open AdFilter.Lib.Buckets
open AdFilter.Lib.Linked
open AdFilter.Lib.Pool
open AdFilter.Nt
open AdFilter.Tdi.Ipc
open AdFilter.Tdi.Objects
open AdFilter.Tdi.ConnState

/-! ## The searches -/

/-- The loop of both searches from the entry `p` on: whether it comes to an entry that it
takes. It has no outcome when it is not over after `n` entries. -/
def findListen (g : Globals) (takes : ListenEntry → Bool) : Nat → Option Nat → Option Bool
  | _, none => some false
  | 0, some _ => none
  | n + 1, some le =>
      if takes (g.listen le) then some true else findListen g takes n (g.listen le).next

def isListen (g : Globals) (n : Nat) (addr : UInt32) (port : UInt16) (ipproto : Nat) :
    Option Bool :=
  findListen g (fun le => le.ipproto = ipproto ∧ le.addr = addr ∧ le.port = port) n
    (g.listenHash (calcListenHash ipproto port))

def ntohl (a : UInt32) : UInt32 :=
  (a >>> 24) ||| ((a >>> 8) &&& (0xff00 : UInt32)) ||| ((a <<< 8) &&& (0xff0000 : UInt32)) |||
    (a <<< 24)

/-- `a & (1 << i)` -/
def bit (a : UInt32) (i : Nat) : UInt32 := a &&& ((1 : UInt32) <<< UInt32.ofNat i)

/-- The loop over the bits of two addresses, from the bit `i - 1` down: no bit of the
first one is set where it is not set in the second. -/
def coversBelow (addrL addrP : UInt32) : Nat → Bool
  | 0 => true
  | i + 1 =>
      if bit addrL i ≠ bit addrP i ∧ bit addrP i = 0 then false else coversBelow addrL addrP i

def isBcastListen (g : Globals) (n : Nat) (addr : UInt32) (port : UInt16) (ipproto : Nat) :
    Option Bool :=
  findListen g
    (fun le =>
      (le.ipproto = ipproto ∧ le.port = port) && coversBelow (ntohl le.addr) (ntohl addr) 32)
    n (g.listenHash (calcListenHash ipproto port))

variable {env : Env} {g g' : Globals} {rows : Nat → List Nat} {le : Nat}

theorem findListen_spec {takes : ListenEntry → Bool} {p : Option Nat} {as : List Nat} {n : Nat}
    (hs : Spans (fun le => (g.listen le).next) p as) (hn : as.length ≤ n) :
    findListen g takes n p = some (as.any fun le => takes (g.listen le)) := by
  induction as generalizing p n with
  | nil =>
    obtain rfl := hs
    unfold findListen
    rfl
  | cons le as ih =>
    obtain ⟨rfl, ht⟩ := hs
    cases n with
    | zero => exact absurd hn (by simp)
    | succ n =>
      rw [findListen, List.any_cons, ih ht (Nat.le_of_succ_le_succ hn)]
      cases takes (g.listen le) <;> rfl

theorem toNat_bit (a : UInt32) {i : Nat} (hi : i < 32) :
    (bit a i).toNat = (a.toNat.testBit i).toNat * 2 ^ i := by
  have hshift : ((1 : UInt32) <<< UInt32.ofNat i).toNat = 2 ^ i := by
    have hlt : 2 ^ i < 2 ^ 32 := Nat.pow_lt_pow_right (by decide) hi
    have hi' : (UInt32.ofNat i).toNat = i := UInt32.toNat_ofNat_of_lt' (hi.trans (by decide))
    rw [UInt32.toNat_shiftLeft, hi', Nat.mod_eq_of_lt hi, Nat.shiftLeft_eq]
    exact (congrArg (· % 2 ^ 32) (Nat.one_mul _)).trans (Nat.mod_eq_of_lt hlt)
  rw [bit, UInt32.toNat_and, hshift, Nat.and_two_pow]

theorem bit_eq_zero (a : UInt32) {i : Nat} (hi : i < 32) :
    bit a i = 0 ↔ a.toNat.testBit i = false := by
  have hpow : 2 ^ i ≠ 0 := Nat.pos_iff_ne_zero.mp (Nat.two_pow_pos i)
  rw [← UInt32.toNat_inj, toNat_bit a hi]
  show _ * 2 ^ i = 0 ↔ _
  rw [Nat.mul_eq_zero, or_iff_left hpow]
  cases a.toNat.testBit i <;> decide

theorem bit_eq_bit (a b : UInt32) {i : Nat} (hi : i < 32) :
    bit a i = bit b i ↔ a.toNat.testBit i = b.toNat.testBit i := by
  have hpow : 0 < 2 ^ i := Nat.two_pow_pos i
  rw [← UInt32.toNat_inj, toNat_bit a hi, toNat_bit b hi, Nat.mul_left_inj hpow.ne']
  cases a.toNat.testBit i <;> cases b.toNat.testBit i <;> decide

theorem coversBelow_iff (addrL addrP : UInt32) {i : Nat} (hi : i ≤ 32) :
    coversBelow addrL addrP i = true ↔
      ∀ j < i, addrL.toNat.testBit j = true → addrP.toNat.testBit j = true := by
  induction i with
  | zero => exact iff_of_true rfl fun j hj => absurd hj (Nat.not_lt_zero j)
  | succ i ih =>
    rw [coversBelow, Nat.forall_lt_succ_right]
    simp only [ne_eq, bit_eq_bit _ _ hi, bit_eq_zero _ hi]
    cases hp : addrP.toNat.testBit i with
    | true =>
      rw [if_neg fun h => Bool.false_ne_true h.2.symm, ih (Nat.le_of_succ_le hi)]
      exact (and_iff_left fun _ => rfl).symm
    | false =>
      cases hl : addrL.toNat.testBit i with
      | true =>
        rw [if_pos ⟨Bool.false_ne_true.symm, rfl⟩]
        exact iff_of_false Bool.false_ne_true fun h => Bool.false_ne_true (h.2 rfl)
      | false =>
        rw [if_neg fun h => h.1 rfl, ih (Nat.le_of_succ_le hi)]
        exact (and_iff_left fun h => h).symm

/-- A broadcast reaches an address that has no bit of its own. -/
theorem coversBelow_eq_or (addrL addrP : UInt32) :
    coversBelow addrL addrP 32 = true ↔ addrL ||| addrP = addrP := by
  rw [coversBelow_iff _ _ (Nat.le_refl 32), ← UInt32.toNat_inj, UInt32.toNat_or]
  constructor
  · intro h
    apply Nat.eq_of_testBit_eq
    intro j
    rw [Nat.testBit_or]
    by_cases hj : j < 32
    · cases hl : addrL.toNat.testBit j with
      | false => rw [Bool.false_or]
      | true => rw [h j hj hl, Bool.or_true]
    · have hlt : ∀ a : UInt32, a.toNat.testBit j = false := fun a =>
        Nat.testBit_lt_two_pow (Nat.lt_of_lt_of_le a.toNat_lt
          (Nat.pow_le_pow_right (by decide) (Nat.le_of_not_lt hj)))
      rw [hlt, hlt, Bool.or_false]
  · intro h j _ hl
    rw [← h, Nat.testBit_or, hl, Bool.true_or]

/-! ## The buckets -/

def listenTable (g : Globals) : Table Nat Nat where
  head := g.listenHash
  next le := (g.listen le).next
  prev le := (g.listen le).prev

/-- An entry without its links. -/
def bareListen (g : Globals) (le : Nat) : ListenEntry :=
  { g.listen le with next := none, prev := none }

/-- The buckets are `rows`, and hold what is not freed. -/
structure Filed (g : Globals) (rows : Nat → List Nat) : Prop where
  table : (listenTable g).Exact rows (· ∈ g.listenPool.live) fun le => (g.listen le).hash
  nodup : g.listenPool.live.Nodup

theorem hash_of_bareListen (h : bareListen g' = bareListen g) (le : Nat) :
    (g'.listen le).hash = (g.listen le).hash := by
  have hle : (bareListen g' le).hash = (bareListen g le).hash := by rw [h]
  exact hle

theorem listen_setListen (g : Globals) (le : Nat) (f : ListenEntry → ListenEntry) (l : Nat) :
    (g.setListen le f).listen l = if l = le then f (g.listen le) else g.listen l :=
  Function.update_apply g.listen le (f (g.listen le)) l

theorem listenTable_setListen (g : Globals) (le : Nat) (f : ListenEntry → ListenEntry) :
    listenTable (g.setListen le f) =
      { listenTable g with
        next := Function.update (listenTable g).next le (f (g.listen le)).next
        prev := Function.update (listenTable g).prev le (f (g.listen le)).prev } := by
  apply Table.ext
  · rfl
  · funext l
    show ((g.setListen le f).listen l).next = Function.update (listenTable g).next le _ l
    rw [listen_setListen, Function.update_apply]
    split <;> rfl
  · funext l
    show ((g.setListen le f).listen l).prev = Function.update (listenTable g).prev le _ l
    rw [listen_setListen, Function.update_apply]
    split <;> rfl

theorem listenTable_setNext (g : Globals) (le : Nat) (v : Option Nat) :
    listenTable (g.setListen le fun e => { e with next := v }) =
      { listenTable g with next := Function.update (listenTable g).next le v } := by
  have hprev : Function.update (listenTable g).prev le (g.listen le).prev = (listenTable g).prev :=
    Function.update_eq_self le (listenTable g).prev
  rw [listenTable_setListen, hprev]

theorem listenTable_setPrevAt (g : Globals) (p v : Option Nat) :
    listenTable (g.setListenAt p fun e => { e with prev := v }) =
      { listenTable g with prev := writeAt (listenTable g).prev p v } := by
  cases p with
  | none => rfl
  | some le =>
    have hnext :
        Function.update (listenTable g).next le (g.listen le).next = (listenTable g).next :=
      Function.update_eq_self le (listenTable g).next
    show listenTable (g.setListen le fun e => { e with prev := v }) = _
    rw [listenTable_setListen, hnext]
    rfl

/-- A write to the links of an entry. -/
theorem bareListen_setListen (g : Globals) (le : Nat) {f : ListenEntry → ListenEntry}
    (hf : ∀ e : ListenEntry, { f e with next := none, prev := none } =
      { e with next := none, prev := none }) : bareListen (g.setListen le f) = bareListen g := by
  funext l
  unfold bareListen
  rw [listen_setListen]
  split
  · rename_i hl
    rw [hf, hl]
  · rfl

theorem bareListen_setPrevAt (g : Globals) (p v : Option Nat) :
    bareListen (g.setListenAt p fun e => { e with prev := v }) = bareListen g := by
  cases p with
  | none => rfl
  | some le => exact bareListen_setListen g le (f := fun e => { e with prev := v }) fun _ => rfl

theorem listenTable_linkListen (g : Globals) (le : Nat) :
    listenTable (linkListen g le) = (listenTable g).link (g.listen le).hash le := by
  unfold linkListen
  extract_lets hash first g₁ g₂
  have hhead : g₂.listenHash = g.listenHash := by
    simp only [g₂, g₁]
    cases first <;> rfl
  show { listenTable g₂ with head := Function.update g₂.listenHash hash (some le) } = _
  rw [hhead, listenTable_setPrevAt, listenTable_setNext]
  rfl

theorem bareListen_linkListen (g : Globals) (le : Nat) :
    bareListen (linkListen g le) = bareListen g :=
  (bareListen_setPrevAt _ _ _).trans (bareListen_setListen g le fun _ => rfl)

/-- `del_listen_obj` before its `free`. -/
def unlinkListen (g : Globals) (le : Nat) : Globals :=
  let e := g.listen le
  let g :=
    match e.prev with
    | some p => g.setListen p fun d => { d with next := e.next }
    | none => g.setListenHash e.hash e.next
  let e := g.listen le
  g.setListenAt e.next fun d => { d with prev := e.prev }

theorem delListenObj_eq (g : Globals) (le : Nat) : delListenObj g le =
    (unlinkListen g le).setListenPool ((unlinkListen g le).listenPool.free le) := rfl

theorem listenTable_unlinkListen (g : Globals) (le : Nat) :
    listenTable (unlinkListen g le) = (listenTable g).unlink (g.listen le).hash le := by
  unfold unlinkListen Table.unlink
  extract_lets e g₁ e' t'
  have h₁ : listenTable g₁ = t' := by
    have hprev : (listenTable g).prev le = (g.listen le).prev := rfl
    simp only [g₁, t', e, hprev]
    cases (g.listen le).prev with
    | none => rfl
    | some p => exact listenTable_setNext g p _
  rw [listenTable_setPrevAt, h₁, ← h₁]
  rfl

theorem bareListen_unlinkListen (g : Globals) (le : Nat) :
    bareListen (unlinkListen g le) = bareListen g := by
  unfold unlinkListen
  extract_lets e g₁ e'
  have h₁ : bareListen g₁ = bareListen g := by
    simp only [g₁]
    split
    · exact bareListen_setListen g _ fun _ => rfl
    · rfl
  exact (bareListen_setPrevAt _ _ _).trans h₁

theorem listenPool_unlinkListen (g : Globals) (le : Nat) :
    (unlinkListen g le).listenPool = g.listenPool := by
  unfold unlinkListen
  extract_lets e g₁ e'
  have hat : ∀ (g₀ : Globals) (p : Option Nat) (f : ListenEntry → ListenEntry),
      (g₀.setListenAt p f).listenPool = g₀.listenPool := by
    intro g₀ p f
    cases p <;> rfl
  rw [hat]
  simp only [g₁]
  split <;> rfl

theorem listenPool_linkListen (g : Globals) (le : Nat) :
    (linkListen g le).listenPool = g.listenPool := by
  unfold linkListen
  extract_lets hash first g₁ g₂
  show g₂.listenPool = _
  simp only [g₂]
  cases first <;> rfl

/-! ## What keeps the buckets exact -/

/-- The pool's new block may hold anything. -/
theorem Filed.setListen_dead (h : Filed g rows) (hle : le ∉ g.listenPool.live)
    (f : ListenEntry → ListenEntry) : Filed (g.setListen le f) rows := by
  have hlisten : ∀ l ∈ g.listenPool.live, (g.setListen le f).listen l = g.listen l := by
    intro l hl
    rw [listen_setListen, if_neg (ne_of_mem_of_not_mem hl hle)]
  refine ⟨?_, h.nodup⟩
  apply h.table.congr
  · rfl
  · exact fun l hl => congrArg ListenEntry.next (hlisten l hl)
  · exact fun l hl => congrArg ListenEntry.prev (hlisten l hl)
  · exact fun _ => Iff.rfl
  · exact fun l hl => congrArg ListenEntry.hash (hlisten l hl)

/-- An entry goes from its bucket to the pool. -/
theorem Filed.delListenObj (h : Filed g rows) (hle : le ∈ g.listenPool.live) :
    Filed (delListenObj g le) fun i => (rows i).filter (· ≠ le) := by
  have hfree : ((unlinkListen g le).listenPool.free le).live = g.listenPool.live.erase le := by
    rw [listenPool_unlinkListen, free_live hle]
  rw [delListenObj_eq]
  constructor
  · have ht := h.table.unlink hle
    rw [← listenTable_unlinkListen] at ht
    apply ht.congr
    · rfl
    · exact fun _ _ => rfl
    · exact fun _ _ => rfl
    · intro l
      show l ∈ ((unlinkListen g le).listenPool.free le).live ↔ _
      rw [hfree, h.nodup.mem_erase_iff]
      exact and_comm
    · exact fun l _ => hash_of_bareListen (bareListen_unlinkListen g le) l
  · show ((unlinkListen g le).listenPool.free le).live.Nodup
    rw [hfree]
    exact h.nodup.erase le

/-- A new entry, which links back to none, goes to the bucket of its port. -/
theorem Filed.linkListen (h : Filed g rows) (hle : le ∉ g.listenPool.live)
    (ht : listenTable g' = listenTable g) (hb : ∀ l, (g'.listen l).hash = (g.listen l).hash)
    (hprev : (g'.listen le).prev = none) (hl : g'.listenPool.live = le :: g.listenPool.live) :
    ∃ rows', Filed (linkListen g' le) rows' := by
  have hhead : (listenTable g).head (g.listen le).hash ≠ some le := by
    intro hf
    have hs := h.table.spans (g.listen le).hash
    rw [hf] at hs
    obtain ⟨as, has, -⟩ := spans_some_iff.mp hs
    exact hle ((h.table.mem _ le).mp (has ▸ List.mem_cons_self)).1
  have hpush := h.table.push hle fun _ _ => rfl
  rw [← Table.link_eq_push (ht ▸ hprev) hhead, ← ht, ← hb, ← listenTable_linkListen] at hpush
  refine ⟨_, Table.Exact.congr hpush rfl (fun _ _ => rfl) (fun _ _ => rfl) ?_ ?_, ?_⟩
  · intro l
    rw [listenPool_linkListen, hl, List.mem_cons]
  · exact fun l _ => (hash_of_bareListen (bareListen_linkListen g' le) l).trans (hb l)
  · rw [listenPool_linkListen, hl]
    exact List.nodup_cons.mpr ⟨hle, h.nodup⟩

/-- Both searches come to every entry of their bucket that is not freed. -/
theorem Filed.search (h : Filed g rows) {takes : ListenEntry → Bool} {n : Nat}
    (hn : g.listenPool.live.length ≤ n) (i : Nat) (htakes : ∀ e, takes e = true → e.hash = i) :
    findListen g takes n (g.listenHash i) =
      some (decide (∃ le ∈ g.listenPool.live, takes (g.listen le) = true)) := by
  have hlen : (rows i).length ≤ n := by
    refine Nat.le_trans (List.subperm_of_subset (h.table.nodup i) ?_).length_le hn
    exact fun le hle => ((h.table.mem i le).mp hle).1
  show findListen g takes n ((listenTable g).head i) = _
  rw [findListen_spec (h.table.spans i) hlen, Option.some.injEq, Bool.eq_iff_iff, List.any_eq_true,
    decide_eq_true_iff]
  refine exists_congr fun le => and_congr_left fun ht => ?_
  rw [h.table.mem, and_iff_left (htakes _ ht)]

end AdFilter.Tdi.ListenTable
