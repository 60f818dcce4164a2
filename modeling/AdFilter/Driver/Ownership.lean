import AdFilter.Driver.HostList
import Mathlib.Data.List.Perm.Lattice

/-!
# Who owns the blocks of the pool

`Owns` says that the lists are rings and that the live blocks of the pool are the entry
block and the name block of each of their cells, whatever the names hold. An entry that is
linked brings its two blocks, an entry that is unlinked takes them along.
-/

namespace AdFilter.Driver.Ownership

open AdFilter.Lib.Ring
open AdFilter.Lib.Pool
open AdFilter.Driver.HostList

def entryBlocks (name : Ptr → AnsiString) (cell : Ptr) : List Ptr := [cell, (name cell).buffer]

/-- The blocks of all entries of the three lists. -/
def ownedBlocks (name : Ptr → AnsiString) (cells : AdHost → List Ptr) : List Ptr :=
  [AdHost.sys, .user, .excpt].flatMap fun list => (cells list).flatMap (entryBlocks name)

structure Owns (a : Adf) (cells : AdHost → List Ptr) : Prop where
  ring : ∀ list, IsRing a.links (.head list) (cells list)
  live : (ownedBlocks a.name cells).Perm a.pool.live
  nodup : a.pool.live.Nodup
  fixed : a.pool.fixed = heads
  apart : ∀ list, Ptr.head list ∉ a.pool.live
  noBadFree : a.pool.badFree = false

/-! ## Blocks -/

section Blocks

variable {name name' : Ptr → AnsiString} {cells : AdHost → List Ptr}

theorem cell_mem (name : Ptr → AnsiString) (cell : Ptr) : cell ∈ entryBlocks name cell :=
  List.mem_cons_self

theorem buffer_mem (name : Ptr → AnsiString) (cell : Ptr) :
    (name cell).buffer ∈ entryBlocks name cell :=
  List.mem_cons_of_mem _ (List.mem_singleton_self _)

theorem mem_ownedBlocks {list : AdHost} {cell x : Ptr} (hc : cell ∈ cells list)
    (hx : x ∈ entryBlocks name cell) : x ∈ ownedBlocks name cells :=
  List.mem_flatMap.mpr ⟨list, by cases list <;> decide, List.mem_flatMap.mpr ⟨cell, hc, hx⟩⟩

/-- The blocks depend on the names of linked cells only. -/
theorem ownedBlocks_congr (h : ∀ list, ∀ c ∈ cells list, name' c = name c) :
    ownedBlocks name' cells = ownedBlocks name cells := by
  have hlist : ∀ list, (cells list).flatMap (entryBlocks name') =
      (cells list).flatMap (entryBlocks name) := by
    intro list
    refine List.flatMap_congr fun c hc => ?_
    rw [entryBlocks, entryBlocks, h list c hc]
  simp only [ownedBlocks, hlist]

theorem length_flatMap_entryBlocks (name : Ptr → AnsiString) (cs : List Ptr) :
    (cs.flatMap (entryBlocks name)).length = 2 * cs.length := by
  induction cs with
  | nil => rfl
  | cons c cs ih =>
    simp only [List.flatMap_cons, List.length_append, ih, List.length_cons, entryBlocks,
      List.length_nil]
    omega

theorem length_le_ownedBlocks (name : Ptr → AnsiString) (cells : AdHost → List Ptr)
    (list : AdHost) : (cells list).length ≤ (ownedBlocks name cells).length := by
  simp only [ownedBlocks, List.flatMap_cons, List.flatMap_nil, List.length_append,
    length_flatMap_entryBlocks, List.length_nil]
  cases list <;> omega

theorem count_ownedBlocks_update (name : Ptr → AnsiString) (cells : AdHost → List Ptr)
    (list : AdHost) (cs : List Ptr) (x : Ptr) :
    (ownedBlocks name (Function.update cells list cs)).count x +
        ((cells list).flatMap (entryBlocks name)).count x =
      (ownedBlocks name cells).count x + (cs.flatMap (entryBlocks name)).count x := by
  cases list <;> simp [ownedBlocks, Function.update_apply, List.count_append] <;> omega

/-- An entry more on a list is its two blocks more. -/
theorem ownedBlocks_insert (name : Ptr → AnsiString) (cells : AdHost → List Ptr) (cell : Ptr)
    {list : AdHost} {cs ds : List Ptr} (h : cells list = cs ++ ds) :
    (ownedBlocks name (Function.update cells list (cs ++ cell :: ds))).Perm
      ((name cell).buffer :: cell :: ownedBlocks name cells) := by
  refine List.perm_iff_count.mpr fun x => ?_
  have hu := count_ownedBlocks_update name cells list (cs ++ cell :: ds) x
  simp only [h, List.flatMap_append, List.flatMap_cons, List.count_append, entryBlocks,
    List.count_cons, List.count_nil] at hu ⊢
  omega

end Blocks

/-! ## The invariant -/

section Invariant

variable {a : Adf} {cells : AdHost → List Ptr}

theorem Owns.live_of_mem (ho : Owns a cells) {list : AdHost} {cell x : Ptr}
    (hc : cell ∈ cells list) (hx : x ∈ entryBlocks a.name cell) : x ∈ a.pool.live :=
  ho.live.subset (mem_ownedBlocks hc hx)

theorem Owns.cell_live (ho : Owns a cells) {list : AdHost} {cell : Ptr} (hc : cell ∈ cells list) :
    cell ∈ a.pool.live :=
  ho.live_of_mem hc (cell_mem a.name cell)

/-- The cells of two lists have nothing in common. -/
theorem Owns.disjoint (ho : Owns a cells) {list list' : AdHost} (hne : list ≠ list') :
    List.Disjoint (.head list :: cells list) (.head list' :: cells list') := by
  have hapart : ∀ l l' : AdHost, Ptr.head l ∉ cells l' := fun l l' hc =>
    ho.apart l (ho.cell_live hc)
  have hblocks : ∀ l : AdHost, ∀ c ∈ cells l, c ∈ (cells l).flatMap (entryBlocks a.name) :=
    fun l c hc => List.mem_flatMap.mpr ⟨c, hc, cell_mem a.name c⟩
  have hd : List.Disjoint ((cells list).flatMap (entryBlocks a.name))
      ((cells list').flatMap (entryBlocks a.name)) := by
    have hp := (List.nodup_flatMap.mp (ho.live.nodup_iff.mpr ho.nodup)).2
    have hs : Std.Symm (Function.onFun List.Disjoint fun l =>
        (cells l).flatMap (entryBlocks a.name)) := ⟨fun _ _ h => h.symm⟩
    exact hp.forall (by cases list <;> decide) (by cases list' <;> decide) hne
  intro x hx hx'
  rcases List.mem_cons.mp hx with rfl | hx
  · rcases List.mem_cons.mp hx' with hq | hx'
    · exact hne (by simpa using hq)
    · exact hapart _ _ hx'
  · rcases List.mem_cons.mp hx' with rfl | hx'
    · exact hapart _ _ hx
    · exact hd (hblocks _ x hx) (hblocks _ x hx')

theorem Owns.length_lt_budget (ho : Owns a cells) (list : AdHost) :
    (cells list).length < budget a := by
  have h := length_le_ownedBlocks a.name cells list
  have hl := ho.live.length_eq
  rw [budget]
  omega

theorem Owns.head_fixed (ho : Owns a cells) (list : AdHost) : Ptr.head list ∈ a.pool.fixed := by
  rw [ho.fixed]
  cases list <;> decide

/-- Only the number of requests made so far changes. -/
theorem Owns.calls (ho : Owns a cells) (n : Nat) :
    Owns { a with pool := { a.pool with calls := n } } cells := { ho with }

theorem Owns.paused (ho : Owns a cells) (v : BitVec 32) : Owns { a with paused := v } cells :=
  { ho with }

/-- Initialized heads are empty lists. -/
theorem owns_initLists (hf : a.pool.fixed = heads) (hl : a.pool.live = [])
    (hb : a.pool.badFree = false) : Owns (initLists a) fun _ => [] where
  ring list := by
    cases list with
    | sys =>
      exact ((isRing_initHead _ _).initHead_of_notMem (by decide)).initHead_of_notMem (by decide)
    | user => exact (isRing_initHead _ _).initHead_of_notMem (by decide)
    | excpt => exact isRing_initHead _ _
  live := by
    rw [show (initLists a).pool.live = [] from hl]
    rfl
  nodup := by
    rw [show (initLists a).pool.live = [] from hl]
    exact List.nodup_nil
  fixed := hf
  apart list := by
    rw [show (initLists a).pool.live = [] from hl]
    exact List.not_mem_nil
  noBadFree := hb

/-- Nothing is live when no entry is linked. -/
theorem Owns.live_nil (ho : Owns a cells) (h : ∀ list, cells list = []) : a.pool.live = [] := by
  have hl := ho.live
  simp only [ownedBlocks, h, List.flatMap_nil, List.flatMap_cons, List.append_nil] at hl
  exact hl.nil_eq.symm

/-- An entry of two new blocks at the end of a list. -/
theorem Owns.insert (ho : Owns a cells) (list : AdHost) {c b : Ptr} (hcf : c ∉ a.pool.fixed)
    (hcl : c ∉ a.pool.live) (hbf : b ∉ a.pool.fixed) (hbl : b ∉ c :: a.pool.live) (n : Nat)
    (text : Ptr → List UInt8) {s : AnsiString} (hs : s.buffer = b) :
    Owns { a with
      pool := { a.pool with calls := n, live := b :: c :: a.pool.live }
      text := text
      name := Function.update a.name c s
      links := insertTail a.links (.head list) c }
      (Function.update cells list (cells list ++ [c])) := by
  have hcell : ∀ l, c ∉ .head l :: cells l := by
    intro l hm
    rcases List.mem_cons.mp hm with rfl | hm
    · exact hcf (ho.head_fixed l)
    · exact hcl (ho.cell_live hm)
  refine ⟨?_, ?_, ?_, ho.fixed, ?_, ho.noBadFree⟩
  · intro l
    by_cases hl : l = list
    · subst hl
      rw [Function.update_self]
      exact (ho.ring l).insertTail (hcell l)
    · rw [Function.update_of_ne hl]
      exact (ho.ring list).insertTail_of_notMem (ho.ring l) (hcell l) (ho.disjoint (Ne.symm hl))
  · have hp := ownedBlocks_insert (Function.update a.name c s) cells c
      (List.append_nil (cells list)).symm
    have hold : ownedBlocks (Function.update a.name c s) cells = ownedBlocks a.name cells := by
      refine ownedBlocks_congr fun l x hx => ?_
      have hne : x ≠ c := fun hq => hcell l (List.mem_cons_of_mem _ (hq ▸ hx))
      rw [Function.update_of_ne hne]
    rw [Function.update_self, hs, hold] at hp
    exact hp.trans ((ho.live.cons c).cons b)
  · exact List.nodup_cons.mpr ⟨hbl, List.nodup_cons.mpr ⟨hcl, ho.nodup⟩⟩
  · intro l hm
    rcases List.mem_cons.mp hm with rfl | hm
    · exact hbf (ho.head_fixed l)
    · rcases List.mem_cons.mp hm with rfl | hm
      · exact hcf (ho.head_fixed l)
      · exact ho.apart l hm

/-- Unlinking an entry and freeing its two blocks removes just that entry. -/
theorem Owns.unlink (ho : Owns a cells) {list : AdHost} {cs ds : List Ptr} {c : Ptr}
    (h : cells list = cs ++ c :: ds) :
    Owns { a with
      links := remove a.links c
      pool := (a.pool.free (a.name c).buffer).free c }
      (Function.update cells list (cs ++ ds)) := by
  have hc : c ∈ cells list := by simp [h]
  have hp : a.pool.live.Perm
      ((a.name c).buffer :: c :: ownedBlocks a.name (Function.update cells list (cs ++ ds))) := by
    have hi := ownedBlocks_insert a.name (Function.update cells list (cs ++ ds)) c
      (Function.update_self list (cs ++ ds) cells)
    rw [Function.update_idem, ← h, Function.update_eq_self] at hi
    exact ho.live.symm.trans hi
  have hlive : (a.pool.live.erase (a.name c).buffer).Perm
      (c :: ownedBlocks a.name (Function.update cells list (cs ++ ds))) := by
    have h₀ := hp.erase (a.name c).buffer
    rwa [List.erase_cons_head] at h₀
  have hlive' : ((a.pool.live.erase (a.name c).buffer).erase c).Perm
      (ownedBlocks a.name (Function.update cells list (cs ++ ds))) := by
    have h₀ := hlive.erase c
    rwa [List.erase_cons_head] at h₀
  have hfree : (a.pool.free (a.name c).buffer).free c =
      { a.pool with live := (a.pool.live.erase (a.name c).buffer).erase c } := by
    rw [free_live (ho.live_of_mem hc (buffer_mem a.name c)), free_live]
    exact hlive.symm.subset List.mem_cons_self
  have hsub : ∀ x, x ∈ (a.pool.live.erase (a.name c).buffer).erase c → x ∈ a.pool.live :=
    fun x hx => List.mem_of_mem_erase (List.mem_of_mem_erase hx)
  rw [hfree]
  refine ⟨?_, hlive'.symm, (ho.nodup.erase _).erase _, ho.fixed,
    fun l hm => ho.apart l (hsub _ hm), ho.noBadFree⟩
  intro l
  by_cases hl : l = list
  · subst hl
    rw [Function.update_self]
    exact (h ▸ ho.ring l).remove
  · rw [Function.update_of_ne hl]
    exact (ho.ring list).remove_of_notMem (ho.ring l) hc (ho.disjoint (Ne.symm hl))

end Invariant

/-! ## The operations of the lists -/

section Operations

variable {a : Adf} {cells : AdHost → List Ptr}

/-- Whatever the string is, a deletion comes back, and it takes out one cell at most. -/
theorem Owns.removeHostList (ho : Owns a cells) (list : AdHost) (dst : Mem) (len : Nat) :
    ∃ found a', removeHostList a (.head list) dst len = some (found, a') ∧
      ((found = false ∧ a' = a) ∨ ∃ cs c ds, found = true ∧ cells list = cs ++ c :: ds ∧
        Owns a' (Function.update cells list (cs ++ ds))) := by
  have hwalk := (ho.ring list).searchBack (fun h => some (isSameHost a h dst len))
    (ho.length_lt_budget list)
  have hfind : ((cells list).reverse.map id).findM? (fun h => some (isSameHost a h dst len)) =
      some (((cells list).reverse.find? fun h => isSameHost a h dst len).map id) :=
    findM?_map_some id _ _ fun _ _ => rfl
  rw [List.map_id, Option.map_id, id] at hfind
  rw [HostList.removeHostList, hwalk, hfind]
  cases hf : (cells list).reverse.find? fun h => isSameHost a h dst len with
  | none => exact ⟨false, a, rfl, Or.inl ⟨rfl, rfl⟩⟩
  | some c =>
    obtain ⟨cs, ds, hs⟩ := List.append_of_mem (List.mem_reverse.mp (List.mem_of_find?_eq_some hf))
    exact ⟨true, _, rfl, Or.inr ⟨cs, c, ds, rfl, hs, ho.unlink hs⟩⟩

/-- The loop of `clearHostList` frees the entries of its list, the last one first. -/
theorem Owns.clearFrom (list : AdHost) (cs : List Ptr) : ∀ {a : Adf} {cells : AdHost → List Ptr}
    (n : Nat), Owns a cells → cells list = cs → cs.length < n →
    ∃ a', clearFrom (.head list) n (removeTail a.links (.head list)).1
        { a with links := (removeTail a.links (.head list)).2 } = some a' ∧
      Owns a' (Function.update cells list []) := by
  induction cs using List.reverseRecOn with
  | nil =>
    intro a cells n ho hc hn
    obtain ⟨m, rfl⟩ := Nat.exists_eq_add_one.mpr hn
    have hring := ho.ring list
    rw [hc] at hring
    refine ⟨a, by rw [hring.removeTail_nil]; simp [HostList.clearFrom], ?_⟩
    rwa [← hc, Function.update_eq_self]
  | append_singleton cs c ih =>
    intro a cells n ho hc hn
    obtain ⟨m, rfl⟩ := Nat.exists_eq_add_one.mpr (Nat.lt_of_le_of_lt (Nat.zero_le _) hn)
    have hring := ho.ring list
    rw [hc] at hring
    have hne : c ≠ .head list := fun hq => hring.head_notMem (by simp [hq])
    -- the round frees the two blocks of the entry that the round before has unlinked
    have hround := ho.unlink hc
    rw [List.append_nil] at hround
    obtain ⟨a', ha', ho'⟩ := ih m hround (Function.update_self ..) (by
      rw [List.length_append, List.length_singleton] at hn
      omega)
    rw [Function.update_idem] at ho'
    refine ⟨a', ?_, ho'⟩
    rw [hring.removeTail, HostList.clearFrom, if_neg hne]
    exact ha'

/-- `clearHostList` comes to an end and leaves its list empty, the others as they are. -/
theorem Owns.clearHostList (ho : Owns a cells) (list : AdHost) :
    ∃ a', clearHostList a (.head list) = some a' ∧ Owns a' (Function.update cells list []) :=
  Owns.clearFrom list (cells list) (budget a) ho rfl (ho.length_lt_budget list)

end Operations

end AdFilter.Driver.Ownership
