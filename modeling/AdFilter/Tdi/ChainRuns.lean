import AdFilter.Lib.Holdings
import AdFilter.Lib.Queues
import AdFilter.Tdi.Machine
import AdFilter.Tdi.Requests

/-!
# Runs of the control device

The chains over any sequence of requests, with other parts of the driver at work on the
same pool in between: the tables stand for the policy that the requests have come to, and
every block of the pool has one owner all along.
-/

namespace AdFilter.Tdi.ChainRuns

open AdFilter.Nt
open AdFilter.Lib.Holdings
open AdFilter.Lib.Linked
open AdFilter.Lib.Pool
open AdFilter.Lib.Queues
open AdFilter.Lib.Runs
open AdFilter.Tdi.LogQueue (Platform freePointer)
open AdFilter.Tdi.Machine (numbered)
open AdFilter.Tdi.Requests
open AdFilter.Tdi.RuleChains

/-! ## The tables represent a policy -/

/-- Who may have a block: the rules of a chain, its name, the buffer of SIDs, other parts. -/
inductive Owner
  | rules (chain : Nat)
  | name (chain : Nat)
  | sids
  | others
deriving DecidableEq

/-- What the blocks of an owner hold. -/
def texts (b : Policy) : Owner → List (List UInt8)
  | .rules i => (b.chain i).rules
  | .name i => (b.chain i).pname.toList
  | .sids => b.sids.toList
  | .others => []

structure Stored (pool : Ledger Nat) (data : Nat → List UInt8) (own : Owner → List Nat)
    (texts : Owner → List (List UInt8)) : Prop where
  accounted : Accounted own pool.live
  clean : pool.badFree = false
  holds : ∀ o, o ≠ .others → (own o).map data = texts o

structure Represents (w : World) (own : Owner → List Nat) (b : Policy) : Prop where
  stored : Stored w.tables.pool w.tables.data own (texts b)
  rules : ∀ i, Tailed w.tables.next (w.tables.chain i).head (w.tables.chain i).tail (own (.rules i))
  name : ∀ i, (w.tables.chain i).pname.toList = own (.name i)
  sids : w.tables.sidsBuf.toList = own .sids
  others : w.held = own .others
  active : ∀ i, (w.tables.chain i).active = (b.chain i).active
  sidsList : w.tables.sidsList = b.sidsList

/-- The world is in the state of the policy. -/
def Abstracts (w : World) (b : Policy) : Prop := ∃ own, Represents w own b

section Blocks

variable {pool : Ledger Nat} {data data' : Nat → List UInt8} {own : Owner → List Nat}
  {texts g : Owner → List (List UInt8)} {a : Nat} {o : Owner}

theorem Stored.calls (h : Stored pool data own texts) (n : Nat) :
    Stored { pool with calls := n } data own texts := ⟨h.accounted, h.clean, h.holds⟩

theorem Stored.notMem (h : Stored pool data own texts) (ha : a ∉ pool.live) (o : Owner) :
    a ∉ own o := fun hm => ha (h.accounted.valid o a hm)

theorem map_update_of_notMem {as : List Nat} (ha : a ∉ as) (text : List UInt8) :
    as.map (Function.update data a text) = as.map data :=
  List.map_congr_left fun _ hb => Function.update_of_ne (ne_of_mem_of_not_mem hb ha) _ _

/-- An owner gets a fresh block. -/
theorem Stored.take (h : Stored pool data own texts) (ha : a ∉ pool.live) (n : Nat)
    (text : List UInt8) {blocks : List Nat} (hp : blocks.Perm (a :: own o))
    (ht : ∀ o', o' ≠ o → g o' = texts o')
    (ho : o ≠ .others → blocks.map (Function.update data a text) = g o) :
    Stored { pool with calls := n, live := a :: pool.live } (Function.update data a text)
      (Function.update own o blocks) g where
  accounted := by
    refine (h.accounted.take o ha).perm fun i => ?_
    rcases eq_or_ne i o with rfl | hne
    · rwa [Function.update_self, Function.update_self]
    · rw [Function.update_of_ne hne, Function.update_of_ne hne]
  clean := h.clean
  holds i hi := by
    rcases eq_or_ne i o with rfl | hne
    · rw [Function.update_self]
      exact ho hi
    · rw [Function.update_of_ne hne, map_update_of_notMem (h.notMem ha i), h.holds i hi, ht i hne]

/-- An owner gives all its blocks back. -/
theorem Stored.release (h : Stored pool data own texts) (o : Owner)
    (ht : ∀ o', o' ≠ o → g o' = texts o') (ho : g o = []) :
    Stored (pool.freeAll (own o)) data (Function.update own o []) g := by
  have hf : pool.freeAll (own o) = { pool with live := pool.live.diff (own o) } :=
    freeAll_live (h.accounted.once o) (h.accounted.valid o)
  rw [hf]
  refine ⟨h.accounted.release_all o, h.clean, fun i hi => ?_⟩
  rcases eq_or_ne i o with rfl | hne
  · rw [Function.update_self, ho]
    rfl
  · rw [Function.update_of_ne hne, h.holds i hi, ht i hne]

theorem freePointer_eq (pool : Ledger Nat) (q : Option Nat) :
    freePointer pool q = pool.freeAll q.toList := by
  cases q <;> rfl

end Blocks

section Commands

variable {pl : Platform} {p : Allocator Nat} {w : World} {own : Owner → List Nat} {b : Policy}
  {t : Tables}

theorem chainIndex_eq (chain : Int) : chainIndex chain =
    if 0 ≤ chain ∧ chain < maxChainsCount then some chain.toNat else none := by
  unfold chainIndex
  by_cases h : 0 ≤ chain ∧ chain < maxChainsCount
  · rw [if_pos h, if_neg (by omega)]
  · rw [if_neg h, if_pos (by omega)]

theorem texts_setChain_of_ne (b : Policy) (i : Nat) (c : Ruleset) {o : Owner} (hr : o ≠ .rules i)
    (hn : o ≠ .name i) : texts (b.setChain i c) o = texts b o := by
  cases o with
  | rules j =>
    have hj : j ≠ i := fun he => hr (he ▸ rfl)
    simp [texts, Policy.setChain, hj]
  | name j =>
    have hj : j ≠ i := fun he => hn (he ▸ rfl)
    simp [texts, Policy.setChain, hj]
  | sids => rfl
  | others => rfl

theorem texts_setChain_rules (b : Policy) (i : Nat) (c : Ruleset) :
    texts (b.setChain i c) (.rules i) = c.rules := by
  simp [texts, Policy.setChain]

theorem texts_setChain_name (b : Policy) (i : Nat) (c : Ruleset) :
    texts (b.setChain i c) (.name i) = c.pname.toList := by
  simp [texts, Policy.setChain]

/-- What holds of the new chain and of all others holds of every chain. -/
theorem forall_setChain {P : Nat → FltChain → Prop} {i : Nat} {f : FltChain → FltChain}
    (hi : P i (f (t.chain i))) (hne : ∀ j, j ≠ i → P j (t.chain j)) (j : Nat) :
    P j ((t.setChain i f).chain j) := by
  rcases eq_or_ne j i with rfl | h
  · simpa [Tables.setChain] using hi
  · simpa [Tables.setChain, h] using hne j h

theorem active_setChain (h : ∀ i, (t.chain i).active = (b.chain i).active) {i : Nat}
    {f : FltChain → FltChain} {c : Ruleset} (hc : (f (t.chain i)).active = c.active) :
    ∀ j, ((t.setChain i f).chain j).active = ((b.setChain i c).chain j).active := by
  refine forall_setChain (P := fun j d => d.active = ((b.setChain i c).chain j).active) ?_ ?_
  · simpa [Policy.setChain] using hc
  · intro j hne
    simpa [Policy.setChain, hne] using h j

theorem rules_ne {i j : Nat} (h : j ≠ i) : Owner.rules j ≠ .rules i :=
  fun he => h (Owner.rules.inj he)

theorem name_ne {i j : Nat} (h : j ≠ i) : Owner.name j ≠ .name i := fun he => h (Owner.name.inj he)

theorem Represents.calls (h : Represents w own b) (n : Nat) :
    Represents { w with tables := { w.tables with pool := { w.tables.pool with calls := n } } }
      own b :=
  ⟨h.stored.calls n, h.rules, h.name, h.sids, h.others, h.active, h.sidsList⟩

/-- A rule goes to the end of its chain. -/
theorem Represents.append (h : Represents w own b) {a : Nat} (ha : a ∉ w.tables.pool.live)
    (i n : Nat) (rule : List UInt8) {next' : Nat → Option Nat} {f : FltChain → FltChain}
    (hname : (f (w.tables.chain i)).pname = (w.tables.chain i).pname)
    (hactive : (f (w.tables.chain i)).active = (w.tables.chain i).active)
    (hrow : Tailed next' (f (w.tables.chain i)).head (f (w.tables.chain i)).tail
      (own (.rules i) ++ [a]))
    (hnext : ∀ c, c ≠ a → c ∉ own (.rules i) → next' c = w.tables.next c) :
    Represents { w with tables := { w.tables with
        pool := { w.tables.pool with calls := n, live := a :: w.tables.pool.live }
        data := Function.update w.tables.data a rule
        next := next' }.setChain i f }
      (Function.update own (.rules i) (own (.rules i) ++ [a]))
      (b.setChain i { b.chain i with rules := (b.chain i).rules ++ [rule] }) where
  stored := by
    refine h.stored.take ha n rule (List.perm_append_singleton a _) (fun o hne => ?_) fun _ => ?_
    · rcases eq_or_ne o (.name i) with rfl | hn
      · exact texts_setChain_name b i _
      · exact texts_setChain_of_ne b i _ hne hn
    · rw [texts_setChain_rules, List.map_append, map_update_of_notMem (h.stored.notMem ha _),
        h.stored.holds _ Owner.noConfusion]
      simp [texts]
  rules := by
    refine forall_setChain (t := w.tables) (f := f) (P := fun j c => Tailed next' c.head c.tail
      (Function.update own (.rules i) (own (.rules i) ++ [a]) (.rules j))) ?_ fun j hne => ?_
    · rwa [Function.update_self]
    · rw [Function.update_of_ne (rules_ne hne)]
      refine (h.rules j).congr fun c hc => hnext c ?_ ?_
      · exact ne_of_mem_of_not_mem hc (h.stored.notMem ha _)
      · exact h.stored.accounted.apart _ _ (rules_ne hne) c hc
  name := by
    refine forall_setChain (t := w.tables) (f := f) (P := fun j c => c.pname.toList =
      Function.update own (.rules i) (own (.rules i) ++ [a]) (.name j)) ?_ fun j _ => ?_
    · rw [hname]
      exact h.name i
    · exact h.name j
  sids := h.sids
  others := h.others
  active := active_setChain (t := w.tables) h.active (hactive.trans (h.active i))
  sidsList := h.sidsList

/-- A chain gives back its rules and its name. -/
theorem Represents.clear (h : Represents w own b) (i : Nat) :
    Represents { w with tables := { w.tables with
        pool := freePointer (w.tables.pool.freeAll (own (.rules i)))
          (w.tables.chain i).pname }.setChain i (fun _ => {}) }
      (Function.update (Function.update own (.rules i) []) (.name i) []) (b.setChain i {}) where
  stored := by
    have hrules := h.stored.release (.rules i) (g := Function.update (texts b) (.rules i) [])
      (fun o hne => Function.update_of_ne hne _ _) (Function.update_self _ _ _)
    have hname := hrules.release (.name i) (g := texts (b.setChain i {})) (fun o hne => ?_)
      (texts_setChain_name b i {})
    · rwa [Function.update_of_ne Owner.noConfusion, ← h.name i, ← freePointer_eq] at hname
    · rcases eq_or_ne o (.rules i) with rfl | hr
      · rw [texts_setChain_rules, Function.update_self]
      · rw [texts_setChain_of_ne b i _ hr hne, Function.update_of_ne hr]
  rules := by
    refine forall_setChain (t := w.tables) (f := fun _ => {}) (P := fun j c =>
      Tailed w.tables.next c.head c.tail (Function.update own (.rules i) [] (.rules j))) ?_
      fun j hne => ?_
    · rw [Function.update_self]
      exact tailed_nil _
    · rw [Function.update_of_ne (rules_ne hne)]
      exact h.rules j
  name := by
    refine forall_setChain (t := w.tables) (f := fun _ => {}) (P := fun j c => c.pname.toList =
      Function.update (Function.update own (.rules i) []) (.name i) [] (.name j)) ?_ fun j hne => ?_
    · rw [Function.update_self]
      rfl
    · rw [Function.update_of_ne (name_ne hne)]
      exact h.name j
  sids := h.sids
  others := h.others
  active := active_setChain (t := w.tables) (f := fun _ => {}) (c := {}) h.active rfl
  sidsList := h.sidsList

/-- The old name of a chain is given back. -/
theorem Represents.unname (h : Represents w own b) (i : Nat) :
    Represents
      ⟨{ w.tables with pool := freePointer w.tables.pool (w.tables.chain i).pname }.setChain i
        fun c => { c with pname := none }, w.held⟩
      (Function.update own (.name i) []) (b.setChain i { b.chain i with pname := none }) where
  stored := by
    have hname := h.stored.release (.name i)
      (g := texts (b.setChain i { b.chain i with pname := none })) (fun o hne => ?_)
      (texts_setChain_name b i _)
    · rwa [← h.name i, ← freePointer_eq] at hname
    · rcases eq_or_ne o (.rules i) with rfl | hr
      · exact texts_setChain_rules b i _
      · exact texts_setChain_of_ne b i _ hr hne
  rules := forall_setChain (t := w.tables) (f := fun c => { c with pname := none })
    (P := fun j c => Tailed w.tables.next c.head c.tail (own (.rules j))) (h.rules i)
    fun j _ => h.rules j
  name := by
    refine forall_setChain (t := w.tables) (f := fun c => { c with pname := none })
      (P := fun j c => c.pname.toList = Function.update own (.name i) [] (.name j)) ?_
      fun j hne => ?_
    · rw [Function.update_self]
      rfl
    · rw [Function.update_of_ne (name_ne hne)]
      exact h.name j
  sids := h.sids
  others := h.others
  active := active_setChain (t := w.tables) (f := fun c => { c with pname := none })
    (c := { b.chain i with pname := none }) h.active (h.active i)
  sidsList := h.sidsList

/-- A chain without a name gets one. -/
theorem Represents.rename (h : Represents w own b) {a : Nat} (ha : a ∉ w.tables.pool.live)
    (i n : Nat) (pname : List UInt8) (hnone : (w.tables.chain i).pname = none) :
    Represents
      ⟨{ w.tables with
        pool := { w.tables.pool with calls := n, live := a :: w.tables.pool.live }
        data := Function.update w.tables.data a pname }.setChain i
        fun c => { c with pname := some a }, w.held⟩
      (Function.update own (.name i) [a])
      (b.setChain i { b.chain i with pname := some pname }) where
  stored := by
    have hown : own (.name i) = [] := by
      rw [← h.name i, hnone]
      rfl
    refine h.stored.take ha n pname (by rw [hown]) (fun o hne => ?_) fun _ => ?_
    · rcases eq_or_ne o (.rules i) with rfl | hr
      · exact texts_setChain_rules b i _
      · exact texts_setChain_of_ne b i _ hr hne
    · rw [texts_setChain_name]
      simp
  rules := forall_setChain (t := w.tables) (f := fun c => { c with pname := some a })
    (P := fun j c => Tailed w.tables.next c.head c.tail (own (.rules j))) (h.rules i)
    fun j _ => h.rules j
  name := by
    refine forall_setChain (t := w.tables) (f := fun c => { c with pname := some a })
      (P := fun j c => c.pname.toList = Function.update own (.name i) [a] (.name j)) ?_
      fun j hne => ?_
    · rw [Function.update_self]
      rfl
    · rw [Function.update_of_ne (name_ne hne)]
      exact h.name j
  sids := h.sids
  others := h.others
  active := active_setChain (t := w.tables) (f := fun c => { c with pname := some a })
    (c := { b.chain i with pname := some pname }) h.active (h.active i)
  sidsList := h.sidsList

/-- The name of a chain gives place to a new one. -/
theorem Represents.setName (h : Represents w own b) (i n : Nat) (pname : List UInt8) {a : Nat}
    (ha : a ∉ (freePointer w.tables.pool (w.tables.chain i).pname).live) :
    Represents
      ⟨{ w.tables with
        pool := { freePointer w.tables.pool (w.tables.chain i).pname with
          calls := n
          live := a :: (freePointer w.tables.pool (w.tables.chain i).pname).live }
        data := Function.update w.tables.data a pname }.setChain i
        fun c => { c with pname := some a }, w.held⟩
      (Function.update own (.name i) [a])
      (b.setChain i { b.chain i with pname := some pname }) := by
  have hname := (h.unname i).rename ha i n pname (by simp [Tables.setChain])
  simpa [Tables.setChain, Policy.setChain] using hname

theorem Represents.activate (h : Represents w own b) (i : Nat) :
    Represents { w with tables := w.tables.setChain i (fun c => { c with active := true }) } own
      (b.setChain i { b.chain i with active := true }) where
  stored := by
    refine ⟨h.stored.accounted, h.stored.clean, fun o ho => (h.stored.holds o ho).trans ?_⟩
    rcases eq_or_ne o (.rules i) with rfl | hr
    · exact (texts_setChain_rules b i { b.chain i with active := true }).symm
    · rcases eq_or_ne o (.name i) with rfl | hn
      · exact (texts_setChain_name b i { b.chain i with active := true }).symm
      · exact (texts_setChain_of_ne b i _ hr hn).symm
  rules := forall_setChain (t := w.tables) (f := fun c => { c with active := true })
    (P := fun j c => Tailed w.tables.next c.head c.tail (own (.rules j))) (h.rules i)
    fun j _ => h.rules j
  name := forall_setChain (t := w.tables) (f := fun c => { c with active := true })
    (P := fun j c => c.pname.toList = own (.name j)) (h.name i) fun j _ => h.name j
  sids := h.sids
  others := h.others
  active := active_setChain (t := w.tables) (f := fun c => { c with active := true })
    (c := { b.chain i with active := true }) h.active rfl
  sidsList := h.sidsList

/-- The buffer of SIDs is given back. -/
theorem Represents.unsetSids (h : Represents w own b) :
    Represents
      ⟨{ w.tables with
        pool := freePointer w.tables.pool w.tables.sidsBuf, sidsBuf := none, sidsList := [] },
        w.held⟩
      (Function.update own .sids []) { b with sids := none, sidsList := [] } where
  stored := by
    have hsids := h.stored.release .sids
      (g := texts { b with sids := none, sidsList := [] }) (fun o hne => ?_) rfl
    · rwa [← h.sids, ← freePointer_eq] at hsids
    · cases o with
      | sids => exact absurd rfl hne
      | _ => rfl
  rules := h.rules
  name := h.name
  sids := rfl
  others := h.others
  active := h.active
  sidsList := rfl

/-- A new buffer of SIDs takes the place of the old one. -/
theorem Represents.setSids (h : Represents w own b) (n : Nat) (buf : List UInt8) (list : List Nat)
    {a : Nat} (ha : a ∉ (freePointer w.tables.pool w.tables.sidsBuf).live) :
    Represents
      ⟨{ w.tables with
        pool := { freePointer w.tables.pool w.tables.sidsBuf with
          calls := n
          live := a :: (freePointer w.tables.pool w.tables.sidsBuf).live }
        data := Function.update w.tables.data a buf, sidsBuf := some a, sidsList := list }, w.held⟩
      (Function.update (Function.update own .sids []) .sids [a])
      { b with sids := some buf, sidsList := list } where
  stored := by
    refine h.unsetSids.stored.take ha n buf (by rw [Function.update_self]) (fun o hne => ?_)
      fun _ => ?_
    · cases o with
      | sids => exact absurd rfl hne
      | _ => rfl
    · rw [List.map_singleton, Function.update_self]
      rfl
  rules := h.rules
  name := h.name
  sids := rfl
  others := h.others
  active := h.active
  sidsList := rfl

theorem map_of_toList {α β : Type} {f : α → β} {q : Option α} {r : Option β}
    (h : q.toList.map f = r.toList) : q.map f = r := by
  cases q <;> cases r <;> simp_all

theorem Represents.pname (h : Represents w own b) (i : Nat) :
    (w.tables.chain i).pname.map w.tables.data = (b.chain i).pname := by
  have hh := h.stored.holds (.name i) Owner.noConfusion
  rw [← h.name i] at hh
  exact map_of_toList hh

/-! ## The commands -/

theorem freeRules_spans {q : Option Nat} {as : List Nat} (hs : Spans t.next q as) {n : Nat}
    (hn : as.length ≤ n) : freeRules n q t = some { t with pool := t.pool.freeAll as } := by
  induction as generalizing q n t with
  | nil =>
    obtain rfl := hs
    unfold freeRules
    rfl
  | cons a as ih =>
    obtain ⟨rfl, hrest⟩ := hs
    cases n with
    | zero => exact absurd hn (by simp)
    | succ n =>
      exact ih (t := { t with pool := t.pool.free a }) hrest (Nat.le_of_succ_le_succ hn)

theorem Represents.length_rules (h : Represents w own b) (i : Nat) :
    (own (.rules i)).length ≤ w.tables.pool.live.length :=
  (List.subperm_of_subset (h.stored.accounted.once (.rules i))
    (h.stored.accounted.valid (.rules i))).length_le

/-- The loop over a chain of live blocks ends. -/
theorem Represents.freeRules (h : Represents w own b) (i : Nat) :
    freeRules (w.tables.pool.live.length + 1) (w.tables.chain i).head w.tables =
      some { w.tables with pool := w.tables.pool.freeAll (own (.rules i)) } :=
  freeRules_spans (h.rules i).spans (Nat.le_succ_of_le (h.length_rules i))

/-- The fate of the next request to the pool. -/
def grantsNext (p : Allocator Nat) (w : World) : Bool := p.grants w.tables.pool.calls

/-- A command comes back with the answer of the machine, and the tables follow it. -/
def Follows (pl : Platform) (p : Allocator Nat) (w : World) (b : Policy) (c : Command) : Prop :=
  ∃ t, exec pl p w.tables c = some ((b.run pl (grantsNext p w) c).1, t) ∧
    Abstracts { w with tables := t } (b.run pl (grantsNext p w) c).2

theorem follows_append (h : Represents w own b) (chain : Int) (rule : List UInt8) :
    Follows pl p w b (.append chain rule) := by
  simp only [Follows, exec, addFltRule, Policy.run, Policy.onChain, chainIndex_eq]
  by_cases hin : 0 ≤ chain ∧ chain < maxChainsCount
  · simp only [if_pos hin]
    by_cases hg : grantsNext p w = true
    · rw [alloc_granted hg]
      have ha := pick_notMem_live p w.tables.pool
      have hrow := h.rules chain.toNat
      simp only [hg, if_true]
      cases htail : (w.tables.chain chain.toNat).tail with
      | none =>
        rw [htail] at hrow
        refine ⟨_, rfl, _, h.append ha chain.toNat _ rule
          (f := fun c => { c with head := some _, tail := some _ }) rfl rfl (hrow.start _)
          fun c hc _ => ?_⟩
        exact Function.update_of_ne hc _ _
      | some last =>
        rw [htail] at hrow
        refine ⟨_, rfl, _, h.append ha chain.toNat _ rule (f := fun c => { c with tail := some _ })
          rfl rfl (hrow.append (h.stored.notMem ha _)) fun c hc hmem => ?_⟩
        have hlast : c ≠ last := fun he => hmem (he ▸ hrow.last_mem)
        rw [Function.update_of_ne hlast, Function.update_of_ne hc]
    · rw [alloc_denied (Bool.eq_false_iff.mpr hg)]
      simp only [hg, if_false, Bool.false_eq_true]
      exact ⟨_, rfl, own, h.calls _⟩
  · simp only [if_neg hin]
    exact ⟨_, rfl, own, h⟩

theorem follows_clear (h : Represents w own b) (chain : Int) : Follows pl p w b (.clear chain) := by
  simp only [Follows, exec, clearFltChain, Policy.run, Policy.onChain, chainIndex_eq]
  by_cases hin : 0 ≤ chain ∧ chain < maxChainsCount
  · simp only [if_pos hin]
    rw [h.freeRules chain.toNat]
    exact ⟨_, rfl, _, h.clear chain.toNat⟩
  · simp only [if_neg hin]
    exact ⟨_, rfl, own, h⟩

theorem follows_name (h : Represents w own b) (chain : Int) (pname : List UInt8) :
    Follows pl p w b (.name chain pname) := by
  simp only [Follows, exec, setChainPname, Policy.run, Policy.onChain, chainIndex_eq]
  by_cases hin : 0 ≤ chain ∧ chain < maxChainsCount
  · simp only [if_pos hin]
    have hnext : p.grants (freePointer w.tables.pool (w.tables.chain chain.toNat).pname).calls =
        grantsNext p w := by
      rw [freePointer_eq, freeAll_calls, grantsNext]
    by_cases hg : grantsNext p w = true
    · rw [alloc_granted (hnext.trans hg)]
      simp only [hg, if_true]
      exact ⟨_, rfl, _, h.setName chain.toNat _ pname (pick_notMem_live p _)⟩
    · rw [alloc_denied (hnext.trans (Bool.eq_false_iff.mpr hg))]
      simp only [hg, if_false, Bool.false_eq_true]
      exact ⟨_, rfl, _, (h.unname chain.toNat).calls _⟩
  · simp only [if_neg hin]
    exact ⟨_, rfl, own, h⟩

theorem follows_activate (h : Represents w own b) (chain : Int) :
    Follows pl p w b (.activate chain) := by
  simp only [Follows, exec, activateFltChain, Policy.run, Policy.onChain, chainIndex_eq]
  by_cases hin : 0 ≤ chain ∧ chain < maxChainsCount
  · simp only [if_pos hin]
    exact ⟨_, rfl, own, h.activate chain.toNat⟩
  · simp only [if_neg hin]
    exact ⟨_, rfl, own, h⟩

theorem follows_pidName (h : Represents w own b) (pid : Nat) (pname : List UInt8) :
    Follows pl p w b (.pidName pid pname) := by
  refine ⟨w.tables, ?_, own, h⟩
  have hany : ∀ i, (w.tables.chain i).pname.any (fun a => sameName pname (w.tables.data a)) =
      (b.chain i).pname.any (sameName pname) := by
    intro i
    rw [← h.pname i, Option.any_map]
  simp only [exec, setPidPname, Policy.run, Policy.chainFor, hany]

theorem follows_sids (h : Represents w own b) (buf : List UInt8) :
    Follows pl p w b (.sids buf) := by
  have hlen : buf.length = 0 ↔ buf = [] := List.length_eq_zero_iff
  have hnext : p.grants (freePointer w.tables.pool w.tables.sidsBuf).calls = grantsNext p w := by
    rw [freePointer_eq, freeAll_calls, grantsNext]
  simp only [Follows, exec, setSidList, Policy.run, hlen]
  by_cases hb : buf = []
  · simp only [if_pos hb]
    exact ⟨_, rfl, _, h.unsetSids⟩
  · simp only [if_neg hb]
    by_cases hg : grantsNext p w = true
    · rw [alloc_granted (hnext.trans hg)]
      simp only [hg, if_true, List.take_length]
      exact ⟨_, rfl, _, h.setSids _ buf _ (pick_notMem_live p _)⟩
    · rw [alloc_denied (hnext.trans (Bool.eq_false_iff.mpr hg))]
      simp only [hg, if_false, Bool.false_eq_true]
      exact ⟨_, rfl, _, h.unsetSids.calls _⟩

theorem follows (h : Represents w own b) (c : Command) : Follows pl p w b c := by
  cases c with
  | append chain rule => exact follows_append h chain rule
  | clear chain => exact follows_clear h chain
  | name chain pname => exact follows_name h chain pname
  | pidName pid pname => exact follows_pidName h pid pname
  | activate chain => exact follows_activate h chain
  | sids buf => exact follows_sids h buf
  | none reply => exact ⟨w.tables, rfl, own, h⟩

end Commands

/-! ## Runs -/

/-- Only the chains that there are have rules, a name or the flag. -/
def Bounded (b : Policy) : Prop := ∀ i, maxChainsCount ≤ i → b.chain i = {}

/-- The relation between a world and the policy it has come to. -/
def InState (w : World) (b : Policy) : Prop := Abstracts w b ∧ Bounded b

section Runs

variable {pl : Platform} {p : Allocator Nat} {w : World} {own : Owner → List Nat} {b : Policy}

theorem Bounded.setChain (h : Bounded b) {i : Nat} (hi : i < maxChainsCount) (c : Ruleset) :
    Bounded (b.setChain i c) := by
  intro j hj
  have hne : j ≠ i := by omega
  simp only [Policy.setChain, Function.update_of_ne hne]
  exact h j hj

theorem Bounded.run (h : Bounded b) (granted : Bool) (c : Command) :
    Bounded (b.run pl granted c).2 :=
  run_keeps h (fun _ hi c => h.setChain hi c) (fun _ => h) granted c

theorem others_write (h : Represents w own b) {a : Nat} (ha : a ∈ w.held) (bytes : List UInt8)
    (link : Option Nat) :
    Represents { w with tables := { w.tables with
      data := Function.update w.tables.data a bytes
      next := Function.update w.tables.next a link } } own b where
  stored := by
    refine ⟨h.stored.accounted, h.stored.clean, fun o ho => ?_⟩
    have hno : a ∉ own o :=
      h.stored.accounted.apart .others o (Ne.symm ho) a (h.others ▸ ha)
    rw [map_update_of_notMem hno]
    exact h.stored.holds o ho
  rules i := by
    have hno : a ∉ own (.rules i) :=
      h.stored.accounted.apart .others _ Owner.noConfusion a (h.others ▸ ha)
    exact (h.rules i).congr fun c hc => Function.update_of_ne (ne_of_mem_of_not_mem hc hno) _ _
  name := h.name
  sids := h.sids
  others := h.others
  active := h.active
  sidsList := h.sidsList

theorem others_take (h : Represents w own b) {a : Nat} (ha : a ∉ w.tables.pool.live) (n : Nat) :
    Represents
      ⟨{ w.tables with pool := { w.tables.pool with calls := n, live := a :: w.tables.pool.live } },
        a :: w.held⟩
      (Function.update own .others (a :: own .others)) b where
  stored := by
    have ht := h.stored.take (o := .others) (g := texts b) ha n (w.tables.data a) (List.Perm.refl _)
      (fun _ _ => rfl) fun hne => absurd rfl hne
    rwa [Function.update_eq_self] at ht
  rules := h.rules
  name := h.name
  sids := h.sids
  others := congrArg (a :: ·) h.others
  active := h.active
  sidsList := h.sidsList

theorem others_giveBack (h : Represents w own b) {a : Nat} (ha : a ∈ w.held) :
    Represents ⟨{ w.tables with pool := w.tables.pool.free a }, w.held.erase a⟩
      (Function.update own .others ((own .others).erase a)) b where
  stored := by
    have hown : a ∈ own .others := h.others ▸ ha
    have hrel := h.stored.accounted.release .others (List.cons_subset.mpr ⟨hown, List.nil_subset _⟩)
    rw [List.diff_cons, List.diff_nil, List.diff_cons, List.diff_nil] at hrel
    rw [free_live (h.stored.accounted.valid .others a hown)]
    refine ⟨hrel, h.stored.clean, fun o ho => ?_⟩
    rw [Function.update_of_ne ho]
    exact h.stored.holds o ho
  rules := h.rules
  name := h.name
  sids := h.sids
  others := by rw [Function.update_self, ← h.others]
  active := h.active
  sidsList := h.sidsList

/-- The step lemma: every event is over, with the answer of the machine over policies. -/
theorem step_inState (h : InState w b) (e : Event) :
    ∃ w', step pl p w e = some (w', (b.step pl (labelOf pl p w e)).2) ∧
      InState w' (b.step pl (labelOf pl p w e)).1 := by
  obtain ⟨⟨own, hr⟩, hb⟩ := h
  cases e with
  | request r =>
    have hf : Follows pl p w b (commandOf pl r.code (inputOf r) r.size) := follows hr _
    obtain ⟨t, ht, ha⟩ := hf
    refine ⟨{ w with tables := t }, ?_, ha, hb.run _ _⟩
    rw [step, processRequest_eq, ht]
    rfl
  | take =>
    cases hg : p.grants w.tables.pool.calls with
    | false =>
      refine ⟨_, rfl, ⟨own, ?_⟩, hb⟩
      rw [alloc_denied hg]
      exact hr.calls _
    | true =>
      have ht := others_take hr (pick_notMem_live p w.tables.pool) (w.tables.pool.calls + 1)
      refine ⟨_, ?_, ⟨_, ht⟩, hb⟩
      rw [step, alloc_granted hg]
      rfl
  | write a bytes link =>
    unfold step
    by_cases ha : a ∈ w.held
    · exact ⟨_, if_pos ha, ⟨own, others_write hr ha bytes link⟩, hb⟩
    · exact ⟨_, if_neg ha, ⟨own, hr⟩, hb⟩
  | giveBack a =>
    unfold step
    by_cases ha : a ∈ w.held
    · exact ⟨_, if_pos ha, ⟨_, others_giveBack hr ha⟩, hb⟩
    · exact ⟨_, if_neg ha, ⟨own, hr⟩, hb⟩

/-- What `filter_init` leaves is the start of the machine. -/
theorem initial_inState (h : Initial p w) : InState w startup := by
  obtain ⟨tables, held⟩ := w
  obtain ⟨t, hbuf, hlist, hn, hc, hinit, hheld⟩ := h
  obtain rfl : held = t.pool.live := hheld
  -- before the first rule the pool is other parts' only
  have h₀ : Represents ⟨{ t with chain := fun _ => {} }, t.pool.live⟩
      (Function.update (fun _ => []) Owner.others t.pool.live) {} :=
    { stored := ⟨accounted_one Owner.others hn, hc, fun o ho => by
        rw [Function.update_of_ne ho]
        cases o <;> rfl⟩
      rules := fun _ => tailed_nil _
      name := fun _ => rfl
      sids := congrArg Option.toList hbuf
      others := rfl
      active := fun _ => rfl
      sidsList := hlist }
  simp only [rulesInit] at hinit
  by_cases hg : p.grants t.pool.calls = true
  · rw [alloc_granted hg] at hinit
    have ha := pick_notMem_live p t.pool
    have h₁ := (h₀.append ha 0 (t.pool.calls + 1) gAllowAll
      (f := fun c => { c with head := some _, tail := some _ }) rfl rfl
      ((tailed_nil t.next).start (p.pick (t.pool.fixed ++ t.pool.live)))
      fun c hc _ => Function.update_of_ne hc _ _).activate 0
    simp only [Tables.setChain, Policy.setChain, Function.update_self, Function.update_idem] at h₁
    obtain rfl := (Prod.mk.inj hinit).2
    refine ⟨⟨_, h₁⟩, fun i hi => ?_⟩
    have hne : i ≠ 0 := Nat.ne_of_gt (Nat.lt_of_lt_of_le (by decide : 0 < maxChainsCount) hi)
    simp [startup, hne]
  · rw [alloc_denied (Bool.eq_false_iff.mpr hg)] at hinit
    exact absurd (Prod.mk.inj hinit).1 (by decide)

/-- The policy that the requests of a run come to, and the answers on the way. -/
def policyRun (pl : Platform) (p : Allocator Nat) (w : World) (es : List Event) :
    Policy × List (Option Reply) :=
  runTotal (Policy.step pl) startup (labels (step pl p) (labelOf pl p) w es)

/-- The run lemma. -/
theorem run_inState (pl : Platform) (h : Initial p w) (es : List Event) :
    ∃ w', run (step pl p) w es = some (w', (policyRun pl p w es).2) ∧
      InState w' (policyRun pl p w es).1 := by
  have hm : Meets (step pl p) (fun _ _ => True) w es := meets_of_forall (fun _ _ => trivial) w es
  exact run_simulates InState (fun _ _ e hs _ => step_inState hs e) (initial_inState h) hm

/-! ## A run -/

/-- A pool with nothing in it. -/
def blankTables : Tables where
  chain := fun _ => {}
  sidsBuf := none
  sidsList := []
  next := fun _ => none
  data := fun _ => []
  pool := ⟨[], [], 0, false⟩

def started : World := ⟨(rulesInit numbered blankTables).2, []⟩

theorem initial_started : Initial numbered started :=
  ⟨blankTables, rfl, rfl, List.nodup_nil, rfl, rfl, rfl⟩

/-- A buffered request with some input and without room for output. -/
def inputRequest (code : Nat) (first : UInt8) (rest : List UInt8) : Control where
  code := code
  buf := some (first :: rest)
  len := rest.length + 1
  size := 0
  buffered _ := by simp
  room bytes h := by
    obtain rfl := Option.some.inj h
    exact Nat.le_refl _

/-- Chain 1 gets a rule and is for the process `ab`, and the process 7 says that its name is
`AB`. -/
def nameAndAsk : List Event :=
  [.request (inputRequest ioctlCmdAppendrule 1 (List.replicate 95 0)),
    .request (inputRequest ioctlCmdSetchainpname 1 [0, 0, 0, 97, 98, 0]),
    .take,
    .request (inputRequest ioctlCmdSetpname 7 [0, 0, 0, 65, 66, 0])]

theorem policyRun_nameAndAsk :
    (policyRun .x64 numbered started nameAndAsk).2 =
        [some (.status statusSuccess), some (.status statusSuccess), none,
          some (.pidPnameSet ⟨7, [65, 66], 1⟩)] ∧
      (policyRun .x64 numbered started nameAndAsk).1.chain 1 =
        { rules := [List.replicate 88 0], pname := some [97, 98] } := by
  decide +kernel

/-! ## What the tables show -/

/-- The rules of a chain from a cell on, as a search would come to them. -/
def rulesFrom (t : Tables) : Nat → Option Nat → Option (List (List UInt8))
  | _, none => some []
  | 0, some _ => none
  | n + 1, some rule => (rulesFrom t n (t.next rule)).map (t.data rule :: ·)

def rulesOf (t : Tables) (i : Nat) : Option (List (List UInt8)) :=
  rulesFrom t t.pool.live.length (t.chain i).head

/-- Whoever reads the tables sees the policy. -/
structure Shows (t : Tables) (b : Policy) : Prop where
  rules : ∀ i, rulesOf t i = some (b.chain i).rules
  pname : ∀ i, (t.chain i).pname.map t.data = (b.chain i).pname
  active : ∀ i, (t.chain i).active = (b.chain i).active
  sids : t.sidsBuf.map t.data = b.sids
  sidsList : t.sidsList = b.sidsList

theorem rulesFrom_spans {t : Tables} {q : Option Nat} {as : List Nat} (hs : Spans t.next q as)
    {n : Nat} (hn : as.length ≤ n) : rulesFrom t n q = some (as.map t.data) := by
  induction as generalizing q n with
  | nil =>
    obtain rfl := hs
    unfold rulesFrom
    rfl
  | cons a as ih =>
    obtain ⟨rfl, hrest⟩ := hs
    cases n with
    | zero => exact absurd hn (by simp)
    | succ n =>
      rw [rulesFrom, ih hrest (Nat.le_of_succ_le_succ hn)]
      rfl

theorem Represents.shows (h : Represents w own b) : Shows w.tables b where
  rules i := by
    rw [rulesOf, rulesFrom_spans (h.rules i).spans (h.length_rules i),
      h.stored.holds _ Owner.noConfusion]
    rfl
  pname := h.pname
  active := h.active
  sids := by
    have hh := h.stored.holds .sids Owner.noConfusion
    rw [← h.sids] at hh
    exact map_of_toList hh
  sidsList := h.sidsList

/-- Whatever the requests are and other parts do in between, every request is over, is
answered by the machine over policies, and the tables show the policy it has come to. -/
theorem run_shows (pl : Platform) (h : Initial p w) (es : List Event) :
    ∃ w', run (step pl p) w es = some (w', (policyRun pl p w es).2) ∧
      Shows w'.tables (policyRun pl p w es).1 := by
  obtain ⟨w', hrun, ⟨own, hr⟩, -⟩ := run_inState pl h es
  exact ⟨w', hrun, hr.shows⟩

theorem run_shows_started : ∃ w', run (step .x64 numbered) started nameAndAsk = some (w',
      [some (.status statusSuccess), some (.status statusSuccess), none,
        some (.pidPnameSet ⟨7, [65, 66], 1⟩)]) ∧
    rulesOf w'.tables 1 = some [List.replicate 88 0] := by
  obtain ⟨w', hrun, hshows⟩ := run_shows .x64 initial_started nameAndAsk
  obtain ⟨hanswers, hchain⟩ := policyRun_nameAndAsk
  refine ⟨w', hanswers ▸ hrun, ?_⟩
  rw [hshows.rules 1, hchain]

/-- `default_chain_only` says of the policy that its first chain is in use and no other one. -/
theorem Shows.defaultChainOnly_iff {t : Tables} (h : Shows t b) : defaultChainOnly t = true ↔
    ∀ i < maxChainsCount, ((b.chain i).active = true ↔ i = 0) := by
  simp only [defaultChainOnly, Bool.and_eq_true, List.all_eq_true, List.mem_range'_1, h.active,
    Bool.not_eq_true', maxChainsCount]
  constructor
  · rintro ⟨h0, hrest⟩ i hi
    rcases Nat.eq_zero_or_pos i with rfl | hpos
    · exact iff_of_true h0 rfl
    · rw [hrest i ⟨hpos, by omega⟩]
      exact iff_of_false Bool.noConfusion (by omega)
  · intro hall
    refine ⟨(hall 0 (by decide)).mpr rfl, fun i hi => ?_⟩
    rw [Bool.eq_false_iff]
    exact fun ha => absurd ((hall i (by omega)).mp ha) (by omega)

/-- What `default_chain_only` says after any run. -/
theorem run_defaultChainOnly (pl : Platform) (h : Initial p w) (es : List Event) :
    ∃ w', run (step pl p) w es = some (w', (policyRun pl p w es).2) ∧
      (defaultChainOnly w'.tables = true ↔
        ∀ i < maxChainsCount, (((policyRun pl p w es).1.chain i).active = true ↔ i = 0)) := by
  obtain ⟨w', hrun, ⟨own, hr⟩, -⟩ := run_inState pl h es
  exact ⟨w', hrun, hr.shows.defaultChainOnly_iff⟩

/-! ## The end -/

/-- A policy without rules, names and SIDs leaves the pool to other parts. -/
theorem Represents.perm_held (h : Represents w own b) (hb : ∀ i, b.chain i = {})
    (hs : b.sids = none) : w.tables.pool.live.Perm w.held := by
  have hnil : ∀ o, o ≠ .others → own o = [] := by
    intro o ho
    have hh := h.stored.holds o ho
    cases o with
    | rules i => simpa [texts, hb i] using hh
    | name i => simpa [texts, hb i] using hh
    | sids => simpa [texts, hs] using hh
    | others => exact absurd rfl ho
  have hacc := h.stored.accounted
  have hnodup : w.held.Nodup := h.others ▸ hacc.once .others
  refine (List.perm_ext_iff_of_nodup hacc.distinct hnodup).mpr fun a => ⟨fun ha => ?_, fun ha => ?_⟩
  · obtain ⟨o, hmem⟩ := hacc.covers a ha
    by_cases ho : o = .others
    · rwa [h.others, ← ho]
    · rw [hnil o ho] at hmem
      exact absurd hmem List.not_mem_nil
  · exact hacc.valid .others a (h.others ▸ ha)

/-- The loop of `filter_free` over the chains. -/
theorem clear_chains (p : Allocator Nat) (h : InState w b) {is : List Nat}
    (hi : ∀ i ∈ is, i < maxChainsCount) :
    ∃ t b', is.foldlM (fun t i => (clearFltChain t (i : Nat)).map Prod.snd) w.tables = some t ∧
      InState ⟨t, w.held⟩ b' ∧ ∀ i, i ∈ is ∨ b.chain i = {} → b'.chain i = {} := by
  induction is generalizing w b with
  | nil => exact ⟨w.tables, b, rfl, h, fun i hi => hi.resolve_left List.not_mem_nil⟩
  | cons i is ih =>
    obtain ⟨⟨own, hr⟩, hbound⟩ := h
    have hf : Follows .x64 p w b (.clear (i : Nat)) := follows_clear hr _
    obtain ⟨t, ht, habs⟩ := hf
    have hin : (0 : Int) ≤ i ∧ (i : Int) < maxChainsCount := by
      have := hi i List.mem_cons_self
      omega
    have hrun : ∀ granted, (b.run .x64 granted (.clear (i : Nat))).2 = b.setChain i {} := by
      intro granted
      simp only [Policy.run, Policy.onChain, if_pos hin, Int.toNat_natCast]
    rw [hrun] at habs
    obtain ⟨a, ha, hat⟩ := Option.map_eq_some_iff.mp ht
    obtain rfl : a.2 = t := congrArg Prod.snd hat
    obtain ⟨t', b', hfold, hstate, hall⟩ := ih (w := ⟨a.2, w.held⟩)
      ⟨habs, hbound.setChain (hi i List.mem_cons_self) {}⟩
      fun j hj => hi j (List.mem_cons_of_mem i hj)
    refine ⟨t', b', ?_, hstate, fun j hj => hall j ?_⟩
    · rw [List.foldlM_cons, ha]
      exact hfold
    · by_cases hji : j = i
      · right
        simp [Policy.setChain, hji]
      · rcases hj with hj | hj
        · exact Or.inl ((List.mem_cons.mp hj).resolve_left hji)
        · right
          simpa [Policy.setChain, hji] using hj

/-- `filter_free` after any run gives back every block of the chains and the buffer of
SIDs, each of them once. What is left in the pool is what other parts have. -/
theorem run_freed (pl : Platform) (h : Initial p w) {es : List Event} {w' : World}
    {os : List (Option Reply)} (hrun : run (step pl p) w es = some (w', os)) :
    ∃ t, rulesFree pl p w'.tables = some t ∧ t.pool.badFree = false ∧
      t.pool.live.Perm w'.held := by
  obtain ⟨w₁, hrun', hstate⟩ := run_inState pl h es
  obtain rfl : w₁ = w' := congrArg Prod.fst (Option.some.inj (hrun'.symm.trans hrun))
  obtain ⟨t, b, hfold, ⟨⟨own, hr⟩, hbound⟩, hclear⟩ :=
    clear_chains p hstate fun i (hi : i ∈ List.range maxChainsCount) => List.mem_range.mp hi
  have hempty : ∀ i, b.chain i = {} := by
    intro i
    rcases Nat.lt_or_ge i maxChainsCount with hi | hi
    · exact hclear i (Or.inl (List.mem_range.mpr hi))
    · exact hbound i hi
  refine ⟨_, by rw [rulesFree, hfold]; rfl, hr.unsetSids.stored.clean, ?_⟩
  exact hr.unsetSids.perm_held hempty rfl

theorem run_freed_started : ∃ w' os t, run (step .x64 numbered) started nameAndAsk = some (w', os) ∧
    rulesFree .x64 numbered w'.tables = some t ∧ t.pool.badFree = false ∧
      t.pool.live.Perm w'.held := by
  obtain ⟨w', hrun, -⟩ := run_inState .x64 initial_started nameAndAsk
  obtain ⟨t, ht⟩ := run_freed .x64 initial_started hrun
  exact ⟨w', _, t, hrun, ht⟩

end Runs

end AdFilter.Tdi.ChainRuns
