import AdFilter.Driver.Represent
import AdFilter.Driver.LoadFile
import AdFilter.Lib.Runs

/-!
# The pool over whole runs

`load_cfg` touches the pool by additions only, so a load, whether it comes to an end or
not, is a run of additions to empty lists. Additions, deletions and clearings in any order
keep every block accounted for, and `unload_cfg` gives all of them back.
-/

namespace AdFilter.Driver.PoolRuns

open AdFilter.Nt
open AdFilter.Lib.Ring
open AdFilter.Lib.Pool
open AdFilter.Lib.Runs
open AdFilter.Driver.HostList
open AdFilter.Driver.Abstract (hostAB)
open AdFilter.Driver.Ownership
open AdFilter.Driver.Represent (Fresh granted newHostList_denied newHostList_granted blankAdf
  bumpAllocator)
open AdFilter.Driver.LoadFile

def unloadCfg (a : Adf) : Option Adf :=
  (clearHostList a (.head .sys)).bind fun a₁ =>
    (clearHostList a₁ (.head .user)).bind fun a₂ => clearHostList a₂ (.head .excpt)

inductive Call
  | add (list : AdHost) (src : Mem) (len : Nat)
  | remove (list : AdHost) (dst : Mem) (len : Nat)
  | clear (list : AdHost)

/-- A call on one of the lists, with what it returns. -/
def step (p : Allocator Ptr) (a : Adf) : Call → Option (Adf × Option Bool)
  | .add list src len =>
      let r := addHostList p a (.head list) src len
      some (r.2, some r.1)
  | .remove list dst len => (removeHostList a (.head list) dst len).map fun r => (r.2, some r.1)
  | .clear list => (clearHostList a (.head list)).map fun a' => (a', none)

/-! ## The additions of a load -/

/-- `load_file` adds the line that stands in `len`. -/
def addLine (list : AdHost) (len : List UInt8) : Call :=
  .add list (textMem len) (strnlen (textMem len) adfHostMaxLen)

/-- The lines that `loadLines` adds or fails to add. -/
def lineAdds (p : Allocator Ptr) (list : AdHost) (buff : Mem) :
    Nat → Nat → Adf → List (List UInt8)
  | 0, _, _ => []
  | n + 1, i, a =>
      if buffSize - 1 ≤ i then []
      else
        let r := scanLine buff (buffSize - i) i
        if adfHostMaxLen < r.1.length then []
        else if r.2 = false then []
        else
          r.1 ::
            match addHostList p a (.head list) (textMem r.1)
                (strnlen (textMem r.1) adfHostMaxLen) with
            | (false, _) => []
            | (true, a') => lineAdds p list buff n (i + (r.1.length + 2)) a'

/-- `loadChunks` -/
def chunkAdds (p : Allocator Ptr) (list : AdHost) (read : Reader) :
    Nat → Nat → Nat → Adf → List (List UInt8)
  | 0, _, _, _ => []
  | n + 1, call, offset, a =>
      match read call offset with
      | .error _ => []
      | .ok data =>
          lineAdds p list (chunk data) buffSize 0 a ++
            match loadLines p (.head list) (chunk data) buffSize 0 0 a with
            | .error _ => []
            | .ok c =>
                if c.lines = 0 then [c.len]
                else chunkAdds p list read n (call + 1) ((offset + c.pos) % 2 ^ 32) c.adf

/-- `loadList` -/
def listAdds (p : Allocator Ptr) (fuel : Nat) (a : Adf) (list : AdHost)
    (path : Except NtStatus (Except NtStatus Reader)) : List Call :=
  match path with
  | .ok (.ok read) => (chunkAdds p list read fuel 0 0 a).map (addLine list)
  | _ => []

/-- `load_cfg` before it looks for the files. -/
def started (a : Adf) (cfg : Config) : Adf :=
  match cfg.pause with
  | .ok v => { initLists a with paused := v }
  | .error _ => initLists a

/-- The calls of `addHostList` in `load_cfg`, in their order. -/
def cfgAdds (p : Allocator Ptr) (fuel : Nat) (a : Adf) (cfg : Config) : List Call :=
  listAdds p fuel (started a cfg) .excpt cfg.exceptFile ++
    match loadList p fuel (started a cfg) .excpt cfg.exceptFile with
    | none => []
    | some (_, a₁) =>
        listAdds p fuel a₁ .user cfg.userFile ++
          match loadList p fuel a₁ .user cfg.userFile with
          | none => []
          | some (_, a₂) => listAdds p fuel a₂ .sys cfg.sysFile

/-! ## One call -/

section Calls

variable {p : Allocator Ptr} {a a' : Adf} {cells : AdHost → List Ptr}

/-- An addition links one more entry, or fails and gives back what it has got. -/
theorem owns_addHostList (ho : Owns a cells) (list : AdHost) (src : Mem) (len : Nat) :
    ∃ cells', Owns (addHostList p a (.head list) src len).2 cells' := by
  cases hg : granted p a with
  | false =>
    obtain ⟨n, hn⟩ := newHostList_denied hg src len
    rw [addHostList, hn]
    exact ⟨cells, ho.calls n⟩
  | true =>
    obtain ⟨c, b, hcf, hcl, hbf, hbl, hn⟩ := newHostList_granted hg src len
    rw [addHostList, hn]
    exact ⟨_, ho.insert list hcf hcl hbf hbl _ _ rfl⟩

/-- The step lemma: every call comes back and leaves the pool in order. -/
theorem owns_step (ho : Owns a cells) (c : Call) :
    ∃ a' o, step p a c = some (a', o) ∧ ∃ cells', Owns a' cells' := by
  cases c with
  | add list src len => exact ⟨_, _, rfl, owns_addHostList ho list src len⟩
  | remove list dst len =>
    obtain ⟨found, a', hr, hcase⟩ := ho.removeHostList list dst len
    refine ⟨a', some found, by rw [step, hr]; rfl, ?_⟩
    rcases hcase with ⟨-, rfl⟩ | ⟨cs, c, ds, -, -, ho'⟩
    · exact ⟨cells, ho⟩
    · exact ⟨_, ho'⟩
  | clear list =>
    obtain ⟨a', hc, ho'⟩ := ho.clearHostList list
    exact ⟨a', none, by rw [step, hc]; rfl, _, ho'⟩

/-- The run lemma. -/
theorem owns_run (ho : Owns a cells) (calls : List Call) :
    ∃ a' os, run (step p) a calls = some (a', os) ∧ ∃ cells', Owns a' cells' := by
  have hm : Meets (step p) (fun _ _ => True) a calls := meets_of_forall (fun _ _ => trivial) a calls
  refine run_progress (fun a => ∃ cells, Owns a cells) (fun a c h _ => ?_) ⟨cells, ho⟩ hm
  obtain ⟨cells, ho⟩ := h
  exact owns_step ho c

/-- `unload_cfg` gives every block back. -/
theorem owns_unloadCfg (ho : Owns a cells) :
    ∃ a', unloadCfg a = some a' ∧ a'.pool.live = [] ∧ a'.pool.badFree = false := by
  obtain ⟨a₁, h₁, ho₁⟩ := ho.clearHostList .sys
  obtain ⟨a₂, h₂, ho₂⟩ := ho₁.clearHostList .user
  obtain ⟨a₃, h₃, ho₃⟩ := ho₂.clearHostList .excpt
  refine ⟨a₃, by simp [unloadCfg, h₁, h₂, h₃], ho₃.live_nil fun list => ?_, ho₃.noBadFree⟩
  cases list <;> simp

end Calls

/-! ## A load is a run of additions -/

section Loads

variable {p : Allocator Ptr} {list : AdHost}

/-- What the loop over the lines of a piece leaves, unless it overran `len`. -/
def LeftBy : Except Stop Chunk → Adf → Prop
  | .ok c, a => c.adf = a
  | .error (.noMemory a'), a => a' = a
  | .error .overrun, _ => False

theorem run_addLine (p : Allocator Ptr) (a : Adf) (list : AdHost) (len : List UInt8)
    (calls : List Call) :
    run (step p) a (addLine list len :: calls) =
      let r := addHostList p a (.head list) (textMem len) (strnlen (textMem len) adfHostMaxLen)
      (run (step p) r.2 calls).map fun q => (q.1, some r.1 :: q.2) :=
  run_cons calls rfl

theorem run_lineAdds (buff : Mem) (n : Nat) : ∀ {i lines : Nat} {a a' : Adf},
    LeftBy (loadLines p (.head list) buff n i lines a) a' →
    ∃ os, run (step p) a ((lineAdds p list buff n i a).map (addLine list)) = some (a', os) := by
  induction n with
  | zero =>
    intro i lines a a' h
    exact ⟨[], by rw [lineAdds, List.map_nil, run_nil, show a = a' from h]⟩
  | succ n ih =>
    intro i lines a a' h
    have hstay : a = a' → ∃ os, run (step p) a (([] : List (List UInt8)).map (addLine list)) =
        some (a', os) := fun heq => ⟨[], by rw [List.map_nil, run_nil, heq]⟩
    rw [loadLines] at h
    rw [lineAdds]
    by_cases hi : buffSize - 1 ≤ i
    · rw [if_pos hi] at h ⊢
      exact hstay h
    rw [if_neg hi] at h ⊢
    simp only at h ⊢
    by_cases hl : adfHostMaxLen < (scanLine buff (buffSize - i) i).1.length
    · rw [if_pos hl] at h
      exact h.elim
    rw [if_neg hl] at h ⊢
    by_cases hc : (scanLine buff (buffSize - i) i).2 = false
    · rw [if_pos hc] at h ⊢
      exact hstay h
    rw [if_neg hc] at h
    rw [if_neg hc, List.map_cons, run_addLine]
    revert h
    cases addHostList p a (.head list) (textMem (scanLine buff (buffSize - i) i).1)
      (strnlen (textMem (scanLine buff (buffSize - i) i).1) adfHostMaxLen) with
    | mk added a₁ =>
      intro h
      cases added with
      | false => exact ⟨[some false], by simp [show a₁ = a' from h]⟩
      | true =>
        obtain ⟨os, hr⟩ := ih h
        exact ⟨some true :: os, by simp [hr]⟩

theorem run_chunkAdds (read : Reader) (n : Nat) : ∀ {call offset : Nat} {a a' : Adf}
    {status : NtStatus} {closed : Bool},
    loadChunks p (.head list) read n call offset a = some (.returned status closed a') →
    ∃ os, run (step p) a ((chunkAdds p list read n call offset a).map (addLine list)) =
      some (a', os) := by
  induction n with
  | zero =>
    intro call offset a a' status closed h
    exact absurd h (by simp [loadChunks])
  | succ n ih =>
    intro call offset a a' status closed h
    rw [loadChunks] at h
    rw [chunkAdds]
    cases hr : read call offset with
    | error e =>
      simp only [hr, Option.some.injEq, LoadResult.returned.injEq] at h
      exact ⟨[], by rw [List.map_nil, run_nil, h.2.2]⟩
    | ok data =>
      have hlines : ∀ a₁, LeftBy (loadLines p (.head list) (chunk data) buffSize 0 0 a) a₁ →
          ∃ os, run (step p) a ((lineAdds p list (chunk data) buffSize 0 a).map (addLine list)) =
            some (a₁, os) := fun _ => run_lineAdds (chunk data) buffSize
      simp only [hr, List.map_append] at h ⊢
      revert hlines h
      cases loadLines p (.head list) (chunk data) buffSize 0 0 a with
      | error e =>
        intro hlines h
        cases e with
        | overrun => simp at h
        | noMemory a₁ =>
          simp only [Option.some.injEq, LoadResult.returned.injEq] at h
          rw [List.map_nil, List.append_nil]
          exact hlines a' h.2.2
      | ok c =>
        intro hlines h
        obtain ⟨os, hos⟩ := hlines c.adf rfl
        rw [run_append, hos]
        simp only [Option.bind_some] at h ⊢
        by_cases h0 : c.lines = 0
        · rw [if_pos h0] at h
          rw [if_pos h0, List.map_singleton, run_addLine]
          revert h
          cases addHostList p c.adf (.head list) (textMem c.len)
            (strnlen (textMem c.len) adfHostMaxLen) with
          | mk added a₁ =>
            intro h
            have hleft : a₁ = a' := by
              cases added <;> simp only [Option.some.injEq, LoadResult.returned.injEq] at h <;>
                exact h.2.2
            exact ⟨os ++ [some added], by rw [← hleft]; rfl⟩
        · rw [if_neg h0] at h ⊢
          obtain ⟨os', hos'⟩ := ih h
          exact ⟨os ++ os', by rw [hos']; rfl⟩

theorem run_listAdds {fuel : Nat} {a a' : Adf} {path : Except NtStatus (Except NtStatus Reader)}
    {status : NtStatus} (h : loadList p fuel a list path = some (status, a')) :
    ∃ os, run (step p) a (listAdds p fuel a list path) = some (a', os) := by
  cases path with
  | error e =>
    obtain ⟨-, rfl⟩ := Prod.mk.inj (Option.some.inj h)
    exact ⟨[], rfl⟩
  | ok file =>
    cases file with
    | error e =>
      obtain ⟨-, rfl⟩ := Prod.mk.inj (Option.some.inj h)
      exact ⟨[], rfl⟩
    | ok read =>
      simp only [loadList, loadFile, Bool.true_eq_false, if_false] at h
      cases hc : loadChunks p (.head list) read fuel 0 0 a with
      | none => simp [hc] at h
      | some r =>
        cases r with
        | overrun => simp [hc] at h
        | returned st closed a₁ =>
          simp only [hc, Option.some.injEq, Prod.mk.injEq] at h
          exact run_chunkAdds read fuel (h.2 ▸ hc)

theorem loadCfg_eq (p : Allocator Ptr) (fuel : Nat) (a : Adf) (cfg : Config) :
    loadCfg p fuel a cfg =
      (loadList p fuel (started a cfg) .excpt cfg.exceptFile).bind fun r =>
        (loadList p fuel r.2 .user cfg.userFile).bind fun r' =>
          loadList p fuel r'.2 .sys cfg.sysFile := rfl

/-- A load that returns is the run of its additions. -/
theorem run_cfgAdds {fuel : Nat} {a a' : Adf} {cfg : Config} {status : NtStatus}
    (h : loadCfg p fuel a cfg = some (status, a')) :
    ∃ os, run (step p) (started a cfg) (cfgAdds p fuel a cfg) = some (a', os) := by
  rw [loadCfg_eq] at h
  obtain ⟨⟨s₁, a₁⟩, h₁, h⟩ := Option.bind_eq_some_iff.mp h
  obtain ⟨⟨s₂, a₂⟩, h₂, h₃⟩ := Option.bind_eq_some_iff.mp h
  obtain ⟨os₁, hr₁⟩ := run_listAdds h₁
  obtain ⟨os₂, hr₂⟩ := run_listAdds h₂
  obtain ⟨os₃, hr₃⟩ := run_listAdds h₃
  simp only at h₂ hr₂ hr₃
  refine ⟨os₁ ++ (os₂ ++ os₃), ?_⟩
  simp only [cfgAdds, h₁, h₂, run_append, hr₁, hr₂, hr₃, Option.bind_some, Option.map_some]

/-- A load makes no other calls. -/
theorem mem_cfgAdds {fuel : Nat} {a : Adf} {cfg : Config} {c : Call}
    (hc : c ∈ cfgAdds p fuel a cfg) : ∃ list len, c = addLine list len := by
  have hlist : ∀ {a : Adf} {list : AdHost} {path : Except NtStatus (Except NtStatus Reader)},
      c ∈ listAdds p fuel a list path → ∃ list len, c = addLine list len := by
    intro a list path hm
    unfold listAdds at hm
    split at hm
    · obtain ⟨len, -, rfl⟩ := List.mem_map.mp hm
      exact ⟨list, len, rfl⟩
    · exact absurd hm List.not_mem_nil
  rw [cfgAdds] at hc
  rcases List.mem_append.mp hc with hc | hc
  · exact hlist hc
  split at hc
  · exact absurd hc List.not_mem_nil
  rcases List.mem_append.mp hc with hc | hc
  · exact hlist hc
  split at hc
  · exact absurd hc List.not_mem_nil
  · exact hlist hc

/-- The rule for loads: what every addition of a line keeps, a load keeps. -/
theorem loadCfg_invariant (inv : Adf → Prop)
    (hadd : ∀ a list len, inv a → inv (addHostList p a (.head list) (textMem len)
      (strnlen (textMem len) adfHostMaxLen)).2)
    {fuel : Nat} {a a' : Adf} {cfg : Config} {status : NtStatus} (hs : inv (started a cfg))
    (h : loadCfg p fuel a cfg = some (status, a')) : inv a' := by
  obtain ⟨os, hr⟩ := run_cfgAdds h
  have hm : Meets (step p) (fun _ c => ∃ list len, c = addLine list len) (started a cfg)
      (cfgAdds p fuel a cfg) := meets_of_forall_mem (fun _ hc _ => mem_cfgAdds hc) _
  refine run_invariant inv (fun a c a' o hi hc hstep => ?_) hs hm hr
  obtain ⟨list, len, rfl⟩ := hc
  obtain ⟨rfl, -⟩ := Prod.mk.inj (Option.some.inj hstep)
  exact hadd a list len hi

end Loads

/-! ## Every run -/

/-- The live blocks are the entry block and the name block of each entry of the three
lists, nothing has been freed that was not live, any list can be cleared, and
`unload_cfg` leaves nothing live. -/
structure Settled (a : Adf) : Prop where
  owned : ∃ cells, Owns a cells
  clears : ∀ list, ∃ a', clearHostList a (.head list) = some a' ∧ IsRing a'.links (.head list) []
  unloads : ∃ a', unloadCfg a = some a' ∧ a'.pool.live = [] ∧ a'.pool.badFree = false

theorem Settled.of_owns {a : Adf} {cells : AdHost → List Ptr} (ho : Owns a cells) : Settled a where
  owned := ⟨cells, ho⟩
  clears list := by
    obtain ⟨a', hc, ho'⟩ := ho.clearHostList list
    have hr := ho'.ring list
    rw [Function.update_self] at hr
    exact ⟨a', hc, hr⟩
  unloads := owns_unloadCfg ho

theorem settled_run {p : Allocator Ptr} {a : Adf} (hs : Settled a) (calls : List Call) :
    ∃ a' os, run (step p) a calls = some (a', os) ∧ Settled a' := by
  obtain ⟨cells, ho⟩ := hs.owned
  obtain ⟨a', os, hr, cells', ho'⟩ := owns_run ho calls
  exact ⟨a', os, hr, Settled.of_owns ho'⟩

theorem settled_started {a : Adf} (hf : Fresh a) (cfg : Config) : Settled (started a cfg) := by
  have ho := owns_initLists hf.1 hf.2.1 hf.2.2
  rw [started]
  cases cfg.pause with
  | error e => exact Settled.of_owns ho
  | ok v => exact Settled.of_owns (ho.paused v)

/-- After every addition of a load, and after every call that follows a load, the pool
holds the blocks of the linked entries and no others. -/
theorem pool_settled {p : Allocator Ptr} {a₀ : Adf} (hf : Fresh a₀) (fuel : Nat) (cfg : Config) :
    (∀ adds, adds <+: cfgAdds p fuel a₀ cfg →
      ∃ a os, run (step p) (started a₀ cfg) adds = some (a, os) ∧ Settled a) ∧
    ∀ status a, loadCfg p fuel a₀ cfg = some (status, a) →
      (∃ os, run (step p) (started a₀ cfg) (cfgAdds p fuel a₀ cfg) = some (a, os)) ∧
      ∀ calls, ∃ a' os, run (step p) a calls = some (a', os) ∧ Settled a' := by
  have hstart := settled_started hf cfg
  refine ⟨fun adds _ => settled_run hstart adds, fun status a h => ?_⟩
  obtain ⟨os, hr⟩ := run_cfgAdds h
  refine ⟨⟨os, hr⟩, fun calls => settled_run ?_ calls⟩
  obtain ⟨a', os', hr', hs⟩ := settled_run hstart (cfgAdds p fuel a₀ cfg)
  obtain ⟨rfl, -⟩ := Prod.mk.inj (Option.some.inj (hr.symm.trans hr'))
  exact hs

/-- A registry that names one file, with one host, for the user's list. -/
def oneUserFile : Config where
  pause := .error statusUnsuccessful
  exceptFile := .error statusUnsuccessful
  userFile := .ok (.ok (fileReader (hostAB.chars ++ [13, 10])))
  sysFile := .error statusUnsuccessful

/-- The host of the file is deleted again, and a host is added to the system list. -/
theorem pool_settled_oneUserFile :
    ∃ status a, loadCfg bumpAllocator 3 blankAdf oneUserFile = some (status, a) ∧
      a.pool.live.length = 2 ∧
      ∃ a' os, run (step bumpAllocator) a [.remove .user (textMem hostAB.chars) 3,
        .add .sys (textMem hostAB.chars) 3, .clear .user] = some (a', os) ∧ Settled a' := by
  obtain ⟨status, a, hl, hn⟩ : ∃ status a, loadCfg bumpAllocator 3 blankAdf oneUserFile =
      some (status, a) ∧ a.pool.live.length = 2 := ⟨_, _, rfl, rfl⟩
  exact ⟨status, a, hl, hn,
    ((pool_settled ⟨rfl, rfl, rfl⟩ 3 oneUserFile).2 status a hl).2 _⟩

end AdFilter.Driver.PoolRuns
