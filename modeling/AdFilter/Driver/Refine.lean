import AdFilter.Driver.Represent
import AdFilter.Driver.Dispatch
import AdFilter.Driver.Filter
import AdFilter.Lib.Runs

/-!
# The driver refines the blocklist

The events of the control device and of the filter, one step of the driver for
each, and the simulation of whole runs by the abstract machine. The element
match is any total function.
-/

namespace AdFilter.Driver.Refine

open AdFilter.Nt
open AdFilter.Lib.Pool
open AdFilter.Lib.Runs
open AdFilter.Driver.HostList
open AdFilter.Driver.Abstract
open AdFilter.Driver.Represent
open AdFilter.Driver.Dispatch
open AdFilter.Driver.Filter

inductive Event
  | ioctl (irp : Irp)
  | verdict (data : Mem) (len : Int)

/-- What the caller of a request gets back. -/
def replyOf (c : Completion) : Reply :=
  .status c.status (if c.information = some 4 then c.systemBuffer.map loadDword else none)

def step (p : Allocator Ptr) (dbg : Bool) (m : Matcher) (a : Adf) : Event → Option (Adf × Reply)
  | .ioctl irp => (deviceControl p dbg a irp).completion.map fun c => (c.adf, replyOf c)
  | .verdict data len => (filter m a data len).map fun found => (a, .found found)

/-- Full pause values, terminated strings, names that fit the name buffer. -/
def Admissible : Event → Prop
  | .ioctl irp =>
      match requestOf irp.ioControlCode with
      | .setPause => 4 ≤ irp.inputBufferLength
      | .getPause => 4 ≤ irp.outputBufferLength
      | .host _ _ => Terminated irp
      | .other => True
  | .verdict data len => fmtDnsMsg data len ≠ none

/-- The command a request is in a state: the state tells whether the pool grants it. -/
def commandOf (p : Allocator Ptr) (a : Adf) : Event → Command
  | .ioctl irp =>
      match requestOf irp.ioControlCode, irp.systemBuffer with
      | .setPause, some buff => .setPause (loadDword buff)
      | .getPause, _ => .getPause
      | .host true list, some buff => .add list (cut buff) (granted p a)
      | .host false list, some buff => .del list (cut buff)
      | _, _ => .other
  | .verdict data len => .verdict ((fmtDnsMsg data len).getD [])

/-- The element match, for a matcher that always answers. -/
def hits (f : List UInt8 → List UInt8 → Int) (h : Host) (name : List UInt8) : Bool :=
  f h.chars name == (name.length : Int)

def total (f : List UInt8 → List UInt8 → Int) : Matcher := fun r s => some (f r s)

/-- The host that the driver takes out of a buffer, with what lies past the buffer. -/
theorem chars_cut_inputMem (input : List UInt8) (beyond : Mem) :
    (cut (inputMem input beyond)).chars =
      (cString (input ++ (bytes beyond (max adfHostMaxLen input.length)).drop input.length)).take
        adfHostMaxLen := by
  have hle : adfHostMaxLen ≤ max adfHostMaxLen input.length := Nat.le_max_left ..
  rw [cut]
  dsimp only
  rw [bytes_strnlen, ← take_bytes _ hle, cString, ← List.take_takeWhile, bytes_inputMem,
    List.take_of_length_le (Nat.le_max_right ..), cString]

/-- A NUL in the buffer ends it. -/
theorem chars_cut_append_nul {pre : List UInt8} (h : 0 ∉ pre) (post : List UInt8) (beyond : Mem) :
    (cut (inputMem (pre ++ 0 :: post) beyond)).chars = pre.take adfHostMaxLen := by
  rw [chars_cut_inputMem, List.append_assoc, List.cons_append, cString_append_nul h]

theorem cut_inputMem (h : Host) (beyond : Mem) : cut (inputMem (h.chars ++ [0]) beyond) = h := by
  have hchars := chars_cut_append_nul h.noNul [] beyond
  exact chars_injective (hchars.trans (List.take_of_length_le h.fits))

section Simulation

variable {p : Allocator Ptr} {dbg : Bool} {a : Adf} {b : Blocklist}
variable (f : List UInt8 → List UInt8 → Int)

theorem isMatchHostList_total (hab : Abstracts a b) (list : AdHost) (dst : List UInt8) :
    isMatchHostList (total f) a (.head list) dst = some ((b.hosts list).any (hits f · dst)) := by
  have hfind := AdFilter.Lib.Ring.findM?_map_some (id : Host → Host)
    (fun h => (total f h.chars dst).map (· == (dst.length : Int))) (hits f · dst)
    fun h (_ : h ∈ (b.hosts list).reverse) => rfl
  rw [List.map_id] at hfind
  rw [hab.isMatchHostList, hfind, Option.map_some, Option.some.injEq, Option.isSome_map,
    Bool.eq_iff_iff, List.find?_isSome, List.any_eq_true]
  simp

/-- The three-list search with its jumps is the abstract verdict. -/
theorem search_total (hab : Abstracts a b) (dst : List UInt8) :
    search (total f) a dst = some (b.found (hits f) dst) := by
  simp only [search, isMatchHostList_total f hab, Blocklist.found]
  cases (b.hosts .excpt).any (hits f · dst) with
  | true => rfl
  | false =>
    cases (b.hosts .user).any (hits f · dst) with
    | true => rfl
    | false => simp

variable (p dbg) in
/-- A host request is the abstract addition or deletion of the cut string. -/
theorem hostRequest_simulates (hab : Abstracts a b) (irp : Irp) {buff : Mem}
    (hb : irp.systemBuffer = some buff) (add : Bool) (list : AdHost) :
    ∃ c, (hostRequest p dbg a irp add list).completion = some c ∧
      replyOf c = .status statusSuccess none ∧
      Abstracts c.adf (b.step (hits f)
        (if add then .add list (cut buff) (granted p a) else .del list (cut buff))).1 := by
  have hcut : bytes buff (strnlen buff adfHostMaxLen) = (cut buff).chars := rfl
  rw [hostRequest, hb]
  cases add with
  | true =>
    obtain ⟨-, h2⟩ := hab.add (hits f) p list hcut
    exact ⟨_, rfl, rfl, h2⟩
  | false =>
    obtain ⟨a', h1, h2⟩ := hab.del (hits f) list hcut
    refine ⟨⟨statusSuccess, a', none, some buff,
      if dbg then some (decide (cut buff ∈ b.hosts list)) else none⟩, ?_, rfl, h2⟩
    simp [h1]

/-- One event of the driver is one step of the abstract machine. -/
theorem step_simulates (hab : Abstracts a b) {e : Event} (hok : Admissible e) :
    ∃ a', step p dbg (total f) a e =
        some (a', (b.step (hits f) (commandOf p a e)).2) ∧
      Abstracts a' (b.step (hits f) (commandOf p a e)).1 := by
  cases e with
  | verdict data len =>
    obtain ⟨dns, hd⟩ := Option.ne_none_iff_exists'.mp hok
    refine ⟨a, ?_, hab⟩
    simp only [step, filter, hd, Option.bind_some, search_total f hab, Option.map_some, commandOf,
      Option.getD_some, Blocklist.step]
  | ioctl irp =>
    simp only [Admissible] at hok
    rw [step, deviceControl_eq]
    cases hreq : requestOf irp.ioControlCode with
    | setPause =>
      simp only [hreq] at hok
      cases hb : irp.systemBuffer with
      | none => exact absurd (irp.buffered.mp hb).1 (by omega)
      | some buff =>
        obtain ⟨es, hr, -, hs⟩ := hab
        have hlen : irp.inputBufferLength ≠ 0 := by omega
        refine ⟨{ a with paused := loadDword buff }, ?_, es, hr.paused _, ?_, ?_⟩
        · simp [setPause, hb, hlen, replyOf, commandOf, hreq, Blocklist.step]
        · simp [commandOf, hreq, hb, Blocklist.step]
        · simpa [commandOf, hreq, hb, Blocklist.step] using hs
    | getPause =>
      simp only [hreq] at hok
      cases hb : irp.systemBuffer with
      | none => exact absurd (irp.buffered.mp hb).2 (by omega)
      | some buff =>
        obtain ⟨es, hr, hp, hs⟩ := hab
        have hlen : irp.outputBufferLength ≠ 0 := by omega
        refine ⟨a, ?_, es, hr, ?_, ?_⟩
        · simp [getPause, hb, hlen, replyOf, commandOf, hreq, Blocklist.step,
            loadDword_storeDword, hp]
        · simpa [commandOf, hreq, hb, Blocklist.step] using hp
        · simpa [commandOf, hreq, hb, Blocklist.step] using hs
    | host add list =>
      simp only [hreq] at hok
      obtain ⟨buff, hb⟩ := hok.buffer
      obtain ⟨c, hc, hrep, hab'⟩ :=
        hostRequest_simulates p dbg f hab irp hb add list
      refine ⟨c.adf, ?_, ?_⟩
      · simp only [hc, Option.map_some, hrep, commandOf, hreq, hb]
        cases add <;> rfl
      · simp only [commandOf, hreq, hb]
        cases add <;> exact hab'
    | other =>
      refine ⟨a, ?_, ?_⟩
      · simp [replyOf, commandOf, hreq, Blocklist.step]
      · simpa [commandOf, hreq, Blocklist.step] using hab

end Simulation

/-- No request of the driver names the system list. -/
theorem commandOf_target_ne_sys (p : Allocator Ptr) (a : Adf) (e : Event) :
    (commandOf p a e).target ≠ some .sys := by
  have hreq : ∀ code add, requestOf code ≠ .host add .sys := by
    intro code add
    unfold requestOf
    split_ifs <;> simp
  cases e with
  | verdict data len => simp [commandOf, Command.target]
  | ioctl irp =>
    cases hq : requestOf irp.ioControlCode with
    | host add list =>
      have hne : list ≠ .sys := fun hl => hreq irp.ioControlCode add (hl ▸ hq)
      cases add <;> cases hb : irp.systemBuffer <;> simp [commandOf, hq, hb, Command.target, hne]
    | setPause => cases hb : irp.systemBuffer <;> simp [commandOf, hq, hb, Command.target]
    | getPause => simp [commandOf, hq, Command.target]
    | other => simp [commandOf, hq, Command.target]

/-- The commands of a run never change the system list. -/
theorem runTotal_sys (f : List UInt8 → List UInt8 → Int) {cs : List Command}
    (hc : ∀ c ∈ cs, c.target ≠ some .sys) (b : Blocklist) :
    (runTotal (Blocklist.step (hits f)) b cs).1.hosts .sys = b.hosts .sys := by
  induction cs generalizing b with
  | nil => rfl
  | cons c cs ih =>
    have hrest := ih (fun d hd => hc d (List.mem_cons_of_mem c hd)) (b.step (hits f) c).1
    rw [runTotal, hrest]
    exact step_hosts_of_ne (hits f) b c (hc c List.mem_cons_self)

/-- The commands of a run of the driver, as the abstract machine sees them. -/
def commands (p : Allocator Ptr) (dbg : Bool) (m : Matcher) : Adf → List Event → List Command :=
  labels (step p dbg m) (commandOf p)

theorem commands_target (p : Allocator Ptr) (dbg : Bool) (m : Matcher) (a : Adf) (es : List Event) :
    ∀ c ∈ commands p dbg m a es, c.target ≠ some .sys := by
  induction es generalizing a with
  | nil => exact fun c hc => absurd hc List.not_mem_nil
  | cons e es ih =>
    intro c hc
    rcases List.mem_cons.mp hc with rfl | hc
    · exact commandOf_target_ne_sys p a e
    · cases hs : step p dbg m a e with
      | none => simp [hs] at hc
      | some r =>
        rw [hs] at hc
        exact ih r.1 c hc

/-- Over any three sequences, every run of admissible events is a run of the
blocklist with the same replies, and what it leaves is still represented. -/
theorem driver_refines_blocklist (p : Allocator Ptr) (dbg : Bool)
    (f : List UInt8 → List UInt8 → Int) (b : Blocklist) :
    (∃ a, Abstracts a b) ∧
      ∀ a es, Abstracts a b → (∀ e ∈ es, Admissible e) →
        let r := runTotal (Blocklist.step (hits f)) b (commands p dbg (total f) a es)
        (∃ a', run (step p dbg (total f)) a es = some (a', r.2) ∧ Abstracts a' r.1) ∧
          r.1.hosts .sys = b.hosts .sys ∧
          (∀ c list, c.target ≠ some list →
            (r.1.step (hits f) c).1.hosts list = r.1.hosts list) ∧
          (∀ name, r.1.found (hits f) name = true ↔
            (∀ h ∈ r.1.hosts .excpt, hits f h name = false) ∧
              ∃ h, (h ∈ r.1.hosts .user ∨ h ∈ r.1.hosts .sys) ∧ hits f h name = true) ∧
          ∀ (b' : Blocklist) name, (∀ list, (r.1.hosts list).Perm (b'.hosts list)) →
            r.1.found (hits f) name = b'.found (hits f) name := by
  refine ⟨exists_abstracts b, fun a es hab hok => ?_⟩
  have hmeets : ∀ (es : List Event) (a : Adf), (∀ e ∈ es, Admissible e) →
      Meets (step p dbg (total f)) (fun _ e => Admissible e) a es := by
    intro es
    induction es with
    | nil => exact fun _ _ => trivial
    | cons e es ih =>
      intro a hok
      exact ⟨hok e List.mem_cons_self,
        fun r _ => ih r.1 fun e' he' => hok e' (List.mem_cons_of_mem e he')⟩
  refine ⟨?_, ?_, ?_, ?_, ?_⟩
  · exact run_simulates Abstracts
      (fun a b e hab hok => step_simulates f hab hok) hab (hmeets es a hok)
  · exact runTotal_sys f (commands_target p dbg (total f) a es) b
  · exact fun c list hc => step_hosts_of_ne (hits f) _ c hc
  · exact fun name => found_iff (hits f) _ name
  · exact fun b' name hp => found_perm (hits f) hp name

theorem abstracts_blank : Abstracts (initLists blankAdf) ⟨0, fun _ => []⟩ :=
  ⟨fun _ => [], represents_initLists ⟨rfl, rfl, rfl⟩, rfl, rfl⟩

/-- From empty lists: pause off, one host added, and its query looked up. -/
theorem driver_refines_blocklist_blank :
    ∃ a', run (step bumpAllocator false (total fun r s => if r = s then s.length else -1))
        (initLists blankAdf)
        [.ioctl (irpOf ioctlAdfSetPause [0, 0, 0, 0] 0 (textMem [])),
          .ioctl (irpOf ioctlAdfAddUserHost [97, 46, 98, 0] 0 (textMem [])),
          .verdict (textMem [0, 0, 0, 0, 0, 0, 0, 0, 0, 0, 0, 0, 1, 97, 1, 98, 0]) 16] =
      some (a', [.status statusSuccess none, .status statusSuccess none, .found true]) := by
  have h := (driver_refines_blocklist bumpAllocator false
    (fun r s => if r = s then s.length else -1) ⟨0, fun _ => []⟩).2 (initLists blankAdf)
    [.ioctl (irpOf ioctlAdfSetPause [0, 0, 0, 0] 0 (textMem [])),
      .ioctl (irpOf ioctlAdfAddUserHost [97, 46, 98, 0] 0 (textMem [])),
      .verdict (textMem [0, 0, 0, 0, 0, 0, 0, 0, 0, 0, 0, 0, 1, 97, 1, 98, 0]) 16]
    abstracts_blank (by
      intro e he
      simp only [List.mem_cons, List.not_mem_nil, or_false] at he
      rcases he with rfl | rfl | rfl
      · exact (by decide : 4 ≤ 4)
      · exact ⟨_, rfl, 3, by decide, rfl⟩
      · simp only [Admissible]
        decide)
  obtain ⟨⟨a', hr, -⟩, -⟩ := h
  exact ⟨a', hr.trans (congrArg (fun os => some (a', os)) (by decide))⟩

end AdFilter.Driver.Refine
