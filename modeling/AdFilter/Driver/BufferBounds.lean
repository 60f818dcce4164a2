import AdFilter.Driver.Dispatch
import AdFilter.Driver.Represent

/-!
# Accesses to the system buffer

When a request of the control device stays inside its buffer: exactly when a
pause value is absent or complete, and a host string ends inside the input or the
input is as long as the longest host.
-/

namespace AdFilter.Driver.BufferBounds

open AdFilter.Lib.Pool
open AdFilter.Driver.HostList
open AdFilter.Driver.Dispatch
open AdFilter.Driver.Represent

/-- Input is read and output written only where the caller gave some, and no null
pointer is followed. -/
structure InBounds (irp : Irp) (o : Outcome) : Prop where
  reads : ∀ i, o.reads i = true → i < irp.inputBufferLength
  writes : ∀ i, o.writes i = true → i < irp.outputBufferLength
  notNull : o.nullDeref = false

/-- A debug build prints the host string, so there it has to be terminated. -/
def Bounded (dbg : Bool) (irp : Irp) : Prop :=
  match requestOf irp.ioControlCode with
  | .setPause => irp.inputBufferLength = 0 ∨ 4 ≤ irp.inputBufferLength
  | .getPause => irp.outputBufferLength = 0 ∨ 4 ≤ irp.outputBufferLength
  | .host _ _ => Terminated irp ∨ (dbg = false ∧ adfHostMaxLen ≤ irp.inputBufferLength)
  | .other => True

theorem noNulBefore_iff (buff : Mem) (i : Nat) :
    noNulBefore buff i = true ↔ ∀ j < i, buff j ≠ 0 := by
  simp [noNulBefore]

theorem dword_lt_iff (n : Nat) : (∀ i, dword i = true → i < n) ↔ 4 ≤ n := by
  constructor
  · intro h
    have h3 := h 3 rfl
    omega
  · intro h i hi
    have h4 : i < 4 := of_decide_eq_true hi
    omega

theorem refuse_inBounds (a : Adf) (irp : Irp) : InBounds irp (refuse a irp) :=
  ⟨fun _ h => absurd h Bool.false_ne_true, fun _ h => absurd h Bool.false_ne_true, rfl⟩

section Requests

variable (p : Allocator Ptr) (dbg : Bool) (a : Adf) (irp : Irp)

theorem setPause_inBounds_iff : InBounds irp (setPause a irp) ↔
    irp.inputBufferLength = 0 ∨ 4 ≤ irp.inputBufferLength := by
  cases hb : irp.systemBuffer with
  | none =>
    have h0 := (irp.buffered.mp hb).1
    simp only [setPause, hb, h0, true_or, iff_true]
    exact refuse_inBounds a irp
  | some buff =>
    by_cases h0 : irp.inputBufferLength = 0
    · simp only [setPause, hb, h0, if_true, true_or, iff_true]
      exact refuse_inBounds a irp
    · simp only [setPause, hb, h0, if_false, false_or]
      rw [← dword_lt_iff]
      exact ⟨fun h => h.reads, fun h => ⟨h, fun _ hw => absurd hw Bool.false_ne_true, rfl⟩⟩

theorem getPause_inBounds_iff : InBounds irp (getPause a irp) ↔
    irp.outputBufferLength = 0 ∨ 4 ≤ irp.outputBufferLength := by
  cases hb : irp.systemBuffer with
  | none =>
    have h0 := (irp.buffered.mp hb).2
    simp only [getPause, hb, h0, true_or, iff_true]
    exact refuse_inBounds a irp
  | some buff =>
    by_cases h0 : irp.outputBufferLength = 0
    · simp only [getPause, hb, h0, if_true, true_or, iff_true]
      exact refuse_inBounds a irp
    · simp only [getPause, hb, h0, if_false, false_or]
      rw [← dword_lt_iff]
      exact ⟨fun h => h.writes, fun h => ⟨fun _ hr => absurd hr Bool.false_ne_true, h, rfl⟩⟩

theorem hostRequest_inBounds_iff (add : Bool) (list : AdHost) :
    InBounds irp (hostRequest p dbg a irp add list) ↔
      Terminated irp ∨ (dbg = false ∧ adfHostMaxLen ≤ irp.inputBufferLength) := by
  cases hb : irp.systemBuffer with
  | none =>
    have h0 := (irp.buffered.mp hb).1
    constructor
    · intro h
      have hn := h.notNull
      rw [hostRequest, hb] at hn
      exact absurd hn.symm Bool.false_ne_true
    · rintro (⟨buff, hq, -⟩ | ⟨-, hl⟩)
      · rw [hb] at hq
        exact absurd hq.symm (Option.some_ne_none buff)
      · rw [h0] at hl
        exact absurd hl (by decide)
  | some buff =>
    rw [hostRequest, hb]
    constructor
    · intro h
      by_cases ht : ∃ i < irp.inputBufferLength, buff i = 0
      · exact Or.inl ⟨buff, hb, ht⟩
      · -- without a NUL the walk reaches the first byte past the input
        right
        have hn : noNulBefore buff irp.inputBufferLength = true :=
          (noNulBefore_iff _ _).mpr fun j hj h0 => ht ⟨j, hj, h0⟩
        have hr := mt (h.reads irp.inputBufferLength) (Nat.lt_irrefl _)
        simp only [hn, Bool.and_true, Bool.or_eq_true, decide_eq_true_eq, not_or] at hr
        exact ⟨by simpa using hr.2, by omega⟩
    · intro h
      refine ⟨fun i hi => ?_, fun _ hw => absurd hw Bool.false_ne_true, rfl⟩
      simp only [Bool.and_eq_true, Bool.or_eq_true, decide_eq_true_eq] at hi
      rcases h with ⟨buff', hq, j, hj, h0⟩ | ⟨hd, hl⟩
      · obtain rfl : buff = buff' := Option.some.inj (hb.symm.trans hq)
        have hle := (noNulBefore_iff buff i).mp hi.2
        by_contra hc
        exact hle j (by omega) h0
      · have h128 : i < adfHostMaxLen := by
          rcases hi.1 with h | h
          · exact h
          · rw [hd] at h
            exact absurd h Bool.false_ne_true
        omega

/-- A request stays inside its buffer exactly when it is bounded. -/
theorem deviceControl_inBounds_iff :
    InBounds irp (deviceControl p dbg a irp) ↔ Bounded dbg irp := by
  rw [deviceControl_eq, Bounded]
  cases requestOf irp.ioControlCode with
  | setPause => exact setPause_inBounds_iff a irp
  | getPause => exact getPause_inBounds_iff a irp
  | host add list => exact hostRequest_inBounds_iff p dbg a irp add list
  | other =>
    refine iff_of_true ⟨fun _ h => ?_, fun _ h => ?_, rfl⟩ trivial
    · exact absurd h Bool.false_ne_true
    · exact absurd h Bool.false_ne_true

end Requests

/-- One byte of input and no NUL: the byte after the buffer is read. -/
theorem unterminated_host_out_of_bounds :
    ¬ ∀ (p : Allocator Ptr) (dbg : Bool) (a : Adf) (irp : Irp),
      InBounds irp (deviceControl p dbg a irp) := by
  intro h
  have hr := (h bumpAllocator false (initLists blankAdf)
    (irpOf ioctlAdfDelUserHost [97] 0 (textMem []))).reads 1 (by decide)
  exact absurd hr (by decide)

end AdFilter.Driver.BufferBounds
