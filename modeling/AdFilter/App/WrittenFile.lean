import AdFilter.App.Agreement

/-!
# A written host file, loaded again

Lines with a CR and a LF between them, as the view model writes them. Such a file is
read in pieces that may end anywhere in it, and the driver still gets its lines.
-/

namespace AdFilter.App.WrittenFile

open AdFilter.Nt
open AdFilter.Lib.Pool
open AdFilter.Driver.HostList
open AdFilter.Driver.Abstract
open AdFilter.Driver.Represent
open AdFilter.Driver.LoadFile
open AdFilter.Driver.FileLines
open AdFilter.Lib.TextLines
open AdFilter.Lib.Utf
open AdFilter.App.ViewModel
open AdFilter.Driver.Refine (abstracts_blank)
open AdFilter.App.Agreement (joined joined_cons length_joined noNul_joined driverLines_joined
  driverLines_joined_append lastOffset_joined lastOffset_joined_append dispose_joined)

/-- A line that the driver can hold as a host. -/
structure StorableLine (l : List UInt8) : Prop extends IsLine cr lf l where
  noNul : 0 ∉ l
  short : l.length ≤ adfHostMaxLen

/-- The file of these lines, with or without an end after the last one. -/
def written (ended : Bool) (ls : List (List UInt8)) : List UInt8 :=
  List.intercalate [cr, lf] ls ++ if ended = true ∧ ls ≠ [] then [cr, lf] else []

@[simp] theorem written_nil (ended : Bool) : written ended [] = [] := by simp [written]

theorem written_cons (ended : Bool) (l : List UInt8) {ls : List (List UInt8)} (hne : ls ≠ []) :
    written ended (l :: ls) = l ++ cr :: lf :: written ended ls := by
  obtain ⟨l', ls, rfl⟩ := List.exists_cons_of_ne_nil hne
  simp [written, List.intercalate]

/-- The last line of a file stands behind the others, each with its end. -/
theorem written_concat (ended : Bool) (ls : List (List UInt8)) (l : List UInt8) :
    written ended (ls ++ [l]) = joined ls ++ (l ++ if ended = true then [cr, lf] else []) := by
  induction ls with
  | nil => simp [written, joined]
  | cons l' ls ih =>
    rw [List.cons_append, written_cons ended l' (List.append_ne_nil_of_right_ne_nil ls (by simp)),
      ih, joined_cons]
    simp

theorem written_ended (ls : List (List UInt8)) : written true ls = joined ls := by
  rcases List.eq_nil_or_concat' ls with rfl | ⟨ls, l, rfl⟩
  · rfl
  · rw [written_concat]
    simp [joined]

/-- A file ends in an end of a line, or in a line. -/
theorem written_cases (ended : Bool) (ls : List (List UInt8)) :
    written ended ls = joined ls ∨
      ∃ ls' l, ls = ls' ++ [l] ∧ written ended ls = joined ls' ++ l := by
  cases ended with
  | true => exact Or.inl (written_ended ls)
  | false =>
    rcases List.eq_nil_or_concat' ls with rfl | ⟨ls', l, rfl⟩
    · exact Or.inl rfl
    · refine Or.inr ⟨ls', l, rfl, ?_⟩
      rw [written_concat, if_neg (by decide), List.append_nil]

/-- `Dispose` writes such a file of the hosts that are not empty. -/
theorem dispose_eq_written {vm : HostViewModel} {ls : List (List UInt8)}
    (hvm : vm.hosts = ls.map wide) (ha : ∀ l ∈ ls, ∀ b ∈ l, b.toNat < 0x80) :
    vm.dispose = some (written true (ls.filter fun l => decide (0 < l.length))) := by
  rw [written_ended, dispose_joined hvm ha]

/-! ## Its lines -/

section Lines

variable {ls : List (List UInt8)}

theorem noNul_written (hl : ∀ l ∈ ls, StorableLine l) (ended : Bool) : 0 ∉ written ended ls := by
  rcases written_cases ended ls with hq | ⟨ls', l, rfl, hq⟩
  · rw [hq]
    exact noNul_joined fun l hm => (hl l hm).noNul
  · rw [hq, List.mem_append, not_or]
    exact ⟨noNul_joined fun l' hm => (hl l' (List.mem_append_left _ hm)).noNul,
      (hl l (List.mem_append_right _ (List.mem_singleton_self l))).noNul⟩

theorem driverLines_written (hl : ∀ l ∈ ls, StorableLine l) (ended : Bool) :
    driverLines (written ended ls) = ls := by
  rcases written_cases ended ls with hq | ⟨ls', l, rfl, hq⟩
  · rw [hq]
    exact driverLines_joined fun l hm => (hl l hm).noCr
  · have hlast := hl l (List.mem_append_right _ (List.mem_singleton_self l))
    rw [hq, driverLines_joined_append fun l' hm => (hl l' (List.mem_append_left _ hm)).noCr,
      driverLines_noCr hlast.noCr hlast.nonempty]

/-- The last read starts in the file or at its end. -/
theorem lastOffset_written (hl : ∀ l ∈ ls, StorableLine l) (ended : Bool) :
    lastOffset (written ended ls) ≤ (written ended ls).length := by
  rcases written_cases ended ls with hq | ⟨ls', l, rfl, hq⟩
  · rw [hq, lastOffset_joined fun l hm => (hl l hm).noCr]
  · have hlast := hl l (List.mem_append_right _ (List.mem_singleton_self l))
    rw [hq, lastOffset_joined_append (fun l' hm => (hl l' (List.mem_append_left _ hm)).noCr)
      hlast.noCr, List.length_append]
    exact Nat.le_add_right _ _

end Lines

/-! ## Loading it -/

/-- A load of a written file adds just its lines to the list, in their order,
wherever the reads of 256 bytes cut it. -/
theorem loadFile_written {p : Allocator Ptr} {a : Adf} {b : Blocklist} (hab : Abstracts a b)
    (list : AdHost) (ended : Bool) {ls : List (List UInt8)} (hl : ∀ l ∈ ls, StorableLine l)
    (hsize : (written ended ls).length < 2 ^ 32) (hg : GrantsNext p a (2 * ls.length))
    {fuel : Nat} (hf : (written ended ls).length + 2 ≤ fuel) :
    ∃ closed a', loadFile p fuel a true (.ok (fileReader (written ended ls))) (.head list) =
        some (.returned statusSuccess closed a') ∧
      Appended a' b list ls := by
  have hlines := driverLines_written hl ended
  have hoff := lastOffset_written hl ended
  have hload : ∃ closed a', loadChunks p (.head list) (fileReader (written ended ls)) fuel 0 0 a =
        some (.returned statusSuccess closed a') ∧
      Appended a' b list (driverLines ((written ended ls).drop 0)) := by
    refine loadChunks_finishes (noNul_written hl ended) fuel 0 hab (by omega) (by omega) ?_ ?_ ?_
    · rw [List.drop_zero]
      omega
    · rw [List.drop_zero, hlines]
      exact fun l hm => (hl l hm).short
    · rwa [List.drop_zero, hlines]
  rwa [List.drop_zero, hlines] at hload

theorem storableLine_replicate {n : Nat} {c : UInt8} (hn : 0 < n) (hs : n ≤ adfHostMaxLen)
    (hc : c ≠ cr ∧ c ≠ lf ∧ c ≠ 0) : StorableLine (List.replicate n c) := by
  refine ⟨⟨?_, ?_, ?_⟩, ?_, ?_⟩
  · rw [ne_eq, List.replicate_eq_nil_iff]
    exact Nat.ne_of_gt hn
  · exact fun h => hc.1 (List.eq_of_mem_replicate h).symm
  · exact fun h => hc.2.1 (List.eq_of_mem_replicate h).symm
  · exact fun h => hc.2.2 (List.eq_of_mem_replicate h).symm
  · rwa [List.length_replicate]

/-- Two lines of 126 bytes: the CR after the second is byte 254 of the first read. -/
theorem loadFile_written_cut :
    ∃ closed a', loadFile bumpAllocator 258 (initLists blankAdf) true
        (.ok (fileReader (written true [List.replicate 126 97, List.replicate 126 98])))
        (.head .user) = some (.returned statusSuccess closed a') ∧
      Appended a' ⟨0, fun _ => []⟩ .user [List.replicate 126 97, List.replicate 126 98] := by
  have hlen : (written true [List.replicate 126 97, List.replicate 126 98]).length = 256 := by
    rw [written_ended, length_joined]
    simp only [size_cons, size_nil, List.length_replicate]
  refine loadFile_written abstracts_blank .user true ?_ (by rw [hlen]; decide) (fun _ _ => rfl)
    (by rw [hlen])
  intro l hl
  rcases List.mem_cons.mp hl with rfl | hl
  · exact storableLine_replicate (by decide) (by decide) (by decide)
  · obtain rfl := List.mem_singleton.mp hl
    exact storableLine_replicate (by decide) (by decide) (by decide)

end AdFilter.App.WrittenFile
