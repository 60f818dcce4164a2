import AdFilter.App.Agreement
import Mathlib.Data.List.Flatten

/-!
# A load of the host file that fails

The constructor of `HostViewModel` drops an exception wherever it comes from and keeps
the hosts it has read so far, and `Dispose` writes the file from the hosts. A file that
could not be read to its end comes back cut, unless all that was left of it is empty. One
that the reader does not give byte by byte comes back changed.
-/

namespace AdFilter.App.FailedLoad

open AdFilter.Lib.TextLines
open AdFilter.Lib.Utf
open AdFilter.Driver.LoadFile (cr)
open AdFilter.App.Adf (Text)
open AdFilter.App.ViewModel
open AdFilter.App.Readers (cr_ne_lf)
open AdFilter.App.Agreement

/-- Where the constructor meets an exception. -/
inductive Failure
  | never
  /-- The file name is not there, or the file does not open. -/
  | atOpen
  /-- `ReadLine` throws after it has been called so often. -/
  | afterLines (n : Nat)
deriving DecidableEq, Repr

section Lines

variable {α : Type} [DecidableEq α] (cr lf : α)

/-- The lines that are kept of a text. -/
def kept (text : List α) : Failure → List (List α)
  | .never => filled cr lf text
  | .atOpen => []
  | .afterLines n => filledUntil cr lf n text

/-- The part of a text that the exception keeps from being read. -/
def lost (text : List α) : Failure → List α
  | .never => []
  | .atOpen => text
  | .afterLines n => unread cr lf n text

theorem filled_eq_kept_append (text : List α) (failure : Failure) :
    filled cr lf text = kept cr lf text failure ++ filled cr lf (lost cr lf text failure) := by
  cases failure with
  | never => rw [kept, lost, filled_nil, List.append_nil]
  | atOpen => rfl
  | afterLines n => exact filled_eq_append cr lf n text

theorem isLine_of_mem_kept {text l : List α} {failure : Failure}
    (hl : l ∈ kept cr lf text failure) : IsLine cr lf l := by
  have hm : l ∈ filled cr lf text := by
    rw [filled_eq_kept_append cr lf text failure]
    exact List.mem_append_left _ hl
  exact isLine_of_mem_filled hm

end Lines

theorem kept_flatMap {α β : Type} [DecidableEq α] [DecidableEq β] {f : α → List β} {cr lf : α}
    {cr' lf' : β} (h : Respects f cr lf cr' lf') (text : List α) (failure : Failure) :
    kept cr' lf' (text.flatMap f) failure = (kept cr lf text failure).map (·.flatMap f) := by
  cases failure with
  | never => exact filled_flatMap h text
  | atOpen => rfl
  | afterLines n => exact filledUntil_flatMap h n text

theorem kept_utf8 (cs : List Char) (failure : Failure) :
    kept cr lf (utf8 cs) failure = (kept '\r' '\n' cs failure).map utf8 :=
  kept_flatMap respects_utf8 cs failure

/-- The constructor on a file that is there. -/
def ctorFailing (other : List UInt8 → List Char) (except : Bool) (content : List UInt8)
    (failure : Failure) : HostViewModel where
  hosts := kept 0x0d 0x0a (streamReader other content) failure
  except := except

/-- The file once the view model is disposed of. -/
def fileAfter (other : List UInt8 → List Char) (except : Bool) (content : List UInt8)
    (failure : Failure) : Option (List UInt8) :=
  (ctorFailing other except content failure).dispose

/-- A file that comes through the reader and the writer as it is: well-formed UTF-8 without a
byte order mark. -/
def Lossless (content : List UInt8) : Prop :=
  ∃ cs, content = utf8 cs ∧ cs.head? ≠ some byteOrderMark

instance (content : List UInt8) : Decidable (Lossless content) :=
  decidable_of_iff (∃ cs ∈ utf8Chars content, cs.head? ≠ some byteOrderMark)
    (exists_congr fun _ => and_congr_left fun _ => utf8Chars_eq_some_iff)

variable {other : List UInt8 → List Char} {except : Bool} {content : List UInt8}

/-- An exception only matters through what it cuts off: the constructor without one is the
constructor of the sessions, and so is the one whose file does not open. -/
theorem ctorFailing_ctor :
    ctorFailing other except content .never = HostViewModel.ctor other except (some content) ∧
      ctorFailing other except content .atOpen = HostViewModel.ctor other except none :=
  ⟨rfl, rfl⟩

/-- The new file has just the lines that were read, in UTF-8. -/
theorem filled_fileAfter (except : Bool) {cs : List Char}
    (hcs : streamReader other content = utf16 cs) (failure : Failure) :
    ∃ after, fileAfter other except content failure = some after ∧
      filled cr lf after = kept cr lf (utf8 cs) failure := by
  have hhosts : (ctorFailing other except content failure).hosts =
      (kept '\r' '\n' cs failure).map utf16 := by
    rw [ctorFailing, hcs]
    exact kept_flatMap respects_utf16 cs failure
  have hfilter : (kept '\r' '\n' cs failure).filter (fun l => decide (0 < l.length)) =
      kept '\r' '\n' cs failure :=
    List.filter_eq_self.mpr fun l hl =>
      decide_eq_true (List.length_pos_iff.mpr (isLine_of_mem_kept _ _ hl).nonempty)
  refine ⟨joined ((kept '\r' '\n' cs failure).map utf8), ?_, ?_⟩
  · rw [fileAfter, dispose_utf16 hhosts, hfilter]
  · rw [filled_joined]
    · exact (kept_utf8 cs failure).symm
    · intro l hl
      obtain ⟨l, hm, rfl⟩ := List.mem_map.mp hl
      exact (isLine_of_mem_kept _ _ hm).flatMap respects_utf8

theorem streamReader_utf8 (other : List UInt8 → List Char) {cs : List Char}
    (hmark : cs.head? ≠ some byteOrderMark) :
    streamReader other (utf8 cs) = utf16 cs := by
  rw [streamReader, utf8Chars_utf8]
  exact congrArg utf16 (if_neg hmark)

/-- A file of which the lines are kept is one that the reader gives as it is: no line of another
one can stand in what the writer makes. -/
theorem lossless_of_sublist {after : List UInt8} {failure : Failure}
    (hafter : fileAfter other except content failure = some after)
    (hsub : (filled cr lf content).Sublist (filled cr lf after)) : Lossless content := by
  cases hchars : utf8Chars content with
  | none =>
    have hread : streamReader other content = utf16 (other content) := by
      rw [streamReader, hchars]
    obtain ⟨after', hafter', hlines⟩ := filled_fileAfter except hread failure
    obtain rfl := Option.some.inj (hafter.symm.trans hafter')
    have hwell : ∀ l ∈ filled cr lf content, ∃ cs, l = utf8 cs := by
      intro l hl
      have hm := hlines ▸ hsub.subset hl
      rw [kept_utf8] at hm
      obtain ⟨ds, -, rfl⟩ := List.mem_map.mp hm
      exact ⟨ds, rfl⟩
    obtain ⟨cs, rfl⟩ := of_filled (P := fun bs => ∃ cs, bs = utf8 cs) ⟨['\r'], by decide⟩
      ⟨['\n'], by decide⟩ ⟨[], rfl⟩
      (by
        rintro _ _ ⟨cs, rfl⟩ ⟨ds, rfl⟩
        exact ⟨cs ++ ds, (utf8_append cs ds).symm⟩)
      hwell
    rw [utf8Chars_utf8] at hchars
    exact absurd hchars (Option.some_ne_none _)
  | some cs =>
    obtain rfl := utf8Chars_eq_some_iff.mp hchars
    refine ⟨cs, rfl, fun hmark => ?_⟩
    obtain ⟨cs, rfl⟩ := List.head?_eq_some_iff.mp hmark
    have hskip : streamReader other (utf8 (byteOrderMark :: cs)) = utf16 cs := by
      rw [streamReader, utf8Chars_utf8]
      exact congrArg utf16 (if_pos hmark)
    obtain ⟨after', hafter', hlines⟩ := filled_fileAfter except hskip failure
    obtain rfl := Option.some.inj (hafter.symm.trans hafter')
    -- the mark is in a line of the file and in none that was read
    have hread : (filled cr lf after).Sublist (filled cr lf (utf8 cs)) := by
      rw [hlines, filled_eq_kept_append cr lf (utf8 cs) failure]
      exact List.sublist_append_left _ _
    have hbytes : 0 < ((utf8 [byteOrderMark]).filter fun c => ¬ (c = cr ∨ c = lf)).length := by
      decide
    have hle := (hsub.trans hread).flatten.length_le
    rw [flatten_filled, flatten_filled, ← List.singleton_append, utf8_append, List.filter_append,
      List.length_append] at hle
    omega

/-- A load and a save keep the lines of the file that are not empty, in their order, just
when there is nothing but line ends past the exception and the file is lossless. -/
theorem file_kept_iff (other : List UInt8 → List Char) (except : Bool) (content : List UInt8)
    (failure : Failure) :
    ∃ after, fileAfter other except content failure = some after ∧
      ((filled cr lf content).Sublist (filled cr lf after) ↔
        (∀ c ∈ lost cr lf content failure, c = cr ∨ c = lf) ∧ Lossless content) := by
  by_cases hl : Lossless content
  · obtain ⟨cs, rfl, hmark⟩ := id hl
    obtain ⟨after, hafter, hlines⟩ :=
      filled_fileAfter except (streamReader_utf8 other hmark) failure
    refine ⟨after, hafter, ?_⟩
    rw [and_iff_left hl, hlines, filled_eq_kept_append cr lf (utf8 cs) failure,
      ← filled_eq_nil_iff]
    constructor
    · intro h
      have hle := h.length_le
      rw [List.length_append] at hle
      exact List.length_eq_zero_iff.mp (by omega)
    · intro h
      rw [h, List.append_nil]
  · have hcs : ∃ cs, streamReader other content = utf16 cs := by
      rw [streamReader]
      split <;> exact ⟨_, rfl⟩
    obtain ⟨cs, hcs⟩ := hcs
    obtain ⟨after, hafter, -⟩ := filled_fileAfter except hcs failure
    refine ⟨after, hafter, ?_⟩
    exact iff_of_false (fun h => hl (lossless_of_sublist hafter h)) fun h => hl h.2

/-- A Latin-1 file is not lossless. -/
example : ¬ Lossless [0x61, 0xe9, 0x2e, 0x62, 0x0d, 0x0a] := by decide

/-- A file of two hosts that cannot be read past its first line loses the second one. -/
theorem second_line_lost :
    ¬ ∀ (other : List UInt8 → List Char) (except : Bool) (content : List UInt8)
        (failure : Failure),
      ∃ after, fileAfter other except content failure = some after ∧
        (filled cr lf content).Sublist (filled cr lf after) := by
  intro h
  have hl : ∀ l ∈ [[97, 46, 98], [99, 46, 100]], IsLine cr lf l := by
    intro l hm
    rcases List.mem_pair.mp hm with rfl | rfl <;> exact ⟨by decide, by decide, by decide⟩
  obtain ⟨after, hafter, hsub⟩ :=
    h (fun _ => []) false (joined [[97, 46, 98], [99, 46, 100]]) (.afterLines 1)
  let cs := ['a', '.', 'b', '\r', '\n', 'c', '.', 'd', '\r', '\n']
  have hfile : utf8 cs = joined [[97, 46, 98], [99, 46, 100]] := by decide
  have hread := streamReader_utf8 (fun _ => []) (by decide : cs.head? ≠ some byteOrderMark)
  obtain ⟨after', hafter', hlines⟩ := filled_fileAfter false hread (.afterLines 1)
  rw [hfile] at hafter' hlines
  obtain rfl := Option.some.inj (hafter.symm.trans hafter')
  rw [hlines, filled_joined hl] at hsub
  exact absurd hsub.length_le (by decide)

end AdFilter.App.FailedLoad
