import AdFilter.Driver.FileLines

/-!
# The windows of a host file

A file of any bytes as the copy loop sees it: a line ends at a CR or at a NUL, and
nothing behind a NUL is read. The driver looks at it through windows of 255 bytes,
the next of which starts behind the whole lines of the one before.
-/

namespace AdFilter.Driver.Windows

open AdFilter.Driver.HostList
open AdFilter.Driver.LoadFile
open AdFilter.Driver.FileLines

/-- The bytes that stop the copy loop. -/
def isEnd (c : UInt8) : Bool := c == cr || c == 0

/-- The first line of a text, without its end. -/
def lineOf (text : List UInt8) : List UInt8 := text.takeWhile fun c => !isEnd c

/-- A CR ends the first line. -/
def Ended (text : List UInt8) : Prop := text[(lineOf text).length]? = some cr

instance (text : List UInt8) : Decidable (Ended text) := inferInstanceAs (Decidable (_ = _))

theorem Ended.length_lt {text : List UInt8} (h : Ended text) :
    (lineOf text).length < text.length := by
  obtain ⟨hlt, -⟩ := List.getElem?_eq_some_iff.mp h
  exact hlt

/-- The lines that a CR ends, and the part of a line after them, up to the first NUL
or the end. -/
def splitText (text : List UInt8) : List (List UInt8) × List UInt8 :=
  if h : Ended text then
    have : (text.drop ((lineOf text).length + 2)).length < text.length := by
      have hlt := h.length_lt
      rw [List.length_drop]
      omega
    let r := splitText (text.drop ((lineOf text).length + 2))
    (lineOf text :: r.1, r.2)
  else ([], lineOf text)
termination_by text.length

/-- All lines of a text. The last one has no CR. -/
def textLines (text : List UInt8) : List (List UInt8) := (splitText text).1 ++ [(splitText text).2]

/-- What one read of a file shows of it at an offset. -/
def window (content : List UInt8) (offset : Nat) : List UInt8 :=
  (content.drop offset).take (buffSize - 1)

/-- The offsets a file is read at, when there is memory for its lines. -/
inductive ReadOffset (content : List UInt8) : Nat → Prop
  | start : ReadOffset content 0
  | next {offset : Nat} : ReadOffset content offset →
      (splitText (window content offset)).1 ≠ [] →
      ReadOffset content ((offset + size (splitText (window content offset)).1) % 2 ^ 32)

/-- The longest line that `len` takes. A debug build prints it as a string, and needs
room for a NUL. -/
def lineLimit (dbg : Bool) : Nat := if dbg = true then 127 else 128

/-- The lines of a window have room in `len`. The part of a line at its end is not
printed, unless it is all there is. -/
structure WindowFits (dbg : Bool) (w : List UInt8) : Prop where
  whole : ∀ l ∈ (splitText w).1, l.length ≤ lineLimit dbg
  part : (splitText w).2.length ≤ adfHostMaxLen
  alone : (splitText w).1 = [] → (splitText w).2.length ≤ lineLimit dbg

/-- A file that has room: below 4 GiB no line of it is too long. From there on the
offset may go round, and all windows count. -/
def Fits (dbg : Bool) (content : List UInt8) : Prop :=
  if content.length + 1 < 2 ^ 32 then ∀ l ∈ textLines content, l.length ≤ lineLimit dbg
  else ∀ offset, ReadOffset content offset → WindowFits dbg (window content offset)

theorem splitText_ended {text : List UInt8} (h : Ended text) :
    splitText text = (lineOf text :: (splitText (text.drop ((lineOf text).length + 2))).1,
      (splitText (text.drop ((lineOf text).length + 2))).2) := by
  rw [splitText, dif_pos h]

theorem splitText_part {text : List UInt8} (h : ¬ Ended text) :
    splitText text = ([], lineOf text) := by
  rw [splitText, dif_neg h]

@[simp] theorem splitText_nil : splitText [] = ([], []) := splitText_part (by decide)

theorem lineOf_cons (c : UInt8) (rest : List UInt8) :
    lineOf (c :: rest) = if isEnd c = true then [] else c :: lineOf rest := by
  rw [lineOf, List.takeWhile_cons]
  cases isEnd c <;> rfl

theorem ended_cons {c : UInt8} (hc : isEnd c = false) (rest : List UInt8) :
    Ended (c :: rest) ↔ Ended rest := by
  rw [Ended, lineOf_cons, hc]
  rfl

theorem lineOf_noNul (text : List UInt8) : 0 ∉ lineOf text := by
  intro h
  have hend := List.mem_takeWhile_imp h
  exact absurd hend (by decide)

theorem lineOf_take (text : List UInt8) (k : Nat) : lineOf (text.take k) = (lineOf text).take k :=
  List.take_takeWhile.symm

/-- A text without an end is one line. -/
theorem splitText_line {l : List UInt8} (h : ∀ c ∈ l, isEnd c = false) : splitText l = ([], l) := by
  have hline : lineOf l = l := List.takeWhile_eq_self_iff.mpr fun c hc => by rw [h c hc]; rfl
  have hend : ¬ Ended l := fun he => absurd he.length_lt (by rw [hline]; exact Nat.lt_irrefl _)
  rw [splitText_part hend, hline]

/-- A line that a window shows with its CR. -/
theorem Ended.of_take {text : List UInt8} {k : Nat} (h : Ended (text.take k)) :
    lineOf (text.take k) = lineOf text ∧ Ended text ∧ (lineOf text).length < k := by
  have hlt : (lineOf (text.take k)).length < k := by
    have h1 := h.length_lt
    rw [List.length_take] at h1
    omega
  have hline : lineOf (text.take k) = lineOf text := by
    rw [lineOf_take] at hlt ⊢
    refine List.take_of_length_le ?_
    rw [List.length_take] at hlt
    omega
  rw [hline] at hlt
  refine ⟨hline, ?_, hlt⟩
  rwa [Ended, hline, List.getElem?_take_of_lt hlt] at h

/-- A window that shows its first line whole goes on as a window behind it. -/
theorem splitText_take_ended {text : List UInt8} {k : Nat} (h : Ended (text.take k)) :
    let rest := (text.drop ((lineOf text).length + 2)).take (k - ((lineOf text).length + 2))
    splitText (text.take k) = (lineOf text :: (splitText rest).1, (splitText rest).2) := by
  intro rest
  have hdrop : (text.take k).drop ((lineOf text).length + 2) = rest := List.drop_take
  rw [splitText_ended h, h.of_take.1, hdrop]

/-- The whole lines of a window are the first ones of the text, and the part after
them is a piece of the next one. -/
theorem splitText_take (text : List UInt8) (k : Nat) :
    let ls := (splitText (text.take k)).1
    splitText text = (ls ++ (splitText (text.drop (size ls))).1,
        (splitText (text.drop (size ls))).2) ∧
      (splitText (text.take k)).2 = (lineOf (text.drop (size ls))).take (k - size ls) := by
  generalize hn : text.length = n
  induction n using Nat.strong_induction_on generalizing text k with
  | _ n ih =>
    by_cases h : Ended (text.take k)
    · obtain ⟨-, hend, -⟩ := h.of_take
      have hlt := hend.length_lt
      have hrest := ih (text.drop ((lineOf text).length + 2)).length
        (by rw [List.length_drop]; omega) _ (k - ((lineOf text).length + 2)) rfl
      rw [splitText_take_ended h]
      dsimp only at hrest ⊢
      rw [List.drop_drop, Nat.sub_sub] at hrest
      rw [size_cons, splitText_ended hend, hrest.1, List.cons_append]
      exact ⟨rfl, hrest.2⟩
    · rw [splitText_part h]
      refine ⟨?_, lineOf_take text k⟩
      rfl

theorem splitText_noNul (text : List UInt8) : 0 ∉ (splitText text).2 := by
  have h := (splitText_take text text.length).2
  rw [List.take_length] at h
  rw [h]
  exact fun hm => lineOf_noNul _ (List.mem_of_mem_take hm)

/-- Whole lines take no more than the text and one byte. -/
theorem size_splitText_le (text : List UInt8) : size (splitText text).1 ≤ text.length + 1 := by
  generalize hn : text.length = n
  induction n using Nat.strong_induction_on generalizing text with
  | _ n ih =>
    by_cases h : Ended text
    · have hlt := h.length_lt
      rw [splitText_ended h, size_cons]
      by_cases hd : text.length ≤ (lineOf text).length + 2
      · rw [List.drop_eq_nil_iff.mpr hd, splitText_nil, size_nil]
        omega
      · have hrest := ih (text.length - ((lineOf text).length + 2)) (by omega)
          (text.drop ((lineOf text).length + 2)) List.length_drop
        omega
    · rw [splitText_part h, size_nil]
      exact Nat.zero_le _

theorem two_le_size {ls : List (List UInt8)} (h : ls ≠ []) : 2 ≤ size ls := by
  obtain ⟨l, ls, rfl⟩ := List.exists_cons_of_ne_nil h
  rw [size_cons]
  omega

theorem lineLimit_le (dbg : Bool) : lineLimit dbg ≤ adfHostMaxLen := by
  cases dbg <;> decide

/-! ## Files below 4 GiB -/

/-- No line of a text is too long. -/
def Short (dbg : Bool) (text : List UInt8) : Prop := ∀ l ∈ textLines text, l.length ≤ lineLimit dbg

theorem textLines_take (text : List UInt8) (k : Nat) :
    textLines text = (splitText (text.take k)).1 ++
      textLines (text.drop (size (splitText (text.take k)).1)) := by
  have h := (splitText_take text k).1
  rw [textLines, h, List.append_assoc]
  rfl

/-- The first line is among the lines, with its CR or without. -/
theorem lineOf_mem (text : List UInt8) : lineOf text ∈ textLines text := by
  rw [textLines]
  by_cases h : Ended text
  · rw [splitText_ended h]
    exact List.mem_cons_self
  · rw [splitText_part h]
    exact List.mem_singleton_self _

theorem Short.windowFits {dbg : Bool} {text : List UInt8} (h : Short dbg text) (k : Nat) :
    WindowFits dbg (text.take k) := by
  have hlines := textLines_take text k
  have hpart : (splitText (text.take k)).2.length ≤ lineLimit dbg := by
    rw [(splitText_take text k).2, List.length_take]
    refine Nat.le_trans (Nat.min_le_right _ _) (h _ ?_)
    rw [hlines]
    exact List.mem_append_right _ (lineOf_mem _)
  refine ⟨fun l hl => h l ?_, Nat.le_trans hpart (lineLimit_le dbg), fun _ => hpart⟩
  rw [hlines]
  exact List.mem_append_left _ hl

/-- The whole lines of a window end in the file, or one byte behind it. -/
theorem next_le {content : List UInt8} {offset : Nat}
    (hne : (splitText (window content offset)).1 ≠ []) :
    2 ≤ size (splitText (window content offset)).1 ∧
      offset + size (splitText (window content offset)).1 ≤ content.length + 1 := by
  have hsize := size_splitText_le (window content offset)
  have htwo := two_le_size hne
  have hlen : (window content offset).length ≤ content.length - offset := by
    rw [window, List.length_take, List.length_drop]
    exact Nat.min_le_right _ _
  omega

/-- The offsets of a file below 4 GiB stay in it, and with its lines short the lines
from them on are short. -/
theorem Short.drop {dbg : Bool} {content : List UInt8} (h : Short dbg content)
    (hsize : content.length + 1 < 2 ^ 32) {offset : Nat} (ho : ReadOffset content offset) :
    Short dbg (content.drop offset) := by
  induction ho with
  | start => exact h
  | @next offset ho hne ih =>
    have hle := (next_le hne).2
    rw [Nat.mod_eq_of_lt (by omega), ← List.drop_drop]
    intro l hl
    refine ih l ?_
    rw [textLines_take (content.drop offset) (buffSize - 1)]
    exact List.mem_append_right _ hl

/-- A window that fits and has no whole line shows all of the last line. -/
theorem WindowFits.last {dbg : Bool} {text : List UInt8} {k : Nat}
    (h : WindowFits dbg (text.take k)) (hk : lineLimit dbg < k)
    (hnil : (splitText (text.take k)).1 = []) : Short dbg text := by
  have halone := h.alone hnil
  have hpart := (splitText_take text k).2
  rw [hnil, size_nil, List.drop_zero, Nat.sub_zero] at hpart
  rw [hpart, List.length_take] at halone
  have hshort : (lineOf text).length ≤ lineLimit dbg := by omega
  have hline : lineOf (text.take k) = lineOf text := by
    rw [lineOf_take]
    exact List.take_of_length_le (by omega)
  have hend : ¬ Ended text := by
    intro he
    have hw : Ended (text.take k) := by
      rw [Ended, hline, List.getElem?_take_of_lt (by omega)]
      exact he
    rw [splitText_ended hw] at hnil
    exact absurd hnil (List.cons_ne_nil _ _)
  intro l hl
  rw [textLines, splitText_part hend, List.nil_append, List.mem_singleton] at hl
  rwa [hl]

/-- Windows that fit have short lines, by induction on what is left of the file. -/
theorem Short.of_windows {dbg : Bool} {content : List UInt8}
    (hsize : content.length + 1 < 2 ^ 32)
    (h : ∀ offset, ReadOffset content offset → WindowFits dbg (window content offset))
    {offset : Nat} (ho : ReadOffset content offset) : Short dbg (content.drop offset) := by
  generalize hn : content.length + 1 - offset = n
  induction n using Nat.strong_induction_on generalizing offset with
  | _ n ih =>
    have hfits := h offset ho
    by_cases hne : (splitText (window content offset)).1 = []
    · refine hfits.last ?_ hne
      cases dbg <;> decide
    · obtain ⟨htwo, hle⟩ := next_le hne
      have hnext := ReadOffset.next ho hne
      rw [Nat.mod_eq_of_lt (by omega)] at hnext
      have hrest := ih _ (by omega) hnext rfl
      intro l hl
      rw [textLines_take (content.drop offset) (buffSize - 1)] at hl
      rcases List.mem_append.mp hl with hl | hl
      · exact hfits.whole l hl
      · rw [List.drop_drop] at hl
        exact hrest l hl

/-- Both readings of a file that has room are the same. -/
theorem fits_iff (dbg : Bool) (content : List UInt8) :
    Fits dbg content ↔
      ∀ offset, ReadOffset content offset → WindowFits dbg (window content offset) := by
  rw [Fits]
  split_ifs with hsize
  · constructor
    · intro h offset ho
      exact (Short.drop h hsize ho).windowFits _
    · intro h
      exact Short.of_windows hsize h .start
  · exact Iff.rfl

end AdFilter.Driver.Windows
