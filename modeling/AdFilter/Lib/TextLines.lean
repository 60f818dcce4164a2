import Mathlib.Tactic.Common

/-!
# The lines of a text

A line ends at a CR, a LF or both in this order. `filled` are the lines that are not empty.
A code that keeps the two and gives every other character letters of its own keeps the lines:
what it makes of a text has for its lines what it makes of them.
-/

namespace AdFilter.Lib.TextLines

section Ends

variable {α : Type} {cr lf : α}

/-- A line that is not empty, without its end. -/
structure IsLine (cr lf : α) (l : List α) : Prop where
  nonempty : l ≠ []
  noCr : cr ∉ l
  noLf : lf ∉ l

theorem IsLine.head_ne_lf {l : List α} (hl : IsLine cr lf l) (rest : List α) :
    (l ++ rest).head? ≠ some lf := by
  obtain ⟨c, l, rfl⟩ := List.exists_cons_of_ne_nil hl.nonempty
  intro h
  have hc : c = lf := by simpa using h
  exact hl.noLf (hc ▸ List.mem_cons_self)

end Ends

section Lines

variable {α : Type} [DecidableEq α] (cr lf : α)

/-- The first line, and what is left of the text. -/
def nextLine : List α → List α × List α
  | [] => ([], [])
  | c :: rest =>
      if c = lf then ([], rest)
      else if c = cr then ([], if rest.head? = some lf then rest.tail else rest)
      else
        let r := nextLine rest
        (c :: r.1, r.2)

theorem nextLine_length (c : α) (rest : List α) :
    (nextLine cr lf (c :: rest)).2.length ≤ rest.length := by
  induction rest generalizing c with
  | nil =>
    rw [nextLine]
    split_ifs <;> simp [nextLine]
  | cons c' rest ih =>
    rw [nextLine]
    split_ifs
    · exact Nat.le_refl _
    · simp
    · exact Nat.le_refl _
    · exact Nat.le_succ_of_le (ih c')

/-- The lines of a text but the empty ones. -/
def filled : List α → List (List α)
  | [] => []
  | c :: rest =>
      let r := nextLine cr lf (c :: rest)
      have : r.2.length < rest.length + 1 := Nat.lt_succ_of_le (nextLine_length cr lf c rest)
      if 0 < r.1.length then r.1 :: filled r.2 else filled r.2
termination_by content => content.length
decreasing_by all_goals exact this

/-- The lines among the first `n` that are not empty. -/
def filledUntil : Nat → List α → List (List α)
  | 0, _ => []
  | _ + 1, [] => []
  | n + 1, c :: rest =>
      let r := nextLine cr lf (c :: rest)
      if 0 < r.1.length then r.1 :: filledUntil n r.2 else filledUntil n r.2

/-- The text past the first `n` lines. -/
def unread : Nat → List α → List α
  | 0, content => content
  | _ + 1, [] => []
  | n + 1, c :: rest => unread n (nextLine cr lf (c :: rest)).2

variable {cr lf}

/-! ## The first line -/

theorem nextLine_other {c : α} (hlf : c ≠ lf) (hcr : c ≠ cr) (rest : List α) :
    nextLine cr lf (c :: rest) = (c :: (nextLine cr lf rest).1, (nextLine cr lf rest).2) := by
  rw [nextLine, if_neg hlf, if_neg hcr]

theorem nextLine_append {l : List α} (hcr : cr ∉ l) (hlf : lf ∉ l) (rest : List α) :
    nextLine cr lf (l ++ rest) = (l ++ (nextLine cr lf rest).1, (nextLine cr lf rest).2) := by
  induction l with
  | nil => rfl
  | cons c l ih =>
    have h1 : c ≠ lf := fun h => hlf (h ▸ List.mem_cons_self)
    have h2 : c ≠ cr := fun h => hcr (h ▸ List.mem_cons_self)
    rw [List.cons_append, nextLine_other h1 h2, ih (fun h => hcr (List.mem_cons_of_mem c h))
      (fun h => hlf (List.mem_cons_of_mem c h))]
    rfl

theorem nextLine_line {l : List α} (hcr : cr ∉ l) (hlf : lf ∉ l) : nextLine cr lf l = (l, []) := by
  have h := nextLine_append hcr hlf []
  rwa [nextLine, List.append_nil] at h

theorem nextLine_lf (rest : List α) : nextLine cr lf (lf :: rest) = ([], rest) := by
  rw [nextLine, if_pos rfl]

theorem nextLine_cr (hne : cr ≠ lf) (rest : List α) : nextLine cr lf (cr :: rest) =
    ([], if rest.head? = some lf then rest.tail else rest) := by
  rw [nextLine, if_neg hne, if_pos rfl]

/-- A text is its first line, an end of it, and what is left. -/
theorem nextLine_split (cr lf : α) (content : List α) :
    cr ∉ (nextLine cr lf content).1 ∧ lf ∉ (nextLine cr lf content).1 ∧
      ∃ ending : List α, (∀ c ∈ ending, c = cr ∨ c = lf) ∧
        content = (nextLine cr lf content).1 ++ (ending ++ (nextLine cr lf content).2) ∧
        (ending = [] → nextLine cr lf content = (content, [])) := by
  induction content with
  | nil => exact ⟨List.not_mem_nil, List.not_mem_nil, [], nofun, rfl, fun _ => rfl⟩
  | cons c rest ih =>
    obtain ⟨h1, h2, ending, hends, heq, hlast⟩ := ih
    rw [nextLine]
    by_cases hlf : c = lf
    · rw [if_pos hlf]
      exact ⟨List.not_mem_nil, List.not_mem_nil, [c], by simp [hlf], rfl, nofun⟩
    by_cases hcr : c = cr
    · rw [if_neg hlf, if_pos hcr]
      refine ⟨List.not_mem_nil, List.not_mem_nil, ?_⟩
      by_cases hhead : rest.head? = some lf
      · obtain ⟨rest', rfl⟩ := List.head?_eq_some_iff.mp hhead
        exact ⟨[c, lf], by simp [hcr], by simp, nofun⟩
      · rw [if_neg hhead]
        exact ⟨[c], by simp [hcr], rfl, nofun⟩
    · rw [if_neg hlf, if_neg hcr]
      refine ⟨?_, ?_, ending, hends, congrArg (c :: ·) heq, fun hnil => ?_⟩
      · exact fun h => (List.mem_cons.mp h).elim (fun h => hcr h.symm) h1
      · exact fun h => (List.mem_cons.mp h).elim (fun h => hlf h.symm) h2
      · rw [hlast hnil]

/-! ## All lines -/

@[simp] theorem filled_nil : filled cr lf [] = [] := by rw [filled]

theorem filled_eq {content : List α} (hne : content ≠ []) :
    filled cr lf content =
      if 0 < (nextLine cr lf content).1.length then
        (nextLine cr lf content).1 :: filled cr lf (nextLine cr lf content).2
      else filled cr lf (nextLine cr lf content).2 := by
  cases content with
  | nil => exact absurd rfl hne
  | cons c rest => rw [filled]

/-- The rule of induction over the lines of a text. -/
theorem lines_induction (cr lf : α) {P : List α → Prop} (nil : P [])
    (line : ∀ content, content ≠ [] → P (nextLine cr lf content).2 → P content)
    (content : List α) : P content := by
  generalize hn : content.length = n
  induction n using Nat.strongRecOn generalizing content with
  | _ n ih =>
    cases content with
    | nil => exact nil
    | cons c rest =>
      have hle := nextLine_length cr lf c rest
      rw [List.length_cons] at hn
      exact line _ (List.cons_ne_nil c rest) (ih _ (by omega) _ rfl)

theorem filledUntil_succ (n : Nat) {content : List α} (hne : content ≠ []) :
    filledUntil cr lf (n + 1) content =
      if 0 < (nextLine cr lf content).1.length then
        (nextLine cr lf content).1 :: filledUntil cr lf n (nextLine cr lf content).2
      else filledUntil cr lf n (nextLine cr lf content).2 := by
  cases content with
  | nil => exact absurd rfl hne
  | cons c rest => rfl

/-- The lines are the first ones and those of the rest. -/
theorem filled_eq_append (cr lf : α) (n : Nat) (content : List α) :
    filled cr lf content =
      filledUntil cr lf n content ++ filled cr lf (unread cr lf n content) := by
  induction n generalizing content with
  | zero => rfl
  | succ n ih =>
    cases content with
    | nil => rw [filledUntil, unread, filled_nil, List.append_nil]
    | cons c rest =>
      rw [filled_eq (List.cons_ne_nil c rest), filledUntil, unread]
      split_ifs
      · rw [ih, List.cons_append]
      · exact ih _

theorem isLine_of_mem_filled {content l : List α} (hl : l ∈ filled cr lf content) :
    IsLine cr lf l := by
  induction content using lines_induction cr lf with
  | nil =>
    rw [filled_nil] at hl
    exact absurd hl List.not_mem_nil
  | line content hne ih =>
    obtain ⟨h1, h2, -⟩ := nextLine_split cr lf content
    rw [filled_eq hne] at hl
    split_ifs at hl with h0
    · rcases List.mem_cons.mp hl with rfl | hl
      · exact ⟨List.length_pos_iff.mp h0, h1, h2⟩
      · exact ih hl
    · exact ih hl

/-- A text is its lines, with nothing but ends between them. -/
theorem flatten_filled (cr lf : α) (content : List α) :
    (filled cr lf content).flatten = content.filter fun c => ¬ (c = cr ∨ c = lf) := by
  induction content using lines_induction cr lf with
  | nil => rw [filled_nil]; rfl
  | line content hne ih =>
    obtain ⟨h1, h2, ending, hends, heq, -⟩ := nextLine_split cr lf content
    have hline : (nextLine cr lf content).1.filter (fun c => ¬ (c = cr ∨ c = lf)) =
        (nextLine cr lf content).1 := by
      refine List.filter_eq_self.mpr fun c hc => decide_eq_true fun h => ?_
      rcases h with rfl | rfl
      · exact h1 hc
      · exact h2 hc
    have hending : ending.filter (fun c => ¬ (c = cr ∨ c = lf)) = [] :=
      List.filter_eq_nil_iff.mpr fun c hc h => of_decide_eq_true h (hends c hc)
    have hcontent : content.filter (fun c => ¬ (c = cr ∨ c = lf)) =
        (nextLine cr lf content).1 ++
          (nextLine cr lf content).2.filter fun c => ¬ (c = cr ∨ c = lf) := by
      nth_rewrite 1 [heq]
      rw [List.filter_append, List.filter_append, hline, hending, List.nil_append]
    rw [hcontent, filled_eq hne]
    split_ifs with h0
    · rw [List.flatten_cons, ih]
    · rw [ih, List.length_eq_zero_iff.mp (Nat.eq_zero_of_not_pos h0), List.nil_append]

/-- Ends of lines are all that makes no line. -/
theorem filled_eq_nil_iff (content : List α) :
    filled cr lf content = [] ↔ ∀ c ∈ content, c = cr ∨ c = lf := by
  have hflat := flatten_filled cr lf content
  constructor
  · intro h
    rw [h, List.flatten_nil] at hflat
    intro c hc
    by_contra hnot
    exact List.filter_eq_nil_iff.mp hflat.symm c hc (decide_eq_true hnot)
  · intro h
    have hnil : content.filter (fun c => ¬ (c = cr ∨ c = lf)) = [] :=
      List.filter_eq_nil_iff.mpr fun c hc hnot => of_decide_eq_true hnot (h c hc)
    rw [hnil, List.flatten_eq_nil_iff] at hflat
    refine List.eq_nil_iff_forall_not_mem.mpr fun l hl => ?_
    exact (isLine_of_mem_filled hl).nonempty (hflat l hl)

/-- What holds of the lines and of the ends holds of the text. -/
theorem of_filled {P : List α → Prop} (hcr : P [cr]) (hlf : P [lf]) (hnil : P [])
    (happ : ∀ xs ys, P xs → P ys → P (xs ++ ys)) {content : List α}
    (h : ∀ l ∈ filled cr lf content, P l) : P content := by
  induction content using lines_induction cr lf with
  | nil => exact hnil
  | line content hne ih =>
    obtain ⟨-, -, ending, hends, heq, -⟩ := nextLine_split cr lf content
    have hending : P ending := by
      clear heq
      induction ending with
      | nil => exact hnil
      | cons c ending ihe =>
        rw [← List.singleton_append]
        refine happ _ _ ?_ (ihe fun d hd => hends d (List.mem_cons_of_mem c hd))
        rcases hends c List.mem_cons_self with rfl | rfl
        · exact hcr
        · exact hlf
    have hfirst : P (nextLine cr lf content).1 ∧ P (nextLine cr lf content).2 := by
      rw [filled_eq hne] at h
      split_ifs at h with h0
      · exact ⟨h _ List.mem_cons_self, ih fun l hl => h l (List.mem_cons_of_mem _ hl)⟩
      · exact ⟨List.length_eq_zero_iff.mp (Nat.eq_zero_of_not_pos h0) ▸ hnil, ih h⟩
    rw [heq]
    exact happ _ _ hfirst.1 (happ _ _ hending hfirst.2)

theorem IsLine.filled {l : List α} (hl : IsLine cr lf l) : filled cr lf l = [l] := by
  rw [filled_eq hl.nonempty, nextLine_line hl.noCr hl.noLf,
    if_pos (List.length_pos_iff.mpr hl.nonempty), filled_nil]

theorem IsLine.filled_cr (hne : cr ≠ lf) {l : List α} (hl : IsLine cr lf l) (rest : List α) :
    TextLines.filled cr lf (l ++ cr :: rest) =
      l :: TextLines.filled cr lf (if rest.head? = some lf then rest.tail else rest) := by
  have hline : nextLine cr lf (l ++ cr :: rest) =
      (l, if rest.head? = some lf then rest.tail else rest) := by
    rw [nextLine_append hl.noCr hl.noLf, nextLine_cr hne, List.append_nil]
  rw [filled_eq (by simp), hline, if_pos (List.length_pos_iff.mpr hl.nonempty)]

/-- An empty line is passed over. -/
theorem filled_cr (hne : cr ≠ lf) (rest : List α) : TextLines.filled cr lf (cr :: rest) =
    TextLines.filled cr lf (if rest.head? = some lf then rest.tail else rest) := by
  rw [filled_eq (List.cons_ne_nil _ _), nextLine_cr hne, if_neg (by simp)]

end Lines

/-! ## Another alphabet -/

section Codes

variable {α β : Type}

/-- A code of the characters that keeps the ends of lines. -/
structure Respects (f : α → List β) (cr lf : α) (cr' lf' : β) : Prop where
  crEq : f cr = [cr']
  lfEq : f lf = [lf']
  ne : cr' ≠ lf'
  other : ∀ c, c ≠ cr → c ≠ lf → IsLine cr' lf' (f c)

variable {f : α → List β} {cr lf : α} {cr' lf' : β}

theorem Respects.ne_nil (h : Respects f cr lf cr' lf') (c : α) : f c ≠ [] := by
  by_cases hcr : c = cr
  · rw [hcr, h.crEq]
    exact List.cons_ne_nil _ _
  by_cases hlf : c = lf
  · rw [hlf, h.lfEq]
    exact List.cons_ne_nil _ _
  exact (h.other c hcr hlf).nonempty

theorem Respects.flatMap_eq_nil_iff (h : Respects f cr lf cr' lf') (content : List α) :
    content.flatMap f = [] ↔ content = [] := by
  constructor
  · intro hnil
    refine List.eq_nil_iff_forall_not_mem.mpr fun c hc => ?_
    exact h.ne_nil c (List.flatMap_eq_nil_iff.mp hnil c hc)
  · rintro rfl
    rfl

theorem Respects.length_flatMap_pos_iff (h : Respects f cr lf cr' lf') (content : List α) :
    0 < (content.flatMap f).length ↔ 0 < content.length := by
  rw [List.length_pos_iff, List.length_pos_iff, ne_eq, h.flatMap_eq_nil_iff]

theorem Respects.head_flatMap_iff (h : Respects f cr lf cr' lf') (content : List α) :
    (content.flatMap f).head? = some lf' ↔ content.head? = some lf := by
  cases content with
  | nil => exact iff_of_false nofun nofun
  | cons c rest =>
    rw [List.flatMap_cons, List.head?_cons, Option.some.injEq]
    by_cases hlf : c = lf
    · rw [hlf, h.lfEq]
      exact iff_of_true rfl rfl
    refine iff_of_false ?_ hlf
    by_cases hcr : c = cr
    · rw [hcr, h.crEq]
      exact fun heq => h.ne (Option.some.inj heq)
    · exact (h.other c hcr hlf).head_ne_lf _

variable [DecidableEq α] [DecidableEq β]

theorem nextLine_flatMap (h : Respects f cr lf cr' lf') (content : List α) :
    nextLine cr' lf' (content.flatMap f) =
      ((nextLine cr lf content).1.flatMap f, (nextLine cr lf content).2.flatMap f) := by
  induction content with
  | nil => rfl
  | cons c rest ih =>
    rw [List.flatMap_cons]
    by_cases hlf : c = lf
    · rw [hlf, h.lfEq, nextLine_lf, List.singleton_append, nextLine_lf]
      rfl
    by_cases hcr : c = cr
    · subst hcr
      rw [h.crEq, nextLine_cr hlf, List.singleton_append, nextLine_cr h.ne, List.flatMap_nil]
      by_cases hhead : rest.head? = some lf
      · rw [if_pos hhead, if_pos ((h.head_flatMap_iff rest).mpr hhead)]
        obtain ⟨rest', rfl⟩ := List.head?_eq_some_iff.mp hhead
        rw [List.flatMap_cons, h.lfEq]
        rfl
      · rw [if_neg hhead, if_neg (mt (h.head_flatMap_iff rest).mp hhead)]
    · have hc := h.other c hcr hlf
      rw [nextLine_append hc.noCr hc.noLf, ih, nextLine_other hlf hcr]
      rfl

/-- The lines of a coded text. -/
theorem filled_flatMap (h : Respects f cr lf cr' lf') (content : List α) :
    filled cr' lf' (content.flatMap f) = (filled cr lf content).map (·.flatMap f) := by
  induction content using lines_induction cr lf with
  | nil => rw [List.flatMap_nil, filled_nil, filled_nil, List.map_nil]
  | line content hne ih =>
    rw [filled_eq (mt (h.flatMap_eq_nil_iff content).mp hne), nextLine_flatMap h, filled_eq hne, ih,
      if_congr (h.length_flatMap_pos_iff _) rfl rfl]
    split_ifs
    · rw [List.map_cons]
    · rfl

theorem filledUntil_flatMap (h : Respects f cr lf cr' lf') (n : Nat) (content : List α) :
    filledUntil cr' lf' n (content.flatMap f) =
      (filledUntil cr lf n content).map (·.flatMap f) := by
  induction n generalizing content with
  | zero => rfl
  | succ n ih =>
    by_cases hne : content = []
    · subst hne
      rfl
    rw [filledUntil_succ n (mt (h.flatMap_eq_nil_iff content).mp hne), nextLine_flatMap h,
      filledUntil_succ n hne, ih,
      if_congr (h.length_flatMap_pos_iff _) rfl rfl]
    split_ifs
    · rw [List.map_cons]
    · rfl

/-- The code of a line is a line. -/
theorem IsLine.flatMap (h : Respects f cr lf cr' lf') {l : List α} (hl : IsLine cr lf l) :
    IsLine cr' lf' (l.flatMap f) := by
  have hcode := filled_flatMap h l
  rw [hl.filled, List.map_singleton] at hcode
  exact isLine_of_mem_filled (hcode ▸ List.mem_singleton_self _)

end Codes

end AdFilter.Lib.TextLines
