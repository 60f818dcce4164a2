import AdFilter.App.ViewModel
import AdFilter.Driver.FileLines
import AdFilter.Driver.Refine

/-!
# The two readers of a host file

The driver ends a line at a CR and drops the byte after it; the view model ends a
line at a CR, a LF or both and drops empty lines. They read the same hosts out of
a file of ASCII characters just when each of its lines is ended in a way that is one to both.
-/

namespace AdFilter.App.Readers

open AdFilter.Nt
open AdFilter.Lib.Pool
open AdFilter.Lib.TextLines
open AdFilter.Lib.Utf
open AdFilter.Driver.HostList
open AdFilter.Driver.Abstract
open AdFilter.Driver.Represent
open AdFilter.Driver.LoadFile
open AdFilter.Driver.FileLines
open AdFilter.App.Adf (listOf)
open AdFilter.App.ViewModel
open AdFilter.Driver.Refine (abstracts_blank)

theorem cr_ne_lf : cr ≠ lf := by decide

/-- The files both readers agree on: no empty lines, and every line ended by a CR
with a LF or a second CR, but for the last one, which may have a CR or nothing. -/
inductive Agreeable : List UInt8 → Prop
  | nil : Agreeable []
  | last (l : List UInt8) : IsLine cr lf l → Agreeable l
  | lastCr (l : List UInt8) : IsLine cr lf l → Agreeable (l ++ [cr])
  | line (l : List UInt8) (e : UInt8) (rest : List UInt8) :
      IsLine cr lf l → e = cr ∨ e = lf → Agreeable rest → Agreeable (l ++ cr :: e :: rest)

/-- The lines of a file take little more room than the file. -/
theorem size_filled_le (content : List UInt8) :
    2 * size (filled cr lf content) ≤ 3 * content.length + 3 := by
  induction content using lines_induction cr lf with
  | nil =>
    rw [filled_nil, size_nil]
    omega
  | line content hne ih =>
    obtain ⟨-, -, ending, -, heq, hlast⟩ := nextLine_split cr lf content
    have hlen := congrArg List.length heq
    rw [List.length_append, List.length_append] at hlen
    rw [filled_eq hne]
    cases ending with
    | nil =>
      have hpos := List.length_pos_iff.mpr hne
      have hif : 0 < (content, ([] : List UInt8)).1.length := hpos
      rw [hlast rfl, filled_nil, if_pos hif, size_cons, size_nil]
      dsimp only
      omega
    | cons c ending =>
      rw [List.length_cons] at hlen
      split_ifs with h0
      · rw [size_cons]
        omega
      · omega

/-! ## Agreement -/

theorem Agreeable.head_ne_lf {content : List UInt8} (h : Agreeable content) :
    content.head? ≠ some lf := by
  cases h with
  | nil => exact nofun
  | last l hl => simpa using hl.head_ne_lf []
  | lastCr l hl => exact hl.head_ne_lf _
  | line l e rest hl he hr => exact hl.head_ne_lf _

theorem takeWhile_line {l : List UInt8} (hl : cr ∉ l) (rest : List UInt8) :
    (l ++ cr :: rest).takeWhile (· ≠ cr) = l := by
  have hall : ∀ x ∈ l, decide (x ≠ cr) = true := fun x hx => decide_eq_true fun he => hl (he ▸ hx)
  rw [List.takeWhile_append_of_pos hall]
  simp

theorem driverLines_line {l : List UInt8} (hl : cr ∉ l) (rest : List UInt8) :
    driverLines (l ++ cr :: rest) = l :: driverLines rest.tail := by
  rw [driverLines_cr (by simp), takeWhile_line hl]
  congr 2
  simp [List.drop_append]

/-- On an agreeable file both readers find the same lines. -/
theorem Agreeable.driverLines_eq {content : List UInt8} (h : Agreeable content) :
    driverLines content = filled cr lf content := by
  induction h with
  | nil => rw [driverLines_nil, filled_nil]
  | last l hl => rw [driverLines_noCr hl.noCr hl.nonempty, hl.filled]
  | lastCr l hl =>
    rw [driverLines_line hl.noCr, hl.filled_cr cr_ne_lf]
    simp
  | line l e rest hl he hr ih =>
    rw [driverLines_line hl.noCr, hl.filled_cr cr_ne_lf, List.tail_cons, ih]
    rcases he with rfl | rfl
    · have hcr : ¬ (cr :: rest).head? = some lf := by
        rw [List.head?_cons]
        decide
      rw [if_neg hcr, filled_cr cr_ne_lf, if_neg hr.head_ne_lf]
    · simp

/-- The first line of a reader that meets a LF at once has it. -/
theorem exists_lf_driverLines (rest : List UInt8) : ∃ l ∈ driverLines (lf :: rest), lf ∈ l := by
  have hne : lf ≠ cr := by decide
  refine ⟨_, takeWhile_mem_driverLines (List.cons_ne_nil lf rest), ?_⟩
  simp [hne]

theorem nextLine_takeWhile {content : List UInt8} (h : lf ∉ content.takeWhile (· ≠ cr)) :
    (nextLine cr lf content).1 = content.takeWhile (· ≠ cr) := by
  induction content with
  | nil => rfl
  | cons c rest ih =>
    by_cases hcr : c = cr
    · have hlf : ¬ cr = lf := by decide
      simp [nextLine, hcr, hlf]
    · have htw : (c :: rest).takeWhile (· ≠ cr) = c :: rest.takeWhile (· ≠ cr) := by simp [hcr]
      rw [htw] at h ⊢
      have hlf : c ≠ lf := fun he => h (he ▸ List.mem_cons_self)
      rw [nextLine_other hlf hcr, ih fun hm => h (List.mem_cons_of_mem c hm)]

/-- Where a line end is not one to both, the lists differ from there on. -/
theorem agreeable_of_driverLines_eq {content : List UInt8}
    (h : driverLines content = filled cr lf content) : Agreeable content := by
  generalize hn : content.length = n
  induction n using Nat.strong_induction_on generalizing content with
  | _ n ih =>
    by_cases hne : content = []
    · exact hne ▸ Agreeable.nil
    by_cases hcr : cr ∈ content
    · obtain ⟨l, rest, rfl, hl⟩ := List.eq_append_cons_of_mem hcr
      rw [driverLines_line hl] at h
      have hlines : ∀ k ∈ l :: driverLines rest.tail, IsLine cr lf k :=
        fun k hk => isLine_of_mem_filled (h ▸ hk)
      have hline := hlines l List.mem_cons_self
      rw [hline.filled_cr cr_ne_lf] at h
      have htail := (List.cons.inj h).2
      cases rest with
      | nil => exact Agreeable.lastCr l hline
      | cons e rest =>
        have hlt : rest.length < n := by
          rw [← hn, List.length_append, List.length_cons, List.length_cons]
          omega
        rw [List.tail_cons] at htail
        by_cases he : e = lf
        · subst he
          rw [List.head?_cons, if_pos rfl] at htail
          exact Agreeable.line l lf rest hline (Or.inr rfl) (ih _ hlt htail rfl)
        rw [List.head?_cons, if_neg (by simpa using he)] at htail
        by_cases he' : e = cr
        · subst he'
          rw [filled_cr cr_ne_lf] at htail
          have hhead : ¬ rest.head? = some lf := by
            intro hh
            obtain ⟨rest', rfl⟩ := List.head?_eq_some_iff.mp hh
            obtain ⟨k, hk, hlf⟩ := exists_lf_driverLines rest'
            exact (hlines k (List.mem_cons_of_mem l hk)).noLf hlf
          rw [if_neg hhead] at htail
          exact Agreeable.line l cr rest hline (Or.inl rfl) (ih _ hlt htail rfl)
        · -- the view model keeps the byte that the driver drops
          exfalso
          have hpos : 0 < (nextLine cr lf (e :: rest)).1.length := by
            rw [nextLine_other he he']
            exact Nat.zero_lt_succ _
          rw [filled_eq (List.cons_ne_nil e rest), if_pos hpos, nextLine_other he he']
            at htail
          by_cases hrest : rest = []
          · rw [hrest, driverLines_nil] at htail
            exact absurd htail (List.cons_ne_nil _ _).symm
          obtain ⟨ls, hls⟩ := driverLines_head hrest
          have hfirst := (List.cons.inj (hls.symm.trans htail)).1
          have hlf : lf ∉ rest.takeWhile (· ≠ cr) :=
            (hlines _ (List.mem_cons_of_mem l (takeWhile_mem_driverLines hrest))).noLf
          have hlen := congrArg List.length hfirst
          rw [nextLine_takeWhile hlf, List.length_cons] at hlen
          omega
    · have hmem : content ∈ filled cr lf content := by
        rw [← h, driverLines_noCr hcr hne]
        exact List.mem_cons_self
      exact Agreeable.last content (isLine_of_mem_filled hmem)

/-- A file of printable ASCII characters and line ends, with lines that fit. -/
structure TextFile (content : List UInt8) : Prop where
  chars : ∀ c ∈ content, (0x20 ≤ c ∧ c ≤ 0x7e) ∨ c = cr ∨ c = lf
  short : ∀ l ∈ filled cr lf content, l.length ≤ adfHostMaxLen

theorem TextFile.noNul {content : List UInt8} (ht : TextFile content) : 0 ∉ content := by
  intro h
  rcases ht.chars 0 h with ⟨h1, -⟩ | h1 | h1 <;> exact absurd h1 (by decide)

theorem TextFile.ascii {content : List UInt8} (ht : TextFile content) :
    ∀ c ∈ content, c.toNat < 0x80 := by
  intro c hc
  rcases ht.chars c hc with ⟨-, h⟩ | rfl | rfl
  · exact Nat.lt_of_le_of_lt (UInt8.le_iff_toNat_le.mp h) (by decide)
  · decide
  · decide

/-- `load_file` ends with success, and its list is that of the view model. -/
def ReadersAgree (other : List UInt8 → List Char) (p : Allocator Ptr) (a : Adf) (except : Bool)
    (content : List UInt8) : Prop :=
  ∃ fuel closed a' b', loadFile p fuel a true (.ok (fileReader content)) (.head (listOf except)) =
      some (.returned statusSuccess closed a') ∧ Abstracts a' b' ∧
    (b'.hosts (listOf except)).map (fun h => wide h.chars) =
      (HostViewModel.ctor other except (some content)).hosts

section Agreement

variable {other : List UInt8 → List Char} {p : Allocator Ptr} {a : Adf} {b : Blocklist}
  {except : Bool} {content : List UInt8}

/-- Lists that agree come from lines that agree: an offset that goes round would
have put more into the list than the file holds. -/
theorem ReadersAgree.lines (ht : TextFile content) (hab : Abstracts a b)
    (he : b.hosts (listOf except) = []) (h : ReadersAgree other p a except content) :
    driverLines content = filled cr lf content ∧ lastOffset content < 2 ^ 32 ∧
      GrantsNext p a (2 * (filled cr lf content).length) := by
  obtain ⟨fuel, closed, a', b', hload, hab', hq⟩ := h
  obtain ⟨ls, happ, hg, hbound, hcase⟩ := loadChunks_returned ht.noNul hab (by decide) hload
  have hls : ls = filled cr lf content := by
    rw [ctor_ascii ht.ascii] at hq
    apply List.map_injective_iff.mpr wide_injective
    rw [← hq, ← happ.hosts he hab', List.map_map]
    rfl
  have hsize := size_filled_le content
  rw [adfHostMaxLen] at hbound
  rw [List.drop_zero, Nat.zero_add, Nat.zero_add, hls] at hcase
  rcases hcase with ⟨hd, hlt⟩ | hge
  · exact ⟨hd.symm, hlt, hls ▸ hg⟩
  · omega

end Agreement

/-- On a text file the two readers agree exactly when it has no line end that only
one of them knows, the driver's offset does not go round, and there is memory. -/
theorem readers_agree_iff (other : List UInt8 → List Char) {p : Allocator Ptr} {a : Adf}
    {b : Blocklist} (hab : Abstracts a b) (except : Bool) (he : b.hosts (listOf except) = [])
    {content : List UInt8} (ht : TextFile content) :
    ReadersAgree other p a except content ↔
      Agreeable content ∧ lastOffset content < 2 ^ 32 ∧
        GrantsNext p a (2 * (filled cr lf content).length) := by
  constructor
  · intro h
    obtain ⟨hd, hlt, hg⟩ := h.lines ht hab he
    exact ⟨agreeable_of_driverLines_eq hd, hlt, hg⟩
  · rintro ⟨ha, hlt, hg⟩
    have hd := ha.driverLines_eq
    obtain ⟨closed, a', hload, happ⟩ := loadChunks_finishes ht.noNul (content.length + 2) 0
      (o := 0) hab (by omega) (by omega)
      (by rwa [List.drop_zero, Nat.zero_add])
      (by rw [List.drop_zero, hd]; exact ht.short) (by rwa [List.drop_zero, hd])
    rw [List.drop_zero, hd] at happ
    obtain ⟨hs, hq, hab'⟩ := happ
    refine ⟨content.length + 2, closed, a', _, hload, hab', ?_⟩
    rw [ctor_ascii ht.ascii, ← Appended.hosts ⟨hs, hq, hab'⟩ he hab', List.map_map]
    rfl

/-- `a.b` and `c.d` with a CR and a LF between them. -/
theorem readers_agree_two_lines :
    ReadersAgree (fun _ => []) bumpAllocator (initLists blankAdf) false
      [97, 46, 98, 13, 10, 99, 46, 100] := by
  have hl : ∀ x : UInt8, x = 97 ∨ x = 99 → ∀ y : UInt8, y = 98 ∨ y = 100 →
      IsLine cr lf [x, 46, y] := by
    rintro x (rfl | rfl) y (rfl | rfl) <;> exact ⟨by decide, by decide, by decide⟩
  have ha : Agreeable [97, 46, 98, 13, 10, 99, 46, 100] :=
    Agreeable.line [97, 46, 98] lf [99, 46, 100] (hl 97 (by decide) 98 (by decide)) (Or.inr rfl)
      (Agreeable.last _ (hl 99 (by decide) 100 (by decide)))
  have hd := driverLines_line (l := [97, 46, 98]) (by decide) [10, 99, 46, 100]
  have hd' : driverLines [99, 46, 100] = [[99, 46, 100]] := driverLines_noCr (by decide) (by decide)
  rw [List.tail_cons, hd'] at hd
  have hr := ha.driverLines_eq
  refine (readers_agree_iff _ abstracts_blank false rfl ⟨by simp [cr, lf], ?_⟩).mpr
    ⟨ha, Nat.lt_of_le_of_lt (lastOffset_le _) (by decide), fun _ _ => rfl⟩
  rw [← hr]
  intro l hm
  have hm' : l ∈ [[97, 46, 98], [99, 46, 100]] := hd ▸ hm
  simp only [List.mem_cons, List.not_mem_nil, or_false] at hm'
  rcases hm' with rfl | rfl <;> decide

/-- The file `a.b` with a LF alone: the driver takes the LF into the host. -/
theorem readers_differ_on_lf :
    ¬ ∀ (other : List UInt8 → List Char) (p : Allocator Ptr) (a : Adf) (b : Blocklist),
      Abstracts a b → ∀ (except : Bool), b.hosts (listOf except) = [] →
      ∀ content : List UInt8, TextFile content → ReadersAgree other p a except content := by
  intro h
  have h0 : driverLines [97, 46, 98, 10] = [[97, 46, 98, 10]] :=
    driverLines_noCr (by decide) (by decide)
  have hread : filled cr lf [97, 46, 98, 10] = [[97, 46, 98]] := by
    rw [filled_eq (by decide)]
    simp [nextLine, lf, cr]
  have ht : TextFile [97, 46, 98, 10] := by
    refine ⟨by simp [cr, lf], fun l hl => ?_⟩
    rw [hread, List.mem_singleton] at hl
    rw [hl]
    decide
  have hagree := h (fun _ => []) bumpAllocator _ _ abstracts_blank false rfl [97, 46, 98, 10] ht
  obtain ⟨hq, -, -⟩ := hagree.lines ht abstracts_blank rfl
  rw [h0, hread] at hq
  exact absurd hq (by decide)

end AdFilter.App.Readers
