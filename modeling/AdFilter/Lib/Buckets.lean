import AdFilter.Lib.Linked

/-!
# Buckets of doubly linked cells

A table has a first cell for every bucket, and every cell has a link to the next one and
one to the one before. `Exact` says which cells the buckets hold: those that are live,
each in the bucket of its key. A new cell goes to the front of its bucket, and a cell is
taken out through its own links, wherever it is.
-/

namespace AdFilter.Lib.Buckets

open AdFilter.Lib.Linked

variable {α ι : Type}

/-! ## Segments -/

/-- From `p` the cells `as` are linked in both ways and lead to `q`; the first one links
back to `b`. -/
def Segment (next prev : α → Option α) : Option α → Option α → List α → Option α → Prop
  | _, p, [], q => p = q
  | b, p, a :: as, q => p = some a ∧ prev a = b ∧ Segment next prev (some a) (next a) as q

variable {next prev next' prev' : α → Option α} {b p q : Option α} {as bs : List α} {a : α}

theorem Segment.spans (h : Segment next prev b p as none) : Spans next p as := by
  induction as generalizing b p with
  | nil => exact h
  | cons a as ih => exact ⟨h.1, ih h.2.2⟩

/-- Only the links of the segment's own cells count. -/
theorem Segment.congr (h : Segment next prev b p as q) (hn : ∀ a ∈ as, next' a = next a)
    (hp : ∀ a ∈ as, prev' a = prev a) : Segment next' prev' b p as q := by
  induction as generalizing b p with
  | nil => exact h
  | cons a as ih =>
    obtain ⟨rfl, hb, ht⟩ := h
    refine ⟨rfl, (hp a List.mem_cons_self).trans hb, ?_⟩
    rw [hn a List.mem_cons_self]
    exact ih ht (fun c hc => hn c (List.mem_cons_of_mem a hc))
      fun c hc => hp c (List.mem_cons_of_mem a hc)

theorem segment_append_iff : Segment next prev b p (as ++ bs) q ↔
    ∃ m, Segment next prev b p as m ∧ Segment next prev (as.getLast?.or b) m bs q := by
  induction as generalizing b p with
  | nil =>
    constructor
    · exact fun h => ⟨p, rfl, h⟩
    · rintro ⟨m, rfl, h⟩
      exact h
  | cons a as ih =>
    have hlast : (a :: as).getLast?.or b = as.getLast?.or (some a) := by
      rw [List.getLast?_cons]
      cases as.getLast? <;> rfl
    rw [hlast, List.cons_append]
    constructor
    · rintro ⟨hp, hb, ht⟩
      obtain ⟨m, h₁, h₂⟩ := ih.mp ht
      exact ⟨m, ⟨hp, hb, h₁⟩, h₂⟩
    · rintro ⟨m, ⟨hp, hb, h₁⟩, h₂⟩
      exact ⟨hp, hb, ih.mpr ⟨m, h₁, h₂⟩⟩

section Writes

variable [DecidableEq α]

/-- A write through a pointer that may be null. -/
def writeAt (f : α → Option α) (p v : Option α) : α → Option α :=
  match p with
  | none => f
  | some c => Function.update f c v

theorem writeAt_of_ne (f : α → Option α) (v : Option α) (h : p ≠ some a) :
    writeAt f p v a = f a := by
  cases p with
  | none => rfl
  | some c =>
    have hc : a ≠ c := fun hc => h (congrArg some hc.symm)
    exact Function.update_of_ne hc _ _

/-- The first cell is linked back to another one. -/
theorem Segment.linkBack (h : Segment next prev b p as none) (b' : Option α) :
    Segment next (writeAt prev p b') b' p as none := by
  have hn := h.spans.nodup
  cases as with
  | nil => exact h
  | cons a as =>
    obtain ⟨rfl, -, ht⟩ := h
    refine ⟨rfl, ?_, ?_⟩
    · rw [writeAt, Function.update_self]
    · apply ht.congr (fun _ _ => rfl)
      intro c hc
      exact Function.update_of_ne (ne_of_mem_of_not_mem hc (List.nodup_cons.mp hn).1) _ _

/-- The last cell is linked to another one. -/
theorem Segment.linkLast (h : Segment next prev b p (as ++ [a]) q) (ha : a ∉ as)
    (q' : Option α) : Segment (Function.update next a q') prev b p (as ++ [a]) q' := by
  obtain ⟨m, h₁, h₂⟩ := segment_append_iff.mp h
  refine segment_append_iff.mpr ⟨m, ?_, h₂.1, h₂.2.1, ?_⟩
  · exact h₁.congr (fun c hc => Function.update_of_ne (ne_of_mem_of_not_mem hc ha) _ _)
      fun _ _ => rfl
  · rw [Function.update_self]
    rfl

/-- A write to the back link of a segment's first cell does not reach other cells. -/
theorem Segment.writeAt_of_notMem (h : Segment next prev b p as none) {c : α} (hc : c ∉ as)
    (v : Option α) : writeAt prev p v c = prev c := by
  apply writeAt_of_ne
  intro hp
  have hs := h.spans
  rw [hp] at hs
  obtain ⟨cs, rfl, -⟩ := spans_some_iff.mp hs
  exact hc List.mem_cons_self

/-- The cell that is taken out is the first one. -/
theorem Segment.unlink_first (h : Segment next prev none p (as ++ a :: bs) none)
    (hp : prev a = none) :
    as = [] ∧ Segment next (writeAt prev (next a) none) none (next a) bs none := by
  obtain ⟨m, -, -, hback, hbs⟩ := segment_append_iff.mp h
  rw [hp, Option.or_none] at hback
  exact ⟨List.getLast?_eq_none_iff.mp hback.symm, hbs.linkBack none⟩

/-- The cell that is taken out comes after `l`. -/
theorem Segment.unlink_after {l : α} (h : Segment next prev none p (as ++ a :: bs) none)
    (hp : prev a = some l) :
    l ∈ as ∧ Segment (Function.update next l (next a)) (writeAt prev (next a) (some l)) none p
      (as ++ bs) none := by
  have hn := h.spans.nodup
  obtain ⟨m, has, rfl, hback, hbs⟩ := segment_append_iff.mp h
  rw [hp, Option.or_none] at hback
  obtain ⟨as, rfl⟩ := List.getLast?_eq_some_iff.mp hback.symm
  have hl : l ∈ as ++ [l] := List.mem_append_right as (List.mem_singleton_self l)
  have hsep : ∀ c ∈ as ++ [l], c ∉ bs := fun c hc hm =>
    List.disjoint_of_nodup_append hn hc (List.mem_cons_of_mem a hm)
  refine ⟨hl, segment_append_iff.mpr ⟨next a, ?_, ?_⟩⟩
  · have hlast : l ∉ as := fun hm =>
      List.disjoint_of_nodup_append (List.nodup_append.mp hn).1 hm (List.mem_singleton_self l)
    exact (has.linkLast hlast (next a)).congr (fun _ _ => rfl) fun c hc =>
      hbs.writeAt_of_notMem (hsep c hc) (some l)
  · rw [← hback, Option.or_none]
    apply (hbs.linkBack (some l)).congr _ fun _ _ => rfl
    intro c hc
    have hne : c ≠ l := fun he => hsep l hl (he ▸ hc)
    exact Function.update_of_ne hne _ _

end Writes

/-! ## Tables -/

@[ext]
structure Table (ι α : Type) where
  head : ι → Option α
  next : α → Option α
  prev : α → Option α

/-- The buckets are `rows`, and hold the live cells by their keys. -/
structure Table.Exact (t : Table ι α) (rows : ι → List α) (live : α → Prop) (key : α → ι) :
    Prop where
  row : ∀ i, Segment t.next t.prev none (t.head i) (rows i) none
  mem : ∀ i a, a ∈ rows i ↔ live a ∧ key a = i

variable {t t' : Table ι α} {rows : ι → List α} {live live' : α → Prop} {key key' : α → ι}

theorem Table.Exact.spans (h : t.Exact rows live key) (i : ι) : Spans t.next (t.head i) (rows i) :=
  (h.row i).spans

theorem Table.Exact.nodup (h : t.Exact rows live key) (i : ι) : (rows i).Nodup := (h.spans i).nodup

/-- Cells that are not live may be written over. -/
theorem Table.Exact.congr (h : t.Exact rows live key) (hh : t'.head = t.head)
    (hn : ∀ a, live a → t'.next a = t.next a) (hp : ∀ a, live a → t'.prev a = t.prev a)
    (hl : ∀ a, live' a ↔ live a) (hk : ∀ a, live a → key' a = key a) :
    t'.Exact rows live' key' := by
  refine ⟨fun i => ?_, fun i a => ?_⟩
  · rw [hh]
    exact (h.row i).congr (fun a ha => hn a ((h.mem i a).mp ha).1)
      fun a ha => hp a ((h.mem i a).mp ha).1
  · rw [h.mem, hl]
    exact and_congr_right fun ha => by rw [hk a ha]

theorem Table.exact_empty (key : α → ι) (hh : ∀ i, t.head i = none) (hl : ∀ a, ¬ live a) :
    t.Exact (fun _ => []) live key :=
  ⟨hh, fun _ a => ⟨fun h => absurd h List.not_mem_nil, fun h => absurd h.1 (hl a)⟩⟩

section Operations

variable [DecidableEq ι] [DecidableEq α]

/-- A new cell goes to the front of the bucket, and what was there links back to it. -/
def Table.link (t : Table ι α) (i : ι) (a : α) : Table ι α where
  head := Function.update t.head i (some a)
  next := Function.update t.next a (t.head i)
  prev := writeAt t.prev (t.head i) (some a)

/-- The new cell links back to none. -/
def Table.push (t : Table ι α) (i : ι) (a : α) : Table ι α :=
  { t.link i a with prev := Function.update (t.link i a).prev a none }

/-- The neighbours of the cell, or the bucket, are linked past it. -/
def Table.unlink (t : Table ι α) (i : ι) (a : α) : Table ι α :=
  let t' : Table ι α :=
    match t.prev a with
    | some p => { t with next := Function.update t.next p (t.next a) }
    | none => { t with head := Function.update t.head i (t.next a) }
  { t' with prev := writeAt t'.prev (t'.next a) (t'.prev a) }

theorem Table.link_eq_push {i : ι} (hp : t.prev a = none) (hh : t.head i ≠ some a) :
    t.link i a = t.push i a := by
  have hself : Function.update (t.link i a).prev a none = (t.link i a).prev := by
    have ha : (t.link i a).prev a = none := (writeAt_of_ne t.prev (some a) hh).trans hp
    rw [← ha, Function.update_eq_self]
  rw [Table.push, hself]

theorem Table.Exact.push (h : t.Exact rows live key) (ha : ¬ live a)
    (hk : ∀ c, live c → key' c = key c) :
    (t.push (key' a) a).Exact (Function.update rows (key' a) (a :: rows (key' a)))
      (fun c => c = a ∨ live c) key' := by
  have hrows : ∀ i, a ∉ rows i := fun i hm => ha ((h.mem i a).mp hm).1
  have hnext : ∀ i, ∀ c ∈ rows i, (t.push (key' a) a).next c = t.next c := fun i c hc =>
    Function.update_of_ne (ne_of_mem_of_not_mem hc (hrows i)) _ _
  have hprev : ∀ i, ∀ c ∈ rows i, (t.push (key' a) a).prev c = (t.link (key' a) a).prev c :=
    fun i c hc => Function.update_of_ne (ne_of_mem_of_not_mem hc (hrows i)) _ _
  refine ⟨fun i => ?_, fun i c => ?_⟩
  · by_cases hi : i = key' a
    · subst hi
      show Segment _ _ none (Function.update t.head (key' a) (some a) (key' a)) _ none
      rw [Function.update_self, Function.update_self]
      have hfirst : (t.push (key' a) a).next a = t.head (key' a) := Function.update_self ..
      refine ⟨rfl, Function.update_self .., ?_⟩
      rw [hfirst]
      exact ((h.row (key' a)).linkBack (some a)).congr (hnext _) (hprev _)
    · show Segment _ _ none (Function.update t.head (key' a) (some a) i) _ none
      rw [Function.update_of_ne hi, Function.update_of_ne hi]
      refine (h.row i).congr (hnext i) fun c hc => (hprev i c hc).trans ?_
      -- the first cell of the other bucket is not in this one
      apply writeAt_of_ne
      intro hf
      have hs := h.spans (key' a)
      rw [hf] at hs
      obtain ⟨cs, hcs, -⟩ := spans_some_iff.mp hs
      have hc' : c ∈ rows (key' a) := hcs ▸ List.mem_cons_self
      exact hi (((h.mem i c).mp hc).2.symm.trans ((h.mem _ c).mp hc').2)
  · by_cases hi : i = key' a
    · subst hi
      rw [Function.update_self, List.mem_cons, h.mem]
      constructor
      · rintro (rfl | ⟨hl, hc⟩)
        · exact ⟨Or.inl rfl, rfl⟩
        · exact ⟨Or.inr hl, (hk c hl).trans hc⟩
      · rintro ⟨rfl | hl, hc⟩
        · exact Or.inl rfl
        · exact Or.inr ⟨hl, (hk c hl).symm.trans hc⟩
    · rw [Function.update_of_ne hi, h.mem]
      constructor
      · rintro ⟨hl, hc⟩
        exact ⟨Or.inr hl, (hk c hl).trans hc⟩
      · rintro ⟨rfl | hl, hc⟩
        · exact absurd hc.symm hi
        · exact ⟨hl, (hk c hl).symm.trans hc⟩

theorem Table.Exact.unlink (h : t.Exact rows live key) (ha : live a) :
    (t.unlink (key a) a).Exact (fun i => (rows i).filter (· ≠ a)) (fun c => live c ∧ c ≠ a)
      key := by
  obtain ⟨as, bs, hr⟩ := List.append_of_mem ((h.mem (key a) a).mpr ⟨ha, rfl⟩)
  have hrow := h.row (key a)
  rw [hr] at hrow
  have hn := hrow.spans.nodup
  have hbs := (segment_append_iff.mp hrow).elim fun m hm => hm.2.2.2
  have hother : ∀ i, i ≠ key a → ∀ c ∈ rows i, c ∉ as ++ a :: bs := by
    intro i hi c hc hm
    exact hi (((h.mem i c).mp hc).2.symm.trans ((h.mem (key a) c).mp (hr ▸ hm)).2)
  have hkept : ∀ i, i ≠ key a → (rows i).filter (· ≠ a) = rows i := by
    intro i hi
    refine List.filter_eq_self.mpr fun c hc => decide_eq_true ?_
    rintro rfl
    exact hother i hi c hc (List.mem_append_right as List.mem_cons_self)
  have hcut : (rows (key a)).filter (· ≠ a) = as ++ bs := by
    have hm := (List.nodup_middle.mp hn).notMem
    rw [hr, List.filter_append, List.filter_cons_of_neg (by simp)]
    rw [List.filter_eq_self.mpr, List.filter_eq_self.mpr]
    · exact fun c hc => decide_eq_true fun he => hm (List.mem_append_right as (he ▸ hc))
    · exact fun c hc => decide_eq_true fun he => hm (List.mem_append_left bs (he ▸ hc))
  refine ⟨fun i => ?_, fun i c => ?_⟩
  · cases hp : t.prev a with
    | none =>
      have ht : t.unlink (key a) a =
          ⟨Function.update t.head (key a) (t.next a), t.next, writeAt t.prev (t.next a) none⟩ := by
        simp only [Table.unlink, hp]
      obtain ⟨rfl, hs⟩ := hrow.unlink_first hp
      rw [ht]
      dsimp only
      by_cases hi : i = key a
      · subst hi
        rw [hcut, Function.update_self]
        exact hs
      · rw [hkept i hi, Function.update_of_ne hi]
        refine (h.row i).congr (fun _ _ => rfl) fun c hc => ?_
        exact hbs.writeAt_of_notMem (fun hm => hother i hi c hc (List.mem_cons_of_mem a hm)) none
    | some l =>
      obtain ⟨hl, hs⟩ := hrow.unlink_after hp
      have hla : a ≠ l := fun he =>
        (List.nodup_middle.mp hn).notMem (List.mem_append_left bs (he ▸ hl))
      have ht : t.unlink (key a) a = ⟨t.head, Function.update t.next l (t.next a),
          writeAt t.prev (t.next a) (some l)⟩ := by
        simp only [Table.unlink, hp, Function.update_of_ne hla]
      rw [ht]
      dsimp only
      by_cases hi : i = key a
      · subst hi
        rw [hcut]
        exact hs
      · rw [hkept i hi]
        refine (h.row i).congr (fun c hc => ?_) fun c hc => ?_
        · have hne : c ≠ l := fun he => hother i hi c hc (he ▸ List.mem_append_left _ hl)
          exact Function.update_of_ne hne _ _
        · exact hbs.writeAt_of_notMem
            (fun hm => hother i hi c hc (List.mem_append_right as (List.mem_cons_of_mem a hm))) _
  · rw [List.mem_filter, h.mem, decide_eq_true_iff]
    exact and_right_comm

end Operations

end AdFilter.Lib.Buckets
