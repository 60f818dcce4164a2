import Mathlib.Data.List.Chain
import Mathlib.Data.List.Nodup
import Mathlib.Logic.Function.Basic
import Mathlib.Tactic.Common

/-!
# Circular doubly linked lists

A node and a list head are the same kind of cell: two pointers. `IsRing` says
that the cells reached from a head are exactly a given list, in order, with both
pointers of every neighbouring pair in step. The operations are the usual
pointer writes, in their order; the rules below carry them to the list.
-/

namespace AdFilter.Lib.Ring

/-- The two pointers of every cell of the memory. -/
structure Links (α : Type) where
  flink : α → α
  blink : α → α

section Operations

variable {α : Type} [DecidableEq α]

def Links.setFlink (l : Links α) (a b : α) : Links α :=
  { l with flink := Function.update l.flink a b }

def Links.setBlink (l : Links α) (a b : α) : Links α :=
  { l with blink := Function.update l.blink a b }

def initHead (l : Links α) (h : α) : Links α :=
  (l.setFlink h h).setBlink h h

/-- Link `e` between the last node and the head. -/
def insertTail (l : Links α) (h e : α) : Links α :=
  let prev := l.blink h
  (((l.setFlink e h).setBlink e prev).setFlink prev e).setBlink h e

def remove (l : Links α) (e : α) : Links α :=
  let next := l.flink e
  let prev := l.blink e
  (l.setFlink prev next).setBlink next prev

/-- Unlink the last node and return it. An empty list returns its head. -/
def removeTail (l : Links α) (h : α) : α × Links α :=
  let e := l.blink h
  let prev := l.blink e
  (e, (l.setBlink h prev).setFlink prev h)

/-- Walk backwards from `p` to the head `h`. The outer `none` is a walk that did
not end within the budget, or a test without an answer. -/
def searchBack (l : Links α) (h : α) (stop : α → Option Bool) : Nat → α → Option (Option α)
  | 0, _ => none
  | n + 1, p =>
      if p = h then some none
      else match stop p with
        | none => none
        | some true => some (some p)
        | some false => searchBack l h stop n (l.blink p)

@[simp] theorem setFlink_flink (l : Links α) (a b x : α) :
    (l.setFlink a b).flink x = if x = a then b else l.flink x := by
  simp [Links.setFlink, Function.update_apply]

@[simp] theorem setFlink_blink (l : Links α) (a b : α) :
    (l.setFlink a b).blink = l.blink := rfl

@[simp] theorem setBlink_blink (l : Links α) (a b x : α) :
    (l.setBlink a b).blink x = if x = a then b else l.blink x := by
  simp [Links.setBlink, Function.update_apply]

@[simp] theorem setBlink_flink (l : Links α) (a b : α) :
    (l.setBlink a b).flink = l.flink := rfl

end Operations

variable {α : Type}

/-- Both pointers between two neighbours are in step. -/
def Adjacent (l : Links α) (a b : α) : Prop := l.flink a = b ∧ l.blink b = a

/-- The cells of the list headed by `h` are `xs`, in order. -/
structure IsRing (l : Links α) (h : α) (xs : List α) : Prop where
  nodup : (h :: xs).Nodup
  chain : (h :: xs ++ [h]).IsChain (Adjacent l)

theorem IsRing.head_notMem {l : Links α} {h : α} {xs : List α} (hr : IsRing l h xs) : h ∉ xs :=
  (List.nodup_cons.mp hr.nodup).1

theorem IsRing.nodup_nodes {l : Links α} {h : α} {xs : List α} (hr : IsRing l h xs) : xs.Nodup :=
  (List.nodup_cons.mp hr.nodup).2

/-- A ring depends only on the pointers of its own cells. -/
theorem IsRing.congr {l l' : Links α} {h : α} {xs : List α} (hr : IsRing l h xs)
    (hf : ∀ a ∈ h :: xs, l'.flink a = l.flink a) (hb : ∀ a ∈ h :: xs, l'.blink a = l.blink a) :
    IsRing l' h xs := by
  refine ⟨hr.nodup, hr.chain.imp_of_mem_imp ?_⟩
  intro a b ha hb' hab
  have ha' : a ∈ h :: xs := by simpa [or_comm, or_left_comm] using ha
  have hb'' : b ∈ h :: xs := by simpa [or_comm, or_left_comm] using hb'
  exact ⟨(hf a ha').trans hab.1, (hb b hb'').trans hab.2⟩

/-- The last cell of a ring, the head itself when there is no node. -/
def lastCell (h : α) (xs : List α) : α := (h :: xs).getLast (by simp)

@[simp] theorem lastCell_nil (h : α) : lastCell h ([] : List α) = h := rfl

@[simp] theorem lastCell_concat (h e : α) (xs : List α) : lastCell h (xs ++ [e]) = e := by
  simp [lastCell]

theorem lastCell_mem (h : α) (xs : List α) : lastCell h xs ∈ h :: xs := List.getLast_mem _

theorem IsRing.blink_head {l : Links α} {h : α} {xs : List α} (hr : IsRing l h xs) :
    l.blink h = lastCell h xs := by
  rcases List.eq_nil_or_concat xs with rfl | ⟨ys, e, rfl⟩
  · exact (List.isChain_pair.mp hr.chain).2
  · have hc := hr.chain
    rw [List.concat_eq_append, ← List.cons_append, List.append_assoc] at hc
    rw [List.concat_eq_append, lastCell_concat]
    exact (List.isChain_pair.mp hc.right_of_append).2

theorem IsRing.blink_node {l : Links α} {h e : α} {xs ys : List α}
    (hr : IsRing l h (xs ++ e :: ys)) : l.blink e = lastCell h xs := by
  have hc := hr.chain
  rw [← List.cons_append, List.append_assoc] at hc
  rcases List.eq_nil_or_concat xs with rfl | ⟨zs, p, rfl⟩
  · exact (List.isChain_cons_cons.mp hc).1.2
  · rw [List.concat_eq_append, lastCell_concat]
    rw [List.concat_eq_append, ← List.cons_append, List.append_assoc] at hc
    exact (List.isChain_cons_cons.mp hc.right_of_append).1.2

/-- A chain survives writes that spare the forward pointers before its last cell
and the backward pointers after its first. -/
theorem isChain_of_agree {l l' : Links α} {xs : List α} (hc : xs.IsChain (Adjacent l))
    (hf : ∀ a ∈ xs.dropLast, l'.flink a = l.flink a) (hb : ∀ a ∈ xs.tail, l'.blink a = l.blink a) :
    xs.IsChain (Adjacent l') := by
  induction xs with
  | nil => exact List.isChain_nil
  | cons a xs ih =>
    cases xs with
    | nil => exact List.isChain_singleton a
    | cons b xs =>
      obtain ⟨hab, hrest⟩ := List.isChain_cons_cons.mp hc
      refine List.isChain_cons_cons.mpr ⟨⟨?_, ?_⟩, ih hrest ?_ ?_⟩
      · exact (hf a (by simp)).trans hab.1
      · exact (hb b (by simp)).trans hab.2
      · intro c hc'
        exact hf c (by simp only [List.dropLast_cons_cons, List.mem_cons]; exact Or.inr hc')
      · intro c hc'
        exact hb c (by simp only [List.tail_cons] at hc' ⊢; exact List.mem_cons_of_mem _ hc')

theorem IsRing.flink_node {l : Links α} {h e : α} {xs ys : List α}
    (hr : IsRing l h (xs ++ e :: ys)) : (ys ++ [h]).head? = some (l.flink e) := by
  have hc := hr.chain
  rw [← List.cons_append, List.append_assoc] at hc
  cases ys with
  | nil => simpa using (List.isChain_pair.mp hc.right_of_append).1.symm
  | cons b ys => simpa using (List.isChain_cons_cons.mp hc.right_of_append).1.1.symm

theorem lastCell_notMem {h : α} {xs : List α} (hd : (h :: xs).Nodup) :
    lastCell h xs ∉ (h :: xs).dropLast := by
  rw [← List.dropLast_append_getLast (List.cons_ne_nil h xs), List.nodup_append] at hd
  exact fun hm => hd.2.2 _ hm _ (List.mem_singleton_self _) rfl

theorem head_notMem_tail {b : α} {xs : List α} (hd : xs.Nodup) (hb : xs.head? = some b) :
    b ∉ xs.tail := by
  cases xs with
  | nil => simp at hb
  | cons a xs =>
    obtain rfl : a = b := by simpa using hb
    exact (List.nodup_cons.mp hd).1

/-- The pointers determine the nodes of a ring. -/
theorem IsRing.unique {l : Links α} {h : α} {xs ys : List α} (hr : IsRing l h xs)
    (hr' : IsRing l h ys) : xs = ys := by
  have hwalk : ∀ (xs ys : List α) (c : α), h ∉ xs → h ∉ ys →
      (c :: xs ++ [h]).IsChain (Adjacent l) → (c :: ys ++ [h]).IsChain (Adjacent l) → xs = ys := by
    intro xs
    induction xs with
    | nil =>
      intro ys c _ hy hx hc
      cases ys with
      | nil => rfl
      | cons y ys =>
        have h1 := (List.isChain_pair.mp hx).1
        have h2 := (List.isChain_cons_cons.mp hc).1.1
        exact absurd (h1.symm.trans h2 ▸ List.mem_cons_self) hy
    | cons x xs ih =>
      intro ys c hx hy hcx hcy
      obtain ⟨hx1, hx2⟩ := List.isChain_cons_cons.mp hcx
      cases ys with
      | nil =>
        have h2 := (List.isChain_pair.mp hcy).1
        exact absurd (h2.symm.trans hx1.1 ▸ List.mem_cons_self) hx
      | cons y ys =>
        obtain ⟨hy1, hy2⟩ := List.isChain_cons_cons.mp hcy
        obtain rfl : x = y := hx1.1.symm.trans hy1.1
        rw [ih ys x (List.not_mem_of_not_mem_cons hx) (List.not_mem_of_not_mem_cons hy) hx2 hy2]
  exact hwalk xs ys h hr.head_notMem hr'.head_notMem hr.chain hr'.chain

variable [DecidableEq α]

theorem isRing_initHead (l : Links α) (h : α) : IsRing (initHead l h) h [] := by
  refine ⟨List.nodup_singleton h, List.isChain_pair.mpr ⟨?_, ?_⟩⟩ <;> simp [initHead]

theorem IsRing.initHead_of_notMem {l : Links α} {h h' : α} {xs : List α} (hr : IsRing l h xs)
    (hn : h' ∉ h :: xs) : IsRing (initHead l h') h xs := by
  refine hr.congr ?_ ?_ <;>
  · intro a ha
    have hne : a ≠ h' := fun he => hn (he ▸ ha)
    simp [initHead, hne]


/-- Insertion at the tail appends to the list. -/
theorem IsRing.insertTail {l : Links α} {h e : α} {xs : List α} (hr : IsRing l h xs)
    (he : e ∉ h :: xs) : IsRing (insertTail l h e) h (xs ++ [e]) := by
  have hlast : l.blink h = lastCell h xs := hr.blink_head
  have hmem := lastCell_mem h xs
  have hne : lastCell h xs ≠ e := fun hq => he (hq ▸ hmem)
  have hhe : e ≠ h := fun hq => he (hq ▸ List.mem_cons_self)
  constructor
  · rw [← List.cons_append]
    exact List.nodup_append.mpr ⟨hr.nodup, List.nodup_singleton e, by
      rintro a ha b hb rfl
      exact he (List.mem_singleton.mp hb ▸ ha)⟩
  · have hsplit : h :: (xs ++ [e]) ++ [h] = (h :: xs) ++ [e, h] := by simp
    rw [hsplit]
    refine List.isChain_append.mpr ⟨?_, ?_, ?_⟩
    · refine isChain_of_agree hr.chain.left_of_append ?_ ?_
      · intro a ha
        have hal : a ≠ lastCell h xs := by
          rintro rfl
          exact lastCell_notMem hr.nodup ha
        have hae : a ≠ e := fun hq => he (hq ▸ List.dropLast_subset _ ha)
        simp [Ring.insertTail, hlast, hal, hae]
      · intro a ha
        have hah : a ≠ h := fun hq => hr.head_notMem (hq ▸ ha)
        have hae : a ≠ e := fun hq => he (hq ▸ List.mem_cons_of_mem h ha)
        simp [Ring.insertTail, hah, hae]
    · refine List.isChain_pair.mpr ⟨?_, ?_⟩
      · simp [Ring.insertTail, hlast, Ne.symm hne]
      · simp [Ring.insertTail]
    · intro a ha b hb
      have hb' : e = b := by simpa using hb
      have ha' : a = lastCell h xs := by
        rw [List.getLast?_eq_some_getLast (by simp)] at ha
        exact (Option.mem_some_iff.mp ha).symm
      subst ha' hb'
      exact ⟨by simp [Ring.insertTail, hlast], by simp [Ring.insertTail, hhe, hlast]⟩

/-- Unlinking a node, wherever it stands, removes exactly it from the list. -/
theorem IsRing.remove {l : Links α} {h e : α} {xs ys : List α}
    (hr : IsRing l h (xs ++ e :: ys)) : IsRing (remove l e) h (xs ++ ys) := by
  have hprev : l.blink e = lastCell h xs := hr.blink_node
  have hnext := hr.flink_node
  have hnd : (h :: (xs ++ e :: ys)).Nodup := hr.nodup
  have hnd' : (h :: (xs ++ ys)).Nodup :=
    hnd.sublist ((List.sublist_append_right [e] ys).append_left xs |>.cons_cons h)
  have hleft : (h :: xs).Nodup := hnd'.sublist ((List.sublist_append_left xs ys).cons_cons h)
  have hc := hr.chain
  have hsplit : h :: (xs ++ e :: ys) ++ [h] = (h :: xs) ++ (e :: (ys ++ [h])) := by simp
  rw [hsplit] at hc
  have hlast : ∀ a ∈ (h :: xs).dropLast, a ≠ lastCell h xs := by
    rintro a ha rfl
    exact lastCell_notMem hleft ha
  have hnm : l.flink e ∈ ys ++ [h] := List.mem_of_mem_head? hnext
  constructor
  · exact hnd'
  · have hjoin : h :: (xs ++ ys) ++ [h] = (h :: xs) ++ (ys ++ [h]) := by simp
    rw [hjoin]
    refine List.isChain_append.mpr ⟨?_, ?_, ?_⟩
    · refine isChain_of_agree hc.left_of_append ?_ ?_
      · intro a ha
        simp [Ring.remove, hprev, hlast a ha]
      · intro a ha
        have hne : a ≠ l.flink e := by
          rintro rfl
          rcases List.mem_append.mp hnm with hy | hh
          · exact (List.nodup_append.mp (List.nodup_cons.mp hnd').2).2.2 _ ha _ hy rfl
          · exact (List.nodup_cons.mp hleft).1 (List.mem_singleton.mp hh ▸ ha)
        simp [Ring.remove, hne]
    · refine isChain_of_agree hc.right_of_append.tail ?_ ?_
      · intro a ha
        replace ha : a ∈ ys := by simpa using ha
        have hne : a ≠ lastCell h xs := by
          rintro rfl
          have hm := lastCell_mem h xs
          rcases List.mem_cons.mp hm with hh | hx
          · exact (List.nodup_cons.mp hnd').1 (hh ▸ List.mem_append_right xs ha)
          · exact (List.nodup_append.mp (List.nodup_cons.mp hnd').2).2.2 _ hx _ ha rfl
        simp [Ring.remove, hprev, hne]
      · intro a ha
        have hnd2 : (ys ++ [h]).Nodup := by
          have hp : (ys ++ [h]).Perm (h :: ys) := List.perm_append_singleton h ys
          exact hp.nodup_iff.mpr (hnd'.sublist ((List.sublist_append_right xs ys).cons_cons h))
        have hne : a ≠ l.flink e := by
          rintro rfl
          exact head_notMem_tail hnd2 hnext ha
        simp [Ring.remove, hne]
    · intro a ha b hb
      have hb' : l.flink e = b := by
        rw [hnext] at hb
        exact Option.mem_some_iff.mp hb
      have ha' : a = lastCell h xs := by
        rw [List.getLast?_eq_some_getLast (by simp)] at ha
        exact (Option.mem_some_iff.mp ha).symm
      subst ha' hb'
      exact ⟨by simp [Ring.remove, hprev], by simp [Ring.remove, hprev]⟩

theorem IsRing.removeTail {l : Links α} {h e : α} {xs : List α} (hr : IsRing l h (xs ++ [e])) :
    removeTail l h = (e, Ring.remove l e) := by
  have htail : l.blink h = e := by rw [hr.blink_head, lastCell_concat]
  have hnext : l.flink e = h := (Option.some.inj hr.flink_node).symm
  rw [Ring.removeTail, Ring.remove, htail, hnext]
  rfl

/-- The head of an empty list points at itself. -/
theorem IsRing.removeTail_nil {l : Links α} {h : α} (hr : IsRing l h []) :
    Ring.removeTail l h = (h, l) := by
  obtain ⟨hf, hb⟩ := List.isChain_pair.mp hr.chain
  have hset : (l.setBlink h h).setFlink h h = l := by
    cases l with
    | mk flink blink =>
      simp only [Links.setFlink, Links.setBlink, Links.mk.injEq]
      exact ⟨Function.update_eq_iff.mpr ⟨hf.symm, fun _ _ => rfl⟩,
        Function.update_eq_iff.mpr ⟨hb.symm, fun _ _ => rfl⟩⟩
  rw [Ring.removeTail, hb, hb, hset]

/-- Operations on one list leave a list with other cells alone. -/
theorem IsRing.insertTail_of_notMem {l : Links α} {h h' e : α} {xs ys : List α}
    (hr : IsRing l h xs) (hr' : IsRing l h' ys) (he : e ∉ h' :: ys)
    (hd : List.Disjoint (h :: xs) (h' :: ys)) : IsRing (Ring.insertTail l h e) h' ys := by
  have hb : l.blink h ∉ h' :: ys := by
    rw [hr.blink_head]
    exact fun hm => hd (lastCell_mem h xs) hm
  have hh : h ∉ h' :: ys := fun hm => hd List.mem_cons_self hm
  refine hr'.congr ?_ ?_
  · intro a ha
    have h1 : a ≠ e := fun hq => he (hq ▸ ha)
    have h2 : a ≠ l.blink h := fun hq => hb (hq ▸ ha)
    simp [Ring.insertTail, h1, h2]
  · intro a ha
    have h1 : a ≠ e := fun hq => he (hq ▸ ha)
    have h2 : a ≠ h := fun hq => hh (hq ▸ ha)
    simp [Ring.insertTail, h1, h2]

theorem IsRing.remove_of_notMem {l : Links α} {h h' e : α} {xs ys : List α}
    (hr : IsRing l h xs) (hr' : IsRing l h' ys) (he : e ∈ xs)
    (hd : List.Disjoint (h :: xs) (h' :: ys)) : IsRing (Ring.remove l e) h' ys := by
  obtain ⟨as, bs, rfl⟩ := List.append_of_mem he
  have hb : l.blink e ∉ h' :: ys := by
    rw [hr.blink_node]
    intro hm
    refine hd ?_ hm
    rcases List.mem_cons.mp (lastCell_mem h as) with hq | hq
    · rw [hq]; exact List.mem_cons_self
    · exact List.mem_cons_of_mem h (List.mem_append_left _ hq)
  have hf : l.flink e ∉ h' :: ys := by
    intro hm
    refine hd ?_ hm
    rcases List.mem_append.mp (List.mem_of_mem_head? hr.flink_node) with hq | hq
    · exact List.mem_cons_of_mem h (List.mem_append_right _ (List.mem_cons_of_mem e hq))
    · exact List.mem_singleton.mp hq ▸ List.mem_cons_self
  refine hr'.congr ?_ ?_
  · intro a ha
    have h1 : a ≠ l.blink e := fun hq => hb (hq ▸ ha)
    simp [Ring.remove, h1]
  · intro a ha
    have h1 : a ≠ l.flink e := fun hq => hf (hq ▸ ha)
    simp [Ring.remove, h1]

/-- A walk from the last cell of a prefix visits that prefix backwards. -/
theorem IsRing.searchBack_prefix {l : Links α} {h : α} {zs : List α} (hr : IsRing l h zs)
    (stop : α → Option Bool) (xs : List α) :
    ∀ (ys : List α) (n : Nat), zs = xs ++ ys → xs.length < n →
      searchBack l h stop n (lastCell h xs) = xs.reverse.findM? stop := by
  induction xs using List.reverseRecOn with
  | nil =>
    intro ys n _ hn
    cases n with
    | zero => omega
    | succ n => simp [searchBack, List.findM?]
  | append_singleton xs e ih =>
    intro ys n hz hn
    cases n with
    | zero => omega
    | succ n =>
      have hz' : zs = xs ++ e :: ys := by simpa using hz
      have hne : e ≠ h := by
        rintro rfl
        exact hr.head_notMem (by simp [hz'])
      have hstep : l.blink e = lastCell h xs := by
        rw [hz'] at hr
        exact hr.blink_node
      have hrest := ih (e :: ys) n hz' (by simp at hn; omega)
      rw [lastCell_concat, searchBack, if_neg hne, List.reverse_append]
      simp only [List.reverse_cons, List.reverse_nil, List.nil_append, List.singleton_append,
        List.findM?]
      cases stop e with
      | none => rfl
      | some b => cases b <;> simp [hstep, hrest]

/-- A backward walk over a ring looks at its nodes from the last to the first. -/
theorem IsRing.searchBack {l : Links α} {h : α} {xs : List α} (hr : IsRing l h xs)
    (stop : α → Option Bool) {n : Nat} (hn : xs.length < n) :
    Ring.searchBack l h stop n (l.blink h) = xs.reverse.findM? stop := by
  rw [hr.blink_head]
  exact hr.searchBack_prefix stop xs [] n (List.append_nil xs).symm hn

section Search

variable {β γ : Type}

omit [DecidableEq α] in
/-- A search whose tests all have an answer is an ordinary one. -/
theorem findM?_map_some (f : β → α) (stop : α → Option Bool) (q : β → Bool) {xs : List β}
    (h : ∀ x ∈ xs, stop (f x) = some (q x)) :
    (xs.map f).findM? stop = some ((xs.find? q).map f) := by
  induction xs with
  | nil => rfl
  | cons x xs ih =>
    have hx := h x List.mem_cons_self
    have hrest := ih fun y hy => h y (List.mem_cons_of_mem x hy)
    rw [List.map_cons, List.findM?, hx]
    cases hq : q x with
    | true => simp [hq]
    | false => simpa [hq] using hrest

omit [DecidableEq α] in
/-- Whether a search finds something depends only on the tests. -/
theorem findM?_map_isSome (f : β → α) (g : β → γ) (stop : α → Option Bool) (test : γ → Option Bool)
    {xs : List β} (h : ∀ x ∈ xs, stop (f x) = test (g x)) :
    ((xs.map f).findM? stop).map Option.isSome = ((xs.map g).findM? test).map Option.isSome := by
  induction xs with
  | nil => rfl
  | cons x xs ih =>
    have hx := h x List.mem_cons_self
    have hrest := ih fun y hy => h y (List.mem_cons_of_mem x hy)
    rw [List.map_cons, List.map_cons, List.findM?, List.findM?, hx]
    cases test (g x) with
    | none => rfl
    | some b =>
      cases b with
      | true => rfl
      | false => simpa using hrest

omit [DecidableEq α] in
theorem findM?_append_isSome (test : α → Option Bool) (xs ys : List α) :
    ((xs ++ ys).findM? test).map Option.isSome =
      ((xs.findM? test).map Option.isSome).bind fun found =>
        if found then some true else (ys.findM? test).map Option.isSome := by
  induction xs with
  | nil => rfl
  | cons x xs ih =>
    rw [List.cons_append, List.findM?, List.findM?]
    cases test x with
    | none => rfl
    | some found =>
      cases found with
      | true => rfl
      | false => exact ih

omit [DecidableEq α] in
theorem exists_of_findM?_isSome {f : α → Option Bool} {xs : List α}
    (h : (xs.findM? f).map Option.isSome = some true) : ∃ x ∈ xs, f x = some true := by
  induction xs with
  | nil => exact absurd h (by simp)
  | cons x xs ih =>
    rw [List.findM?] at h
    cases hx : f x with
    | none =>
      rw [hx] at h
      cases h
    | some found =>
      cases found with
      | true => exact ⟨x, List.mem_cons_self, hx⟩
      | false =>
        rw [hx] at h
        obtain ⟨y, hy, hfy⟩ := ih h
        exact ⟨y, List.mem_cons_of_mem x hy, hfy⟩

end Search

end AdFilter.Lib.Ring
