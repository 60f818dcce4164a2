import Mathlib.Logic.Function.Basic
import Mathlib.Tactic.Common

/-!
# A table and an index over it

The objects of a table have a name each, or none, and an index leads from names
back to objects. `Consistent` says that the index leads to no object but one that
has the name; an object need not be in the index.
-/

namespace AdFilter.Lib.SecondaryIndex

@[ext]
structure View (κ β : Type) where
  name : κ → Option β
  idx : β → Option κ

variable {κ β : Type}

def Consistent (v : View κ β) : Prop := ∀ b k, v.idx b = some k → v.name k = some b

/-- The index leads to the object under the name the object has. -/
def InIndex (v : View κ β) (k : κ) : Prop := ∃ b, v.name k = some b ∧ v.idx b = some k

def View.rename [DecidableEq κ] (v : View κ β) (k : κ) (n : Option β) : View κ β :=
  { v with name := Function.update v.name k n }

def View.setIdx [DecidableEq β] (v : View κ β) (b : β) (k : Option κ) : View κ β :=
  { v with idx := Function.update v.idx b k }

/-- The name of an object that the index does not lead to may change. -/
theorem Consistent.rename [DecidableEq κ] {v : View κ β} (h : Consistent v) {k : κ}
    (hk : ¬ InIndex v k) (n : Option β) : Consistent (v.rename k n) := by
  intro b k' hb
  have hne : k' ≠ k := by
    rintro rfl
    exact hk ⟨b, h b k' hb, hb⟩
  show Function.update v.name k n k' = some b
  rw [Function.update_of_ne hne]
  exact h b k' hb

section Index

variable [DecidableEq β]

theorem idx_setIdx (v : View κ β) (b b' : β) (k : Option κ) :
    (v.setIdx b k).idx b' = if b' = b then k else v.idx b' := Function.update_apply v.idx b k b'

/-- An object goes into the index under the name it has. -/
theorem Consistent.insert {v : View κ β} (h : Consistent v) {k : κ} {b : β}
    (hk : v.name k = some b) : Consistent (v.setIdx b (some k)) := by
  intro b' k' hb
  rw [idx_setIdx] at hb
  split at hb
  · rename_i he
    obtain rfl := Option.some.inj hb
    rw [he]
    exact hk
  · exact h b' k' hb

theorem Consistent.remove {v : View κ β} (h : Consistent v) (b : β) :
    Consistent (v.setIdx b none) := by
  intro b' k' hb
  rw [idx_setIdx] at hb
  split at hb
  · exact absurd hb.symm (Option.some_ne_none k')
  · exact h b' k' hb

/-- Once its name is out of the index, the index does not lead to the object. -/
theorem not_inIndex_remove {v : View κ β} {k : κ} {b : β} (hk : v.name k = some b) :
    ¬ InIndex (v.setIdx b none) k := by
  rintro ⟨b', hn, hb⟩
  obtain rfl := Option.some.inj (hk.symm.trans hn)
  rw [idx_setIdx, if_pos rfl] at hb
  exact absurd hb.symm (Option.some_ne_none k)

end Index

end AdFilter.Lib.SecondaryIndex
