import Mathlib.Data.List.Basic
import Mathlib.Logic.Function.Basic

/-!
# A growing vector and the references into it

A vector with a **capacity**: it can be lengthened in place up to the capacity, and beyond it its
items move to new storage. A reference is a storage and an index, so it keeps denoting the storage
it was taken from: after a move it reads what was there before the move, and what is stored through
it does not reach the vector.

While a reference is **current**, that is, its storage is the vector's, access through it is access
by index (`read_of_current`, `items_assign_of_current`). `cur_resize_of_le` and `cur_resize_of_lt`
say when a resize keeps references current. That the length is within the capacity is part of the
type.
-/

/-- A vector, with all the storage it has used. -/
structure GrowVec (α : Type*) where
  /-- The contents of each storage. -/
  storage : ℕ → List α
  /-- The vector's present storage. -/
  cur : ℕ
  /-- The capacity of the present storage. -/
  cap : ℕ
  length_le_cap : (storage cur).length ≤ cap

/-- A reference to an item. -/
structure GrowVec.Ref where
  storage : ℕ
  index : ℕ
  deriving DecidableEq, Repr

namespace GrowVec

variable {α : Type*}

/-- The items of the vector. -/
def items (v : GrowVec α) : List α := v.storage v.cur

theorem length_items_le_cap (v : GrowVec α) : v.items.length ≤ v.cap := v.length_le_cap

/-- An empty vector with room for `n` items. -/
def reserve (n : ℕ) : GrowVec α := ⟨fun _ ↦ [], 0, n, Nat.zero_le n⟩

/-- Store at an index of the vector. -/
def set (v : GrowVec α) (i : ℕ) (a : α) : GrowVec α where
  storage := Function.update v.storage v.cur (v.items.set i a)
  cur := v.cur
  cap := v.cap
  length_le_cap := by
    rw [Function.update_self, List.length_set]
    exact v.length_le_cap

/-- The items lengthened to `n` with copies of `a`. -/
def lengthened (v : GrowVec α) (n : ℕ) (a : α) : List α :=
  v.items ++ List.replicate (n - v.items.length) a

theorem length_lengthened (v : GrowVec α) (n : ℕ) (a : α) :
    (v.lengthened n a).length = max v.items.length n := by
  simp only [lengthened, List.length_append, List.length_replicate]
  omega

/-- The capacity of the new storage when `len` items have to make room for `n`. -/
def grownCap (len n : ℕ) : ℕ := len + max len (n - len)

/-- Lengthen the vector to `n` items, in place if there is room, else in new storage. A vector that
is longer already stays as it is. -/
def resize (v : GrowVec α) (n : ℕ) (a : α) : GrowVec α :=
  if h : n ≤ v.cap then
    { storage := Function.update v.storage v.cur (v.lengthened n a)
      cur := v.cur
      cap := v.cap
      length_le_cap := by
        rw [Function.update_self, length_lengthened]
        exact Nat.max_le.2 ⟨v.length_items_le_cap, h⟩ }
  else
    { storage := Function.update v.storage (v.cur + 1) (v.lengthened n a)
      cur := v.cur + 1
      cap := grownCap v.items.length n
      length_le_cap := by
        rw [Function.update_self, length_lengthened, grownCap]
        omega }

/-- A reference to the item at an index. -/
def ref (v : GrowVec α) (i : ℕ) : Ref := ⟨v.cur, i⟩

/-- Read through a reference. -/
def read (v : GrowVec α) (r : Ref) : Option α := (v.storage r.storage)[r.index]?

/-- Store through a reference. -/
def assign (v : GrowVec α) (r : Ref) (a : α) : GrowVec α where
  storage := Function.update v.storage r.storage ((v.storage r.storage).set r.index a)
  cur := v.cur
  cap := v.cap
  length_le_cap := by
    by_cases h : v.cur = r.storage
    · rw [← h, Function.update_self, List.length_set]
      exact v.length_le_cap
    · rw [Function.update_of_ne h]
      exact v.length_le_cap

variable (v : GrowVec α)

@[simp] theorem items_set (i : ℕ) (a : α) : (v.set i a).items = v.items.set i a :=
  Function.update_self ..

@[simp] theorem items_resize (n : ℕ) (a : α) : (v.resize n a).items = v.lengthened n a := by
  rw [resize]
  split <;> exact Function.update_self ..

variable {v}

theorem cur_resize_of_le {n : ℕ} (h : n ≤ v.cap) (a : α) :
    (v.resize n a).cur = v.cur ∧ (v.resize n a).cap = v.cap := by
  rw [resize, dif_pos h]
  exact ⟨rfl, rfl⟩

theorem cur_resize_of_lt {n : ℕ} (h : v.cap < n) (a : α) : (v.resize n a).cur = v.cur + 1 := by
  rw [resize, dif_neg (Nat.not_le.2 h)]

/-! ### Access through a reference -/

/-- Reading through a current reference reads the vector. -/
theorem read_of_current {r : Ref} (h : r.storage = v.cur) : v.read r = v.items[r.index]? := by
  rw [read, h]
  rfl

/-- Storing through a current reference stores into the vector. -/
theorem items_assign_of_current {r : Ref} (h : r.storage = v.cur) (a : α) :
    (v.assign r a).items = v.items.set r.index a := by
  show Function.update _ _ _ v.cur = _
  rw [h, Function.update_self]
  rfl

/-- Storing through a reference that is not current does not reach the vector. -/
theorem items_assign_of_stale {r : Ref} (h : r.storage ≠ v.cur) (a : α) :
    (v.assign r a).items = v.items :=
  Function.update_of_ne (Ne.symm h) ..

end GrowVec
