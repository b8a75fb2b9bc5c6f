import Mathlib.Data.List.Basic
import Mathlib.Logic.Function.Basic

/-!
# Heaps as lists of cells

A heap is a partial function from addresses to objects. `Holds h cells` says that the heap consists
of the listed cells and of nothing else, each at an address of its own. A structure that lives in a
heap is described by the list of its cells, and two structures that share nothing by the
concatenation of their lists; since `Holds` does not depend on the order of the list
(`Holds.perm`), the cell an operation is about can be brought to the front, where the rules apply:
reading it (`Holds.get`), overwriting it (`Holds.set`), allocating one (`Holds.alloc`) and freeing
one (`Holds.free`). Whatever is in the rest of the list is left alone.

The heap is determined by the list (`Holds.unique`), and can be built from it (`heapOf`).
-/

namespace Nsio

variable {α β : Type*}

/-- The heap `h` consists of the cells of the list, each at its own address. -/
structure Holds (h : α → Option β) (cells : List (α × β)) : Prop where
  nodup : (cells.map Prod.fst).Nodup
  eq_some_iff : ∀ a b, h a = some b ↔ (a, b) ∈ cells

namespace Holds

variable {h h' : α → Option β} {cells cells' : List (α × β)} {a : α} {b c : β}

theorem perm (hh : Holds h cells) (hp : cells.Perm cells') : Holds h cells' where
  nodup := (hp.map Prod.fst).nodup_iff.1 hh.nodup
  eq_some_iff a b := (hh.eq_some_iff a b).trans hp.mem_iff

theorem get (hh : Holds h ((a, b) :: cells)) : h a = some b :=
  (hh.eq_some_iff a b).2 List.mem_cons_self

/-- The cell in front is at an address no other cell has. -/
theorem notMem (hh : Holds h ((a, b) :: cells)) (c : β) : (a, c) ∉ cells := fun hc ↦
  (List.nodup_cons.1 hh.nodup).1 (List.mem_map.2 ⟨(a, c), hc, rfl⟩)

theorem eq_none_iff (hh : Holds h cells) (a : α) : h a = none ↔ a ∉ cells.map Prod.fst := by
  rw [Option.eq_none_iff_forall_ne_some]
  constructor
  · intro hnone hmem
    obtain ⟨⟨a', b⟩, hb, rfl⟩ := List.mem_map.1 hmem
    exact hnone b ((hh.eq_some_iff a' b).2 hb)
  · intro hmem b hb
    exact hmem (List.mem_map.2 ⟨(a, b), (hh.eq_some_iff a b).1 hb, rfl⟩)

theorem unique (hh : Holds h cells) (hh' : Holds h' cells) : h = h' := by
  funext a
  refine Option.ext fun b ↦ ?_
  exact (hh.eq_some_iff a b).trans (hh'.eq_some_iff a b).symm

theorem nil_iff : Holds h [] ↔ h = fun _ ↦ none := by
  constructor
  · intro hh
    exact hh.unique ⟨List.nodup_nil, fun a b ↦ by simp⟩
  · rintro rfl
    exact ⟨List.nodup_nil, fun a b ↦ by simp⟩

section Update

variable [DecidableEq α]

theorem set (hh : Holds h ((a, b) :: cells)) (c : β) :
    Holds (Function.update h a (some c)) ((a, c) :: cells) where
  nodup := hh.nodup
  eq_some_iff a' b' := by
    rw [List.mem_cons]
    by_cases ha : a' = a
    · subst ha
      rw [Function.update_self, or_iff_left (hh.notMem b'), Prod.mk.injEq, and_iff_right rfl,
        Option.some.injEq, eq_comm]
    · have hne : (a', b') ≠ (a, c) := fun h ↦ ha (Prod.mk.inj h).1
      have hne' : (a', b') ≠ (a, b) := fun h ↦ ha (Prod.mk.inj h).1
      rw [Function.update_of_ne ha, hh.eq_some_iff, List.mem_cons, or_iff_right hne,
        or_iff_right hne']

theorem alloc (hh : Holds h cells) (ha : h a = none) (b : β) :
    Holds (Function.update h a (some b)) ((a, b) :: cells) where
  nodup := List.nodup_cons.2 ⟨(hh.eq_none_iff a).1 ha, hh.nodup⟩
  eq_some_iff a' b' := by
    rw [List.mem_cons]
    by_cases haa : a' = a
    · subst haa
      have hno : (a', b') ∉ cells := fun hmem ↦ by
        rw [(hh.eq_some_iff a' b').2 hmem] at ha
        exact absurd ha (by simp)
      rw [Function.update_self, or_iff_left hno, Prod.mk.injEq, and_iff_right rfl,
        Option.some.injEq, eq_comm]
    · have hne : (a', b') ≠ (a, b) := fun h ↦ haa (Prod.mk.inj h).1
      rw [Function.update_of_ne haa, hh.eq_some_iff, or_iff_right hne]

theorem free (hh : Holds h ((a, b) :: cells)) : Holds (Function.update h a none) cells where
  nodup := (List.nodup_cons.1 hh.nodup).2
  eq_some_iff a' b' := by
    by_cases ha : a' = a
    · subst ha
      rw [Function.update_self]
      exact iff_of_false (by simp) (hh.notMem b')
    · have hne : (a', b') ≠ (a, b) := fun h ↦ ha (Prod.mk.inj h).1
      rw [Function.update_of_ne ha, hh.eq_some_iff, List.mem_cons, or_iff_right hne]

end Update

end Holds

/-- The heap of a list of cells. -/
def heapOf [DecidableEq α] (cells : List (α × β)) (a : α) : Option β := cells.lookup a

theorem holds_heapOf [DecidableEq α] {cells : List (α × β)} (h : (cells.map Prod.fst).Nodup) :
    Holds (heapOf cells) cells := by
  refine ⟨h, fun a b ↦ ?_⟩
  induction cells with
  | nil => simp [heapOf]
  | cons x cells ih =>
    obtain ⟨a', b'⟩ := x
    rw [List.map_cons, List.nodup_cons] at h
    have hrest := ih h.2
    rw [heapOf, List.lookup_cons, List.mem_cons]
    by_cases ha : a = a'
    · subst ha
      have hno : (a, b) ∉ cells := fun hmem ↦ h.1 (List.mem_map.2 ⟨(a, b), hmem, rfl⟩)
      rw [beq_self_eq_true, or_iff_left hno, Prod.mk.injEq, and_iff_right rfl]
      exact Option.some_inj.trans eq_comm
    · have hne : (a, b) ≠ (a', b') := fun h ↦ ha (Prod.mk.inj h).1
      rw [or_iff_right hne, beq_false_of_ne ha]
      exact hrest

end Nsio
