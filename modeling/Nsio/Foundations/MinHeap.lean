import Mathlib.Data.List.Sort

/-!
# Heap operations on a vector

A binary min-heap kept in a vector, with the three operations a standard library offers for it:
`push` moves the last item into place, `pop` moves the root to the end, and `make` arranges a vector
from scratch. Their algorithms are the library's business; `HeapOps` is their **contract**, what
each promises about a vector that meets its precondition. A development takes a `HeapOps` as a
parameter and so holds for every library that keeps the contract. `HeapOps.sorting` keeps it by
sorting, so that the contract is not empty and runs can be evaluated.
-/

variable {α : Type*}

/-- The items at `2 * i + 1` and `2 * i + 2` have no smaller key than the one at `i`. -/
def IsMinHeap (key : α → Int) (l : List α) : Prop :=
  ∀ i a b, 0 < i → l[(i - 1) / 2]? = some a → l[i]? = some b → key a ≤ key b

theorem isMinHeap_nil (key : α → Int) : IsMinHeap key [] := fun _ _ _ _ h ↦ absurd h (by simp)

/-- A sorted vector is a heap. -/
theorem isMinHeap_of_pairwise {key : α → Int} {l : List α}
    (h : l.Pairwise fun a b ↦ key a ≤ key b) : IsMinHeap key l := by
  intro i a b hi ha hb
  obtain ⟨hia, rfl⟩ := List.getElem?_eq_some_iff.1 ha
  obtain ⟨hib, rfl⟩ := List.getElem?_eq_some_iff.1 hb
  exact List.pairwise_iff_getElem.1 h _ _ hia hib (by omega)

/-- **The root is minimal**: every item is above its parent, and so above the root. -/
theorem IsMinHeap.root_le {key : α → Int} {x : α} {l : List α} (h : IsMinHeap key (x :: l))
    {y : α} (hy : y ∈ x :: l) : key x ≤ key y := by
  obtain ⟨i, hi⟩ := List.mem_iff_getElem?.1 hy
  induction i using Nat.strong_induction_on generalizing y with
  | _ i ih =>
    rcases Nat.eq_zero_or_pos i with rfl | hpos
    · obtain rfl : x = y := Option.some.inj hi
      exact Int.le_refl _
    · have hlt : i < (x :: l).length := (List.getElem?_eq_some_iff.1 hi).1
      have hparent : (x :: l)[(i - 1) / 2]? = some ((x :: l)[(i - 1) / 2]) :=
        List.getElem?_eq_getElem (by omega)
      exact Int.le_trans (ih _ (by omega) (List.getElem_mem _) hparent)
        (h i _ y hpos hparent hi)

/-- The contract of the heap operations of a library. -/
structure HeapOps (key : α → Int) where
  /-- Move the last item of the vector into place. -/
  push : List α → List α
  /-- Move the root of the heap to the end of the vector. -/
  pop : List α → List α
  /-- Arrange the vector. -/
  make : List α → List α
  push_perm : ∀ l x, IsMinHeap key l → (push (l ++ [x])).Perm (l ++ [x])
  push_isMinHeap : ∀ l x, IsMinHeap key l → IsMinHeap key (push (l ++ [x]))
  pop_spec : ∀ x l, IsMinHeap key (x :: l) →
    ∃ l', pop (x :: l) = l' ++ [x] ∧ l'.Perm l ∧ IsMinHeap key l'
  make_perm : ∀ l, (make l).Perm l
  make_isMinHeap : ∀ l, IsMinHeap key (make l)

namespace HeapOps

theorem isMinHeap_dropLast_pop {key : α → Int} (H : HeapOps key) {x : α} {l : List α}
    (h : IsMinHeap key (x :: l)) : IsMinHeap key (H.pop (x :: l)).dropLast := by
  obtain ⟨l', hpop, -, hheap⟩ := H.pop_spec x l h
  rw [hpop, List.dropLast_concat]
  exact hheap

section Sorting

variable (key : α → Int)

theorem isMinHeap_insertionSort (l : List α) :
    IsMinHeap key (l.insertionSort fun a b ↦ key a ≤ key b) := by
  have : Std.Total fun a b : α ↦ key a ≤ key b := ⟨fun a b ↦ Int.le_total (key a) (key b)⟩
  have : IsTrans α fun a b ↦ key a ≤ key b := ⟨fun _ _ _ ↦ Int.le_trans⟩
  exact isMinHeap_of_pairwise (List.pairwise_insertionSort _ l)

/-- The operations that keep the vector sorted. -/
def sorting : HeapOps key where
  push := List.insertionSort fun a b ↦ key a ≤ key b
  pop
    | [] => []
    | x :: l => l.insertionSort (fun a b ↦ key a ≤ key b) ++ [x]
  make := List.insertionSort fun a b ↦ key a ≤ key b
  push_perm _ _ _ := List.perm_insertionSort _ _
  push_isMinHeap _ _ _ := isMinHeap_insertionSort key _
  pop_spec _ l _ := ⟨_, rfl, List.perm_insertionSort _ l, isMinHeap_insertionSort key l⟩
  make_perm := List.perm_insertionSort _
  make_isMinHeap := isMinHeap_insertionSort key

end Sorting

end HeapOps
