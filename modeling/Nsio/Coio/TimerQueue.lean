import Nsio.Foundations.MinHeap
import Mathlib.Algebra.Ring.Nat

/-!
# The timer queue of the loop

The model of `_timer`, `_g_timer_id`, `delay_call`, `cancel_delay` and of the pop in `run`
(`io_loop.h`). The vector is kept as a min-heap on `_when` by `std::push_heap`, `std::pop_heap` and
`std::make_heap`, which are a parameter with their contract (`HeapOps`). That the vector is a heap,
so that each call meets the precondition of the contract, is part of the type `TimerQueue`.

An id is an `int`; `++_g_timer_id` wraps. The queue carries the number of calls of `delay_call` so
far, and with it what the id counter is (`gTimerId_eq`).

Each operation has one lemma that says what it does to the entries, as a permutation:
`timers_delayCall`, `timers_cancelDelay`, `timers_expire`.
-/

namespace Nsio

/-- `es_time`. -/
structure EsTime (κ : Type*) where
  /-- `_id`. -/
  id : Int32
  /-- `_when`, in ticks of the clock. -/
  when : Int
  /-- `_func`. -/
  func : κ
  deriving DecidableEq, Repr

/-- The heap operations on timers, which order them by `_when` as `compare_timer` does. -/
abbrev TimerHeap (κ : Type*) := HeapOps (EsTime.when (κ := κ))

/-- The pending timers and the id counter. -/
structure TimerQueue (κ : Type*) where
  /-- `_timer`. -/
  timers : List (EsTime κ) := []
  /-- `_g_timer_id`. -/
  gTimerId : Int32 := 0
  /-- The number of calls of `delay_call` so far. -/
  delays : ℕ := 0
  isHeap : IsMinHeap EsTime.when timers
  gTimerId_eq : gTimerId = Int32.ofNat delays

namespace TimerQueue

variable {κ : Type*}

/-- The queue of a fresh loop. -/
def empty : TimerQueue κ where
  isHeap := isMinHeap_nil _
  gTimerId_eq := rfl

variable (H : TimerHeap κ) (q : TimerQueue κ)

/-- `delay_call`, and the id it returns. -/
def delayCall (when : Int) (func : κ) : TimerQueue κ × Int32 :=
  let id := q.gTimerId + 1
  ({ timers := H.push (q.timers ++ [⟨id, when, func⟩])
     gTimerId := id
     delays := q.delays + 1
     isHeap := H.push_isMinHeap _ _ q.isHeap
     gTimerId_eq := by rw [Int32.ofNat_add, ← q.gTimerId_eq]; rfl }, id)

/-- `cancel_delay`. -/
def cancelDelay (id : Int32) : TimerQueue κ :=
  if q.timers.any fun t ↦ t.id == id then
    { q with
      timers := H.make (q.timers.eraseP fun t ↦ t.id == id)
      isHeap := H.make_isMinHeap _ }
  else q

/-- The pop of `run`: when the root is due, it is moved to the back, taken and removed. -/
def expire (now : Int) : Option (EsTime κ × TimerQueue κ) :=
  match h : q.timers with
  | [] => none
  | root :: rest =>
    if root.when ≤ now then
      (H.pop (root :: rest)).getLast?.map fun t ↦
        (t, { q with
          timers := (H.pop (root :: rest)).dropLast
          isHeap := H.isMinHeap_dropLast_pop (h ▸ q.isHeap) })
    else none

/-! ### What the operations do to the entries -/

variable {H q}

/-- **`delay_call` adds one entry**, with the id it returns. -/
theorem timers_delayCall (when : Int) (func : κ) :
    (q.delayCall H when func).1.timers.Perm
      (⟨(q.delayCall H when func).2, when, func⟩ :: q.timers) :=
  (H.push_perm _ _ q.isHeap).trans (List.perm_append_singleton _ _)

/-- While calls are few, an id is the number of its call. -/
theorem toInt_delayCall (hfew : q.delays + 1 < 2 ^ 31) (when : Int) (func : κ) :
    (q.delayCall H when func).2.toInt = q.delays + 1 := by
  have hid : (q.delayCall H when func).2 = Int32.ofNat (q.delays + 1) :=
    (q.delayCall H when func).1.gTimerId_eq
  rw [hid, Int32.toInt_ofNat_of_lt hfew]
  rfl

/-- Erasing the first entry with an id leaves the entries with other ids, when ids are not used
twice. -/
theorem eraseP_id {l : List (EsTime κ)} (hnodup : (l.map EsTime.id).Nodup) (id : Int32) :
    l.eraseP (fun t ↦ t.id == id) = l.filter fun t ↦ t.id ≠ id := by
  induction l with
  | nil => rfl
  | cons t l ih =>
    obtain ⟨hnot, hl⟩ := List.nodup_cons.1 hnodup
    by_cases ht : t.id = id
    · have hrest : ∀ u ∈ l, u.id ≠ id := fun u hu hid ↦
        hnot (ht ▸ hid ▸ List.mem_map_of_mem hu)
      rw [List.eraseP_cons_of_pos (by simpa using ht), List.filter_cons_of_neg (by simpa using ht),
        List.filter_eq_self.2 (by simpa using hrest)]
    · rw [List.eraseP_cons_of_neg (by simpa using ht), List.filter_cons_of_pos (by simpa using ht),
        ih hl]

/-- **`cancel_delay` removes the entry with the id**, when ids are not used twice. -/
theorem timers_cancelDelay (hnodup : (q.timers.map EsTime.id).Nodup) (id : Int32) :
    (q.cancelDelay H id).timers.Perm (q.timers.filter fun t ↦ t.id ≠ id) := by
  rw [cancelDelay, ← eraseP_id hnodup]
  split
  · exact H.make_perm _
  · rename_i hany
    rw [List.eraseP_of_forall_not (by simpa using hany)]

theorem delays_cancelDelay (id : Int32) : (q.cancelDelay H id).delays = q.delays := by
  rw [cancelDelay]
  split
  · rfl
  · rfl

/-- **The pop removes one entry that is due** and hands it out. -/
theorem timers_expire {now : Int} {t : EsTime κ} {q' : TimerQueue κ}
    (h : q.expire H now = some (t, q')) :
    q.timers.Perm (t :: q'.timers) ∧ t.when ≤ now ∧ q'.delays = q.delays := by
  rw [expire] at h
  split at h
  · exact absurd h (by simp)
  · rename_i root rest hq
    split at h
    · rename_i hdue
      obtain ⟨l', hpop, hperm, -⟩ := H.pop_spec root rest (hq ▸ q.isHeap)
      simp only [hpop, List.getLast?_concat, List.dropLast_concat, Option.map_some,
        Option.some.injEq, Prod.mk.injEq] at h
      obtain ⟨rfl, rfl⟩ := h
      exact ⟨(List.Perm.of_eq hq).trans (hperm.symm.cons root), hdue, rfl⟩
    · exact absurd h (by simp)

/-- **The pop takes a minimal deadline.** -/
theorem when_le_of_expire {now : Int} {t : EsTime κ} {q' : TimerQueue κ}
    (h : q.expire H now = some (t, q')) {u : EsTime κ} (hu : u ∈ q.timers) : t.when ≤ u.when := by
  rw [expire] at h
  split at h
  · exact absurd h (by simp)
  · rename_i root rest hq
    split at h
    · obtain ⟨l', hpop, -, -⟩ := H.pop_spec root rest (hq ▸ q.isHeap)
      simp only [hpop, List.getLast?_concat, List.dropLast_concat, Option.map_some,
        Option.some.injEq, Prod.mk.injEq] at h
      obtain ⟨rfl, -⟩ := h
      exact IsMinHeap.root_le (hq ▸ q.isHeap) (hq ▸ hu)
    · exact absurd h (by simp)

/-- **When nothing is popped, nothing is due.** -/
theorem lt_when_of_expire_eq_none {now : Int} (h : q.expire H now = none) {u : EsTime κ}
    (hu : u ∈ q.timers) : now < u.when := by
  rw [expire] at h
  split at h
  · rename_i hq
    exact absurd hu (by simp [hq])
  · rename_i root rest hq
    split at h
    · obtain ⟨l', hpop, -, -⟩ := H.pop_spec root rest (hq ▸ q.isHeap)
      exact absurd h (by simp [hpop])
    · rename_i hdue
      exact Int.lt_of_lt_of_le (Int.not_le.1 hdue) (IsMinHeap.root_le (hq ▸ q.isHeap) (hq ▸ hu))

/-- `cancel_delay` takes out the first entry with the id, if there is one, and no other. -/
theorem timers_perm_cancelDelay (id : Int32) :
    q.timers.Perm ((q.timers.find? fun t ↦ t.id == id).toList ++ (q.cancelDelay H id).timers) := by
  have hfind : ∀ l : List (EsTime κ), l.Perm
      ((l.find? fun t ↦ t.id == id).toList ++ l.eraseP fun t ↦ t.id == id) := by
    intro l
    induction l with
    | nil => exact List.Perm.refl _
    | cons t l ih =>
      by_cases ht : t.id == id
      · rw [List.find?_cons_of_pos (by simpa using ht), List.eraseP_cons_of_pos (by simpa using ht)]
        exact List.Perm.refl _
      · rw [List.find?_cons_of_neg (by simpa using ht), List.eraseP_cons_of_neg (by simpa using ht)]
        exact (ih.cons t).trans List.perm_middle.symm
  rw [cancelDelay]
  split
  · exact (hfind _).trans ((H.make_perm _).symm.append_left _)
  · rename_i hany
    have hnone : q.timers.find? (fun t ↦ t.id == id) = none :=
      List.find?_eq_none.2 (by simpa using hany)
    rw [hnone]
    exact List.Perm.refl _

end TimerQueue

end Nsio
