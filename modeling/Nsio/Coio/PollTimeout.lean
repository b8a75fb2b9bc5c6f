import Nsio.Coio.TimerQueue
import Mathlib.Order.Bounds.Defs
import Mathlib.Algebra.Ring.Int.Defs

/-!
# The timeout of `epoll_wait`

Each turn of `run` waits for at most 100 milliseconds, and for less when a timer is due before. The
clock and the deadlines are 64-bit counts of nanoseconds, and so is their difference; the count of
milliseconds is 64-bit as well, but `const int left` keeps 32 bits of it, before it is clamped.

The root of the heap is the earliest deadline, which is part of the type `TimerQueue`. So the
timeout is a function of that deadline (`timeout_eq`), and it is the right one exactly when the
narrowing keeps the count on its side of the clamp (`timeout_follows_deadline_iff`).
-/

namespace Nsio

namespace TimerQueue

variable {κ : Type*}

/-- `left` of `run`: `duration_cast<milliseconds>(when - now).count()`, narrowed to an `int`. The
division of the cast truncates. -/
def left (when now : Int) : Int32 :=
  ((Int64.ofInt when - Int64.ofInt now) / 1000000).toInt32

/-- The timeout `run` passes to `epoll_wait`. -/
def timeout (q : TimerQueue κ) (now : Int) : Int32 :=
  match q.timers with
  | [] => 100
  | root :: _ => min 100 (max 0 (left root.when now))

/-- The whole milliseconds until a deadline. -/
def millisUntil (now e : Int) : Int := (e - now).tdiv 1000000

/-- The timeout is the one for the deadline `e`: the loop does not sleep past any pending deadline,
and it does not poll while all of them are a millisecond away. -/
structure FollowsDeadline (q : TimerQueue κ) (now e : Int) : Prop where
  timeout_eq : (q.timeout now).toInt = min 100 (max 0 (millisUntil now e))
  wakes : ∀ t ∈ q.timers, now + (q.timeout now).toInt * 1000000 ≤ max now t.when
  sleeps : (∀ t ∈ q.timers, now + 1000000 ≤ t.when) → 0 < (q.timeout now).toInt

/-! ### The narrowing -/

theorem toInt_left {when now : Int} (hlo : -2 ^ 63 ≤ when - now) (hhi : when - now < 2 ^ 63) :
    (left when now).toInt = (millisUntil now when).bmod (2 ^ 32) := by
  rw [left, Int64.toInt_toInt32, Int64.toInt_div_of_ne_right _ _ (by decide), ← Int64.ofInt_sub,
    Int64.toInt_ofInt_of_le hlo hhi]
  rfl

theorem toInt_clamp (x : Int32) : (min 100 (max 0 x)).toInt = min 100 (max 0 x.toInt) := by
  have hmax : (max 0 x).toInt = max 0 x.toInt := by
    show (if (0 : Int32) ≤ x then x else 0).toInt = _
    rw [apply_ite Int32.toInt, Int.max_def]
    exact if_congr Int32.le_iff_toInt_le rfl rfl
  show (if (100 : Int32) ≤ max 0 x then 100 else max 0 x).toInt = _
  rw [apply_ite Int32.toInt, ← hmax, Int.min_def]
  exact if_congr Int32.le_iff_toInt_le rfl rfl

/-- The root of the heap is a least deadline. -/
theorem exists_timers_eq_cons {q : TimerQueue κ} {e : Int}
    (he : IsLeast {w | ∃ t ∈ q.timers, t.when = w} e) :
    ∃ root rest, q.timers = root :: rest ∧ root.when = e := by
  obtain ⟨⟨t, ht, rfl⟩, hle⟩ := he
  rcases hq : q.timers with - | ⟨root, rest⟩
  · exact absurd (hq ▸ ht) List.not_mem_nil
  · refine ⟨root, rest, rfl, Int.le_antisymm ?_ ?_⟩
    · exact IsMinHeap.root_le (hq ▸ q.isHeap) (hq ▸ ht)
    · exact hle ⟨root, hq ▸ List.mem_cons_self, rfl⟩

/-- **The timeout is a function of the earliest deadline**, through the 32 bits of the count. -/
theorem timeout_eq {q : TimerQueue κ} {now e : Int}
    (he : IsLeast {w | ∃ t ∈ q.timers, t.when = w} e)
    (hlo : -2 ^ 63 ≤ e - now) (hhi : e - now < 2 ^ 63) :
    (q.timeout now).toInt = min 100 (max 0 ((millisUntil now e).bmod (2 ^ 32))) := by
  obtain ⟨root, rest, hq, rfl⟩ := exists_timers_eq_cons he
  rw [timeout, hq, ← toInt_left hlo hhi]
  exact toInt_clamp _

/-- Whole milliseconds, at a clamp of at least 0, do not pass the deadline. -/
theorem clamp_millisUntil_le (now e : Int) :
    now + min 100 (max 0 (millisUntil now e)) * 1000000 ≤ max now e := by
  rw [millisUntil]
  rcases Int.le_total (e - now) 0 with h | h
  · rw [show e - now = -(now - e) by omega, Int.neg_tdiv, Int.tdiv_eq_ediv_of_nonneg (by omega)]
    omega
  · rw [Int.tdiv_eq_ediv_of_nonneg h]
    omega

theorem one_le_millisUntil {now e : Int} (h : now + 1000000 ≤ e) : 1 ≤ millisUntil now e := by
  rw [millisUntil, Int.tdiv_eq_ediv_of_nonneg (by omega)]
  omega

/-- A timeout for the earliest deadline follows all of them. -/
theorem followsDeadline_of_eq {q : TimerQueue κ} {now e : Int}
    (he : IsLeast {w | ∃ t ∈ q.timers, t.when = w} e)
    (h : (q.timeout now).toInt = min 100 (max 0 (millisUntil now e))) :
    q.FollowsDeadline now e := by
  obtain ⟨⟨u, hu, hwhen⟩, hle⟩ := he
  refine ⟨h, fun t ht ↦ ?_, fun hfar ↦ ?_⟩
  · have hclamp := clamp_millisUntil_le now e
    have hleast : e ≤ t.when := hle ⟨t, ht, rfl⟩
    rw [h]
    omega
  · have hone := one_le_millisUntil (hwhen ▸ hfar u hu)
    rw [h]
    omega

end TimerQueue

open TimerQueue

/-- **The timeout follows the earliest deadline exactly when the narrowing of the count keeps a due
timer due and a distant one distant.** -/
theorem timeout_follows_deadline_iff {κ : Type*} (q : TimerQueue κ) (now e : Int)
    (he : IsLeast {w | ∃ t ∈ q.timers, t.when = w} e)
    (hlo : -2 ^ 63 ≤ e - now) (hhi : e - now < 2 ^ 63) :
    q.FollowsDeadline now e ↔
      (millisUntil now e ≤ 0 → (millisUntil now e).bmod (2 ^ 32) ≤ 0) ∧
        (100 ≤ millisUntil now e → 100 ≤ (millisUntil now e).bmod (2 ^ 32)) := by
  have htimeout := TimerQueue.timeout_eq he hlo hhi
  set r := millisUntil now e
  constructor
  · intro hf
    have heq := hf.timeout_eq
    rw [htimeout] at heq
    exact ⟨fun hr ↦ by omega, fun hr ↦ by omega⟩
  · rintro ⟨hdue, hfar⟩
    refine followsDeadline_of_eq he ?_
    rw [htimeout]
    -- between the ends of the clamp nothing is narrowed
    have hkept : 0 < r → r < 100 → r.bmod (2 ^ 32) = r := fun h₁ h₂ ↦
      Int.bmod_eq_of_le (by omega) (by omega)
    omega

/-- A queue with one timer. -/
def oneTimer (when : Int) : TimerQueue ℕ :=
  (TimerQueue.empty.delayCall (HeapOps.sorting EsTime.when) when 0).1

theorem isLeast_oneTimer (when : Int) :
    IsLeast {w | ∃ t ∈ (oneTimer when).timers, t.when = w} when := by
  have htimers : (oneTimer when).timers = [⟨1, when, 0⟩] := rfl
  rw [htimers]
  refine ⟨⟨_, List.mem_singleton_self _, rfl⟩, ?_⟩
  rintro w ⟨t, ht, rfl⟩
  rw [List.mem_singleton.1 ht]

/-- A timer 42 milliseconds ahead. -/
theorem timeout_follows_deadline_near : (oneTimer 42000000).FollowsDeadline 0 42000000 :=
  (timeout_follows_deadline_iff (oneTimer 42000000) 0 42000000 (isLeast_oneTimer _) (by decide)
    (by decide)).2 ⟨by decide, by decide⟩

/-- A timer `2 ^ 31` milliseconds ahead is polled for without a pause, and for one that is overdue
by `2 ^ 32 - 100` milliseconds the loop sleeps. -/
theorem timeout_misses_deadline :
    ((oneTimer (2 ^ 31 * 1000000)).timeout 0 = 0 ∧
      ¬ (oneTimer (2 ^ 31 * 1000000)).FollowsDeadline 0 (2 ^ 31 * 1000000)) ∧
    (oneTimer 0).timeout ((2 ^ 32 - 100) * 1000000) = 100 ∧
      ¬ (oneTimer 0).FollowsDeadline ((2 ^ 32 - 100) * 1000000) 0 :=
  ⟨⟨by decide, fun h ↦ absurd h.timeout_eq (by decide)⟩, by decide,
    fun h ↦ absurd h.timeout_eq (by decide)⟩

end Nsio
