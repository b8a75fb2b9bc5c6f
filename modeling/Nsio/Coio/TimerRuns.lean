import Nsio.Coio.TimerQueue
import Nsio.Foundations.Machine

/-!
# Runs of the timer queue

Every sequence of `delay_call`, `cancel_delay` and turns of the expiry loop of `run`. A turn reads
the clock; it fires the root when that is due and otherwise ends the loop. What a callback does
when it is fired (further calls of `delay_call` and `cancel_delay`) are the actions before the next
turn, so nothing has to be said about nesting.

The state carries logs of what was scheduled, fired and cancelled. The pending timers are what was
scheduled without the other two (`accounted`), in every run.

## What rests on the ids

An id is a 32-bit counter. While fewer than `2 ^ 31` calls of `delay_call` were made, the id of a
call is its number, so ids are positive and no two timers share one (`FewInv`). Everything said
about a single timer rests on that. `ids_valid_iff` says that the bound is exact: the call with the
number `2 ^ 31` returns a negative id.
-/

namespace Nsio

/-- The timer queue of a loop, the clock, and the logs. -/
structure TimerLoop (κ : Type*) where
  queue : TimerQueue κ := .empty
  /-- The last reading of the clock. -/
  clock : Int
  /-- The timers `delay_call` scheduled. -/
  scheduled : List (EsTime κ) := []
  /-- The timers whose callback was called, each with the reading of the clock it was called at. -/
  fired : List (EsTime κ × Int) := []
  /-- The timers `cancel_delay` removed. -/
  cancelled : List (EsTime κ) := []
  /-- The ids that were passed to `cancel_delay` after `delay_call` had returned them. -/
  revoked : List Int32 := []

/-- One action on the queue. -/
inductive TimerAction (κ : Type*)
  | delayCall (when : Int) (func : κ)
  | cancelDelay (id : Int32)
  /-- The condition of the expiry loop, with the reading `now`, and its body if it holds. -/
  | turn (now : Int)
  deriving Repr

namespace TimerLoop

variable {κ : Type*} (H : TimerHeap κ)

/-- One step; the clock does not go back. -/
def step (s : TimerLoop κ) : TimerAction κ → Option (TimerLoop κ)
  | .delayCall when func =>
    let r := s.queue.delayCall H when func
    some { s with queue := r.1, scheduled := ⟨r.2, when, func⟩ :: s.scheduled }
  | .cancelDelay id =>
    some { s with
      queue := s.queue.cancelDelay H id
      cancelled := (s.queue.timers.find? fun t ↦ t.id == id).toList ++ s.cancelled
      revoked := if id ∈ s.scheduled.map EsTime.id then id :: s.revoked else s.revoked }
  | .turn now =>
    if s.clock ≤ now then
      match s.queue.expire H now with
      | some (t, queue) =>
        some { s with queue := queue, clock := now, fired := (t, now) :: s.fired }
      | none => some { s with clock := now }
    else none

/-- The runs of a fresh queue, from a reading of the clock. -/
def machine (clock : Int) : Machine (TimerLoop κ) (TimerAction κ) where
  init := { clock := clock }
  step := step H

variable {H}

/-- What a turn can do: fire a timer, or end the loop. -/
theorem turn_cases {s u : TimerLoop κ} {now : Int} (h : s.step H (.turn now) = some u) :
    s.clock ≤ now ∧
      ((∃ t q, s.queue.expire H now = some (t, q) ∧
        u = { s with queue := q, clock := now, fired := (t, now) :: s.fired }) ∨
      (s.queue.expire H now = none ∧ u = { s with clock := now })) := by
  by_cases hclock : s.clock ≤ now
  · rw [step, if_pos hclock] at h
    refine ⟨hclock, ?_⟩
    rcases hexp : s.queue.expire H now with - | ⟨t, q⟩
    · rw [hexp] at h
      exact .inr ⟨rfl, (Option.some.inj h).symm⟩
    · rw [hexp] at h
      exact .inl ⟨t, q, rfl, (Option.some.inj h).symm⟩
  · rw [step, if_neg hclock] at h
    exact absurd h (by simp)

/-! ### What holds in every run -/

/-- The pending timers are those scheduled without those fired and those cancelled, and none was
fired before its deadline. -/
structure Inv (s : TimerLoop κ) : Prop where
  accounted : s.scheduled.Perm (s.queue.timers ++ (s.fired.map Prod.fst ++ s.cancelled))
  fired_due : ∀ f ∈ s.fired, f.1.when ≤ f.2

theorem Inv.step {s u : TimerLoop κ} {a : TimerAction κ} (h : s.step H a = some u)
    (hs : s.Inv) : u.Inv := by
  cases a with
  | delayCall when func =>
    obtain rfl := Option.some.inj h
    refine ⟨?_, hs.fired_due⟩
    exact (hs.accounted.cons _).trans
      ((TimerQueue.timers_delayCall when func).symm.append_right _)
  | cancelDelay id =>
    obtain rfl := Option.some.inj h
    refine ⟨hs.accounted.trans ?_, hs.fired_due⟩
    -- the cancelled timer moves from the pending ones to the log
    refine ((TimerQueue.timers_perm_cancelDelay (H := H) id).append_right _).trans ?_
    rw [List.append_assoc]
    refine (List.perm_append_comm_assoc _ _ _).trans (List.Perm.append_left _ ?_)
    exact List.perm_append_comm_assoc _ _ _
  | turn now =>
    obtain ⟨-, ⟨t, q, hexp, rfl⟩ | ⟨-, rfl⟩⟩ := turn_cases h
    · obtain ⟨hperm, hdue, -⟩ := TimerQueue.timers_expire hexp
      refine ⟨hs.accounted.trans ?_, List.forall_mem_cons.2 ⟨hdue, hs.fired_due⟩⟩
      exact (hperm.append_right _).trans List.perm_middle.symm
    · exact ⟨hs.accounted, hs.fired_due⟩

/-! ### What holds while calls are few -/

/-- The number of calls of `delay_call` of an action. -/
def delaysOf : TimerAction κ → ℕ
  | .delayCall _ _ => 1
  | .cancelDelay _ => 0
  | .turn _ => 0

theorem delays_step {s u : TimerLoop κ} {a : TimerAction κ} (h : s.step H a = some u) :
    u.queue.delays = s.queue.delays + delaysOf a := by
  cases a with
  | delayCall when func =>
    obtain rfl := Option.some.inj h
    rfl
  | cancelDelay id =>
    obtain rfl := Option.some.inj h
    exact TimerQueue.delays_cancelDelay id
  | turn now =>
    obtain ⟨-, ⟨t, q, hexp, rfl⟩ | ⟨-, rfl⟩⟩ := turn_cases h
    · exact (TimerQueue.timers_expire hexp).2.2
    · rfl

/-- Ids are numbers of calls: positive, and used once. A pending timer was not cancelled. -/
structure FewInv (s : TimerLoop κ) : Prop where
  inv : s.Inv
  id_pos : ∀ t ∈ s.scheduled, 0 < t.id.toInt
  id_le : ∀ t ∈ s.scheduled, t.id.toInt ≤ s.queue.delays
  nodup : (s.scheduled.map EsTime.id).Nodup
  revoked_scheduled : ∀ id ∈ s.revoked, id ∈ s.scheduled.map EsTime.id
  not_revoked : ∀ t ∈ s.queue.timers, t.id ∉ s.revoked

namespace FewInv

variable {s u : TimerLoop κ}

theorem nodup_ids (hs : s.FewInv) :
    ((s.queue.timers ++ (s.fired.map Prod.fst ++ s.cancelled)).map EsTime.id).Nodup :=
  (hs.inv.accounted.map EsTime.id).nodup_iff.1 hs.nodup

theorem nodup_pending (hs : s.FewInv) : (s.queue.timers.map EsTime.id).Nodup := by
  have h := hs.nodup_ids
  rw [List.map_append, List.nodup_append] at h
  exact h.1

theorem nodup_fired (hs : s.FewInv) : ((s.fired.map Prod.fst).map EsTime.id).Nodup := by
  have h := hs.nodup_ids
  rw [List.map_append, List.map_append, List.nodup_append, List.nodup_append] at h
  exact h.2.1.1

theorem mem_scheduled (hs : s.FewInv) {t : EsTime κ} (ht : t ∈ s.queue.timers) :
    t ∈ s.scheduled :=
  hs.inv.accounted.mem_iff.2 (List.mem_append_left _ ht)

/-- The id of a further call is the number of the call, which no timer has yet. -/
theorem id_delayCall (hs : s.FewInv) (hfew : s.queue.delays + 1 < 2 ^ 31) (when : Int)
    (func : κ) : 0 < (s.queue.delayCall H when func).2.toInt ∧
      (s.queue.delayCall H when func).2 ∉ s.scheduled.map EsTime.id := by
  have hid := TimerQueue.toInt_delayCall (H := H) hfew when func
  refine ⟨by omega, fun hmem ↦ ?_⟩
  obtain ⟨t, ht, htid⟩ := List.mem_map.1 hmem
  have hle := hs.id_le t ht
  rw [htid, hid] at hle
  omega

theorem init (clock : Int) : (machine H clock).init.FewInv where
  inv := ⟨List.Perm.refl _, fun _ h ↦ absurd h List.not_mem_nil⟩
  id_pos _ h := absurd h List.not_mem_nil
  id_le _ h := absurd h List.not_mem_nil
  nodup := List.nodup_nil
  revoked_scheduled _ h := absurd h List.not_mem_nil
  not_revoked _ h := absurd h List.not_mem_nil

theorem delayCall (hs : s.FewInv) (hfew : s.queue.delays + 1 < 2 ^ 31) {when : Int} {func : κ}
    (h : s.step H (.delayCall when func) = some u) : u.FewInv := by
  obtain ⟨hpos, hnew⟩ := hs.id_delayCall (H := H) hfew when func
  have hid := TimerQueue.toInt_delayCall (H := H) hfew when func
  have hinv := hs.inv.step h
  obtain rfl := Option.some.inj h
  refine ⟨hinv, List.forall_mem_cons.2 ⟨hpos, hs.id_pos⟩, List.forall_mem_cons.2 ⟨?_, ?_⟩,
    List.nodup_cons.2 ⟨hnew, hs.nodup⟩, ?_, ?_⟩
  · exact hid.le
  · intro t ht
    have := hs.id_le t ht
    show t.id.toInt ≤ ((s.queue.delays + 1 : ℕ) : ℤ)
    omega
  · exact fun id hid ↦ List.mem_cons_of_mem _ (hs.revoked_scheduled id hid)
  · intro t ht hrev
    rcases List.mem_cons.1 ((TimerQueue.timers_delayCall when func).mem_iff.1 ht) with rfl | ht
    · exact hnew (hs.revoked_scheduled _ hrev)
    · exact hs.not_revoked t ht hrev

theorem cancelDelay (hs : s.FewInv) {id : Int32} (h : s.step H (.cancelDelay id) = some u) :
    u.FewInv := by
  have hinv := hs.inv.step h
  have hdelays := delays_step h
  obtain rfl := Option.some.inj h
  refine ⟨hinv, hs.id_pos, fun t ht ↦ ?_, hs.nodup, fun i hi ↦ ?_, fun t ht hrev ↦ ?_⟩
  · rw [hdelays]
    exact hs.id_le t ht
  · dsimp only at hi
    split at hi
    · rename_i hissued
      rcases List.mem_cons.1 hi with rfl | hi
      · exact hissued
      · exact hs.revoked_scheduled i hi
    · exact hs.revoked_scheduled i hi
  · obtain ⟨ht, hne⟩ := List.mem_filter.1
      ((TimerQueue.timers_cancelDelay (H := H) hs.nodup_pending id).mem_iff.1 ht)
    dsimp only at hrev
    split at hrev
    · rcases List.mem_cons.1 hrev with heq | hrev
      · exact absurd heq (by simpa using hne)
      · exact hs.not_revoked t ht hrev
    · exact hs.not_revoked t ht hrev

theorem turn (hs : s.FewInv) {now : Int} (h : s.step H (.turn now) = some u) : u.FewInv := by
  have hinv := hs.inv.step h
  have hdelays := delays_step h
  obtain ⟨-, ⟨t, q, hexp, rfl⟩ | ⟨-, rfl⟩⟩ := turn_cases h
  · refine ⟨hinv, hs.id_pos, fun v hv ↦ ?_, hs.nodup, hs.revoked_scheduled, fun v hv ↦ ?_⟩
    · rw [hdelays]
      exact hs.id_le v hv
    · exact hs.not_revoked v
        ((TimerQueue.timers_expire hexp).1.mem_iff.2 (List.mem_cons_of_mem _ hv))
  · exact ⟨hinv, hs.id_pos, hs.id_le, hs.nodup, hs.revoked_scheduled, hs.not_revoked⟩

theorem step {a : TimerAction κ} (hs : s.FewInv)
    (hfew : s.queue.delays + delaysOf a < 2 ^ 31) (h : s.step H a = some u) : u.FewInv := by
  cases a with
  | delayCall when func => exact hs.delayCall hfew h
  | cancelDelay id => exact hs.cancelDelay h
  | turn now => exact hs.turn h

end FewInv

/-- With fewer than `2 ^ 31` calls, no call is the one with that number. -/
theorem delays_within {clock : Int} {as : List (TimerAction κ)}
    (hfew : (as.map delaysOf).sum < 2 ^ 31) :
    (machine H clock).StepsMeet (fun s a ↦ s.queue.delays + delaysOf a < 2 ^ 31) as := by
  have hstart : (machine H clock).init.queue.delays = 0 := rfl
  exact @Machine.stepsMeetFrom_of_budget _ _ (machine H clock) (fun s ↦ s.queue.delays) delaysOf _
    (fun _ _ _ h ↦ (delays_step h).le) _ as (by rwa [hstart, Nat.zero_add])

/-- With fewer than `2 ^ 31` calls, the invariant of the ids holds throughout. -/
theorem fewInv_throughout {clock : Int} {as : List (TimerAction κ)}
    (hfew : (as.map delaysOf).sum < 2 ^ 31) : (machine H clock).Throughout FewInv as :=
  Machine.throughout_of_stepsMeet (.init clock) (fun _ _ _ h hb hs ↦ hs.step hb h)
    (delays_within hfew)

/-! ### The timer queue meets its specification -/

/-- What holds of a state of the queue. -/
structure Sound (s : TimerLoop κ) : Prop where
  isHeap : IsMinHeap EsTime.when s.queue.timers
  accounted : s.scheduled.Perm (s.queue.timers ++ (s.fired.map Prod.fst ++ s.cancelled))
  ids_nodup : (s.scheduled.map EsTime.id).Nodup
  fired_once : ((s.fired.map Prod.fst).map EsTime.id).Nodup
  fired_due : ∀ f ∈ s.fired, f.1.when ≤ f.2

variable (H) in
/-- What holds of a step: `cancel_delay` removes exactly the timer with the id; a timer that fires
is due, minimal, fires for the first time and was not cancelled; and when the loop ends nothing is
due. -/
def StepSound (s : TimerLoop κ) : TimerAction κ → Prop
  | .delayCall _ _ => True
  | .cancelDelay id =>
    (s.queue.cancelDelay H id).timers.Perm (s.queue.timers.filter fun t ↦ t.id ≠ id)
  | .turn now =>
    (∀ t q, s.queue.expire H now = some (t, q) →
      s.queue.timers.Perm (t :: q.timers) ∧ t.when ≤ now ∧
        (∀ u ∈ s.queue.timers, t.when ≤ u.when) ∧
        t.id ∉ s.revoked ∧ ∀ f ∈ s.fired, f.1.id ≠ t.id) ∧
    (s.queue.expire H now = none → ∀ u ∈ s.queue.timers, now < u.when)

theorem FewInv.sound {s : TimerLoop κ} (hs : s.FewInv) : s.Sound where
  isHeap := s.queue.isHeap
  accounted := hs.inv.accounted
  ids_nodup := hs.nodup
  fired_once := hs.nodup_fired
  fired_due := hs.inv.fired_due

theorem FewInv.stepSound {s : TimerLoop κ} (hs : s.FewInv) (a : TimerAction κ) :
    StepSound H s a := by
  cases a with
  | delayCall when func => trivial
  | cancelDelay id => exact TimerQueue.timers_cancelDelay hs.nodup_pending id
  | turn now =>
    refine ⟨fun t q hexp ↦ ?_, fun hexp u hu ↦ TimerQueue.lt_when_of_expire_eq_none hexp hu⟩
    obtain ⟨hperm, hdue, -⟩ := TimerQueue.timers_expire hexp
    have ht : t ∈ s.queue.timers := hperm.mem_iff.2 List.mem_cons_self
    refine ⟨hperm, hdue, fun u hu ↦ TimerQueue.when_le_of_expire hexp hu, hs.not_revoked t ht,
      fun f hf heq ↦ ?_⟩
    -- the ids of the pending and of the fired timers are disjoint
    have hnodup := hs.nodup_ids
    rw [List.map_append, List.map_append, List.nodup_append] at hnodup
    exact hnodup.2.2 _ (List.mem_map_of_mem ht) _
      (List.mem_append_left _ (List.mem_map_of_mem (List.mem_map_of_mem hf))) heq.symm

end TimerLoop

open TimerLoop in
/-- **The timer queue.** In every run with fewer than `2 ^ 31` calls of `delay_call`, every state
and every step of the queue is sound. -/
theorem timerQueue_sound {κ : Type*} (H : TimerHeap κ) (clock : Int) (as : List (TimerAction κ))
    (hfew : (as.map delaysOf).sum < 2 ^ 31) :
    (machine H clock).Throughout Sound as ∧ (machine H clock).StepsMeet (StepSound H) as := by
  have hinv : (machine H clock).Throughout FewInv as := fewInv_throughout hfew
  exact ⟨hinv.mono fun s hs ↦ hs.sound,
    Machine.stepsMeet_of_throughout (fun s a _ _ hs _ ↦ hs.stepSound a) hinv⟩

open TimerLoop in
/-- Three timers are scheduled; the first to be due is fired, its callback cancels another and
schedules one more, and the loop ends. -/
theorem timerQueue_sound_nested :
    let as : List (TimerAction ℕ) := [.delayCall 30 0, .delayCall 10 1, .delayCall 20 2, .turn 25,
      .cancelDelay 3, .delayCall 40 3, .turn 26]
    (∃ s, (machine (HeapOps.sorting _) 0).run as = some s ∧
      s.queue.timers.map EsTime.id = [1, 4] ∧ s.fired.map (fun f ↦ f.1.id) = [2] ∧
      s.revoked = [3]) ∧
    (machine (HeapOps.sorting _) 0).Throughout Sound as ∧
      (machine (HeapOps.sorting _) 0).StepsMeet (StepSound (HeapOps.sorting _)) as :=
  ⟨⟨_, rfl, by decide, by decide, by decide⟩, timerQueue_sound _ 0 _ (by decide)⟩

/-! ### Ids in runs of any length -/

namespace TimerLoop

variable {κ : Type*}

/-- The id a call of `delay_call` returns is positive and not the id of a pending timer. -/
def IdValid (H : TimerHeap κ) (s : TimerLoop κ) : TimerAction κ → Prop
  | .delayCall when func =>
    0 < (s.queue.delayCall H when func).2 ∧
      ∀ t ∈ s.queue.timers, t.id ≠ (s.queue.delayCall H when func).2
  | .cancelDelay _ => True
  | .turn _ => True

/-- The guard of `~timeout` passes for a pending timer, and `cancel_delay` then removes that timer
and no other. -/
def CancelExact (H : TimerHeap κ) (s : TimerLoop κ) : Prop :=
  ∀ t ∈ s.queue.timers, 0 < t.id ∧ s.queue.timers.Perm (t :: (s.queue.cancelDelay H t.id).timers)

variable {H : TimerHeap κ}

theorem FewInv.idValid {s : TimerLoop κ} (hs : s.FewInv) {a : TimerAction κ}
    (hfew : s.queue.delays + delaysOf a < 2 ^ 31) : IdValid H s a := by
  cases a with
  | delayCall when func =>
    obtain ⟨hpos, hnew⟩ := hs.id_delayCall (H := H) hfew when func
    exact ⟨Int32.lt_iff_toInt_lt.2 hpos, fun t ht heq ↦
      hnew (heq ▸ List.mem_map_of_mem (hs.mem_scheduled ht))⟩
  | cancelDelay id => trivial
  | turn now => trivial

theorem FewInv.cancelExact {s : TimerLoop κ} (hs : s.FewInv) : s.CancelExact H := by
  intro t ht
  refine ⟨Int32.lt_iff_toInt_lt.2 (hs.id_pos t (hs.mem_scheduled ht)), ?_⟩
  -- the first entry with the id of the timer is the timer
  have hperm := TimerQueue.timers_perm_cancelDelay (H := H) (q := s.queue) t.id
  rcases hfind : s.queue.timers.find? (fun u ↦ u.id == t.id) with - | u
  · exact absurd (List.find?_eq_none.1 hfind t ht) (by simp)
  · have hu : u.id = t.id := by simpa using List.find?_some hfind
    obtain rfl : u = t :=
      List.inj_on_of_nodup_map hs.nodup_pending (List.mem_of_find?_eq_some hfind) ht hu
    rwa [hfind] at hperm

/-- The call with the number `2 ^ 31` returns a negative id. -/
theorem delays_lt_of_idValid {s u : TimerLoop κ} {a : TimerAction κ} (h : s.step H a = some u)
    (hvalid : IdValid H s a) (hs : s.queue.delays < 2 ^ 31) : u.queue.delays < 2 ^ 31 := by
  rw [delays_step h]
  cases a with
  | delayCall when func =>
    by_contra hge
    have hdelays : s.queue.delays + 1 = 2 ^ 31 := by
      have hge' : ¬ s.queue.delays + 1 < 2 ^ 31 := hge
      omega
    have hid : (s.queue.delayCall H when func).2 = Int32.ofNat (2 ^ 31) :=
      hdelays ▸ (s.queue.delayCall H when func).1.gTimerId_eq
    have hpos := hvalid.1
    rw [hid] at hpos
    exact absurd hpos (by decide)
  | cancelDelay id => exact hs
  | turn now => exact hs

/-- The calls of a run are those of its actions. -/
theorem delays_runFrom {clock : Int} {as : List (TimerAction κ)} {s u : TimerLoop κ}
    (h : (machine H clock).runFrom s as = some u) :
    u.queue.delays = s.queue.delays + (as.map delaysOf).sum := by
  induction as generalizing s with
  | nil => exact Option.some.inj h ▸ rfl
  | cons a as ih =>
    rw [Machine.runFrom_cons] at h
    obtain ⟨v, hv, h'⟩ := Option.bind_eq_some_iff.1 h
    rw [ih h', delays_step hv, List.map_cons, List.sum_cons, Nat.add_assoc]

/-- A loop that schedules a timer and fires it at once, `n` times. -/
def oneAtATime (n : ℕ) : List (TimerAction ℕ) :=
  (List.replicate n [.delayCall 0 0, .turn 0]).flatten

theorem exists_runFrom_oneAtATime (H : TimerHeap ℕ) (n : ℕ) {s : TimerLoop ℕ}
    (hs : s.clock = 0) : ∃ u, (machine H 0).runFrom s (oneAtATime n) = some u ∧ u.clock = 0 ∧
      u.queue.delays = s.queue.delays + n := by
  induction n generalizing s with
  | zero => exact ⟨s, rfl, hs, rfl⟩
  | succ n ih =>
    obtain ⟨v, hv⟩ : ∃ v, s.step H (.delayCall 0 0) = some v := ⟨_, rfl⟩
    have hvclock : v.clock = 0 := by
      obtain rfl := Option.some.inj hv
      exact hs
    -- the turn is taken whether or not the timer is due
    obtain ⟨w, hw⟩ : ∃ w, v.step H (.turn 0) = some w := by
      rw [step, if_pos hvclock.le]
      split
      · exact ⟨_, rfl⟩
      · exact ⟨_, rfl⟩
    have hwclock : w.clock = 0 := by
      obtain ⟨-, ⟨t, q, -, rfl⟩ | ⟨-, rfl⟩⟩ := turn_cases hw <;> rfl
    obtain ⟨u, hu, huclock, hdelays⟩ := ih hwclock
    refine ⟨u, ?_, huclock, ?_⟩
    · have hsplit : oneAtATime (n + 1) = .delayCall 0 0 :: .turn 0 :: oneAtATime n := rfl
      have hstep₁ : (machine H 0).step s (.delayCall 0 0) = some v := hv
      have hstep₂ : (machine H 0).step v (.turn 0) = some w := hw
      rw [hsplit, Machine.runFrom_cons, hstep₁, Option.bind_some, Machine.runFrom_cons, hstep₂,
        Option.bind_some, hu]
    · rw [hdelays, delays_step hw, delays_step hv, delaysOf, delaysOf]
      omega

end TimerLoop

open TimerLoop in
/-- **When timer ids are valid.** The ids `delay_call` returns in a run are all positive and
different from the ids of the pending timers exactly when it is called fewer than `2 ^ 31` times;
and then the destructor of an awaiter cancels its own pending timer in every state of the run. -/
theorem ids_valid_iff {κ : Type*} {H : TimerHeap κ} {clock : Int} {as : List (TimerAction κ)}
    {s : TimerLoop κ} (hrun : (machine H clock).run as = some s) :
    ((machine H clock).StepsMeet (IdValid H) as ↔ (as.map delaysOf).sum < 2 ^ 31) ∧
      ((as.map delaysOf).sum < 2 ^ 31 → (machine H clock).Throughout (CancelExact H) as) := by
  refine ⟨⟨fun hvalid ↦ ?_, fun hfew ↦ ?_⟩, fun hfew ↦ ?_⟩
  · have hlt : (machine H clock).Throughout (fun s ↦ s.queue.delays < 2 ^ 31) as :=
      Machine.throughout_of_stepsMeet (Nat.two_pow_pos 31)
        (fun _ _ _ h hv hs ↦ delays_lt_of_idValid h hv hs) hvalid
    have hlast := hlt.last hrun
    rw [delays_runFrom hrun] at hlast
    exact Nat.lt_of_le_of_lt (Nat.le_add_left _ _) hlast
  · have hinv : (machine H clock).Throughout FewInv as := fewInv_throughout hfew
    have hsteps := Machine.stepsMeet_of_throughout (G := fun s _ ↦ s.FewInv)
      (fun _ _ _ _ hs _ ↦ hs) hinv
    exact ((delays_within hfew).and hsteps).mono fun s a h ↦ h.2.idValid h.1
  · exact (fewInv_throughout hfew).mono fun s hs ↦ hs.cancelExact

open TimerLoop in
theorem ids_valid_two_timers :
    let as : List (TimerAction ℕ) := [.delayCall 30 0, .delayCall 10 1, .turn 15]
    (machine (HeapOps.sorting _) 0).StepsMeet (IdValid (HeapOps.sorting _)) as ∧
      (machine (HeapOps.sorting _) 0).Throughout (CancelExact (HeapOps.sorting _)) as :=
  have hvalid := @ids_valid_iff ℕ (HeapOps.sorting _) 0
    [.delayCall 30 0, .delayCall 10 1, .turn 15] _ rfl
  ⟨hvalid.1.2 (by decide), hvalid.2 (by decide)⟩

open TimerLoop in
/-- A loop that fires every timer before it schedules the next one: after `2 ^ 31 - 1` of them the
next id is negative, and `~timeout` takes it for an awaiter without a timer. -/
theorem timerId_negative :
    ∃ s, (machine (HeapOps.sorting _) 0).run (oneAtATime (2 ^ 31 - 1)) = some s ∧
      ¬ IdValid (HeapOps.sorting _) s (.delayCall 0 0) ∧
      (s.queue.delayCall (HeapOps.sorting _) 0 0).2 = Int32.minValue := by
  obtain ⟨s, hrun, -, hdelays⟩ := exists_runFrom_oneAtATime (HeapOps.sorting _) (2 ^ 31 - 1)
    (s := (machine (HeapOps.sorting _) 0).init) rfl
  have hnext : s.queue.delays + 1 = 2 ^ 31 := by
    have hstart : (machine (HeapOps.sorting (EsTime.when (κ := ℕ))) 0).init.queue.delays = 0 := rfl
    omega
  have hid : (s.queue.delayCall (HeapOps.sorting _) 0 0).2 = Int32.ofNat (2 ^ 31) :=
    hnext ▸ (s.queue.delayCall (HeapOps.sorting _) 0 0).1.gTimerId_eq
  refine ⟨s, hrun, fun hvalid ↦ ?_, hid⟩
  have hpos := hvalid.1
  rw [hid] at hpos
  exact absurd hpos (by decide)

end Nsio
