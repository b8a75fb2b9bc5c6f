import Nsio.Coio.PollTimeout
import Nsio.Coio.TimerRuns

/-!
# How late a timer is

`run` looks at its timers only in the expiry loop, between two calls of `epoll_wait`. How late a
callback can be called depends on two things the loop has no hold of: how long handlers and
callbacks keep it from the next `epoll_wait`, and how long after its timeout `epoll_wait` comes
back. With bounds for both (`Latency`), this module says how late a timer can be in any run. A
deadline may be past when `delay_call` is called; such a timer is due from the call on, and so the
time of the call is kept with the callback.

The state is the queue of `TimerRuns` with the place `run` is at. The user's code runs before `run`
is called, in the handlers of a batch, and in the callbacks of the expiry loop; in these places it
may call `delay_call` and `cancel_delay`. A signal ends `epoll_wait` early, with `EINTR`, and `run`
goes back to its head **without** the expiry loop. The timeout is computed from a reading of the
clock before the call; what passes between the two is part of the delay of `epoll_wait`.

The worst that can happen to a timer: a signal comes just before the deadline, and `epoll_wait`
comes back late; the next `epoll_wait`, with the timeout 0, is called late and comes back late; and
the handlers and other callbacks come first. No run is later than that (`timers_punctual`), and this
one exists for all delays (`lateness_reached`).
-/

namespace Nsio

namespace TimerQueue

variable {κ : Type*} {q : TimerQueue κ} {now : Int}

theorem zero_le_timeout (q : TimerQueue κ) (now : Int) : 0 ≤ (q.timeout now).toInt := by
  rw [timeout]
  split
  · decide
  · rw [toInt_clamp]
    omega

/-- The narrowing of the count does not make a sleep longer, unless a timer is overdue by `2 ^ 31`
milliseconds. -/
theorem bmod_millisUntil_le {e : Int} (h : now < e + 2 ^ 31 * 1000000) :
    (millisUntil now e).bmod (2 ^ 32) ≤ max 0 (millisUntil now e) := by
  have hlow : -2 ^ 31 ≤ millisUntil now e := by
    rw [millisUntil]
    rcases Int.le_total (e - now) 0 with hle | hle
    · rw [show e - now = -(now - e) by omega, Int.neg_tdiv, Int.tdiv_eq_ediv_of_nonneg (by omega)]
      omega
    · rw [Int.tdiv_eq_ediv_of_nonneg hle]
      omega
  generalize millisUntil now e = r at hlow ⊢
  have hlt : r.bmod (2 ^ 32) < 2 ^ 31 := Int.bmod_lt (by decide)
  rcases Int.lt_or_le r (2 ^ 31) with hr | hr
  · have hkept : r.bmod (2 ^ 32) = r := Int.bmod_eq_of_le (by omega) (by omega)
    omega
  · omega

/-- **The loop does not sleep past a deadline**, when no timer is overdue by `2 ^ 31` milliseconds.
A distant timer does no harm here: at worst the loop wakes up too early. -/
theorem add_timeout_le (hnow : 0 ≤ now) (htimes : ∀ e ∈ q.timers, e.when < 2 ^ 63)
    (hlate : ∀ e ∈ q.timers, now < e.when + 2 ^ 31 * 1000000) {e : EsTime κ}
    (he : e ∈ q.timers) : now + (q.timeout now).toInt * 1000000 ≤ max now e.when := by
  rcases hq : q.timers with - | ⟨root, rest⟩
  · exact absurd (hq ▸ he) List.not_mem_nil
  have hroot : root ∈ q.timers := hq ▸ List.mem_cons_self
  have hmin : ∀ u ∈ q.timers, root.when ≤ u.when := fun u hu ↦
    IsMinHeap.root_le (hq ▸ q.isHeap) (hq ▸ hu)
  have hleast : IsLeast {w | ∃ t ∈ q.timers, t.when = w} root.when := by
    refine ⟨⟨root, hroot, rfl⟩, ?_⟩
    rintro w ⟨u, hu, rfl⟩
    exact hmin u hu
  have hlt := htimes root hroot
  have hover := hlate root hroot
  have hlo : -2 ^ 63 ≤ root.when - now := by omega
  have hhi : root.when - now < 2 ^ 63 := by omega
  have htimeout := timeout_eq hleast hlo hhi
  have hnarrow := bmod_millisUntil_le hover
  have hclamp := clamp_millisUntil_le now root.when
  have hle := hmin e he
  rw [htimeout]
  omega

theorem mem_of_mem_cancelDelay {H : TimerHeap κ} {id : Int32} {e : EsTime κ}
    (he : e ∈ (q.cancelDelay H id).timers) : e ∈ q.timers :=
  (timers_perm_cancelDelay id).mem_iff.2 (List.mem_append_right _ he)

end TimerQueue

/-- How long the loop is away from `epoll_wait` at most, how long after its timeout `epoll_wait`
returns at most, and how long a deadline is past at most when `delay_call` is called, in
nanoseconds. Together they are less than `2 ^ 31` milliseconds, or an overdue timer could be taken
for a distant one. -/
structure Latency where
  busy : ℕ
  slack : ℕ
  past : ℕ := 0
  add_lt : busy + slack + past < 2 ^ 31 * 1000000

/-- How late a timer can be. -/
def Latency.lateness (T : Latency) : ℕ := 2 * (T.busy + T.slack)

/-- Where the thread of the loop is. -/
inductive LoopPlace
  /-- In code before the call of `run`. -/
  | starting
  /-- At the head of the loop of `run`. -/
  | head
  /-- In `epoll_wait`, with this timeout. -/
  | polling (timeout : Int32)
  /-- In the handlers of a batch. -/
  | handling
  /-- In the expiry loop. -/
  | expiring
  deriving DecidableEq, Repr

/-- The user's code may run here. -/
def LoopPlace.inCode : LoopPlace → Bool
  | .starting | .handling | .expiring => true
  | .head | .polling _ => false

/-- When a timer is due: at its deadline, or at the call of `delay_call` if the deadline is past
then. The time of the call is kept beside the callback. -/
def EsTime.due {κ : Type*} (e : EsTime (κ × Int)) : Int := max e.when e.func.2

theorem EsTime.when_le_due {κ : Type*} (e : EsTime (κ × Int)) : e.when ≤ e.due := le_max_left _ _

/-- The timers of a loop, with the place it is at. -/
structure PollLoop (κ : Type*) where
  loop : TimerLoop (κ × Int)
  place : LoopPlace := .starting
  /-- When `epoll_wait` last came back, or, in `epoll_wait`, when the timeout was computed. -/
  since : Int

/-- What the thread of the loop does; `now` is the time at which it does it. -/
inductive PollAction (κ : Type*)
  /-- The call of `run`. -/
  | run
  /-- The timeout is computed and `epoll_wait` called. -/
  | poll (now : Int)
  /-- `epoll_wait` returns a batch, or nothing. -/
  | wake (now : Int)
  /-- `epoll_wait` fails with `EINTR`. -/
  | interrupted (now : Int)
  /-- `delay_call(when, func)`, also for a duration: `when` is then counted from `now`. -/
  | delayCall (now when : Int) (func : κ)
  | cancelDelay (id : Int32)
  /-- The condition of the expiry loop, and its body if it holds. -/
  | turn (now : Int)
  deriving Repr

/-- The clock is not part of the accounts. -/
theorem TimerLoop.Inv.clock {κ : Type*} {s : TimerLoop κ} (hs : s.Inv) (now : Int) :
    TimerLoop.Inv { s with clock := now } :=
  ⟨hs.accounted, hs.fired_due⟩

namespace PollLoop

variable {κ : Type*} (T : Latency) (H : TimerHeap (κ × Int))

/-- The clock can show `now`: it does not go back, and its count has 64 bits. -/
def Reads (s : PollLoop κ) (now : Int) : Prop := s.loop.clock ≤ now ∧ now < 2 ^ 63

instance (s : PollLoop κ) (now : Int) : Decidable (s.Reads now) :=
  inferInstanceAs (Decidable (_ ∧ _))

/-- The same, before `epoll_wait` has to be called again. -/
def ReadsBusy (s : PollLoop κ) (now : Int) : Prop := s.Reads now ∧ now ≤ s.since + T.busy

instance (s : PollLoop κ) (now : Int) : Decidable (s.ReadsBusy T now) :=
  inferInstanceAs (Decidable (_ ∧ _))

/-- When the timeout of `epoll_wait` is over. -/
def wakeTime (s : PollLoop κ) (timeout : Int32) : Int := s.since + timeout.toInt * 1000000

/-- One step of the thread. -/
def step (s : PollLoop κ) : PollAction κ → Option (PollLoop κ)
  | .run => if s.place = .starting then some { s with place := .head } else none
  | .poll now =>
    if s.place = .head ∧ s.ReadsBusy T now then
      some
        { loop := { s.loop with clock := now }
          place := .polling (s.loop.queue.timeout now)
          since := now }
    else none
  | .wake now =>
    match s.place with
    | .polling timeout =>
      if s.Reads now ∧ now ≤ s.wakeTime timeout + T.slack then
        some { loop := { s.loop with clock := now }, place := .handling, since := now }
      else none
    | _ => none
  | .interrupted now =>
    match s.place with
    | .polling timeout =>
      -- a call with the timeout 0 does not wait, and is not interrupted
      if s.Reads now ∧ 0 < timeout.toInt ∧ now ≤ s.wakeTime timeout + T.slack then
        some { loop := { s.loop with clock := now }, place := .head, since := now }
      else none
    | _ => none
  | .delayCall now when func =>
    if s.place.inCode ∧ s.ReadsBusy T now ∧ now ≤ when + T.past ∧ when < 2 ^ 63 then
      (TimerLoop.step H { s.loop with clock := now } (.delayCall when (func, now))).map
        fun loop ↦ { s with loop := loop }
    else none
  | .cancelDelay id =>
    if s.place.inCode then
      (s.loop.step H (.cancelDelay id)).map fun loop ↦ { s with loop := loop }
    else none
  | .turn now =>
    if (s.place = .handling ∨ s.place = .expiring) ∧ s.ReadsBusy T now then
      (s.loop.step H (.turn now)).map fun loop ↦
        { s with
          loop := loop
          place := if (s.loop.queue.expire H now).isSome then .expiring else .head }
    else none

/-- The runs of a loop whose code starts at the time `start`. -/
def machine (start : ℕ) : Machine (PollLoop κ) (PollAction κ) where
  init := { loop := { clock := start }, since := start }
  step := step T H

variable {T H}

/-! ### What holds in every run -/

/-- How long a pending timer can have been due at the time `since`. -/
def margin (T : Latency) : LoopPlace → ℕ
  | .starting => 0
  | .head => T.slack
  | .polling _ => T.slack + T.busy
  | .handling | .expiring => T.slack + T.busy + T.slack

theorem margin_add_busy_le (p : LoopPlace) : margin T p + T.busy ≤ T.lateness := by
  rw [Latency.lateness]
  cases p <;> simp only [margin] <;> omega

variable (T)

/-- No timer was fired early or too late, and one that was scheduled and not cancelled has been
fired when its time is over. -/
structure Punctual (s : PollLoop κ) : Prop where
  fired : ∀ f ∈ s.loop.fired, f.1.when ≤ f.2 ∧ f.2 ≤ f.1.due + T.lateness
  served : ∀ e ∈ s.loop.scheduled, e.due + T.lateness < s.loop.clock →
    e ∉ s.loop.cancelled → ∃ now, (e, now) ∈ s.loop.fired

/-- What holds of a pending timer, from the moment `since` on. -/
structure Waiting (since : Int) (p : LoopPlace) (e : EsTime (κ × Int)) : Prop where
  lt : e.when < 2 ^ 63
  due_le : e.due ≤ e.when + T.past
  since_le : since ≤ e.due + margin T p

/-- The invariant. -/
structure Inv (s : PollLoop κ) : Prop where
  since_nonneg : 0 ≤ s.since
  since_le : s.since ≤ s.loop.clock
  clock_le : s.loop.clock ≤ s.since + T.busy
  waiting : ∀ e ∈ s.loop.queue.timers, Waiting T s.since s.place e
  polling : ∀ timeout, s.place = .polling timeout →
    ∀ e ∈ s.loop.queue.timers, s.wakeTime timeout ≤ max s.since e.when
  accounts : s.loop.Inv
  fired : ∀ f ∈ s.loop.fired, f.2 ≤ f.1.due + T.lateness

variable {T} {s t : PollLoop κ}

/-- No timer is pending for longer than it may be. -/
theorem Inv.clock_le_of_pending (hs : s.Inv T) {e : EsTime (κ × Int)}
    (he : e ∈ s.loop.queue.timers) : s.loop.clock ≤ e.due + T.lateness := by
  have hsince := (hs.waiting e he).since_le
  have hclock := hs.clock_le
  have hmargin := margin_add_busy_le (T := T) s.place
  omega

theorem Inv.punctual (hs : s.Inv T) : s.Punctual T := by
  refine ⟨fun f hf ↦ ⟨hs.accounts.fired_due f hf, hs.fired f hf⟩, fun e he hlate hkept ↦ ?_⟩
  rcases List.mem_append.1 (hs.accounts.accounted.mem_iff.1 he) with hpending | he
  · exact absurd (hs.clock_le_of_pending hpending) (Int.not_le.2 hlate)
  rcases List.mem_append.1 he with hfired | hcancelled
  · obtain ⟨f, hf, rfl⟩ := List.mem_map.1 hfired
    exact ⟨f.2, hf⟩
  · exact absurd hcancelled hkept

/-- Away from `epoll_wait` there is no timeout to speak of. -/
theorem Inv.of_busy {loop : TimerLoop (κ × Int)} {p : LoopPlace} {since : Int}
    (hp : ∀ timeout, p ≠ .polling timeout) (hnonneg : 0 ≤ since) (hle : since ≤ loop.clock)
    (hbusy : loop.clock ≤ since + T.busy)
    (hwaiting : ∀ e ∈ loop.queue.timers, Waiting T since p e) (haccounts : loop.Inv)
    (hfired : ∀ f ∈ loop.fired, f.2 ≤ f.1.due + T.lateness) :
    Inv T { loop := loop, place := p, since := since } :=
  ⟨hnonneg, hle, hbusy, hwaiting, fun timeout h ↦ absurd h (hp timeout), haccounts, hfired⟩

theorem Inv.run (hs : s.Inv T) (ht : s.step T H .run = some t) : t.Inv T := by
  obtain ⟨hplace, ht⟩ := Option.ite_none_right_eq_some.1 ht
  obtain rfl := Option.some.inj ht
  refine .of_busy (by simp) hs.since_nonneg hs.since_le hs.clock_le (fun e he ↦ ?_)
    hs.accounts hs.fired
  have hwait := hs.waiting e he
  have hsince := hwait.since_le
  rw [hplace] at hsince
  refine ⟨hwait.lt, hwait.due_le, ?_⟩
  simp only [margin] at hsince ⊢
  omega

/-- When the timeout is computed no timer is overdue by more than `T.slack + T.busy`, and then the
timeout does not pass a deadline. -/
theorem Inv.poll {now : Int} (hs : s.Inv T) (ht : s.step T H (.poll now) = some t) : t.Inv T := by
  obtain ⟨⟨hplace, ⟨hclock, -⟩, hbusy⟩, ht⟩ := Option.ite_none_right_eq_some.1 ht
  obtain rfl := Option.some.inj ht
  have hnow : 0 ≤ now := hs.since_nonneg.trans (hs.since_le.trans hclock)
  have hdue : ∀ e ∈ s.loop.queue.timers, now ≤ e.due + (T.slack + T.busy : ℕ) := fun e he ↦ by
    have hwait := (hs.waiting e he).since_le
    rw [hplace, margin] at hwait
    omega
  have hlate : ∀ e ∈ s.loop.queue.timers, now < e.when + 2 ^ 31 * 1000000 := fun e he ↦ by
    have hle := hdue e he
    have hpast := (hs.waiting e he).due_le
    have hadd := T.add_lt
    omega
  refine ⟨hnow, le_refl now, Int.le_add_of_nonneg_right (Int.natCast_nonneg _),
    fun e he ↦ ⟨(hs.waiting e he).lt, (hs.waiting e he).due_le, hdue e he⟩, ?_,
    hs.accounts.clock now, hs.fired⟩
  rintro timeout h e he
  obtain rfl := LoopPlace.polling.inj h
  exact TimerQueue.add_timeout_le hnow (fun e he ↦ (hs.waiting e he).lt) hlate he

theorem polling_of_wake {now : Int} (ht : s.step T H (.wake now) = some t) :
    ∃ timeout, s.place = .polling timeout ∧ s.loop.clock ≤ now ∧
      now ≤ s.wakeTime timeout + T.slack ∧
      t = { loop := { s.loop with clock := now }, place := .handling, since := now } := by
  unfold step at ht
  dsimp only at ht
  split at ht
  · rename_i timeout hplace
    obtain ⟨⟨⟨hclock, -⟩, hslack⟩, ht⟩ := Option.ite_none_right_eq_some.1 ht
    exact ⟨timeout, hplace, hclock, hslack, (Option.some.inj ht).symm⟩
  · exact absurd ht (by simp)

theorem polling_of_interrupted {now : Int} (ht : s.step T H (.interrupted now) = some t) :
    ∃ timeout, s.place = .polling timeout ∧ s.loop.clock ≤ now ∧ 0 < timeout.toInt ∧
      now ≤ s.wakeTime timeout + T.slack ∧
      t = { loop := { s.loop with clock := now }, place := .head, since := now } := by
  unfold step at ht
  dsimp only at ht
  split at ht
  · rename_i timeout hplace
    obtain ⟨⟨⟨hclock, -⟩, hpos, hslack⟩, ht⟩ := Option.ite_none_right_eq_some.1 ht
    exact ⟨timeout, hplace, hclock, hpos, hslack, (Option.some.inj ht).symm⟩
  · exact absurd ht (by simp)

/-- `epoll_wait` comes back at a time after which a pending timer has waited for as long as the new
place allows. -/
theorem Inv.back {now : Int} {p : LoopPlace} (hs : s.Inv T) (hclock : s.loop.clock ≤ now)
    (hp : ∀ timeout, p ≠ .polling timeout)
    (hnow : ∀ e ∈ s.loop.queue.timers, now ≤ e.due + margin T p) :
    Inv T { loop := { s.loop with clock := now }, place := p, since := now } :=
  .of_busy hp (hs.since_nonneg.trans (hs.since_le.trans hclock)) (le_refl now)
    (Int.le_add_of_nonneg_right (Int.natCast_nonneg _))
    (fun e he ↦ ⟨(hs.waiting e he).lt, (hs.waiting e he).due_le, hnow e he⟩)
    (hs.accounts.clock now) hs.fired

theorem Inv.wake {now : Int} (hs : s.Inv T) (ht : s.step T H (.wake now) = some t) : t.Inv T := by
  obtain ⟨timeout, hplace, hclock, hslack, rfl⟩ := polling_of_wake ht
  refine hs.back hclock (by simp) fun e he ↦ ?_
  have hwake := hs.polling timeout hplace e he
  have hsince := (hs.waiting e he).since_le
  have hwhen := e.when_le_due
  rw [hplace] at hsince
  simp only [margin] at hsince ⊢
  omega

/-- Only a call that waits for a deadline is interrupted, so no timer was due when it began. -/
theorem Inv.interrupted {now : Int} (hs : s.Inv T)
    (ht : s.step T H (.interrupted now) = some t) : t.Inv T := by
  obtain ⟨timeout, hplace, hclock, hpos, hslack, rfl⟩ := polling_of_interrupted ht
  refine hs.back hclock (by simp) fun e he ↦ ?_
  have hwake := hs.polling timeout hplace e he
  have hwhen := e.when_le_due
  simp only [margin]
  rw [wakeTime] at hslack hwake
  omega

theorem ne_polling_of_inCode {p : LoopPlace} (h : p.inCode) (timeout : Int32) :
    p ≠ .polling timeout := by
  rintro rfl
  exact Bool.false_ne_true h

theorem Inv.delayCall {now when : Int} {func : κ} (hs : s.Inv T)
    (ht : s.step T H (.delayCall now when func) = some t) : t.Inv T := by
  obtain ⟨⟨hcode, ⟨⟨hclock, -⟩, hbusy⟩, hpast, hlt⟩, ht⟩ := Option.ite_none_right_eq_some.1 ht
  obtain ⟨loop, hcall, rfl⟩ := Option.map_eq_some_iff.1 ht
  obtain rfl := Option.some.inj hcall
  have hsince : s.since ≤ now := hs.since_le.trans hclock
  refine .of_busy (ne_polling_of_inCode hcode) hs.since_nonneg hsince hbusy (fun e he ↦ ?_)
    ((hs.accounts.clock now).step hcall) hs.fired
  rcases List.mem_cons.1 ((TimerQueue.timers_delayCall _ _).mem_iff.1 he) with rfl | he
  · refine ⟨hlt, ?_, ?_⟩
    · show max when now ≤ when + T.past
      omega
    · show s.since ≤ max when now + margin T s.place
      omega
  · exact hs.waiting e he

theorem Inv.cancelDelay {id : Int32} (hs : s.Inv T)
    (ht : s.step T H (.cancelDelay id) = some t) : t.Inv T := by
  obtain ⟨hcode, ht⟩ := Option.ite_none_right_eq_some.1 ht
  obtain ⟨loop, hcall, rfl⟩ := Option.map_eq_some_iff.1 ht
  obtain rfl := Option.some.inj hcall
  exact .of_busy (ne_polling_of_inCode hcode) hs.since_nonneg hs.since_le hs.clock_le
    (fun e he ↦ hs.waiting e (TimerQueue.mem_of_mem_cancelDelay he)) (hs.accounts.step hcall)
    hs.fired

/-- A turn fires a timer that has waited for the time before `epoll_wait`, for `epoll_wait`, and for
the time since; or it ends the loop, and then nothing is due. -/
theorem Inv.turn {now : Int} (hs : s.Inv T) (ht : s.step T H (.turn now) = some t) : t.Inv T := by
  obtain ⟨⟨hplace, ⟨hclock, -⟩, hbusy⟩, ht⟩ := Option.ite_none_right_eq_some.1 ht
  obtain ⟨loop, hturn, rfl⟩ := Option.map_eq_some_iff.1 ht
  have hsince : s.since ≤ now := hs.since_le.trans hclock
  have hmargin : margin T s.place = T.slack + T.busy + T.slack := by
    rcases hplace with h | h <;> rw [h] <;> rfl
  have haccounts := hs.accounts.step hturn
  obtain ⟨-, ⟨e, q, hexp, rfl⟩ | ⟨hexp, rfl⟩⟩ := TimerLoop.turn_cases hturn
  · obtain ⟨hperm, -, -⟩ := TimerQueue.timers_expire hexp
    rw [hexp]
    have hmem : ∀ u ∈ e :: q.timers, Waiting T s.since s.place u := fun u hu ↦
      hs.waiting u (hperm.mem_iff.2 hu)
    refine .of_busy (by simp) hs.since_nonneg hsince hbusy (fun u hu ↦ ?_) haccounts
      (List.forall_mem_cons.2 ⟨?_, hs.fired⟩)
    · have hwait := hmem u (List.mem_cons_of_mem _ hu)
      have hsince := hwait.since_le
      rw [hmargin] at hsince
      exact ⟨hwait.lt, hwait.due_le, hsince⟩
    · have hwait := (hmem e List.mem_cons_self).since_le
      have hlate := margin_add_busy_le (T := T) s.place
      show now ≤ e.due + T.lateness
      omega
  · rw [hexp]
    refine .of_busy (by simp) hs.since_nonneg hsince hbusy (fun u hu ↦ ?_) haccounts hs.fired
    have hwait := hs.waiting u hu
    have hlt := TimerQueue.lt_when_of_expire_eq_none hexp hu
    have hwhen := u.when_le_due
    refine ⟨hwait.lt, hwait.due_le, ?_⟩
    show s.since ≤ u.due + T.slack
    omega

theorem Inv.step {a : PollAction κ} (hs : s.Inv T) (ht : s.step T H a = some t) : t.Inv T := by
  cases a with
  | run => exact hs.run ht
  | poll now => exact hs.poll ht
  | wake now => exact hs.wake ht
  | interrupted now => exact hs.interrupted ht
  | delayCall now when func => exact hs.delayCall ht
  | cancelDelay id => exact hs.cancelDelay ht
  | turn now => exact hs.turn ht

theorem inv_init (start : ℕ) : (machine T H start).init.Inv T :=
  .of_busy (by simp) (Int.natCast_nonneg _) (le_refl _)
    (Int.le_add_of_nonneg_right (Int.natCast_nonneg _)) (fun _ he ↦ absurd he List.not_mem_nil)
    ⟨.nil, fun _ hf ↦ absurd hf List.not_mem_nil⟩ fun _ hf ↦ absurd hf List.not_mem_nil

end PollLoop

/-- **Timers are punctual**: in every run, with any timers, handlers, callbacks and signals, no
callback is called before its deadline or more than `T.lateness` after it is due, and each timer
that is not cancelled is called by then. -/
theorem timers_punctual {κ : Type*} (T : Latency) (H : TimerHeap (κ × Int)) (start : ℕ)
    (as : List (PollAction κ)) :
    (PollLoop.machine T H start).Throughout (PollLoop.Punctual T) as := by
  have hinv : (PollLoop.machine T H start).Throughout (PollLoop.Inv T) as :=
    Machine.throughout_of_invariant (PollLoop.inv_init start) (fun _ _ _ ht hs ↦ hs.step ht) as
  exact hinv.mono fun _ hs ↦ hs.punctual

namespace PollLoop

variable {κ : Type*} {T : Latency} {H : TimerHeap (κ × Int)}

/-! ### A timer that is as late as it can be -/

section Latest

variable (T H) (start : ℕ) (func : κ)

/-- The timer of a millisecond. -/
def milliTimer : EsTime (κ × Int) := ⟨1, start + 1000000, (func, start)⟩

/-- The queue with this timer. -/
def oneDelay : TimerQueue (κ × Int) :=
  (TimerQueue.empty.delayCall H (start + 1000000) (func, (start : Int))).1

/-- The loop at the time `now`, before the timer is fired. -/
def oneWaiting (p : LoopPlace) (now : Int) : PollLoop κ where
  loop :=
    { queue := oneDelay H start func
      clock := now
      scheduled := [milliTimer start func] }
  place := p
  since := now

/-- A signal comes at the deadline, the loop is kept from `epoll_wait` for as long as it can be, and
so is the callback afterwards. -/
def latest : List (PollAction κ) :=
  let due : Int := start + 1000000
  [.delayCall start due func, .run, .poll start, .interrupted (due + T.slack),
    .poll (due + T.slack + T.busy), .wake (due + T.slack + T.busy + T.slack),
    .turn (due + T.slack + T.busy + T.slack + T.busy)]

variable {T H start func}

theorem timers_oneDelay : (oneDelay H start func).timers = [milliTimer start func] :=
  List.perm_singleton.1 (TimerQueue.timers_delayCall (H := H) (q := .empty) _ _)

theorem mem_oneDelay : milliTimer start func ∈ (oneDelay H start func).timers := by
  rw [timers_oneDelay]
  exact List.mem_singleton_self _

theorem timeout_oneDelay_start : ((oneDelay H start func).timeout start).toInt = 1 := by
  have hleft : (TimerQueue.left (start + 1000000) start).toInt = 1 := by
    rw [TimerQueue.toInt_left (by omega) (by omega), TimerQueue.millisUntil, add_sub_cancel_left]
    decide
  rw [TimerQueue.timeout, timers_oneDelay, TimerQueue.toInt_clamp]
  show min 100 (max 0 (TimerQueue.left (start + 1000000) start).toInt) = 1
  rw [hleft]
  rfl

theorem timeout_oneDelay_due {now : Int} (hnow : (start : Int) + 1000000 ≤ now)
    (hlate : now < start + 1000000 + 2 ^ 31 * 1000000) (hlt : (start : Int) + 1000000 < 2 ^ 63) :
    ((oneDelay H start func).timeout now).toInt = 0 := by
  have hone : ∀ e ∈ (oneDelay H start func).timers, e.when = start + 1000000 := by
    rw [timers_oneDelay]
    rintro e he
    rw [List.mem_singleton.1 he]
    rfl
  have hnonneg : 0 ≤ now := by omega
  have hle := TimerQueue.add_timeout_le hnonneg (fun e he ↦ by rw [hone e he]; exact hlt)
    (fun e he ↦ by rw [hone e he]; exact hlate) mem_oneDelay
  have htimeout := (oneDelay H start func).zero_le_timeout now
  rw [hone _ mem_oneDelay] at hle
  omega

theorem step_poll {t now : Int} (hle : t ≤ now) (hbusy : now ≤ t + T.busy) (hlt : now < 2 ^ 63) :
    step T H (oneWaiting H start func .head t) (.poll now) =
      some (oneWaiting H start func (.polling ((oneDelay H start func).timeout now)) now) :=
  if_pos ⟨rfl, ⟨hle, hlt⟩, hbusy⟩

theorem step_interrupted {timeout : Int32} {t now : Int} (hle : t ≤ now) (hlt : now < 2 ^ 63)
    (hpos : 0 < timeout.toInt) (hslack : now ≤ t + timeout.toInt * 1000000 + T.slack) :
    step T H (oneWaiting H start func (.polling timeout) t) (.interrupted now) =
      some (oneWaiting H start func .head now) :=
  if_pos ⟨⟨hle, hlt⟩, hpos, hslack⟩

theorem step_wake {timeout : Int32} {t now : Int} (hle : t ≤ now) (hlt : now < 2 ^ 63)
    (hslack : now ≤ t + timeout.toInt * 1000000 + T.slack) :
    step T H (oneWaiting H start func (.polling timeout) t) (.wake now) =
      some (oneWaiting H start func .handling now) :=
  if_pos ⟨⟨hle, hlt⟩, hslack⟩

/-- The turn of the expiry loop that fires the timer. -/
theorem step_turn {t now : Int} (hle : t ≤ now) (hbusy : now ≤ t + T.busy) (hlt : now < 2 ^ 63)
    (hdue : (start : Int) + 1000000 ≤ now) :
    ∃ s, step T H (oneWaiting H start func .handling t) (.turn now) = some s ∧
      s.loop.fired = [(milliTimer start func, now)] := by
  rcases hexp : (oneDelay H start func).expire H now with - | ⟨e, q⟩
  · exact absurd (TimerQueue.lt_when_of_expire_eq_none hexp mem_oneDelay) (Int.not_lt.2 hdue)
  · have he : e ∈ (oneDelay H start func).timers :=
      (TimerQueue.timers_expire hexp).1.mem_iff.2 List.mem_cons_self
    rw [timers_oneDelay, List.mem_singleton] at he
    have hturn : (oneWaiting H start func .handling t).loop.step H (.turn now) =
        some { (oneWaiting H start func .handling t).loop with
          queue := q, clock := now, fired := [(e, now)] } := by
      have hqueue : (oneWaiting H start func .handling t).loop.queue = oneDelay H start func := rfl
      rw [TimerLoop.step, hqueue, hexp]
      exact if_pos hle
    have hreads : ((oneWaiting H start func .handling t).place = .handling ∨
        (oneWaiting H start func .handling t).place = .expiring) ∧
          (oneWaiting H start func .handling t).ReadsBusy T now := ⟨.inl rfl, ⟨hle, hlt⟩, hbusy⟩
    refine ⟨_, (if_pos hreads).trans (congrArg _ hturn), ?_⟩
    rw [he]

end Latest

end PollLoop

open PollLoop

/-- **The bound is exact**: for all delays of the loop and of `epoll_wait` there is a run in which a
callback is called `T.lateness` after its deadline. -/
theorem lateness_reached {κ : Type*} (T : Latency) (H : TimerHeap (κ × Int)) (func : κ) (start : ℕ)
    (h : start + 1000000 + T.lateness < 2 ^ 63) :
    ∃ s, (PollLoop.machine T H start).run (latest T start func) = some s ∧
      ∃ f ∈ s.loop.fired, f.1.due = f.1.when ∧ f.2 = f.1.when + T.lateness := by
  have hlate : (T.lateness : Int) = 2 * (T.busy + T.slack) := by
    rw [Latency.lateness]
    omega
  have hadd := T.add_lt
  have hdelay : step T H (PollLoop.machine T H start).init
      (.delayCall start (start + 1000000) func) =
        some (oneWaiting H start func .starting start) :=
    if_pos ⟨rfl, ⟨⟨le_refl _, by omega⟩, Int.le_add_of_nonneg_right (Int.natCast_nonneg _)⟩,
      by omega, by omega⟩
  have hrun : step T H (oneWaiting H start func .starting start) .run =
      some (oneWaiting H start func .head start) := rfl
  obtain ⟨s, hturn, hfired⟩ : ∃ s, step T H (oneWaiting H start func .handling
      (start + 1000000 + T.slack + T.busy + T.slack))
      (.turn (start + 1000000 + T.slack + T.busy + T.slack + T.busy)) = some s ∧
        s.loop.fired = [(milliTimer start func,
          (start + 1000000 + T.slack + T.busy + T.slack + T.busy : Int))] :=
    step_turn (by omega) (le_refl _) (by omega) (by omega)
  have hone : ((oneDelay H start func).timeout start).toInt = 1 := timeout_oneDelay_start
  have hzero : ((oneDelay H start func).timeout (start + 1000000 + T.slack + T.busy)).toInt = 0 :=
    timeout_oneDelay_due (by omega) (by omega) (by omega)
  refine ⟨s, ?_, _, hfired ▸ List.mem_singleton_self _, ?_, ?_⟩
  · refine (Machine.runFrom_cons_of_step hdelay).trans ?_
    refine (Machine.runFrom_cons_of_step hrun).trans ?_
    refine (Machine.runFrom_cons_of_step (step_poll (le_refl _) (by omega) (by omega))).trans ?_
    refine (Machine.runFrom_cons_of_step
      (step_interrupted (by omega) (by omega) (by omega) (by omega))).trans ?_
    -- now the timer is due, and `epoll_wait` is called with the timeout 0
    refine (Machine.runFrom_cons_of_step (step_poll (by omega) (le_refl _) (by omega))).trans ?_
    refine (Machine.runFrom_cons_of_step (step_wake (by omega) (by omega) (by omega))).trans ?_
    exact Machine.runFrom_cons_of_step hturn
  · exact max_eq_left (show (start : Int) ≤ start + 1000000 by omega)
  · show (start + 1000000 + T.slack + T.busy + T.slack + T.busy : Int) =
      start + 1000000 + T.lateness
    omega

/-- A loop that is kept for 20 milliseconds, and 5 milliseconds of `epoll_wait`. -/
def smallLatency : Latency where
  busy := 20000000
  slack := 5000000
  add_lt := by decide

theorem lateness_reached_smallLatency :
    ∃ s, (PollLoop.machine smallLatency (HeapOps.sorting EsTime.when) 0).run
        (PollLoop.latest smallLatency 0 'a') = some s ∧
      ∃ f ∈ s.loop.fired, f.1.due = f.1.when ∧ f.2 = f.1.when + (50000000 : ℕ) :=
  lateness_reached smallLatency (HeapOps.sorting EsTime.when) 'a' 0 (by decide)

end Nsio
