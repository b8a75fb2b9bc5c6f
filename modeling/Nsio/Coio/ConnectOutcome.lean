import Nsio.Coio.TimedAwaiter

/-!
# What `connect` reports about the connection

One coroutine awaits `co2::connect` with a positive timeout. Beside the loop this model has the
kernel's side of the connection: when the attempt was **settled**, that is, established or failed,
and whether an established connection was broken again. The attempt is settled by a reply of
`::connect` in the constructor or later, at any time. The events the loop can deliver are those the
kernel has a reason for: a write event once the attempt is settled, with `SO_ERROR` 0 only when it
is established, and an error event when it has failed or was broken.

The coroutine is told 0 or a negative result, and whether there was a timeout. `Timely` is what has
to be so when an event or the timer is handled for this to be the truth at the deadline, and it is
necessary (`connect_reports_iff`). It excludes two kinds of runs. In one the loop is late: the
attempt settles before the deadline and the timer is handled first, or the other way round. In the
other the constructor has learned the outcome from `::connect` itself and has not waited for the
descriptor, so that only the timer is left to resume the coroutine. In terms of the answers of
`::connect` and the order of what happens: `reports_of_inOrder` has a condition that is enough, and
`timeout_of_not_inProgress` says what becomes of the other answers.

Events and the timer are modelled until the coroutine is resumed: the awaiter is a temporary of the
`co_await`.
-/

namespace Nsio

/-- What `::connect` answers in the constructor. -/
inductive ConnectAnswer
  | established
  | eintr
  | inProgress
  /-- `EALREADY`: the attempt of an interrupted call is still in progress. -/
  | already
  /-- `EISCONN`: the attempt of an interrupted call has succeeded. -/
  | isConnected
  | failed
  deriving DecidableEq, Repr

/-- What the constructor makes of an answer: it knows `EINTR` and `EINPROGRESS`. -/
def ConnectAnswer.reply : ConnectAnswer → ConnectReply
  | .established => .established
  | .eintr => .eintr
  | .inProgress => .inProgress
  | .already | .isConnected | .failed => .failed

/-- How an attempt can end. -/
inductive Settlement
  | established
  | failed
  deriving DecidableEq, Repr

/-- What the answers of `::connect` say about the attempt. -/
def settlement : List ConnectAnswer → Option Settlement
  | [] => none
  | .eintr :: answers => settlement answers
  | .established :: _ | .isConnected :: _ => some .established
  | .failed :: _ => some .failed
  | .inProgress :: _ | .already :: _ => none

/-- An attempt that is in progress is not settled. -/
theorem settlement_of_connectWaits {answers : List ConnectAnswer}
    (h : connectWaits (answers.map ConnectAnswer.reply) = some true) :
    settlement answers = none := by
  induction answers with
  | nil => rfl
  | cons answer answers ih =>
    cases answer with
    | eintr => exact ih h
    | inProgress => rfl
    | established | already | isConnected | failed =>
      exact absurd h (by simp [connectWaits, ConnectAnswer.reply])

/-- The loop and the connection. -/
structure ConnectRun where
  loop : Runtime := {}
  clock : Int := 0
  /-- The deadline of the awaiter. -/
  deadline : Int := 0
  /-- When and how the attempt was settled. -/
  settled : Option (Int × Settlement) := none
  /-- An established connection was broken. -/
  broken : Bool := false

/-- What can happen. -/
inductive ConnectAction
  /-- The coroutine constructs the awaiter, `::connect` gives these answers, and it awaits it. -/
  | start (answers : List ConnectAnswer) (timeout : Int)
  | tick (n : ℕ)
  /-- The kernel settles the attempt. -/
  | settle (r : Settlement)
  | breaks
  /-- The loop delivers a write event, and the handler reads `e` as `SO_ERROR`. -/
  | writeEvent (e : ℕ)
  /-- The loop delivers an error event, for which it read `e` as `SO_ERROR`. -/
  | errorEvent (e : ℕ)
  /-- The loop handles the timer. -/
  | expire
  deriving DecidableEq, Repr

namespace ConnectRun

/-- The kernel reports the descriptor as writable, and then has `e` for `SO_ERROR`. -/
def Writable (s : ConnectRun) (e : ℕ) : Prop :=
  match s.settled with
  | some (_, .established) => e = 0 ∨ s.broken = true
  | some (_, .failed) => e ≠ 0
  | none => False

/-- The kernel reports an error. -/
def HasError (s : ConnectRun) : Prop :=
  match s.settled with
  | some (_, .established) => s.broken = true
  | some (_, .failed) => True
  | none => False

instance (s : ConnectRun) (e : ℕ) : Decidable (s.Writable e) := by
  unfold Writable
  split <;> infer_instance

instance (s : ConnectRun) : Decidable s.HasError := by
  unfold HasError
  split <;> infer_instance

section Machine

variable (H : TimerHeap ℕ) (a c sockfd : ℕ)

/-- One step: the awaiter is at `a`, the coroutine is `c`. -/
def step (s : ConnectRun) : ConnectAction → Option ConnectRun
  | .start answers timeout =>
    if 0 < timeout then
      ((s.loop.step H (.construct a
        (.connect sockfd (some (s.clock + timeout)) (answers.map ConnectAnswer.reply)))).bind
          fun loop ↦ loop.step H (.await c a)).map fun loop ↦
        { s with
          loop := loop
          deadline := s.clock + timeout
          settled := (settlement answers).map fun r ↦ (s.clock, r) }
    else none
  | .tick n => some { s with clock := s.clock + n }
  | .settle r =>
    if (s.loop.awaiters a).isSome ∧ s.settled = none then
      some { s with settled := some (s.clock, r) }
    else none
  | .breaks =>
    if s.settled.map Prod.snd = some .established then some { s with broken := true } else none
  -- the handler asks `SO_ERROR`, and the kernel answers `e`
  | .writeEvent e =>
    if s.loop.suspended c = some a ∧ s.Writable e then
      (s.loop.step H (.dispatch sockfd .write none (.soError e))).map fun loop ↦
        { s with loop := loop }
    else none
  -- the handler is passed the error the loop has read, and does not ask for another
  | .errorEvent e =>
    if s.loop.suspended c = some a ∧ s.HasError then
      (s.loop.step H (.dispatch sockfd .write (some e) (.finished none))).map fun loop ↦
        { s with loop := loop }
    else none
  | .expire =>
    if s.loop.suspended c = some a then
      (s.loop.step H (.expire s.clock)).map fun loop ↦ { s with loop := loop }
    else none

/-- The runs of a fresh loop. -/
def machine : Machine ConnectRun ConnectAction where
  init := {}
  step := step H a c sockfd

end Machine

/-! ### The truth at the deadline -/

/-- The attempt was settled before the deadline. -/
def SettledInTime (s : ConnectRun) : Prop := ∃ t r, s.settled = some (t, r) ∧ t < s.deadline

/-- The connection was established before the deadline. -/
def EstablishedInTime (s : ConnectRun) : Prop :=
  ∃ t, s.settled = some (t, .established) ∧ t < s.deadline

/-- **What the coroutine is told is true**: 0 exactly when the connection was established before the
deadline, something negative otherwise, and a timeout only when the attempt was not settled. -/
def Reports (a : ℕ) (s : ConnectRun) : Prop :=
  ∀ w, s.loop.awaiters a = some w → w.resumed ≠ [] →
    (w.result = 0 ↔ s.EstablishedInTime) ∧ (¬ s.EstablishedInTime → w.result < 0) ∧
      (w.isTimeout = true → ¬ s.SettledInTime)

/-- **What an event has to find.** Success is handled for a connection that was established in time,
failure for one that was not, and the timer for an attempt that was not settled in time. -/
def Timely (s : ConnectRun) : ConnectAction → Prop
  | .writeEvent e => e = 0 ↔ s.EstablishedInTime
  | .errorEvent _ => ¬ s.EstablishedInTime
  | .expire => ¬ s.SettledInTime
  | _ => True

theorem EstablishedInTime.settledInTime {s : ConnectRun} (h : s.EstablishedInTime) :
    s.SettledInTime := by
  obtain ⟨t, ht, hlt⟩ := h
  exact ⟨t, .established, ht, hlt⟩

/-! ### The awaiter until it is resumed -/

/-- A connect awaiter on which `c` waits. -/
structure Fresh (c : ℕ) (w : Awaiter) : Prop where
  kind : w.kind = .connect
  result : w.result = -1
  isTimeout : w.isTimeout = false
  handle : w.handle = some c
  resumed : w.resumed = []

/-- The loop while the coroutine is suspended: nothing but the awaiter is registered. -/
structure Waiting (a c : ℕ) (deadline : Int) (loop : Runtime) (w : Awaiter) : Prop where
  awaiter : loop.awaiters a = some w
  fresh : Fresh c w
  slots : ∀ i d x, (loop.fds.entry i).func d = some x → x = a
  timers : ∀ t ∈ loop.timers.timers, t.func = a ∧ t.when = deadline

/-- The invariant of every run. Once the coroutine is resumed, an attempt that is not settled will
not be settled in time. -/
structure Inv (a c : ℕ) (s : ConnectRun) : Prop where
  untouched : s.loop.awaiters a = none → s.loop = {}
  waiting : s.loop.suspended c = some a → ∃ w, Waiting a c s.deadline s.loop w
  late : ∀ w, s.loop.awaiters a = some w → w.resumed ≠ [] → s.settled = none →
    s.deadline ≤ s.clock

variable {H : TimerHeap ℕ} {a c sockfd : ℕ} {s t : ConnectRun}

/-- The awaiter that the base constructor leaves on a fresh loop. -/
def timedAwaiter (H : TimerHeap ℕ) (a sockfd : ℕ) (when : Int) : Awaiter where
  kind := .connect
  sockfd := sockfd
  timerId := (TimerQueue.empty.delayCall H when a).2
  timed := true

/-- `co_await` on an awaiter that is the only one registered. -/
theorem waiting_await (H : TimerHeap ℕ) (sockfd : ℕ) {when : Int} {r loop : Runtime}
    (hawaiter : r.awaiters a = some (timedAwaiter H a sockfd when))
    (htimers : r.timers = (TimerQueue.empty.delayCall H when a).1)
    (hslots : ∀ i d x, (r.fds.entry i).func d = some x → x = a)
    (hloop : r.await c a = some loop) : ∃ w, Waiting a c when loop w := by
  obtain ⟨w, hw, -, -, rfl⟩ := Runtime.await_cases hloop
  obtain rfl := Option.some.inj (hawaiter.symm.trans hw)
  refine ⟨_, Function.update_self .., ⟨rfl, rfl, rfl, rfl, rfl⟩, hslots, fun t ht ↦ ?_⟩
  have hmem : t ∈ r.timers.timers := ht
  rw [htimers, (TimerQueue.timers_delayCall when a).mem_iff] at hmem
  rw [List.mem_singleton.1 hmem]
  exact ⟨rfl, rfl⟩

/-- The constructor and `co_await` on a fresh loop. -/
theorem waiting_start {replies : List ConnectReply} {when : Int} {r loop : Runtime}
    (hr : ({} : Runtime).construct H a (.connect sockfd (some when) replies) = some r)
    (hloop : r.await c a = some loop) : ∃ w, Waiting a c when loop w := by
  have hempty : ∀ i (d : Direction) x, (({} : FdTable ℕ).entry i).func d ≠ some x :=
    fun i d x ↦ by simp [FdTable.func_entry_empty]
  obtain ⟨waits, -, rfl⟩ := Option.map_eq_some_iff.1 hr
  cases waits with
  | false =>
    refine waiting_await H sockfd (Function.update_self ..) rfl ?_ hloop
    exact fun i d x h ↦ absurd h (hempty i d x)
  | true =>
    refine waiting_await H sockfd (Function.update_self ..) rfl ?_ hloop
    intro i d x h
    rcases FdTable.func_waitFd (d := .write) h with hold | ⟨hx, -⟩
    · exact absurd hold (hempty i d x)
    · exact hx

/-- A start runs on a fresh loop. -/
theorem start_cases {answers : List ConnectAnswer} {timeout : Int} (hs : s.Inv a c)
    (h : step H a c sockfd s (.start answers timeout) = some t) :
    ∃ r, ({} : Runtime).construct H a (.connect sockfd (some (s.clock + timeout))
        (answers.map ConnectAnswer.reply)) = some r ∧ r.await c a = some t.loop ∧
      t.deadline = s.clock + timeout := by
  obtain ⟨-, h⟩ := Option.ite_none_right_eq_some.1 h
  obtain ⟨loop, hloop, rfl⟩ := Option.map_eq_some_iff.1 h
  obtain ⟨r, hr, hawait⟩ := Option.bind_eq_some_iff.1 hloop
  rw [Runtime.step] at hr
  obtain ⟨hfree, hr⟩ := Option.ite_none_right_eq_some.1 hr
  rw [hs.untouched hfree] at hr
  exact ⟨r, hr, hawait, rfl⟩

/-- The constructor needs a place for the awaiter, and settles what the answers say. -/
theorem start_frame {answers : List ConnectAnswer} {timeout : Int}
    (h : step H a c sockfd s (.start answers timeout) = some t) :
    s.loop.awaiters a = none ∧ t.settled = (settlement answers).map (fun r ↦ (s.clock, r)) ∧
      t.broken = s.broken := by
  obtain ⟨-, h⟩ := Option.ite_none_right_eq_some.1 h
  obtain ⟨loop, hloop, rfl⟩ := Option.map_eq_some_iff.1 h
  obtain ⟨r, hr, -⟩ := Option.bind_eq_some_iff.1 hloop
  rw [Runtime.step] at hr
  exact ⟨(Option.ite_none_right_eq_some.1 hr).1, rfl, rfl⟩

/-- The fields of the awaiter when its handler resumes the coroutine. -/
def afterEvent (w : Awaiter) : ConnectAction → Awaiter
  | .writeEvent e => { w with result := if (e : Int) = 0 then 0 else w.result }
  | .expire => w.onTimeEvent
  | _ => w

/-- An event or the timer resumes the coroutine. -/
structure Resumes (a c : ℕ) (s : ConnectRun) (act : ConnectAction) (t : ConnectRun) : Prop where
  resumed : ∃ (w : Awaiter) (loop : Runtime), Fresh c w ∧
    t = { s with loop := loop.resume a (afterEvent w act) }
  late : s.settled = none → s.deadline ≤ s.clock

/-- `connect::on_file_event` for a write event. -/
theorem onFileEvent_write {loop : Runtime} {w : Awaiter} (hkind : w.kind = .connect) (fd : ℕ)
    (e : Int) :
    loop.onFileEvent a w fd .write (eventCode .write none) (.soError e) =
      some (loop.resume a { w with result := if e = 0 then 0 else w.result }) := by
  cases w
  cases hkind
  rfl

/-- `connect::on_file_event` for an error event. -/
theorem onFileEvent_error {loop : Runtime} {w : Awaiter} (hkind : w.kind = .connect) (fd e : ℕ)
    (outcome : HandlerOutcome) :
    loop.onFileEvent a w fd .write (eventCode .write (some e)) outcome =
      some ({ loop with fds := loop.fds.cancelWrite w.sockfd true }.resume a w) := by
  have hcode : eventCode .write (some e) ≤ 0 := by
    show -(e : Int) ≤ 0
    omega
  cases w
  cases hkind
  exact if_pos hcode

/-- The loop delivers an event to the awaiter. -/
theorem Waiting.onFileEvent {deadline : Int} {loop r : Runtime} {w : Awaiter} {err : Option ℕ}
    {outcome : HandlerOutcome} (hw : Waiting a c deadline loop w)
    (h : loop.dispatch sockfd .write err outcome = some r) :
    (loop.setSlot sockfd .write none).onFileEvent a w sockfd .write (eventCode .write err) outcome =
      some r := by
  obtain ⟨x, w', hx, hw', -, hev⟩ := Runtime.dispatch_cases h
  obtain rfl := hw.slots _ _ _ hx
  obtain rfl := Option.some.inj (hw.awaiter.symm.trans hw')
  exact hev

theorem resumes_writeEvent {e : ℕ} (hs : s.Inv a c)
    (h : step H a c sockfd s (.writeEvent e) = some t) : Resumes a c s (.writeEvent e) t := by
  obtain ⟨⟨hsusp, hwrite⟩, h⟩ := Option.ite_none_right_eq_some.1 h
  obtain ⟨loop, hloop, rfl⟩ := Option.map_eq_some_iff.1 h
  obtain ⟨w, hw⟩ := hs.waiting hsusp
  have hev := hw.onFileEvent hloop
  rw [onFileEvent_write hw.fresh.kind] at hev
  obtain rfl := Option.some.inj hev
  refine ⟨⟨w, _, hw.fresh, rfl⟩, fun hnone ↦ ?_⟩
  rw [Writable, hnone] at hwrite
  exact hwrite.elim

theorem resumes_errorEvent {e : ℕ} (hs : s.Inv a c)
    (h : step H a c sockfd s (.errorEvent e) = some t) : Resumes a c s (.errorEvent e) t := by
  obtain ⟨⟨hsusp, herror⟩, h⟩ := Option.ite_none_right_eq_some.1 h
  obtain ⟨loop, hloop, rfl⟩ := Option.map_eq_some_iff.1 h
  obtain ⟨w, hw⟩ := hs.waiting hsusp
  have hev := hw.onFileEvent hloop
  rw [onFileEvent_error hw.fresh.kind] at hev
  obtain rfl := Option.some.inj hev
  refine ⟨⟨w, _, hw.fresh, rfl⟩, fun hnone ↦ ?_⟩
  rw [HasError, hnone] at herror
  exact herror.elim

theorem resumes_expire (hs : s.Inv a c) (h : step H a c sockfd s .expire = some t) :
    Resumes a c s .expire t := by
  obtain ⟨hsusp, h⟩ := Option.ite_none_right_eq_some.1 h
  obtain ⟨loop, hloop, rfl⟩ := Option.map_eq_some_iff.1 h
  obtain ⟨w, hw⟩ := hs.waiting hsusp
  obtain ⟨due, timers, hdue, hcases⟩ := Runtime.expire_cases hloop
  obtain ⟨hperm, hnow, -⟩ := TimerQueue.timers_expire hdue
  obtain ⟨hfunc, hwhen⟩ := hw.timers due (hperm.mem_iff.2 List.mem_cons_self)
  rw [hfunc, hw.awaiter] at hcases
  rcases hcases with ⟨hnone, -⟩ | ⟨w', hw', rfl⟩
  · exact absurd hnone (by simp)
  · obtain rfl := Option.some.inj hw'
    exact ⟨⟨w, _, hw.fresh, rfl⟩, fun _ ↦ hwhen ▸ hnow⟩

/-! ### One step -/

theorem handle_afterEvent {w : Awaiter} {act : ConnectAction} (hw : Fresh c w) :
    (afterEvent w act).handle = some c := by
  have hkind := hw.kind
  cases act <;> first | exact hw.handle | skip
  rw [afterEvent, Awaiter.onTimeEvent, hkind]
  exact hw.handle

/-- The awaiter after the resumption. -/
theorem Resumes.awaiter {act : ConnectAction} (h : Resumes a c s act t) :
    ∃ w resumed, Fresh c w ∧ t = { s with loop := t.loop } ∧ t.loop.suspended c = none ∧
      t.loop.awaiters a = some { afterEvent w act with resumed := resumed } ∧ resumed ≠ [] := by
  obtain ⟨w, loop, hw, rfl⟩ := h.resumed
  refine ⟨w, _, hw, rfl, ?_, Function.update_self .., by simp⟩
  rw [Runtime.suspended_resume (handle_afterEvent hw)]
  exact Function.update_self ..

theorem Resumes.inv {act : ConnectAction} (h : Resumes a c s act t) : t.Inv a c := by
  obtain ⟨w, resumed, -, ht, hsusp, hawaiter, -⟩ := h.awaiter
  refine ⟨fun hnone ↦ ?_, fun hsome ↦ ?_, fun _ _ _ hnone ↦ ?_⟩
  · exact absurd (hawaiter.symm.trans hnone) (by simp)
  · exact absurd (hsusp.symm.trans hsome) (by simp)
  · rw [ht] at hnone ⊢
    exact h.late hnone

/-- What the coroutine is told is true exactly when these fields are. -/
theorem Resumes.reports_iff {act : ConnectAction} (h : Resumes a c s act t) :
    ∃ w, Fresh c w ∧ (t.Reports a ↔
      ((afterEvent w act).result = 0 ↔ s.EstablishedInTime) ∧
        (¬ s.EstablishedInTime → (afterEvent w act).result < 0) ∧
        ((afterEvent w act).isTimeout = true → ¬ s.SettledInTime)) := by
  obtain ⟨w, resumed, hw, ht, -, hawaiter, hne⟩ := h.awaiter
  have hestablished : t.EstablishedInTime ↔ s.EstablishedInTime := by rw [ht]; rfl
  have hsettled : t.SettledInTime ↔ s.SettledInTime := by rw [ht]; rfl
  refine ⟨w, hw, fun hrep ↦ ?_, fun hrep w' hw' _ ↦ ?_⟩
  · have := hrep _ hawaiter hne
    rwa [hestablished, hsettled] at this
  · obtain rfl := Option.some.inj (hawaiter.symm.trans hw')
    rw [hestablished, hsettled]
    exact hrep

theorem inv_init : Inv a c {} where
  untouched := fun _ ↦ rfl
  waiting := fun h ↦ absurd h (by simp)
  late := fun w h ↦ absurd h (by simp)

/-- **The invariant holds in every run.** -/
theorem inv_step {act : ConnectAction} (h : step H a c sockfd s act = some t) (hs : s.Inv a c) :
    t.Inv a c := by
  cases act with
  | start answers timeout =>
    obtain ⟨r, hr, hawait, hdeadline⟩ := start_cases hs h
    obtain ⟨w, hw⟩ := waiting_start hr hawait
    refine ⟨fun hnone ↦ absurd (hw.awaiter.symm.trans hnone) (by simp),
      fun _ ↦ ⟨w, hdeadline ▸ hw⟩, fun w' hw' hne ↦ ?_⟩
    obtain rfl := Option.some.inj (hw.awaiter.symm.trans hw')
    exact absurd hw.fresh.resumed hne
  | tick n =>
    obtain rfl := Option.some.inj h
    refine ⟨hs.untouched, hs.waiting, fun w hw hne hnone ↦ ?_⟩
    have hlate := hs.late w hw hne hnone
    show s.deadline ≤ s.clock + n
    omega
  | settle r =>
    obtain ⟨-, ⟨⟩⟩ := Option.ite_none_right_eq_some.1 h
    exact ⟨hs.untouched, hs.waiting, fun _ _ _ hnone ↦ absurd hnone (by simp)⟩
  | breaks =>
    obtain ⟨-, ⟨⟩⟩ := Option.ite_none_right_eq_some.1 h
    exact ⟨hs.untouched, hs.waiting, hs.late⟩
  | writeEvent e => exact (resumes_writeEvent hs h).inv
  | errorEvent e => exact (resumes_errorEvent hs h).inv
  | expire => exact (resumes_expire hs h).inv

/-- What is settled after the coroutine was resumed is settled too late to make a report false. -/
theorem Reports.settle {r : Settlement} (hrep : s.Reports a) (hs : s.Inv a c)
    (hnone : s.settled = none) : Reports a { s with settled := some (s.clock, r) } := by
  intro w hw hne
  have hlate := hs.late w hw hne hnone
  have hsettled : ¬ SettledInTime { s with settled := some (s.clock, r) } := by
    rintro ⟨u, r', hu, hlt⟩
    obtain ⟨rfl, -⟩ := Prod.mk.inj (Option.some.inj hu)
    exact absurd hlt (by dsimp only; omega)
  have hbefore : ¬ s.EstablishedInTime := by
    rintro ⟨u, hu, -⟩
    exact absurd (hnone.symm.trans hu) (by simp)
  obtain ⟨hzero, hneg, -⟩ := hrep w hw hne
  refine ⟨⟨fun h0 ↦ absurd (hzero.1 h0) hbefore, fun he ↦ ?_⟩, fun _ ↦ hneg hbefore,
    fun _ ↦ hsettled⟩
  exact absurd he.settledInTime hsettled

/-- **A step keeps the reports true exactly when it is timely.** -/
theorem reports_step {act : ConnectAction} (h : step H a c sockfd s act = some t) (hs : s.Inv a c)
    (hrep : s.Reports a) : t.Reports a ↔ s.Timely act := by
  cases act with
  | start answers timeout =>
    obtain ⟨r, hr, hawait, -⟩ := start_cases hs h
    obtain ⟨w, hw⟩ := waiting_start hr hawait
    refine ⟨fun _ ↦ trivial, fun _ w' hw' hne ↦ ?_⟩
    obtain rfl := Option.some.inj (hw.awaiter.symm.trans hw')
    exact absurd hw.fresh.resumed hne
  | tick n =>
    obtain rfl := Option.some.inj h
    exact ⟨fun _ ↦ trivial, fun _ ↦ hrep⟩
  | settle r =>
    obtain ⟨⟨-, hnone⟩, ⟨⟩⟩ := Option.ite_none_right_eq_some.1 h
    exact ⟨fun _ ↦ trivial, fun _ ↦ hrep.settle hs hnone⟩
  | breaks =>
    obtain ⟨-, ⟨⟩⟩ := Option.ite_none_right_eq_some.1 h
    exact ⟨fun _ ↦ trivial, fun _ ↦ hrep⟩
  | writeEvent e =>
    obtain ⟨w, hw, hiff⟩ := (resumes_writeEvent hs h).reports_iff
    rw [hiff]
    -- `_result` is 0 exactly when `SO_ERROR` is, and nothing has set `_is_timeout`
    show ((if (e : Int) = 0 then 0 else w.result) = 0 ↔ _) ∧ (_ → (if (e : Int) = 0 then 0 else
      w.result) < 0) ∧ (w.isTimeout = true → _) ↔ (e = 0 ↔ s.EstablishedInTime)
    rw [hw.result, hw.isTimeout]
    by_cases he : e = 0
    · simp [he]
    · simp [he]
  | errorEvent e =>
    obtain ⟨w, hw, hiff⟩ := (resumes_errorEvent hs h).reports_iff
    rw [hiff]
    -- `_result` keeps the -1 of the constructor
    show (w.result = 0 ↔ _) ∧ (_ → w.result < 0) ∧ (w.isTimeout = true → _) ↔ ¬ s.EstablishedInTime
    rw [hw.result, hw.isTimeout]
    simp
  | expire =>
    obtain ⟨w, hw, hiff⟩ := (resumes_expire hs h).reports_iff
    rw [hiff]
    have htime : afterEvent w .expire = { w with isTimeout := true, timerId := 0 } := by
      rw [afterEvent, Awaiter.onTimeEvent, hw.kind]
    rw [htime]
    show (w.result = 0 ↔ _) ∧ (_ → w.result < 0) ∧ (true = true → _) ↔ ¬ s.SettledInTime
    rw [hw.result]
    refine ⟨fun ⟨_, _, hout⟩ ↦ hout rfl, fun hout ↦ ?_⟩
    have hnot : ¬ s.EstablishedInTime := fun he ↦ hout he.settledInTime
    exact ⟨iff_of_false (by decide) hnot, fun _ ↦ by decide, fun _ ↦ hout⟩

/-! ### A constructor that waits, and a loop that keeps up -/

/-- The constructor ends with `EINPROGRESS`. Until the coroutine is resumed, the attempt is settled
before the deadline if at all, the connection is not broken again, and the timer is handled only for
an attempt that is not settled. -/
def InOrder (a c : ℕ) (s : ConnectRun) : ConnectAction → Prop
  | .start answers _ => connectWaits (answers.map ConnectAnswer.reply) = some true
  | .settle _ => s.loop.suspended c = some a → s.clock < s.deadline
  | .breaks => s.loop.suspended c ≠ some a
  | .expire => s.settled = none
  | .tick _ | .writeEvent _ | .errorEvent _ => True

/-- The connection when its loop keeps up. -/
structure KeepsUp (a c : ℕ) (s : ConnectRun) : Prop where
  inv : s.Inv a c
  unsettled : s.loop.awaiters a = none → s.settled = none ∧ s.broken = false
  inTime : s.loop.suspended c = some a → s.broken = false ∧
    ∀ u r, s.settled = some (u, r) → u < s.deadline

theorem KeepsUp.timely {act : ConnectAction} (hs : s.KeepsUp a c)
    (h : step H a c sockfd s act = some t) (hact : s.InOrder a c act) : s.Timely act := by
  cases act with
  | writeEvent e =>
    obtain ⟨⟨hsusp, hwrite⟩, -⟩ := Option.ite_none_right_eq_some.1 h
    obtain ⟨hbroken, htime⟩ := hs.inTime hsusp
    rw [Writable, hbroken] at hwrite
    rcases hsettled : s.settled with - | ⟨u, - | -⟩ <;> rw [hsettled] at hwrite
    · exact hwrite.elim
    · exact iff_of_true (hwrite.resolve_right (by simp)) ⟨u, hsettled, htime u _ hsettled⟩
    · refine iff_of_false hwrite ?_
      rintro ⟨u', hu', -⟩
      exact absurd (hsettled.symm.trans hu') (by simp)
  | errorEvent e =>
    obtain ⟨⟨hsusp, herror⟩, -⟩ := Option.ite_none_right_eq_some.1 h
    rintro ⟨u, hu, -⟩
    rw [HasError, hu, (hs.inTime hsusp).1] at herror
    exact absurd herror (by simp)
  | expire =>
    rintro ⟨u, r, hu, -⟩
    exact absurd ((show s.settled = none from hact).symm.trans hu) (by simp)
  | start | tick | settle | breaks => trivial

theorem KeepsUp.step {act : ConnectAction} (hs : s.KeepsUp a c) (hact : s.InOrder a c act)
    (h : ConnectRun.step H a c sockfd s act = some t) : t.KeepsUp a c := by
  have hinv : t.Inv a c := inv_step h hs.inv
  -- an event or the timer: the coroutine is not suspended afterwards
  have hresumed : ∀ {act}, Resumes a c s act t → t.KeepsUp a c := fun hr ↦ by
    obtain ⟨w, resumed, -, -, hsusp, hawaiter, -⟩ := hr.awaiter
    exact ⟨hinv, fun hnone ↦ absurd (hawaiter.symm.trans hnone) (by simp),
      fun hsome ↦ absurd (hsusp.symm.trans hsome) (by simp)⟩
  cases act with
  | start answers timeout =>
    obtain ⟨r, hr, hawait, -⟩ := start_cases hs.inv h
    obtain ⟨w, hw⟩ := waiting_start hr hawait
    obtain ⟨hfree, hsettled, hbroken⟩ := start_frame h
    rw [settlement_of_connectWaits hact] at hsettled
    exact ⟨hinv, fun hnone ↦ absurd (hw.awaiter.symm.trans hnone) (by simp),
      fun _ ↦ ⟨hbroken.trans (hs.unsettled hfree).2,
        fun u r hu ↦ absurd (hsettled.symm.trans hu) (by simp)⟩⟩
  | tick n =>
    obtain rfl := Option.some.inj h
    exact ⟨hinv, hs.unsettled, hs.inTime⟩
  | settle r =>
    obtain ⟨⟨halive, -⟩, ⟨⟩⟩ := Option.ite_none_right_eq_some.1 h
    refine ⟨hinv, fun hnone ↦ ?_, fun hsusp ↦ ⟨(hs.inTime hsusp).1, fun u r' hu ↦ ?_⟩⟩
    · exact absurd halive (by simp [show s.loop.awaiters a = none from hnone])
    · obtain ⟨rfl, -⟩ := Prod.mk.inj (Option.some.inj hu)
      exact hact hsusp
  | breaks =>
    obtain ⟨hsettled, ⟨⟩⟩ := Option.ite_none_right_eq_some.1 h
    refine ⟨hinv, fun hnone ↦ ?_, fun hsusp ↦ absurd hsusp hact⟩
    rw [(hs.unsettled hnone).1] at hsettled
    exact absurd hsettled (by simp)
  | writeEvent e => exact hresumed (resumes_writeEvent hs.inv h)
  | errorEvent e => exact hresumed (resumes_errorEvent hs.inv h)
  | expire => exact hresumed (resumes_expire hs.inv h)

/-- **A constructor that waits, and a loop that keeps up**: the coroutine is told the truth. -/
theorem reports_of_inOrder {as : List ConnectAction}
    (has : (machine H a c sockfd).StepsMeet (InOrder a c) as) :
    (machine H a c sockfd).Throughout (Reports a) as := by
  have hboth : (machine H a c sockfd).Throughout (fun s ↦ s.KeepsUp a c ∧ s.Reports a) as :=
    Machine.throughout_of_stepsMeet
      ⟨⟨inv_init, fun _ ↦ ⟨rfl, rfl⟩, fun h ↦ absurd h (by simp [machine])⟩,
        fun w hw ↦ absurd hw (by simp [machine])⟩
      (fun _ _ _ h hact hs ↦ ⟨hs.1.step hact h,
        (reports_step h hs.1.inv hs.2).2 (hs.1.timely h hact)⟩) has
  exact hboth.mono fun _ hs ↦ hs.2

/-! ### A constructor that does not wait -/

/-- Nothing but the timer can resume the coroutine, and once it is resumed it was told so. -/
structure OnlyTimer (a c : ℕ) (s : ConnectRun) : Prop where
  inv : s.Inv a c
  alive : s.loop.awaiters a ≠ none
  slots : s.loop.suspended c = some a → ∀ i d, (s.loop.fds.entry i).func d = none
  told : ∀ w, s.loop.awaiters a = some w → w.resumed ≠ [] → w.result = -1 ∧ w.isTimeout = true

theorem onlyTimer_start {answers : List ConnectAnswer} {timeout : Int}
    (hwaits : connectWaits (answers.map ConnectAnswer.reply) = some false)
    (h : step H a c sockfd {} (.start answers timeout) = some t) : t.OnlyTimer a c := by
  have hinv : t.Inv a c := inv_step h inv_init
  obtain ⟨r, hr, hawait, -⟩ := start_cases inv_init h
  obtain ⟨w, hw⟩ := waiting_start hr hawait
  refine ⟨hinv, by simp [hw.awaiter], fun _ i d ↦ ?_, fun w' hw' hne ↦ ?_⟩
  · obtain ⟨waits, hwaits', rfl⟩ := Option.map_eq_some_iff.1 hr
    obtain rfl := Option.some.inj (hwaits.symm.trans hwaits')
    obtain ⟨w₀, -, -, -, hloop⟩ := Runtime.await_cases hawait
    rw [hloop]
    cases d <;> rfl
  · obtain rfl := Option.some.inj (hw.awaiter.symm.trans hw')
    exact absurd hw.fresh.resumed hne

theorem OnlyTimer.step {act : ConnectAction} (hs : s.OnlyTimer a c)
    (h : ConnectRun.step H a c sockfd s act = some t) : t.OnlyTimer a c := by
  have hinv : t.Inv a c := inv_step h hs.inv
  have hsilent : ∀ err outcome, s.loop.suspended c = some a →
      s.loop.dispatch sockfd .write err outcome = none := by
    intro err outcome hsusp
    rw [Runtime.dispatch, hs.slots hsusp]
  cases act with
  | start answers timeout => exact absurd (start_frame h).1 hs.alive
  | tick n =>
    obtain rfl := Option.some.inj h
    exact ⟨hinv, hs.alive, hs.slots, hs.told⟩
  | settle r =>
    obtain ⟨-, ⟨⟩⟩ := Option.ite_none_right_eq_some.1 h
    exact ⟨hinv, hs.alive, hs.slots, hs.told⟩
  | breaks =>
    obtain ⟨-, ⟨⟩⟩ := Option.ite_none_right_eq_some.1 h
    exact ⟨hinv, hs.alive, hs.slots, hs.told⟩
  | writeEvent e =>
    obtain ⟨⟨hsusp, -⟩, h⟩ := Option.ite_none_right_eq_some.1 h
    obtain ⟨loop, hloop, -⟩ := Option.map_eq_some_iff.1 h
    exact absurd ((hsilent _ _ hsusp).symm.trans hloop) (by simp)
  | errorEvent e =>
    obtain ⟨⟨hsusp, -⟩, h⟩ := Option.ite_none_right_eq_some.1 h
    obtain ⟨loop, hloop, -⟩ := Option.map_eq_some_iff.1 h
    exact absurd ((hsilent _ _ hsusp).symm.trans hloop) (by simp)
  -- the one event left: it resumes with `_is_timeout`
  | expire =>
    obtain ⟨w, resumed, hw, -, hsusp, hawaiter, -⟩ := (resumes_expire hs.inv h).awaiter
    refine ⟨hinv, by simp [hawaiter], fun hsome ↦ ?_, fun w' hw' _ ↦ ?_⟩
    · exact absurd (hsusp.symm.trans hsome) (by simp)
    · obtain rfl := Option.some.inj (hawaiter.symm.trans hw')
      rw [afterEvent, Awaiter.onTimeEvent, hw.kind]
      exact ⟨hw.result, rfl⟩

/-- **A constructor that does not end with `EINPROGRESS`**: whenever the coroutine is resumed, it is
told -1 and a timeout, also of a connection that was established. -/
theorem timeout_of_not_inProgress {answers : List ConnectAnswer} {timeout : Int}
    {as : List ConnectAction} {w : Awaiter}
    (hwaits : connectWaits (answers.map ConnectAnswer.reply) = some false)
    (hrun : (machine H a c sockfd).run (.start answers timeout :: as) = some t)
    (hw : t.loop.awaiters a = some w) (hresumed : w.resumed ≠ []) :
    w.result = -1 ∧ w.isTimeout = true := by
  rw [Machine.run, Machine.runFrom_cons] at hrun
  obtain ⟨u, hu, hrun⟩ := Option.bind_eq_some_iff.1 hrun
  have htimer : t.OnlyTimer a c :=
    Machine.runFrom_invariant (M := machine H a c sockfd) (fun _ _ _ h hs ↦ OnlyTimer.step hs h)
      (onlyTimer_start hwaits hu) hrun
  exact htimer.told w hw hresumed

end ConnectRun

/-- **When `connect` reports the outcome of the connection.** In every run, whatever `::connect`
answers and in whatever order the loop delivers events and the timer: what the coroutine is told is
true in every state exactly when every event and the timer are handled timely. -/
theorem connect_reports_iff (H : TimerHeap ℕ) (a c sockfd : ℕ) (as : List ConnectAction) :
    (ConnectRun.machine H a c sockfd).Throughout (ConnectRun.Reports a) as ↔
      (ConnectRun.machine H a c sockfd).StepsMeet ConnectRun.Timely as :=
  Machine.throughout_iff_stepsMeet ConnectRun.inv_init
    (fun _ _ _ h hs ↦ ConnectRun.inv_step h hs)
    (fun w hw ↦ absurd hw (by simp [ConnectRun.machine]))
    (fun _ _ _ h hs hrep ↦ ConnectRun.reports_step h hs hrep) as

namespace ConnectRun

/-- The coroutine awaits a `connect` with a timeout of 1000, and this happens until it is
resumed. -/
def untilResumed (answers : List ConnectAnswer) (as : List ConnectAction) : List ConnectAction :=
  .start answers 1000 :: .tick 10 :: (as ++ [.tick 990, .expire])

/-- The run ends with the coroutine resumed and told -1 and a timeout, although the attempt was
settled before the deadline. -/
def ToldTimeout (as : List ConnectAction) : Prop :=
  ∃ s w, (machine (HeapOps.sorting _) 1 0 5).run as = some s ∧ s.loop.awaiters 1 = some w ∧
    w.resumed = [some 1] ∧ w.result = -1 ∧ w.isTimeout = true ∧ s.SettledInTime ∧ ¬ s.Reports 1

theorem toldTimeout_of_run {as : List ConnectAction} {s : ConnectRun} {w : Awaiter} {u : Int}
    {r : Settlement} (hrun : (machine (HeapOps.sorting _) 1 0 5).run as = some s)
    (hw : s.loop.awaiters 1 = some w) (hresumed : w.resumed = [some 1]) (hresult : w.result = -1)
    (htimeout : w.isTimeout = true) (hsettled : s.settled = some (u, r)) (hlt : u < s.deadline) :
    ToldTimeout as := by
  have hin : s.SettledInTime := ⟨u, r, hsettled, hlt⟩
  refine ⟨s, w, hrun, hw, hresumed, hresult, htimeout, hin, fun hrep ↦ ?_⟩
  exact (hrep w hw (by simp [hresumed])).2.2 htimeout hin

end ConnectRun

/-- `::connect` succeeds at once, and the coroutine is told -1 and a timeout, at the deadline. The
same when `::connect` fails at once; and after an interrupted call, when the second one says
`EALREADY` and the connection is then established in time. -/
theorem connect_success_told_timeout :
    ConnectRun.ToldTimeout (ConnectRun.untilResumed [.established] []) ∧
      ConnectRun.ToldTimeout (ConnectRun.untilResumed [.failed] []) ∧
      ConnectRun.ToldTimeout
        (ConnectRun.untilResumed [.eintr, .already] [.settle .established]) := by
  refine ⟨?_, ?_, ?_⟩
  · exact ConnectRun.toldTimeout_of_run rfl rfl rfl rfl rfl rfl (by decide)
  · exact ConnectRun.toldTimeout_of_run rfl rfl rfl rfl rfl rfl (by decide)
  · exact ConnectRun.toldTimeout_of_run rfl rfl rfl rfl rfl rfl (by decide)

end Nsio
