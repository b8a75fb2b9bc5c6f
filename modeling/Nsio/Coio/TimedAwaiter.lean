import Nsio.Coio.FdTable
import Nsio.Coio.TimerQueue

/-!
# The timed awaiters and the loop that runs them

The model of the awaiters that can carry a timeout (`timeout`, `connect`, `recv_lazy`,
`recv_request`, `send_lazy`, from `io_awaiter.h` and `nio_awaiter.cpp`) over one loop: its
descriptor table, its timer queue, the awaiters that are alive, by address, and the coroutines, of
which the model keeps on which awaiter they are suspended. An address is free again after the
destructor.

What an awaiter does with its socket is left to the action that calls its handler: whether the
handler met `EAGAIN`, or finished and with which result. What it does with the table, the timers
and its coroutine is the source's. A handler resumes its coroutine as its last statement, so what
the coroutine does then (it destroys awaiters, constructs others and awaits them) is the next
actions of the run.

The clock is read by the constructor, and a deadline is present when the timeout is positive.
-/

namespace Nsio

/-! ### Awaiters -/

/-- The timed awaiters. -/
inductive AwaiterKind
  | timeout
  | connect
  | recvLazy
  | recvRequest
  | sendLazy
  deriving DecidableEq, Repr

/-- The direction an awaiter waits for on its descriptor. -/
def AwaiterKind.direction : AwaiterKind → Option Direction
  | .timeout => none
  | .recvLazy | .recvRequest => some .read
  | .connect | .sendLazy => some .write

/-- An awaiter that is alive. -/
structure Awaiter where
  kind : AwaiterKind
  /-- `_sockfd`; a plain `timeout` has none. -/
  sockfd : ℕ := 0
  /-- `_result`. -/
  result : Int32 := -1
  /-- `_handle`, once the awaiter has been awaited. -/
  handle : Option ℕ := none
  /-- `_timer_id`. -/
  timerId : Int32 := -1
  /-- `_is_timeout`. -/
  isTimeout : Bool := false
  /-- The constructor was given a positive timeout. -/
  timed : Bool
  /-- For each call of `_handle.resume()`, the awaiter the coroutine was suspended on. -/
  resumed : List (Option ℕ) := []
  deriving DecidableEq, Repr

/-- The fields after `on_time_event`. Both `recv` awaiters leave `_timer_id` as it is. -/
def Awaiter.onTimeEvent (w : Awaiter) : Awaiter :=
  match w.kind with
  | .timeout => { w with result := 0, timerId := 0 }
  | .connect => { w with isTimeout := true, timerId := 0 }
  | .recvLazy | .recvRequest => { w with isTimeout := true }
  | .sendLazy => { w with isTimeout := true, timerId := 0, result := 0 }

/-- What `on_time_event` does to the table. -/
def Awaiter.cancelOwn (w : Awaiter) (fds : FdTable ℕ) : FdTable ℕ :=
  match w.kind with
  | .timeout => fds
  | .recvLazy | .recvRequest => fds.cancelRead w.sockfd true
  | .connect | .sendLazy => fds.cancelWrite w.sockfd true

/-- On expiry an awaiter cancels the direction it waits for. -/
theorem Awaiter.cancelOwn_eq (w : Awaiter) (fds : FdTable ℕ) :
    w.cancelOwn fds = match w.kind.direction with
      | some d => (fds.cancelEv w.sockfd d.mask true).1
      | none => fds := by
  obtain ⟨kind, -⟩ := w
  cases kind <;> rfl

/-- A reply of `::connect`. -/
inductive ConnectReply
  | established
  | eintr
  | inProgress
  | failed
  deriving DecidableEq, Repr

/-- The loop of the constructor of `connect`: whether it ends by waiting for the descriptor. -/
def connectWaits : List ConnectReply → Option Bool
  | [] => none
  | .eintr :: replies => connectWaits replies
  | .inProgress :: _ => some true
  | .established :: _ | .failed :: _ => some false

/-- A call of a constructor. `send_lazy` reads the clock twice. -/
inductive AwaiterCtor
  | timeout (deadline : Option Int)
  | connect (sockfd : ℕ) (deadline : Option Int) (replies : List ConnectReply)
  | recvLazy (sockfd : ℕ) (deadline : Option Int)
  | recvRequest (sockfd : ℕ) (deadline : Option Int)
  | sendLazy (sockfd : ℕ) (deadlines : Option (Int × Int))
  deriving DecidableEq, Repr

/-- The number of calls of `delay_call` a constructor makes. -/
def AwaiterCtor.delays : AwaiterCtor → ℕ
  | .timeout deadline | .connect _ deadline _ | .recvLazy _ deadline | .recvRequest _ deadline =>
    if deadline.isSome then 1 else 0
  | .sendLazy _ deadlines => if deadlines.isSome then 2 else 0

/-- What a handler's socket calls come to. -/
inductive HandlerOutcome
  /-- `EAGAIN`. -/
  | blocked
  /-- A result is stored, or `_result` is left as it is. -/
  | finished (result : Option Int32)
  /-- `SO_ERROR`, read by `connect`. -/
  | soError (e : Int)
  deriving DecidableEq, Repr

/-- The value with which `run` calls a handler: minus `SO_ERROR` for an error event, else the
direction. -/
def eventCode (d : Direction) : Option ℕ → Int
  | some e => -e
  | none =>
    match d with
    | .read => emRead
    | .write => emWrite

/-! ### The loop -/

/-- The loop, the awaiters that are alive and the coroutines. -/
structure Runtime where
  fds : FdTable ℕ := {}
  timers : TimerQueue ℕ := .empty
  awaiters : ℕ → Option Awaiter := fun _ ↦ none
  /-- The awaiter a coroutine is suspended on. -/
  suspended : ℕ → Option ℕ := fun _ ↦ none
  /-- `on_time_event` has been called on an awaiter that was destroyed. -/
  dangling : Bool := false

namespace Runtime

/-- Store the fields of an awaiter. -/
def store (s : Runtime) (a : ℕ) (w : Awaiter) : Runtime :=
  { s with awaiters := Function.update s.awaiters a (some w) }

/-- `_handle.resume()` of the awaiter at `a`, whose fields are `w`. -/
def resume (s : Runtime) (a : ℕ) (w : Awaiter) : Runtime :=
  { s.store a { w with resumed := w.resumed ++ [w.handle.bind s.suspended] } with
    suspended := match w.handle with
      | some c => Function.update s.suspended c none
      | none => s.suspended }

/-- Write a handler, or none, into a slot of the table. -/
def setSlot (s : Runtime) (fd : ℕ) (d : Direction) (f : Option ℕ) : Runtime :=
  { s with fds := (s.fds.put fd ((s.fds.entry fd).setFunc d f, none) true).1 }

/-- `_timer_id = delay_call(…, this)`. -/
def armTimer (H : TimerHeap ℕ) (s : Runtime) (a : ℕ) (w : Awaiter)
    (when : Int) : Runtime :=
  { s with timers := (s.timers.delayCall H when a).1 }.store a
    { w with timerId := (s.timers.delayCall H when a).2 }

/-- The base constructor `timeout::timeout`. -/
def baseCtor (H : TimerHeap ℕ) (s : Runtime) (a : ℕ) (w : Awaiter) :
    Option Int → Runtime
  | some when => s.armTimer H a w when
  | none => s.store a w

/-- The constructors. -/
def construct (H : TimerHeap ℕ) (s : Runtime) (a : ℕ) :
    AwaiterCtor → Option Runtime
  | .timeout deadline =>
    some (s.baseCtor H a { kind := .timeout, timed := deadline.isSome } deadline)
  | .connect sockfd deadline replies =>
    (connectWaits replies).map fun waits ↦
      let s := s.baseCtor H a { kind := .connect, sockfd, timed := deadline.isSome } deadline
      if waits then { s with fds := s.fds.waitWrite sockfd (some a) true } else s
  | .recvLazy sockfd deadline =>
    let s := s.baseCtor H a { kind := .recvLazy, sockfd, timed := deadline.isSome } deadline
    some { s with fds := s.fds.waitRead sockfd (some a) true }
  | .recvRequest sockfd deadline =>
    let s := s.baseCtor H a { kind := .recvRequest, sockfd, timed := deadline.isSome } deadline
    some { s with fds := s.fds.waitRead sockfd (some a) true }
  | .sendLazy sockfd deadlines =>
    let w : Awaiter := { kind := .sendLazy, sockfd, timed := deadlines.isSome }
    let s := s.baseCtor H a w (deadlines.map Prod.fst)
    let s := { s with fds := s.fds.waitWrite sockfd (some a) true }
    match deadlines with
    | some (_, when) => some (s.armTimer H a w when)
    | none => some s

/-- `on_file_event` of the awaiter at `a`, called for the slot `d` of `fd`. -/
def onFileEvent (s : Runtime) (a : ℕ) (w : Awaiter) (fd : ℕ) (d : Direction) (event : Int)
    (outcome : HandlerOutcome) : Option Runtime :=
  match w.kind with
  | .timeout => some s
  | .connect =>
    if event ≤ 0 then
      some ({ s with fds := s.fds.cancelWrite w.sockfd true }.resume a w)
    else if event = emWrite then
      match outcome with
      | .soError e => some (s.resume a { w with result := if e = 0 then 0 else w.result })
      | _ => none
    else some (s.resume a w)
  | .recvLazy | .recvRequest | .sendLazy =>
    if event ≤ 0 then some (s.resume a w)
    else
      match outcome with
      | .blocked => some (s.setSlot fd d (some a))
      | .finished result => some (s.resume a { w with result := result.getD w.result })
      | .soError _ => none

/-- `run` delivers an event to the slot `d` of `fd`: it clears the slot and calls the handler. A
slot with an awaiter that was destroyed has no defined behaviour. -/
def dispatch (s : Runtime) (fd : ℕ) (d : Direction) (err : Option ℕ) (outcome : HandlerOutcome) :
    Option Runtime :=
  match (s.fds.entry fd).func d with
  | none => none
  | some a =>
    match s.awaiters a with
    | none => none
    | some w =>
      if fd < s.fds.fds.length ∧ (s.fds.entry fd).fd ≠ -1 then
        (s.setSlot fd d none).onFileEvent a w fd d (eventCode d err) outcome
      else none

/-- `run` pops a timer that is due and calls `on_time_event`. -/
def expire (H : TimerHeap ℕ) (s : Runtime) (now : Int) : Option Runtime :=
  (s.timers.expire H now).map fun due ↦
    match s.awaiters due.1.func with
    | none => { s with timers := due.2, dangling := true }
    | some w =>
      { s with timers := due.2, fds := w.cancelOwn s.fds }.resume due.1.func w.onTimeEvent

/-- The destructor `timeout::~timeout`. -/
def destroy (H : TimerHeap ℕ) (s : Runtime) (a : ℕ) : Option Runtime :=
  (s.awaiters a).map fun w ↦
    { s with
      timers := if (0 : Int32) < w.timerId then s.timers.cancelDelay H w.timerId else s.timers
      awaiters := Function.update s.awaiters a none }

/-- `co_await`: a coroutine that is running suspends on an awaiter, for the first time. -/
def await (s : Runtime) (c a : ℕ) : Option Runtime :=
  match s.awaiters a with
  | none => none
  | some w =>
    if w.handle = none ∧ s.suspended c = none then
      some
        { s.store a { w with handle := some c } with
          suspended := Function.update s.suspended c (some a) }
    else none

end Runtime

/-- What can happen: what a running coroutine does, and what the loop does. -/
inductive RuntimeAction
  | construct (a : ℕ) (ctor : AwaiterCtor)
  | await (c a : ℕ)
  | destroy (a : ℕ)
  | cancelRead (fd : ℕ)
  | cancelWrite (fd : ℕ)
  | cancelFdall (fd : ℕ)
  | dispatch (fd : ℕ) (d : Direction) (err : Option ℕ) (outcome : HandlerOutcome)
  | expire (now : Int)
  deriving DecidableEq, Repr

namespace Runtime

/-- One step. A constructor runs at an address that is free. -/
def step (H : TimerHeap ℕ) (s : Runtime) : RuntimeAction → Option Runtime
  | .construct a ctor => if s.awaiters a = none then s.construct H a ctor else none
  | .await c a => s.await c a
  | .destroy a => s.destroy H a
  | .cancelRead fd => some { s with fds := s.fds.cancelRead fd true }
  | .cancelWrite fd => some { s with fds := s.fds.cancelWrite fd true }
  | .cancelFdall fd => some { s with fds := s.fds.cancelFdall fd true }
  | .dispatch fd d err outcome => s.dispatch fd d err outcome
  | .expire now => s.expire H now

/-- The runs of a fresh loop. -/
def machine (H : TimerHeap ℕ) : Machine Runtime RuntimeAction where
  init := {}
  step := step H

/-! ### What a step can do -/

variable {H : TimerHeap ℕ} {s t : Runtime}

/-- The coroutine an awaiter resumes is running afterwards. -/
theorem suspended_resume {a c : ℕ} {w : Awaiter} (hc : w.handle = some c) :
    (s.resume a w).suspended = Function.update s.suspended c none := by
  simp only [resume, hc]

/-- The base constructor does not look at the table. -/
theorem baseCtor_fds (s : Runtime) (a : ℕ) (w : Awaiter) (deadline : Option Int)
    (wait : FdTable ℕ → FdTable ℕ) :
    { s.baseCtor H a w deadline with fds := wait (s.baseCtor H a w deadline).fds } =
      { s with fds := wait s.fds }.baseCtor H a w deadline := by
  cases deadline with
  | none => rfl
  | some when => rfl

/-- A constructor stores its awaiter, waits for its descriptor or not, and calls `delay_call` at
most once, except in `send_lazy`. -/
theorem construct_cases {a : ℕ} {ctor : AwaiterCtor} (h : s.construct H a ctor = some t) :
    ∃ (kind : AwaiterKind) (sockfd : ℕ) (timed : Bool) (fds : FdTable ℕ),
      (fds = s.fds ∨ ∃ d, kind.direction = some d ∧
        fds = (s.fds.waitFd d.mask sockfd (some a) true).1) ∧
      ((∃ deadline : Option Int, ctor.delays = (if deadline.isSome then 1 else 0) ∧
          t = { s with fds := fds }.baseCtor H a { kind, sockfd, timed } deadline) ∨
        ctor.delays = 2 ∧ ∃ when₁ when₂,
          t = ({ s with fds := fds }.armTimer H a { kind, sockfd, timed } when₁).armTimer H a
            { kind, sockfd, timed } when₂) := by
  cases ctor with
  | timeout deadline =>
    exact ⟨.timeout, 0, deadline.isSome, s.fds, .inl rfl, .inl ⟨deadline, rfl,
      (Option.some.inj h).symm⟩⟩
  | connect sockfd deadline replies =>
    obtain ⟨waits, -, rfl⟩ := Option.map_eq_some_iff.1 h
    cases waits with
    | false => exact ⟨.connect, sockfd, deadline.isSome, s.fds, .inl rfl, .inl ⟨deadline, rfl, rfl⟩⟩
    | true =>
      exact ⟨.connect, sockfd, deadline.isSome, _, .inr ⟨.write, rfl, rfl⟩, .inl ⟨deadline, rfl,
        baseCtor_fds s a _ deadline fun fds ↦ fds.waitWrite sockfd (some a) true⟩⟩
  | recvLazy sockfd deadline =>
    exact ⟨.recvLazy, sockfd, deadline.isSome, _, .inr ⟨.read, rfl, rfl⟩, .inl ⟨deadline, rfl,
      (Option.some.inj h).symm.trans
        (baseCtor_fds s a _ deadline fun fds ↦ fds.waitRead sockfd (some a) true)⟩⟩
  | recvRequest sockfd deadline =>
    exact ⟨.recvRequest, sockfd, deadline.isSome, _, .inr ⟨.read, rfl, rfl⟩, .inl ⟨deadline, rfl,
      (Option.some.inj h).symm.trans
        (baseCtor_fds s a _ deadline fun fds ↦ fds.waitRead sockfd (some a) true)⟩⟩
  | sendLazy sockfd deadlines =>
    refine ⟨.sendLazy, sockfd, deadlines.isSome, _, .inr ⟨.write, rfl, rfl⟩, ?_⟩
    -- the base constructor arms one timer, and the body a second one
    rcases deadlines with - | ⟨when₁, when₂⟩
    · exact .inl ⟨none, rfl, (Option.some.inj h).symm⟩
    · exact .inr ⟨rfl, when₁, when₂, (Option.some.inj h).symm⟩

/-- A handler leaves the table, writes itself back into its slot, or resumes its coroutine. Only
`timeout` does the first, and only `connect` cancels. -/
theorem onFileEvent_cases {a : ℕ} {w : Awaiter} {fd : ℕ} {d : Direction} {event : Int}
    {outcome : HandlerOutcome} (h : s.onFileEvent a w fd d event outcome = some t) :
    w.kind = .timeout ∧ t = s ∨ t = s.setSlot fd d (some a) ∨ ∃ result fds,
      (fds = s.fds ∨ w.kind = .connect ∧ fds = s.fds.cancelWrite w.sockfd true) ∧
        t = { s with fds := fds }.resume a { w with result := result } := by
  unfold onFileEvent at h
  split at h
  · rename_i hkind
    exact .inl ⟨hkind, (Option.some.inj h).symm⟩
  · rename_i hkind
    split at h
    · exact .inr (.inr ⟨w.result, _, .inr ⟨hkind, rfl⟩, (Option.some.inj h).symm⟩)
    · split at h
      · split at h
        · exact .inr (.inr ⟨_, _, .inl rfl, (Option.some.inj h).symm⟩)
        · exact absurd h (by simp)
      · exact .inr (.inr ⟨w.result, _, .inl rfl, (Option.some.inj h).symm⟩)
  all_goals
    split at h
    · exact .inr (.inr ⟨w.result, _, .inl rfl, (Option.some.inj h).symm⟩)
    · split at h
      · exact .inr (.inl (Option.some.inj h).symm)
      · exact .inr (.inr ⟨_, _, .inl rfl, (Option.some.inj h).symm⟩)
      · exact absurd h (by simp)

/-- An event is delivered to the handler of an awaiter that is alive. -/
theorem dispatch_cases {fd : ℕ} {d : Direction} {err : Option ℕ} {outcome : HandlerOutcome}
    (h : s.dispatch fd d err outcome = some t) :
    ∃ a w, (s.fds.entry fd).func d = some a ∧ s.awaiters a = some w ∧
      (fd < s.fds.fds.length ∧ (s.fds.entry fd).fd ≠ -1) ∧
      (s.setSlot fd d none).onFileEvent a w fd d (eventCode d err) outcome = some t := by
  rw [dispatch] at h
  split at h
  · exact absurd h (by simp)
  · rename_i a ha
    split at h
    · exact absurd h (by simp)
    · rename_i w hw
      split at h
      · exact ⟨a, w, ha, hw, ‹_›, h⟩
      · exact absurd h (by simp)

/-- A timer that is due is popped. Its awaiter, if alive, gives up its descriptor and resumes. -/
theorem expire_cases {now : Int} (h : s.expire H now = some t) :
    ∃ due timers, s.timers.expire H now = some (due, timers) ∧
      (s.awaiters due.func = none ∧ t = { s with timers := timers, dangling := true } ∨
        ∃ w, s.awaiters due.func = some w ∧
          t = { s with timers := timers, fds := w.cancelOwn s.fds }.resume due.func
            w.onTimeEvent) := by
  obtain ⟨⟨due, timers⟩, hdue, rfl⟩ := Option.map_eq_some_iff.1 h
  refine ⟨due, timers, hdue, ?_⟩
  rcases hw : s.awaiters due.func with - | w
  · exact .inl ⟨rfl, rfl⟩
  · exact .inr ⟨w, rfl, rfl⟩

/-- A coroutine that is running suspends on an awaiter that was not awaited before. -/
theorem await_cases {c a : ℕ} (h : s.await c a = some t) :
    ∃ w, s.awaiters a = some w ∧ w.handle = none ∧ s.suspended c = none ∧
      t = { s.store a { w with handle := some c } with
        suspended := Function.update s.suspended c (some a) } := by
  rw [await] at h
  split at h
  · exact absurd h (by simp)
  · rename_i w hw
    split at h
    · rename_i hfree
      exact ⟨w, hw, hfree.1, hfree.2, (Option.some.inj h).symm⟩
    · exact absurd h (by simp)

end Runtime

end Nsio
