import Nsio.Coio.AsyncQueue

/-!
# The life of a context

The model of `io_context.cpp` with the parts of `io_loop.h` it drives: `run_worker`, `run_local`,
`stop`, the loop of `run()`, and `async_call` and `async_call_return` with the futures they hand
out. The queue is the one of `Coio.AsyncQueue`; here its handler is called from the loop, and the
loop is run by a thread.

Any number of threads `π` use the context, and one thread is in the loop: the worker that
`run_worker` creates, or the caller of `run_local`. Every step is one of one thread. The thread in
the loop goes on with `loop`, which takes what `epoll_wait` returns. A turn of the loop has two
parts, the handlers of the events and then the timers that are due; in both it may call further
handlers and callbacks (`callback`), as many as there are. These and the functions of the queue may
call `async_call`, `async_call_return` and `stop` as well (`none` among `Option π`).

`m_breaking` is only ever set, so a context that has been stopped does not run again.

## Results

`stop_final`: when `stop` returns to a thread that had a worker to wait for, no function of the
queue will ever run again. `isLocalThread_iff`: while a thread is in the loop, no other is taken for
it. The futures are in `Coio.ContextFutures`; that `stop` returns is in `Coio.ContextStop`.
-/

namespace Nsio

/-! ### Threads, functions and futures -/

/-- The shared state of a `std::future`. -/
inductive FutureState
  | pending
  | ready
  /-- The promise was destroyed before it was set. -/
  | broken
  deriving DecidableEq, Repr

/-- An entry of `_async_funcs`: a function, and the number of the promise that `async_return` made
for it. -/
structure Job (φ : Type*) where
  func : φ
  promise : Option ℕ := none
  deriving DecidableEq, Repr

/-- `_loc_thread`, once it is there. -/
inductive LocThread
  | running
  | finished
  | joined
  deriving DecidableEq, Repr

/-- Where the thread is that runs the loop. -/
inductive LoopPc
  /-- In `thread_func`, before `ready.set_value()`. -/
  | starting
  /-- In `_run`, before `run()`. -/
  | init
  /-- At the test of `m_breaking`. -/
  | head
  /-- In `epoll_wait`. -/
  | polling
  /-- In the body of the loop; the event of `_event_fd` is still to be handled, or not. -/
  | turn (event : Bool)
  /-- At the timers that are due. -/
  | expiring
  /-- Behind the loop. -/
  | leaving
  deriving DecidableEq, Repr

/-- Where another thread is. -/
inductive CallerPc
  | free
  /-- In `run_worker`, waiting for the worker. -/
  | starting
  /-- In `stop`, after `break_run`. -/
  | stopping
  /-- In `join`. -/
  | joining
  deriving DecidableEq, Repr

/-- What ends the program. -/
inductive ContextCrash
  /-- A `std::thread` is destroyed that has not been joined. -/
  | notJoined
  /-- A second thread enters the loop, or the context is destroyed under the loop. -/
  | loopInUse
  /-- A thread is joined again. -/
  | joinedTwice
  /-- A promise is set again. -/
  | promiseSatisfied
  deriving DecidableEq, Repr

/-- What `epoll_wait` returns. -/
inductive PollOutcome
  /-- Some events, with or without that of `_event_fd`. -/
  | events (event : Bool)
  | interrupted
  | failed
  deriving DecidableEq, Repr

/-- A context and the threads that use it. -/
structure IoContext (π φ : Type*) where
  /-- `m_breaking`. -/
  breaking : Bool := false
  /-- `m_thread_id`; the worker is `some none`. -/
  threadId : Option (Option π) := none
  /-- `_loc_thread`. -/
  locThread : Option LocThread := none
  /-- The thread that runs the loop, and where it is. -/
  loop : Option (Option π × LoopPc) := none
  queue : AsyncQueue π (Job φ) := {}
  callers : π → CallerPc := fun _ ↦ .free
  /-- The futures that were handed out. -/
  futures : List FutureState := []
  /-- The functions of the queue that have returned. -/
  returned : List (Job φ) := []
  destroyed : Bool := false
  crashed : Option ContextCrash := none

/-- The steps of the threads. -/
inductive ContextAction (π φ : Type*)
  | runWorker (p : π)
  /-- The wait of `run_worker` ends. -/
  | started (p : π)
  | runLocal (p : π)
  /-- The thread in the loop goes on. -/
  | loop (o : PollOutcome)
  /-- The thread in the loop calls a handler of another descriptor, or the callback of a timer. -/
  | callback
  | asyncCall (p : Option π) (f : φ)
  | asyncCallReturn (p : Option π) (f : φ)
  /-- The `eventfd_write` after a submission. -/
  | write (p : π)
  | stop (p : Option π)
  /-- A thread in `stop` goes on. -/
  | join (p : π)
  | destroy (p : π)
  deriving DecidableEq, Repr

/-! ### What the queue's steps leave alone -/

namespace AsyncQueue

variable {π φ : Type*} [DecidableEq π] {q q' : AsyncQueue π φ}

/-- A step of the handler, apart from the return of a function, concerns the loop's thread alone. -/
theorem handle_frame {a : AsyncAction π φ} (hq : q.step a = some q')
    (ha : a ∈ [.eventRead, .swap, .call, .clear, .rearm]) :
    q'.appended = q.appended ∧ q'.owes = q.owes := by
  simp only [List.mem_cons, List.not_mem_nil, or_false] at ha
  rcases ha with rfl | rfl | rfl | rfl | rfl
  all_goals
    rw [step] at hq
    split at hq
    · first
      | obtain rfl := Option.some.inj hq
        exact ⟨rfl, rfl⟩
      | obtain ⟨-, hq⟩ := Option.ite_none_right_eq_some.1 hq
        obtain rfl := Option.some.inj hq
        exact ⟨rfl, rfl⟩
      | obtain ⟨f, -, rfl⟩ := Option.map_eq_some_iff.1 hq
        exact ⟨rfl, rfl⟩
    · exact absurd hq (by simp)

/-- A submission. -/
theorem append_eq {p : Option π} {f : φ} (hq : q.step (.append p f) = some q') :
    q' = { q with
      funcs := q.funcs ++ [f]
      appended := q.appended ++ [f]
      owes := Function.update q.owes p true } := by
  obtain ⟨-, hq⟩ := Option.ite_none_right_eq_some.1 hq
  exact (Option.some.inj hq).symm

theorem write_eq {p : Option π} (hq : q.step (.write p) = some q') :
    q' = { q with
      counter := eventfdWrite q.counter
      owes := Function.update q.owes p false } := by
  obtain ⟨-, hq⟩ := Option.ite_none_right_eq_some.1 hq
  exact (Option.some.inj hq).symm

theorem owes_none_of_append {p : π} {f : φ} (hq : q.step (.append (some p) f) = some q') :
    q'.owes none = q.owes none := by
  rw [append_eq hq]
  exact Function.update_of_ne (Option.some_ne_none p).symm true q.owes

theorem owes_none_of_write {p : π} (hq : q.step (.write (some p)) = some q') :
    q'.owes none = q.owes none := by
  rw [write_eq hq]
  exact Function.update_of_ne (Option.some_ne_none p).symm false q.owes

theorem ret_eq {i : ℕ} (hpc : q.pc = .inFunc i) (hq : q.step .ret = some q') :
    q' = { q with pc := .running (i + 1) } := by
  rw [step, hpc] at hq
  obtain ⟨-, hq⟩ := Option.ite_none_left_eq_some.1 hq
  exact (Option.some.inj hq).symm

end AsyncQueue

/-- The steps that start the loop, wait for its end or destroy the context. -/
def ContextAction.IsLifecycle {π φ : Type*} : ContextAction π φ → Prop
  | .runWorker _ | .runLocal _ | .join _ | .destroy _ => True
  | _ => False

namespace IoContext

variable {π φ : Type*} [DecidableEq π]

/-! ### What the threads do -/

/-- `is_local_thread()`, called by one of the threads or (`none`) by the one in the loop. -/
def isLocalThread (s : IoContext π φ) : Option π → Bool
  | some p => s.threadId = some (some p)
  | none =>
    match s.loop with
    | some (l, _) => s.threadId = some l
    | none => false

/-- A thread is outside the context's functions. The thread in the loop is so inside the functions
it runs and inside the other handlers and callbacks, and the caller of `run_local` inside `init`. -/
def mayCall (s : IoContext π φ) : Option π → Bool
  | some p =>
    s.callers p = .free && !s.queue.owes (some p) &&
      match s.loop with
      | some (some q, pc) => q ≠ p || pc = .init
      | _ => true
  | none =>
    match s.loop, s.queue.pc with
    | some (_, .turn _), .idle | some (_, .turn _), .inFunc _ | some (_, .expiring), .idle =>
      !s.queue.owes none
    | _, _ => false

def crash (s : IoContext π φ) (c : ContextCrash) : IoContext π φ := { s with crashed := some c }

/-- A step of the queue. -/
def onQueue (s : IoContext π φ) (a : AsyncAction π (Job φ)) : Option (IoContext π φ) :=
  (s.queue.step a).map fun q ↦ { s with queue := q }

def setCaller (s : IoContext π φ) (p : π) (pc : CallerPc) : IoContext π φ :=
  { s with callers := Function.update s.callers p pc }

theorem callers_setCaller_self {s : IoContext π φ} {p : π} {pc : CallerPc} :
    (s.setCaller p pc).callers p = pc := Function.update_self ..

theorem callers_setCaller_of_ne {s : IoContext π φ} {p p' : π} {pc : CallerPc} (h : p' ≠ p) :
    (s.setCaller p pc).callers p' = s.callers p' := Function.update_of_ne h ..

def goto (s : IoContext π φ) (l : Option π) (pc : LoopPc) : IoContext π φ :=
  { s with loop := some (l, pc) }

/-- `set_value` on the promise of a function that has returned. -/
def setValue (s : IoContext π φ) (j : Job φ) : IoContext π φ :=
  match j.promise with
  | none => { s with returned := s.returned ++ [j] }
  | some n =>
    if s.futures[n]? = some .pending then
      { s with
        returned := s.returned ++ [j]
        futures := s.futures.set n .ready }
    else s.crash .promiseSatisfied

/-- One step in the body of the loop: the handler of the queue, if its event is there, and then the
timers. -/
def turnStep (s : IoContext π φ) (l : Option π) (event : Bool) : Option (IoContext π φ) :=
  match s.queue.pc with
  | .idle =>
    if event then (s.onQueue .eventRead).map fun t ↦ t.goto l (.turn false)
    else some (s.goto l .expiring)
  | .read => s.onQueue .swap
  | .running i => if i < s.queue.tmp.length then s.onQueue .call else s.onQueue .clear
  | .inFunc i => (s.queue.tmp[i]?).bind fun j ↦ (s.onQueue .ret).map fun t ↦ t.setValue j
  | .cleared => s.onQueue .rearm

/-- One step of the thread in the loop. -/
def loopStep (s : IoContext π φ) (o : PollOutcome) : Option (IoContext π φ) :=
  match s.loop with
  | none => none
  | some (l, .starting) => some (s.goto l .init)
  -- `run()` begins when `init` has returned
  | some (l, .init) =>
    if l.all fun p ↦ s.callers p = .free && !s.queue.owes (some p) then
      some { s.goto l .head with threadId := some l }
    else none
  | some (l, .head) => some (s.goto l (if s.breaking then .leaving else .polling))
  | some (l, .polling) =>
    match o with
    | .events event => some (s.goto l (.turn event))
    | .interrupted => some (s.goto l .head)
    | .failed => some (s.goto l .leaving)
  | some (l, .turn event) => s.turnStep l event
  -- no timer is due any more
  | some (l, .expiring) => some (s.goto l .head)
  | some (none, .leaving) => some { s with loop := none, locThread := some .finished }
  | some (some _, .leaving) => some { s with loop := none }

/-- The thread in the loop is between two handlers, or between two callbacks of timers. -/
def mayCallback (s : IoContext π φ) : Bool :=
  match s.loop, s.queue.pc with
  | some (_, .turn _), .idle | some (_, .expiring), .idle => true
  | _, _ => false

/-- The promises of functions that are destroyed. -/
def breakPromises (js : List (Job φ)) (futures : List FutureState) : List FutureState :=
  (js.filterMap Job.promise).foldl
    (fun fs n ↦ fs.modify n fun x ↦ if x = .pending then .broken else x) futures

/-- One step. -/
def step (s : IoContext π φ) (a : ContextAction π φ) : Option (IoContext π φ) :=
  if s.destroyed || s.crashed.isSome then none else
  match a with
  -- the new thread is there before the old `std::thread` is destroyed
  | .runWorker p =>
    if s.mayCall (some p) then
      some <|
        if s.loop.isSome then s.crash .loopInUse
        else if s.locThread = some .finished then s.crash .notJoined
        else { s.setCaller p .starting with
          locThread := some .running
          loop := some (none, .starting) }
    else none
  | .started p =>
    if s.callers p = .starting ∧ s.loop ≠ some (none, .starting) then some (s.setCaller p .free)
    else none
  | .runLocal p =>
    if s.mayCall (some p) then
      some (if s.loop.isSome then s.crash .loopInUse else { s with loop := some (some p, .init) })
    else none
  | .loop o => s.loopStep o
  | .callback => if s.mayCallback then some s else none
  | .asyncCall p f =>
    if s.mayCall p then
      if s.isLocalThread p then some s else s.onQueue (.append p ⟨f, none⟩)
    else none
  | .asyncCallReturn p f =>
    if s.mayCall p then
      if s.isLocalThread p then some { s with futures := s.futures ++ [.ready] }
      else (s.onQueue (.append p ⟨f, some s.futures.length⟩)).map fun t ↦
        { t with futures := s.futures ++ [.pending] }
    else none
  | .write p => s.onQueue (.write (some p))
  | .stop p =>
    if s.mayCall p then
      match p with
      | some p => some { s.setCaller p .stopping with breaking := true }
      -- in the loop `is_local_thread` is true, and there is nothing more to do
      | none => some { s with breaking := true }
    else none
  | .join p =>
    match s.callers p with
    | .stopping =>
      some (s.setCaller p (
        if s.isLocalThread (some p) then .free
        else match s.locThread with
          | some .running | some .finished => .joining
          | some .joined | none => .free))
    | .joining =>
      match s.locThread with
      | some .finished => some { s.setCaller p .free with locThread := some .joined }
      | some .running => none
      | some .joined | none => some (s.crash .joinedTwice)
    | .free | .starting => none
  | .destroy p =>
    if s.mayCall (some p) then
      some <|
        if s.loop.isSome then s.crash .loopInUse
        else if s.locThread = some .finished then s.crash .notJoined
        else { s with
          destroyed := true
          futures := breakPromises (s.queue.funcs ++ s.queue.tmp) s.futures }
    else none

/-- The runs of a fresh context. -/
def machine (π φ : Type*) [DecidableEq π] : Machine (IoContext π φ) (ContextAction π φ) where
  init := {}
  step := step

/-! ### What a step can do -/

variable {s t : IoContext π φ} {a : ContextAction π φ}

/-- The steps as a relation, one rule for each thing that can happen. -/
inductive Step (s : IoContext π φ) : ContextAction π φ → IoContext π φ → Prop
  | misuse {a c} (ha : a.IsLifecycle) (hc : c ≠ .promiseSatisfied) : Step s a (s.crash c)
  | runWorker {p} (hloop : s.loop = none) : Step s (.runWorker p)
    { s.setCaller p .starting with locThread := some .running, loop := some (none, .starting) }
  | started {p} (hp : s.callers p = .starting) : Step s (.started p) (s.setCaller p .free)
  | runLocal {p} (hloop : s.loop = none) :
    Step s (.runLocal p) { s with loop := some (some p, .init) }
  | ready {o l} (hloop : s.loop = some (l, .starting)) : Step s (.loop o) (s.goto l .init)
  | run {o l} (hloop : s.loop = some (l, .init)) :
    Step s (.loop o) { s.goto l .head with threadId := some l }
  | test {o l} (hloop : s.loop = some (l, .head)) :
    Step s (.loop o) (s.goto l (if s.breaking then .leaving else .polling))
  | poll {o l pc} (hloop : s.loop = some (l, .polling))
    (hpc : (∃ e, pc = .turn e) ∨ pc = .head ∨ pc = .leaving) : Step s (.loop o) (s.goto l pc)
  | handle {o l e e' a q} (hloop : s.loop = some (l, .turn e)) (hq : s.queue.step a = some q)
    (ha : a ∈ [.eventRead, .swap, .call, .clear, .rearm]) :
    Step s (.loop o) { s with queue := q, loop := some (l, .turn e') }
  | ret {o l e i j q} (hloop : s.loop = some (l, .turn e)) (hpc : s.queue.pc = .inFunc i)
    (hj : s.queue.tmp[i]? = some j) (hq : s.queue.step .ret = some q) :
    Step s (.loop o) (setValue { s with queue := q } j)
  | endTurn {o l e} (hloop : s.loop = some (l, .turn e)) (hpc : s.queue.pc = .idle) :
    Step s (.loop o) (s.goto l .expiring)
  | expired {o l} (hloop : s.loop = some (l, .expiring)) : Step s (.loop o) (s.goto l .head)
  | callback : Step s .callback s
  | exitWorker {o} (hloop : s.loop = some (none, .leaving)) :
    Step s (.loop o) { s with loop := none, locThread := some .finished }
  | exitLocal {o p} (hloop : s.loop = some (some p, .leaving)) :
    Step s (.loop o) { s with loop := none }
  | call {p f} : Step s (.asyncCall p f) s
  | callReturn {p f} :
    Step s (.asyncCallReturn p f) { s with futures := s.futures ++ [.ready] }
  | submit {p f q} (hmay : s.mayCall p = true) (hlocal : s.isLocalThread p = false)
    (hq : s.queue.step (.append p ⟨f, none⟩) = some q) :
    Step s (.asyncCall p f) { s with queue := q }
  | submitReturn {p f q} (hmay : s.mayCall p = true) (hlocal : s.isLocalThread p = false)
    (hq : s.queue.step (.append p ⟨f, some s.futures.length⟩) = some q) :
    Step s (.asyncCallReturn p f) { s with queue := q, futures := s.futures ++ [.pending] }
  | write {p q} (hq : s.queue.step (.write (some p)) = some q) :
    Step s (.write p) { s with queue := q }
  | stop {p} (hmay : s.mayCall (some p) = true) :
    Step s (.stop (some p)) { s.setCaller p .stopping with breaking := true }
  | stopLocal : Step s (.stop none) { s with breaking := true }
  | enterJoin {p pc} (hp : s.callers p = .stopping) (hpc : pc = .joining ∨ pc = .free) :
    Step s (.join p) (s.setCaller p pc)
  | join {p} (hp : s.callers p = .joining) (hfinished : s.locThread = some .finished) :
    Step s (.join p) { s.setCaller p .free with locThread := some .joined }
  | destroy {p} (hloop : s.loop = none) (hworker : s.locThread ≠ some .finished) :
    Step s (.destroy p) { s with
      destroyed := true
      futures := breakPromises (s.queue.funcs ++ s.queue.tmp) s.futures }

/-- A step of the handler that leaves the loop where it is. -/
theorem Step.of_onQueue {o : PollOutcome} {l : Option π} {e : Bool} {b : AsyncAction π (Job φ)}
    (hloop : s.loop = some (l, .turn e)) (ht : s.onQueue b = some t)
    (hb : b ∈ [.eventRead, .swap, .call, .clear, .rearm]) : Step s (.loop o) t := by
  obtain ⟨q, hq, rfl⟩ := Option.map_eq_some_iff.1 ht
  have hsame : { s with queue := q } = { s with queue := q, loop := some (l, .turn e) } := by
    rw [← hloop]
  rw [hsame]
  exact .handle hloop hq hb

/-- The body of the loop. -/
theorem Step.of_turnStep {o : PollOutcome} {l : Option π} {e : Bool}
    (hloop : s.loop = some (l, .turn e)) (ht : s.turnStep l e = some t) : Step s (.loop o) t := by
  rw [turnStep] at ht
  split at ht
  · rename_i hpc
    cases e with
    | true =>
      obtain ⟨u, hu, rfl⟩ := Option.map_eq_some_iff.1 ht
      obtain ⟨q, hq, rfl⟩ := Option.map_eq_some_iff.1 hu
      exact .handle hloop hq (by simp)
    | false =>
      obtain rfl := Option.some.inj ht
      exact .endTurn hloop hpc
  · exact .of_onQueue hloop ht (by simp)
  · split at ht
    · exact .of_onQueue hloop ht (by simp)
    · exact .of_onQueue hloop ht (by simp)
  · rename_i i hpc
    obtain ⟨j, hj, ht⟩ := Option.bind_eq_some_iff.1 ht
    obtain ⟨u, hu, rfl⟩ := Option.map_eq_some_iff.1 ht
    obtain ⟨q, hq, rfl⟩ := Option.map_eq_some_iff.1 hu
    exact .ret hloop hpc hj hq
  · exact .of_onQueue hloop ht (by simp)

theorem Step.of_loopStep {o : PollOutcome} (ht : s.loopStep o = some t) : Step s (.loop o) t := by
  rw [loopStep] at ht
  split at ht
  · exact absurd ht (by simp)
  · rename_i l hloop
    obtain rfl := Option.some.inj ht
    exact .ready hloop
  · rename_i l hloop
    obtain ⟨-, ht⟩ := Option.ite_none_right_eq_some.1 ht
    obtain rfl := Option.some.inj ht
    exact .run hloop
  · rename_i l hloop
    obtain rfl := Option.some.inj ht
    exact .test hloop
  · rename_i l hloop
    split at ht <;> obtain rfl := Option.some.inj ht
    · exact .poll hloop (.inl ⟨_, rfl⟩)
    · exact .poll hloop (.inr (.inl rfl))
    · exact .poll hloop (.inr (.inr rfl))
  · rename_i l e hloop
    exact .of_turnStep hloop ht
  · rename_i l hloop
    obtain rfl := Option.some.inj ht
    exact .expired hloop
  · rename_i hloop
    obtain rfl := Option.some.inj ht
    exact .exitWorker hloop
  · rename_i p hloop
    obtain rfl := Option.some.inj ht
    exact .exitLocal hloop

/-- Every step is by one of the rules. -/
theorem Step.of_step (ht : s.step a = some t) : Step s a t := by
  unfold step at ht
  obtain ⟨-, ht⟩ := Option.ite_none_left_eq_some.1 ht
  cases a with
  | runWorker p =>
    obtain ⟨-, ht⟩ := Option.ite_none_right_eq_some.1 ht
    obtain rfl := Option.some.inj ht
    split
    · exact .misuse trivial (by simp)
    · rename_i hloop
      split
      · exact .misuse trivial (by simp)
      · exact .runWorker (Option.not_isSome_iff_eq_none.1 hloop)
  | started p =>
    obtain ⟨⟨hp, -⟩, ht⟩ := Option.ite_none_right_eq_some.1 ht
    obtain rfl := Option.some.inj ht
    exact .started hp
  | runLocal p =>
    obtain ⟨-, ht⟩ := Option.ite_none_right_eq_some.1 ht
    obtain rfl := Option.some.inj ht
    split
    · exact .misuse trivial (by simp)
    · rename_i hloop
      exact .runLocal (Option.not_isSome_iff_eq_none.1 hloop)
  | loop o => exact .of_loopStep ht
  | callback =>
    obtain ⟨-, ht⟩ := Option.ite_none_right_eq_some.1 ht
    obtain rfl := Option.some.inj ht
    exact .callback
  | asyncCall p f =>
    obtain ⟨hmay, ht⟩ := Option.ite_none_right_eq_some.1 ht
    split at ht
    · obtain rfl := Option.some.inj ht
      exact .call
    · rename_i hlocal
      obtain ⟨q, hq, rfl⟩ := Option.map_eq_some_iff.1 ht
      exact .submit hmay (Bool.eq_false_iff.2 hlocal) hq
  | asyncCallReturn p f =>
    obtain ⟨hmay, ht⟩ := Option.ite_none_right_eq_some.1 ht
    split at ht
    · obtain rfl := Option.some.inj ht
      exact .callReturn
    · rename_i hlocal
      obtain ⟨u, hu, rfl⟩ := Option.map_eq_some_iff.1 ht
      obtain ⟨q, hq, rfl⟩ := Option.map_eq_some_iff.1 hu
      exact .submitReturn hmay (Bool.eq_false_iff.2 hlocal) hq
  | write p =>
    obtain ⟨q, hq, rfl⟩ := Option.map_eq_some_iff.1 ht
    exact .write hq
  | stop p =>
    obtain ⟨hmay, ht⟩ := Option.ite_none_right_eq_some.1 ht
    cases p with
    | some p =>
      obtain rfl := Option.some.inj ht
      exact .stop hmay
    | none =>
      obtain rfl := Option.some.inj ht
      exact .stopLocal
  | join p =>
    dsimp only at ht
    split at ht
    · rename_i hp
      obtain rfl := Option.some.inj ht
      refine .enterJoin hp ?_
      split
      · exact .inr rfl
      · split <;> simp
    · rename_i hp
      split at ht
      · rename_i hfinished
        obtain rfl := Option.some.inj ht
        exact .join hp hfinished
      · exact absurd ht (by simp)
      all_goals
        obtain rfl := Option.some.inj ht
        exact .misuse trivial (by simp)
    all_goals exact absurd ht (by simp)
  | destroy p =>
    obtain ⟨-, ht⟩ := Option.ite_none_right_eq_some.1 ht
    obtain rfl := Option.some.inj ht
    split
    · exact .misuse trivial (by simp)
    · rename_i hloop
      split
      · exact .misuse trivial (by simp)
      · rename_i hworker
        exact .destroy (Option.not_isSome_iff_eq_none.1 hloop) hworker

/-! ### The invariant -/

/-- **The invariant** of the threads. -/
structure Inv (s : IoContext π φ) : Prop where
  queue : s.queue.Inv
  /-- The handler is called in the body of the loop. -/
  idle : (∀ l e, s.loop ≠ some (l, .turn e)) → s.queue.pc = .idle
  /-- `m_thread_id` is the thread in the loop. -/
  threadId : ∀ l pc, s.loop = some (l, pc) → pc ≠ .starting → pc ≠ .init → s.threadId = some l
  worker : s.locThread = some .running ↔ ∃ pc, s.loop = some (none, pc)
  breaking : ∀ p, s.callers p = .stopping ∨ s.callers p = .joining → s.breaking
  /-- The thread in the loop never submits to itself. -/
  owes : s.queue.owes none = false

theorem inv_init : (machine π φ).init.Inv where
  queue := AsyncQueue.inv_init
  idle := fun _ ↦ rfl
  threadId := fun l pc h ↦ absurd h (by simp [machine])
  worker := by simp [machine]
  breaking := fun p h ↦ absurd h (by simp [machine])
  owes := rfl

/-- The thread in the loop takes itself for the thread in the loop. -/
theorem Inv.isLocalThread (hs : s.Inv) (hmay : s.mayCall none = true) :
    s.isLocalThread none = true := by
  rcases hloop : s.loop with - | ⟨l, pc⟩
  · simp [mayCall, hloop] at hmay
  · cases pc with
    | turn | expiring =>
      simp only [IoContext.isLocalThread, hloop]
      exact decide_eq_true (hs.threadId l _ hloop (by simp) (by simp))
    | _ => simp [mayCall, hloop] at hmay

omit [DecidableEq π] in
/-- The thread in the loop moves on. -/
theorem Inv.goto {l : Option π} {pc pc' : LoopPc} (hs : s.Inv) (hloop : s.loop = some (l, pc))
    (hidle : (∀ e, pc' ≠ .turn e) → s.queue.pc = .idle)
    (hid : pc' ≠ .starting → pc' ≠ .init → s.threadId = some l) : (s.goto l pc').Inv where
  queue := hs.queue
  idle := fun h ↦ hidle fun e he ↦ h l e (by rw [IoContext.goto, he])
  threadId := fun l' pc'' h ↦ by
    obtain ⟨rfl, rfl⟩ := Prod.mk.inj (Option.some.inj h)
    exact hid
  worker := by
    rw [show (s.goto l pc').locThread = s.locThread from rfl, hs.worker, hloop]
    simp [IoContext.goto]
  breaking := hs.breaking
  owes := hs.owes

omit [DecidableEq π] in
/-- Away from the body of the loop, the handler is not running. -/
theorem Inv.pc_idle {l : Option π} {pc : LoopPc} (hs : s.Inv) (hloop : s.loop = some (l, pc))
    (hpc : ∀ e, pc ≠ .turn e) : s.queue.pc = .idle := by
  refine hs.idle fun l' e h ↦ hpc e ?_
  exact (Prod.mk.inj (Option.some.inj (hloop.symm.trans h))).2

/-- A thread moves on. -/
theorem Inv.setCaller {p : π} {pc : CallerPc} (hs : s.Inv)
    (hpc : pc = .stopping ∨ pc = .joining → s.breaking) : (s.setCaller p pc).Inv where
  queue := hs.queue
  idle := hs.idle
  threadId := hs.threadId
  worker := hs.worker
  breaking := fun p' h ↦ by
    rcases eq_or_ne p' p with rfl | hne
    · rw [callers_setCaller_self] at h
      exact hpc h
    · rw [callers_setCaller_of_ne hne] at h
      exact hs.breaking p' h
  owes := hs.owes

/-- The queue is used. -/
theorem Inv.onQueue {b : AsyncAction π (Job φ)} {q : AsyncQueue π (Job φ)} (hs : s.Inv)
    (hq : s.queue.step b = some q) (hpc : (∀ l e, s.loop ≠ some (l, .turn e)) → q.pc = .idle)
    (howes : q.owes none = false) : Inv { s with queue := q } :=
  ⟨AsyncQueue.inv_step _ _ _ hq hs.queue, hpc, hs.threadId, hs.worker, hs.breaking, howes⟩

/-- A thread other than the one in the loop submits. -/
theorem Inv.submit {p : Option π} {j : Job φ} {q : AsyncQueue π (Job φ)} (hs : s.Inv)
    (hmay : s.mayCall p = true) (hlocal : s.isLocalThread p = false)
    (hq : s.queue.step (.append p j) = some q) : Inv { s with queue := q } := by
  cases p with
  | none => exact absurd (hs.isLocalThread hmay) (by simp [hlocal])
  | some p =>
    refine hs.onQueue hq ?_ ((AsyncQueue.owes_none_of_append hq).trans hs.owes)
    rw [AsyncQueue.append_eq hq]
    exact hs.idle

omit [DecidableEq π] in
theorem Inv.setValue (hs : s.Inv) (j : Job φ) : (s.setValue j).Inv := by
  rw [IoContext.setValue]
  split
  · exact ⟨hs.queue, hs.idle, hs.threadId, hs.worker, hs.breaking, hs.owes⟩
  · split <;> exact ⟨hs.queue, hs.idle, hs.threadId, hs.worker, hs.breaking, hs.owes⟩

theorem inv_step (s : IoContext π φ) (a : ContextAction π φ) (t : IoContext π φ)
    (ht : s.step a = some t) (hs : s.Inv) : t.Inv := by
  cases Step.of_step ht with
  | misuse | destroy | callReturn =>
    exact ⟨hs.queue, hs.idle, hs.threadId, hs.worker, hs.breaking, hs.owes⟩
  | call | callback => exact hs
  | runWorker hloop =>
    have hcaller : ∀ p, (s.setCaller p .starting).Inv := fun p ↦ hs.setCaller (by simp)
    refine ⟨hs.queue, fun _ ↦ hs.idle (by simp [hloop]), ?_, ?_, (hcaller _).breaking, hs.owes⟩
    · exact fun l pc h hpc ↦ absurd (Prod.mk.inj (Option.some.inj h)).2.symm hpc
    · simp
  | started hp => exact hs.setCaller (by simp)
  | runLocal hloop =>
    refine ⟨hs.queue, fun _ ↦ hs.idle (by simp [hloop]), ?_, ?_, hs.breaking, hs.owes⟩
    · exact fun l pc h _ hpc ↦ absurd (Prod.mk.inj (Option.some.inj h)).2.symm hpc
    · rw [hs.worker, hloop]
      simp
  | ready hloop => exact hs.goto hloop (fun _ ↦ hs.pc_idle hloop (by simp)) (by simp)
  | run hloop =>
    refine ⟨hs.queue, fun _ ↦ hs.pc_idle hloop (by simp), ?_, ?_, hs.breaking, hs.owes⟩
    · exact fun l pc h _ _ ↦ congrArg some (Prod.mk.inj (Option.some.inj h)).1
    · show s.locThread = _ ↔ _
      rw [hs.worker, hloop]
      simp [IoContext.goto]
  | test hloop =>
    refine hs.goto hloop (fun _ ↦ hs.pc_idle hloop (by simp)) fun _ _ ↦ ?_
    exact hs.threadId _ _ hloop (by simp) (by simp)
  | poll hloop hpc =>
    refine hs.goto hloop (fun _ ↦ hs.pc_idle hloop (by simp)) fun _ _ ↦ ?_
    exact hs.threadId _ _ hloop (by simp) (by simp)
  | handle hloop hq ha =>
    have howes := (AsyncQueue.handle_frame hq ha).2
    have hqueue := hs.onQueue hq (fun h ↦ absurd hloop (h _ _)) (howes ▸ hs.owes)
    refine hqueue.goto hloop (fun h ↦ absurd rfl (h _)) fun _ _ ↦ ?_
    exact hs.threadId _ _ hloop (by simp) (by simp)
  | ret hloop hpc hj hq =>
    refine (hs.onQueue hq ?_ ?_).setValue _
    · exact fun h ↦ absurd hloop (h _ _)
    · rw [AsyncQueue.ret_eq hpc hq]
      exact hs.owes
  | endTurn hloop hpc =>
    exact hs.goto hloop (fun _ ↦ hpc) fun _ _ ↦ hs.threadId _ _ hloop (by simp) (by simp)
  | expired hloop =>
    refine hs.goto hloop (fun _ ↦ hs.pc_idle hloop (by simp)) fun _ _ ↦ ?_
    exact hs.threadId _ _ hloop (by simp) (by simp)
  | exitWorker hloop =>
    refine ⟨hs.queue, fun _ ↦ hs.pc_idle hloop (by simp), ?_, ?_, hs.breaking, hs.owes⟩
    · exact fun l pc h ↦ absurd h (by simp)
    · simp
  | exitLocal hloop =>
    refine ⟨hs.queue, fun _ ↦ hs.pc_idle hloop (by simp), ?_, ?_, hs.breaking, hs.owes⟩
    · exact fun l pc h ↦ absurd h (by simp)
    · rw [hs.worker, hloop]
      simp
  | submit hmay hlocal hq => exact hs.submit hmay hlocal hq
  | submitReturn hmay hlocal hq =>
    have h := hs.submit hmay hlocal hq
    exact ⟨h.queue, h.idle, h.threadId, h.worker, h.breaking, h.owes⟩
  | write hq =>
    refine hs.onQueue hq ?_ ((AsyncQueue.owes_none_of_write hq).trans hs.owes)
    rw [AsyncQueue.write_eq hq]
    exact hs.idle
  | stop => exact ⟨hs.queue, hs.idle, hs.threadId, hs.worker, fun _ _ ↦ rfl, hs.owes⟩
  | stopLocal => exact ⟨hs.queue, hs.idle, hs.threadId, hs.worker, fun _ _ ↦ rfl, hs.owes⟩
  | enterJoin hp hpc => exact hs.setCaller fun _ ↦ hs.breaking _ (.inl hp)
  | join hp hfinished =>
    have hcaller : ∀ p, (s.setCaller p .free).Inv := fun p ↦ hs.setCaller (by simp)
    refine ⟨hs.queue, hs.idle, hs.threadId, ?_, (hcaller _).breaking, hs.owes⟩
    have hworker := hs.worker
    rw [hfinished] at hworker
    show _ ↔ ∃ pc, s.loop = some (none, pc)
    simpa using hworker

/-! ### A context that has been stopped -/

/-- The loop will not be entered again. -/
structure Frozen (s : IoContext π φ) : Prop where
  breaking : s.breaking = true
  pc : s.queue.pc = .idle
  outside : ∀ l pc, s.loop = some (l, pc) → pc ≠ .polling ∧ ∀ e, pc ≠ .turn e

/-- From `s` to `t` no function of the queue has run, and no future has become ready. -/
structure Unrun (s t : IoContext π φ) : Prop where
  executed : t.queue.executed = s.queue.executed
  returned : t.returned = s.returned
  futures : ∀ (n : ℕ) (x : FutureState), s.futures[n]? = some x → x ≠ .ready →
    ∃ y, t.futures[n]? = some y ∧ y ≠ .ready

omit [DecidableEq π] in
theorem Unrun.of_eq (hexecuted : t.queue.executed = s.queue.executed)
    (hreturned : t.returned = s.returned) (hfutures : s.futures <+: t.futures) : Unrun s t := by
  obtain ⟨new, hnew⟩ := hfutures
  refine ⟨hexecuted, hreturned, fun n x hx hne ↦ ⟨x, ?_, hne⟩⟩
  rw [← hnew, List.getElem?_append_left (List.getElem?_eq_some_iff.1 hx).1, hx]

omit [DecidableEq π] in
theorem Unrun.trans {u : IoContext π φ} (h₁ : Unrun s t) (h₂ : Unrun t u) : Unrun s u where
  executed := h₂.executed.trans h₁.executed
  returned := h₂.returned.trans h₁.returned
  futures := fun n x hx hne ↦ by
    obtain ⟨y, hy, hne⟩ := h₁.futures n x hx hne
    exact h₂.futures n y hy hne

/-- What the destruction does to the futures. -/
theorem getElem?_breakPromises (js : List (Job φ)) (futures : List FutureState) (n : ℕ) :
    (breakPromises js futures)[n]? = if n ∈ js.filterMap Job.promise then
      futures[n]?.map fun x ↦ if x = .pending then .broken else x
    else futures[n]? := by
  rw [breakPromises]
  induction js.filterMap Job.promise generalizing futures with
  | nil => simp
  | cons m ms ih =>
    rw [List.foldl_cons, ih, List.getElem?_modify]
    rcases eq_or_ne m n with rfl | hne
    · rw [if_pos List.mem_cons_self]
      rcases hn : futures[m]? with - | x
      · simp
      · cases x <;> simp
    · simp [hne, hne.symm]

/-- What a step of a stopped context does. -/
theorem Frozen.step (hs : s.Frozen) (ht : s.step a = some t) : t.Frozen ∧ Unrun s t := by
  cases Step.of_step ht with
  | misuse | started | enterJoin | join =>
    exact ⟨⟨hs.breaking, hs.pc, hs.outside⟩, .of_eq rfl rfl (List.prefix_refl _)⟩
  | stop | stopLocal => exact ⟨⟨rfl, hs.pc, hs.outside⟩, .of_eq rfl rfl (List.prefix_refl _)⟩
  | call | callback => exact ⟨hs, .of_eq rfl rfl (List.prefix_refl _)⟩
  | callReturn =>
    exact ⟨⟨hs.breaking, hs.pc, hs.outside⟩, .of_eq rfl rfl (List.prefix_append _ _)⟩
  | runWorker | runLocal =>
    refine ⟨⟨hs.breaking, hs.pc, fun l pc h ↦ ?_⟩, .of_eq rfl rfl (List.prefix_refl _)⟩
    obtain ⟨-, rfl⟩ := Prod.mk.inj (Option.some.inj h)
    simp
  | ready | run | expired =>
    refine ⟨⟨hs.breaking, hs.pc, fun l pc h ↦ ?_⟩, .of_eq rfl rfl (List.prefix_refl _)⟩
    obtain ⟨-, rfl⟩ := Prod.mk.inj (Option.some.inj h)
    simp
  -- the loop is left at its head
  | test =>
    refine ⟨⟨hs.breaking, hs.pc, fun l pc h ↦ ?_⟩, .of_eq rfl rfl (List.prefix_refl _)⟩
    obtain ⟨-, rfl⟩ := Prod.mk.inj (Option.some.inj h)
    simp [hs.breaking]
  | poll hloop => exact absurd rfl (hs.outside _ _ hloop).1
  | handle hloop | ret hloop | endTurn hloop => exact absurd rfl ((hs.outside _ _ hloop).2 _)
  | exitWorker | exitLocal =>
    exact ⟨⟨hs.breaking, hs.pc, fun l pc h ↦ absurd h (by simp)⟩,
      .of_eq rfl rfl (List.prefix_refl _)⟩
  | submit hmay hlocal hq =>
    rw [AsyncQueue.append_eq hq]
    exact ⟨⟨hs.breaking, hs.pc, hs.outside⟩, .of_eq rfl rfl (List.prefix_refl _)⟩
  | submitReturn hmay hlocal hq =>
    rw [AsyncQueue.append_eq hq]
    exact ⟨⟨hs.breaking, hs.pc, hs.outside⟩, .of_eq rfl rfl (List.prefix_append _ _)⟩
  | write hq =>
    rw [AsyncQueue.write_eq hq]
    exact ⟨⟨hs.breaking, hs.pc, hs.outside⟩, .of_eq rfl rfl (List.prefix_refl _)⟩
  | destroy =>
    refine ⟨⟨hs.breaking, hs.pc, hs.outside⟩, rfl, rfl, fun n x hx hne ↦ ?_⟩
    have hget := getElem?_breakPromises (s.queue.funcs ++ s.queue.tmp) s.futures n
    rw [hx, Option.map_some] at hget
    split at hget
    · refine ⟨_, hget, ?_⟩
      split
      · simp
      · exact hne
    · exact ⟨x, hget, hne⟩

theorem Frozen.run {bs : List (ContextAction π φ)} (hs : s.Frozen)
    (ht : (machine π φ).runFrom s bs = some t) : Unrun s t := by
  have hinv : t.Frozen ∧ Unrun s t := Machine.runFrom_invariant (P := fun u ↦ u.Frozen ∧ Unrun s u)
    (fun u a v hv hu ↦ ⟨(hu.1.step hv).1, hu.2.trans (hu.1.step hv).2⟩)
    ⟨hs, .of_eq rfl rfl (List.prefix_refl _)⟩ ht
  exact hinv.2

/-- Only a thread in `stop` waits for the worker. -/
theorem callers_of_join {p : π} (ht : s.step (.join p) = some t) :
    s.callers p = .stopping ∨ s.callers p = .joining := by
  rw [step] at ht
  obtain ⟨-, ht⟩ := Option.ite_none_left_eq_some.1 ht
  split at ht
  · exact .inl ‹_›
  · exact .inr ‹_›
  all_goals exact absurd ht (by simp)

/-- When the worker has been joined, and nobody is in `run_local`, the loop is not entered again. -/
theorem Inv.frozen_of_join {p : π} (hs : s.Inv) (ht : s.step (.join p) = some t)
    (hjoined : t.locThread = some .joined) (hlocal : ∀ q pc, t.loop ≠ some (some q, pc)) :
    t.Frozen := by
  have hinv := inv_step s _ t ht hs
  have hloop : t.loop = none := by
    rcases hloop : t.loop with - | ⟨- | q, pc⟩
    · rfl
    · exact absurd (hjoined.symm.trans (hinv.worker.2 ⟨pc, hloop⟩)) (by simp)
    · exact absurd hloop (hlocal q pc)
  have hbreaking : s.breaking = true := hs.breaking p (callers_of_join ht)
  refine ⟨?_, hinv.idle (by simp [hloop]), fun l pc h ↦ absurd (hloop.symm.trans h) (by simp)⟩
  cases Step.of_step ht with
  | misuse | enterJoin | join => exact hbreaking

end IoContext

/-- **Nothing runs after `stop`.** A thread has come back from `stop`, and the worker was joined, by
it or by another. Whatever the threads do from then on, and also if the loop is started again, the
functions of the queue that have not run by then never run, and their futures never become ready. -/
theorem stop_final {π φ : Type*} [DecidableEq π] {s t u : IoContext π φ} {p : π}
    {bs : List (ContextAction π φ)} (hs : (IoContext.machine π φ).Reachable s)
    (ht : s.step (.join p) = some t) (hjoined : t.locThread = some .joined)
    (hlocal : ∀ q pc, t.loop ≠ some (some q, pc))
    (hu : (IoContext.machine π φ).runFrom t bs = some u) : IoContext.Unrun t u := by
  have hinv : s.Inv := hs.invariant IoContext.inv_init IoContext.inv_step
  exact (hinv.frozen_of_join ht hjoined hlocal).run hu

/-- Stop while a function is in the queue and another one comes later. -/
def stopActions : List (ContextAction Unit Unit) :=
  [.runWorker (), .loop .interrupted, .started (), .loop .interrupted, .loop .interrupted,
    .asyncCallReturn (some ()) (), .write (), .loop (.events true), .loop .failed, .loop .failed,
    .asyncCallReturn (some ()) (), .write (), .stop (some ()), .join (), .loop .failed,
    .loop .failed, .loop .failed, .loop .failed, .loop .failed, .callback, .loop .failed,
    .loop .failed, .loop .failed]

/-- The context before the worker is joined. -/
def stoppedContext : IoContext Unit Unit :=
  ((IoContext.machine Unit Unit).run stopActions).getD {}

/-- The context afterwards. -/
def joinedContext : IoContext Unit Unit := (stoppedContext.step (.join ())).getD {}

/-- The context is used and started again. -/
def laterActions : List (ContextAction Unit Unit) :=
  [.asyncCallReturn (some ()) (), .write (), .runWorker (), .loop .failed, .loop .failed,
    .loop .failed, .loop .failed]

def laterContext : IoContext Unit Unit :=
  ((IoContext.machine Unit Unit).runFrom joinedContext laterActions).getD {}

/-- The first of three functions has run, and a second worker does not run the others. -/
theorem stop_final_second_worker :
    laterContext.queue.appended.length = 3 ∧ joinedContext.queue.executed.length = 1 ∧
      IoContext.Unrun joinedContext laterContext := by
  have hs : (IoContext.machine Unit Unit).Reachable stoppedContext := ⟨stopActions, rfl⟩
  have ht : stoppedContext.step (.join ()) = some joinedContext := rfl
  have hloop : joinedContext.loop = none := rfl
  have hu : (IoContext.machine Unit Unit).runFrom joinedContext laterActions =
      some laterContext := rfl
  exact ⟨rfl, rfl, stop_final hs ht rfl (fun _ _ h ↦ absurd (hloop.symm.trans h) (by simp)) hu⟩

/-- **While a thread is in the loop, no other is taken for it**: `is_local_thread` is true on the
thread in the loop and false on every other, so `async_call` runs a function where it is only on the
thread in the loop. -/
theorem isLocalThread_iff {π φ : Type*} [DecidableEq π] {s : IoContext π φ}
    (hs : (IoContext.machine π φ).Reachable s) {l : Option π} {pc : LoopPc}
    (hloop : s.loop = some (l, pc)) (hpc : pc ≠ .starting ∧ pc ≠ .init) :
    s.isLocalThread none = true ∧ ∀ p, s.isLocalThread (some p) = true ↔ l = some p := by
  have hinv : s.Inv := hs.invariant IoContext.inv_init IoContext.inv_step
  have hid := hinv.threadId l pc hloop hpc.1 hpc.2
  refine ⟨?_, fun p ↦ ?_⟩
  · simp only [IoContext.isLocalThread, hloop]
    exact decide_eq_true hid
  · simp [IoContext.isLocalThread, hid]

/-- The first of two threads runs the loop itself. -/
def localContext : IoContext (Fin 2) Unit :=
  ((IoContext.machine (Fin 2) Unit).run [.runLocal 0, .loop .failed]).getD {}

theorem isLocalThread_iff_runLocal :
    localContext.isLocalThread (some 0) = true ∧ localContext.isLocalThread (some 1) ≠ true := by
  have hs : (IoContext.machine (Fin 2) Unit).Reachable localContext :=
    ⟨[.runLocal 0, .loop .failed], rfl⟩
  have hiff := (isLocalThread_iff hs (l := some 0) rfl ⟨by simp, by simp⟩).2
  exact ⟨(hiff 0).2 rfl, fun h ↦ absurd ((hiff 1).1 h) (by decide)⟩

end Nsio
