import Nsio.Foundations.Machine

/-!
# Disk requests: submitting, completing, reaping

The model of `io_aio_impl` of `fd_aio.cpp` together with the kernel's side of its context: requests
in flight, a ring of completed ones, and the counter of the event descriptor. A completion is two
steps of the kernel, into the ring and then onto the counter, at any moment.

The loop's thread is a stack of frames, because a callback run by `fetch_events` may submit, and a
submission that the kernel refuses for lack of room calls `fetch_events` again. The model leaves the
kernel free to refuse or not, at any time.

## Two views of one completion

The counter and the ring are updated apart, so the model counts both: `consumed` is the number of
signals the handler has read off the counter, `reaped` the number of completions `io_getevents` has
handed out. Whenever no more was reaped than consumed, a positive counter means that the ring holds
something (`Inv.ring_pos`). `io_getevents` does not keep to that: it hands out whatever is in the
ring, with or without its signal read. And `submit` takes `EAGAIN` as a sign that something is
outstanding, which is for the kernel to keep. `KernelInOrder` is the condition on both.
-/

namespace Nsio

/-- `_max_events`. -/
def maxEvents : ℕ := 256

/-- A frame of the loop's thread inside `io_aio_impl`, for requests `ρ`. -/
inductive AioFrame (ρ : Type*)
  /-- In the loop of `submit`, before `io_submit`. -/
  | submit (r : ρ)
  /-- In `fetch_events`, inside `io_getevents`. -/
  | fetch
  /-- In `fetch_events` after `io_getevents` returned `rc`, with callbacks still to run. -/
  | callbacks (rest : List ρ) (rc : ℕ)
  /-- In `on_file_event`, after `fetch_events`. -/
  | handler
  deriving DecidableEq, Repr

/-- The context and the thread that uses it. -/
structure Aio (ρ : Type*) where
  /-- Submitted and not completed. -/
  inflight : List ρ := []
  /-- Completed and not reaped, oldest first. -/
  ring : List ρ := []
  /-- Completions in the ring, or reaped from it, that the counter does not count yet. -/
  unsignalled : ℕ := 0
  /-- The counter of `_efd`. -/
  counter : ℕ := 0
  /-- `_req`. -/
  req : ℕ := 0
  /-- `_res`. -/
  res : ℕ := 0
  /-- The loop's thread, innermost call first. -/
  stack : List (AioFrame ρ) := []
  /-- The requests whose `on_aio_event` was called, in order. -/
  delivered : List ρ := []
  /-- Signals read off the counter. -/
  consumed : ℕ := 0
  /-- Completions handed out by `io_getevents`. -/
  reaped : ℕ := 0
  deriving DecidableEq, Repr

/-- The steps of the kernel and of the loop's thread. -/
inductive AioAction (ρ : Type*)
  /-- The kernel completes the request at an index of the requests in flight. -/
  | complete (i : ℕ)
  /-- The kernel adds an outstanding completion to the counter. -/
  | signal
  /-- Code on the loop's thread, a callback included, calls `submit`. -/
  | submit (r : ρ)
  /-- `io_submit` takes the request. -/
  | accepted
  /-- `io_submit` fails with `EAGAIN`. -/
  | refused
  /-- `io_submit` fails in another way, and is called again. -/
  | submitAgain
  /-- `on_file_event` is called and reads the counter. -/
  | event
  /-- `io_getevents` returns `n` completions. -/
  | getevents (n : ℕ)
  /-- `io_getevents` fails, and is called again. -/
  | geteventsAgain
  /-- `on_aio_event` of the next completion is called. -/
  | deliver
  /-- `_res += rc`, and `fetch_events` returns. -/
  | fetched
  /-- `es._func_r = this`, and `on_file_event` returns. -/
  | rearm
  deriving DecidableEq, Repr

namespace Aio

variable {ρ : Type*}

/-- The submitted requests that have not been reaped. -/
def outstanding (s : Aio ρ) : ℕ := s.inflight.length + s.ring.length

/-- `submit` can be called outside the object and from inside a callback. -/
def canSubmit (s : Aio ρ) : Bool :=
  match s.stack with
  | [] => true
  | .callbacks rest rc :: _ => decide (rest.length < rc)
  | _ => false

/-- One step. -/
def step (s : Aio ρ) : AioAction ρ → Option (Aio ρ)
  | .complete i => (s.inflight[i]?).map fun r ↦
    { s with
      inflight := s.inflight.eraseIdx i
      ring := s.ring ++ [r]
      unsignalled := s.unsignalled + 1 }
  | .signal =>
    if 0 < s.unsignalled then
      some { s with unsignalled := s.unsignalled - 1, counter := s.counter + 1 }
    else none
  | .submit r => if s.canSubmit then some { s with stack := .submit r :: s.stack } else none
  | .accepted =>
    match s.stack with
    | .submit r :: stack =>
      some { s with inflight := s.inflight ++ [r], req := s.req + 1, stack := stack }
    | _ => none
  -- `EAGAIN`: `submit` reaps before it tries again
  | .refused =>
    match s.stack with
    | .submit r :: stack => some { s with stack := .fetch :: .submit r :: stack }
    | _ => none
  | .submitAgain =>
    match s.stack with
    | .submit _ :: _ => some s
    | _ => none
  -- reading the eventfd returns its counter and resets it
  | .event =>
    match s.stack with
    | [] =>
      if 0 < s.counter then
        some { s with
          counter := 0
          consumed := s.consumed + s.counter
          stack := [.fetch, .handler] }
      else none
    | _ => none
  | .getevents n =>
    match s.stack with
    | .fetch :: stack =>
      if 1 ≤ n ∧ n ≤ maxEvents ∧ n ≤ s.ring.length then
        some { s with
          ring := s.ring.drop n
          reaped := s.reaped + n
          stack := .callbacks (s.ring.take n) n :: stack }
      else none
    | _ => none
  | .geteventsAgain =>
    match s.stack with
    | .fetch :: _ => some s
    | _ => none
  | .deliver =>
    match s.stack with
    | .callbacks (r :: rest) rc :: stack =>
      some { s with delivered := s.delivered ++ [r], stack := .callbacks rest rc :: stack }
    | _ => none
  -- `_res` is increased only after the last callback of the batch
  | .fetched =>
    match s.stack with
    | .callbacks [] rc :: stack => some { s with res := s.res + rc, stack := stack }
    | _ => none
  | .rearm =>
    match s.stack with
    | [.handler] => some { s with stack := [] }
    | _ => none

end Aio

/-- The runs of a fresh context. -/
def Aio.machine (ρ : Type*) : Machine (Aio ρ) (AioAction ρ) where
  init := {}
  step := step

namespace Aio

variable {ρ : Type*} {s t : Aio ρ}

/-! ### What a step can do -/

/-- The handler reads the counter and enters `io_getevents`. -/
def afterEvent (s : Aio ρ) : Aio ρ :=
  { s with counter := 0, consumed := s.consumed + s.counter, stack := [.fetch, .handler] }

/-- `io_getevents` hands out `n` completions. -/
def afterGetevents (s : Aio ρ) (n : ℕ) (stack : List (AioFrame ρ)) : Aio ρ :=
  { s with
    ring := s.ring.drop n
    reaped := s.reaped + n
    stack := .callbacks (s.ring.take n) n :: stack }

/-- The steps as a relation, one rule for each action with what it needs. -/
inductive Step (s : Aio ρ) : AioAction ρ → Aio ρ → Prop
  | complete {i : ℕ} {r : ρ} (hr : s.inflight[i]? = some r) :
    Step s (.complete i) { s with
      inflight := s.inflight.eraseIdx i
      ring := s.ring ++ [r]
      unsignalled := s.unsignalled + 1 }
  | signal (hpos : 0 < s.unsignalled) :
    Step s .signal { s with unsignalled := s.unsignalled - 1, counter := s.counter + 1 }
  | submit {r : ρ} (hcan : s.canSubmit = true) :
    Step s (.submit r) { s with stack := .submit r :: s.stack }
  | accepted {r : ρ} {stack : List (AioFrame ρ)} (hstack : s.stack = .submit r :: stack) :
    Step s .accepted { s with inflight := s.inflight ++ [r], req := s.req + 1, stack := stack }
  | refused {r : ρ} {stack : List (AioFrame ρ)} (hstack : s.stack = .submit r :: stack) :
    Step s .refused { s with stack := .fetch :: .submit r :: stack }
  | submitAgain {r : ρ} {stack : List (AioFrame ρ)} (hstack : s.stack = .submit r :: stack) :
    Step s .submitAgain s
  | event (hstack : s.stack = []) (hpos : 0 < s.counter) : Step s .event s.afterEvent
  | getevents {n : ℕ} {stack : List (AioFrame ρ)} (hstack : s.stack = .fetch :: stack)
    (hn : 1 ≤ n ∧ n ≤ maxEvents ∧ n ≤ s.ring.length) :
    Step s (.getevents n) (s.afterGetevents n stack)
  | geteventsAgain {stack : List (AioFrame ρ)} (hstack : s.stack = .fetch :: stack) :
    Step s .geteventsAgain s
  | deliver {r : ρ} {rest : List ρ} {rc : ℕ} {stack : List (AioFrame ρ)}
    (hstack : s.stack = .callbacks (r :: rest) rc :: stack) :
    Step s .deliver { s with
      delivered := s.delivered ++ [r]
      stack := .callbacks rest rc :: stack }
  | fetched {rc : ℕ} {stack : List (AioFrame ρ)} (hstack : s.stack = .callbacks [] rc :: stack) :
    Step s .fetched { s with res := s.res + rc, stack := stack }
  | rearm (hstack : s.stack = [.handler]) : Step s .rearm { s with stack := [] }

/-- Every step is by one of the rules. -/
theorem Step.of_step {a : AioAction ρ} (ht : s.step a = some t) : Step s a t := by
  cases a with
  | complete i =>
    obtain ⟨r, hr, rfl⟩ := Option.map_eq_some_iff.1 ht
    exact .complete hr
  | signal | submit r =>
    rw [step] at ht
    split at ht
    · rename_i h
      obtain rfl := Option.some.inj ht
      constructor
      exact h
    · exact absurd ht (by simp)
  | accepted | refused | submitAgain | geteventsAgain | deliver | fetched | rearm =>
    rw [step] at ht
    split at ht
    · rename_i hstack
      obtain rfl := Option.some.inj ht
      constructor
      exact hstack
    · exact absurd ht (by simp)
  -- the rules with a condition beside the shape of the stack
  | event | getevents n =>
    rw [step] at ht
    split at ht
    · rename_i hstack
      split at ht
      · rename_i h
        obtain rfl := Option.some.inj ht
        constructor <;> assumption
      · exact absurd ht (by simp)
    · exact absurd ht (by simp)

/-- The kernel moves one completion, and leaves the thread alone. -/
structure KernelStep (s t : Aio ρ) : Prop where
  stack_eq : t.stack = s.stack
  consumed_eq : t.consumed = s.consumed
  reaped_eq : t.reaped = s.reaped
  outstanding_eq : t.outstanding = s.outstanding
  signals_eq : t.counter + t.unsignalled + s.ring.length = s.counter + s.unsignalled + t.ring.length

/-- The thread goes on without reading the counter or reaping. When that brings it into
`io_getevents`, the kernel has just refused a request. -/
structure QuietStep (s : Aio ρ) (a : AioAction ρ) (t : Aio ρ) : Prop where
  ring_eq : t.ring = s.ring
  counter_eq : t.counter = s.counter
  unsignalled_eq : t.unsignalled = s.unsignalled
  consumed_eq : t.consumed = s.consumed
  reaped_eq : t.reaped = s.reaped
  fetch_innermost : .fetch ∉ t.stack.tail
  fetch : t.stack.head? = some .fetch → a = .refused ∧ t.outstanding = s.outstanding

theorem KernelStep.of_complete {i : ℕ} {r : ρ} (hr : s.inflight[i]? = some r) :
    KernelStep s { s with
      inflight := s.inflight.eraseIdx i
      ring := s.ring ++ [r]
      unsignalled := s.unsignalled + 1 } := by
  have hlt : i < s.inflight.length := (List.getElem?_eq_some_iff.1 hr).1
  have hlen := List.length_eraseIdx_of_lt hlt
  refine ⟨rfl, rfl, rfl, ?_, ?_⟩ <;>
    simp only [outstanding, List.length_append, List.length_singleton] <;> omega

/-- The thread calls, or returns from, something other than `io_getevents`. -/
theorem QuietStep.of_stack {a : AioAction ρ} {stack : List (AioFrame ρ)}
    (htail : .fetch ∉ stack.tail) (hhead : stack.head? = some .fetch → a = .refused) :
    QuietStep s a { s with stack := stack } :=
  ⟨rfl, rfl, rfl, rfl, rfl, htail, fun h ↦ ⟨hhead h, rfl⟩⟩

/-- Returning to a caller is not entering `io_getevents`: that call is always the innermost. -/
theorem head?_ne_fetch {f : AioFrame ρ} {stack : List (AioFrame ρ)}
    (htop : .fetch ∉ (f :: stack).tail) : stack.head? ≠ some .fetch :=
  fun hhead ↦ htop (List.mem_of_mem_head? hhead)

theorem not_mem_tail {f : AioFrame ρ} {stack : List (AioFrame ρ)}
    (htop : .fetch ∉ (f :: stack).tail) : .fetch ∉ stack.tail :=
  fun hmem ↦ htop (List.mem_of_mem_tail hmem)

/-- The caller of `submit` is outside the object or a callback, so it is not in `io_getevents`. -/
theorem fetch_notMem_of_canSubmit (hcan : s.canSubmit = true) (htop : .fetch ∉ s.stack.tail) :
    .fetch ∉ s.stack := by
  intro hmem
  rw [canSubmit] at hcan
  split at hcan
  · rename_i hnil
    rw [hnil] at hmem
    exact absurd hmem (by simp)
  · rename_i hstack
    rw [hstack] at hmem htop
    exact htop (by simpa using hmem)
  · exact absurd hcan (by simp)

/-- **What a step can do.** -/
theorem step_cases {a : AioAction ρ} (ht : s.step a = some t) (htop : .fetch ∉ s.stack.tail) :
    KernelStep s t ∨ QuietStep s a t ∨ t = s ∨
      (a = .event ∧ 0 < s.counter ∧ t = s.afterEvent) ∨
      (∃ n stack, a = .getevents n ∧ s.stack = .fetch :: stack ∧ n ≤ s.ring.length ∧
        t = s.afterGetevents n stack) := by
  cases Step.of_step ht with
  | complete hr => exact .inl (.of_complete hr)
  | signal hpos => exact .inl ⟨rfl, rfl, rfl, rfl, by dsimp only; omega⟩
  | submit hcan =>
    have hout := fetch_notMem_of_canSubmit hcan htop
    exact .inr (.inl (.of_stack hout fun h ↦ absurd h (by simp)))
  | accepted hstack | fetched hstack =>
    rw [hstack] at htop
    exact .inr (.inl ⟨rfl, rfl, rfl, rfl, rfl, not_mem_tail htop,
      fun h ↦ absurd h (head?_ne_fetch htop)⟩)
  -- the only step that puts `fetch_events` on the stack outside an event
  | refused hstack =>
    rw [hstack] at htop
    refine .inr (.inl (.of_stack (fun hmem ↦ htop ?_) fun _ ↦ rfl))
    simpa using hmem
  | submitAgain | geteventsAgain => exact .inr (.inr (.inl rfl))
  | event hstack hpos => exact .inr (.inr (.inr (.inl ⟨rfl, hpos, rfl⟩)))
  | getevents hstack hn => exact .inr (.inr (.inr (.inr ⟨_, _, rfl, hstack, hn.2.2, rfl⟩)))
  | deliver hstack =>
    rw [hstack] at htop
    exact .inr (.inl ⟨rfl, rfl, rfl, rfl, rfl, htop, fun h ↦ absurd h (by simp)⟩)
  | rearm => exact .inr (.inl (.of_stack (by simp) fun h ↦ absurd h (by simp)))

/-! ### The accounts -/

/-- What is true of every run: a completion has been signalled and read, signalled, or neither, and
it has been reaped or is in the ring; and `io_getevents` is the innermost call when it is called at
all. -/
structure Accounted (s : Aio ρ) : Prop where
  signals_eq : s.consumed + s.counter + s.unsignalled = s.reaped + s.ring.length
  fetch_innermost : .fetch ∉ s.stack.tail

theorem accounted_init : (machine ρ).init.Accounted := ⟨rfl, by simp [machine]⟩

theorem accounted_step (s : Aio ρ) (a : AioAction ρ) (t : Aio ρ) (ht : s.step a = some t)
    (hs : s.Accounted) : t.Accounted := by
  have hsig := hs.signals_eq
  have htop := hs.fetch_innermost
  obtain hk | hq | rfl | ⟨-, -, rfl⟩ | ⟨n, stack, -, hstack, hn, rfl⟩ := step_cases ht htop
  · refine ⟨?_, hk.stack_eq ▸ htop⟩
    have := hk.signals_eq
    rw [hk.consumed_eq, hk.reaped_eq]
    omega
  · refine ⟨?_, hq.fetch_innermost⟩
    rw [hq.consumed_eq, hq.counter_eq, hq.unsignalled_eq, hq.reaped_eq, hq.ring_eq, hsig]
  · exact hs
  · exact ⟨hsig, by simp [afterEvent]⟩
  · rw [hstack] at htop
    refine ⟨?_, htop⟩
    simp only [afterGetevents, List.length_drop]
    omega

/-- The condition on the kernel's replies. No completion is reaped ahead of its signal: what
`io_getevents` has handed out in all is no more than what was read off the counter. And `io_submit`
answers `EAGAIN` only while a request has not been reaped. -/
def KernelInOrder (s : Aio ρ) : AioAction ρ → Prop
  | .getevents n => s.reaped + n ≤ s.consumed
  | .refused => 0 < s.outstanding
  | _ => True

/-- `io_getevents` is called only while a request is outstanding. -/
def NeverStuck (s : Aio ρ) : Prop := s.stack.head? = some .fetch → 0 < s.outstanding

/-- What is true as long as the kernel is in order. -/
structure Inv (s : Aio ρ) : Prop extends Accounted s where
  reaped_le : s.reaped ≤ s.consumed
  neverStuck : s.NeverStuck

theorem inv_init : (machine ρ).init.Inv :=
  ⟨accounted_init, Nat.le_refl 0, fun h ↦ absurd h (by simp [machine])⟩

/-- A positive counter stands for a completion in the ring. -/
theorem Inv.ring_pos (hs : s.Inv) (hc : 0 < s.counter) : 0 < s.ring.length := by
  have := hs.signals_eq
  have := hs.reaped_le
  omega

theorem inv_step (s : Aio ρ) (a : AioAction ρ) (t : Aio ρ) (ht : s.step a = some t)
    (ha : s.KernelInOrder a) (hs : s.Inv) : t.Inv := by
  refine ⟨accounted_step s a t ht hs.toAccounted, ?_, ?_⟩
  all_goals
    obtain hk | hq | rfl | ⟨-, hc, rfl⟩ | ⟨n, stack, rfl, -, -, rfl⟩ :=
      step_cases ht hs.fetch_innermost
  · rw [hk.reaped_eq, hk.consumed_eq]
    exact hs.reaped_le
  · rw [hq.reaped_eq, hq.consumed_eq]
    exact hs.reaped_le
  · exact hs.reaped_le
  · exact Nat.le_trans hs.reaped_le (Nat.le_add_right _ _)
  · exact ha
  · rw [NeverStuck, hk.stack_eq, hk.outstanding_eq]
    exact hs.neverStuck
  · intro hfetch
    obtain ⟨rfl, hout⟩ := hq.fetch hfetch
    exact hout ▸ ha
  · exact hs.neverStuck
  · intro _
    exact Nat.lt_of_lt_of_le (hs.ring_pos hc) (Nat.le_add_left _ _)
  · exact fun h ↦ absurd h (by simp [afterGetevents])

end Aio

/-- **`io_getevents` is never called with nothing outstanding**, in every run in which no completion
is reaped ahead of its signal and `EAGAIN` comes only while a request has not been reaped, for any
interleaving of the kernel with the loop's thread. -/
theorem aio_neverStuck (ρ : Type*) {as : List (AioAction ρ)}
    (has : (Aio.machine ρ).StepsMeet Aio.KernelInOrder as) :
    (Aio.machine ρ).Throughout Aio.NeverStuck as :=
  (Machine.throughout_of_stepsMeet Aio.inv_init Aio.inv_step has).mono fun _ hs ↦ hs.neverStuck

/-- A request that is signalled before it is reaped, and whose callback submits another, for which
there is no room at first, while a third is in flight. -/
theorem aio_neverStuck_refused_once :
    (Aio.machine ℕ).Throughout Aio.NeverStuck
      [.submit 1, .accepted, .submit 3, .accepted, .complete 0, .signal, .event, .complete 0,
        .getevents 1, .deliver, .submit 2, .refused] := by
  refine aio_neverStuck ℕ ?_
  refine .cons rfl trivial (.cons rfl trivial (.cons rfl trivial (.cons rfl trivial ?_)))
  refine .cons rfl trivial (.cons rfl trivial (.cons rfl trivial (.cons rfl trivial ?_)))
  refine .cons rfl (Nat.le_refl 1) (.cons rfl trivial (.cons rfl trivial ?_))
  exact .cons rfl (Nat.le_refl 1) trivial

/-- Two requests, the second of which completes between the read of the counter and
`io_getevents`: both are reaped, the signal of the second arrives, and the handler it calls waits
for a third. And a first request that is answered by `EAGAIN`. -/
theorem aio_stuck_after_early_reap :
    (¬ (Aio.machine ℕ).Throughout Aio.NeverStuck
      [.submit 1, .accepted, .submit 2, .accepted, .complete 0, .signal, .event, .complete 0,
        .getevents 2, .deliver, .deliver, .fetched, .rearm, .signal, .event]) ∧
      ¬ (Aio.machine ℕ).Throughout Aio.NeverStuck [.submit 1, .refused] := by
  refine ⟨fun h ↦ ?_, fun h ↦ ?_⟩
  · exact absurd (h.last rfl rfl) (by decide)
  · exact absurd (h.last rfl rfl) (by decide)

/-- When everything has been reaped and signalled, the handler is called again exactly when some
completion was reaped ahead of its signal, and that call waits for nothing. -/
theorem aio_stuck_iff_early_reap {ρ : Type*} {s : Aio ρ} (hs : (Aio.machine ρ).Reachable s)
    (hidle : s.stack = []) (hnone : s.outstanding = 0) (hsig : s.unsignalled = 0) :
    (∃ t, s.step .event = some t ∧ ¬ t.NeverStuck) ↔ s.consumed < s.reaped := by
  have hacc : s.Accounted := hs.invariant Aio.accounted_init Aio.accounted_step
  have hsignals := hacc.signals_eq
  have hring : s.ring.length = 0 := by rw [Aio.outstanding] at hnone; omega
  rw [hsig, hring] at hsignals
  constructor
  · rintro ⟨t, ht, -⟩
    rw [Aio.step, hidle] at ht
    dsimp only at ht
    split at ht
    · omega
    · exact absurd ht (by simp)
  · intro hlt
    refine ⟨s.afterEvent, ?_, fun hnever ↦ ?_⟩
    · rw [Aio.step, hidle]
      exact if_pos (by omega)
    · have hpos : 0 < s.outstanding := hnever rfl
      omega

end Nsio
