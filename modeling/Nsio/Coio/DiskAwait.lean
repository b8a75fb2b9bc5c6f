import Nsio.Coio.AioAccounting
import Mathlib.Data.Fintype.Card

/-!
# Coroutines that wait for the disk

The model of `co_await aio_read_block(..)` and `co_await aio_write_block(..)` of `fio_awaiter.h`,
over the context of `Coio.Aio`. The constructor of the awaiter submits the request, and the
submission may run callbacks of other requests, which resume other coroutines, which submit again:
all this is inside the constructor, before the awaiter knows which coroutine it is for. After the
constructor `await_suspend` stores the handle, and `on_aio_event` resumes it.

A coroutine here is a chain of tasks that await each other, of which the innermost is resumed
(`Coio.TaskCalls`). What it does between its disk awaits is not the subject: it may end, wait for
something else and be resumed from there (`leave`, `enter`), and start other coroutines.

The event the kernel is going to make of a request is part of the request from the beginning.
Nothing looks at it before the completion is delivered.

## What carries the argument

`Stacked` says how the frames of `io_aio_impl` and the coroutines lie over each other on the
thread's stack. A coroutine whose awaiter has no handle yet is either on top, just out of the
constructor, or has the frame of its own `submit` above it: then the request is not with the kernel,
and no event can be for it.
-/

namespace Nsio

/-! ### The awaiters -/

/-- `io_event`, as far as an awaiter reads it. -/
structure IoEvent where
  res : Int64
  res2 : Int64
  deriving DecidableEq, Repr

/-- A request: the awaiter (`aio_data`), and what will become of it. -/
structure DiskRequest where
  icb : ℕ
  event : IoEvent
  deriving DecidableEq, Repr

/-- `aio_block_rw`, for coroutines `κ`. -/
structure AioBlockRw (κ : Type*) where
  /-- `_result`. -/
  result : Int32 := -1
  /-- `_handle`. -/
  handle : Option κ := none

/-- `on_aio_event`, up to the call of `resume`. -/
def AioBlockRw.onAioEvent {κ : Type*} (w : AioBlockRw κ) (e : IoEvent) : AioBlockRw κ :=
  if e.res2 < 0 then w else { w with result := e.res.toInt32 }

/-- What an await returns whose request ends with the event. -/
def IoEvent.result (e : IoEvent) : Int32 := if e.res2 < 0 then -1 else e.res.toInt32

theorem AioBlockRw.onAioEvent_new {κ : Type*} (h : Option κ) (e : IoEvent) :
    AioBlockRw.onAioEvent { handle := h } e = ⟨e.result, h⟩ := by
  rw [onAioEvent, IoEvent.result]
  split <;> rfl

/-! ### The thread -/

/-- A coroutine on the thread's stack. -/
structure ActiveCo (κ : Type*) where
  co : κ
  /-- How many frames of `io_aio_impl` it has below it. -/
  base : ℕ
  /-- The awaiter it constructs, or has constructed and not yet awaited. -/
  awaiter : Option ℕ := none

/-- What a coroutine waits for and has been told. -/
structure DiskTask where
  /-- The awaiter it is suspended on. -/
  suspended : Option ℕ := none
  /-- What becomes of its requests, in the order of its awaits. -/
  asked : List IoEvent := []
  /-- What its awaits have returned. -/
  told : List Int32 := []

/-- The context, the awaiters and the coroutines. -/
structure DiskLoop (κ : Type*) where
  aio : Aio DiskRequest := {}
  /-- The awaiters that are alive, by address. -/
  awaiters : ℕ → Option (AioBlockRw κ) := fun _ ↦ none
  tasks : κ → DiskTask := fun _ ↦ {}
  /-- The coroutines on the stack, innermost first. -/
  active : List (ActiveCo κ) := []
  /-- An event has reached no awaiter, or its handle was no suspended coroutine. -/
  crashed : Bool := false

/-- The steps of the kernel and of the loop's thread. -/
inductive DiskAction (κ : Type*)
  /-- A step of the kernel, or of `io_aio_impl` by itself. -/
  | aio (a : AioAction DiskRequest)
  /-- A coroutine is started, or resumed by something other than a disk awaiter. -/
  | enter (c : κ)
  /-- The innermost coroutine constructs an awaiter, which calls `submit`. -/
  | construct (icb : ℕ) (e : IoEvent)
  /-- It awaits the awaiter it has constructed. -/
  | await
  /-- `fetch_events` calls `on_aio_event` of the next completion. -/
  | deliver
  /-- The innermost coroutine ends, or waits for something else. -/
  | leave

namespace DiskLoop

variable {κ : Type*} [DecidableEq κ]

/-- The coroutine that runs, if the thread is not inside `io_aio_impl` or in the loop. -/
def running (s : DiskLoop κ) : Option (ActiveCo κ) :=
  s.active.head?.filter fun x ↦ x.base = s.aio.stack.length

/-- The thread is in code that may start a coroutine: the loop's own, or a coroutine's. -/
def inCode (s : DiskLoop κ) : Bool :=
  match s.running with
  | some x => x.awaiter.isNone
  | none => s.active.isEmpty && s.aio.stack.isEmpty

/-- The steps that `io_aio_impl` makes only while no coroutine runs above it. -/
def mayStep (s : DiskLoop κ) : AioAction DiskRequest → Bool
  | .complete _ | .signal => true
  | .submit _ | .deliver => false
  | .accepted | .refused | .submitAgain | .event | .getevents _ | .geteventsAgain | .fetched
  | .rearm => s.running.isNone

/-- `on_aio_event` for a completion that `fetch_events` has in hand. The coroutine goes on with
`await_resume`, after which the awaiter is destroyed. -/
def onAioEvent (s : DiskLoop κ) (r : DiskRequest) : DiskLoop κ :=
  match s.awaiters r.icb with
  | none => { s with crashed := true }
  | some w =>
    match (w.onAioEvent r.event).handle with
    | none => { s with crashed := true }
    | some c =>
      if (s.tasks c).suspended = some r.icb then
        { s with
          awaiters := Function.update s.awaiters r.icb none
          tasks := Function.update s.tasks c
            { s.tasks c with
              suspended := none
              told := (s.tasks c).told ++ [(w.onAioEvent r.event).result] }
          active := ⟨c, s.aio.stack.length, none⟩ :: s.active }
      else { s with crashed := true }

/-- One step. -/
def step (s : DiskLoop κ) : DiskAction κ → Option (DiskLoop κ)
  | .aio a => if s.mayStep a then (s.aio.step a).map fun aio ↦ { s with aio := aio } else none
  | .enter c =>
    if s.inCode ∧ (s.tasks c).suspended = none ∧ ∀ x ∈ s.active, x.co ≠ c then
      some { s with active := ⟨c, s.aio.stack.length, none⟩ :: s.active }
    else none
  | .construct icb e =>
    match s.running with
    | some x =>
      if x.awaiter = none ∧ (s.awaiters icb).isNone then
        (s.aio.step (.submit ⟨icb, e⟩)).map fun aio ↦
          { s with
            aio := aio
            awaiters := Function.update s.awaiters icb (some {})
            tasks := Function.update s.tasks x.co
              { s.tasks x.co with asked := (s.tasks x.co).asked ++ [e] }
            active := { x with awaiter := some icb } :: s.active.tail }
      else none
    | none => none
  | .await =>
    match s.running with
    | some x =>
      x.awaiter.bind fun icb ↦ (s.awaiters icb).map fun w ↦
        { s with
          awaiters := Function.update s.awaiters icb (some { w with handle := some x.co })
          tasks := Function.update s.tasks x.co { s.tasks x.co with suspended := some icb }
          active := s.active.tail }
    | none => none
  | .deliver =>
    match s.running, s.aio.stack with
    | none, .callbacks (r :: _) _ :: _ =>
      (s.aio.step .deliver).map fun aio ↦ onAioEvent { s with aio := aio } r
    | _, _ => none
  | .leave =>
    match s.running with
    | some x => if x.awaiter = none then some { s with active := s.active.tail } else none
    | none => none

/-- The runs of a fresh context. -/
def machine (κ : Type*) [DecidableEq κ] : Machine (DiskLoop κ) (DiskAction κ) where
  init := {}
  step := step

end DiskLoop

/-! ### The requests that are not served yet -/

namespace Aio

variable {ρ : Type*} {s t : Aio ρ}

/-- The requests in the frames of `submit`. -/
def submitting (stack : List (AioFrame ρ)) : List ρ :=
  stack.flatMap fun
    | .submit r => [r]
    | _ => []

/-- The requests whose callback has not been called, those included that the kernel has not taken
yet. -/
def unserved (s : Aio ρ) : List ρ :=
  s.inflight ++ s.ring ++ AioLog.pending s.stack ++ submitting s.stack

end Aio

/-- What an action adds to the requests. -/
def AioAction.submits {ρ : Type*} : AioAction ρ → List ρ
  | .submit r => [r]
  | _ => []

namespace Aio

variable {ρ : Type*} {s t : Aio ρ} {a : AioAction ρ}

/-- A request that is taken leaves the frame of its `submit`. -/
theorem submitting_step (ht : s.step a = some t) :
    (submitting t.stack ++ AioLog.taken s a).Perm (submitting s.stack ++ a.submits) := by
  cases Step.of_step ht with
  | complete | signal | submitAgain | geteventsAgain =>
    simp [AioLog.taken, AioAction.submits]
  | submit hcan =>
    simp only [submitting, AioLog.taken, AioAction.submits, List.flatMap_cons, List.append_nil]
    exact List.perm_append_comm
  | accepted hstack =>
    simp only [submitting, AioLog.taken, AioAction.submits, hstack, List.flatMap_cons,
      List.append_nil]
    exact List.perm_append_comm
  | refused hstack | getevents hstack | deliver hstack | fetched hstack | rearm hstack =>
    simp [submitting, AioLog.taken, AioAction.submits, hstack, afterGetevents]
  | event hstack =>
    simp [submitting, AioLog.taken, AioAction.submits, hstack, afterEvent]

/-- **What a step does to the requests that are not served**: a submission adds one, and a callback
takes one away. -/
theorem unserved_step (ht : s.step a = some t) :
    (t.unserved ++ t.delivered).Perm (s.unserved ++ s.delivered ++ a.submits) := by
  classical
  have hmoves := moves_step ht
  have hsub := submitting_step ht
  refine List.perm_iff_count.2 fun r ↦ ?_
  have h₁ := hmoves.outstanding.count_eq r
  have h₂ := hmoves.served.count_eq r
  have h₃ := hsub.count_eq r
  simp only [unserved, List.count_append] at h₁ h₂ h₃ ⊢
  omega

theorem delivered_step (ht : s.step a = some t) (ha : a ≠ .deliver) :
    t.delivered = s.delivered := by
  cases Step.of_step ht with
  | deliver => exact absurd rfl ha
  | _ => rfl

/-- A step other than a submission and a callback leaves the requests that are not served. -/
theorem unserved_perm (ht : s.step a = some t) (ha : a ≠ .deliver) (hsub : a.submits = []) :
    t.unserved.Perm s.unserved := by
  have hperm := unserved_step ht
  rw [hsub, List.append_nil, delivered_step ht ha] at hperm
  exact (List.perm_append_right_iff _).1 hperm

end Aio

/-! ### How calls and coroutines are stacked -/

/-- Who is on top of the thread's stack. -/
inductive StackTop
  /-- The loop outside the handler, or a coroutine. -/
  | code
  /-- `on_file_event` or `submit`. -/
  | call
  /-- `fetch_events`. -/
  | fetch

/-- **How the frames of `io_aio_impl` and the coroutines lie over each other.** `fetch_events` is
called by the handler or by `submit`, and `submit` by a coroutine that has its awaiter; a coroutine
is resumed by `fetch_events`, or started by the loop or by a coroutine that has none. -/
inductive Stacked {κ : Type*} : StackTop → List (AioFrame DiskRequest) → List (ActiveCo κ) → Prop
  | loop : Stacked .code [] []
  | handler : Stacked .call [.handler] []
  | submit {stack active c icb e}
    (h : Stacked .code stack (⟨c, stack.length, some icb⟩ :: active)) :
    Stacked .call (.submit ⟨icb, e⟩ :: stack) (⟨c, stack.length, some icb⟩ :: active)
  | fetch {stack active} (h : Stacked .call stack active) :
    Stacked .fetch (.fetch :: stack) active
  | callbacks {stack active rest rc} (h : Stacked .call stack active) (hle : rest.length ≤ rc) :
    Stacked .fetch (.callbacks rest rc :: stack) active
  | resumed {stack active rest rc c o} (h : Stacked .call stack active) (hlt : rest.length < rc) :
    Stacked .code (.callbacks rest rc :: stack) (⟨c, stack.length + 1, o⟩ :: active)
  | spawned {stack active c o} (h : Stacked .code stack active)
    (hfree : ∀ x ∈ active.head?, x.awaiter = none) :
    Stacked .code stack (⟨c, stack.length, o⟩ :: active)

namespace Stacked

variable {κ : Type*} {top : StackTop} {stack : List (AioFrame DiskRequest)}
  {active : List (ActiveCo κ)} {x : ActiveCo κ}

/-- A coroutine with nothing of `io_aio_impl` above it is on top. -/
theorem eq_code (h : Stacked top stack (x :: active)) (hx : x.base = stack.length) :
    top = .code := by
  cases h with
  | submit h => exact absurd hx (by simp)
  | fetch h =>
    cases h with
    | submit h => exact absurd hx (by simp only [List.length_cons]; omega)
  | callbacks h hle =>
    cases h with
    | submit h => exact absurd hx (by simp only [List.length_cons]; omega)
  | resumed => rfl
  | spawned => rfl

/-- When no coroutine is on top, the thread is in `io_aio_impl` or in the loop. -/
theorem eq_nil (h : Stacked .code stack active)
    (hidle : ∀ x ∈ active.head?, x.base ≠ stack.length) : stack = [] ∧ active = [] := by
  cases h with
  | loop => exact ⟨rfl, rfl⟩
  | resumed => exact absurd rfl (hidle _ rfl)
  | spawned => exact absurd rfl (hidle _ rfl)

/-- The coroutine on top constructs an awaiter. -/
theorem construct (h : Stacked .code stack (x :: active)) (icb : ℕ) :
    Stacked .code stack ({ x with awaiter := some icb } :: active) := by
  cases h with
  | resumed h hlt => exact .resumed h hlt
  | spawned h hfree => exact .spawned h hfree

/-- The coroutine on top leaves the stack. -/
theorem pop (h : Stacked .code stack (x :: active)) : ∃ top, Stacked top stack active := by
  cases h with
  | resumed h hlt => exact ⟨_, .callbacks h (Nat.le_of_lt hlt)⟩
  | spawned h _ => exact ⟨_, h⟩

theorem base_eq (h : Stacked .code stack (x :: active)) : x.base = stack.length := by
  cases h with
  | resumed h hlt => rfl
  | spawned h _ => rfl

/-- Code that runs can always submit. -/
theorem canSubmit {s : Aio DiskRequest} (h : Stacked .code s.stack active) :
    s.canSubmit = true := by
  generalize hstack : s.stack = stack at h
  generalize htop : StackTop.code = top at h
  induction h with
  | loop => rw [Aio.canSubmit, hstack]
  | resumed h hlt =>
    rw [Aio.canSubmit, hstack]
    exact decide_eq_true hlt
  | spawned h hfree ih => exact ih hstack rfl
  | handler | submit | fetch | callbacks => exact absurd htop (by simp)

/-- **A coroutine that has an awaiter is on top, or in the middle of its `submit`.** -/
theorem mem_submitting (h : Stacked top stack active) (hx : x ∈ active) {icb : ℕ}
    (hicb : x.awaiter = some icb) :
    (top = .code ∧ active.head? = some x) ∨ icb ∈ (Aio.submitting stack).map DiskRequest.icb := by
  induction h with
  | loop | handler => exact absurd hx (by simp)
  | submit h ih =>
    right
    rcases ih hx with ⟨-, hhead⟩ | hmem
    · obtain rfl := Option.some.inj hhead
      simp [Aio.submitting, Option.some.inj hicb]
    · exact List.mem_cons_of_mem _ hmem
  | fetch h ih | callbacks h hle ih =>
    rcases ih hx with ⟨htop, -⟩ | hmem
    · exact absurd htop (by simp)
    · exact .inr hmem
  | resumed h hlt ih =>
    rcases List.mem_cons.1 hx with rfl | hx
    · exact .inl ⟨rfl, rfl⟩
    · rcases ih hx with ⟨htop, -⟩ | hmem
      · exact absurd htop (by simp)
      · exact .inr hmem
  | spawned h hfree ih =>
    rcases List.mem_cons.1 hx with rfl | hx
    · exact .inl ⟨rfl, rfl⟩
    · rcases ih hx with ⟨-, hhead⟩ | hmem
      · exact absurd (hicb.symm.trans (hfree x hhead)) (by simp)
      · exact .inr hmem

/-- A `submit` is of a coroutine below it. -/
theorem exists_active (h : Stacked top stack active) {r : DiskRequest}
    (hr : r ∈ Aio.submitting stack) : ∃ x ∈ active, x.awaiter = some r.icb := by
  induction h with
  | loop | handler => exact absurd hr (by simp [Aio.submitting])
  | submit h ih =>
    rcases List.mem_cons.1 hr with rfl | hr
    · exact ⟨_, List.mem_cons_self, rfl⟩
    · exact ih hr
  | fetch h ih | callbacks h hle ih => exact ih hr
  | resumed h hlt ih | spawned h hfree ih =>
    obtain ⟨x, hx, hicb⟩ := ih hr
    exact ⟨x, List.mem_cons_of_mem _ hx, hicb⟩

/-- How many frames there are above each other for the coroutines on the stack. -/
theorem length_le (h : Stacked top stack active) :
    stack.length ≤ 2 * active.length + match top with
      | .code => 0
      | .call => 1
      | .fetch => 2 := by
  induction h with
  | loop | handler => simp
  | submit h ih | fetch h ih | callbacks h hle ih | resumed h hlt ih | spawned h hfree ih =>
    simp only [List.length_cons] at ih ⊢
    omega

/-- A step of `io_aio_impl` by itself. -/
theorem step {s t : Aio DiskRequest} {a : AioAction DiskRequest} (h : Stacked top s.stack active)
    (hidle : ∀ x ∈ active.head?, x.base ≠ s.stack.length) (ht : Aio.Step s a t)
    (hdeliver : a ≠ .deliver) (hsub : a.submits = []) : ∃ top, Stacked top t.stack active := by
  cases ht with
  | complete | signal | submitAgain | geteventsAgain => exact ⟨top, h⟩
  | submit => exact absurd hsub (by simp [AioAction.submits])
  | deliver => exact absurd rfl hdeliver
  | accepted hstack =>
    rw [hstack] at h hidle
    cases h with
    | submit h => exact ⟨_, h⟩
    | spawned => exact absurd rfl (hidle _ rfl)
  | refused hstack =>
    rw [hstack] at h hidle
    cases h with
    | submit h => exact ⟨_, .fetch (.submit h)⟩
    | spawned => exact absurd rfl (hidle _ rfl)
  | event hstack hpos =>
    rw [hstack] at h hidle
    cases h with
    | loop => exact ⟨_, .fetch .handler⟩
    | spawned => exact absurd rfl (hidle _ rfl)
  | getevents hstack hn =>
    rw [hstack] at h hidle
    cases h with
    | fetch h => exact ⟨_, .callbacks h (List.length_take_le _ _)⟩
    | spawned => exact absurd rfl (hidle _ rfl)
  | fetched hstack =>
    rw [hstack] at h hidle
    cases h with
    | callbacks h hle => exact ⟨_, h⟩
    | resumed => exact absurd rfl (hidle _ rfl)
    | spawned => exact absurd rfl (hidle _ rfl)
  | rearm hstack =>
    rw [hstack] at h hidle
    cases h with
    | handler => exact ⟨_, .loop⟩
    | spawned => exact absurd rfl (hidle _ rfl)

/-- A completion is taken out of the batch, and its coroutine resumed. -/
theorem deliver {r : DiskRequest} {rest : List DiskRequest} {rc : ℕ} {c : κ} {o : Option ℕ}
    (h : Stacked top (.callbacks (r :: rest) rc :: stack) active)
    (hidle : ∀ x ∈ active.head?, x.base ≠ stack.length + 1) :
    Stacked .code (.callbacks rest rc :: stack) (⟨c, stack.length + 1, o⟩ :: active) := by
  cases h with
  | callbacks h hle => exact .resumed h hle
  | resumed => exact absurd rfl (hidle _ rfl)
  | spawned => exact absurd rfl (hidle _ rfl)

end Stacked

/-! ### The accounts of the coroutines -/

namespace DiskLoop

variable {κ : Type*} [DecidableEq κ] {s t : DiskLoop κ} {x : ActiveCo κ} {rest : List (ActiveCo κ)}

/-- The awaiter of the disk await a coroutine is in, from the constructor to its resumption. -/
def awaiting (s : DiskLoop κ) (c : κ) : Option ℕ :=
  match (s.tasks c).suspended with
  | some icb => some icb
  | none => (s.active.find? fun x ↦ x.co = c).bind ActiveCo.awaiter

/-- An awaiter before its event: it has its handle once the coroutine is suspended. -/
def awaiterOf (s : DiskLoop κ) (c : κ) : AioBlockRw κ :=
  { handle := if (s.tasks c).suspended = none then none else some c }

/-- A coroutine has been told the results of its requests, in order, but for the last one if it is
in an await. -/
def Told (s : DiskLoop κ) (c : κ) (last : List IoEvent) : Prop :=
  (s.tasks c).asked.map IoEvent.result = (s.tasks c).told ++ last.map IoEvent.result

/-- Awaits and requests belong to each other one to one. -/
structure Accounts (s : DiskLoop κ) : Prop where
  icbs : (s.aio.unserved.map DiskRequest.icb).Nodup
  inj : ∀ {c c' icb}, s.awaiting c = some icb → s.awaiting c' = some icb → c = c'
  owner : ∀ r ∈ s.aio.unserved, ∃ c, s.awaiting c = some r.icb
  waiting : ∀ c icb, s.awaiting c = some icb → ∃ r ∈ s.aio.unserved, r.icb = icb ∧
    s.Told c [r.event] ∧ s.awaiters icb = some (s.awaiterOf c)
  idle : ∀ c, s.awaiting c = none → s.Told c []

/-- **The invariant.** -/
structure Inv (s : DiskLoop κ) : Prop where
  not_crashed : s.crashed = false
  stacked : ∃ top, Stacked top s.aio.stack s.active
  cos : (s.active.map ActiveCo.co).Nodup
  runs : ∀ x ∈ s.active, (s.tasks x.co).suspended = none
  accounts : s.Accounts

omit [DecidableEq κ] in
theorem running_eq_some (hx : s.running = some x) :
    s.active = x :: s.active.tail ∧ x.base = s.aio.stack.length := by
  obtain ⟨hhead, hbase⟩ := Option.filter_eq_some_iff.1 hx
  exact ⟨(List.cons_head?_tail hhead).symm, of_decide_eq_true hbase⟩

omit [DecidableEq κ] in
theorem running_eq_none (hs : s.running = none) :
    ∀ x ∈ s.active.head?, x.base ≠ s.aio.stack.length := by
  intro x hx hbase
  exact Option.filter_eq_none_iff.1 hs x hx (decide_eq_true hbase)

/-! ### Which await a coroutine is in -/

theorem awaiting_of_suspended {c : κ} {icb : ℕ} (h : (s.tasks c).suspended = some icb) :
    s.awaiting c = some icb := by
  rw [awaiting, h]

theorem awaiting_of_runs {c : κ} (h : (s.tasks c).suspended = none) :
    s.awaiting c = (s.active.find? fun x ↦ x.co = c).bind ActiveCo.awaiter := by
  rw [awaiting, h]

/-- A coroutine that is in an await without being suspended is on the stack. -/
theorem exists_mem_active {c : κ} {icb : ℕ} (hc : s.awaiting c = some icb)
    (hruns : (s.tasks c).suspended = none) : ∃ x ∈ s.active, x.awaiter = some icb := by
  rw [awaiting_of_runs hruns] at hc
  obtain ⟨x, hfind, hx⟩ := Option.bind_eq_some_iff.1 hc
  exact ⟨x, List.mem_of_find?_eq_some hfind, hx⟩

theorem awaiting_head (hactive : s.active = x :: rest)
    (hruns : (s.tasks x.co).suspended = none) : s.awaiting x.co = x.awaiter := by
  rw [awaiting_of_runs hruns, hactive, List.find?_cons_of_pos (by simp), Option.bind_some]

/-- The coroutine on top makes no difference for the others. -/
theorem awaiting_of_ne {c : κ} (hactive : s.active = x :: rest) (hc : x.co ≠ c)
    (htask : (t.tasks c).suspended = (s.tasks c).suspended)
    (htail : t.active = rest ∨ ∃ y, t.active = y :: rest ∧ y.co = x.co) :
    t.awaiting c = s.awaiting c := by
  have hfind : t.active.find? (fun y ↦ y.co = c) = s.active.find? fun y ↦ y.co = c := by
    rw [hactive, List.find?_cons_of_neg (by simpa using hc)]
    rcases htail with h | ⟨y, h, hy⟩
    · rw [h]
    · rw [h, List.find?_cons_of_neg (by simpa [hy] using hc)]
  rw [awaiting, awaiting, htask, hfind]

/-- A coroutine without an awaiter makes no difference on the stack. -/
theorem awaiting_cons (htasks : t.tasks = s.tasks) (hactive : s.active = x :: t.active)
    (hfree : x.awaiter = none) (hruns : (s.tasks x.co).suspended = none)
    (hnew : x.co ∉ t.active.map ActiveCo.co) (c : κ) : t.awaiting c = s.awaiting c := by
  rcases eq_or_ne x.co c with rfl | hc
  · have hfind : t.active.find? (fun y ↦ y.co = x.co) = none := by
      refine List.find?_eq_none.2 fun y hy heq ↦ hnew ?_
      exact of_decide_eq_true heq ▸ List.mem_map_of_mem hy
    rw [awaiting_head hactive hruns, hfree, awaiting_of_runs (htasks ▸ hruns), hfind]
    rfl
  · exact awaiting_of_ne hactive hc (by rw [htasks]) (.inl rfl)

/-! ### The steps keep the accounts -/

/-- A step that is not about a disk await. -/
theorem Accounts.congr (hs : s.Accounts) (hawaiting : ∀ c, t.awaiting c = s.awaiting c)
    (htasks : t.tasks = s.tasks) (hawaiters : t.awaiters = s.awaiters)
    (hperm : t.aio.unserved.Perm s.aio.unserved) : t.Accounts where
  icbs := (hperm.map _).nodup_iff.2 hs.icbs
  inj := fun hc hc' ↦ hs.inj ((hawaiting _).symm.trans hc) ((hawaiting _).symm.trans hc')
  owner := fun r hr ↦ by
    obtain ⟨c, hc⟩ := hs.owner r (hperm.mem_iff.1 hr)
    exact ⟨c, (hawaiting c).trans hc⟩
  waiting := fun c icb hc ↦ by
    obtain ⟨r, hr, hicb, htold, hw⟩ := hs.waiting c icb ((hawaiting c).symm.trans hc)
    refine ⟨r, hperm.mem_iff.2 hr, hicb, ?_, ?_⟩
    · rw [Told, htasks]
      exact htold
    · rw [hawaiters, awaiterOf, htasks]
      exact hw
  idle := fun c hc ↦ by
    rw [Told, htasks]
    exact hs.idle c ((hawaiting c).symm.trans hc)

/-- Nobody is in the await of an awaiter that does not exist. -/
theorem Accounts.awaiting_ne (hs : s.Accounts) {icb : ℕ} (hfresh : s.awaiters icb = none) (c : κ) :
    s.awaiting c ≠ some icb := fun hc ↦ by
  obtain ⟨r, -, -, -, hw⟩ := hs.waiting c icb hc
  exact absurd (hfresh.symm.trans hw) (by simp)

/-- The coroutine on top asks for something. -/
theorem Accounts.construct (hs : s.Accounts) {icb : ℕ} {e : IoEvent}
    (hactive : s.active = x :: rest) (hfree : x.awaiter = none)
    (hruns : (s.tasks x.co).suspended = none) (hfresh : s.awaiters icb = none)
    (hperm : t.aio.unserved.Perm (⟨icb, e⟩ :: s.aio.unserved))
    (hawaiters : t.awaiters = Function.update s.awaiters icb (some {}))
    (htasks : t.tasks = Function.update s.tasks x.co
      { s.tasks x.co with asked := (s.tasks x.co).asked ++ [e] })
    (hactive' : t.active = { x with awaiter := some icb } :: rest) : t.Accounts := by
  have hnone := hs.awaiting_ne hfresh
  have hruns' : (t.tasks x.co).suspended = none := by rw [htasks, Function.update_self, hruns]
  have hself : t.awaiting x.co = some icb := awaiting_head hactive' hruns'
  have htask : ∀ c, x.co ≠ c → t.tasks c = s.tasks c := fun c hc ↦ by
    rw [htasks, Function.update_of_ne hc.symm]
  have hother : ∀ c, x.co ≠ c → t.awaiting c = s.awaiting c := fun c hc ↦
    awaiting_of_ne hactive hc (by rw [htask c hc]) (.inr ⟨_, hactive', rfl⟩)
  have htold : s.Told x.co [] := hs.idle x.co ((awaiting_head hactive hruns).trans hfree)
  refine ⟨?_, ?_, ?_, ?_, ?_⟩
  · refine (hperm.map _).nodup_iff.2 (List.nodup_cons.2 ⟨fun hmem ↦ ?_, hs.icbs⟩)
    obtain ⟨r, hr, hicb⟩ := List.mem_map.1 hmem
    obtain ⟨c, hc⟩ := hs.owner r hr
    exact hnone c (hc.trans (congrArg some hicb))
  · intro c c' a hc hc'
    rcases eq_or_ne x.co c with rfl | hne
    · rcases eq_or_ne x.co c' with rfl | hne'
      · rfl
      · rw [hself] at hc
        rw [hother c' hne', ← hc] at hc'
        exact absurd hc' (hnone c')
    · rw [hother c hne] at hc
      rcases eq_or_ne x.co c' with rfl | hne'
      · rw [hself] at hc'
        rw [← hc'] at hc
        exact absurd hc (hnone c)
      · rw [hother c' hne'] at hc'
        exact hs.inj hc hc'
  · intro r hr
    rcases List.mem_cons.1 (hperm.mem_iff.1 hr) with rfl | hr
    · exact ⟨x.co, hself⟩
    · obtain ⟨c, hc⟩ := hs.owner r hr
      refine ⟨c, (hother c ?_).trans hc⟩
      rintro rfl
      rw [awaiting_head hactive hruns, hfree] at hc
      exact absurd hc (by simp)
  · intro c a hc
    rcases eq_or_ne x.co c with rfl | hne
    · obtain rfl := Option.some.inj (hself.symm.trans hc)
      refine ⟨⟨icb, e⟩, hperm.mem_iff.2 List.mem_cons_self, rfl, ?_, ?_⟩
      · rw [Told, List.map_nil, List.append_nil] at htold
        rw [Told, htasks, Function.update_self, List.map_append, htold]
      · rw [hawaiters, Function.update_self, awaiterOf, if_pos hruns']
    · rw [hother c hne] at hc
      obtain ⟨r, hr, hicb, htold, hw⟩ := hs.waiting c a hc
      refine ⟨r, hperm.mem_iff.2 (List.mem_cons_of_mem _ hr), hicb, ?_, ?_⟩
      · rw [Told, htask c hne]
        exact htold
      · rw [hawaiters, Function.update_of_ne, hw, awaiterOf, awaiterOf, htask c hne]
        rintro rfl
        exact hnone c hc
  · intro c hc
    rcases eq_or_ne x.co c with rfl | hne
    · exact absurd (hself.symm.trans hc) (by simp)
    · rw [hother c hne] at hc
      rw [Told, htask c hne]
      exact hs.idle c hc

/-- The coroutine on top is suspended. -/
theorem Accounts.await (hs : s.Accounts) {icb : ℕ} (hactive : s.active = x :: rest)
    (hicb : x.awaiter = some icb) (hruns : (s.tasks x.co).suspended = none)
    (haio : t.aio = s.aio)
    (hawaiters : t.awaiters = Function.update s.awaiters icb (some { handle := some x.co }))
    (htasks : t.tasks = Function.update s.tasks x.co
      { s.tasks x.co with suspended := some icb })
    (hactive' : t.active = rest) : t.Accounts := by
  have hsuspended : (t.tasks x.co).suspended = some icb := by rw [htasks, Function.update_self]
  have hself : s.awaiting x.co = some icb := (awaiting_head hactive hruns).trans hicb
  have htask : ∀ c, x.co ≠ c → t.tasks c = s.tasks c := fun c hc ↦ by
    rw [htasks, Function.update_of_ne hc.symm]
  have hkept : ∀ c, t.awaiting c = s.awaiting c := fun c ↦ by
    rcases eq_or_ne x.co c with rfl | hne
    · rw [awaiting_of_suspended hsuspended, hself]
    · exact awaiting_of_ne hactive hne (by rw [htask c hne]) (.inl hactive')
  have htold : ∀ c last, s.Told c last → t.Told c last := fun c last h ↦ by
    rcases eq_or_ne x.co c with rfl | hne
    · rw [Told, htasks, Function.update_self]
      exact h
    · rw [Told, htask c hne]
      exact h
  refine ⟨haio ▸ hs.icbs, ?_, ?_, ?_, fun c hc ↦ htold c [] (hs.idle c (hkept c ▸ hc))⟩
  · exact fun {c c' a} hc hc' ↦ hs.inj (hkept c ▸ hc) (hkept c' ▸ hc')
  · intro r hr
    obtain ⟨c, hc⟩ := hs.owner r (haio ▸ hr)
    exact ⟨c, (hkept c).trans hc⟩
  · intro c a hc
    rw [hkept c] at hc
    obtain ⟨r, hr, hra, ht, hw⟩ := hs.waiting c a hc
    refine ⟨r, haio ▸ hr, hra, htold c _ ht, ?_⟩
    rcases eq_or_ne x.co c with rfl | hne
    · obtain rfl := Option.some.inj (hself.symm.trans hc)
      rw [hawaiters, Function.update_self, awaiterOf, hsuspended, if_neg (by simp)]
    · rw [hawaiters, Function.update_of_ne, hw, awaiterOf, awaiterOf, htask c hne]
      rintro rfl
      exact hne (hs.inj hself hc)

/-- A suspended coroutine gets its answer. -/
theorem Accounts.deliver (hs : s.Accounts) {r : DiskRequest} {c : κ}
    (hsuspended : (s.tasks c).suspended = some r.icb) (hactive : t.active = x :: s.active)
    (hx : x.co = c) (hfree : x.awaiter = none)
    (hperm : s.aio.unserved.Perm (r :: t.aio.unserved))
    (hawaiters : t.awaiters = Function.update s.awaiters r.icb none)
    (htasks : t.tasks = Function.update s.tasks c { s.tasks c with
      suspended := none
      told := (s.tasks c).told ++ [r.event.result] }) : t.Accounts := by
  subst hx
  have hruns : (t.tasks x.co).suspended = none := by rw [htasks, Function.update_self]
  have hself : s.awaiting x.co = some r.icb := awaiting_of_suspended hsuspended
  have hdone : t.awaiting x.co = none := (awaiting_head hactive hruns).trans hfree
  have htask : ∀ c, x.co ≠ c → t.tasks c = s.tasks c := fun c hc ↦ by
    rw [htasks, Function.update_of_ne hc.symm]
  have hother : ∀ c, x.co ≠ c → t.awaiting c = s.awaiting c := fun c hc ↦
    (awaiting_of_ne hactive hc (by rw [htask c hc]) (.inl rfl)).symm
  have hne_of : ∀ {c a}, t.awaiting c = some a → x.co ≠ c ∧ s.awaiting c = some a := by
    rintro c a hc
    rcases eq_or_ne x.co c with rfl | hne
    · exact absurd (hdone.symm.trans hc) (by simp)
    · exact ⟨hne, (hother c hne).symm.trans hc⟩
  have hnodup := (hperm.map DiskRequest.icb).nodup_iff.1 hs.icbs
  obtain ⟨hnotMem, hnodup⟩ := List.nodup_cons.1 hnodup
  refine ⟨hnodup, fun hc hc' ↦ hs.inj (hne_of hc).2 (hne_of hc').2, ?_, ?_, ?_⟩
  · intro q hq
    obtain ⟨c, hc⟩ := hs.owner q (hperm.mem_iff.2 (List.mem_cons_of_mem _ hq))
    refine ⟨c, (hother c ?_).trans hc⟩
    rintro rfl
    have hicb : r.icb = q.icb := Option.some.inj (hself.symm.trans hc)
    exact hnotMem (hicb ▸ List.mem_map_of_mem hq)
  · intro c a hc
    obtain ⟨hne, hc⟩ := hne_of hc
    have ha : a ≠ r.icb := fun h ↦ hne (hs.inj hself (h ▸ hc))
    obtain ⟨q, hq, hqa, htold, hw⟩ := hs.waiting c a hc
    refine ⟨q, ?_, hqa, ?_, ?_⟩
    · rcases List.mem_cons.1 (hperm.mem_iff.1 hq) with rfl | hq
      · exact absurd hqa.symm ha
      · exact hq
    · rw [Told, htask c hne]
      exact htold
    · rw [hawaiters, Function.update_of_ne ha, hw, awaiterOf, awaiterOf, htask c hne]
  · intro c hc
    rcases eq_or_ne x.co c with rfl | hne
    · obtain ⟨q, hq, hicb, htold, -⟩ := hs.waiting x.co r.icb hself
      -- the request the coroutine was waiting for is the one that is served
      obtain rfl : q = r := by
        rcases List.mem_cons.1 (hperm.mem_iff.1 hq) with rfl | hq
        · rfl
        · exact absurd (hicb ▸ List.mem_map_of_mem hq) hnotMem
      rw [Told] at htold
      rw [Told, htasks, Function.update_self, htold, List.map_nil, List.append_nil]
      rfl
    · rw [Told, htask c hne]
      exact hs.idle c ((hother c hne).symm.trans hc)

theorem inv_aio {a : AioAction DiskRequest} (ht : s.step (.aio a) = some t) (hs : s.Inv) :
    t.Inv := by
  obtain ⟨hmay, ht⟩ := Option.ite_none_right_eq_some.1 ht
  obtain ⟨aio, haio, rfl⟩ := Option.map_eq_some_iff.1 ht
  have hdeliver : a ≠ .deliver := by rintro rfl; exact absurd hmay (by simp [mayStep])
  have hsub : a.submits = [] := by cases a <;> first | rfl | exact absurd hmay (by simp [mayStep])
  obtain ⟨top, hstacked⟩ := hs.stacked
  have hstacked' : ∃ top, Stacked top aio.stack s.active := by
    rcases hrun : s.running with - | x
    · exact hstacked.step (running_eq_none hrun) (.of_step haio) hdeliver hsub
    -- below a coroutine that runs only the kernel makes steps
    · cases Aio.Step.of_step haio with
      | complete | signal => exact ⟨top, hstacked⟩
      | _ => exact absurd hmay (by simp [mayStep, hrun])
  exact ⟨hs.not_crashed, hstacked', hs.cos, hs.runs,
    hs.accounts.congr (fun _ ↦ rfl) rfl rfl (Aio.unserved_perm haio hdeliver hsub)⟩

/-- Code that may start a coroutine is on top of the stack. -/
theorem Inv.stacked_code (hs : s.Inv) (hcode : s.inCode) :
    Stacked .code s.aio.stack s.active ∧ ∀ x ∈ s.active.head?, x.awaiter = none := by
  obtain ⟨top, hstacked⟩ := hs.stacked
  rw [inCode] at hcode
  split at hcode
  · rename_i x hrun
    obtain ⟨hactive, hbase⟩ := running_eq_some hrun
    rw [hactive] at hstacked ⊢
    refine ⟨hstacked.eq_code hbase ▸ hstacked, fun y hy ↦ ?_⟩
    exact Option.some.inj hy ▸ Option.isNone_iff_eq_none.1 hcode
  · obtain ⟨hactive, hstack⟩ := Bool.and_eq_true_iff.1 hcode
    rw [List.isEmpty_iff.1 hactive, List.isEmpty_iff.1 hstack]
    exact ⟨.loop, by simp⟩

theorem inv_enter {c : κ} (ht : s.step (.enter c) = some t) (hs : s.Inv) : t.Inv := by
  obtain ⟨⟨hcode, hruns, hnew⟩, ht⟩ := Option.ite_none_right_eq_some.1 ht
  obtain rfl := Option.some.inj ht
  have hnotMem : c ∉ s.active.map ActiveCo.co := fun hmem ↦ by
    obtain ⟨x, hx, hco⟩ := List.mem_map.1 hmem
    exact hnew x hx hco
  refine ⟨hs.not_crashed, ?_, List.nodup_cons.2 ⟨hnotMem, hs.cos⟩, ?_, ?_⟩
  · obtain ⟨hstacked, hfree⟩ := hs.stacked_code hcode
    exact ⟨_, .spawned hstacked hfree⟩
  · intro x hx
    rcases List.mem_cons.1 hx with rfl | hx
    · exact hruns
    · exact hs.runs x hx
  · have hkept : ∀ c', s.awaiting c' = awaiting
        { s with active := ⟨c, s.aio.stack.length, none⟩ :: s.active } c' :=
      awaiting_cons rfl rfl rfl hruns hnotMem
    exact hs.accounts.congr (fun c' ↦ (hkept c').symm) rfl rfl (List.Perm.refl _)

/-- The coroutine that runs, on top of the stack. -/
theorem Inv.on_top (hs : s.Inv) (hrun : s.running = some x) :
    s.active = x :: s.active.tail ∧ Stacked .code s.aio.stack (x :: s.active.tail) ∧
      x.co ∉ s.active.tail.map ActiveCo.co ∧ (s.tasks x.co).suspended = none := by
  obtain ⟨hactive, hbase⟩ := running_eq_some hrun
  obtain ⟨top, hstacked⟩ := hs.stacked
  have hcos := hs.cos
  rw [hactive] at hstacked hcos
  refine ⟨hactive, hstacked.eq_code hbase ▸ hstacked, (List.nodup_cons.1 hcos).1, hs.runs x ?_⟩
  rw [hactive]
  exact List.mem_cons_self

theorem inv_leave (ht : s.step .leave = some t) (hs : s.Inv) : t.Inv := by
  rw [step] at ht
  split at ht
  · rename_i x hrun
    obtain ⟨hfree, ht⟩ := Option.ite_none_right_eq_some.1 ht
    obtain rfl := Option.some.inj ht
    obtain ⟨hactive, hstacked, hnew, hruns⟩ := hs.on_top hrun
    refine ⟨hs.not_crashed, hstacked.pop, hs.cos.sublist ?_, fun y hy ↦ hs.runs y ?_, ?_⟩
    · exact (List.tail_sublist _).map _
    · exact List.mem_of_mem_tail hy
    · exact hs.accounts.congr (awaiting_cons (s := s) rfl hactive hfree hruns hnew) rfl rfl
        (List.Perm.refl _)
  · exact absurd ht (by simp)

theorem inv_construct {icb : ℕ} {e : IoEvent} (ht : s.step (.construct icb e) = some t)
    (hs : s.Inv) : t.Inv := by
  rw [step] at ht
  split at ht
  · rename_i x hrun
    obtain ⟨⟨hfree, hfresh⟩, ht⟩ := Option.ite_none_right_eq_some.1 ht
    obtain ⟨aio, haio, rfl⟩ := Option.map_eq_some_iff.1 ht
    obtain ⟨hactive, hstacked, hnew, hruns⟩ := hs.on_top hrun
    have hstack : aio.stack = .submit ⟨icb, e⟩ :: s.aio.stack := by
      cases Aio.Step.of_step haio
      rfl
    have hperm := Aio.unserved_step haio
    rw [Aio.delivered_step haio (by simp)] at hperm
    have hsubmitted : aio.unserved.Perm (⟨icb, e⟩ :: s.aio.unserved) := by
      refine (List.perm_append_right_iff s.aio.delivered).1 (hperm.trans ?_)
      exact List.perm_append_singleton _ _
    refine ⟨hs.not_crashed, ?_, ?_, ?_, ?_⟩
    · have hbase := hstacked.base_eq
      refine ⟨.call, ?_⟩
      show Stacked .call aio.stack ({ x with awaiter := some icb } :: s.active.tail)
      rw [hstack, hbase]
      exact .submit (hbase ▸ hstacked.construct icb)
    · have hcos := hs.cos
      rw [hactive] at hcos
      exact hcos
    · intro y hy
      show (Function.update s.tasks x.co _ y.co).suspended = none
      rcases List.mem_cons.1 hy with rfl | hy
      · rw [Function.update_self]
        exact hruns
      · have hne : y.co ≠ x.co := fun h ↦ hnew (h ▸ List.mem_map_of_mem hy)
        rw [Function.update_of_ne hne]
        exact hs.runs y (List.mem_of_mem_tail hy)
    · exact hs.accounts.construct hactive hfree hruns (Option.isNone_iff_eq_none.1 hfresh)
        hsubmitted rfl rfl rfl
  · exact absurd ht (by simp)

theorem inv_await (ht : s.step .await = some t) (hs : s.Inv) : t.Inv := by
  rw [step] at ht
  split at ht
  · rename_i x hrun
    obtain ⟨icb, hicb, ht⟩ := Option.bind_eq_some_iff.1 ht
    obtain ⟨w, hw, rfl⟩ := Option.map_eq_some_iff.1 ht
    obtain ⟨hactive, hstacked, hnew, hruns⟩ := hs.on_top hrun
    have hself : s.awaiting x.co = some icb := (awaiting_head hactive hruns).trans hicb
    obtain ⟨r, -, -, -, hw'⟩ := hs.accounts.waiting x.co icb hself
    rw [awaiterOf, if_pos hruns] at hw'
    obtain rfl := Option.some.inj (hw.symm.trans hw')
    refine ⟨hs.not_crashed, hstacked.pop, hs.cos.sublist ((List.tail_sublist _).map _), ?_, ?_⟩
    · intro y hy
      have hne : y.co ≠ x.co := fun h ↦ hnew (h ▸ List.mem_map_of_mem hy)
      show (Function.update s.tasks x.co _ y.co).suspended = none
      rw [Function.update_of_ne hne]
      exact hs.runs y (List.mem_of_mem_tail hy)
    · exact hs.accounts.await hactive hicb hruns rfl rfl rfl rfl
  · exact absurd ht (by simp)

/-- **The next completion finds its awaiter alive, and the coroutine suspended on it.** -/
theorem Inv.exists_suspended (hs : s.Inv) (hrun : s.running = none) {r : DiskRequest}
    (hr : r ∈ AioLog.pending s.aio.stack) :
    ∃ c, (s.tasks c).suspended = some r.icb ∧ s.awaiters r.icb = some { handle := some c } := by
  have hmem : r ∈ s.aio.unserved := by simp [Aio.unserved, hr]
  obtain ⟨c, hc⟩ := hs.accounts.owner r hmem
  obtain ⟨q, -, -, -, hw⟩ := hs.accounts.waiting c r.icb hc
  rcases hsuspended : (s.tasks c).suspended with - | icb
  -- a coroutine that is not suspended yet is in its own `submit`, with another request
  · obtain ⟨x, hx, hicb⟩ := exists_mem_active hc hsuspended
    obtain ⟨top, hstacked⟩ := hs.stacked
    rcases hstacked.mem_submitting hx hicb with ⟨rfl, hhead⟩ | hsub
    · have hnil := hstacked.eq_nil (running_eq_none hrun)
      rw [hnil.2] at hhead
      exact absurd hhead (by simp)
    · have hnodup := hs.accounts.icbs
      rw [Aio.unserved, List.map_append] at hnodup
      refine absurd hsub (List.disjoint_of_nodup_append hnodup (List.mem_map_of_mem ?_))
      simp [hr]
  · refine ⟨c, ?_, ?_⟩
    · rw [hsuspended, ← awaiting_of_suspended hsuspended, hc]
    · rw [hw, awaiterOf, if_neg (by simp [hsuspended])]

/-- The event of a suspended coroutine. -/
theorem onAioEvent_eq {r : DiskRequest} {c : κ}
    (hsuspended : (s.tasks c).suspended = some r.icb)
    (hw : s.awaiters r.icb = some { handle := some c }) :
    s.onAioEvent r = { s with
      awaiters := Function.update s.awaiters r.icb none
      tasks := Function.update s.tasks c
        { s.tasks c with
          suspended := none
          told := (s.tasks c).told ++ [r.event.result] }
      active := ⟨c, s.aio.stack.length, none⟩ :: s.active } := by
  simp only [onAioEvent, hw, AioBlockRw.onAioEvent_new]
  exact if_pos hsuspended

theorem inv_deliver (ht : s.step .deliver = some t) (hs : s.Inv) : t.Inv := by
  rw [step] at ht
  split at ht
  · rename_i r rest rc stack hrun hstack
    obtain ⟨aio, haio, rfl⟩ := Option.map_eq_some_iff.1 ht
    have hr : r ∈ AioLog.pending s.aio.stack := by
      simp [hstack, AioLog.pending, AioFrame.pending]
    obtain ⟨c, hsuspended, hw⟩ := hs.exists_suspended hrun hr
    obtain ⟨top, hstacked⟩ := hs.stacked
    have hidle := running_eq_none hrun
    rw [hstack] at hstacked hidle
    have haio_eq : aio.stack = .callbacks rest rc :: stack ∧
        aio.delivered = s.aio.delivered ++ [r] := by
      cases Aio.Step.of_step haio with
      | deliver h =>
        obtain ⟨heq, rfl⟩ := List.cons.inj (hstack.symm.trans h)
        cases heq
        exact ⟨rfl, rfl⟩
    have hserved : s.aio.unserved.Perm (r :: aio.unserved) := by
      have hperm : (aio.unserved ++ aio.delivered).Perm (s.aio.unserved ++ s.aio.delivered ++ []) :=
        Aio.unserved_step haio
      rw [haio_eq.2, List.append_nil, ← List.append_assoc] at hperm
      refine (List.perm_append_right_iff s.aio.delivered).1 (hperm.symm.trans ?_)
      exact List.perm_append_singleton _ _
    have hnew : c ∉ s.active.map ActiveCo.co := fun hmem ↦ by
      obtain ⟨x, hx, rfl⟩ := List.mem_map.1 hmem
      exact absurd ((hs.runs x hx).symm.trans hsuspended) (by simp)
    rw [onAioEvent_eq (s := { s with aio := aio }) hsuspended hw]
    refine ⟨hs.not_crashed, ⟨.code, ?_⟩, List.nodup_cons.2 ⟨hnew, hs.cos⟩, ?_, ?_⟩
    · show Stacked .code aio.stack (⟨c, aio.stack.length, none⟩ :: s.active)
      rw [haio_eq.1]
      exact hstacked.deliver hidle
    · intro x hx
      show (Function.update s.tasks c _ x.co).suspended = none
      rcases List.mem_cons.1 hx with rfl | hx
      · rw [Function.update_self]
      · have hne : x.co ≠ c := fun h ↦ hnew (h ▸ List.mem_map_of_mem hx)
        rw [Function.update_of_ne hne]
        exact hs.runs x hx
    · exact hs.accounts.deliver hsuspended rfl rfl rfl hserved rfl rfl
  · exact absurd ht (by simp)

theorem inv_init : (machine κ).init.Inv where
  not_crashed := rfl
  stacked := ⟨_, .loop⟩
  cos := List.nodup_nil
  runs := fun x hx ↦ absurd hx List.not_mem_nil
  accounts :=
    { icbs := List.nodup_nil
      inj := fun hc ↦ absurd hc (by simp [awaiting, machine])
      owner := fun r hr ↦ absurd hr List.not_mem_nil
      waiting := fun c icb hc ↦ absurd hc (by simp [awaiting, machine])
      idle := fun c _ ↦ rfl }

/-- One step of anybody keeps the invariant. -/
theorem inv_step (s : DiskLoop κ) (a : DiskAction κ) (t : DiskLoop κ) (ht : s.step a = some t)
    (hs : s.Inv) : t.Inv := by
  cases a with
  | aio a => exact inv_aio ht hs
  | enter c => exact inv_enter ht hs
  | construct icb e => exact inv_construct ht hs
  | await => exact inv_await ht hs
  | deliver => exact inv_deliver ht hs
  | leave => exact inv_leave ht hs

/-- A coroutine that runs can construct an awaiter anywhere its frame has room. -/
theorem Inv.exists_construct (hs : s.Inv) (hrun : s.running = some x) (hfree : x.awaiter = none)
    {icb : ℕ} (hfresh : s.awaiters icb = none) (e : IoEvent) :
    ∃ t, s.step (.construct icb e) = some t := by
  obtain ⟨-, hstacked, -, -⟩ := hs.on_top hrun
  have hsubmit : s.aio.step (.submit ⟨icb, e⟩) =
      some { s.aio with stack := .submit ⟨icb, e⟩ :: s.aio.stack } := if_pos hstacked.canSubmit
  rw [step, hrun]
  dsimp only
  rw [if_pos ⟨hfree, Option.isNone_iff_eq_none.2 hfresh⟩, hsubmit]
  exact ⟨_, rfl⟩

/-! ### What follows for the coroutines -/

theorem Inv.awaiting_of_mem (hs : s.Inv) (hx : x ∈ s.active) : s.awaiting x.co = x.awaiter := by
  obtain ⟨y, hy⟩ : ∃ y, s.active.find? (fun y ↦ y.co = x.co) = some y :=
    Option.isSome_iff_exists.1 (List.find?_isSome.2 ⟨x, hx, decide_eq_true rfl⟩)
  have hco : y.co = x.co := by simpa using List.find?_some hy
  obtain rfl := List.inj_on_of_nodup_map hs.cos (List.mem_of_find?_eq_some hy) hx hco
  rw [awaiting_of_runs (hs.runs y hx), hy, Option.bind_some]

/-- The request of a suspended coroutine is with the kernel, or in a batch. -/
theorem Inv.exists_taken (hs : s.Inv) {c : κ} {icb : ℕ} (hc : (s.tasks c).suspended = some icb) :
    ∃ r ∈ s.aio.inflight ++ s.aio.ring ++ AioLog.pending s.aio.stack, r.icb = icb := by
  have hawaiting := awaiting_of_suspended hc
  obtain ⟨r, hr, hicb, -, -⟩ := hs.accounts.waiting c icb hawaiting
  rcases List.mem_append.1 hr with hr | hr
  · exact ⟨r, hr, hicb⟩
  -- it is not in a `submit`, which would be of a coroutine on the stack
  · obtain ⟨top, hstacked⟩ := hs.stacked
    obtain ⟨x, hx, hxicb⟩ := hstacked.exists_active hr
    have hxc : x.co = c :=
      hs.accounts.inj ((hs.awaiting_of_mem hx).trans (hxicb.trans (congrArg some hicb))) hawaiting
    exact absurd ((hs.runs x hx).symm.trans (hxc ▸ hc)) (by simp)

/-- **Every disk await is answered once, with the result of its own request.** -/
structure AwaitsOnce (s : DiskLoop κ) : Prop where
  /-- No event has reached a destroyed awaiter, an awaiter without a handle, or a coroutine that was
  not suspended on it. -/
  not_crashed : s.crashed = false
  /-- Outside its awaits, a coroutine has been told the results of all its requests, in order. -/
  idle : ∀ c, s.awaiting c = none → (s.tasks c).told = (s.tasks c).asked.map IoEvent.result
  /-- Inside one it has been told all but the last, and there is exactly one request for the
  awaiter. -/
  waiting : ∀ c icb, s.awaiting c = some icb →
    (s.aio.unserved.map DiskRequest.icb).count icb = 1 ∧ ∃ r ∈ s.aio.unserved, r.icb = icb ∧
      (s.tasks c).asked.map IoEvent.result = (s.tasks c).told ++ [r.event.result]
  /-- While it is suspended, that request is in flight, completed or about to be delivered. -/
  suspended : ∀ c icb, (s.tasks c).suspended = some icb →
    ∃ r ∈ s.aio.inflight ++ s.aio.ring ++ AioLog.pending s.aio.stack, r.icb = icb

theorem Inv.awaitsOnce (hs : s.Inv) : s.AwaitsOnce where
  not_crashed := hs.not_crashed
  idle := fun c hc ↦ by
    have htold := hs.accounts.idle c hc
    rw [Told, List.map_nil, List.append_nil] at htold
    exact htold.symm
  waiting := fun c icb hc ↦ by
    obtain ⟨r, hr, rfl, htold, -⟩ := hs.accounts.waiting c icb hc
    exact ⟨List.count_eq_one_of_mem hs.accounts.icbs (List.mem_map_of_mem hr), r, hr, rfl, htold⟩
  suspended := fun c icb hc ↦ hs.exists_taken hc

end DiskLoop

/-- In every run, for any number of coroutines, any nesting of callbacks in constructors and any
order of the kernel's steps, the awaits of each coroutine return the results of its own requests, in
order and once each, and no event goes astray. -/
theorem disk_awaits_once (κ : Type*) [DecidableEq κ] (as : List (DiskAction κ)) :
    (DiskLoop.machine κ).Throughout DiskLoop.AwaitsOnce as :=
  (Machine.throughout_of_invariant DiskLoop.inv_init DiskLoop.inv_step as).mono
    fun _ hs ↦ hs.awaitsOnce

/-- The first coroutine is resumed inside the constructor of the second one's awaiter; the second
one's request fails. -/
example : ((DiskLoop.machine (Fin 2)).run
    [.enter 0, .construct 10 ⟨512, 0⟩, .aio .accepted, .await, .aio (.complete 0), .enter 1,
      .construct 11 ⟨5, -5⟩, .aio .refused, .aio (.getevents 1), .deliver, .leave, .aio .fetched,
      .aio .accepted, .await, .aio (.complete 0), .aio .signal, .aio .signal, .aio .event,
      .aio (.getevents 1), .deliver]).map
      (fun s ↦ ((s.tasks 0).told, (s.tasks 1).told, s.awaiting 1, s.crashed)) =
    some ([512], [-1], none, false) := by decide

/-- **The recursion of `submit` and `fetch_events` is bounded by the coroutines**: however often
the kernel refuses a request, no coroutine is twice on the stack. -/
theorem disk_depth_le (κ : Type*) [DecidableEq κ] [Fintype κ] (as : List (DiskAction κ)) :
    (DiskLoop.machine κ).Throughout (fun s ↦ s.aio.stack.length ≤ 2 * Fintype.card κ + 2) as := by
  refine (Machine.throughout_of_invariant DiskLoop.inv_init DiskLoop.inv_step as).mono ?_
  intro s hs
  obtain ⟨top, hstacked⟩ := hs.stacked
  have hlen := hstacked.length_le
  have hcard : s.active.length ≤ Fintype.card κ := by
    have := hs.cos.length_le_card
    rwa [List.length_map] at this
  cases top <;> simp only at hlen <;> omega

end Nsio
