import Nsio.Coio.FdTable
import Nsio.Foundations.Machine

/-!
# The accept handler and the coroutine it resumes

`accept::on_file_event` does not return after `_handle.resume()`. It calls `::accept` again, and
writes the next result through the same `this`. But the awaiter `this` points to is a temporary of
the coroutine that has just run on: it lives again only if the coroutine has awaited
`co2::accept` once more, **at the same address** of its frame.

A coroutine is given by what it does between suspensions, as a function `view`: from each of its
states it is suspended on an accept awaiter at an address, suspended on something else, or
finished. Nothing else about it is assumed, and nothing about the replies of `::accept`.

## What the theorem rests on

`Reawaits` is a property of the coroutine alone: after every result of an accept it awaits accept
again at once, at the address it had. Under it the awaiter of the handler is always the one the
coroutine is suspended on, which is the invariant of a run. Without it there is a run in which the
handler resumes the coroutine elsewhere, loses a descriptor, or calls `::accept` for a coroutine
that has finished (`AcceptLoop.reawaits_of_exact`).
-/

namespace Nsio

/-- Where a coroutine is between two runs of its body. -/
inductive Suspension (γ : Type*)
  /-- Suspended on `co2::accept(serv_fd)`, whose awaiter is at the address; it goes on with the
  result. -/
  | accept (addr : ℕ) (resume : Int → γ)
  /-- Suspended on another awaiter. -/
  | other (resume : γ)
  | finished

/-- The coroutine has finished. -/
def Suspension.isFinished {γ : Type*} : Suspension γ → Bool
  | .finished => true
  | _ => false

/-- What `::accept` answers. `failed` is an `errno` that the handler does not know. -/
inductive AcceptReply
  | descriptor (fd : ℕ)
  | eintr
  | eagain
  | econnaborted
  | failed
  deriving DecidableEq, Repr

/-- The coroutine, the entry of `serv_fd` and the handler. -/
structure AcceptLoop (γ : Type*) where
  co : γ
  /-- The entry of `serv_fd`; a callback is the address of its awaiter. -/
  es : EsFile ℕ := {}
  /-- The `this` of `on_file_event` while it runs. -/
  handler : Option ℕ := none
  /-- `_result` at each address. -/
  result : ℕ → Int := fun _ ↦ -1
  /-- The descriptors `::accept` has returned. -/
  accepted : List Int := []
  /-- The results of the coroutine's `co_await`s of accept. -/
  results : List Int := []
  /-- How often the handler resumed the coroutine while it was not suspended on accept. -/
  strayResumes : ℕ := 0
  /-- How often the handler called `::accept` after the coroutine had finished. -/
  callsAfterFinish : ℕ := 0

/-- The steps of the thread. -/
inductive AcceptAction
  /-- `run` delivers an event of `serv_fd` to the stored callback. -/
  | event
  /-- The handler calls `::accept` and acts on the reply. -/
  | reply (r : AcceptReply)
  /-- The other awaiter resumes the coroutine. -/
  | wake
  deriving DecidableEq, Repr

namespace AcceptLoop

variable {γ : Type*} (view : γ → Suspension γ) (servFd : ℕ)

/-- The entry when the coroutine has come to `c`: a new accept awaiter has called `wait_read`. -/
def construct (es : EsFile ℕ) (c : γ) : EsFile ℕ :=
  match view c with
  | .accept addr _ => (es.wait epollIn servFd (some addr)).1
  | _ => es

/-- The results when the coroutine has come to `c`: a new awaiter has -1. -/
def freshResult (result : ℕ → Int) (c : γ) : ℕ → Int :=
  match view c with
  | .accept addr _ => Function.update result addr (-1)
  | _ => result

/-- The coroutine has come to `c`. -/
def settle (s : AcceptLoop γ) (c : γ) : AcceptLoop γ :=
  { s with
    co := c
    es := construct view servFd s.es c
    result := freshResult view s.result c }

/-- `_handle.resume()` in the handler. -/
def resume (s : AcceptLoop γ) : AcceptLoop γ :=
  match view s.co with
  | .accept addr k =>
    settle view servFd { s with results := s.results ++ [s.result addr] } (k (s.result addr))
  | .other c => settle view servFd { s with strayResumes := s.strayResumes + 1 } c
  | .finished => { s with strayResumes := s.strayResumes + 1 }

/-- `_result = fd; _handle.resume();` -/
def complete (s : AcceptLoop γ) (this : ℕ) (fd : Int) : AcceptLoop γ :=
  resume view servFd { s with result := Function.update s.result this fd }

/-- The handler has called `::accept`. -/
def called (s : AcceptLoop γ) : AcceptLoop γ :=
  { s with callsAfterFinish := s.callsAfterFinish + if (view s.co).isFinished then 1 else 0 }

/-- One turn of the loop in `on_file_event`. -/
def onReply (s : AcceptLoop γ) (this : ℕ) : AcceptReply → AcceptLoop γ
  | .eintr => s
  | .eagain | .econnaborted => { s with es := s.es.setFunc .read (some this), handler := none }
  | .descriptor fd => complete view servFd { s with accepted := s.accepted ++ [(fd : Int)] } this fd
  | .failed => complete view servFd s this (-1)

/-- One step. The other awaiters have their turn when the handler has returned. -/
def step (s : AcceptLoop γ) : AcceptAction → Option (AcceptLoop γ)
  | .event =>
    match s.handler, s.es.func .read with
    | none, some this => some { s with es := s.es.setFunc .read none, handler := some this }
    | _, _ => none
  | .reply r => s.handler.map fun this ↦ onReply view servFd (called view s) this r
  | .wake =>
    match s.handler, view s.co with
    | none, .other c => some (settle view servFd s c)
    | _, _ => none

/-- The runs of a coroutine that has come to `start`. -/
def machine (start : γ) : Machine (AcceptLoop γ) AcceptAction where
  init := settle view servFd { co := start } start
  step := step view servFd

/-! ### Exactly once -/

/-- The handler resumes the coroutine only while it is suspended on accept, the descriptors that
are results are those `::accept` returned, in order, and after the end `::accept` is not called. -/
structure Exact (s : AcceptLoop γ) : Prop where
  no_stray : s.strayResumes = 0
  in_order : s.results.filter (0 ≤ ·) = s.accepted
  no_call_after : s.callsAfterFinish = 0

variable {servFd}

/-- The states a coroutine can come to: by any result of an accept, and by other awaiters. -/
inductive Reaches (start : γ) : γ → Prop
  | start : Reaches start start
  | result {c : γ} {a : ℕ} {k : Int → γ} {v : Int} (hc : Reaches start c)
    (hview : view c = .accept a k) (hv : -1 ≤ v) : Reaches start (k v)
  | wake {c c' : γ} (hc : Reaches start c) (hview : view c = .other c') : Reaches start c'

/-- **The discipline.** After every result of an accept, a descriptor or -1, the coroutine awaits
accept again at once, at the same address. -/
def Reawaits (start : γ) : Prop :=
  ∀ c a k v, Reaches view start c → view c = .accept a k → -1 ≤ v →
    ∃ k', view (k v) = .accept a k'

variable {view} {s t : AcceptLoop γ} {start : γ}

/-! ### What a step leaves -/

/-- A new accept awaiter is stored for reading. -/
theorem func_construct {c : γ} {a : ℕ} {k : Int → γ} (h : view c = .accept a k) (es : EsFile ℕ) :
    (construct view servFd es c).func .read = some a := by
  rw [construct, h]
  show (es.wait Direction.read.mask servFd (some a)).1.func .read = some a
  rw [EsFile.func_wait, EsFile.func_setFunc_self]

theorem freshResult_self {c : γ} {a : ℕ} {k : Int → γ} (h : view c = .accept a k)
    (result : ℕ → Int) : freshResult view result c a = -1 := by
  rw [freshResult, h]
  exact Function.update_self ..

/-- What a coroutine that is not suspended on accept leaves of the entry. -/
theorem construct_of_not_accept {c : γ} (h : ∀ a k, view c ≠ .accept a k) (es : EsFile ℕ) :
    construct view servFd es c = es := by
  rw [construct]
  split
  · exact absurd ‹_› (h _ _)
  · rfl

theorem step_reply {a : ℕ} (h : s.handler = some a) (r : AcceptReply) :
    (machine view servFd start).step s (.reply r) =
      some (onReply view servFd (called view s) a r) := by
  show s.handler.map _ = _
  rw [h]
  rfl

/-- The handler resumes the coroutine on some accept awaiter: the result is the one found there. -/
theorem complete_accept {b : ℕ} {k : Int → γ} (h : view s.co = .accept b k) (a : ℕ) (v : Int) :
    complete view servFd s a v =
      settle view servFd { s with
        result := Function.update s.result a v
        results := s.results ++ [Function.update s.result a v b] }
        (k (Function.update s.result a v b)) := by
  rw [complete, resume]
  dsimp only
  rw [h]

/-- The handler resumes the coroutine on its own awaiter. -/
theorem complete_self {a : ℕ} {k : Int → γ} (h : view s.co = .accept a k) (v : Int) :
    complete view servFd s a v =
      settle view servFd { s with
        result := Function.update s.result a v
        results := s.results ++ [v] } (k v) := by
  rw [complete_accept h]
  simp only [Function.update_self]

/-! ### A coroutine that keeps the discipline -/

/-- The stored awaiter and the one the handler works for are the one the coroutine is suspended
on. -/
structure Inv (view : γ → Suspension γ) (start : γ) (s : AcceptLoop γ) : Prop where
  reaches : Reaches view start s.co
  stored : ∀ b, s.es.func .read = some b → ∃ k, view s.co = .accept b k
  handler : ∀ b, s.handler = some b → ∃ k, view s.co = .accept b k
  exact : s.Exact

/-- The coroutine comes to `c`, where the handler's awaiter is again the one it is suspended on. -/
theorem inv_settle {c : γ} (hc : Reaches view start c)
    (hstored : ∀ b, s.es.func .read = some b → ∃ k, view c = .accept b k)
    (hhandler : ∀ b, s.handler = some b → ∃ k, view c = .accept b k) (hs : s.Exact) :
    (settle view servFd s c).Inv view start := by
  refine ⟨hc, fun b hb ↦ ?_, hhandler, ⟨hs.no_stray, hs.in_order, hs.no_call_after⟩⟩
  rcases hview : view c with ⟨a, k⟩ | c' | -
  · obtain rfl : a = b := Option.some.inj ((func_construct hview _).symm.trans hb)
    exact ⟨k, hview⟩
  · have hes : construct view servFd s.es c = s.es := construct_of_not_accept (by simp [hview]) _
    exact hstored b (hes ▸ hb)
  · have hes : construct view servFd s.es c = s.es := construct_of_not_accept (by simp [hview]) _
    exact hstored b (hes ▸ hb)

theorem inv_init : (machine view servFd start).init.Inv view start :=
  inv_settle .start (fun _ h ↦ absurd h (by simp [EsFile.func])) (fun _ h ↦ absurd h (by simp))
    ⟨rfl, rfl, rfl⟩

/-- A result goes to the awaiter the coroutine is suspended on, and the coroutine comes back to an
awaiter at that address. -/
theorem Inv.complete {a : ℕ} {v : Int} (hs : s.Inv view start) (hd : Reawaits view start)
    (hthis : s.handler = some a) (hv : -1 ≤ v) {u : AcceptLoop γ}
    (hu : u = { s with accepted := u.accepted })
    (hlog : s.accepted ++ [v].filter (0 ≤ ·) = u.accepted) :
    (AcceptLoop.complete view servFd u a v).Inv view start := by
  obtain ⟨k, hview⟩ := hs.handler a hthis
  obtain ⟨k', hview'⟩ := hd s.co a k v hs.reaches hview hv
  have hco : u.co = s.co := by rw [hu]
  rw [complete_self (hco ▸ hview)]
  refine inv_settle (.result hs.reaches hview hv) (fun b hb ↦ ?_) (fun b hb ↦ ?_) ⟨?_, ?_, ?_⟩
  · obtain ⟨k₀, hb⟩ := hs.stored b (by rw [hu] at hb; exact hb)
    obtain ⟨rfl, -⟩ := Suspension.accept.inj (hb.symm.trans hview)
    exact ⟨k', hview'⟩
  · obtain rfl : a = b := Option.some.inj (hthis.symm.trans (by rw [hu] at hb; exact hb))
    exact ⟨k', hview'⟩
  · rw [hu]
    exact hs.exact.no_stray
  · dsimp only
    rw [List.filter_append, ← hlog, ← hs.exact.in_order, hu]
  · rw [hu]
    exact hs.exact.no_call_after

/-- **One step keeps the invariant** of a coroutine that keeps the discipline. -/
theorem inv_step {a : AcceptAction} (hd : Reawaits view start)
    (ht : step view servFd s a = some t) (hs : s.Inv view start) : t.Inv view start := by
  cases a with
  | event =>
    unfold step at ht
    dsimp only at ht
    split at ht
    · rename_i this _ hslot
      obtain rfl := Option.some.inj ht
      refine ⟨hs.reaches, fun b hb ↦ ?_, fun b hb ↦ ?_, ⟨hs.exact.1, hs.exact.2, hs.exact.3⟩⟩
      · exact absurd hb (by simp)
      · exact hs.stored b (hslot.trans hb)
    · exact absurd ht (by simp)
  -- `EINTR` calls `::accept` again, `EAGAIN` and `ECONNABORTED` put the handler back in its slot,
  -- and every other reply writes `_result` and resumes
  | reply r =>
    obtain ⟨this, hthis, rfl⟩ := Option.map_eq_some_iff.1 ht
    obtain ⟨k, hview⟩ := hs.handler this hthis
    have hcalled : called view s = s := by
      rw [called, hview]
      rfl
    rw [hcalled]
    have hrearm : Inv view start
        { s with es := s.es.setFunc .read (some this), handler := none } := by
      refine ⟨hs.reaches, fun b hb ↦ ?_, fun b hb ↦ absurd hb (by simp),
        ⟨hs.exact.1, hs.exact.2, hs.exact.3⟩⟩
      dsimp only at hb
      rw [EsFile.func_setFunc_self] at hb
      exact ⟨k, Option.some.inj hb ▸ hview⟩
    cases r with
    | eintr => exact hs
    | eagain => exact hrearm
    | econnaborted => exact hrearm
    | descriptor fd =>
      refine hs.complete hd hthis (by omega) rfl ?_
      simp
    | failed => exact hs.complete hd hthis (by omega) rfl (by simp)
  | wake =>
    unfold step at ht
    dsimp only at ht
    split at ht
    · rename_i c hhandler hview
      obtain rfl := Option.some.inj ht
      refine inv_settle (.wake hs.reaches hview) (fun b hb ↦ ?_) (fun b hb ↦ ?_) hs.exact
      -- nothing is stored for a coroutine suspended on something else
      · obtain ⟨k, hb⟩ := hs.stored b hb
        exact absurd (hb.symm.trans hview) (by simp)
      · exact absurd (hhandler.symm.trans hb) (by simp)
    · exact absurd ht (by simp)

/-! ### A coroutine that does not -/

/-- The reply that makes a result. -/
def replyOf (v : Int) : AcceptReply := if 0 ≤ v then .descriptor v.toNat else .failed

/-- The coroutine is at `c` and the handler has returned; on accept, its awaiter is stored. -/
structure Idle (view : γ → Suspension γ) (c : γ) (s : AcceptLoop γ) : Prop where
  co : s.co = c
  handler : s.handler = none
  stored : ∀ a k, view c = .accept a k → s.es.func .read = some a

/-- The coroutine is at `c` and the handler still runs, for the awaiter at `a`. -/
structure Working (view : γ → Suspension γ) (c : γ) (a : ℕ) (s : AcceptLoop γ) : Prop where
  co : s.co = c
  handler : s.handler = some a
  stored : ∀ b k, view c = .accept b k → s.es.func .read = some b
  result : ∀ b k, view c = .accept b k → s.result b = -1

/-- The handler resumes the coroutine on its own awaiter and runs on. -/
theorem working_complete {a : ℕ} {k : Int → γ} (hview : view s.co = .accept a k)
    (hthis : s.handler = some a) (v : Int) :
    (complete view servFd s a v).Working view (k v) a := by
  rw [complete_self hview]
  exact ⟨rfl, hthis, fun b k' hb ↦ func_construct hb _, fun b k' hb ↦ freshResult_self hb _⟩

/-- While the handler runs for the awaiter the coroutine is suspended on, a reply gives any
result. -/
theorem exists_working_of_handler {a : ℕ} {k : Int → γ} {v : Int}
    (hs : (machine view servFd start).Reachable s) (hthis : s.handler = some a)
    (hview : view s.co = .accept a k) (hv : -1 ≤ v) :
    ∃ t, (machine view servFd start).Reachable t ∧ t.Working view (k v) a := by
  refine ⟨_, hs.step (step_reply hthis (replyOf v)), ?_⟩
  rw [replyOf]
  split
  · rename_i hpos
    rw [onReply, Int.toNat_of_nonneg hpos]
    exact working_complete (by exact hview) (by exact hthis) v
  · obtain rfl : v = -1 := by omega
    exact working_complete (by exact hview) (by exact hthis) (-1)

theorem step_event {a : ℕ} (hnone : s.handler = none) (hstored : s.es.func .read = some a) :
    (machine view servFd start).step s .event =
      some { s with es := s.es.setFunc .read none, handler := some a } := by
  show step view servFd s .event = _
  unfold step
  rw [hnone, hstored]

theorem step_wake {c : γ} (hnone : s.handler = none) (hview : view s.co = .other c) :
    (machine view servFd start).step s .wake = some (settle view servFd s c) := by
  show step view servFd s .wake = _
  unfold step
  rw [hnone, hview]

/-- From an idle state on accept, an event and a reply give any result. -/
theorem exists_working {c : γ} {a : ℕ} {k : Int → γ} {v : Int}
    (hs : (machine view servFd start).Reachable s) (hidle : s.Idle view c)
    (hview : view c = .accept a k) (hv : -1 ≤ v) :
    ∃ t, (machine view servFd start).Reachable t ∧ t.Working view (k v) a :=
  exists_working_of_handler (hs.step (step_event hidle.handler (hidle.stored a k hview))) rfl
    (hidle.co ▸ hview) hv

/-- **What goes wrong.** While the handler runs for the awaiter at `a`, the coroutine is suspended
on accept at `a`: elsewhere a descriptor is lost or resumes it wrongly, and after the end `::accept`
is called again. -/
theorem Working.exists_accept {c : γ} {a : ℕ}
    (h : ∀ s, (machine view servFd start).Reachable s → s.Exact)
    (hs : (machine view servFd start).Reachable s) (hw : s.Working view c a) :
    ∃ k, view c = .accept a k := by
  have hnext : ∀ r, Exact (onReply view servFd (called view s) a r) := fun r ↦
    h _ (hs.step (step_reply hw.handler r))
  rcases hview : view c with ⟨b, k⟩ | c' | -
  · by_cases hab : b = a
    · exact ⟨k, hab ▸ rfl⟩
    · -- the coroutine finds -1 where the handler did not write
      have hlost := (hnext (.descriptor 0)).in_order
      have hco : view s.co = .accept b k := hw.co ▸ hview
      rw [onReply, complete_accept (k := k) (b := b) (by exact hco)] at hlost
      have hnone : Function.update (called view s).result a ((0 : ℕ) : Int) b = -1 := by
        rw [Function.update_of_ne hab]
        exact hw.result b k hview
      rw [hnone] at hlost
      have hbefore : s.results.filter (0 ≤ ·) = s.accepted := (h s hs).in_order
      have hlen := congrArg List.length hlost
      simp [settle, called, List.filter_append, hbefore] at hlen
  -- suspended on something else, it is resumed by a descriptor it does not await
  · have hstray := (hnext (.descriptor 0)).no_stray
    rw [← hw.co] at hview
    exact absurd hstray (by simp [onReply, called, complete, resume, settle, hview])
  -- finished: the handler still calls `::accept`
  · have hcall := (hnext .eintr).no_call_after
    rw [← hw.co] at hview
    exact absurd hcall (by simp [onReply, called, hview, Suspension.isFinished])

/-- Every state of the coroutine is reached between two runs of the handler. -/
theorem exists_idle {c : γ} (h : ∀ s, (machine view servFd start).Reachable s → s.Exact)
    (hc : Reaches view start c) :
    ∃ s, (machine view servFd start).Reachable s ∧ s.Idle view c := by
  induction hc with
  | start => exact ⟨_, .init, rfl, rfl, fun a k hview ↦ func_construct hview _⟩
  | result _ hview hv ih =>
    obtain ⟨s, hs, hidle⟩ := ih
    obtain ⟨t, ht, hw⟩ := exists_working hs hidle hview hv
    obtain ⟨k', hview'⟩ := hw.exists_accept h ht
    -- the handler stores its own awaiter, and that is the one the coroutine is suspended on
    refine ⟨_, ht.step (step_reply hw.handler .eagain), hw.co, rfl, fun b k₁ hb ↦ ?_⟩
    obtain ⟨rfl, -⟩ := Suspension.accept.inj (hview'.symm.trans hb)
    exact EsFile.func_setFunc_self t.es .read _
  | wake _ hview ih =>
    obtain ⟨s, hs, hidle⟩ := ih
    rw [← hidle.co] at hview
    exact ⟨_, hs.step (step_wake hidle.handler hview), rfl, hidle.handler,
      fun a k hb ↦ func_construct hb _⟩

theorem reawaits_of_exact (h : ∀ s, (machine view servFd start).Reachable s → s.Exact) :
    Reawaits view start := by
  intro c a k v hc hview hv
  obtain ⟨s, hs, hidle⟩ := exists_idle h hc
  obtain ⟨t, ht, hw⟩ := exists_working hs hidle hview hv
  exact hw.exists_accept h ht

end AcceptLoop

/-- **Accepted connections are delivered exactly once, in order, and only to an accept,** whatever
`::accept` answers, exactly for the coroutines that await accept again at once and at the same
address after each result. -/
theorem accepted_exact_iff {γ : Type*} (view : γ → Suspension γ) (servFd : ℕ) (start : γ) :
    (∀ s, (AcceptLoop.machine view servFd start).Reachable s → s.Exact) ↔
      AcceptLoop.Reawaits view start := by
  refine ⟨AcceptLoop.reawaits_of_exact, fun hd s hs ↦ ?_⟩
  have hinv : s.Inv view start :=
    hs.invariant AcceptLoop.inv_init fun _ _ _ ht hs ↦ AcceptLoop.inv_step hd ht hs
  exact hinv.exact

namespace AcceptLoop

/-- A server that reads from a client before it accepts the next: at 0 it awaits accept, at 1 it
awaits something else. -/
def readsBetween : ℕ → Suspension ℕ
  | 0 => .accept 0 fun _ ↦ 1
  | _ => .other 0

/-- `tcp_server`: at 0 it awaits accept, and it goes to 1 and finishes on a negative result. -/
def tcpServer : ℕ → Suspension ℕ
  | 0 => .accept 0 fun fd ↦ if 0 ≤ fd then 0 else 1
  | _ => .finished

end AcceptLoop

/-- Two clients connect while the server reads from the first: the second resumes it there, and its
descriptor is no result. When `::accept` fails, `tcp_server` finishes and the handler calls
`::accept` again, for a coroutine that is gone. -/
theorem accept_resumes_elsewhere :
    (∃ s, (AcceptLoop.machine AcceptLoop.readsBetween 3 0).run
        [.event, .reply (.descriptor 7), .reply (.descriptor 8)] = some s ∧
      s.strayResumes = 1 ∧ s.accepted = [7, 8] ∧ s.results = [7] ∧ ¬ s.Exact) ∧
    ∃ s, (AcceptLoop.machine AcceptLoop.tcpServer 3 0).run
        [.event, .reply (.descriptor 7), .reply .failed, .reply .failed] = some s ∧
      s.results = [7, -1] ∧ s.callsAfterFinish = 1 ∧ s.strayResumes = 1 ∧ ¬ s.Exact := by
  refine ⟨⟨_, rfl, rfl, rfl, rfl, fun h ↦ ?_⟩, ⟨_, rfl, rfl, rfl, rfl, fun h ↦ ?_⟩⟩
  · exact absurd h.no_stray (by decide)
  · exact absurd h.no_stray (by decide)

end Nsio
