import Nsio.Foundations.Progress
import Nsio.Coio.ContextFutures

/-!
# Stopping a context comes to an end

`stop` sets `m_breaking` and waits for the worker. The worker may be anywhere: about to enter the
loop, in `epoll_wait`, or in the middle of a batch of functions, while other threads go on adding
functions. `stop_returns` says that `stop` returns, for every schedule that comes back to the worker
and to the thread in `stop`, and in which the handlers and the timers of each turn of the worker
come to an end (`TurnsEnd`). The source does not see to the latter: a coroutine that awaits one
expired timer after the other keeps the worker at its timers, where `m_breaking` is not tested.

With `m_breaking` set, each step of the worker brings it nearer to its end (`loopRank_lt`): it goes
through the loop at most once more, and the functions that are added meanwhile are not in its batch.
A function that never returns is not excluded by the source; here it is a schedule that does not
come back to the worker. A turn of the worker inside a function is its return.
-/

namespace Nsio

namespace IoContext

variable {π φ : Type*} [DecidableEq π] {s t : IoContext π φ} {p : π}

/-! ### The worker -/

/-- How far the handler is from its end. -/
def handlerRank (q : AsyncQueue π (Job φ)) : ℕ × ℕ :=
  match q.pc with
  | .idle => (0, 0)
  | .cleared => (1, 0)
  | .running i => (2, 2 * (q.tmp.length - i))
  | .inFunc i => (2, 2 * (q.tmp.length - i) - 1)
  | .read => (3, 0)

/-- How far a place in the loop is from its end. -/
def pcRank : LoopPc → ℕ
  | .leaving => 1
  | .head => 2
  | .expiring => 3
  | .turn event => if event then 8 else 4
  | .polling => 9
  | .init => 10
  | .starting => 11

/-- How far the thread in the loop is from its end, once `m_breaking` is set. -/
def loopRank (s : IoContext π φ) : ℕ ×ₗ ℕ :=
  match s.loop with
  | none => toLex (0, 0)
  | some (_, pc) => toLex (pcRank pc + (handlerRank s.queue).1, (handlerRank s.queue).2)

omit [DecidableEq π] in
theorem loopRank_eq {l : Option π} {pc : LoopPc} (hloop : s.loop = some (l, pc)) :
    s.loopRank = toLex (pcRank pc + (handlerRank s.queue).1, (handlerRank s.queue).2) := by
  rw [loopRank, hloop]

omit [DecidableEq π] in
/-- The thread in the loop moves on. -/
theorem loopRank_goto_lt {l : Option π} {pc pc' : LoopPc} (hloop : s.loop = some (l, pc))
    (hpc : pcRank pc' < pcRank pc) : (s.goto l pc').loopRank < s.loopRank := by
  rw [loopRank_eq hloop, loopRank_eq (s := s.goto l pc') rfl]
  exact Prod.Lex.toLex_lt_toLex.2 (.inl (Nat.add_lt_add_right hpc _))

omit [DecidableEq π] in
/-- The thread leaves. -/
theorem loopRank_none_lt {l : Option π} {pc : LoopPc} (hloop : s.loop = some (l, pc))
    (ht : t.loop = none) : t.loopRank < s.loopRank := by
  rw [loopRank_eq hloop, loopRank, ht]
  refine Prod.Lex.toLex_lt_toLex.2 (.inl (Nat.add_pos_left ?_ _))
  cases pc with
  | turn event => cases event <;> decide
  | _ => decide

omit [DecidableEq π] in
theorem loopRank_setValue (j : Job φ) : (s.setValue j).loopRank = s.loopRank := by
  rw [setValue]
  split
  · rfl
  · split <;> rfl

/-- A step of the handler that leaves the loop where it is. -/
theorem exists_onQueue {l : Option π} {event : Bool} {a : AsyncAction π (Job φ)}
    (hloop : s.loop = some (l, .turn event)) {q : AsyncQueue π (Job φ)}
    (hq : s.queue.step a = some q) (hrank : toLex (handlerRank q) < toLex (handlerRank s.queue)) :
    ∃ t, s.onQueue a = some t ∧ t.loopRank < s.loopRank := by
  refine ⟨{ s with queue := q }, by rw [onQueue, hq]; rfl, ?_⟩
  rw [loopRank_eq (s := { s with queue := q }) hloop, loopRank_eq hloop,
    Prod.Lex.toLex_lt_toLex]
  rcases Prod.Lex.toLex_lt_toLex.1 hrank with hlt | ⟨heq, hlt⟩
  · exact .inl (Nat.add_lt_add_left hlt _)
  · exact .inr ⟨congrArg (_ + ·) heq, hlt⟩

/-- In the body of the loop there is always a next step, and it leads out of it. -/
theorem exists_turnStep {l : Option π} {event : Bool} (hs : s.Inv)
    (hloop : s.loop = some (l, .turn event)) :
    ∃ t, s.turnStep l event = some t ∧ t.loopRank < s.loopRank := by
  have hcalled := hs.queue.called_le
  rw [AsyncQueue.called] at hcalled
  rcases hpc : s.queue.pc with - | - | i | i | - <;> rw [turnStep, hpc] <;> rw [hpc] at hcalled <;>
    dsimp only at hcalled ⊢
  · cases event with
    | true =>
      refine ⟨goto { s with queue := { s.queue with counter := 0, pc := .read } } l (.turn false),
        ?_, ?_⟩
      · rw [if_pos rfl, onQueue, AsyncQueue.step, hpc]
        rfl
      · rw [loopRank_eq (l := l) rfl, loopRank_eq hloop, handlerRank, handlerRank, hpc]
        exact Prod.Lex.toLex_lt_toLex.2 (.inl (Nat.lt_succ_self 7))
    | false => exact ⟨s.goto l .expiring, rfl, loopRank_goto_lt hloop (by decide)⟩
  · refine exists_onQueue hloop
      (q := { s.queue with tmp := s.queue.funcs, funcs := s.queue.tmp, pc := .running 0 }) ?_ ?_
    · rw [AsyncQueue.step, hpc]
    · rw [handlerRank, handlerRank, hpc]
      exact Prod.Lex.toLex_lt_toLex.2 (.inl (Nat.lt_succ_self 2))
  · split
    · rename_i hlt
      refine exists_onQueue hloop (q := { s.queue with
        executed := s.queue.executed ++ [s.queue.tmp[i]], pc := .inFunc i }) ?_ ?_
      · rw [AsyncQueue.step, hpc]
        dsimp only
        rw [List.getElem?_eq_getElem hlt]
        rfl
      · rw [handlerRank, handlerRank, hpc]
        exact Prod.Lex.toLex_lt_toLex.2 (.inr ⟨rfl, by dsimp only; omega⟩)
    · rename_i hge
      refine exists_onQueue hloop (q := { s.queue with tmp := [], pc := .cleared }) ?_ ?_
      · rw [AsyncQueue.step, hpc]
        exact if_pos (Nat.not_lt.1 hge)
      · rw [handlerRank, handlerRank, hpc]
        exact Prod.Lex.toLex_lt_toLex.2 (.inl (Nat.lt_succ_self 1))
  · obtain ⟨t, ht, hrank⟩ := exists_onQueue hloop (a := .ret)
      (q := { s.queue with pc := .running (i + 1) })
      (by rw [AsyncQueue.step, hpc]; exact if_neg (by simp [hs.owes]))
      (by
        rw [handlerRank, handlerRank, hpc]
        exact Prod.Lex.toLex_lt_toLex.2 (.inr ⟨rfl, by dsimp only; omega⟩))
    refine ⟨t.setValue s.queue.tmp[i], ?_, by rwa [loopRank_setValue]⟩
    rw [List.getElem?_eq_getElem hcalled, Option.bind_some, ht]
    rfl
  · refine exists_onQueue hloop (q := { s.queue with pc := .idle }) ?_ ?_
    · rw [AsyncQueue.step, hpc]
    · rw [handlerRank, handlerRank, hpc]
      exact Prod.Lex.toLex_lt_toLex.2 (.inl Nat.one_pos)

/-- With `m_breaking` set, the thread in the loop comes nearer to its end with every step. -/
theorem loopRank_lt {o : PollOutcome} (hs : s.Inv) (hbreaking : s.breaking = true)
    (ht : s.loopStep o = some t) : t.loopRank < s.loopRank := by
  have hturn : ∀ {l event}, s.loop = some (l, .turn event) → t.loopRank < s.loopRank := by
    intro l event hloop
    obtain ⟨u, hu, hrank⟩ := exists_turnStep hs hloop
    rw [loopStep, hloop] at ht
    exact Option.some.inj (hu.symm.trans ht) ▸ hrank
  cases Step.of_loopStep ht with
  | misuse ha => exact ha.elim
  | ready hloop => exact loopRank_goto_lt hloop (by decide)
  | run hloop => exact loopRank_goto_lt hloop (show pcRank .head < pcRank .init by decide)
  | test hloop =>
    rw [if_pos hbreaking]
    exact loopRank_goto_lt hloop (by decide)
  | poll hloop hpc =>
    refine loopRank_goto_lt hloop ?_
    rcases hpc with ⟨e, rfl⟩ | rfl | rfl
    · cases e <;> decide
    all_goals decide
  | handle hloop | ret hloop | endTurn hloop => exact hturn hloop
  | expired hloop => exact loopRank_goto_lt hloop (by decide)
  | exitWorker hloop | exitLocal hloop => exact loopRank_none_lt hloop rfl

/-- The worker is never held up. -/
theorem exists_loopStep {pc : LoopPc} (hs : s.Inv) (hloop : s.loop = some (none, pc))
    (o : PollOutcome) : ∃ t, s.loopStep o = some t := by
  cases pc with
  | polling => cases o <;> exact ⟨_, by rw [loopStep, hloop]⟩
  | init => exact ⟨_, by rw [loopStep, hloop]; rfl⟩
  | turn event =>
    obtain ⟨u, hu, -⟩ := exists_turnStep hs hloop
    exact ⟨u, by rw [loopStep, hloop]; exact hu⟩
  | starting | head | expiring | leaving => exact ⟨_, by rw [loopStep, hloop]⟩

/-! ### The thread in `stop` -/

/-- Nobody else starts the loop, waits for its end or destroys the context. -/
def Undisturbed (p : π) : ContextAction π φ → Prop
  | .runWorker _ | .runLocal _ | .destroy _ => False
  | .join q => q = p
  | _ => True

/-- The thread `p` is in `stop`, and what it waits for is there. -/
structure Stopping (p : π) (s : IoContext π φ) : Prop where
  futures : s.Futures
  destroyed : s.destroyed = false
  crashed : s.crashed = none
  breaking : s.breaking = true
  inStop : s.callers p = .stopping ∨ s.callers p = .joining ∧
    (s.locThread = some .running ∨ s.locThread = some .finished)

/-- The actions that bring `stop` forward. -/
inductive StopMover
  | join
  | loop

/-- Whose turn it is: the thread in `stop` waits while the worker is running. -/
def stopMover (p : π) (s : IoContext π φ) : StopMover :=
  if s.callers p = .joining ∧ s.locThread = some .running then .loop else .join

/-- A turn of a mover. -/
def StopMover.Turn (p : π) (a : ContextAction π φ) : StopMover → Prop
  | .join => a = .join p
  | .loop => ∃ o, a = .loop o

/-- What is still to be done. -/
def stopRank (p : π) (s : IoContext π φ) : ℕ ×ₗ ℕ ×ₗ ℕ :=
  toLex (if s.callers p = .stopping then 1 else 0, s.loopRank)

/-- What a step of another leaves of a thread in `stop`. -/
structure Beside (p : π) (s t : IoContext π φ) : Prop where
  callers : t.callers p = s.callers p
  locThread : t.locThread = s.locThread ∨
    s.locThread = some .running ∧ t.locThread = some .finished ∧ t.loop = none
  destroyed : t.destroyed = false
  crashed : t.crashed = none
  breaking : t.breaking = true

omit [DecidableEq π] in
theorem crashed_setValue (j : Job φ) :
    (s.setValue j).crashed = s.crashed ∨ (s.setValue j).crashed = some .promiseSatisfied := by
  rw [setValue]
  split
  · exact .inl rfl
  · split
    · exact .inl rfl
    · exact .inr rfl

omit [DecidableEq π] in
theorem callers_setValue (j : Job φ) : (s.setValue j).callers = s.callers ∧
    (s.setValue j).locThread = s.locThread ∧ (s.setValue j).breaking = s.breaking := by
  rw [setValue]
  split
  · exact ⟨rfl, rfl, rfl⟩
  · split <;> exact ⟨rfl, rfl, rfl⟩

theorem callers_of_mayCall (h : s.mayCall (some p) = true) : s.callers p = .free := by
  simp only [mayCall, Bool.and_eq_true, decide_eq_true_eq] at h
  exact h.1.1

omit [DecidableEq π] in
theorem Stopping.callers_ne (hs : s.Stopping p) {q : π}
    (hq : s.callers q = .free ∨ s.callers q = .starting) : p ≠ q := by
  rintro rfl
  rcases hs.inStop with h | ⟨h, -⟩ <;> rw [h] at hq <;> simp at hq

theorem Stopping.beside {a : ContextAction π φ} (hs : s.Stopping p) (ha : Undisturbed p a)
    (hjoin : a ≠ .join p) (ht : s.step a = some t) : Beside p s t := by
  have hfutures := futures_step s a t ht hs.futures
  have hsame : Beside p s s := ⟨rfl, .inl rfl, hs.destroyed, hs.crashed, hs.breaking⟩
  cases Step.of_step ht with
  | misuse hlife =>
    cases a with
    | join q => exact absurd (congrArg _ ha) hjoin
    | runWorker | runLocal | destroy => exact ha.elim
    | _ => exact hlife.elim
  | runWorker | runLocal | destroy => exact ha.elim
  | enterJoin | join => exact absurd (congrArg _ ha) hjoin
  | started hq =>
    exact { hsame with callers := callers_setCaller_of_ne (hs.callers_ne (.inr hq)) }
  | stop hmay =>
    have hne := hs.callers_ne (.inl (callers_of_mayCall hmay))
    exact ⟨callers_setCaller_of_ne hne, .inl rfl, hs.destroyed, hs.crashed, rfl⟩
  | stopLocal => exact ⟨rfl, .inl rfl, hs.destroyed, hs.crashed, rfl⟩
  | ready | run | test | poll | handle | endTurn | expired | callback | exitLocal | call
  | callReturn | submit | submitReturn | write =>
    exact ⟨rfl, .inl rfl, hs.destroyed, hs.crashed, hs.breaking⟩
  | exitWorker hloop =>
    have hrunning := hs.futures.worker.2 ⟨_, hloop⟩
    exact ⟨rfl, .inr ⟨hrunning, rfl, rfl⟩, hs.destroyed, hs.crashed, hs.breaking⟩
  | ret hloop hpc hj hq =>
    obtain ⟨hcallers, hworker, hbreaking⟩ := callers_setValue (s := { s with queue := _ }) _
    refine ⟨congrFun hcallers p, .inl hworker, destroyed_setValue.trans hs.destroyed, ?_,
      hbreaking.trans hs.breaking⟩
    rcases crashed_setValue (s := { s with queue := _ }) _ with h | h
    · exact h.trans hs.crashed
    · exact absurd h hfutures.satisfied

/-- A step of another keeps a thread in `stop` there. -/
theorem Stopping.of_beside {a : ContextAction π φ} (hs : s.Stopping p) (h : Beside p s t)
    (ht : s.step a = some t) : t.Stopping p := by
  refine ⟨futures_step s a t ht hs.futures, h.destroyed, h.crashed, h.breaking, ?_⟩
  rw [h.callers]
  refine hs.inStop.imp_right fun ⟨hp, hworker⟩ ↦ ⟨hp, ?_⟩
  rcases h.locThread with hsame | ⟨-, hfinished, -⟩
  · rwa [hsame]
  · exact .inr hfinished

/-- Only the thread in the loop changes how far it is. -/
theorem loopRank_eq_of_step {a : ContextAction π φ} (ha : Undisturbed p a) (hjoin : a ≠ .join p)
    (hloop : ∀ o, a ≠ .loop o) (ht : s.step a = some t) :
    t.loopRank = s.loopRank ∧ t.locThread = s.locThread := by
  cases Step.of_step ht with
  | misuse => exact ⟨rfl, rfl⟩
  | runWorker | runLocal | destroy => exact ha.elim
  | enterJoin | join => exact absurd (congrArg _ ha) hjoin
  | started | stop | stopLocal | call | callReturn | callback => exact ⟨rfl, rfl⟩
  | ready | run | test | poll | handle | ret | endTurn | expired | exitWorker | exitLocal =>
    exact absurd rfl (hloop _)
  | submit hmay hlocal hq | submitReturn hmay hlocal hq =>
    rw [AsyncQueue.append_eq hq]
    exact ⟨rfl, rfl⟩
  | write hq =>
    rw [AsyncQueue.write_eq hq]
    exact ⟨rfl, rfl⟩

theorem Stopping.step_loop (hs : s.Stopping p) (o : PollOutcome) :
    s.step (.loop o) = s.loopStep o := by
  rw [step, hs.destroyed, hs.crashed]
  rfl

/-- The worker has a turn. -/
theorem Stopping.loop {o : PollOutcome} (hs : s.Stopping p) (ht : s.step (.loop o) = some t) :
    t.Stopping p ∧ stopRank p t < stopRank p s := by
  have hbeside := hs.beside (a := .loop o) trivial (by simp) ht
  refine ⟨hs.of_beside hbeside ht, ?_⟩
  rw [hs.step_loop] at ht
  rw [stopRank, stopRank, hbeside.callers]
  exact Prod.Lex.toLex_lt_toLex.2 (.inr ⟨rfl, loopRank_lt hs.futures.toInv hs.breaking ht⟩)

/-- Others have a turn. -/
theorem Stopping.other {a : ContextAction π φ} (hs : s.Stopping p) (ha : Undisturbed p a)
    (hjoin : a ≠ .join p) (hloop : ∀ o, a ≠ .loop o) (ht : s.step a = some t) :
    t.Stopping p ∧ stopRank p t = stopRank p s ∧ stopMover p t = stopMover p s := by
  have hbeside := hs.beside ha hjoin ht
  obtain ⟨hrank, hworker⟩ := loopRank_eq_of_step ha hjoin hloop ht
  refine ⟨hs.of_beside hbeside ht, ?_, ?_⟩
  · rw [stopRank, stopRank, hbeside.callers, hrank]
  · rw [stopMover, stopMover, hbeside.callers, hworker]

/-- The two tests of `stop`. -/
theorem Stopping.enterJoin (hs : s.Stopping p) (hp : s.callers p = .stopping)
    (ht : s.step (.join p) = some t) : t = s.setCaller p .free ∨
      t = s.setCaller p .joining ∧
        (s.locThread = some .running ∨ s.locThread = some .finished) := by
  rw [step, hs.destroyed, hs.crashed, hp] at ht
  obtain rfl := Option.some.inj ht
  split
  · exact .inl rfl
  · rcases hworker : s.locThread with - | - | - | -
    · exact .inl rfl
    · exact .inr ⟨rfl, .inl rfl⟩
    · exact .inr ⟨rfl, .inr rfl⟩
    · exact .inl rfl

/-- The thread in `stop` has a turn: it returns, or it finds the worker and waits for it. -/
theorem Stopping.join (hs : s.Stopping p) (ht : s.step (.join p) = some t) :
    t.callers p = .free ∨ t.Stopping p ∧ stopRank p t < stopRank p s := by
  have hfutures := futures_step s _ t ht hs.futures
  rcases hs.inStop with hp | ⟨hp, hworker⟩
  · rcases hs.enterJoin hp ht with rfl | ⟨rfl, hworker⟩
    · exact .inl callers_setCaller_self
    · refine .inr ⟨⟨hfutures, hs.destroyed, hs.crashed, hs.breaking,
        .inr ⟨callers_setCaller_self, hworker⟩⟩, ?_⟩
      rw [stopRank, stopRank, callers_setCaller_self, hp]
      exact Prod.Lex.toLex_lt_toLex.2 (.inl Nat.one_pos)
  · rw [step, hs.destroyed, hs.crashed, hp] at ht
    rcases hworker with hworker | hworker <;> rw [hworker] at ht
    · exact absurd ht (by simp)
    · obtain rfl := Option.some.inj ht
      exact .inl callers_setCaller_self

/-- While the worker runs, the thread in `stop` waits. -/
theorem Stopping.step_join_none (hs : s.Stopping p) (h : s.step (.join p) = none) :
    stopMover p s = .loop := by
  rw [step, hs.destroyed, hs.crashed] at h
  rcases hs.inStop with hp | ⟨hp, hworker⟩ <;> rw [hp] at h
  · exact absurd h (by simp)
  · rcases hworker with hworker | hworker <;> rw [hworker] at h
    · exact if_pos ⟨hp, hworker⟩
    · exact absurd h (by simp)

/-- The worker is not held up while somebody waits for it. -/
theorem Stopping.step_loop_ne_none (hs : s.Stopping p) (hmover : stopMover p s = .loop)
    (o : PollOutcome) : s.step (.loop o) ≠ none := by
  have hrunning : s.locThread = some .running := by
    by_contra hne
    rw [stopMover, if_neg fun h ↦ hne h.2] at hmover
    exact absurd hmover (by simp)
  obtain ⟨pc, hloop⟩ := hs.futures.worker.1 hrunning
  obtain ⟨t, ht⟩ := exists_loopStep hs.futures.toInv hloop o
  rw [hs.step_loop, ht]
  exact Option.some_ne_none t

/-! ### Schedules -/

/-- The worker has its turn again and again, and the handlers and callbacks it calls come to an end:
it goes on to what is behind them. -/
def TurnsEnd (act : ℕ → ContextAction π φ) : Prop := Recurs fun k ↦ ∃ o, act k = .loop o

/-- The context under a schedule. What a thread cannot do is passed over. -/
def states (act : ℕ → ContextAction π φ) (s : IoContext π φ) : ℕ → IoContext π φ
  | 0 => s
  | k + 1 => ((states act s k).step (act k)).getD (states act s k)

variable {act : ℕ → ContextAction π φ}

/-- Until `stop` returns, its thread stays in it. -/
theorem stopping_states (hs : s.Stopping p) (hact : ∀ k, Undisturbed p (act k))
    (hnever : ∀ k, (states act s k).callers p ≠ .free) (k : ℕ) : (states act s k).Stopping p := by
  induction k with
  | zero => exact hs
  | succ k ih =>
    have hfree := hnever (k + 1)
    rw [states] at hfree ⊢
    rcases ht : (states act s k).step (act k) with - | t
    · exact ih
    · rw [ht, Option.getD_some] at hfree
      rcases Classical.em (act k = .join p) with hjoin | hjoin
      · exact ((ih.join (hjoin ▸ ht)).resolve_left hfree).1
      · exact ih.of_beside (ih.beside (hact k) hjoin ht) ht

/-- A turn of the one that is waited for. -/
theorem stopRank_succ_lt {k : ℕ} (hs : (states act s k).Stopping p)
    (hfree : (states act s (k + 1)).callers p ≠ .free)
    (hturn : (stopMover p (states act s k)).Turn p (act k)) :
    stopRank p (states act s (k + 1)) < stopRank p (states act s k) := by
  rw [states] at hfree ⊢
  generalize states act s k = u at hs hfree hturn ⊢
  rcases hmover : stopMover p u with - | - <;> rw [hmover] at hturn
  · have hjoin : act k = .join p := hturn
    rw [hjoin] at hfree ⊢
    rcases ht : u.step (.join p) with - | t
    · exact absurd (hmover.symm.trans (hs.step_join_none ht)) (by simp)
    · rw [ht, Option.getD_some] at hfree
      exact ((hs.join ht).resolve_left hfree).2
  · obtain ⟨o, ho⟩ := hturn
    rw [ho]
    obtain ⟨t, ht⟩ := Option.ne_none_iff_exists'.1 (hs.step_loop_ne_none hmover o)
    rw [ht]
    exact (hs.loop ht).2

/-- A turn of another. -/
theorem stopRank_succ {k : ℕ} (hs : (states act s k).Stopping p) (hact : Undisturbed p (act k))
    (hfree : (states act s (k + 1)).callers p ≠ .free) :
    stopRank p (states act s (k + 1)) < stopRank p (states act s k) ∨
      stopRank p (states act s (k + 1)) = stopRank p (states act s k) ∧
        stopMover p (states act s (k + 1)) = stopMover p (states act s k) := by
  rw [states] at hfree ⊢
  generalize states act s k = u at hs hfree ⊢
  rcases ht : u.step (act k) with - | t
  · exact .inr ⟨rfl, rfl⟩
  · rw [ht, Option.getD_some] at hfree
    rw [Option.getD_some]
    rcases Classical.em (act k = .join p) with hjoin | hjoin
    · exact .inl ((hs.join (hjoin ▸ ht)).resolve_left hfree).2
    · rcases Classical.em (∃ o, act k = .loop o) with ⟨o, ho⟩ | hloop
      · exact .inl (hs.loop (ho ▸ ht)).2
      · exact .inr (hs.other hact hjoin (not_exists.1 hloop) ht).2

/-- A thread enters `stop`. -/
theorem stopping_of_step (hs : (machine π φ).Reachable s)
    (ht : s.step (.stop (some p)) = some t) : t.Stopping p := by
  have hfutures : t.Futures := futures_step s _ t ht (hs.invariant futures_init futures_step)
  obtain ⟨hd, hc⟩ := alive_of_step ht
  cases Step.of_step ht with
  | misuse hlife => exact hlife.elim
  | stop hmay => exact ⟨hfutures, hd, hc, rfl, .inl callers_setCaller_self⟩

end IoContext

/-- **`stop` returns.** A thread calls `stop` in any reachable state: there is a worker or none, and
it is anywhere in its loop. Whatever the other threads go on submitting, and whatever `epoll_wait`
returns, the thread comes back, if the schedule comes back to it and to the worker, whose turns come
to an end. No other thread may wait for the same worker or start a new one. -/
theorem stop_returns {π φ : Type*} [DecidableEq π] {s t : IoContext π φ} {p : π}
    {act : ℕ → ContextAction π φ} (hs : (IoContext.machine π φ).Reachable s)
    (ht : s.step (.stop (some p)) = some t) (hact : ∀ k, IoContext.Undisturbed p (act k))
    (hjoin : Recurs fun k ↦ act k = .join p) (hloop : IoContext.TurnsEnd act) :
    ∃ k, (IoContext.states act t k).callers p = .free := by
  by_contra hreturns
  have hnever := not_exists.1 hreturns
  have hstopping := IoContext.stopping_states (IoContext.stopping_of_step hs ht) hact hnever
  refine hreturns (exists_of_fair (P := fun c k ↦ IoContext.StopMover.Turn p (act k) c) ?_
    (fun u : IoContext π φ ↦ u.callers p = .free) (IoContext.stopRank p)
    (IoContext.stopMover p) ?_ ?_)
  · rintro (- | -)
    · exact hjoin
    · exact hloop
  · exact fun k _ hturn ↦ IoContext.stopRank_succ_lt (hstopping k) (hnever (k + 1)) hturn
  · exact fun k _ _ ↦ IoContext.stopRank_succ (hstopping k) (hact k) (hnever (k + 1))

/-- A worker is in the middle of a batch. -/
def busyActions : List (ContextAction Unit Unit) :=
  [.runWorker (), .loop .interrupted, .started (), .loop .interrupted, .loop .interrupted,
    .asyncCall (some ()) (), .write (), .loop (.events true), .loop .failed, .loop .failed]

/-- The context then. -/
def busyContext : IoContext Unit Unit :=
  ((IoContext.machine Unit Unit).run busyActions).getD {}

/-- The worker goes on, calls a handler or the callback of a timer if it can, and the thread in
`stop` has its turn. -/
def stopInTurn (k : ℕ) : ContextAction Unit Unit :=
  if k % 3 = 0 then .loop (.events true) else if k % 3 = 1 then .callback else .join ()

theorem stop_returns_inTurn :
    busyContext.queue.pc = .running 0 ∧ busyContext.queue.tmp.length = 1 ∧
      ∃ k, (IoContext.states stopInTurn ((busyContext.step (.stop (some ()))).getD {}) k).callers
        () = .free := by
  have hs : (IoContext.machine Unit Unit).Reachable busyContext := ⟨busyActions, rfl⟩
  have hturn : ∀ k, ∀ j < 3, ∃ d, (k + d) % 3 = j := fun k j hj ↦ ⟨3 * k + j - k, by omega⟩
  refine ⟨rfl, rfl, stop_returns hs rfl (fun k ↦ ?_) (fun k ↦ ?_) fun k ↦ ?_⟩
  · rw [stopInTurn]
    split
    · trivial
    · split
      · trivial
      · rfl
  · obtain ⟨d, hd⟩ := hturn k 2 (by omega)
    exact ⟨d, by simp [stopInTurn, hd]⟩
  · obtain ⟨d, hd⟩ := hturn k 0 (by omega)
    exact ⟨d, .events true, by simp [stopInTurn, hd]⟩

end Nsio
