import Nsio.Coio.HeldReference
import Nsio.Coio.TimedAwaiter

/-!
# The turn of an event

`run` takes a reference `fe` to the entry of a descriptor and looks at the slot of the writer, and
then at the slot of the reader, through it. The coroutine that the writer resumes runs in between.
When it waits for a descriptor past the capacity of `_fds`, the entries move, and `run` goes on with
what the old storage holds.

`EventLoop` adds to the runtime the turn that is in progress: what is still to be looked at, and the
old entry, once the entries have moved. The runtime alone delivers each event to the entry as it is
in the table. The two agree as long as no reader that is still to be looked at is left behind in the
old storage (`KeepsReference`): each step is then a step of the runtime, or does nothing to it
(`Current.step_cases`).
-/

namespace Nsio

/-! ### What is looked at -/

/-- The slots `run` looks at for an event, in its order, with `SO_ERROR` for an error event. -/
def looks (events : UInt32) (soError : ℕ) : List (Direction × Option ℕ) :=
  if events &&& evErr ≠ 0 then [(.write, some soError), (.read, some soError)]
  else (if events &&& epollOut ≠ 0 then [(.write, none)] else []) ++
    (if events &&& epollIn ≠ 0 then [(.read, none)] else [])

/-- They are the deliveries of the event. -/
theorem map_looks (events : UInt32) (soError : ℕ) :
    (looks events soError).map (fun p ↦ (p.1, eventCode p.1 p.2)) =
      deliveries events soError := by
  rw [looks, deliveries]
  split
  · rfl
  · split <;> split <;> rfl

/-- A handler that is found in a slot. -/
structure Look where
  func : ℕ
  dir : Direction
  err : Option ℕ
  /-- What is looked at after its call. -/
  rest : List (Direction × Option ℕ)
  deriving DecidableEq, Repr

/-- The first handler that is found in the slots of an entry. -/
def EsFile.look (fe : EsFile ℕ) : List (Direction × Option ℕ) → Option Look
  | [] => none
  | (d, err) :: todo =>
    match fe.func d with
    | some a => some ⟨a, d, err, todo⟩
    | none => fe.look todo

theorem EsFile.look_of_none {fe : EsFile ℕ} {todo : List (Direction × Option ℕ)}
    (h : ∀ p ∈ todo, fe.func p.1 = none) : fe.look todo = none := by
  induction todo with
  | nil => rfl
  | cons p todo ih =>
    rw [List.forall_mem_cons] at h
    rw [look, h.1]
    exact ih h.2

theorem EsFile.func_of_look {fe : EsFile ℕ} {todo : List (Direction × Option ℕ)} {l : Look}
    (h : fe.look todo = some l) : fe.func l.dir = some l.func := by
  induction todo with
  | nil => exact absurd h (by simp [look])
  | cons p todo ih =>
    rw [look] at h
    split at h
    · rename_i a ha
      obtain rfl := Option.some.inj h
      exact ha
    · exact ih h

/-- The handler meets `EAGAIN` and writes itself back into the slot it was called from. -/
def Awaiter.rearms (w : Awaiter) (event : Int) (outcome : HandlerOutcome) : Bool :=
  match w.kind with
  | .timeout | .connect => false
  | .recvLazy | .recvRequest | .sendLazy => decide (0 < event) && decide (outcome = .blocked)

/-! ### The loop with its turn -/

/-- The runtime, the storage of its table, and the turn of the event that is in progress. -/
structure EventLoop where
  run : Runtime := {}
  /-- The capacity of `_fds`. -/
  cap : ℕ := 256
  /-- The descriptor of the event. -/
  fd : ℕ := 0
  /-- What is still to be looked at for the event. -/
  todo : List (Direction × Option ℕ) := []
  /-- What the old storage holds at `fe`, if the entries have moved since `fe` was taken. -/
  old : Option (EsFile ℕ) := none

/-- What a running coroutine does. -/
def RuntimeAction.isCode : RuntimeAction → Bool
  | .construct _ _ | .await _ _ | .destroy _ => true
  | .cancelRead _ | .cancelWrite _ | .cancelFdall _ => true
  | .dispatch _ _ _ _ | .expire _ => false

/-- What can happen. -/
inductive LoopAction
  | code (act : RuntimeAction)
  /-- An event has its turn, with what the first handler that is called for it does. -/
  | event (fd : ℕ) (events : UInt32) (soError : ℕ) (outcome : HandlerOutcome)
  /-- The turn goes on, with what the next handler does. -/
  | next (outcome : HandlerOutcome)
  | expire (now : Int)
  deriving DecidableEq, Repr

namespace EventLoop

/-- What `fe` refers to. -/
def held (s : EventLoop) : EsFile ℕ := s.old.getD (s.run.fds.entry s.fd)

/-- A coroutine has run. If the table has become longer than the capacity, its entries have moved,
and what `fe` refers to stays behind. -/
def afterCode (s : EventLoop) (r : Runtime) : EventLoop :=
  if r.fds.fds.length ≤ s.cap then { s with run := r }
  else
    { s with
      run := r
      cap := GrowVec.grownCap s.run.fds.fds.length r.fds.fds.length
      old := some s.held }

/-- `auto & fe = _fds[fd]`. -/
def beginTurn (s : EventLoop) (fd : ℕ) (events : UInt32) (soError : ℕ) : EventLoop :=
  { s with fd := fd, todo := looks events soError, old := none }

/-- `run` calls the next handler that it finds through `fe`. One that is found in the old storage is
cleared and written back there. -/
def callNext (s : EventLoop) (outcome : HandlerOutcome) : Option EventLoop :=
  match s.held.look s.todo with
  | none => some { s with todo := [] }
  | some l =>
    match s.old with
    | none =>
      (s.run.dispatch s.fd l.dir l.err outcome).map fun r ↦ { s with run := r, todo := l.rest }
    | some fe =>
      (s.run.awaiters l.func).bind fun w ↦
        if w.rearms (eventCode l.dir l.err) outcome then
          some { s with todo := l.rest, old := some (fe.setFunc l.dir (some l.func)) }
        else
          (s.run.onFileEvent l.func w s.fd l.dir (eventCode l.dir l.err) outcome).map fun r ↦
            { s with run := r, todo := l.rest, old := some (fe.setFunc l.dir none) }

/-- One step. Timers are popped when no event has its turn. -/
def step (H : TimerHeap ℕ) (s : EventLoop) : LoopAction → Option EventLoop
  | .code act => if act.isCode then (Runtime.step H s.run act).map s.afterCode else none
  | .event fd events soError outcome =>
    if s.todo = [] then
      if fd < s.run.fds.fds.length ∧ (s.run.fds.entry fd).fd ≠ -1 then
        (s.beginTurn fd events soError).callNext outcome
      else some s
    else none
  | .next outcome => s.callNext outcome
  | .expire now =>
    if s.todo = [] then (s.run.expire H now).map fun r ↦ { s with run := r } else none

/-- The runs of a fresh loop. -/
def machine (H : TimerHeap ℕ) : Machine EventLoop LoopAction where
  init := {}
  step := step H

/-- The handler that the action calls through `fe`. -/
def found (s : EventLoop) : LoopAction → Option Look
  | .event fd events soError _ => (s.run.fds.entry fd).look (looks events soError)
  | .next _ => s.held.look s.todo
  | .code _ | .expire _ => none

/-- The action moves the entries. -/
def Moves (H : TimerHeap ℕ) (s : EventLoop) (act : LoopAction) : Prop :=
  ∃ r t, act = .code r ∧ Runtime.step H s.run r = some t ∧ s.cap < t.fds.fds.length

/-- The entries do not move while a handler that is still to be looked at is in its slot. -/
def KeepsReference (H : TimerHeap ℕ) (s : EventLoop) (act : LoopAction) : Prop :=
  s.Moves H act → ∀ p ∈ s.todo, s.held.func p.1 = none

/-! ### A reference that is kept -/

/-- Nothing that is still to be looked at is in the old storage only. -/
def Current (s : EventLoop) : Prop :=
  ∀ fe, s.old = some fe → ∀ p ∈ s.todo, fe.func p.1 = none

/-- The step of the runtime that a step of the loop is. -/
inductive Performs (s : EventLoop) : LoopAction → RuntimeAction → Prop
  | code {r : RuntimeAction} (hcode : r.isCode = true) : Performs s (.code r) r
  | dispatch {act : LoopAction} {l : Look} {fd : ℕ} {outcome : HandlerOutcome}
      (hfound : s.found act = some l) (harmed : (s.run.fds.entry fd).func l.dir = some l.func) :
      Performs s act (.dispatch fd l.dir l.err outcome)
  | expire {now : Int} : Performs s (.expire now) (.expire now)

variable {H : TimerHeap ℕ} {s t : EventLoop}

theorem Current.of_nil (h : s.todo = []) : s.Current := by
  intro fe _ p hp
  rw [h] at hp
  exact absurd hp (by simp)

theorem Current.of_none (h : s.old = none) : s.Current :=
  fun _ hfe ↦ absurd (h.symm.trans hfe) (by simp)

theorem current_init : (machine H).init.Current := .of_nil rfl

theorem held_of_none (h : s.old = none) : s.held = s.run.fds.entry s.fd := by
  rw [held, h]
  rfl

theorem found_beginTurn (fd : ℕ) (events : UInt32) (soError : ℕ) (outcome : HandlerOutcome) :
    (s.beginTurn fd events soError).held.look (s.beginTurn fd events soError).todo =
      s.found (.event fd events soError outcome) := by
  rw [held_of_none rfl]
  rfl

/-- **The next call**: nothing is found, or a handler is called as by the runtime. -/
theorem Current.callNext_cases (h : s.Current) {outcome : HandlerOutcome}
    (ht : s.callNext outcome = some t) :
    t.Current ∧ (t.run = s.run ∨ ∃ l, s.held.look s.todo = some l ∧
      (s.run.fds.entry s.fd).func l.dir = some l.func ∧
      s.run.dispatch s.fd l.dir l.err outcome = some t.run) := by
  rw [callNext] at ht
  rcases hl : s.held.look s.todo with - | l
  · rw [hl] at ht
    obtain rfl := Option.some.inj ht
    exact ⟨.of_nil rfl, .inl rfl⟩
  rw [hl] at ht
  rcases hold : s.old with - | fe
  · rw [hold] at ht
    obtain ⟨r, hr, rfl⟩ := Option.map_eq_some_iff.1 ht
    have hfunc := EsFile.func_of_look hl
    rw [held_of_none hold] at hfunc
    exact ⟨.of_none rfl, .inr ⟨l, rfl, hfunc, hr⟩⟩
  · -- in the old storage there is nothing to find
    rw [held, hold, Option.getD_some, EsFile.look_of_none (h fe hold)] at hl
    exact absurd hl (by simp)

/-- **The steps of the loop are steps of the runtime.** -/
theorem Current.step_cases (h : s.Current) {act : LoopAction} (ht : step H s act = some t) :
    t.run = s.run ∨ ∃ r, s.Performs act r ∧ Runtime.step H s.run r = some t.run := by
  cases act with
  | code r =>
    obtain ⟨hcode, ht⟩ := Option.ite_none_right_eq_some.1 ht
    obtain ⟨u, hu, rfl⟩ := Option.map_eq_some_iff.1 ht
    refine .inr ⟨r, .code hcode, ?_⟩
    rw [afterCode]
    split <;> exact hu
  | event fd events soError outcome =>
    obtain ⟨-, ht⟩ := Option.ite_none_right_eq_some.1 ht
    split at ht
    · rcases (Current.of_none rfl).callNext_cases ht with ⟨-, hrun | ⟨l, hl, harmed, hdispatch⟩⟩
      · exact .inl hrun
      · rw [found_beginTurn fd events soError outcome] at hl
        exact .inr ⟨_, .dispatch hl harmed, hdispatch⟩
    · exact .inl (Option.some.inj ht ▸ rfl)
  | next outcome =>
    rcases h.callNext_cases ht with ⟨-, hrun | ⟨l, hl, harmed, hdispatch⟩⟩
    · exact .inl hrun
    · have hfound : s.found (.next outcome) = some l := hl
      exact .inr ⟨_, .dispatch hfound harmed, hdispatch⟩
  | expire now =>
    obtain ⟨-, ht⟩ := Option.ite_none_right_eq_some.1 ht
    obtain ⟨r, hr, rfl⟩ := Option.map_eq_some_iff.1 ht
    exact .inr ⟨_, .expire, hr⟩

/-- A step that keeps the reference leaves nothing behind in the old storage. -/
theorem Current.step (h : s.Current) {act : LoopAction} (hkeeps : s.KeepsReference H act)
    (ht : EventLoop.step H s act = some t) : t.Current := by
  cases act with
  | code r =>
    obtain ⟨hcode, ht⟩ := Option.ite_none_right_eq_some.1 ht
    obtain ⟨u, hu, rfl⟩ := Option.map_eq_some_iff.1 ht
    rw [afterCode]
    split
    · exact h
    · rename_i hlong
      intro fe hfe
      obtain rfl := Option.some.inj hfe
      exact hkeeps ⟨r, u, rfl, hu, Nat.lt_of_not_le hlong⟩
  | event fd events soError outcome =>
    obtain ⟨-, ht⟩ := Option.ite_none_right_eq_some.1 ht
    split at ht
    · exact ((Current.of_none rfl).callNext_cases ht).1
    · exact Option.some.inj ht ▸ h
  | next outcome => exact (h.callNext_cases ht).1
  | expire now =>
    obtain ⟨-, ht⟩ := Option.ite_none_right_eq_some.1 ht
    obtain ⟨r, -, rfl⟩ := Option.map_eq_some_iff.1 ht
    exact h

end EventLoop

end Nsio
