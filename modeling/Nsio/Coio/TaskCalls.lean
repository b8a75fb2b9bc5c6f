import Nsio.Coio.Task
import Nsio.Foundations.Cells
import Mathlib.Data.List.ReduceOption

/-!
# Awaiting a task is calling it

What a task is for: a coroutine that awaits a task calls it, and goes on when the call has returned
or thrown. `Direct` says this without frames, handles and promises, up to one thing: an exception
that leaves a `task<T>` is passed on only if the memory of its promise happened to be zero.

A coroutine that was spawned is a **call stack**: an activation for each coroutine that awaits the
next one, with its local tasks. A local task is a call that has not been made, or its outcome: the
call is made when the task is first awaited, and a task that is awaited again, or asked whether it
is ready, makes no further one. Call stacks share nothing. Each keeps the operations it has awaited,
and there is a list of those that have ended, with what they have returned: a history, which no step
looks at.

`CoHeap.run_eq` says that the machine of `task.h` is this and nothing else: for every code and all
actions, its state is the one `Direct` is in, laid out in the heap (`Direct.toHeap`). So every
`resume()` finds the coroutine it is meant for, every `result()` its value, every `destroy()` a
frame that exists and is not running, and there is no frame besides those of the call stacks.

## The layout

The names in `Direct` are the addresses of the frames and have no other use. An activation is one
cell, with the handles of its local tasks; a local task is a cell of its own (`Thunk.cell`). A
coroutine that waits for a call has no task in the place of the one it awaits but a hole, which the
layout fills with the handle of the coroutine that is called: so there is no call stack in which the
two disagree.
-/

namespace Nsio

variable {γ ι V E : Type*}

/-- What the caller gets of a value that is returned. -/
def TaskKind.returned : TaskKind → V → Option V
  | .void, _ => none
  | .value, v | .ref, v => some v

/-- What the caller gets of an outcome. -/
def TaskKind.result (kind : TaskKind) : Except E V → TaskResult V E
  | .ok v => .ok (kind.returned v)
  | .error e => .error e

/-- What is left of an outcome that a caller has got: a value may be moved from. -/
def TaskKind.left (kind : TaskKind) (ref : ValueRef V) : Except E V → Except E V
  | .ok v =>
    match kind with
    | .value => .ok (ref.left v)
    | .void | .ref => .ok v
  | .error e => .error e

/-- What follows in the caller. -/
def Awaited.resume : Awaited γ V E → TaskResult V E → γ
  | .result _ k, r => k r
  | .ready k, _ => k

/-- What is left of the outcome then. -/
def Awaited.left (kind : TaskKind) : Awaited γ V E → Except E V → Except E V
  | .result ref _, outcome => kind.left ref outcome
  | .ready _, outcome => outcome

/-- An exception that leaves the coroutine can be kept for the caller. -/
def PromiseInit.keepsException (init : PromiseInit) : Bool := init.kind ≠ .value || init.zero

/-- A local task: a call that has not been made, or its outcome. -/
inductive Thunk (γ V E : Type*)
  | pending (name : ℕ) (init : PromiseInit) (body : γ)
  | done (name : ℕ) (kind : TaskKind) (outcome : Except E V)

def Thunk.name : Thunk γ V E → ℕ
  | .pending name _ _ | .done name _ _ => name

/-- An activation that waits for the call of one of its local tasks: those declared after it, those
declared before it, and what follows. -/
structure Caller (γ V E : Type*) where
  name : ℕ
  init : PromiseInit
  inner : List (Option (Thunk γ V E))
  outer : List (Option (Thunk γ V E))
  k : Awaited γ V E

/-- A call stack: the innermost activation, and those that wait for it, one for the other. -/
structure CallStack (γ ι V E : Type*) where
  name : ℕ
  init : PromiseInit := ⟨.void, true⟩
  locals : List (Option (Thunk γ V E)) := []
  callers : List (Caller γ V E) := []
  /-- The body of the outermost activation. -/
  body : γ
  /-- The operations that have been awaited, and their results. -/
  log : List (ι × Int) := []

namespace CallStack

/-- The pending call of the local task `n` is made. -/
def enter (st : CallStack γ ι V E) (n name : ℕ) (init : PromiseInit) (k : Awaited γ V E) :
    CallStack γ ι V E where
  name := name
  init := init
  callers := ⟨st.name, st.init, st.locals.take n, st.locals.drop (n + 1), k⟩ :: st.callers
  body := st.body
  log := st.log

/-- The innermost activation ends, and the caller `c` goes on. -/
def leave (st : CallStack γ ι V E) (c : Caller γ V E) (callers : List (Caller γ V E))
    (outcome : Except E V) : CallStack γ ι V E × γ :=
  ({ st with
      name := c.name
      init := c.init
      locals := c.inner ++
        some (.done st.name st.init.kind (c.k.left st.init.kind outcome)) :: c.outer
      callers := callers },
    c.k.resume (st.init.kind.result outcome))

end CallStack

/-- The call stacks of the loop's thread: those that run, the innermost first; those that are
suspended on an `io_awaiter`; and the coroutines that are still to be started. -/
structure Direct (γ ι V E : Type*) where
  active : List (CallStack γ ι V E × γ) := []
  suspended : List (CallStack γ ι V E × ι × (Int → γ)) := []
  posted : List (ℕ × γ) := []
  /-- The coroutines that have ended, with what they have awaited and what they have returned. -/
  finished : List (γ × List (ι × Int) × V) := []
  crashed : Option (Crash E) := none

/-! ### Names -/

def Caller.names (c : Caller γ V E) : List ℕ :=
  c.name :: (c.inner ++ c.outer).reduceOption.map Thunk.name

def CallStack.names (st : CallStack γ ι V E) : List ℕ :=
  st.name :: (st.locals.reduceOption.map Thunk.name ++ st.callers.flatMap Caller.names)

def Direct.names (t : Direct γ ι V E) : List ℕ :=
  t.active.flatMap (fun x ↦ x.1.names) ++
    (t.suspended.flatMap (fun x ↦ x.1.names) ++ t.posted.map Prod.fst)

/-! ### Steps -/

namespace Direct

def crash (why : Crash E) : Direct γ ι V E := { crashed := some why }

/-- The innermost call stack does what the code of its innermost activation says; `rest` are the
others on the stack. -/
def act (t : Direct γ ι V E) (st : CallStack γ ι V E) (rest : List (CallStack γ ι V E × γ))
    (b : ℕ) (zero : Bool) : Act γ ι V E → Option (Direct γ ι V E)
  | .coReturn v =>
    match st.callers with
    | [] => some { t with active := rest, finished := (st.body, st.log, v) :: t.finished }
    | c :: callers => some { t with active := st.leave c callers (.ok v) :: rest }
  | .throw e =>
    match st.callers with
    | [] => some (crash (.unhandled e))
    | c :: callers =>
      if st.init.keepsException then
        some { t with active := st.leave c callers (.error e) :: rest }
      else some (crash .strayPointer)
  | .io op k => some { t with active := rest, suspended := (st, op, k) :: t.suspended }
  | .call kind body k =>
    if b ∉ t.names then
      some { t with
        active :=
          ({ st with locals := some (.pending b ⟨kind, zero⟩ body) :: st.locals }, k) :: rest }
    else none
  | .await n ref k => (st.locals[n]?).map fun
    | none => crash .brokenPromise
    | some (.pending b init body) =>
      { t with active := (st.enter n b init (.result ref k), body) :: rest }
    | some (.done b kind outcome) =>
      { t with
        active :=
          ({ st with locals := st.locals.set n (some (.done b kind (kind.left ref outcome))) },
            k (kind.result outcome)) :: rest }
  | .whenReady n k => (st.locals[n]?).map fun
    | none => { t with active := (st, k) :: rest }
    | some (.pending b init body) =>
      { t with active := (st.enter n b init (.ready k), body) :: rest }
    | some (.done _ _ _) => { t with active := (st, k) :: rest }
  | .isReady n k => (st.locals[n]?).map fun
    | none => { t with active := (st, k true) :: rest }
    | some (.pending _ _ _) => { t with active := (st, k false) :: rest }
    | some (.done _ _ _) => { t with active := (st, k true) :: rest }
  | .move dst src k =>
    match st.locals[dst]?, st.locals[src]? with
    | some _, some new =>
      if dst = src then some { t with active := (st, k) :: rest }
      else some { t with
        active := ({ st with locals := (st.locals.set dst new).set src none }, k) :: rest }
    | _, _ => none
  | .drop k =>
    match st.locals with
    | [] => none
    | _ :: locals => some { t with active := ({ st with locals := locals }, k) :: rest }
  | .spawn body k =>
    if b ∉ t.names then
      some { t with active := ({ name := b, body := body }, body) :: (st, k) :: rest }
    else none

/-- One step. -/
def step (code : γ → Act γ ι V E) (t : Direct γ ι V E) : CoAction γ → Option (Direct γ ι V E)
  | .exec b zero =>
    match t.active with
    | [] => none
    | (st, c) :: rest => t.act st rest b zero (code c)
  | .resume a result =>
    (t.suspended.find? fun x ↦ x.1.name = a).map fun x ↦
      { t with
        active := ({ x.1 with log := x.1.log ++ [(x.2.1, result)] }, x.2.2 result) :: t.active
        suspended := t.suspended.eraseP fun x ↦ x.1.name = a }
  | .post a body =>
    if t.crashed.isNone ∧ a ∉ t.names then some { t with posted := t.posted ++ [(a, body)] }
    else none
  | .start =>
    match t.active, t.posted with
    | [], (a, body) :: posted =>
      some { t with active := [({ name := a, body := body }, body)], posted := posted }
    | _, _ => none

/-- The runs of a loop without coroutines. -/
def machine (code : γ → Act γ ι V E) : Machine (Direct γ ι V E) (CoAction γ) where
  init := {}
  step := step code

end Direct

/-! ### The layout -/

section Layout

/-- The promise of a coroutine that is finished. -/
def Promise.ofOutcome (kind : TaskKind) : Except E V → Promise V E
  | .ok v => (Promise.new ⟨kind, true⟩).returnValue v
  | .error e =>
    match kind with
    | .value => .value (.exception e)
    | .void => .void (.exception e)
    | .ref => .ref none (some e)

theorem Promise.result_ofOutcome (kind : TaskKind) (outcome : Except E V) :
    (Promise.ofOutcome kind outcome).result = some (kind.result outcome) := by
  cases outcome <;> cases kind <;> rfl

/-- What is left in the promise is what is left of the outcome. -/
theorem Promise.left_ofOutcome (kind : TaskKind) (ref : ValueRef V) (outcome : Except E V) :
    (Promise.ofOutcome kind outcome).left ref = .ofOutcome kind (kind.left ref outcome) := by
  cases outcome <;> cases kind <;> rfl

theorem Promise.returnValue_new (init : PromiseInit) (v : V) :
    (Promise.new init : Promise V E).returnValue v = .ofOutcome init.kind (.ok v) := by
  obtain ⟨kind, zero⟩ := init
  cases kind <;> rfl

theorem Promise.unhandledException_new (init : PromiseInit) (e : E) :
    (Promise.new init : Promise V E).unhandledException e =
      if init.keepsException then .ok (.ofOutcome init.kind (.error e))
      else .error .strayPointer := by
  obtain ⟨kind, zero⟩ := init
  cases kind <;> cases zero <;> rfl

theorem Promise.isDetached_ofOutcome (kind : TaskKind) (outcome : Except E V) :
    (Promise.ofOutcome kind outcome).isDetached = false := by
  cases outcome <;> cases kind <;> rfl

/-- The cell of a local task of the activation `owner`. -/
def Thunk.cell (ι : Type*) (owner : ℕ) : Thunk γ V E → ℕ × CoFrame γ ι V E
  | .pending name init body => (name, { point := .initial body, promise := .new init })
  | .done name kind outcome =>
    (name, { point := .final, promise := .ofOutcome kind outcome, parent := some owner })

/-- The cells of the local tasks of the activation `owner`. -/
def taskCells (ι : Type*) (owner : ℕ) (locals : List (Option (Thunk γ V E))) :
    List (ℕ × CoFrame γ ι V E) :=
  locals.reduceOption.map (Thunk.cell ι owner)

/-- The handles of the local tasks. -/
def handles (locals : List (Option (Thunk γ V E))) : List (Option ℕ) :=
  locals.map (Option.map Thunk.name)

/-- The promise of an activation: the outermost one is a detached task. -/
def promiseUnder (init : PromiseInit) : List (Caller γ V E) → Promise V E
  | [] => .void .detached
  | _ :: _ => .new init

def parentOf : List (Caller γ V E) → Option ℕ
  | [] => none
  | c :: _ => some c.name

/-- The cells of the activations that wait for `callee`. -/
def callerCells (ι : Type*) : ℕ → List (Caller γ V E) → List (ℕ × CoFrame γ ι V E)
  | _, [] => []
  | callee, c :: callers =>
    (c.name,
      { point := .atTask callee c.k
        promise := promiseUnder c.init callers
        parent := parentOf callers
        locals := handles c.inner ++ some callee :: handles c.outer }) ::
      (taskCells ι c.name (c.inner ++ c.outer) ++ callerCells ι c.name callers)

/-- The frame of the innermost activation, at the given point. -/
def CallStack.frame (st : CallStack γ ι V E) (point : Point γ ι V E) : CoFrame γ ι V E where
  point := point
  promise := promiseUnder st.init st.callers
  parent := parentOf st.callers
  locals := handles st.locals

/-- The cells of a call stack whose innermost activation is at the given point. -/
def CallStack.cells (st : CallStack γ ι V E) (point : Point γ ι V E) :
    List (ℕ × CoFrame γ ι V E) :=
  (st.name, st.frame point) ::
    (taskCells ι st.name st.locals ++ callerCells ι st.name st.callers)

def postedCell (x : ℕ × γ) : ℕ × CoFrame γ ι V E :=
  (x.1, { point := .initial x.2, promise := .void .detached })

/-- All cells. -/
def Direct.cells (t : Direct γ ι V E) : List (ℕ × CoFrame γ ι V E) :=
  t.active.flatMap (fun x ↦ x.1.cells (.running x.2)) ++
    (t.suspended.flatMap (fun x ↦ x.1.cells (.atIo x.2.1 x.2.2)) ++ t.posted.map postedCell)

/-- The heap of the machine. -/
def Direct.toHeap (t : Direct γ ι V E) : CoHeap γ ι V E where
  frames := heapOf t.cells
  stack := t.active.map fun x ↦ x.1.name
  posted := t.posted.map Prod.fst
  crashed := t.crashed

end Layout

/-! ### Names and cells -/

theorem Thunk.fst_cell (owner : ℕ) (x : Thunk γ V E) : (x.cell ι owner).1 = x.name := by
  cases x <;> rfl

theorem map_fst_taskCells (owner : ℕ) (locals : List (Option (Thunk γ V E))) :
    (taskCells ι owner locals).map Prod.fst = locals.reduceOption.map Thunk.name := by
  rw [taskCells, List.map_map]
  exact List.map_congr_left fun x _ ↦ x.fst_cell owner

theorem map_fst_callerCells (callee : ℕ) (callers : List (Caller γ V E)) :
    (callerCells ι callee callers).map Prod.fst = callers.flatMap Caller.names := by
  induction callers generalizing callee with
  | nil => rfl
  | cons c callers ih =>
    rw [callerCells, List.map_cons, List.map_append, map_fst_taskCells, ih, List.flatMap_cons]
    rfl

theorem CallStack.map_fst_cells (st : CallStack γ ι V E) (point : Point γ ι V E) :
    (st.cells point).map Prod.fst = st.names := by
  rw [cells, List.map_cons, List.map_append, map_fst_taskCells, map_fst_callerCells]
  rfl

theorem Direct.map_fst_cells (t : Direct γ ι V E) : t.cells.map Prod.fst = t.names := by
  simp only [cells, names, List.map_append, List.map_flatMap, CallStack.map_fst_cells,
    List.map_map]
  rfl

/-! ### The machine shows the call stacks -/

/-- The state of the machine is the call stacks, laid out in its heap. -/
structure CoHeap.Shows (s : CoHeap γ ι V E) (t : Direct γ ι V E) : Prop where
  frames : Holds s.frames t.cells
  stack : s.stack = t.active.map fun x ↦ x.1.name
  posted : s.posted = t.posted.map Prod.fst
  crashed : s.crashed = t.crashed

/-- The cells of the call stacks that do not run. -/
def Direct.idleCells (t : Direct γ ι V E) : List (ℕ × CoFrame γ ι V E) :=
  t.suspended.flatMap (fun x ↦ x.1.cells (.atIo x.2.1 x.2.2)) ++ t.posted.map postedCell

/-- The cells of the call stacks that run. -/
def activeCells (active : List (CallStack γ ι V E × γ)) : List (ℕ × CoFrame γ ι V E) :=
  active.flatMap fun x ↦ x.1.cells (.running x.2)

theorem Direct.cells_eq (t : Direct γ ι V E) : t.cells = activeCells t.active ++ t.idleCells := rfl

theorem activeCells_cons (st : CallStack γ ι V E) (c : γ) (rest : List (CallStack γ ι V E × γ)) :
    activeCells (ι := ι) ((st, c) :: rest) = st.cells (.running c) ++ activeCells rest := rfl

namespace CoHeap

variable {s : CoHeap γ ι V E} {t : Direct γ ι V E}

theorem Shows.eq_toHeap (h : s.Shows t) : s = t.toHeap := by
  obtain ⟨hframes, hstack, hposted, hcrashed⟩ := h
  have hheap : s.frames = heapOf t.cells := hframes.unique (holds_heapOf hframes.nodup)
  cases s
  simp only [Direct.toHeap, CoHeap.mk.injEq]
  exact ⟨hheap, hstack, hposted, hcrashed⟩

theorem shows_crash (why : Crash E) :
    (crash why : CoHeap γ ι V E).Shows (Direct.crash why) :=
  ⟨Holds.nil_iff.2 rfl, rfl, rfl, rfl⟩

/-- A step of the innermost call stack leaves the others alone. -/
theorem Shows.of_active (h : s.Shows t) {frames : ℕ → Option (CoFrame γ ι V E)} {stack : List ℕ}
    {active : List (CallStack γ ι V E × γ)}
    (hframes : Holds frames (activeCells active ++ t.idleCells))
    (hstack : stack = active.map fun x ↦ x.1.name) :
    Shows { s with frames := frames, stack := stack } { t with active := active } :=
  ⟨hframes, hstack, h.posted, h.crashed⟩

/-! ### Destroying local tasks -/

section Destroy

variable {owner : ℕ} {cells : List (ℕ × CoFrame γ ι V E)}

theorem destroyTask_handle {x : Option (Thunk γ V E)}
    (h : Holds s.frames (taskCells ι owner [x] ++ cells)) :
    ∃ frames, s.destroyTask (x.map Thunk.name) = { s with frames := frames } ∧
      Holds frames cells := by
  rcases x with - | x
  · exact ⟨s.frames, rfl, h⟩
  · have hget : s.frames (x.cell ι owner).1 = some (x.cell ι owner).2 := Holds.get h
    rw [x.fst_cell] at hget
    refine ⟨Function.update s.frames x.name none, ?_, ?_⟩
    · rw [Option.map_some, destroyTask, destroy, hget]
      cases x <;> rfl
    · have hfree := Holds.free (a := (x.cell ι owner).1) (b := (x.cell ι owner).2) h
      rwa [x.fst_cell] at hfree

theorem destroyTasks_handles {locals : List (Option (Thunk γ V E))}
    (h : Holds s.frames (taskCells ι owner locals ++ cells)) :
    ∃ frames, s.destroyTasks (handles locals) = { s with frames := frames } ∧
      Holds frames cells := by
  induction locals generalizing s with
  | nil => exact ⟨s.frames, rfl, h⟩
  | cons x locals ih =>
    have hsplit : taskCells ι owner (x :: locals) =
        taskCells ι owner [x] ++ taskCells ι owner locals := by
      rw [taskCells, taskCells, taskCells, ← List.map_append, ← List.reduceOption_append]
      rfl
    rw [hsplit, List.append_assoc] at h
    obtain ⟨frames, hfirst, hrest⟩ := destroyTask_handle h
    obtain ⟨frames', hlast, hcells⟩ := ih (s := { s with frames := frames }) hrest
    refine ⟨frames', ?_, hcells⟩
    rw [handles, List.map_cons, destroyTasks, List.foldl_cons, hfirst]
    exact hlast

end Destroy

/-! ### Local tasks -/

theorem taskCells_append (owner : ℕ) (xs ys : List (Option (Thunk γ V E))) :
    taskCells ι owner (xs ++ ys) = taskCells ι owner xs ++ taskCells ι owner ys := by
  rw [taskCells, List.reduceOption_append, List.map_append]
  rfl

theorem taskCells_cons (owner : ℕ) (x : Option (Thunk γ V E)) (xs : List (Option (Thunk γ V E))) :
    taskCells ι owner (x :: xs) = taskCells ι owner [x] ++ taskCells ι owner xs :=
  taskCells_append owner [x] xs

/-- A task among the local ones, brought to the front. -/
theorem taskCells_middle (owner : ℕ) (x : Thunk γ V E) (xs ys : List (Option (Thunk γ V E))) :
    (taskCells ι owner (xs ++ some x :: ys)).Perm
      (x.cell ι owner :: taskCells ι owner (xs ++ ys)) := by
  rw [taskCells_append, taskCells_cons, taskCells_append]
  exact List.perm_middle

/-! ### The end of an activation -/

section Finish

variable {st : CallStack γ ι V E} {c : γ} {cells : List (ℕ × CoFrame γ ι V E)} {stack : List ℕ}

/-- The local tasks of an activation that ends are destroyed, and its frame is written for the last
time. -/
theorem setFrame_destroyTasks (h : Holds s.frames (st.cells (.running c) ++ cells))
    (f : CoFrame γ ι V E) :
    ∃ frames, (s.destroyTasks (handles st.locals)).setFrame st.name f =
      { s with frames := frames } ∧
      Holds frames ((st.name, f) :: (callerCells ι st.name st.callers ++ cells)) := by
  have hcells : (st.cells (.running c) ++ cells).Perm (taskCells ι st.name st.locals ++
      (st.name, st.frame (.running c)) :: (callerCells ι st.name st.callers ++ cells)) := by
    rw [CallStack.cells, List.cons_append, List.append_assoc]
    exact List.perm_middle.symm
  obtain ⟨frames, hdestroy, hframes⟩ := destroyTasks_handles (h.perm hcells)
  exact ⟨_, by rw [hdestroy, setFrame], hframes.set f⟩

/-- A detached coroutine that ends takes its frame with it. -/
theorem finish_detached (h : Holds s.frames (st.cells (.running c) ++ cells))
    (hst : st.callers = []) (hstack : s.stack = st.name :: stack) :
    ∃ frames, s.finish st.name (st.frame (.running c)) (.void .detached) =
      { s with frames := frames, stack := stack } ∧ Holds frames cells := by
  obtain ⟨frames, hlast, hframes⟩ := setFrame_destroyTasks h
    ⟨.final, .void .detached, parentOf st.callers, []⟩
  rw [hst] at hframes
  refine ⟨_, ?_, hframes.free⟩
  show (CoHeap.transfer (CoHeap.destroy (setFrame (s.destroyTasks (handles st.locals)) st.name
    ⟨.final, .void .detached, parentOf st.callers, []⟩) st.name) (parentOf st.callers)) = _
  rw [hlast, destroy]
  dsimp only
  rw [hframes.get, hst]
  show { s with frames := Function.update frames st.name none, stack := s.stack.tail } = _
  rw [hstack]
  rfl

/-- The cell of a finished task of which a result has been taken. -/
def doneCell (owner child : ℕ) (kind : TaskKind) (outcome : Except E V) : ℕ × CoFrame γ ι V E :=
  Thunk.cell ι owner (.done child kind outcome : Thunk γ V E)

/-- `await_resume` for a promise that has a result. -/
theorem awaitResume_result {a child : ℕ} {f g : CoFrame γ ι V E} {r : TaskResult V E}
    (hg : s.frames child = some g) (hr : g.promise.result = some r) (ref : ValueRef V)
    (k : TaskResult V E → γ) :
    s.awaitResume a f child (.result ref k) =
      (s.setFrame child { g with promise := g.promise.left ref }).setFrame a
        { f with point := .running (k r) } := by
  rw [awaitResume, hg]
  dsimp only
  rw [hr]

/-- `await_resume` for a task that is finished. -/
theorem awaitResume_done {a owner child : ℕ} {kind : TaskKind} {outcome : Except E V}
    {f g : CoFrame γ ι V E}
    (h : Holds s.frames (doneCell owner child kind outcome :: (a, g) :: cells))
    (k : Awaited γ V E) :
    ∃ frames, s.awaitResume a f child k = { s with frames := frames } ∧
      Holds frames (doneCell owner child kind (k.left kind outcome) ::
        (a, { f with point := .running (k.resume (kind.result outcome)) }) :: cells) := by
  cases k with
  | ready k =>
    exact ⟨_, rfl, ((h.perm (List.Perm.swap ..)).set _).perm (List.Perm.swap ..)⟩
  | result ref k =>
    have hget : s.frames child = some (doneCell owner child kind outcome).2 := h.get
    have hchild := h.set (doneCell (γ := γ) (ι := ι) owner child kind (kind.left ref outcome)).2
    refine ⟨_, ?_, ((hchild.perm (List.Perm.swap ..)).set _).perm (List.Perm.swap ..)⟩
    rw [awaitResume_result hget (Promise.result_ofOutcome kind outcome)]
    dsimp only [doneCell, Thunk.cell]
    rw [Promise.left_ofOutcome]
    rfl

theorem handles_middle (xs ys : List (Option (Thunk γ V E))) (x : Thunk γ V E) :
    handles (xs ++ some x :: ys) = handles xs ++ some x.name :: handles ys := by
  rw [handles, List.map_append, List.map_cons]
  rfl

/-- The caller of a finished coroutine goes on, and has it as a local task again. -/
theorem transfer_caller {outcome : Except E V} {caller : Caller γ V E}
    {callers : List (Caller γ V E)}
    (h : Holds s.frames (doneCell caller.name st.name st.init.kind outcome ::
      (callerCells ι st.name (caller :: callers) ++ cells))) :
    ∃ frames, s.transfer (some caller.name) =
      { s with frames := frames, stack := caller.name :: s.stack.tail } ∧
      Holds frames ((st.leave caller callers outcome).1.cells
        (.running (st.leave caller callers outcome).2) ++ cells) := by
  have hcaller := (h.perm (List.Perm.swap ..)).get
  obtain ⟨frames, hresume, hframes⟩ := awaitResume_done
    (s := { s with stack := caller.name :: s.stack.tail }) h caller.k
  refine ⟨frames, ?_, ?_⟩
  · rw [transfer, hcaller]
    exact hresume
  · refine (hframes.perm (List.Perm.swap ..)).perm ?_
    rw [CallStack.cells, CallStack.leave, CallStack.frame]
    dsimp only
    rw [handles_middle]
    refine List.Perm.cons _ ?_
    have htasks := taskCells_middle (ι := ι) caller.name
      (.done st.name st.init.kind (caller.k.left st.init.kind outcome)) caller.inner caller.outer
    exact ((htasks.append_right _).append_right cells).symm

/-- Any other coroutine that ends continues its caller with its outcome. -/
theorem finish_leave (h : Holds s.frames (st.cells (.running c) ++ cells)) (outcome : Except E V)
    {caller : Caller γ V E} {callers : List (Caller γ V E)} (hst : st.callers = caller :: callers)
    (hstack : s.stack = st.name :: stack) :
    ∃ frames, s.finish st.name (st.frame (.running c)) (.ofOutcome st.init.kind outcome) =
      { s with frames := frames, stack := caller.name :: stack } ∧
      Holds frames ((st.leave caller callers outcome).1.cells
        (.running (st.leave caller callers outcome).2) ++ cells) := by
  obtain ⟨frames, hlast, hframes⟩ := setFrame_destroyTasks h
    ⟨.final, .ofOutcome st.init.kind outcome, parentOf st.callers, []⟩
  rw [hst] at hframes
  obtain ⟨frames', htransfer, hframes'⟩ := transfer_caller (s := { s with frames := frames })
    hframes
  refine ⟨frames', ?_, hframes'⟩
  show (CoHeap.transfer (if (Promise.ofOutcome st.init.kind outcome).isDetached then _ else
    setFrame (s.destroyTasks (handles st.locals)) st.name
    ⟨.final, .ofOutcome st.init.kind outcome, parentOf st.callers, []⟩) (parentOf st.callers)) = _
  rw [Promise.isDetached_ofOutcome, if_neg (by simp), hlast, hst]
  refine Eq.trans htransfer ?_
  dsimp only
  rw [hstack]
  rfl

end Finish

/-! ### What an activation does -/

section Acts

variable {st : CallStack γ ι V E} {c : γ} {rest : List (CallStack γ ι V E × γ)}

theorem Shows.innermost (h : s.Shows t) (hactive : t.active = (st, c) :: rest) :
    Holds s.frames (st.cells (.running c) ++ (activeCells rest ++ t.idleCells)) := by
  have hframes := h.frames
  rwa [Direct.cells_eq, hactive, activeCells_cons, List.append_assoc] at hframes

theorem Shows.stack_eq (h : s.Shows t) (hactive : t.active = (st, c) :: rest) :
    s.stack = st.name :: rest.map fun x ↦ x.1.name := by
  rw [h.stack, hactive, List.map_cons]

theorem Shows.isNone_iff (h : s.Shows t) (b : ℕ) : (s.frames b).isNone ↔ b ∉ t.names := by
  rw [Option.isNone_iff_eq_none, h.frames.eq_none_iff, Direct.map_fst_cells]

/-- A new frame is one that has no name yet. -/
theorem Shows.rel_fresh (h : s.Shows t) (b : ℕ) {s' : CoHeap γ ι V E} {t' : Direct γ ι V E}
    (hnew : s.frames b = none → s'.Shows t') :
    Option.Rel Shows (if (s.frames b).isNone then some s' else none)
      (if b ∉ t.names then some t' else none) := by
  rw [if_congr (h.isNone_iff b) rfl rfl]
  split
  · exact .some (hnew (Option.isNone_iff_eq_none.1 ((h.isNone_iff b).2 ‹_›)))
  · exact .none

/-- The innermost activation goes on, with these local tasks. -/
theorem Shows.goto (h : s.Shows t) (hactive : t.active = (st, c) :: rest)
    {frames : ℕ → Option (CoFrame γ ι V E)} {f : CoFrame γ ι V E}
    (locals : List (Option (Thunk γ V E)))
    (hframes : Holds frames ((st.name, f) :: (taskCells ι st.name locals ++
      callerCells ι st.name st.callers ++ (activeCells rest ++ t.idleCells)))) (k : γ) :
    Shows ({ s with frames := frames }.setFrame st.name
        (CallStack.frame { st with locals := locals } (.running k)))
      { t with active := ({ st with locals := locals }, k) :: rest } := by
  have hstack : s.stack = (({ st with locals := locals }, k) :: rest).map fun x ↦ x.1.name := by
    rw [h.stack_eq hactive]
    rfl
  refine h.of_active ?_ hstack
  rw [activeCells_cons, List.append_assoc]
  exact hframes.set _

/-- The innermost activation goes on with the local tasks it has. -/
theorem Shows.goto_same (h : s.Shows t) (hactive : t.active = (st, c) :: rest) (k : γ) :
    Shows (s.setFrame st.name (st.frame (.running k))) { t with active := (st, k) :: rest } :=
  h.goto hactive st.locals (h.innermost hactive) k

theorem eq_take_cons_drop {α : Type*} {l : List α} {n : ℕ} {x : α} (h : l[n]? = some x) :
    l = l.take n ++ x :: l.drop (n + 1) := by
  obtain ⟨hn, rfl⟩ := List.getElem?_eq_some_iff.1 h
  rw [← List.drop_eq_getElem_cons hn, List.take_append_drop]

theorem getElem?_handles (locals : List (Option (Thunk γ V E))) (n : ℕ) :
    (handles locals)[n]? = (locals[n]?).map (Option.map Thunk.name) := by
  rw [handles, List.getElem?_map]

theorem handles_local {locals : List (Option (Thunk γ V E))} {n : ℕ} {x : Thunk γ V E}
    (hx : locals[n]? = some (some x)) :
    handles locals = handles (locals.take n) ++ some x.name :: handles (locals.drop (n + 1)) := by
  conv_lhs => rw [eq_take_cons_drop hx]
  exact handles_middle _ _ _

/-- The local task `n`, brought to the front. -/
theorem cells_local (point : Point γ ι V E) {n : ℕ} {x : Thunk γ V E}
    (hx : st.locals[n]? = some (some x)) :
    (st.cells point).Perm (x.cell ι st.name :: (st.name, st.frame point) ::
      (taskCells ι st.name (st.locals.take n ++ st.locals.drop (n + 1)) ++
        callerCells ι st.name st.callers)) := by
  have htasks := taskCells_middle (ι := ι) st.name x (st.locals.take n) (st.locals.drop (n + 1))
  rw [← eq_take_cons_drop hx] at htasks
  exact ((htasks.append_right _).cons _).trans (List.Perm.swap ..)

theorem frames_local (h : s.Shows t) (hactive : t.active = (st, c) :: rest) {n : ℕ}
    {x : Thunk γ V E} (hx : st.locals[n]? = some (some x)) :
    s.frames x.name = some (x.cell ι st.name).2 := by
  have hfront := (h.innermost hactive).perm ((cells_local (.running c) hx).append_right _)
  rw [← x.fst_cell (ι := ι) st.name]
  exact Holds.get hfront

/-- A finished local task is awaited. -/
theorem awaitTask_done (h : s.Shows t) (hactive : t.active = (st, c) :: rest) {n b : ℕ}
    {kind : TaskKind} {outcome : Except E V}
    (hx : st.locals[n]? = some (some (.done b kind outcome)))
    (k : Awaited γ V E) :
    Shows (s.awaitTask st.name (st.frame (.running c)) b k)
      { t with
        active :=
          ({ st with locals := st.locals.set n (some (.done b kind (k.left kind outcome))) },
            k.resume (kind.result outcome)) :: rest } := by
  have hget : s.frames b = some _ := frames_local h hactive hx
  have hfront := (h.innermost hactive).perm ((cells_local (.running c) hx).append_right _)
  obtain ⟨frames, hresume, hframes⟩ :=
    awaitResume_done (f := st.frame (.running c)) hfront k
  rw [awaitTask, hget]
  show Shows (s.awaitResume st.name (st.frame (.running c)) b k) _
  rw [hresume]
  have hlocals : st.locals.set n (some (.done b kind (k.left kind outcome))) =
      st.locals.take n ++ some (.done b kind (k.left kind outcome)) :: st.locals.drop (n + 1) := by
    rw [List.set_eq_take_append_cons_drop, if_pos (List.getElem?_eq_some_iff.1 hx).1]
  have hhandles : handles (st.locals.set n (some (.done b kind (k.left kind outcome)))) =
      handles st.locals := by
    rw [hlocals, handles_middle, handles_local hx]
    rfl
  have hstack : s.stack = st.name :: rest.map fun x ↦ x.1.name := h.stack_eq hactive
  refine h.of_active ?_ hstack
  rw [activeCells_cons, List.append_assoc, CallStack.cells]
  refine hframes.perm ((List.Perm.swap ..).trans ?_)
  rw [CallStack.frame, CallStack.frame]
  dsimp only
  rw [hhandles, hlocals]
  refine List.Perm.cons _ ?_
  have htasks := taskCells_middle (ι := ι) st.name
    (.done b kind (k.left kind outcome)) (st.locals.take n) (st.locals.drop (n + 1))
  exact ((htasks.append_right _).append_right _).symm

/-- A pending local task is awaited: its body starts, with the awaiting coroutine as its parent. -/
theorem awaitTask_pending (h : s.Shows t) (hactive : t.active = (st, c) :: rest) {n b : ℕ}
    {init : PromiseInit} {body : γ} (hx : st.locals[n]? = some (some (.pending b init body)))
    (k : Awaited γ V E) :
    Shows (s.awaitTask st.name (st.frame (.running c)) b k)
      { t with active := (st.enter n b init k, body) :: rest } := by
  have hget : s.frames b = some _ := frames_local h hactive hx
  have hfront := (h.innermost hactive).perm ((cells_local (.running c) hx).append_right _)
  have hcaller := (hfront.perm (List.Perm.swap ..)).set ((st.frame (.atTask b k)))
  have hcallee :=
    (hcaller.perm (List.Perm.swap ..)).set ⟨.running body, .new init, some st.name, []⟩
  rw [awaitTask, hget]
  refine h.of_active ?_ ?_
  · rw [activeCells_cons, List.append_assoc]
    rw [CallStack.frame, handles_local hx] at hcallee
    rw [CallStack.frame, handles_local hx]
    exact hcallee
  · rw [h.stack_eq hactive]
    rfl

/-- An activation that nobody waits for ends. -/
theorem shows_finish_detached (h : s.Shows t) (hactive : t.active = (st, c) :: rest)
    (hst : st.callers = []) (finished : List (γ × List (ι × Int) × V)) :
    Shows (s.finish st.name (st.frame (.running c)) (.void .detached))
      { t with active := rest, finished := finished } := by
  obtain ⟨frames, hfinish, hframes⟩ :=
    finish_detached (h.innermost hactive) hst (h.stack_eq hactive)
  rw [hfinish]
  exact ⟨hframes, rfl, h.posted, h.crashed⟩

/-- An activation that was called ends. -/
theorem shows_finish_leave (h : s.Shows t) (hactive : t.active = (st, c) :: rest)
    {caller : Caller γ V E} {callers : List (Caller γ V E)} (hst : st.callers = caller :: callers)
    (outcome : Except E V) :
    Shows (s.finish st.name (st.frame (.running c)) (.ofOutcome st.init.kind outcome))
      { t with active := st.leave caller callers outcome :: rest } := by
  obtain ⟨frames, hfinish, hframes⟩ :=
    finish_leave (h.innermost hactive) outcome hst (h.stack_eq hactive)
  rw [hfinish]
  refine h.of_active ?_ rfl
  rwa [activeCells_cons, List.append_assoc]

theorem promise_frame_of_caller {caller : Caller γ V E} {callers : List (Caller γ V E)}
    (hst : st.callers = caller :: callers) (point : Point γ ι V E) :
    (st.frame point).promise = .new st.init := by
  rw [CallStack.frame, hst]
  rfl

/-- `co_return`, whoever waits for it. -/
theorem shows_return (h : s.Shows t) (hactive : t.active = (st, c) :: rest) (b : ℕ) (zero : Bool)
    (v : V) :
    Option.Rel Shows (s.act st.name (st.frame (.running c)) b zero (.coReturn v))
      (t.act st rest b zero (.coReturn v)) := by
  rw [act, Direct.act]
  rcases hst : st.callers with - | ⟨caller, callers⟩
  · have hpromise : (st.frame (ι := ι) (.running c)).promise = .void .detached := by
      rw [CallStack.frame, hst]
      rfl
    rw [hpromise]
    exact .some (shows_finish_detached h hactive hst _)
  · rw [promise_frame_of_caller hst, Promise.returnValue_new]
    exact .some (shows_finish_leave h hactive hst (.ok v))

/-- An exception ends an activation that was called, if its promise can keep it. -/
theorem shows_throw (h : s.Shows t) (hactive : t.active = (st, c) :: rest) (b : ℕ) (zero : Bool)
    (e : E) :
    Option.Rel Shows (s.act st.name (st.frame (.running c)) b zero (.throw e))
      (t.act st rest b zero (.throw e)) := by
  rcases hst : st.callers with - | ⟨caller, callers⟩
  · rw [act, Direct.act, CallStack.frame, hst]
    exact .some (shows_crash _)
  · rw [act, Direct.act, promise_frame_of_caller hst, Promise.unhandledException_new, hst]
    cases st.init.keepsException with
    | true => exact .some (shows_finish_leave h hactive hst (.error e))
    | false => exact .some (shows_crash _)

/-- A new local task. -/
theorem shows_call (h : s.Shows t) (hactive : t.active = (st, c) :: rest) {b : ℕ}
    (hb : s.frames b = none) (init : PromiseInit) (body k : γ) :
    Shows ((s.setFrame b { point := .initial body, promise := .new init }).setFrame st.name
        (CallStack.frame { st with locals := some (.pending b init body) :: st.locals }
          (.running k)))
      { t with
        active :=
          ({ st with locals := some (.pending b init body) :: st.locals }, k) :: rest } := by
  have halloc := (h.innermost hactive).alloc hb { point := .initial body, promise := .new init }
  exact h.goto hactive _ (halloc.perm (List.Perm.swap ..)) k

theorem shows_io (h : s.Shows t) (hactive : t.active = (st, c) :: rest) (op : ι) (k : Int → γ) :
    Shows { s.setFrame st.name (st.frame (.atIo op k)) with stack := s.stack.tail }
      { t with active := rest, suspended := (st, op, k) :: t.suspended } := by
  refine ⟨?_, ?_, h.posted, h.crashed⟩
  · have hset : Holds _ (st.cells (.atIo op k) ++ (activeCells rest ++ t.idleCells)) :=
      Holds.set (h.innermost hactive) (st.frame (.atIo op k))
    refine hset.perm ((List.perm_append_comm_assoc ..).trans ?_)
    rw [Direct.cells_eq]
    refine List.Perm.append_left _ ?_
    rw [Direct.idleCells, Direct.idleCells, List.flatMap_cons, List.append_assoc]
  · show s.stack.tail = _
    rw [h.stack_eq hactive]
    rfl

/-- A coroutine is spawned, and runs at once on top of the one that spawns it. -/
theorem shows_spawn (h : s.Shows t) (hactive : t.active = (st, c) :: rest) {b : ℕ}
    (hb : s.frames b = none) (body k : γ) :
    Shows { (s.setFrame st.name (st.frame (.running k))).setFrame b
          { point := .running body, promise := .void .detached } with
        stack := b :: s.stack }
      { t with active := ({ name := b, body := body }, body) :: (st, k) :: rest } := by
  have hb' : Function.update s.frames st.name (some (st.frame (.running k))) b = none := by
    rw [Function.update_of_ne, hb]
    rintro rfl
    rw [Holds.get (h.innermost hactive)] at hb
    exact absurd hb (by simp)
  have hset := Holds.set (h.innermost hactive) (st.frame (.running k))
  refine h.of_active ?_ ?_
  · rw [activeCells_cons, activeCells_cons, List.append_assoc, List.append_assoc]
    exact hset.alloc hb' _
  · rw [h.stack_eq hactive]
    rfl

/-- A local task is destroyed, and others are left. -/
theorem shows_destroyTask (h : s.Shows t) (hactive : t.active = (st, c) :: rest)
    {x : Option (Thunk γ V E)} {locals : List (Option (Thunk γ V E))}
    (hlocals : st.locals.reduceOption.Perm ([x].reduceOption ++ locals.reduceOption)) (k : γ) :
    Shows ((s.destroyTask (x.map Thunk.name)).setFrame st.name
        (CallStack.frame { st with locals := locals } (.running k)))
      { t with active := ({ st with locals := locals }, k) :: rest } := by
  have htasks : (taskCells ι st.name st.locals).Perm
      (taskCells ι st.name [x] ++ taskCells ι st.name locals) := by
    have hmap := hlocals.map (Thunk.cell ι st.name)
    rwa [List.map_append] at hmap
  have hcells : (st.cells (ι := ι) (.running c)).Perm (taskCells ι st.name [x] ++
      (st.name, st.frame (.running c)) ::
        (taskCells ι st.name locals ++ callerCells ι st.name st.callers)) := by
    refine ((htasks.append_right _).cons _).trans ?_
    rw [List.append_assoc]
    exact List.perm_middle.symm
  have hfront := (h.innermost hactive).perm (hcells.append_right _)
  rw [List.append_assoc] at hfront
  obtain ⟨frames, hdestroy, hframes⟩ := destroyTask_handle hfront
  rw [hdestroy]
  exact h.goto hactive locals hframes k

/-- A local task is replaced by another one, which leaves an empty task behind. -/
theorem reduceOption_move {α : Type*} {l : List (Option α)} {dst src : ℕ} {old new : Option α}
    (hne : dst ≠ src) (hdst : l[dst]? = some old) (hsrc : l[src]? = some new) :
    l.reduceOption.Perm ([old].reduceOption ++ ((l.set dst new).set src none).reduceOption) := by
  obtain ⟨hlt, rfl⟩ := List.getElem?_eq_some_iff.1 hdst
  obtain ⟨hlt', rfl⟩ := List.getElem?_eq_some_iff.1 hsrc
  set l' := l.set dst l[src] with hl'
  have hlen : src < l'.length := by rwa [hl', List.length_set]
  have hsame : l'[src] = l[src] := List.getElem_set_of_ne hne ..
  -- without the two places, the lists are the same
  have hrest : (l.eraseIdx dst).Perm (l'.eraseIdx src) := by
    have hleft : (l[src] :: l.eraseIdx dst).Perm l' := (List.set_perm_cons_eraseIdx hlt _).symm
    have hright : (l[src] :: l'.eraseIdx src).Perm l' :=
      hsame ▸ List.getElem_cons_eraseIdx_perm hlen
    exact (hleft.trans hright.symm).cons_inv
  have hold : l.Perm (l[dst] :: l'.eraseIdx src) :=
    (List.getElem_cons_eraseIdx_perm hlt).symm.trans (hrest.cons _)
  have hnew : (l'.set src none).Perm (none :: l'.eraseIdx src) := List.set_perm_cons_eraseIdx hlen _
  have hnew' : (l'.set src none).reduceOption.Perm (l'.eraseIdx src).reduceOption :=
    hnew.filterMap id
  refine (hold.filterMap id).trans ?_
  refine List.Perm.trans ?_ (hnew'.symm.append_left _)
  rw [← List.reduceOption_append]
  rfl

theorem shows_act (h : s.Shows t) (hactive : t.active = (st, c) :: rest) (b : ℕ) (zero : Bool)
    (a : Act γ ι V E) :
    Option.Rel Shows (s.act st.name (st.frame (.running c)) b zero a)
      (t.act st rest b zero a) := by
  cases a with
  | coReturn v => exact shows_return h hactive b zero v
  | throw e => exact shows_throw h hactive b zero e
  | io op k => exact .some (shows_io h hactive op k)
  | call kind body k =>
    rw [act, Direct.act]
    exact h.rel_fresh b fun hb ↦ shows_call h hactive hb ⟨kind, zero⟩ body k
  | await n ref k =>
    rw [act, Direct.act, CallStack.frame, getElem?_handles]
    rcases hn : st.locals[n]? with - | - | ⟨b, init, body⟩ | ⟨b, kind, outcome⟩
    · exact .none
    · exact .some (shows_crash _)
    · exact .some (awaitTask_pending h hactive hn _)
    · exact .some (awaitTask_done h hactive hn _)
  | whenReady n k =>
    rw [act, Direct.act, CallStack.frame, getElem?_handles]
    rcases hn : st.locals[n]? with - | - | ⟨b, init, body⟩ | ⟨b, kind, outcome⟩
    · exact .none
    · exact .some (h.goto_same hactive k)
    · exact .some (awaitTask_pending h hactive hn _)
    · have hsame : st.locals.set n (some (.done b kind outcome)) = st.locals := by
        rw [← List.getElem?_eq_some_iff.1 hn |>.2, List.set_getElem_self]
      have hdone := awaitTask_done h hactive hn (.ready k)
      rw [Awaited.left, hsame] at hdone
      exact .some hdone
  | isReady n k =>
    rw [act, Direct.act, CallStack.frame, getElem?_handles]
    rcases hn : st.locals[n]? with - | - | x
    · exact .none
    · exact .some (h.goto_same hactive _)
    · have hget : s.frames x.name = some _ := frames_local h hactive hn
      simp only [Option.map_some, hget]
      cases x <;> exact .some (h.goto_same hactive _)
  | move dst src k =>
    rw [act, Direct.act, CallStack.frame, getElem?_handles, getElem?_handles]
    rcases hdst : st.locals[dst]? with - | old
    · exact .none
    rcases hsrc : st.locals[src]? with - | new
    · exact .none
    dsimp only [Option.map_some]
    by_cases hne : dst = src
    · rw [if_pos hne, if_pos hne]
      exact .some (h.goto_same hactive k)
    · rw [if_neg hne, if_neg hne]
      have hhandles : handles ((st.locals.set dst new).set src none) =
          ((handles st.locals).set dst (new.map Thunk.name)).set src none := by
        rw [handles, List.map_set, List.map_set]
        rfl
      rw [← hhandles]
      exact .some (shows_destroyTask h hactive (reduceOption_move hne hdst hsrc) k)
  | drop k =>
    rw [act, Direct.act]
    rcases hlocals : st.locals with - | ⟨x, locals⟩
    · rw [CallStack.frame, hlocals]
      exact .none
    · rw [CallStack.frame, hlocals]
      have hsplit : st.locals.reduceOption.Perm ([x].reduceOption ++ locals.reduceOption) := by
        rw [hlocals, ← List.reduceOption_append]
        rfl
      exact .some (shows_destroyTask h hactive hsplit k)
  | spawn body k =>
    rw [act, Direct.act]
    exact h.rel_fresh b fun hb ↦ shows_spawn h hactive hb body k

end Acts

/-! ### Every step -/

section Steps

variable {point : Point γ ι V E} {f : CoFrame γ ι V E} {a : ℕ}

theorem ne_atIo_of_mem_taskCells {owner : ℕ} {locals : List (Option (Thunk γ V E))}
    (h : (a, f) ∈ taskCells ι owner locals) (op : ι) (k : Int → γ) : f.point ≠ .atIo op k := by
  obtain ⟨x, -, hx⟩ := List.mem_map.1 h
  obtain rfl : (x.cell ι owner).2 = f := congrArg Prod.snd hx
  cases x <;> simp [Thunk.cell]

theorem ne_atIo_of_mem_callerCells {callee : ℕ} {callers : List (Caller γ V E)}
    (h : (a, f) ∈ callerCells ι callee callers) (op : ι) (k : Int → γ) :
    f.point ≠ .atIo op k := by
  induction callers generalizing callee with
  | nil => exact absurd h List.not_mem_nil
  | cons c callers ih =>
    rw [callerCells, List.mem_cons, List.mem_append] at h
    rcases h with h | h | h
    · rw [(Prod.mk.inj h).2]
      simp
    · exact ne_atIo_of_mem_taskCells h op k
    · exact ih h

/-- In a call stack at most the innermost activation is suspended on an `io_awaiter`. -/
theorem eq_frame_of_mem_cells {st : CallStack γ ι V E} (h : (a, f) ∈ st.cells point) {op : ι}
    {k : Int → γ} (hf : f.point = .atIo op k) : a = st.name ∧ f = st.frame point := by
  rw [CallStack.cells, List.mem_cons, List.mem_append] at h
  rcases h with h | h | h
  · exact Prod.mk.inj h
  · exact absurd hf (ne_atIo_of_mem_taskCells h op k)
  · exact absurd hf (ne_atIo_of_mem_callerCells h op k)

/-- A coroutine that is suspended on an `io_awaiter` is the innermost of a suspended call stack. -/
theorem Shows.exists_suspended (h : s.Shows t) (hf : s.frames a = some f) {op : ι} {k : Int → γ}
    (hpoint : f.point = .atIo op k) : ∃ x ∈ t.suspended, x.1.name = a := by
  have hmem := (h.frames.eq_some_iff a f).1 hf
  rw [Direct.cells, List.mem_append, List.mem_append] at hmem
  rcases hmem with hmem | hmem | hmem
  · obtain ⟨x, -, hx⟩ := List.mem_flatMap.1 hmem
    rw [(eq_frame_of_mem_cells hx hpoint).2] at hpoint
    exact absurd hpoint (by simp [CallStack.frame])
  · obtain ⟨x, hx, hmem⟩ := List.mem_flatMap.1 hmem
    exact ⟨x, hx, (eq_frame_of_mem_cells hmem hpoint).1.symm⟩
  · obtain ⟨x, -, hx⟩ := List.mem_map.1 hmem
    rw [← (Prod.mk.inj hx).2] at hpoint
    exact absurd hpoint (by simp)

theorem perm_cons_eraseP {α : Type*} {p : α → Bool} {l : List α} {x : α}
    (h : l.find? p = some x) : l.Perm (x :: l.eraseP p) := by
  induction l with
  | nil => exact absurd h (by simp)
  | cons y l ih =>
    by_cases hy : p y
    · rw [List.find?_cons_of_pos hy] at h
      rw [List.eraseP_cons_of_pos hy, Option.some.inj h]
    · rw [List.find?_cons_of_neg hy] at h
      rw [List.eraseP_cons_of_neg hy]
      exact ((ih h).cons y).trans (List.Perm.swap ..)

/-- A suspended call stack runs again. -/
theorem shows_resume (h : s.Shows t) {x : CallStack γ ι V E × ι × (Int → γ)}
    {suspended : List (CallStack γ ι V E × ι × (Int → γ))}
    (hx : t.suspended.Perm (x :: suspended)) (r : Int) :
    s.frames x.1.name = some (x.1.frame (.atIo x.2.1 x.2.2)) ∧
    Shows { s.setFrame x.1.name (x.1.frame (.running (x.2.2 r))) with
        stack := x.1.name :: s.stack }
      { t with
        active := ({ x.1 with log := x.1.log ++ [(x.2.1, r)] }, x.2.2 r) :: t.active
        suspended := suspended } := by
  have hcells : t.cells.Perm (x.1.cells (.atIo x.2.1 x.2.2) ++ (activeCells t.active ++
      (suspended.flatMap (fun x ↦ x.1.cells (.atIo x.2.1 x.2.2)) ++ t.posted.map postedCell))) := by
    have hsuspended := hx.flatMap_right fun x ↦ x.1.cells (ι := ι) (.atIo x.2.1 x.2.2)
    rw [List.flatMap_cons] at hsuspended
    refine ((hsuspended.append_right _).append_left _).trans ?_
    rw [List.append_assoc]
    exact List.perm_append_comm_assoc ..
  have hfront := h.frames.perm hcells
  refine ⟨Holds.get hfront, ?_, ?_, h.posted, h.crashed⟩
  · rw [Direct.cells_eq, activeCells_cons, List.append_assoc]
    exact Holds.set hfront (x.1.frame (.running (x.2.2 r)))
  · show x.1.name :: s.stack = _
    rw [h.stack, List.map_cons]

/-- A coroutine is spawned from another thread. -/
theorem shows_post (h : s.Shows t) (hcells : a ∉ t.names) (body : γ) :
    Shows { s.setFrame a { point := .initial body, promise := .void .detached } with
        posted := s.posted ++ [a] }
      { t with posted := t.posted ++ [(a, body)] } := by
  refine ⟨?_, h.stack, ?_, h.crashed⟩
  · have hnew := h.frames.alloc (Option.isNone_iff_eq_none.1 ((h.isNone_iff a).2 hcells))
      { point := .initial body, promise := .void .detached }
    refine hnew.perm ?_
    rw [Direct.cells, Direct.cells, List.map_append, ← List.append_assoc, ← List.append_assoc,
      ← List.append_assoc]
    exact (List.perm_append_singleton _ _).symm
  · show s.posted ++ [a] = _
    rw [h.posted, List.map_append]
    rfl

/-- The loop starts a coroutine that was spawned from another thread. -/
theorem shows_start (h : s.Shows t) (hactive : t.active = []) {body : γ} {posted : List (ℕ × γ)}
    (hposted : t.posted = (a, body) :: posted) :
    s.frames a = some { point := .initial body, promise := .void .detached } ∧
    Shows { s.setFrame a { point := .running body, promise := .void .detached } with
        stack := [a], posted := posted.map Prod.fst }
      { t with active := [({ name := a, body := body }, body)], posted := posted } := by
  have hcells : t.cells.Perm ((a, { point := .initial body, promise := .void .detached }) ::
      (t.suspended.flatMap (fun x ↦ x.1.cells (.atIo x.2.1 x.2.2)) ++ posted.map postedCell)) := by
    rw [Direct.cells, hactive, hposted]
    exact List.perm_middle
  have hfront := h.frames.perm hcells
  exact ⟨hfront.get, hfront.set _, rfl, rfl, h.crashed⟩

/-- **Lockstep.** -/
theorem shows_step (code : γ → Act γ ι V E) (h : s.Shows t) (action : CoAction γ) :
    Option.Rel Shows (s.step code action) (t.step code action) := by
  cases action with
  | exec b zero =>
    rcases hactive : t.active with - | ⟨⟨st, c⟩, rest⟩
    · have hstack : s.stack = [] := by rw [h.stack, hactive, List.map_nil]
      simp only [step, Direct.step, hstack, hactive]
      exact .none
    · have hframe : s.frames st.name = some (st.frame (.running c)) := (h.innermost hactive).get
      simp only [step, Direct.step, h.stack_eq hactive, hactive, hframe]
      exact shows_act h hactive b zero (code c)
  | resume a r =>
    rcases hfind : t.suspended.find? (fun x ↦ x.1.name = a) with - | x
    · rw [Direct.step, hfind, step]
      rcases hf : s.frames a with - | f
      · exact .none
      · rcases hpoint : f.point with _ | _ | ⟨op, k⟩ | _ | _
        all_goals simp only [Option.bind_some, hpoint, Option.map_none]
        case atIo =>
          obtain ⟨x, hx, hname⟩ := h.exists_suspended hf hpoint
          exact absurd (List.find?_eq_none.1 hfind x hx) (by simp [hname])
        all_goals exact .none
    · obtain rfl : x.1.name = a := by simpa using List.find?_some hfind
      obtain ⟨hframe, hshows⟩ := shows_resume h (perm_cons_eraseP hfind) r
      rw [Direct.step, hfind, step, hframe]
      exact .some hshows
  | post a body =>
    simp only [step, Direct.step, h.isNone_iff, h.crashed]
    split
    next hfree => exact .some (shows_post h hfree.2 body)
    next => exact .none
  | start =>
    rcases hactive : t.active with - | ⟨⟨st, c⟩, rest⟩
    · have hstack : s.stack = [] := by rw [h.stack, hactive, List.map_nil]
      rcases hposted : t.posted with - | ⟨⟨a, body⟩, posted⟩
      · simp only [step, Direct.step, hstack, h.posted, hactive, hposted, List.map_nil]
        exact .none
      · obtain ⟨hframe, hshows⟩ := shows_start h hactive hposted
        simp only [step, Direct.step, hstack, h.posted, hactive, hposted, List.map_cons, hframe]
        exact .some hshows
    · simp only [step, Direct.step, h.stack_eq hactive, hactive]
      exact .none

end Steps

/-! ### Every run -/

theorem shows_run (code : γ → Act γ ι V E) (as : List (CoAction γ)) :
    Option.Rel Shows ((machine code).run as) ((Direct.machine code).run as) :=
  Machine.rel_runFrom (fun _ _ a hst ↦ shows_step code hst a)
    ⟨Holds.nil_iff.2 rfl, rfl, rfl, rfl⟩ as

/-- For every code and all actions, the machine of `task.h` does what the call stacks do: it is in
the state they are in, laid out in its heap, and can take the step they can take. -/
theorem run_eq (code : γ → Act γ ι V E) (as : List (CoAction γ)) :
    (machine code).run as = ((Direct.machine code).run as).map Direct.toHeap := by
  have h := shows_run code as
  generalize (machine code).run as = s at h ⊢
  generalize (Direct.machine code).run as = t at h ⊢
  cases h with
  | none => rfl
  | some hst => rw [hst.eq_toHeap, Option.map_some]

end CoHeap

end Nsio
