import Nsio.Foundations.Machine
import Mathlib.Logic.Function.Basic

/-!
# Coroutine tasks

The model of `task.h`: coroutine frames with their promises, the `task` objects that own them, the
awaiters that run a task from another one, and `io_context::co_spawn`.

A coroutine is given by its **code**: a type `γ` of control points and a function that says what the
coroutine does at each of them (`Act`). It may return, throw, await the operation of an
`io_awaiter`, or use the interface of `task`: declare a local task, await one, ask whether it is
ready, move one into another, leave its scope, and spawn a task that runs on its own. Loops and
recursion are cycles of the code. A task is awaited by the coroutine whose local it is; a task that
is shared by reference between coroutines is not modelled.

The state is what the machine has: a heap of frames, and the C++ stack of the loop's thread, on
which one coroutine runs for each nested call of `resume()`. A frame knows where its coroutine is
suspended, its promise, the coroutine to continue when it is finished (`parent_coro`) and the
handles of its local tasks. Nothing says that a handle points to a frame that still exists:
`resume()`, `destroy()` and `result()` look it up in the heap, and end in `Crash.misuse` when it is
not there or not in a state in which the call is allowed.

The union of `task_promise<T>` is not initialised, and `unhandled_exception` assigns to its
`exception_ptr`, which releases what the pointer pointed to before. With memory that is not zero
there this is an address that means nothing (`Crash.strayPointer`).

## Steps

* `exec b zero`: the innermost running coroutine goes on to its next `Act`; a frame that is
  allocated on the way is at the address `b`, and its memory is zero, or not, where the union is;
* `resume a r`: an awaiter calls `_handle.resume()` for the coroutine suspended on it, with the
  result `r`. This may happen at any time, also while another coroutine runs: a disk request that is
  refused reaps others first, and resumes their coroutines;
* `post a body` and `start`: `co_spawn` from another thread, and the loop that calls the handle.
-/

namespace Nsio

/-! ### Promises -/

/-- Which `task_promise` a coroutine has: that of `task<T>`, `task<void>` or `task<T &>`. -/
inductive TaskKind
  | value
  | void
  | ref
  deriving DecidableEq, Repr

/-- A promise when its coroutine is called: which one it is, and whether its memory is zero. -/
structure PromiseInit where
  kind : TaskKind
  zero : Bool
  deriving DecidableEq, Repr

/-- `value_state`, with what the union holds in it. -/
inductive ValueState (V E : Type*)
  /-- Nothing was stored; the memory is zero, or not. -/
  | mono (zero : Bool)
  | value (v : V)
  | exception (e : E)
  deriving DecidableEq, Repr

/-- The union of `task_promise<void>`. Its words are a flag and an exception pointer at once: 0 is
a flag that is not set and a null pointer. -/
inductive VoidState (E : Type*)
  | zero
  | detached
  | exception (e : E)
  deriving DecidableEq, Repr

/-- `task_promise`. -/
inductive Promise (V E : Type*)
  | value (state : ValueState V E)
  | void (state : VoidState E)
  | ref (value : Option V) (exceptionPtr : Option E)
  deriving DecidableEq, Repr

/-- What `co_await` of a task returns or throws. A `task<void>` returns nothing. -/
abbrev TaskResult (V E : Type*) := Except E (Option V)

/-- How `co_await` gives the value of a `task<T>`: a task that is an lvalue as `T &`, one that is an
rvalue as `T &&`, and then something else is left of a value that is moved from. -/
inductive ValueRef (V : Type*)
  | lvalue
  | rvalue (left : V → V)

/-- What is left of a value. -/
def ValueRef.left {V : Type*} : ValueRef V → V → V
  | .lvalue => id
  | .rvalue left => left

/-- How the program ends before its time. -/
inductive Crash (E : Type*)
  /-- The assertion on an empty task that is awaited. -/
  | brokenPromise
  /-- An exception nobody catches: `std::terminate`. -/
  | unhandled (e : E)
  /-- An `exception_ptr` that was never constructed is assigned to. -/
  | strayPointer
  /-- A handle is used that points to no frame, or to one the call is not allowed for. -/
  | misuse
  deriving DecidableEq, Repr

namespace Promise

variable {V E : Type*}

/-- The promise of a coroutine that has been called. -/
def new : PromiseInit → Promise V E
  | ⟨.value, zero⟩ => .value (.mono zero)
  | ⟨.void, _⟩ => .void .zero
  | ⟨.ref, _⟩ => .ref none none

/-- `return_value`, and `return_void`, which does nothing. -/
def returnValue (v : V) : Promise V E → Promise V E
  | .value _ => .value (.value v)
  | .void s => .void s
  | .ref _ e => .ref (some v) e

/-- `unhandled_exception`. A detached task has nobody to keep the exception for and throws it out of
`resume()`. The assignment in a `task<T>` needs a pointer, or zero, in the union. -/
def unhandledException (e : E) : Promise V E → Except (Crash E) (Promise V E)
  | .value (.mono false) | .value (.value _) => .error .strayPointer
  | .value (.mono true) | .value (.exception _) => .ok (.value (.exception e))
  | .void .detached => .error (.unhandled e)
  | .void .zero | .void (.exception _) => .ok (.void (.exception e))
  | .ref v _ => .ok (.ref v (some e))

/-- `result()`. It is undefined for a value or reference that was never stored, and for the flag of
a detached task, which is not a pointer. -/
def result : Promise V E → Option (TaskResult V E)
  | .value (.mono _) => none
  | .value (.value v) => some (.ok (some v))
  | .value (.exception e) => some (.error e)
  | .void .zero => some (.ok none)
  | .void .detached => none
  | .void (.exception e) => some (.error e)
  | .ref _ (some e) => some (.error e)
  | .ref (some v) none => some (.ok (some v))
  | .ref none none => none

/-- What is left in the promise when the result has been taken. -/
def left (ref : ValueRef V) : Promise V E → Promise V E
  | .value (.value v) => .value (.value (ref.left v))
  | p => p

/-- `is_detached_flag == is_detached`, asked by the final awaiter of a `task<void>` only. -/
def isDetached : Promise V E → Bool
  | .void .detached => true
  | .void .zero | .void (.exception _) => false
  | .value _ | .ref _ _ => false

end Promise

/-! ### Coroutines -/

/-- What a coroutine does next. Its local tasks are numbered from the one declared last. -/
inductive Act (γ ι V E : Type*)
  /-- `co_return`. -/
  | coReturn (v : V)
  /-- An exception leaves the body. -/
  | throw (e : E)
  /-- `co_await` of an `io_awaiter`. -/
  | io (op : ι) (k : Int → γ)
  /-- A local `task` is initialised with the call of a coroutine. -/
  | call (kind : TaskKind) (body k : γ)
  /-- `co_await` of a local task. -/
  | await (n : ℕ) (ref : ValueRef V) (k : TaskResult V E → γ)
  /-- `co_await` of `when_ready()` of a local task. -/
  | whenReady (n : ℕ) (k : γ)
  /-- `is_ready()` of a local task. -/
  | isReady (n : ℕ) (k : Bool → γ)
  /-- `dst = std::move(src)`. -/
  | move (dst src : ℕ) (k : γ)
  /-- The scope of the task declared last ends. -/
  | drop (k : γ)
  /-- `this_context->co_spawn` of a coroutine. -/
  | spawn (body k : γ)

/-- `await_resume` of the awaiters of a task, and what follows it. -/
inductive Awaited (γ V E : Type*)
  /-- The result is taken. -/
  | result (ref : ValueRef V) (k : TaskResult V E → γ)
  /-- The result is not looked at. -/
  | ready (k : γ)

/-- Where a coroutine is. -/
inductive Point (γ ι V E : Type*)
  /-- Suspended by `initial_suspend`. -/
  | initial (body : γ)
  /-- On the stack. -/
  | running (c : γ)
  /-- Suspended on an `io_awaiter`. -/
  | atIo (op : ι) (k : Int → γ)
  /-- Suspended on the task whose frame is at `child`. -/
  | atTask (child : ℕ) (k : Awaited γ V E)
  /-- Suspended by `final_suspend`. -/
  | final

/-- A coroutine frame. -/
structure CoFrame (γ ι V E : Type*) where
  point : Point γ ι V E
  promise : Promise V E
  /-- `parent_coro`; `none` is the `noop_coroutine`. -/
  parent : Option ℕ := none
  /-- The handles of the local tasks. -/
  locals : List (Option ℕ) := []

/-- The frames, and the loop's thread. -/
structure CoHeap (γ ι V E : Type*) where
  frames : ℕ → Option (CoFrame γ ι V E) := fun _ ↦ none
  /-- The running coroutines, the innermost first. -/
  stack : List ℕ := []
  /-- The handles in the queue of `async_call`. -/
  posted : List ℕ := []
  crashed : Option (Crash E) := none

namespace CoHeap

variable {γ ι V E : Type*}

/-- Nothing is left of a program that has crashed but the reason. -/
def crash (why : Crash E) : CoHeap γ ι V E := { crashed := some why }

def setFrame (s : CoHeap γ ι V E) (a : ℕ) (f : CoFrame γ ι V E) : CoHeap γ ι V E :=
  { s with frames := Function.update s.frames a (some f) }

/-- `handle.destroy()`. A frame that is suspended in the middle of its body is not expected here. -/
def destroy (s : CoHeap γ ι V E) (a : ℕ) : CoHeap γ ι V E :=
  match s.frames a with
  | none => crash .misuse
  | some f =>
    match f.point with
    | .initial _ | .final => { s with frames := Function.update s.frames a none }
    | .running _ | .atIo _ _ | .atTask _ _ => crash .misuse

/-- `~task`. -/
def destroyTask (s : CoHeap γ ι V E) : Option ℕ → CoHeap γ ι V E
  | none => s
  | some a => s.destroy a

/-- The destructors of the local tasks, the one declared last first. -/
def destroyTasks (s : CoHeap γ ι V E) (handles : List (Option ℕ)) : CoHeap γ ι V E :=
  handles.foldl destroyTask s

/-- `await_resume`, in the coroutine at `a`, for the task at `child`. -/
def awaitResume (s : CoHeap γ ι V E) (a : ℕ) (f : CoFrame γ ι V E) (child : ℕ) :
    Awaited γ V E → CoHeap γ ι V E
  | .ready k => s.setFrame a { f with point := .running k }
  | .result ref k =>
    match s.frames child with
    | none => crash .misuse
    | some g =>
      match g.promise.result with
      | none => crash .misuse
      | some r =>
        (s.setFrame child { g with promise := g.promise.left ref }).setFrame a
          { f with point := .running (k r) }

/-- The innermost coroutine hands over to another one, or returns to the caller of `resume()`. -/
def transfer (s : CoHeap γ ι V E) : Option ℕ → CoHeap γ ι V E
  | none => { s with stack := s.stack.tail }
  | some p =>
    match s.frames p with
    | none => crash .misuse
    | some f =>
      match f.point with
      | .atTask child k => { s with stack := p :: s.stack.tail }.awaitResume p f child k
      | .initial _ | .running _ | .atIo _ _ | .final => crash .misuse

/-- The end of the body: the local tasks are destroyed, the coroutine is suspended for the last
time, and `task_final_awaiter` continues its parent. A detached task destroys itself before that. -/
def finish (s : CoHeap γ ι V E) (a : ℕ) (f : CoFrame γ ι V E) (promise : Promise V E) :
    CoHeap γ ι V E :=
  let s := (s.destroyTasks f.locals).setFrame a
    { f with point := .final, promise := promise, locals := [] }
  (if promise.isDetached then s.destroy a else s).transfer f.parent

/-- `co_await` of the task at `b`: a finished one is not suspended on, any other is started with the
awaiting coroutine as its parent. -/
def awaitTask (s : CoHeap γ ι V E) (a : ℕ) (f : CoFrame γ ι V E) (b : ℕ) (k : Awaited γ V E) :
    CoHeap γ ι V E :=
  match s.frames b with
  | none => crash .misuse
  | some g =>
    match g.point with
    | .final => s.awaitResume a f b k
    | .initial body =>
      { (s.setFrame a { f with point := .atTask b k }).setFrame b
          { g with point := .running body, parent := some a } with
        stack := b :: s.stack.tail }
    | .running _ | .atIo _ _ | .atTask _ _ => crash .misuse

/-- The coroutine at `a` does what its code says. An address is taken only for a new frame. -/
def act (s : CoHeap γ ι V E) (a : ℕ) (f : CoFrame γ ι V E) (b : ℕ) (zero : Bool) :
    Act γ ι V E → Option (CoHeap γ ι V E)
  | .coReturn v => some (s.finish a f (f.promise.returnValue v))
  | .throw e =>
    match f.promise.unhandledException e with
    | .ok p => some (s.finish a f p)
    | .error why => some (crash why)
  | .io op k =>
    some { s.setFrame a { f with point := .atIo op k } with stack := s.stack.tail }
  | .call kind body k =>
    if (s.frames b).isNone then
      some ((s.setFrame b { point := .initial body, promise := .new ⟨kind, zero⟩ }).setFrame a
        { f with point := .running k, locals := some b :: f.locals })
    else none
  | .await n ref k => (f.locals[n]?).map fun
    | none => crash .brokenPromise
    | some b => s.awaitTask a f b (.result ref k)
  | .whenReady n k => (f.locals[n]?).map fun
    -- `await_ready` holds of an empty task, and `await_resume` does not look at it
    | none => s.setFrame a { f with point := .running k }
    | some b => s.awaitTask a f b (.ready k)
  | .isReady n k => (f.locals[n]?).map fun
    | none => s.setFrame a { f with point := .running (k true) }
    | some b =>
      match s.frames b with
      | none => crash .misuse
      | some g =>
        match g.point with
        | .final => s.setFrame a { f with point := .running (k true) }
        | .initial _ | .running _ | .atIo _ _ | .atTask _ _ =>
          s.setFrame a { f with point := .running (k false) }
  | .move dst src k =>
    match f.locals[dst]?, f.locals[src]? with
    | some old, some new =>
      if dst = src then some (s.setFrame a { f with point := .running k })
      else some ((s.destroyTask old).setFrame a
        { f with point := .running k, locals := (f.locals.set dst new).set src none })
    | _, _ => none
  | .drop k =>
    match f.locals with
    | [] => none
    | handle :: rest =>
      some ((s.destroyTask handle).setFrame a { f with point := .running k, locals := rest })
  | .spawn body k =>
    if (s.frames b).isNone then
      some { (s.setFrame a { f with point := .running k }).setFrame b
          { point := .running body, promise := .void .detached } with
        stack := b :: s.stack }
    else none

end CoHeap

/-- The steps of the loop's thread, and of a thread that spawns. -/
inductive CoAction (γ : Type*)
  | exec (b : ℕ) (zero : Bool)
  | resume (a : ℕ) (result : Int)
  | post (a : ℕ) (body : γ)
  | start

namespace CoHeap

variable {γ ι V E : Type*} (code : γ → Act γ ι V E)

/-- One step. -/
def step (s : CoHeap γ ι V E) : CoAction γ → Option (CoHeap γ ι V E)
  | .exec b zero =>
    match s.stack with
    | [] => none
    | a :: _ =>
      match s.frames a with
      | none => some (crash .misuse)
      | some f =>
        match f.point with
        | .running c => s.act a f b zero (code c)
        | .initial _ | .atIo _ _ | .atTask _ _ | .final => some (crash .misuse)
  | .resume a result =>
    (s.frames a).bind fun f ↦
      match f.point with
      | .atIo _ k =>
        some { s.setFrame a { f with point := .running (k result) } with stack := a :: s.stack }
      | .initial _ | .running _ | .atTask _ _ | .final => none
  | .post a body =>
    if s.crashed.isNone ∧ (s.frames a).isNone then
      some { s.setFrame a { point := .initial body, promise := .void .detached } with
        posted := s.posted ++ [a] }
    else none
  | .start =>
    match s.stack, s.posted with
    | [], a :: posted =>
      match s.frames a with
      | none => some (crash .misuse)
      | some f =>
        match f.point with
        | .initial body =>
          some { s.setFrame a { f with point := .running body } with
            stack := [a], posted := posted }
        | .running _ | .atIo _ _ | .atTask _ _ | .final => some (crash .misuse)
    | _, _ => none

/-- The runs of a loop without coroutines. -/
def machine : Machine (CoHeap γ ι V E) (CoAction γ) where
  init := {}
  step := step code

end CoHeap

end Nsio
