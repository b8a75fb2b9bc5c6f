import Nsio.Foundations.Machine
import Mathlib.Logic.Function.Basic

/-!
# The cross-thread call queue

The model of `async`, `async_return` and the loop's own `on_file_event` of `io_loop.h`. A producer
makes two steps: it appends a function under the mutex, then it writes the event descriptor. The
loop's handler makes the steps of its body: read the event descriptor, which resets the counter;
swap the two vectors under the mutex; run each function of the batch; clear the batch; arm itself
again. Any number of producers interleave with them in any order, and a running function may itself
submit: the loop's thread is then a producer too (`none` among `Option π`), one that has to write
before its function can return.

Functions are opaque here (`φ`): what they do besides submitting is not the queue's business.

## What carries the argument

`Inv` is the invariant. Its first half is the **order**: what has run, the rest of the batch and the
queue are, in this order, all that was appended. Its second half is the **wake-up**: whatever is in
the queue will still be found. A producer that has appended owes a write until it makes it; the
write leaves the counter positive; the read resets the counter, and from there until the swap the
loop is on its way to the queue.
-/

namespace Nsio

/-- The largest value of an event descriptor's counter. -/
def eventfdMax : ℕ := 2 ^ 64 - 2

/-- `eventfd_write(fd, 1)` on a non-blocking descriptor: it fails when the counter is at its
largest value. -/
def eventfdWrite (counter : ℕ) : ℕ := if counter < eventfdMax then counter + 1 else counter

theorem eventfdWrite_pos (counter : ℕ) : 0 < eventfdWrite counter := by
  rw [eventfdWrite]
  split
  · exact Nat.succ_pos _
  · exact Nat.lt_of_lt_of_le (show 0 < eventfdMax by decide) (Nat.not_lt.1 ‹_›)

/-- Where the loop's thread is. -/
inductive AsyncPc
  /-- Outside the handler. -/
  | idle
  /-- After `eventfd_read`, before the swap. -/
  | read
  /-- In the loop over the batch, with `i` functions done. -/
  | running (i : ℕ)
  /-- Inside the function at index `i` of the batch. -/
  | inFunc (i : ℕ)
  /-- After the batch was cleared, before `es._func_r = this`. -/
  | cleared
  deriving DecidableEq, Repr

/-- The queue, with two logs: what was appended, in the order of the mutex, and what has run. -/
structure AsyncQueue (π φ : Type*) where
  /-- `_async_funcs`. -/
  funcs : List φ := []
  /-- `_async_funcs_tmp`. -/
  tmp : List φ := []
  /-- The counter of `_event_fd`. -/
  counter : ℕ := 0
  /-- The threads that have appended and not yet written; `none` is the loop's own. -/
  owes : Option π → Bool := fun _ ↦ false
  pc : AsyncPc := .idle
  appended : List φ := []
  executed : List φ := []

/-- The steps of the producers and of the handler. -/
inductive AsyncAction (π φ : Type*)
  /-- `_async_funcs.emplace_back` under the mutex. -/
  | append (p : Option π) (f : φ)
  /-- `eventfd_write`. -/
  | write (p : Option π)
  /-- The handler is called, and reads the event descriptor. -/
  | eventRead
  /-- `_async_funcs_tmp.swap(_async_funcs)` under the mutex. -/
  | swap
  /-- The next function of the batch is called. -/
  | call
  /-- The function returns. -/
  | ret
  /-- `_async_funcs_tmp.clear()`, at the end of the batch. -/
  | clear
  /-- `es._func_r = this`, and the handler returns. -/
  | rearm
  deriving DecidableEq, Repr

namespace AsyncQueue

variable {π φ : Type*} [DecidableEq π]

/-- The loop's thread submits only from inside a function. -/
def CanAppend (s : AsyncQueue π φ) : Option π → Bool
  | some p => !s.owes (some p)
  | none => !s.owes none && match s.pc with
    | .inFunc _ => true
    | _ => false

/-- One step. -/
def step (s : AsyncQueue π φ) : AsyncAction π φ → Option (AsyncQueue π φ)
  | .append p f =>
    if s.CanAppend p then
      some { s with
        funcs := s.funcs ++ [f]
        appended := s.appended ++ [f]
        owes := Function.update s.owes p true }
    else none
  | .write p =>
    if s.owes p then
      some { s with
        counter := eventfdWrite s.counter
        owes := Function.update s.owes p false }
    else none
  -- before the functions are taken, so that a write in between signals again
  | .eventRead =>
    match s.pc with
    | .idle => some { s with counter := 0, pc := .read }
    | _ => none
  -- `_async_funcs_tmp` was cleared after the last batch, so this empties `_async_funcs`
  | .swap =>
    match s.pc with
    | .read => some { s with tmp := s.funcs, funcs := s.tmp, pc := .running 0 }
    | _ => none
  | .call =>
    match s.pc with
    | .running i =>
      (s.tmp[i]?).map fun f ↦ { s with executed := s.executed ++ [f], pc := .inFunc i }
    | _ => none
  -- a function that has appended returns only after its own write
  | .ret =>
    match s.pc with
    | .inFunc i => if s.owes none then none else some { s with pc := .running (i + 1) }
    | _ => none
  | .clear =>
    match s.pc with
    | .running i => if s.tmp.length ≤ i then some { s with tmp := [], pc := .cleared } else none
    | _ => none
  | .rearm =>
    match s.pc with
    | .cleared => some { s with pc := .idle }
    | _ => none

/-- How many functions of the batch have been called. -/
def called (s : AsyncQueue π φ) : ℕ :=
  match s.pc with
  | .running i => i
  | .inFunc i => i + 1
  | .idle | .read | .cleared => 0

/-- The rest of the batch. -/
def unexecuted (s : AsyncQueue π φ) : List φ := s.tmp.drop s.called

/-- Some thread has appended and not yet written. -/
def Owing (s : AsyncQueue π φ) : Prop := ∃ p, s.owes p = true

/-- **The invariant.** -/
structure Inv (s : AsyncQueue π φ) : Prop where
  order : s.executed ++ s.unexecuted ++ s.funcs = s.appended
  called_le : s.called ≤ s.tmp.length
  tmp_eq_nil : s.pc = .idle ∨ s.pc = .read ∨ s.pc = .cleared → s.tmp = []
  wake : s.funcs ≠ [] → 0 < s.counter ∨ s.Owing ∨ s.pc = .read

end AsyncQueue

/-- The runs of a fresh queue. -/
def AsyncQueue.machine (π φ : Type*) [DecidableEq π] :
    Machine (AsyncQueue π φ) (AsyncAction π φ) where
  init := {}
  step := step

namespace AsyncQueue

variable {π φ : Type*} [DecidableEq π] {s t : AsyncQueue π φ}

theorem inv_init : (machine π φ).init.Inv where
  order := rfl
  called_le := Nat.le_refl 0
  tmp_eq_nil := fun _ ↦ rfl
  wake := fun h ↦ absurd rfl h

omit [DecidableEq π] in
/-- Away from the window between read and swap, the queue is covered by the counter or a
producer. -/
theorem Inv.covered (hs : s.Inv) (hpc : s.pc ≠ .read) (h : s.funcs ≠ []) :
    0 < s.counter ∨ s.Owing ∨ t.pc = .read := by
  rcases hs.wake h with hc | ho | hr
  · exact .inl hc
  · exact .inr (.inl ho)
  · exact absurd hr hpc

/-! ### The producers -/

theorem inv_append {p : Option π} {f : φ} (ht : s.step (.append p f) = some t) (hs : s.Inv) :
    t.Inv := by
  rw [step] at ht
  split at ht
  · obtain rfl := Option.some.inj ht
    refine ⟨?_, hs.called_le, hs.tmp_eq_nil, fun _ ↦ .inr (.inl ⟨p, Function.update_self ..⟩)⟩
    show s.executed ++ s.unexecuted ++ (s.funcs ++ [f]) = s.appended ++ [f]
    rw [← List.append_assoc, hs.order]
  · exact absurd ht (by simp)

theorem inv_write {p : Option π} (ht : s.step (.write p) = some t) (hs : s.Inv) : t.Inv := by
  rw [step] at ht
  split at ht
  · obtain rfl := Option.some.inj ht
    exact ⟨hs.order, hs.called_le, hs.tmp_eq_nil, fun _ ↦ .inl (eventfdWrite_pos _)⟩
  · exact absurd ht (by simp)

/-! ### The handler -/

theorem inv_eventRead (ht : s.step .eventRead = some t) (hs : s.Inv) : t.Inv := by
  rw [step] at ht
  split at ht
  · rename_i hpc
    obtain rfl := Option.some.inj ht
    have hnil := hs.tmp_eq_nil (.inl hpc)
    have hun : s.unexecuted = [] := by rw [unexecuted, hnil, List.drop_nil]
    refine ⟨?_, Nat.zero_le _, fun _ ↦ hnil, fun _ ↦ .inr (.inr rfl)⟩
    have horder := hs.order
    rw [hun] at horder
    show s.executed ++ s.tmp.drop 0 ++ s.funcs = s.appended
    rw [hnil]
    exact horder
  · exact absurd ht (by simp)

/-- The swap turns the queue into the batch, and the empty batch into the queue. -/
theorem inv_swap (ht : s.step .swap = some t) (hs : s.Inv) : t.Inv := by
  rw [step] at ht
  split at ht
  · rename_i hpc
    obtain rfl := Option.some.inj ht
    have hnil := hs.tmp_eq_nil (.inr (.inl hpc))
    have horder := hs.order
    rw [unexecuted, hnil, List.drop_nil, List.append_nil] at horder
    refine ⟨?_, Nat.zero_le _, fun h ↦ ?_, fun h ↦ absurd hnil h⟩
    · show s.executed ++ s.funcs.drop 0 ++ s.tmp = s.appended
      rw [hnil, List.drop_zero, List.append_nil]
      exact horder
    · exact absurd h (by simp)
  · exact absurd ht (by simp)

theorem inv_call (ht : s.step .call = some t) (hs : s.Inv) : t.Inv := by
  rw [step] at ht
  split at ht
  · rename_i i hpc
    obtain ⟨f, hf, rfl⟩ := Option.map_eq_some_iff.1 ht
    have hcalled : s.called = i := by rw [called, hpc]
    refine ⟨?_, (List.getElem?_eq_some_iff.1 hf).1, fun h ↦ absurd h (by simp),
      hs.covered (by simp [hpc])⟩
    have horder := hs.order
    rw [unexecuted, hcalled, List.drop_eq_getElem?_toList_append, hf] at horder
    show s.executed ++ [f] ++ s.tmp.drop (i + 1) ++ s.funcs = s.appended
    rw [List.append_assoc s.executed]
    exact horder
  · exact absurd ht (by simp)

theorem inv_ret (ht : s.step .ret = some t) (hs : s.Inv) : t.Inv := by
  rw [step] at ht
  split at ht
  · rename_i i hpc
    split at ht
    · exact absurd ht (by simp)
    · obtain rfl := Option.some.inj ht
      have hcalled : s.called = i + 1 := by rw [called, hpc]
      have horder := hs.order
      have hle := hs.called_le
      rw [unexecuted, hcalled] at horder
      rw [hcalled] at hle
      exact ⟨horder, hle, fun h ↦ absurd h (by simp), hs.covered (by simp [hpc])⟩
  · exact absurd ht (by simp)

theorem inv_clear (ht : s.step .clear = some t) (hs : s.Inv) : t.Inv := by
  rw [step] at ht
  split at ht
  · rename_i i hpc
    split at ht
    · rename_i hle
      obtain rfl := Option.some.inj ht
      have hcalled : s.called = i := by rw [called, hpc]
      have horder := hs.order
      rw [unexecuted, hcalled, List.drop_eq_nil_of_le hle] at horder
      exact ⟨horder, Nat.le_refl 0, fun _ ↦ rfl, hs.covered (by simp [hpc])⟩
    · exact absurd ht (by simp)
  · exact absurd ht (by simp)

theorem inv_rearm (ht : s.step .rearm = some t) (hs : s.Inv) : t.Inv := by
  rw [step] at ht
  split at ht
  · rename_i hpc
    obtain rfl := Option.some.inj ht
    have hnil := hs.tmp_eq_nil (.inr (.inr hpc))
    have horder := hs.order
    rw [unexecuted, hnil, List.drop_nil] at horder
    refine ⟨?_, Nat.zero_le _, fun _ ↦ hnil, hs.covered (by simp [hpc])⟩
    show s.executed ++ s.tmp.drop 0 ++ s.funcs = s.appended
    rw [hnil]
    exact horder
  · exact absurd ht (by simp)

/-- One step of anybody keeps the invariant. -/
theorem inv_step (s : AsyncQueue π φ) (a : AsyncAction π φ) (t : AsyncQueue π φ)
    (ht : s.step a = some t) (hs : s.Inv) : t.Inv := by
  cases a with
  | append p f => exact inv_append ht hs
  | write p => exact inv_write ht hs
  | eventRead => exact inv_eventRead ht hs
  | swap => exact inv_swap ht hs
  | call => exact inv_call ht hs
  | ret => exact inv_ret ht hs
  | clear => exact inv_clear ht hs
  | rearm => exact inv_rearm ht hs

/-- The invariant holds throughout every run. -/
theorem inv_throughout (as : List (AsyncAction π φ)) : (machine π φ).Throughout Inv as :=
  Machine.throughout_of_invariant inv_init inv_step as

/-- The swap is made with an empty batch. -/
theorem Inv.tmp_of_swap (hs : s.Inv) (ht : s.step .swap = some t) : s.tmp = [] := by
  rw [step] at ht
  split at ht
  · exact hs.tmp_eq_nil (.inr (.inl ‹_›))
  · exact absurd ht (by simp)

end AsyncQueue

/-- **No loss, no duplication, first in first out, and no lost wake-up**, for any number of
producers and any interleaving: what has run, then the rest of the batch, then the queue are what
was appended, in the order of the mutex; the swap finds the batch empty; and a queue that is not
empty has a positive counter, a producer that has still to write, or the loop between its read and
its swap. -/
theorem asyncQueue_fifo_and_wake (π φ : Type*) [DecidableEq π] (as : List (AsyncAction π φ)) :
    (AsyncQueue.machine π φ).Throughout
        (fun s ↦ s.executed ++ s.unexecuted ++ s.funcs = s.appended ∧
          (s.funcs ≠ [] → 0 < s.counter ∨ s.Owing ∨ s.pc = .read)) as ∧
      (AsyncQueue.machine π φ).StepsMeet (fun s a ↦ a = .swap → s.tmp = []) as := by
  have hinv := AsyncQueue.inv_throughout as
  refine ⟨hinv.mono fun s hs ↦ ⟨hs.order, hs.wake⟩, ?_⟩
  refine Machine.stepsMeet_of_throughout (fun s a t ht hs _ ha ↦ ?_) hinv
  subst ha
  exact hs.tmp_of_swap ht

/-- When the loop is back outside its handler, nobody owes a write and the counter is zero, then
everything that was appended has run. -/
theorem asyncQueue_drained {π φ : Type*} [DecidableEq π] {s : AsyncQueue π φ}
    (hs : (AsyncQueue.machine π φ).Reachable s) (hpc : s.pc = .idle) (howes : ¬ s.Owing)
    (hcounter : s.counter = 0) : s.executed = s.appended := by
  have hinv : s.Inv := hs.invariant AsyncQueue.inv_init AsyncQueue.inv_step
  have hfuncs : s.funcs = [] := by
    by_contra hne
    rcases hinv.wake hne with hc | ho | hr
    · omega
    · exact howes ho
    · exact absurd (hpc.symm.trans hr) (by simp)
  have horder := hinv.order
  rw [AsyncQueue.unexecuted, hinv.tmp_eq_nil (.inl hpc), hfuncs, List.drop_nil, List.append_nil,
    List.append_nil] at horder
  exact horder

end Nsio
