import Nsio.Coio.CtlFailures
import Nsio.Coio.HeldReference

/-!
# Events of a batch and the descriptors they were reported for

`epoll_wait` returns a batch of up to 64 events, and `run` hands them out one after the other by
the bare descriptor number. A handler of an early event may close the descriptor of a later one,
and the kernel gives the number to the next descriptor that is opened. This module counts the
**openings** of each number: an event carries the opening it was reported for, a callback the
opening it was registered for.

The kernel drops its interest when a descriptor is closed. That is why nothing goes wrong between
batches: as long as it has an interest, every slot of the entry belongs to the current opening
(`TableInv.registered`). Inside a batch the number of an event may have a new owner, and the event
reaches it when it has stored a callback in time. `StoresOwn` is the discipline that excludes this.

The step follows `run`: a part of an event is its delivery in one direction, writing first. The
entry is looked at once before the first part, and a slot when its part has its turn.
-/

namespace Nsio

/-- A callback, with the opening of the number it was registered for. -/
structure Callback where
  id : ℕ
  opening : ℕ
  deriving DecidableEq, Repr

/-- An event of a batch, with the opening of the number it was reported for. -/
structure BatchEvent where
  fd : ℕ
  opening : ℕ
  events : UInt32
  deriving DecidableEq, Repr

instance (events : UInt32) (d : Direction) : Decidable (Reported events d) :=
  inferInstanceAs (Decidable (_ ∨ _))

/-- The loop's thread between two calls of `epoll_wait`. -/
structure BatchLoop where
  table : FdTable Callback := {}
  /-- How often each number was opened. -/
  opening : ℕ → ℕ := fun _ ↦ 0
  isOpen : ℕ → Bool := fun _ ↦ false
  /-- The parts of the batch that had no turn yet. -/
  parts : List (BatchEvent × Direction) := []
  /-- The handler that was called and has not returned. -/
  handler : Option (ℕ × Direction × Callback) := none
  /-- The callbacks that were called, each with the event. -/
  delivered : List (BatchEvent × Callback) := []

/-- The steps of the loop's thread. Calls of `epoll_ctl` carry whether the kernel grants them; on a
number that is not open it does not. -/
inductive BatchAction
  /-- `wait_read` or `wait_write`. -/
  | wait (fd : ℕ) (d : Direction) (id : ℕ) (ok : Bool)
  /-- `cancel_read`, `cancel_write` and `cancel_fdall`, by their mask. -/
  | cancelEv (fd : ℕ) (ev : UInt32) (ok : Bool)
  | close (fd : ℕ)
  | open (fd : ℕ)
  /-- `epoll_wait` returns events, each a number and a mask. -/
  | epollWait (events : List (ℕ × UInt32))
  /-- The next part of the batch has its turn. -/
  | turn
  /-- The called handler writes itself back into its slot and returns. -/
  | rearm
  /-- The called handler returns. -/
  | leave
  deriving Repr

namespace BatchLoop

/-- Code other than `run` is on the thread: a handler, or anything while no batch is at work. -/
def canAct (s : BatchLoop) : Bool := s.handler.isSome || s.parts.isEmpty

/-- One part of a batch: the entry is looked at before the first, the slot before each. -/
def takeTurn (s : BatchLoop) (e : BatchEvent) (d : Direction)
    (rest : List (BatchEvent × Direction)) : BatchLoop :=
  if d = .write ∧ (s.table.entry e.fd).fd = -1 then { s with parts := rest.tail }
  else if Reported e.events d then
    match (s.table.entry e.fd).func d with
    | some c =>
      { s with
        table := (s.table.put e.fd ((s.table.entry e.fd).setFunc d none, none) true).1
        parts := rest
        handler := some (e.fd, d, c)
        delivered := s.delivered ++ [(e, c)] }
    | none => { s with parts := rest }
  else { s with parts := rest }

/-- One step. An event is reported for a number the kernel has an interest in. -/
def step (s : BatchLoop) : BatchAction → Option BatchLoop
  | .wait fd d id ok =>
    if s.canAct then
      some { s with
        table := (s.table.waitFd d.mask fd (some ⟨id, s.opening fd⟩) (ok && s.isOpen fd)).1 }
    else none
  | .cancelEv fd ev ok =>
    if s.canAct then
      some { s with table := (s.table.cancelEv fd ev (ok && s.isOpen fd)).1 }
    else none
  -- the kernel drops its interest, and the entry of the loop is not told
  | .close fd =>
    if s.canAct then
      some { s with
        isOpen := Function.update s.isOpen fd false
        table := { s.table with interest := Function.update s.table.interest fd none } }
    else none
  | .open fd =>
    if s.canAct ∧ s.isOpen fd = false then
      some { s with
        isOpen := Function.update s.isOpen fd true
        opening := Function.update s.opening fd (s.opening fd + 1) }
    else none
  -- each event is offered to the writer first
  | .epollWait events =>
    if s.handler.isNone ∧ s.parts.isEmpty ∧ ∀ x ∈ events, (s.table.interest x.1).isSome then
      some { s with
        parts := events.flatMap fun x ↦
          [(⟨x.1, s.opening x.1, x.2⟩, .write), (⟨x.1, s.opening x.1, x.2⟩, .read)] }
    else none
  | .turn =>
    match s.handler, s.parts with
    | none, (e, d) :: rest => some (s.takeTurn e d rest)
    | _, _ => none
  | .rearm => s.handler.map fun h ↦
    { s with
      table := (s.table.put h.1 ((s.table.entry h.1).setFunc h.2.1 (some h.2.2), none) true).1
      handler := none }
  | .leave => s.handler.map fun _ ↦ { s with handler := none }

/-- The runs of a fresh loop. -/
def machine : Machine BatchLoop BatchAction where
  init := {}
  step := step

/-! ### The discipline -/

/-- The callback of this opening may be stored in the slot: no part of the batch that is still to
be delivered there was reported for another opening. -/
def MayStore (s : BatchLoop) (fd : ℕ) (d : Direction) (opening : ℕ) : Prop :=
  ∀ p ∈ s.parts, p.1.fd = fd → p.2 = d → Reported p.1.events d → p.1.opening = opening

/-- **The discipline.** A wait stores into a slot only when what is left of the batch does not hold
an event there for an earlier opening. A handler writes itself back only while its descriptor is
the one it was registered for, and its entry is in use. -/
def StoresOwn (s : BatchLoop) : BatchAction → Prop
  | .wait fd d _ _ => s.MayStore fd d (s.opening fd)
  | .rearm => ∀ fd d c, s.handler = some (fd, d, c) →
    s.MayStore fd d c.opening ∧ c.opening = s.opening fd ∧ (s.table.entry fd).fd ≠ -1
  | _ => True

/-- Every event was delivered to a callback of the opening it was reported for. -/
def DeliveredOwn (s : BatchLoop) : Prop := ∀ x ∈ s.delivered, x.2.opening = x.1.opening

end BatchLoop

/-! ### The table between batches -/

namespace FdTable

/-- An idle entry has no callbacks; and as long as the kernel has an interest in a number, it is
open and every callback in its entry is of the current opening. -/
structure TableInv (t : FdTable Callback) (opening : ℕ → ℕ) (isOpen : ℕ → Bool) : Prop where
  idle_empty : ∀ i, (t.entry i).fd = -1 → ∀ d, (t.entry i).func d = none
  isOpen : ∀ i m, t.interest i = some m → isOpen i = true
  registered : ∀ i m, t.interest i = some m → ∀ d c, (t.entry i).func d = some c →
    c.opening = opening i

/-- A slot with a callback is inside the table. -/
theorem lt_length_of_func {κ : Type*} {t : FdTable κ} {i : ℕ} {d : Direction} {c : κ}
    (h : (t.entry i).func d = some c) : i < t.fds.length := by
  by_contra hge
  rw [entry, List.getElem?_eq_none (Nat.not_lt.1 hge)] at h
  cases d <;> exact absurd h (by simp [EsFile.func])

/-- A call that makes the kernel interested in what it was not interested in is a granted
`EPOLL_CTL_ADD`. -/
theorem add_of_registeredAfter {call : Option CtlCall} {ok : Bool} {m : UInt32}
    (h : registeredAfter none call ok = some m) :
    ok = true ∧ ∃ c, call = some c ∧ c.op = .add := by
  rcases call with - | ⟨op, mask⟩
  · exact absurd h (by simp [registeredAfter])
  · cases ok
    · cases op <;> exact absurd h (by simp [registeredAfter, CtlCall.perform])
    · cases op with
      | add => exact ⟨rfl, _, rfl, rfl⟩
      | mod => exact absurd h (by simp [registeredAfter, CtlCall.perform])
      | del => exact absurd h (by simp [registeredAfter, CtlCall.perform])

namespace TableInv

variable {t u : FdTable Callback} {opening : ℕ → ℕ} {isOpen : ℕ → Bool}

/-- **An entry operation keeps the table's invariant** when it stores only callbacks of the current
opening: what becomes registered was idle, and so had no callbacks. -/
theorem op {o : EntryOp Callback} (h : t.TableInv opening isOpen) (heff : t.OpEffect u o)
    (hrec : (t.entry o.fd).Records (o.op (t.entry o.fd))) (hok : o.ok = true → isOpen o.fd = true)
    (hidle : (o.op (t.entry o.fd)).1.fd = -1 → ∀ d, (o.op (t.entry o.fd)).1.func d = none)
    (hslot : ∀ d c, (o.op (t.entry o.fd)).1.func d = some c →
      (t.entry o.fd).func d = some c ∨ c.opening = opening o.fd) : u.TableInv opening isOpen := by
  refine ⟨fun i hi ↦ ?_, fun i m hm ↦ ?_, fun i m hm d c hc ↦ ?_⟩
  · rw [heff.entry] at hi ⊢
    by_cases hfd : i = o.fd
    · rw [if_pos hfd] at hi ⊢
      exact hidle hi
    · rw [if_neg hfd] at hi ⊢
      exact h.idle_empty i hi
  · rw [heff.interest] at hm
    by_cases hfd : i = o.fd
    · rw [if_pos hfd] at hm
      rw [hfd]
      rcases hold : t.interest o.fd with - | m'
      · rw [hold] at hm
        exact hok (add_of_registeredAfter hm).1
      · exact h.isOpen o.fd m' hold
    · rw [if_neg hfd] at hm
      exact h.isOpen i m hm
  · rw [heff.entry] at hc
    rw [heff.interest] at hm
    by_cases hfd : i = o.fd
    · rw [if_pos hfd] at hc hm
      rw [hfd]
      rcases hslot d c hc with hold | hnew
      · rcases hint : t.interest o.fd with - | m'
        · rw [hint] at hm
          -- newly registered: the entry was idle, and an idle entry has no callbacks
          obtain ⟨-, call, hcall, hadd⟩ := add_of_registeredAfter hm
          have hfree := (hrec call hcall (by rw [hadd]; simp)).2.2 hadd
          rw [h.idle_empty o.fd hfree d] at hold
          exact absurd hold (by simp)
        · exact h.registered o.fd m' hint d c hold
      · exact hnew
    · rw [if_neg hfd] at hc hm
      exact h.registered i m hm d c hc

theorem waitFd (h : t.TableInv opening isOpen) (fd : ℕ) (d : Direction) (id : ℕ) {ok : Bool}
    (hok : ok = true → isOpen fd = true) :
    (t.waitFd d.mask fd (some ⟨id, opening fd⟩) ok).1.TableInv opening isOpen := by
  refine h.op (t.opEffect_waitFd d.mask fd _ ok) (EsFile.recorded_wait _ d fd _) hok
    (fun hidle ↦ ?_) fun d' c hc ↦ ?_
  · -- a wait never leaves its entry idle
    exact absurd hidle (EsFile.fd_wait_ne _ d fd _)
  · dsimp only at hc
    rw [EsFile.func_wait] at hc
    by_cases hd : d' = d
    · subst hd
      rw [EsFile.func_setFunc_self] at hc
      exact .inr (Option.some.inj hc ▸ rfl)
    · rw [EsFile.func_setFunc_of_ne _ hd] at hc
      exact .inl hc

theorem cancelEv (h : t.TableInv opening isOpen) (fd : ℕ) (ev : UInt32) {ok : Bool}
    (hok : ok = true → isOpen fd = true) :
    (t.cancelEv fd ev ok).1.TableInv opening isOpen :=
  h.op (t.opEffect_cancelEv fd ev ok) (EsFile.recorded_cancel _ ev) hok
    (EsFile.func_cancel_of_idle (h.idle_empty fd)) fun _ _ hc ↦ .inl (EsFile.func_of_func_cancel hc)

/-- A slot is written while its entry is in use. -/
theorem setSlot (h : t.TableInv opening isOpen) {fd : ℕ} {d : Direction} {f : Option Callback}
    (hfd : (t.entry fd).fd ≠ -1) (hf : ∀ c, f = some c → c.opening = opening fd) :
    (t.put fd ((t.entry fd).setFunc d f, none) true).1.TableInv opening isOpen := by
  have hentry := t.entry_put (lt_length_of_fd hfd) ((t.entry fd).setFunc d f, none) true
  have hinterest : ∀ j, (t.put fd ((t.entry fd).setFunc d f, none) true).1.interest j =
      t.interest j := by
    intro j
    rw [interest_put_apply]
    split
    · rename_i hj
      rw [hj]
      rfl
    · rfl
  refine ⟨fun i hi ↦ ?_, fun i m hm ↦ ?_, fun i m hm d' c hc ↦ ?_⟩
  · rw [hentry] at hi ⊢
    by_cases hi' : i = fd
    · rw [if_pos hi'] at hi
      exact absurd (hi.symm.trans (by cases d <;> rfl) : (-1 : Int) = (t.entry fd).fd)
        (Ne.symm hfd)
    · rw [if_neg hi'] at hi ⊢
      exact h.idle_empty i hi
  · exact h.isOpen i m (hinterest i ▸ hm)
  · rw [func_put_setFunc (lt_length_of_fd hfd)] at hc
    rw [hinterest] at hm
    split at hc
    · rename_i hslot
      rw [hslot.1]
      exact hf c hc
    · exact h.registered i m hm d' c hc

theorem close (h : t.TableInv opening isOpen) (fd : ℕ) :
    TableInv { t with interest := Function.update t.interest fd none } opening
      (Function.update isOpen fd false) := by
  have hne : ∀ i m, Function.update t.interest fd none i = some m →
      i ≠ fd ∧ t.interest i = some m := by
    intro i m hm
    by_cases hi : i = fd
    · rw [hi, Function.update_self] at hm
      exact absurd hm (by simp)
    · rw [Function.update_of_ne hi] at hm
      exact ⟨hi, hm⟩
  refine ⟨h.idle_empty, fun i m hm ↦ ?_, fun i m hm d c hc ↦ ?_⟩
  · obtain ⟨hi, hm⟩ := hne i m hm
    rw [Function.update_of_ne hi]
    exact h.isOpen i m hm
  · exact h.registered i m (hne i m hm).2 d c hc

/-- A number that is opened was closed, so the kernel has no interest in it. -/
theorem open_ (h : t.TableInv opening isOpen) {fd : ℕ} (hclosed : isOpen fd = false) :
    t.TableInv (Function.update opening fd (opening fd + 1)) (Function.update isOpen fd true) := by
  have hne : ∀ i m, t.interest i = some m → i ≠ fd := by
    rintro i m hm rfl
    rw [h.isOpen i m hm] at hclosed
    exact absurd hclosed (by simp)
  refine ⟨h.idle_empty, fun i m hm ↦ ?_, fun i m hm d c hc ↦ ?_⟩
  · rw [Function.update_of_ne (hne i m hm)]
    exact h.isOpen i m hm
  · rw [Function.update_of_ne (hne i m hm)]
    exact h.registered i m hm d c hc

end TableInv

end FdTable

namespace BatchLoop

variable {s u : BatchLoop}

/-- The table's invariant; and what the slots of the events to come hold is of the opening the
event was reported for. -/
structure Inv (s : BatchLoop) : Prop where
  table : s.table.TableInv s.opening s.isOpen
  pending : ∀ p ∈ s.parts, Reported p.1.events p.2 → ∀ c,
    (s.table.entry p.1.fd).func p.2 = some c → c.opening = p.1.opening
  deliveredOwn : s.DeliveredOwn

theorem inv_init : machine.init.Inv where
  table :=
    { idle_empty := fun i _ d ↦ by cases d <;> rfl
      isOpen := fun i m hm ↦ absurd hm (by simp [machine])
      registered := fun i m hm ↦ absurd hm (by simp [machine]) }
  pending := fun p hp ↦ absurd hp (by simp [machine])
  deliveredOwn := fun x hx ↦ absurd hx (by simp [machine])

/-- A table whose slots hold what they held, and in one slot a callback that may be stored there. -/
theorem Inv.pending_of_slots {t : FdTable Callback} {fd : ℕ} {d : Direction} {opening : ℕ}
    (hs : s.Inv) (hmay : s.MayStore fd d opening)
    (hslot : ∀ i d' c, (t.entry i).func d' = some c →
      (s.table.entry i).func d' = some c ∨ i = fd ∧ d' = d ∧ c.opening = opening) :
    ∀ p ∈ s.parts, Reported p.1.events p.2 → ∀ c,
      (t.entry p.1.fd).func p.2 = some c → c.opening = p.1.opening := by
  intro p hp hwants c hc
  rcases hslot p.1.fd p.2 c hc with hold | ⟨hfd, hd, hnew⟩
  · exact hs.pending p hp hwants c hold
  · rw [hnew]
    exact (hmay p hp hfd hd (hd ▸ hwants)).symm

theorem Inv.takeTurn {e : BatchEvent} {d : Direction} {rest : List (BatchEvent × Direction)}
    (hs : s.Inv) (hparts : s.parts = (e, d) :: rest) : (s.takeTurn e d rest).Inv := by
  have hrest : ∀ p ∈ rest, p ∈ s.parts := fun p hp ↦ hparts ▸ List.mem_cons_of_mem _ hp
  have hskip : ∀ ps : List (BatchEvent × Direction), (∀ p ∈ ps, p ∈ s.parts) →
      Inv { s with parts := ps } :=
    fun ps hps ↦ ⟨hs.table, fun p hp ↦ hs.pending p (hps p hp), hs.deliveredOwn⟩
  unfold BatchLoop.takeTurn
  split
  · exact hskip _ fun p hp ↦ hrest p (List.mem_of_mem_tail hp)
  · split
    · rename_i hwants
      rcases hslot : (s.table.entry e.fd).func d with - | c
      · exact hskip _ hrest
      -- a delivery empties the slot and goes to the callback that was there
      · have hin := FdTable.lt_length_of_func hslot
        have huse : (s.table.entry e.fd).fd ≠ -1 := fun hidle ↦ by
          rw [hs.table.idle_empty e.fd hidle d] at hslot
          exact absurd hslot (by simp)
        refine ⟨hs.table.setSlot huse fun _ h ↦ absurd h (by simp), fun p hp hw c' hc' ↦ ?_,
          fun x hx ↦ ?_⟩
        · dsimp only at hc'
          rw [FdTable.func_put_setFunc hin] at hc'
          split at hc'
          · exact absurd hc' (by simp)
          · exact hs.pending p (hrest p hp) hw c' hc'
        · rcases List.mem_append.1 hx with hold | hnew
          · exact hs.deliveredOwn x hold
          · rw [List.mem_singleton.1 hnew]
            exact hs.pending (e, d) (hparts ▸ List.mem_cons_self) hwants c hslot
    · exact hskip _ hrest

/-- The events of a batch are reported for what the kernel is interested in, and there every
callback is of the current opening. -/
theorem Inv.epollWait {events : List (ℕ × UInt32)} (hs : s.Inv)
    (hev : ∀ x ∈ events, (s.table.interest x.1).isSome) :
    Inv { s with
      parts := events.flatMap fun x ↦
        [(⟨x.1, s.opening x.1, x.2⟩, .write), (⟨x.1, s.opening x.1, x.2⟩, .read)] } := by
  refine ⟨hs.table, fun p hp _ c hc ↦ ?_, hs.deliveredOwn⟩
  obtain ⟨x, hx, hmem⟩ := List.mem_flatMap.1 hp
  obtain ⟨m, hm⟩ := Option.isSome_iff_exists.1 (hev x hx)
  have hp1 : p.1 = ⟨x.1, s.opening x.1, x.2⟩ := by
    rcases List.mem_cons.1 hmem with rfl | hmem
    · rfl
    · rw [List.mem_singleton.1 hmem]
  rw [hp1] at hc ⊢
  exact hs.table.registered x.1 m hm p.2 c hc

/-- **One step keeps the invariant** when it stores only its own. -/
theorem inv_step {a : BatchAction} (hu : s.step a = some u) (ha : s.StoresOwn a) (hs : s.Inv) :
    u.Inv := by
  have hopen : ∀ fd (ok : Bool), (ok && s.isOpen fd) = true → s.isOpen fd = true :=
    fun _ _ h ↦ (Bool.and_eq_true _ _ ▸ h).2
  cases a with
  | wait fd d id ok =>
    obtain ⟨-, ⟨⟩⟩ := Option.ite_none_right_eq_some.1 hu
    refine ⟨hs.table.waitFd fd d id (hopen fd ok), hs.pending_of_slots ha fun i d' c hc ↦ ?_,
      hs.deliveredOwn⟩
    rcases FdTable.func_waitFd hc with hold | ⟨rfl, hi, hd⟩
    · exact .inl hold
    · exact .inr ⟨hi, hd, rfl⟩
  | cancelEv fd ev ok =>
    obtain ⟨-, ⟨⟩⟩ := Option.ite_none_right_eq_some.1 hu
    refine ⟨hs.table.cancelEv fd ev (hopen fd ok), fun p hp hw c hc ↦ ?_, hs.deliveredOwn⟩
    refine hs.pending p hp hw c ?_
    dsimp only at hc
    rw [(s.table.opEffect_cancelEv fd ev _).entry] at hc
    split at hc
    · rename_i hfd
      exact hfd ▸ EsFile.func_of_func_cancel hc
    · exact hc
  -- the callbacks stay, but nothing is registered for them any more
  | close fd =>
    obtain ⟨-, ⟨⟩⟩ := Option.ite_none_right_eq_some.1 hu
    exact ⟨hs.table.close fd, hs.pending, hs.deliveredOwn⟩
  | «open» fd =>
    obtain ⟨⟨-, hclosed⟩, ⟨⟩⟩ := Option.ite_none_right_eq_some.1 hu
    exact ⟨hs.table.open_ hclosed, hs.pending, hs.deliveredOwn⟩
  | epollWait events =>
    obtain ⟨⟨-, -, hev⟩, ⟨⟩⟩ := Option.ite_none_right_eq_some.1 hu
    exact hs.epollWait hev
  | turn =>
    unfold step at hu
    dsimp only at hu
    split at hu
    · rename_i e d rest _ hparts
      obtain rfl := Option.some.inj hu
      exact hs.takeTurn hparts
    · exact absurd hu (by simp)
  | rearm =>
    obtain ⟨⟨fd, d, c⟩, hh, rfl⟩ := Option.map_eq_some_iff.1 hu
    obtain ⟨hmay, hcur, huse⟩ := ha fd d c hh
    refine ⟨hs.table.setSlot huse fun c' hc' ↦ Option.some.inj hc' ▸ hcur,
      hs.pending_of_slots hmay fun i d' c' hc' ↦ ?_, hs.deliveredOwn⟩
    rw [FdTable.func_put_setFunc (FdTable.lt_length_of_fd huse)] at hc'
    split at hc'
    · rename_i hslot
      exact .inr ⟨hslot.1, hslot.2, Option.some.inj hc' ▸ rfl⟩
    · exact .inl hc'
  | leave =>
    obtain ⟨h, hh, rfl⟩ := Option.map_eq_some_iff.1 hu
    exact ⟨hs.table, hs.pending, hs.deliveredOwn⟩

end BatchLoop

/-- **No stale event reaches a new owner** in a run in which a callback is stored in a slot only
when no event of another opening is still to be delivered there: every event goes to a callback of
the opening the kernel reported it for. -/
theorem delivered_own {as : List BatchAction}
    (h : BatchLoop.machine.StepsMeet BatchLoop.StoresOwn as) :
    BatchLoop.machine.Throughout BatchLoop.DeliveredOwn as :=
  (Machine.throughout_of_stepsMeet BatchLoop.inv_init
    (fun _ _ _ hu ha hs ↦ BatchLoop.inv_step hu ha hs) h).mono fun _ hs ↦ hs.deliveredOwn

namespace BatchLoop

/-- 5 and 6 are open and wait to be read, and both are in the batch. The callback of 5 is called. -/
def twoReaders : List BatchAction :=
  [.open 5, .open 6, .wait 5 .read 1 true, .wait 6 .read 2 true,
    .epollWait [(5, epollIn), (6, epollIn)], .turn, .turn]

/-- The callback of 5 cancels and closes 6, and a new descriptor gets the number 6. -/
def reopen : List BatchAction :=
  [.cancelEv 6 (epollIn ||| epollOut) true, .close 6, .open 6]

end BatchLoop

/-- 6 is closed and reopened in a batch, and the new descriptor waits to be written. -/
theorem delivered_own_reopened :
    BatchLoop.machine.Throughout BatchLoop.DeliveredOwn
      (BatchLoop.twoReaders ++ BatchLoop.reopen ++
        [.wait 6 .write 3 true, .leave, .turn, .turn]) := by
  refine delivered_own ?_
  refine .cons rfl trivial (.cons rfl trivial (.cons rfl ?_ (.cons rfl ?_ (.cons rfl trivial
    (.cons rfl trivial (.cons rfl trivial (.cons rfl trivial (.cons rfl trivial (.cons rfl trivial
    (.cons rfl ?_ (.cons rfl trivial (.cons rfl trivial (.cons rfl trivial trivial)))))))))))))
  · rintro p ⟨⟩
  · rintro p ⟨⟩
  · -- the event still to come for 6 is not one for writing
    show ∀ p ∈ [(⟨6, 1, epollIn⟩, .write), ((⟨6, 1, epollIn⟩ : BatchEvent), Direction.read)],
      p.1.fd = 6 → p.2 = .write → Reported p.1.events .write → p.1.opening = 2
    decide

/-- The new descriptor waits to be read: the event of the closed 6 goes to its callback 3. -/
theorem stale_event_delivered :
    ∃ s, BatchLoop.machine.run (BatchLoop.twoReaders ++ BatchLoop.reopen ++
        [.wait 6 .read 3 true, .leave, .turn, .turn]) = some s ∧
      s.delivered = [(⟨5, 1, epollIn⟩, ⟨1, 1⟩), (⟨6, 1, epollIn⟩, ⟨3, 2⟩)] ∧ ¬ s.DeliveredOwn := by
  refine ⟨_, rfl, rfl, fun h ↦ ?_⟩
  exact absurd (h (⟨6, 1, epollIn⟩, ⟨3, 2⟩) (by decide)) (by decide)

end Nsio
