import Nsio.Foundations.GrowVec
import Nsio.Coio.FdTable

/-!
# Dispatch through a reference into the table

`run` takes a reference `fe` to the entry of an event once, and reads and clears the handler slots
through it; the handlers get the same reference as `es` and write themselves back through it. The
entries are in a `std::vector`, so a handler that waits for a descriptor past the capacity moves
them, and the reference keeps denoting what was there before.

This module has both levels. `HeapTable` is the table in its vector, and dispatch through the held
reference runs on it (`HeapTable.byRef`). Dispatch by index, which looks the entry up at each
access, runs on the plain table of `FdTable` (`FdTable.byIndex`). The code of `run` and of the
handlers is written once, for any way of access. What a handler does is a program (`HandlerProg`):
its waits and cancellations, its reads of `es._fd` and its stores into `es`, in any order and
number.

While no wait reaches the capacity the two levels agree (`run_byRef_of_bounded`), and after one
that does they still agree as long as the entry is not used again (`run_byRef_of_safe`).
-/

namespace Nsio

/-- `EPOLLHUP | EPOLLERR | EPOLLRDHUP`. -/
def evErr : UInt32 := 0x2018

/-! ### The table in its vector -/

/-- The table `_fds` with its storage, and the kernel's interest. -/
structure HeapTable (κ : Type*) where
  vec : GrowVec (EsFile κ)
  interest : ℕ → Option UInt32

namespace HeapTable

variable {κ : Type*}

/-- The entries and the interest, without the storage. -/
def table (h : HeapTable κ) : FdTable κ := ⟨h.vec.items, h.interest⟩

/-- `_fds.reserve(256)`. -/
def empty : HeapTable κ := ⟨.reserve 256, fun _ ↦ none⟩

/-- The resize of `wait_fd`. -/
def resize (h : HeapTable κ) (fd : ℕ) : HeapTable κ :=
  { h with vec := if h.vec.items.length ≤ fd then h.vec.resize (fd + 1) {} else h.vec }

/-- Store an entry by index and make its call. -/
def put (h : HeapTable κ) (fd : ℕ) (fe : EsFile κ × Option CtlCall) (ok : Bool) : HeapTable κ :=
  { vec := h.vec.set fd fe.1, interest := (h.table.put fd fe ok).1.interest }

/-- `wait_fd`. -/
def waitFd (type : UInt32) (h : HeapTable κ) (fd : ℕ) (func : Option κ) (ok : Bool) : HeapTable κ :=
  let h := h.resize fd
  h.put fd ((h.table.entry fd).wait type fd func) ok

/-- `cancel_ev`. -/
def cancelEv (h : HeapTable κ) (fd : ℕ) (ev : UInt32) (ok : Bool) : HeapTable κ :=
  if h.vec.items.length ≤ fd then h else h.put fd ((h.table.entry fd).cancel ev) ok

variable (h : HeapTable κ)

theorem table_put (fd : ℕ) (fe : EsFile κ × Option CtlCall) (ok : Bool) :
    (h.put fd fe ok).table = (h.table.put fd fe ok).1 := by
  rw [table, put, GrowVec.items_set]
  rfl

theorem table_resize (fd : ℕ) : (h.resize fd).table = h.table.resize fd := by
  rw [resize, table, FdTable.resize, table]
  dsimp only
  split
  · rw [GrowVec.items_resize]
    rfl
  · rw [Nat.sub_eq_zero_of_le (by omega), List.replicate_zero, List.append_nil]

/-- The operations by index are those of the plain table. -/
theorem table_waitFd (type : UInt32) (fd : ℕ) (func : Option κ) (ok : Bool) :
    (h.waitFd type fd func ok).table = (h.table.waitFd type fd func ok).1 := by
  rw [waitFd, table_put, table_resize, FdTable.waitFd]
  split <;> rfl

theorem table_cancelEv (fd : ℕ) (ev : UInt32) (ok : Bool) :
    (h.cancelEv fd ev ok).table = (h.table.cancelEv fd ev ok).1 := by
  rw [cancelEv, FdTable.cancelEv]
  split
  · rw [if_pos ‹_›]
  · rw [if_neg ‹_›, table_put]

/-! ### When the entries move -/

theorem cur_cancelEv (fd : ℕ) (ev : UInt32) (ok : Bool) :
    (h.cancelEv fd ev ok).vec.cur = h.vec.cur ∧ (h.cancelEv fd ev ok).vec.cap = h.vec.cap := by
  rw [cancelEv]
  split <;> exact ⟨rfl, rfl⟩

variable {h}

theorem cur_waitFd_of_lt {fd : ℕ} (hfd : fd < h.vec.cap) (type : UInt32) (func : Option κ)
    (ok : Bool) : (h.waitFd type fd func ok).vec.cur = h.vec.cur ∧
      (h.waitFd type fd func ok).vec.cap = h.vec.cap := by
  show (h.resize fd).vec.cur = _ ∧ (h.resize fd).vec.cap = _
  rw [resize]
  dsimp only
  split
  · exact GrowVec.cur_resize_of_le hfd _
  · exact ⟨rfl, rfl⟩

theorem cur_waitFd_of_ge {fd : ℕ} (hfd : h.vec.cap ≤ fd) (type : UInt32) (func : Option κ)
    (ok : Bool) : (h.waitFd type fd func ok).vec.cur = h.vec.cur + 1 := by
  show (h.resize fd).vec.cur = _
  rw [resize, if_pos (Nat.le_trans h.vec.length_items_le_cap hfd)]
  exact GrowVec.cur_resize_of_lt (Nat.lt_succ_of_le hfd) _

theorem cur_le_cur_waitFd (type : UInt32) (fd : ℕ) (func : Option κ) (ok : Bool) :
    h.vec.cur ≤ (h.waitFd type fd func ok).vec.cur := by
  rcases Nat.lt_or_ge fd h.vec.cap with hlt | hge
  · exact Nat.le_of_eq (cur_waitFd_of_lt hlt type func ok).1.symm
  · rw [cur_waitFd_of_ge hge]
    exact Nat.le_succ _

end HeapTable

/-! ### The code, for any way of access -/

/-- How code gets at the entry it was called for, and at the table. -/
structure Access (σ κ : Type*) where
  entry : σ → EsFile κ
  store : σ → EsFile κ → σ
  wait : σ → Direction → ℕ → Option κ → Bool → σ
  cancel : σ → ℕ → UInt32 → Bool → σ

/-- Access by index: the entry is looked up each time. -/
def FdTable.byIndex {κ : Type*} (fd : ℕ) : Access (FdTable κ) κ where
  entry t := t.entry fd
  store t e := { t with fds := t.fds.set fd e }
  wait t d fd f ok := (t.waitFd d.mask fd f ok).1
  cancel t fd ev ok := (t.cancelEv fd ev ok).1

/-- Access through a reference. -/
def HeapTable.byRef {κ : Type*} (r : GrowVec.Ref) : Access (HeapTable κ) κ where
  entry h := (h.vec.read r).getD {}
  store h e := { h with vec := h.vec.assign r e }
  wait h d fd f ok := h.waitFd d.mask fd f ok
  cancel h fd ev ok := h.cancelEv fd ev ok

/-- What a handler does to the loop, and what it does with the entry it was passed. -/
inductive HandlerProg (κ : Type*)
  | done
  /-- `wait_read` or `wait_write`. -/
  | wait (d : Direction) (fd : ℕ) (f : Option κ) (ok : Bool) (k : HandlerProg κ)
  /-- `cancel_read`, `cancel_write` or `cancel_fdall`. -/
  | cancel (fd : ℕ) (ev : UInt32) (ok : Bool) (k : HandlerProg κ)
  /-- `es._func_r = f` or `es._func_w = f`. -/
  | rearm (d : Direction) (f : κ) (k : HandlerProg κ)
  /-- A read of `es._fd`. -/
  | readFd (k : Int → HandlerProg κ)

namespace HandlerProg

variable {σ κ : Type*}

/-- Run a program. -/
def run (A : Access σ κ) : HandlerProg κ → σ → σ
  | .done, s => s
  | .wait d fd f ok k, s => k.run A (A.wait s d fd f ok)
  | .cancel fd ev ok k, s => k.run A (A.cancel s fd ev ok)
  | .rearm d f k, s => k.run A (A.store s ((A.entry s).setFunc d (some f)))
  | .readFd k, s => (k (A.entry s).fd).run A s

/-- All waits are for descriptors below `n`. -/
def Bounded (n : ℕ) : HandlerProg κ → Prop
  | .done => True
  | .wait _ fd _ _ k => fd < n ∧ k.Bounded n
  | .cancel _ _ _ k => k.Bounded n
  | .rearm _ _ k => k.Bounded n
  | .readFd k => ∀ x, (k x).Bounded n

/-- The entry that was passed is not used. -/
def Detached : HandlerProg κ → Prop
  | .done => True
  | .wait _ _ _ _ k => k.Detached
  | .cancel _ _ _ k => k.Detached
  | .rearm _ _ _ => False
  | .readFd _ => False

/-- The entry is not used any more after a wait for a descriptor from `n` on. -/
def Safe (n : ℕ) : HandlerProg κ → Prop
  | .done => True
  | .wait _ fd _ _ k => fd < n ∧ k.Safe n ∨ k.Detached
  | .cancel _ _ _ k => k.Safe n
  | .rearm _ _ k => k.Safe n
  | .readFd k => ∀ x, (k x).Safe n

theorem Bounded.safe {n : ℕ} {p : HandlerProg κ} (h : p.Bounded n) : p.Safe n := by
  induction p with
  | done => trivial
  | wait d fd f ok k ih => exact .inl ⟨h.1, ih h.2⟩
  | cancel fd ev ok k ih => exact ih h
  | rearm d f k ih => exact ih h
  | readFd k ih => exact fun x ↦ ih x (h x)

theorem Bounded.mono {m n : ℕ} {p : HandlerProg κ} (h : p.Bounded m) (hmn : m ≤ n) :
    p.Bounded n := by
  induction p with
  | done => trivial
  | wait d fd f ok k ih => exact ⟨Nat.lt_of_lt_of_le h.1 hmn, ih h.2⟩
  | cancel fd ev ok k ih => exact ih h
  | rearm d f k ih => exact ih h
  | readFd k ih => exact fun x ↦ ih x (h x)

end HandlerProg

section Dispatch

variable {σ κ : Type*} (A : Access σ κ) (behave : ℕ → κ → Int → HandlerProg κ)

/-- Clear the slot of a direction and call its handler, if there is one. The state carries the calls
made so far; `behave n` is what the `n`-th call for the event does. -/
def deliver (d : Direction) (event : Int) (s : σ × List (κ × Int)) : σ × List (κ × Int) :=
  match (A.entry s.1).func d with
  | none => s
  | some f =>
    ((behave s.2.length f event).run A (A.store s.1 ((A.entry s.1).setFunc d none)),
      s.2 ++ [(f, event)])

/-- What `run` does for an event with the mask `events`; `e` is what `SO_ERROR` says. -/
def dispatch (events : UInt32) (e : Int) (s : σ) : σ × List (κ × Int) :=
  if (A.entry s).fd = -1 then (s, [])
  else if events &&& evErr ≠ 0 then
    deliver A behave .read (-e) (deliver A behave .write (-e) (s, []))
  else
    let s := if events &&& epollOut ≠ 0 then deliver A behave .write emWrite (s, []) else (s, [])
    if events &&& epollIn ≠ 0 then deliver A behave .read emRead s else s

end Dispatch

/-- The event of a descriptor, with the entry looked up at each access. -/
def FdTable.onEvent {κ : Type*} (t : FdTable κ) (behave : ℕ → κ → Int → HandlerProg κ) (fd : ℕ)
    (events : UInt32) (e : Int) : FdTable κ × List (κ × Int) :=
  if t.fds.length ≤ fd then (t, []) else dispatch (byIndex fd) behave events e t

/-- The event of a descriptor as `run` processes it, through `auto & fe = _fds[fd]`. -/
def HeapTable.onEvent {κ : Type*} (h : HeapTable κ) (behave : ℕ → κ → Int → HandlerProg κ) (fd : ℕ)
    (events : UInt32) (e : Int) : HeapTable κ × List (κ × Int) :=
  if h.vec.items.length ≤ fd then (h, []) else dispatch (byRef (h.vec.ref fd)) behave events e h

/-! ### Where the two levels agree -/

namespace HandlerProg

variable {κ : Type*} {r : GrowVec.Ref} {h : HeapTable κ}

theorem entry_byRef (hr : r.storage = h.vec.cur) :
    (HeapTable.byRef r).entry h = h.table.entry r.index := by
  show (h.vec.read r).getD {} = _
  rw [GrowVec.read_of_current hr]
  rfl

theorem table_store_byRef (hr : r.storage = h.vec.cur) (e : EsFile κ) :
    ((HeapTable.byRef r).store h e).table = (FdTable.byIndex r.index).store h.table e := by
  show HeapTable.table { h with vec := h.vec.assign r e } = _
  rw [HeapTable.table, GrowVec.items_assign_of_current hr]
  rfl

/-- Through a reference that is not current, nothing reaches the table. -/
theorem table_store_byRef_of_stale (hr : r.storage ≠ h.vec.cur) (e : EsFile κ) :
    ((HeapTable.byRef r).store h e).table = h.table := by
  show HeapTable.table { h with vec := h.vec.assign r e } = _
  rw [HeapTable.table, GrowVec.items_assign_of_stale hr]
  rfl

/-- A program that does not use the entry does the same on both levels. -/
theorem run_byRef_of_detached {p : HandlerProg κ} (hp : p.Detached) (i : ℕ) :
    (p.run (HeapTable.byRef r) h).table = p.run (FdTable.byIndex i) h.table := by
  induction p generalizing h with
  | done => rfl
  | wait d fd f ok k ih =>
    rw [run, run, ih hp]
    exact congrArg _ (h.table_waitFd d.mask fd f ok)
  | cancel fd ev ok k ih =>
    rw [run, run, ih hp]
    exact congrArg _ (h.table_cancelEv fd ev ok)
  | rearm d f k ih => exact absurd hp id
  | readFd k ih => exact absurd hp id

/-- **Up to a move**: a program that uses the entry only while the entries have not moved does the
same on both levels. -/
theorem run_byRef_of_safe {p : HandlerProg κ} (hr : r.storage = h.vec.cur)
    (hp : p.Safe h.vec.cap) :
    (p.run (HeapTable.byRef r) h).table = p.run (FdTable.byIndex r.index) h.table := by
  induction p generalizing h with
  | done => rfl
  | wait d fd f ok k ih =>
    have hwait : ((HeapTable.byRef r).wait h d fd f ok).table =
      (FdTable.byIndex r.index).wait h.table d fd f ok := h.table_waitFd d.mask fd f ok
    rw [run, run, ← hwait]
    -- the wait is inside the capacity, or the program does not touch the entry afterwards
    rcases hp with ⟨hlt, hk⟩ | hk
    · obtain ⟨hcur, hcap⟩ := HeapTable.cur_waitFd_of_lt hlt d.mask f ok
      exact ih (hr.trans hcur.symm) (hcap ▸ hk)
    · exact run_byRef_of_detached hk r.index
  | cancel fd ev ok k ih =>
    have hcancel : ((HeapTable.byRef r).cancel h fd ev ok).table =
      (FdTable.byIndex r.index).cancel h.table fd ev ok := h.table_cancelEv fd ev ok
    obtain ⟨hcur, hcap⟩ := h.cur_cancelEv fd ev ok
    rw [run, run, ← hcancel]
    exact ih (hr.trans hcur.symm) (hcap ▸ hp)
  | rearm d f k ih =>
    rw [run, run, entry_byRef hr]
    rw [show (FdTable.byIndex r.index).entry h.table = h.table.entry r.index from rfl,
      ← table_store_byRef hr]
    exact ih hr hp
  | readFd k ih =>
    rw [run, run, entry_byRef hr]
    exact ih _ hr (hp _)

/-- A bounded program leaves the entries where they are. -/
theorem cur_run_of_bounded {p : HandlerProg κ} (hp : p.Bounded h.vec.cap) :
    (p.run (HeapTable.byRef r) h).vec.cur = h.vec.cur ∧
      (p.run (HeapTable.byRef r) h).vec.cap = h.vec.cap := by
  induction p generalizing h with
  | done => exact ⟨rfl, rfl⟩
  | wait d fd f ok k ih =>
    obtain ⟨hcur, hcap⟩ := HeapTable.cur_waitFd_of_lt hp.1 d.mask f ok
    have hk := ih (h := (HeapTable.byRef r).wait h d fd f ok) (by exact hcap ▸ hp.2)
    exact ⟨hk.1.trans hcur, hk.2.trans hcap⟩
  | cancel fd ev ok k ih =>
    obtain ⟨hcur, hcap⟩ := h.cur_cancelEv fd ev ok
    have hk := ih (h := (HeapTable.byRef r).cancel h fd ev ok) (by exact hcap ▸ hp)
    exact ⟨hk.1.trans hcur, hk.2.trans hcap⟩
  | rearm d f k ih => exact ih (h := (HeapTable.byRef r).store h _) hp
  | readFd k ih => exact ih _ (hp _)

end HandlerProg

section Agreement

variable {κ : Type*} {behave : ℕ → κ → Int → HandlerProg κ} {r : GrowVec.Ref}

/-- A delivery to a handler that uses the entry only before a move. -/
theorem deliver_byRef_of_safe {s : HeapTable κ × List (κ × Int)} {d : Direction} {event : Int}
    (hr : r.storage = s.1.vec.cur) (hsafe : ∀ f, (behave s.2.length f event).Safe s.1.vec.cap) :
    Prod.map HeapTable.table id (deliver (HeapTable.byRef r) behave d event s) =
      deliver (FdTable.byIndex r.index) behave d event (Prod.map HeapTable.table id s) := by
  rw [deliver, deliver, HandlerProg.entry_byRef hr]
  show _ = match (s.1.table.entry r.index).func d with
    | none => _
    | some f => _
  rcases (s.1.table.entry r.index).func d with - | f
  · rfl
  · set cleared := (s.1.table.entry r.index).setFunc d none
    have hrun := HandlerProg.run_byRef_of_safe (h := (HeapTable.byRef r).store s.1 cleared) hr
      (hsafe f)
    rw [HandlerProg.table_store_byRef hr cleared] at hrun
    exact Prod.ext hrun rfl

/-- A delivery to a bounded handler leaves the entries where they are. -/
theorem cur_deliver_of_bounded {s : HeapTable κ × List (κ × Int)} {d : Direction} {event : Int}
    (hbound : ∀ f, ((HeapTable.byRef r).entry s.1).func d = some f →
      (behave s.2.length f event).Bounded s.1.vec.cap) :
    (deliver (HeapTable.byRef r) behave d event s).1.vec.cur = s.1.vec.cur ∧
      (deliver (HeapTable.byRef r) behave d event s).1.vec.cap = s.1.vec.cap := by
  rw [deliver]
  split
  · exact ⟨rfl, rfl⟩
  · exact HandlerProg.cur_run_of_bounded (h := (HeapTable.byRef r).store s.1 _) (hbound _ ‹_›)

/-- Both directions are looked at: after the first handler the entry is used again. -/
def BothReported (events : UInt32) : Prop :=
  events &&& evErr ≠ 0 ∨ events &&& epollOut ≠ 0 ∧ events &&& epollIn ≠ 0

/-- **The handlers keep to the capacity `n`** as far as the entry is used: no use after a wait for a
descriptor from `n` on, and no such wait at all in a writer after which the reader is looked at. -/
structure Careful (behave : ℕ → κ → Int → HandlerProg κ) (n : ℕ) (fe : EsFile κ) (events : UInt32) :
    Prop where
  safe : ∀ k f event, (behave k f event).Safe n
  first : BothReported events → ∀ f, fe.funcW = some f → ∀ event, (behave 0 f event).Bounded n

/-- The deliveries of an event, in their order. -/
def deliveries (events : UInt32) (e : Int) : List (Direction × Int) :=
  if events &&& evErr ≠ 0 then [(.write, -e), (.read, -e)]
  else (if events &&& epollOut ≠ 0 then [(.write, emWrite)] else []) ++
    (if events &&& epollIn ≠ 0 then [(.read, emRead)] else [])

theorem mem_deliveries_write {events : UInt32} {e : Int} (herr : ¬ events &&& evErr ≠ 0)
    (hout : events &&& epollOut ≠ 0) : (.write, emWrite) ∈ deliveries events e := by
  rw [deliveries, if_neg herr, if_pos hout]
  exact List.mem_append_left _ (List.mem_singleton_self _)

/-- The same for the deliveries of one event. -/
structure CarefulFor (behave : ℕ → κ → Int → HandlerProg κ) (n : ℕ) (fe : EsFile κ)
    (events : UInt32) (e : Int) : Prop where
  safe : ∀ k f event, (behave k f event).Safe n
  first : BothReported events → ∀ f, fe.funcW = some f →
    ∀ event, (.write, event) ∈ deliveries events e → (behave 0 f event).Bounded n

theorem Careful.for {n : ℕ} {fe : EsFile κ} {events : UInt32} (h : Careful behave n fe events)
    (e : Int) : CarefulFor behave n fe events e :=
  ⟨h.safe, fun hboth f hf event _ ↦ h.first hboth f hf event⟩

namespace CarefulFor

variable {h : HeapTable κ} {events : UInt32} {e event : Int}

/-- The writer is called through a reference that is current. -/
theorem deliver_write (hr : r.storage = h.vec.cur)
    (hcare : CarefulFor behave h.vec.cap (h.table.entry r.index) events e) (event : Int) :
    Prod.map HeapTable.table id (deliver (HeapTable.byRef r) behave .write event (h, [])) =
      deliver (FdTable.byIndex r.index) behave .write event (h.table, []) :=
  deliver_byRef_of_safe (s := (h, [])) hr fun f ↦ hcare.safe 0 f event

/-- And the reference is still current for the reader, if that is looked at. -/
theorem cur_deliver_write (hr : r.storage = h.vec.cur)
    (hcare : CarefulFor behave h.vec.cap (h.table.entry r.index) events e)
    (hboth : BothReported events) (hevent : (.write, event) ∈ deliveries events e) :
    (deliver (HeapTable.byRef r) behave .write event (h, [])).1.vec.cur = h.vec.cur ∧
      (deliver (HeapTable.byRef r) behave .write event (h, [])).1.vec.cap = h.vec.cap := by
  refine cur_deliver_of_bounded (s := (h, [])) fun f hf ↦ hcare.first hboth f ?_ event hevent
  rw [HandlerProg.entry_byRef hr] at hf
  exact hf

end CarefulFor

theorem dispatch_byRef_of_careful {h : HeapTable κ} {events : UInt32} {e : Int}
    (hr : r.storage = h.vec.cur)
    (hcare : CarefulFor behave h.vec.cap (h.table.entry r.index) events e) :
    Prod.map HeapTable.table id (dispatch (HeapTable.byRef r) behave events e h) =
      dispatch (FdTable.byIndex r.index) behave events e h.table := by
  -- the reader is called after the writer, which has not moved the entries
  have hreader : BothReported events → ∀ event event', (.write, event) ∈ deliveries events e →
      Prod.map HeapTable.table id
      (deliver (HeapTable.byRef r) behave .read event'
        (deliver (HeapTable.byRef r) behave .write event (h, []))) =
      deliver (FdTable.byIndex r.index) behave .read event'
        (deliver (FdTable.byIndex r.index) behave .write event (h.table, [])) := by
    intro hboth event event' hevent
    obtain ⟨hcur, hcap⟩ := hcare.cur_deliver_write hr hboth hevent
    rw [deliver_byRef_of_safe (hr.trans hcur.symm) fun f ↦ hcap ▸ hcare.safe _ f event',
      hcare.deliver_write hr]
  rw [dispatch, dispatch, HandlerProg.entry_byRef hr]
  show _ = if (h.table.entry r.index).fd = -1 then _ else _
  by_cases hidle : (h.table.entry r.index).fd = -1
  · rw [if_pos hidle, if_pos hidle]
    rfl
  rw [if_neg hidle, if_neg hidle]
  by_cases herr : events &&& evErr ≠ 0
  · rw [if_pos herr, if_pos herr]
    exact hreader (.inl herr) _ _ (by rw [deliveries, if_pos herr]; simp)
  rw [if_neg herr, if_neg herr]
  dsimp only
  by_cases hout : events &&& epollOut ≠ 0 <;> by_cases hin : events &&& epollIn ≠ 0
  · rw [if_pos hout, if_pos hout, if_pos hin, if_pos hin]
    exact hreader (.inr ⟨hout, hin⟩) _ _ (mem_deliveries_write herr hout)
  · rw [if_pos hout, if_pos hout, if_neg hin, if_neg hin]
    exact hcare.deliver_write hr _
  · rw [if_neg hout, if_neg hout, if_pos hin, if_pos hin]
    exact deliver_byRef_of_safe (s := (h, [])) hr fun f ↦ hcare.safe 0 f _
  · rw [if_neg hout, if_neg hout, if_neg hin, if_neg hin]
    rfl

/-- The event leaves the table, and has called the handlers, as dispatch by index does. -/
def Agrees (h : HeapTable κ) (behave : ℕ → κ → Int → HandlerProg κ) (fd : ℕ) (events : UInt32)
    (e : Int) : Prop :=
  Prod.map HeapTable.table id (h.onEvent behave fd events e) = h.table.onEvent behave fd events e

theorem agrees_of_careful {h : HeapTable κ} {fd : ℕ} {events : UInt32} {e : Int}
    (hcare : CarefulFor behave h.vec.cap (h.table.entry fd) events e) :
    Agrees h behave fd events e := by
  rw [Agrees, HeapTable.onEvent, FdTable.onEvent]
  show _ = if h.vec.items.length ≤ fd then _ else _
  split
  · rfl
  · exact dispatch_byRef_of_careful (r := h.vec.ref fd) rfl hcare

/-! ### Handlers that grow the table -/

/-- `run` looks at the direction. -/
def Reported (events : UInt32) (d : Direction) : Prop :=
  events &&& evErr ≠ 0 ∨ events &&& d.mask ≠ 0

/-- The event calls a handler. -/
def FdTable.Invokes (t : FdTable κ) (fd : ℕ) (events : UInt32) : Prop :=
  fd < t.fds.length ∧ (t.entry fd).fd ≠ -1 ∧ ∃ d, Reported events d ∧ (t.entry fd).func d ≠ none

/-- The first handler called waits for the descriptor before `n` and arms itself again. -/
def growThenRearm (d : Direction) (n : ℕ) : ℕ → κ → Int → HandlerProg κ := fun k f _ ↦
  if k = 0 then .wait .read (n - 1) none true (.rearm d f .done) else .done

theorem bounded_growThenRearm (d : Direction) {n : ℕ} (hn : 0 < n) (k : ℕ) (f : κ) (event : Int) :
    (growThenRearm d n k f event).Bounded n := by
  rw [growThenRearm]
  split
  · exact ⟨by omega, trivial⟩
  · trivial

theorem entry_store_byIndex {t : FdTable κ} {fd : ℕ} (hfd : fd < t.fds.length) (fe : EsFile κ) :
    ((FdTable.byIndex fd).store t fe).entry fd = fe := by
  show ((t.fds.set fd fe)[fd]?).getD {} = fe
  rw [List.getElem?_set_self hfd]
  rfl

theorem deliver_of_none {σ : Type*} {A : Access σ κ} {s : σ × List (κ × Int)} {d : Direction}
    (h : (A.entry s.1).func d = none) (event : Int) : deliver A behave d event s = s := by
  rw [deliver, h]

theorem deliver_of_some {σ : Type*} {A : Access σ κ} {s : σ × List (κ × Int)} {d : Direction}
    {f : κ}
    (h : (A.entry s.1).func d = some f) (event : Int) : deliver A behave d event s =
      ((behave s.2.length f event).run A (A.store s.1 ((A.entry s.1).setFunc d none)),
        s.2 ++ [(f, event)]) := by
  rw [deliver, h]

/-- By index, the handler that grew the table is armed again. -/
theorem func_grow_byIndex {t : FdTable κ} {fd : ℕ} {d : Direction} {f : κ}
    (hfd : fd < t.fds.length) (hf : (t.entry fd).func d = some f) (n : ℕ) (event : Int) :
    ((deliver (FdTable.byIndex fd) (growThenRearm d n) d event (t, [])).1.entry fd).func d =
      some f ∧
      fd < (deliver (FdTable.byIndex fd) (growThenRearm d n) d event (t, [])).1.fds.length := by
  rw [deliver_of_some (A := FdTable.byIndex fd) (s := (t, [])) hf]
  set t₁ := (FdTable.byIndex fd).store t ((t.entry fd).setFunc d none) with ht₁
  set t₂ := (t₁.waitFd epollIn (n - 1) none true).1 with ht₂
  have hlen : fd < t₂.fds.length := by
    have h₁ : t₁.fds.length = t.fds.length := List.length_set
    have h₂ : t₁.fds.length ≤ t₂.fds.length :=
      t₁.length_le_length_waitFd epollIn (n - 1) none true
    omega
  show
    (((FdTable.byIndex fd).store t₂ ((t₂.entry fd).setFunc d (some f))).entry fd).func d = some f ∧
    fd < (t₂.fds.set fd _).length
  rw [entry_store_byIndex hlen, EsFile.func_setFunc_self, List.length_set]
  exact ⟨rfl, hlen⟩

/-- Through the reference, it is not: the entries have moved with the slot cleared. -/
theorem func_grow_byRef {h : HeapTable κ} {fd n : ℕ} {d : Direction} {f : κ}
    (hfd : fd < h.vec.items.length) (hn : h.vec.cap < n) (hf : (h.table.entry fd).func d = some f)
    (event : Int) :
    ((deliver (HeapTable.byRef (h.vec.ref fd)) (growThenRearm d n) d event (h, [])).1.table.entry
      fd).func d = none ∧
      (h.vec.ref fd).storage ≠
        (deliver (HeapTable.byRef (h.vec.ref fd)) (growThenRearm d n) d event
          (h, [])).1.vec.cur := by
  have hr : (h.vec.ref fd).storage = h.vec.cur := rfl
  have hle := h.vec.length_items_le_cap
  have hentry : (HeapTable.byRef (h.vec.ref fd)).entry h = h.table.entry fd :=
    HandlerProg.entry_byRef hr
  rw [deliver_of_some (s := (h, [])) (hentry ▸ hf)]
  set h₁ := (HeapTable.byRef (h.vec.ref fd)).store h ((h.table.entry fd).setFunc d none) with hh₁
  set h₂ := h₁.waitFd epollIn (n - 1) none true with hh₂
  have hcur : h₂.vec.cur = h.vec.cur + 1 :=
    HeapTable.cur_waitFd_of_ge (h := h₁) (show h.vec.cap ≤ n - 1 by omega) epollIn none true
  have hstale : (h.vec.ref fd).storage ≠ h₂.vec.cur := by rw [hr, hcur]; omega
  have hcleared : (h₂.table.entry fd).func d = none := by
    rw [hh₂, HeapTable.table_waitFd, FdTable.entry_waitFd_of_ne _ (by omega), hh₁,
      HandlerProg.table_store_byRef hr, show (h.vec.ref fd).index = fd from rfl,
      entry_store_byIndex hfd, EsFile.func_setFunc_self]
  show (((HeapTable.byRef (h.vec.ref fd)).store h₂ _).table.entry fd).func d = none ∧ _
  rw [HandlerProg.table_store_byRef_of_stale hstale]
  exact ⟨hcleared, hstale⟩

/-- After the first call, `growThenRearm` does nothing. -/
theorem growThenRearm_of_ne_nil (d : Direction) (n : ℕ) {log : List (κ × Int)} (h : log ≠ [])
    (f : κ) (event : Int) : growThenRearm d n log.length f event = .done :=
  if_neg fun hzero ↦ h (List.length_eq_zero_iff.1 hzero)

/-- Later deliveries to other directions, by index. -/
theorem func_foldl_byIndex {n fd : ℕ} {d : Direction} {ps : List (Direction × Int)}
    {s : FdTable κ × List (κ × Int)} (hps : ∀ p ∈ ps, d ≠ p.1) (hfd : fd < s.1.fds.length)
    (hlog : s.2 ≠ []) :
    ((ps.foldl (fun s p ↦ deliver (FdTable.byIndex fd) (growThenRearm d n) p.1 p.2 s) s).1.entry
      fd).func d = (s.1.entry fd).func d := by
  induction ps generalizing s with
  | nil => rfl
  | cons p ps ih =>
    rw [List.forall_mem_cons] at hps
    rw [List.foldl_cons]
    rcases hf : ((FdTable.byIndex fd).entry s.1).func p.1 with - | f
    · rw [deliver_of_none hf]
      exact ih hps.2 hfd hlog
    · rw [deliver_of_some hf, growThenRearm_of_ne_nil d n hlog]
      have hlen : fd < ((FdTable.byIndex fd).store s.1
          (((FdTable.byIndex fd).entry s.1).setFunc p.1 none)).fds.length := by
        show fd < (s.1.fds.set fd _).length
        rwa [List.length_set]
      refine (ih (s := ((FdTable.byIndex fd).store s.1 _, s.2 ++ [(f, p.2)])) hps.2 hlen
        (by simp)).trans ?_
      show (((FdTable.byIndex fd).store s.1 _).entry fd).func d = _
      rw [entry_store_byIndex hfd, EsFile.func_setFunc_of_ne _ hps.1]
      rfl

/-- Later deliveries through a reference that is not current. -/
theorem table_foldl_byRef {n : ℕ} {d : Direction} {ps : List (Direction × Int)}
    {s : HeapTable κ × List (κ × Int)} (hr : r.storage ≠ s.1.vec.cur) (hlog : s.2 ≠ []) :
    (ps.foldl (fun s p ↦ deliver (HeapTable.byRef r) (growThenRearm d n) p.1 p.2 s) s).1.table =
      s.1.table := by
  induction ps generalizing s with
  | nil => rfl
  | cons p ps ih =>
    rw [List.foldl_cons]
    rcases hf : ((HeapTable.byRef r).entry s.1).func p.1 with - | f
    · rw [deliver_of_none hf]
      exact ih hr hlog
    · rw [deliver_of_some hf, growThenRearm_of_ne_nil d n hlog]
      refine (ih (s := ((HeapTable.byRef r).store s.1 _, s.2 ++ [(f, p.2)])) hr (by simp)).trans ?_
      exact HandlerProg.table_store_byRef_of_stale hr _

theorem dispatch_eq_foldl {σ : Type*} {A : Access σ κ} {s : σ} (hidle : (A.entry s).fd ≠ -1)
    (events : UInt32) (e : Int) : dispatch A behave events e s =
      (deliveries events e).foldl (fun s p ↦ deliver A behave p.1 p.2 s) (s, []) := by
  rw [dispatch, if_neg hidle, deliveries]
  split
  · rfl
  · split <;> split <;> rfl

theorem exists_mem_deliveries {events : UInt32} {d : Direction} (h : Reported events d) (e : Int) :
    ∃ event, (d, event) ∈ deliveries events e := by
  rw [deliveries]
  split
  · cases d with
    | read => exact ⟨-e, by simp⟩
    | write => exact ⟨-e, by simp⟩
  · have hmask := h.resolve_left ‹_›
    cases d with
    | read =>
      refine ⟨emRead, List.mem_append_right _ ?_⟩
      rw [if_pos (show events &&& epollIn ≠ 0 from hmask)]
      exact List.mem_singleton_self _
    | write =>
      refine ⟨emWrite, List.mem_append_left _ ?_⟩
      rw [if_pos (show events &&& epollOut ≠ 0 from hmask)]
      exact List.mem_singleton_self _

/-- The deliveries go to different directions. -/
theorem nodup_deliveries (events : UInt32) (e : Int) :
    ((deliveries events e).map Prod.fst).Nodup := by
  rw [deliveries]
  split
  · simp
  · split <;> split <;> simp

/-- **The divergence**: as soon as one delivery finds a handler, there is a behaviour that waits for
a descriptor past the capacity and leaves different handlers on the two levels. -/
theorem exists_grow_diverges {h : HeapTable κ} {fd n : ℕ} (hfd : fd < h.vec.items.length)
    (hn : h.vec.cap < n) {ps : List (Direction × Int)} (hnodup : (ps.map Prod.fst).Nodup)
    (hps : ∃ p ∈ ps, (h.table.entry fd).func p.1 ≠ none) :
    ∃ d, ((ps.foldl
        (fun s p ↦ deliver (HeapTable.byRef (h.vec.ref fd)) (growThenRearm d n) p.1 p.2 s)
        (h, [])).1.table.entry fd).func d ≠
      ((ps.foldl (fun s p ↦ deliver (FdTable.byIndex fd) (growThenRearm d n) p.1 p.2 s)
        (h.table, [])).1.entry fd).func d := by
  induction ps with
  | nil => exact absurd hps (by simp)
  | cons p ps ih =>
    have hentry : (HeapTable.byRef (h.vec.ref fd)).entry h = h.table.entry fd :=
      HandlerProg.entry_byRef rfl
    rw [List.map_cons, List.nodup_cons] at hnodup
    simp only [List.foldl_cons]
    rcases hf : (h.table.entry fd).func p.1 with - | f
    -- nothing to call for this direction: both levels go on as they were
    · obtain ⟨q, hq, hfunc⟩ := hps
      obtain ⟨d, hd⟩ := ih hnodup.2
        ⟨q, (List.mem_cons.1 hq).resolve_left fun hqp ↦ hfunc (hqp ▸ hf), hfunc⟩
      refine ⟨d, ?_⟩
      rw [deliver_of_none (s := (h, [])) (hentry ▸ hf),
        deliver_of_none (A := FdTable.byIndex fd) (s := (h.table, [])) hf]
      exact hd
    · refine ⟨p.1, ?_⟩
      obtain ⟨hnone, hstale⟩ := func_grow_byRef hfd hn hf p.2
      obtain ⟨hsome, hlen⟩ := func_grow_byIndex (t := h.table) hfd hf n p.2
      have hother : ∀ q ∈ ps, p.1 ≠ q.1 := fun q hq heq ↦
        hnodup.1 (List.mem_map.2 ⟨q, hq, heq.symm⟩)
      rw [table_foldl_byRef hstale (by rw [deliver_of_some (s := (h, [])) (hentry ▸ hf)]; simp),
        hnone,
        func_foldl_byIndex hother hlen ?_, hsome]
      · simp
      · rw [deliver_of_some (A := FdTable.byIndex fd) (s := (h.table, [])) hf]
        simp

theorem dispatch_of_quiet {σ : Type*} {A : Access σ κ} {s : σ} {events : UInt32}
    (h : ∀ d, Reported events d → (A.entry s).func d = none) (e : Int) :
    dispatch A behave events e s = (s, []) := by
  have hquiet : ∀ d event, Reported events d → deliver A behave d event (s, []) = (s, []) :=
    fun d event hd ↦ deliver_of_none (h d hd) event
  rw [dispatch]
  split
  · rfl
  split
  · rename_i herr
    rw [hquiet .write _ (.inl herr), hquiet .read _ (.inl herr)]
  split
  · rename_i hout
    rw [hquiet .write _ (.inr hout)]
    split
    · exact hquiet .read _ (.inr ‹_›)
    · rfl
  · split
    · exact hquiet .read _ (.inr ‹_›)
    · rfl

/-- **The bound on the descriptors handlers may wait for.** -/
theorem agrees_iff {h : HeapTable κ} {fd n : ℕ} {events : UInt32} {e : Int} :
    (∀ behave, (∀ k f event, (behave k f event).Bounded n) → Agrees h behave fd events e) ↔
      n ≤ h.vec.cap ∨ ¬ h.table.Invokes fd events := by
  constructor
  · intro hall
    by_contra hcon
    rw [not_or, not_not, Nat.not_le] at hcon
    obtain ⟨hn, hfd, hidle, d, hrep, hfunc⟩ := hcon
    obtain ⟨event, hmem⟩ := exists_mem_deliveries hrep e
    obtain ⟨d', hne⟩ := exists_grow_diverges hfd hn (nodup_deliveries events e)
      ⟨(d, event), hmem, hfunc⟩
    refine hne ?_
    have hagree := hall (growThenRearm d' n) (bounded_growThenRearm d' (by omega))
    have hentry : (HeapTable.byRef (h.vec.ref fd)).entry h = h.table.entry fd :=
      HandlerProg.entry_byRef rfl
    have hlt : ¬ h.vec.items.length ≤ fd := Nat.not_le.2 hfd
    rw [Agrees, HeapTable.onEvent, FdTable.onEvent, if_neg hlt,
      if_neg (show ¬ h.table.fds.length ≤ fd from hlt),
      dispatch_eq_foldl (hentry ▸ hidle),
      dispatch_eq_foldl (A := FdTable.byIndex fd) hidle] at hagree
    exact congrArg (fun s : FdTable κ × List (κ × Int) ↦ (s.1.entry fd).func d') hagree
  · rintro (hn | hquiet) behave hbound
    · exact agrees_of_careful ⟨fun k f event ↦ ((hbound k f event).mono hn).safe,
        fun _ f _ event _ ↦ (hbound 0 f event).mono hn⟩
    · have hentry : (HeapTable.byRef (h.vec.ref fd)).entry h = h.table.entry fd :=
        HandlerProg.entry_byRef rfl
      rw [Agrees, HeapTable.onEvent, FdTable.onEvent]
      show _ = if h.vec.items.length ≤ fd then _ else _
      by_cases hle : h.vec.items.length ≤ fd
      · rw [if_pos hle, if_pos hle]
        rfl
      rw [if_neg hle, if_neg hle]
      -- nothing is called: neither level changes
      by_cases hidle : (h.table.entry fd).fd = -1
      · rw [dispatch, dispatch, hentry, if_pos hidle]
        exact (if_pos hidle).symm
      · have hnone : ∀ d, Reported events d → (h.table.entry fd).func d = none := fun d hd ↦ by
          by_contra hsome
          exact hquiet ⟨Nat.not_le.1 hle, hidle, d, hd, hsome⟩
        rw [dispatch_of_quiet (hentry ▸ hnone), dispatch_of_quiet (A := FdTable.byIndex fd) hnone]
        rfl

end Agreement

/-! ### The loop's own handler -/

namespace HandlerProg

variable {σ κ : Type*}

/-- One program after another. -/
def seq : HandlerProg κ → HandlerProg κ → HandlerProg κ
  | .done, q => q
  | .wait d fd f ok k, q => .wait d fd f ok (k.seq q)
  | .cancel fd ev ok k, q => .cancel fd ev ok (k.seq q)
  | .rearm d f k, q => .rearm d f (k.seq q)
  | .readFd k, q => .readFd fun x ↦ (k x).seq q

theorem run_seq (A : Access σ κ) (p q : HandlerProg κ) (s : σ) :
    (p.seq q).run A s = q.run A (p.run A s) := by
  induction p generalizing s with
  | done => rfl
  | wait d fd f ok k ih => exact ih _
  | cancel fd ev ok k ih => exact ih _
  | rearm d f k ih => exact ih _
  | readFd k ih => exact ih _ _

/-- The program does nothing to the entry of a descriptor. -/
def Avoids (fd : ℕ) : HandlerProg κ → Prop
  | .done => True
  | .wait _ fd' _ _ k => fd ≠ fd' ∧ k.Avoids fd
  | .cancel fd' _ _ k => fd ≠ fd' ∧ k.Avoids fd
  | .rearm _ _ k => k.Avoids fd
  | .readFd k => ∀ x, (k x).Avoids fd

/-- `io_loop::on_file_event`: the queued functions one after the other, then `es._func_r = this`. -/
def loopHandler (funcs : List (HandlerProg κ)) (self : κ) : HandlerProg κ :=
  funcs.foldr seq (.rearm .read self .done)

variable {r : GrowVec.Ref} {h : HeapTable κ}

/-- A queued function that leaves a descriptor alone. -/
theorem entry_run_of_avoids {p : HandlerProg κ} (hp : p.Detached) {fd : ℕ} (ha : p.Avoids fd) :
    (p.run (HeapTable.byRef r) h).table.entry fd = h.table.entry fd := by
  induction p generalizing h with
  | done => rfl
  | wait d fd' f ok k ih =>
    refine (ih (h := h.waitFd d.mask fd' f ok) hp ha.2).trans ?_
    rw [HeapTable.table_waitFd, FdTable.entry_waitFd_of_ne _ ha.1]
  | cancel fd' ev ok k ih =>
    refine (ih (h := h.cancelEv fd' ev ok) hp ha.2).trans ?_
    rw [HeapTable.table_cancelEv, FdTable.entry_cancelEv_of_ne ha.1]
  | rearm d f k ih => exact absurd hp id
  | readFd k ih => exact absurd hp id

/-- The storage only moves on. -/
theorem cur_le_cur_run {p : HandlerProg κ} (hp : p.Detached) :
    h.vec.cur ≤ (p.run (HeapTable.byRef r) h).vec.cur := by
  induction p generalizing h with
  | done => exact Nat.le_refl _
  | wait d fd f ok k ih =>
    exact Nat.le_trans (HeapTable.cur_le_cur_waitFd d.mask fd f ok)
      (ih (h := h.waitFd d.mask fd f ok) hp)
  | cancel fd ev ok k ih =>
    exact Nat.le_trans (Nat.le_of_eq (h.cur_cancelEv fd ev ok).1.symm)
      (ih (h := h.cancelEv fd ev ok) hp)
  | rearm d f k ih => exact absurd hp id
  | readFd k ih => exact absurd hp id

theorem length_le_length_run {p : HandlerProg κ} (hp : p.Detached) :
    h.table.fds.length ≤ (p.run (HeapTable.byRef r) h).table.fds.length := by
  induction p generalizing h with
  | done => exact Nat.le_refl _
  | wait d fd f ok k ih =>
    refine Nat.le_trans ?_ (ih (h := h.waitFd d.mask fd f ok) hp)
    rw [HeapTable.table_waitFd]
    exact h.table.length_le_length_waitFd d.mask fd f ok
  | cancel fd ev ok k ih =>
    refine Nat.le_trans (Nat.le_of_eq ?_) (ih (h := h.cancelEv fd ev ok) hp)
    rw [HeapTable.table_cancelEv, FdTable.length_cancelEv]
  | rearm d f k ih => exact absurd hp id
  | readFd k ih => exact absurd hp id

/-- A queued function that is not bounded by the capacity moves the entries. -/
theorem cur_lt_cur_run {p : HandlerProg κ} (hp : p.Detached) (hb : ¬ p.Bounded h.vec.cap) :
    h.vec.cur < (p.run (HeapTable.byRef r) h).vec.cur := by
  induction p generalizing h with
  | done => exact absurd trivial hb
  | wait d fd f ok k ih =>
    rcases Nat.lt_or_ge fd h.vec.cap with hlt | hge
    · obtain ⟨hcur, hcap⟩ := HeapTable.cur_waitFd_of_lt hlt d.mask f ok
      have hk : ¬ k.Bounded (h.waitFd d.mask fd f ok).vec.cap := fun hk ↦ hb ⟨hlt, hcap ▸ hk⟩
      have := ih (h := h.waitFd d.mask fd f ok) hp hk
      rwa [hcur] at this
    · have hcur := HeapTable.cur_waitFd_of_ge hge d.mask f ok
      have hle := cur_le_cur_run (r := r) (h := h.waitFd d.mask fd f ok) (p := k) hp
      rw [hcur] at hle
      exact Nat.lt_of_succ_le hle
  | cancel fd ev ok k ih =>
    obtain ⟨hcur, hcap⟩ := h.cur_cancelEv fd ev ok
    have := ih (h := h.cancelEv fd ev ok) hp fun hk ↦ hb (hcap ▸ hk)
    rwa [hcur] at this
  | rearm d f k ih => exact absurd hp id
  | readFd k ih => exact absurd hp id

/-- What the queued functions do together. -/
theorem funcs_run {funcs : List (HandlerProg κ)} {fd : ℕ}
    (hf : ∀ p ∈ funcs, p.Detached ∧ p.Avoids fd) (q : HandlerProg κ) :
    ∃ h' : HeapTable κ,
      (funcs.foldr seq q).run (HeapTable.byRef r) h = q.run (HeapTable.byRef r) h' ∧
      h'.table.entry fd = h.table.entry fd ∧ h.table.fds.length ≤ h'.table.fds.length ∧
      h.vec.cur ≤ h'.vec.cur ∧
      (h'.vec.cur = h.vec.cur ↔ ∀ p ∈ funcs, p.Bounded h.vec.cap) := by
  induction funcs generalizing h with
  | nil => exact ⟨h, rfl, rfl, Nat.le_refl _, Nat.le_refl _, by simp⟩
  | cons p funcs ih =>
    rw [List.forall_mem_cons] at hf
    obtain ⟨⟨hdet, havoid⟩, hrest⟩ := hf
    obtain ⟨h', hrun, hentry, hlen, hle, hiff⟩ := ih (h := p.run (HeapTable.byRef r) h) hrest
    refine ⟨h', by rw [List.foldr_cons, run_seq, hrun],
      hentry.trans (entry_run_of_avoids hdet havoid),
      Nat.le_trans (length_le_length_run hdet) hlen, Nat.le_trans (cur_le_cur_run hdet) hle, ?_⟩
    rw [List.forall_mem_cons]
    by_cases hb : p.Bounded h.vec.cap
    · obtain ⟨hcur, hcap⟩ := cur_run_of_bounded (r := r) hb
      rw [hcur, hcap] at hiff
      rw [hiff]
      exact ⟨fun hall ↦ ⟨hb, hall⟩, fun hall ↦ hall.2⟩
    · have hlt := cur_lt_cur_run (r := r) hdet hb
      exact ⟨fun heq ↦ absurd heq (by omega), fun hall ↦ absurd hall.1 hb⟩

/-- **The loop stays armed** exactly when no queued function moves the entries. -/
theorem loopHandler_armed_iff {funcs : List (HandlerProg κ)} {self : κ} {eventFd : ℕ}
    (hfd : eventFd < h.vec.items.length) (hclear : (h.table.entry eventFd).funcR = none)
    (hf : ∀ p ∈ funcs, p.Detached ∧ p.Avoids eventFd) :
    (((loopHandler funcs self).run (HeapTable.byRef (h.vec.ref eventFd)) h).table.entry
      eventFd).funcR = some self ↔ ∀ p ∈ funcs, p.Bounded h.vec.cap := by
  obtain ⟨h', hrun, hentry, hlen, -, hiff⟩ := funcs_run (r := h.vec.ref eventFd) (h := h) hf
    (.rearm .read self .done)
  rw [loopHandler, hrun, ← hiff]
  show (((HeapTable.byRef (h.vec.ref eventFd)).store h' _).table.entry eventFd).funcR = _ ↔ _
  by_cases hcur : h'.vec.cur = h.vec.cur
  · rw [table_store_byRef hcur.symm, show (h.vec.ref eventFd).index = eventFd from rfl,
      entry_store_byIndex (Nat.lt_of_lt_of_le hfd hlen)]
    exact ⟨fun _ ↦ hcur, fun _ ↦ rfl⟩
  · rw [table_store_byRef_of_stale (Ne.symm hcur), hentry, hclear]
    exact ⟨fun h ↦ absurd h (by simp), fun h ↦ absurd h hcur⟩

end HandlerProg

/-- An event of a descriptor that has a reader only is one delivery to it. -/
theorem exists_dispatch_eq_deliver {σ κ : Type*} {A : Access σ κ}
    {behave : ℕ → κ → Int → HandlerProg κ} {s : σ} {events : UInt32}
    (hidle : (A.entry s).fd ≠ -1) (hw : (A.entry s).funcW = none) (hrep : Reported events .read)
    (e : Int) : ∃ event, dispatch A behave events e s = deliver A behave .read event (s, []) := by
  have hwrite : ∀ event, deliver A behave .write event (s, []) = (s, []) :=
    fun event ↦ deliver_of_none (s := (s, [])) (d := .write) hw event
  rw [dispatch, if_neg hidle]
  by_cases herr : events &&& evErr ≠ 0
  · rw [if_pos herr, hwrite]
    exact ⟨_, rfl⟩
  · have hin : events &&& epollIn ≠ 0 := hrep.resolve_left herr
    rw [if_neg herr, if_pos hin, hwrite, ite_self]
    exact ⟨_, rfl⟩

/-- After an event of its own descriptor, the loop is armed exactly when no queued function moved
the entries. -/
theorem loop_armed_iff {κ : Type*} {h : HeapTable κ} {eventFd : ℕ} {self : κ} {events : UInt32}
    {funcs : List (HandlerProg κ)} (hfd : eventFd < h.vec.items.length)
    (hidle : (h.table.entry eventFd).fd ≠ -1) (hw : (h.table.entry eventFd).funcW = none)
    (hr : (h.table.entry eventFd).funcR = some self) (hrep : Reported events .read)
    (hf : ∀ p ∈ funcs, p.Detached ∧ p.Avoids eventFd) (e : Int) :
    ((h.onEvent (fun _ _ _ ↦ .loopHandler funcs self) eventFd events e).1.table.entry
      eventFd).funcR = some self ↔ ∀ p ∈ funcs, p.Bounded h.vec.cap := by
  have hentry : (HeapTable.byRef (h.vec.ref eventFd)).entry h = h.table.entry eventFd :=
    HandlerProg.entry_byRef rfl
  obtain ⟨event, hdispatch⟩ := @exists_dispatch_eq_deliver _ _ _
    (fun _ _ _ ↦ HandlerProg.loopHandler funcs self) _ _ (hentry ▸ hidle) (hentry ▸ hw) hrep e
  rw [HeapTable.onEvent, if_neg (Nat.not_le.2 hfd), hdispatch,
    deliver_of_some (s := (h, [])) (d := .read) (hentry ▸ hr), hentry]
  set h₁ := (HeapTable.byRef (h.vec.ref eventFd)).store h
    ((h.table.entry eventFd).setFunc .read none) with hh₁
  have htable : h₁.table.entry eventFd = (h.table.entry eventFd).setFunc .read none := by
    rw [hh₁, HandlerProg.table_store_byRef rfl]
    exact entry_store_byIndex hfd _
  have hlen : eventFd < h₁.vec.items.length := by
    show eventFd < h₁.table.fds.length
    rw [hh₁, HandlerProg.table_store_byRef rfl]
    exact Nat.lt_of_lt_of_eq hfd List.length_set.symm
  exact HandlerProg.loopHandler_armed_iff (h := h₁) hlen (by rw [htable]; rfl) hf

/-- **Dispatch through the held reference.** For every table and event: it agrees with dispatch by
index, whatever the handlers do as long as they wait only for descriptors below `n`, exactly when
`n` is within the capacity or the event calls no handler. It also agrees whenever the handlers do
not use the entry after a wait past the capacity. And after an event of its own descriptor the loop
is armed exactly when no queued function has waited past the capacity. -/
theorem heldReference_agreement {κ : Type*} (h : HeapTable κ) :
    (∀ fd n events e,
      (∀ behave, (∀ k f event, (behave k f event).Bounded n) → Agrees h behave fd events e) ↔
        n ≤ h.vec.cap ∨ ¬ h.table.Invokes fd events) ∧
    (∀ behave fd events e,
      Careful behave h.vec.cap (h.table.entry fd) events → Agrees h behave fd events e) ∧
    (∀ eventFd self events e funcs, eventFd < h.vec.items.length →
      (h.table.entry eventFd).fd ≠ -1 → (h.table.entry eventFd).funcW = none →
      (h.table.entry eventFd).funcR = some self → Reported events .read →
      (∀ p ∈ funcs, p.Detached ∧ p.Avoids eventFd) →
        (((h.onEvent (fun _ _ _ ↦ .loopHandler funcs self) eventFd events e).1.table.entry
          eventFd).funcR = some self ↔ ∀ p ∈ funcs, p.Bounded h.vec.cap)) :=
  ⟨fun _ _ _ _ ↦ agrees_iff, fun _ _ _ _ hcare ↦ agrees_of_careful (hcare.for _),
    fun _ _ _ e _ hfd hidle hw hr hrep hf ↦ loop_armed_iff hfd hidle hw hr hrep hf e⟩

/-- A fresh loop on the descriptor 3 whose queue holds one function, which waits for the descriptor
200: the table has room for it, and the loop is armed again. -/
theorem heldReference_keeps_loop :
    let h : HeapTable ℕ := HeapTable.empty.waitFd epollIn 3 (some 0) true
    let behave : ℕ → ℕ → Int → HandlerProg ℕ := fun _ _ _ ↦
      .loopHandler [.wait .read 200 (some 1) true .done] 0
    ((h.onEvent behave 3 epollIn 0).1.table.entry 3).funcR = some 0 := by
  intro h behave
  refine ((heldReference_agreement h).2.2 3 0 epollIn 0 [.wait .read 200 (some 1) true .done]
    (by decide) (by decide) rfl rfl (.inr (by decide)) ?_).2 ?_
  · simp [HandlerProg.Detached, HandlerProg.Avoids]
  · have hcap : 200 < h.vec.cap := by decide
    simp [HandlerProg.Bounded, hcap]

/-- A fresh loop on the descriptor 3 whose queue holds one function, which waits for the descriptor
300: afterwards nothing is armed for the loop's descriptor, where dispatch by index has the loop. -/
theorem heldReference_disarms_loop :
    let h : HeapTable ℕ := HeapTable.empty.waitFd epollIn 3 (some 0) true
    let behave : ℕ → ℕ → Int → HandlerProg ℕ := fun _ _ _ ↦
      .loopHandler [.wait .read 300 (some 1) true .done] 0
    ((h.onEvent behave 3 epollIn 0).1.table.entry 3).funcR = none ∧
      ((h.table.onEvent behave 3 epollIn 0).1.entry 3).funcR = some 0 ∧
      ¬ Agrees h behave 3 epollIn 0 := by
  intro h behave
  have hnone : ((h.onEvent behave 3 epollIn 0).1.table.entry 3).funcR = none := rfl
  have hsome : ((h.table.onEvent behave 3 epollIn 0).1.entry 3).funcR = some 0 := rfl
  refine ⟨hnone, hsome, fun hagree ↦ ?_⟩
  have := congrArg (fun s : FdTable ℕ × List (ℕ × Int) ↦ (s.1.entry 3).funcR) hagree
  exact absurd (hnone.symm.trans (this.trans hsome)) (by simp)

end Nsio
