import Nsio.Coio.CtlFailures
import Nsio.Coio.HeldReference

/-!
# Events of descriptors that were cancelled in the same batch

A handler may cancel any descriptor, also one whose event comes later in the batch that is being
processed. This module compares the processing of a batch with **what is waited for**: an abstract
state (`Waits`) that knows, for each direction of a descriptor, whether it is waited for and which
callback is armed. A wait arms, a cancellation forgets, and an event calls what is armed.

The table shows that state (`FdTable.Shows`): each entry is the one its directions say
(`Waits.toEntry`). The operations keep this whatever `epoll_ctl` answers, because they write the
entry first. So the calls of a batch are the abstract ones, and the assertions on `_event` hold.
What fails is the assertion that the entry of an event is in use: it says that some direction of the
descriptor is still waited for, and a handler that ran before may have cancelled both
(`batch_skips_cancelled`).
-/

namespace Nsio

variable {κ : Type*}

/-! ### What is waited for -/

/-- For each direction of a descriptor: not waited for, or waited for with a callback that is armed
or was called already. -/
abbrev Waits (κ : Type*) := ℕ → Direction → Option (Option κ)

namespace Waits

variable (w : Waits κ)

/-- `wait_read` and `wait_write`. -/
def wait (d : Direction) (fd : ℕ) (f : Option κ) : Waits κ :=
  Function.update w fd (Function.update (w fd) d (some f))

/-- `cancel_read`, `cancel_write` and `cancel_fdall`, by their mask. -/
def cancel (fd : ℕ) (ev : UInt32) : Waits κ :=
  Function.update w fd fun d ↦ if ev &&& d.mask ≠ 0 then none else w fd d

/-- The callback of a direction is taken to be called. -/
def take (fd : ℕ) (d : Direction) : Waits κ :=
  Function.update w fd (Function.update (w fd) d ((w fd d).map fun _ ↦ none))

/-- A direction of the descriptor is waited for. -/
def Waited (fd : ℕ) : Prop := ∃ d, w fd d ≠ none

/-- The waits and cancellations of a handler. -/
def perform : HandlerProg κ → Waits κ → Waits κ
  | .done, w => w
  | .wait d fd f _ k, w => perform k (w.wait d fd f)
  | .cancel fd ev _ k, w => perform k (w.cancel fd ev)
  | .rearm _ _ _, w => w
  | .readFd _, w => w

/-- A delivery calls the callback that is armed, if there is one. -/
def call (behave : ℕ → κ → Int → HandlerProg κ) (fd : ℕ) (s : Waits κ × List (κ × Int))
    (p : Direction × Int) : Waits κ × List (κ × Int) :=
  match (s.1 fd p.1).join with
  | none => s
  | some f => (perform (behave s.2.length f p.2) (s.1.take fd p.1), s.2 ++ [(f, p.2)])

end Waits

/-- An event of a batch, with what the handlers called for it do. -/
structure Turn (κ : Type*) where
  fd : ℕ
  events : UInt32
  /-- What `SO_ERROR` says. -/
  soError : Int
  /-- What the `n`-th call for the event does. -/
  behave : ℕ → κ → Int → HandlerProg κ

/-- An event calls what is armed, writer first. -/
def Waits.process (w : Waits κ) (e : Turn κ) : Waits κ × List (κ × Int) :=
  (deliveries e.events e.soError).foldl (call e.behave e.fd) (w, [])

/-- Each event comes when its descriptor is still waited for. -/
def Waits.StillWaited : Waits κ → List (Turn κ) → Prop
  | _, [] => True
  | w, e :: batch => w.Waited e.fd ∧ StillWaited (w.process e).1 batch

/-- The handler uses the loop through `wait_read`, `wait_write`, `cancel_read`, `cancel_write` and
`cancel_fdall` only. -/
def HandlerProg.Public : HandlerProg κ → Prop
  | .done => True
  | .wait _ _ _ _ k => k.Public
  | .cancel _ ev _ k => (ev = epollIn ∨ ev = epollOut ∨ ev = epollIn ||| epollOut) ∧ k.Public
  | .rearm _ _ _ => False
  | .readFd _ => False

/-! ### The assertions of `run` -/

/-- The state in which `run` looks at the reader. -/
def afterWriter {σ : Type*} (A : Access σ κ) (behave : ℕ → κ → Int → HandlerProg κ)
    (events : UInt32) (s : σ) : σ :=
  if events &&& epollOut ≠ 0 then (deliver A behave .write emWrite (s, [])).1 else s

/-- The assertions on `_event`, which are made for events without an error. -/
structure EventAsserts {σ : Type*} (A : Access σ κ) (behave : ℕ → κ → Int → HandlerProg κ)
    (events : UInt32) (s : σ) : Prop where
  write : events &&& epollOut ≠ 0 → (A.entry s).funcW ≠ none →
    (A.entry s).event &&& epollOut ≠ 0
  read : events &&& epollIn ≠ 0 → (A.entry (afterWriter A behave events s)).funcR ≠ none →
    (A.entry (afterWriter A behave events s)).event &&& epollIn ≠ 0

namespace HeapTable

/-- The turn of an event. -/
def process (h : HeapTable κ) (e : Turn κ) : HeapTable κ × List (κ × Int) :=
  h.onEvent e.behave e.fd e.events e.soError

/-- `assert(false)` is not reached: the entry, if there is one, is in use. -/
def FdAssert (h : HeapTable κ) (e : Turn κ) : Prop :=
  e.fd < h.vec.items.length → (h.table.entry e.fd).fd ≠ -1

/-- The event passes the assertions on `_event`, and calls what is armed. -/
structure CallsArmed (h : HeapTable κ) (w : Waits κ) (e : Turn κ) : Prop where
  asserts : e.fd < h.vec.items.length → (h.table.entry e.fd).fd ≠ -1 → e.events &&& evErr = 0 →
    EventAsserts (byRef (h.vec.ref e.fd)) e.behave e.events h
  calls_eq : (h.process e).2 = (w.process e).2

/-- The writer that is called for an event, if the reader is looked at next, does not move the
entries: it waits for no descriptor at or past the capacity of then. -/
def WriterStays (h : HeapTable κ) (e : Turn κ) : Prop :=
  BothReported e.events → ∀ f, (h.table.entry e.fd).funcW = some f →
    ∀ event, (.write, event) ∈ deliveries e.events e.soError →
      (e.behave 0 f event).Bounded h.vec.cap

/-- A property of the states in which the events of a batch have their turns. -/
def AtTurns (P : HeapTable κ → Waits κ → Turn κ → Prop) :
    HeapTable κ → Waits κ → List (Turn κ) → Prop
  | _, _, [] => True
  | h, w, e :: batch => P h w e ∧ AtTurns P (h.process e).1 (w.process e).1 batch

end HeapTable

/-! ### Entries show what is waited for -/

namespace EsFile

variable (i : ℕ) (event : UInt32) (g r : Option κ)

/-- A wait on an entry in use stores the callback and records the direction. -/
theorem wait_mk (d : Direction) (f : Option κ) :
    ((⟨i, event, g, r⟩ : EsFile κ).wait d.mask i f).1 =
      (⟨i, if event &&& d.mask ≠ 0 then event else event ||| d.mask, g, r⟩ : EsFile κ).setFunc
        d f := by
  have hne : (i : Int) ≠ -1 := by omega
  rw [wait, if_neg hne]
  cases d with
  | read =>
    rw [show Direction.read.mask = epollIn from rfl, if_pos epollIn_and_self]
    dsimp only
    split <;> rfl
  | write =>
    rw [show Direction.write.mask = epollOut from rfl, if_neg (by decide)]
    dsimp only
    split <;> rfl

/-- A cancellation on an entry in use leaves the direction that is left, or an idle entry. -/
theorem cancel_mk (ev : UInt32) :
    ((⟨i, event, g, r⟩ : EsFile κ).cancel ev).1 =
      if event &&& ~~~ev &&& epollIn ≠ 0 then ⟨i, event &&& ~~~ev, none, r⟩
      else if event &&& ~~~ev &&& epollOut ≠ 0 then ⟨i, event &&& ~~~ev, g, none⟩
      else {} := by
  have hne : (i : Int) ≠ -1 := by omega
  rw [cancel, if_neg hne]
  dsimp only
  split
  · rfl
  · split <;> rfl

end EsFile

namespace Waits

/-- The entry for a descriptor. -/
def toEntry (i : ℕ) (row : Direction → Option (Option κ)) : EsFile κ :=
  match row .write, row .read with
  | none, none => {}
  | none, some r => ⟨i, epollIn, none, r⟩
  | some f, none => ⟨i, epollOut, f, none⟩
  | some f, some r => ⟨i, epollIn ||| epollOut, f, r⟩

variable (i : ℕ) (row : Direction → Option (Option κ))

theorem wait_toEntry (d : Direction) (f : Option κ) :
    ((toEntry i row).wait d.mask i f).1 = toEntry i (Function.update row d (some f)) := by
  rw [toEntry, toEntry]
  cases d with
  | read =>
    rw [Function.update_self, Function.update_of_ne (by decide)]
    rcases row .write with - | g <;> rcases row .read with - | r
    · rfl
    all_goals
      dsimp only
      rw [EsFile.wait_mk]
      rfl
  | write =>
    rw [Function.update_self, Function.update_of_ne (by decide)]
    rcases row .write with - | g <;> rcases row .read with - | r
    · rfl
    all_goals
      dsimp only
      rw [EsFile.wait_mk]
      rfl

theorem cancel_toEntry {ev : UInt32}
    (hev : ev = epollIn ∨ ev = epollOut ∨ ev = epollIn ||| epollOut) :
    ((toEntry i row).cancel ev).1 =
      toEntry i fun d ↦ if ev &&& d.mask ≠ 0 then none else row d := by
  rw [toEntry, toEntry]
  rcases row .write with - | g <;> rcases row .read with - | r
  · rcases hev with rfl | rfl | rfl <;> rfl
  all_goals
    dsimp only
    rw [EsFile.cancel_mk]
    rcases hev with rfl | rfl | rfl <;> rfl

theorem setFunc_toEntry (d : Direction) :
    (toEntry i row).setFunc d none =
      toEntry i (Function.update row d ((row d).map fun _ ↦ none)) := by
  cases d with
  | read =>
    rw [toEntry, toEntry, Function.update_self, Function.update_of_ne (by decide)]
    rcases row .write with - | g <;> rcases row .read with - | r <;> rfl
  | write =>
    rw [toEntry, toEntry, Function.update_self, Function.update_of_ne (by decide)]
    rcases row .write with - | g <;> rcases row .read with - | r <;> rfl

theorem func_toEntry (d : Direction) : (toEntry i row).func d = (row d).join := by
  rw [toEntry]
  cases d with
  | read => rcases row .write with - | g <;> rcases row .read with - | r <;> rfl
  | write => rcases row .write with - | g <;> rcases row .read with - | r <;> rfl

/-- An armed direction is recorded. -/
theorem event_toEntry {d : Direction} (h : (toEntry i row).func d ≠ none) :
    (toEntry i row).event &&& d.mask ≠ 0 := by
  rw [func_toEntry] at h
  rw [toEntry]
  cases d with
  | read =>
    rcases hr : row .read with - | r
    · exact absurd (by rw [hr]; rfl) h
    · rcases row .write with - | g <;> (dsimp only; decide)
  | write =>
    rcases hw : row .write with - | g
    · exact absurd (by rw [hw]; rfl) h
    · rcases row .read with - | r <;> (dsimp only; decide)

/-- An entry is in use as long as a direction is waited for. -/
theorem fd_toEntry_ne_iff : (toEntry i row).fd ≠ -1 ↔ ∃ d, row d ≠ none := by
  constructor
  · intro h
    by_contra hnone
    have hrow : ∀ d, row d = none := fun d ↦ by_contra fun hd ↦ hnone ⟨d, hd⟩
    rw [toEntry, hrow .write, hrow .read] at h
    exact h rfl
  · rintro ⟨d, hd⟩ hfd
    have hne : (i : Int) ≠ -1 := by omega
    rw [toEntry] at hfd
    rcases hw : row .write with - | g <;> rcases hr : row .read with - | r <;>
      rw [hw, hr] at hfd
    · cases d with
      | read => exact hd hr
      | write => exact hd hw
    · exact hne hfd
    · exact hne hfd
    · exact hne hfd

/-- An idle descriptor is processed without a call. -/
theorem process_of_not_waited {w : Waits κ} {e : Turn κ} (h : ¬ w.Waited e.fd) :
    w.process e = (w, []) := by
  have hcall : ∀ p, call e.behave e.fd (w, []) p = (w, []) := fun p ↦ by
    have hnone : w e.fd p.1 = none := by_contra fun hp ↦ h ⟨p.1, hp⟩
    rw [call]
    dsimp only
    rw [hnone]
    rfl
  rw [process]
  induction deliveries e.events e.soError with
  | nil => rfl
  | cons p ps ih => rw [List.foldl_cons, hcall, ih]

end Waits

/-- An entry that is coupled with the kernel is the one for the directions it records. -/
theorem Coupled.eq_toEntry {i : ℕ} {e : EsFile κ} {m : Option UInt32} (h : Coupled i e m) :
    e = Waits.toEntry i fun d ↦ if e.event &&& d.mask ≠ 0 then some (e.func d) else none := by
  rw [Waits.toEntry]
  rcases h with ⟨rfl, -⟩ | ⟨⟨hfd, hev, hr, hw⟩, -⟩
  · dsimp only
    rw [if_neg (by decide), if_neg (by decide)]
  · obtain ⟨fd, event, funcW, funcR⟩ := e
    dsimp only at hfd hev hr hw ⊢
    subst hfd
    rcases hev with rfl | rfl | rfl
    · obtain rfl : funcW = none := by_contra fun h ↦ absurd (hw h) (by decide)
      rw [if_neg (by decide), if_pos (by decide)]
      rfl
    · obtain rfl : funcR = none := by_contra fun h ↦ absurd (hr h) (by decide)
      rw [if_pos (by decide), if_neg (by decide)]
      rfl
    · rw [if_pos (by decide), if_pos (by decide)]
      rfl

namespace FdTable

/-- What a table says is waited for. -/
def waits (t : FdTable κ) : Waits κ := fun i d ↦
  if (t.entry i).event &&& d.mask ≠ 0 then some ((t.entry i).func d) else none

/-- The table shows what is waited for. -/
def Shows (t : FdTable κ) (w : Waits κ) : Prop := ∀ i, t.entry i = Waits.toEntry i (w i)

/-- A table that is coupled with the kernel shows what it says. -/
theorem AllCoupled.shows {t : FdTable κ} (h : t.AllCoupled) : t.Shows t.waits :=
  fun i ↦ (h i).eq_toEntry

namespace Shows

variable {t : FdTable κ} {w : Waits κ}

theorem fd_ne_iff (h : t.Shows w) (i : ℕ) : (t.entry i).fd ≠ -1 ↔ w.Waited i := by
  rw [h i, Waits.fd_toEntry_ne_iff]
  rfl

theorem waitFd (h : t.Shows w) (d : Direction) (fd : ℕ) (f : Option κ) (ok : Bool) :
    (t.waitFd d.mask fd f ok).1.Shows (w.wait d fd f) := by
  intro i
  rw [Waits.wait]
  by_cases hi : i = fd
  · subst hi
    rw [entry_waitFd_self, h, Waits.wait_toEntry, Function.update_self]
  · rw [entry_waitFd_of_ne _ hi, h, Function.update_of_ne hi]

theorem cancelEv (h : t.Shows w) (fd : ℕ) {ev : UInt32}
    (hev : ev = epollIn ∨ ev = epollOut ∨ ev = epollIn ||| epollOut) (ok : Bool) :
    (t.cancelEv fd ev ok).1.Shows (w.cancel fd ev) := by
  intro i
  rw [(t.opEffect_cancelEv fd ev ok).entry, Waits.cancel]
  by_cases hi : i = fd
  · subst hi
    rw [if_pos rfl, h, Waits.cancel_toEntry _ _ hev, Function.update_self]
  · rw [if_neg hi, h, Function.update_of_ne hi]

/-- The slot of a direction is cleared. -/
theorem store (h : t.Shows w) {fd : ℕ} (hfd : fd < t.fds.length) (d : Direction) :
    ((byIndex fd).store t ((t.entry fd).setFunc d none)).Shows (w.take fd d) := by
  intro i
  rw [Waits.take]
  by_cases hi : i = fd
  · subst hi
    rw [entry_store_byIndex hfd, h, Waits.setFunc_toEntry, Function.update_self]
  · rw [Function.update_of_ne hi, ← h i]
    show ((t.fds.set fd _)[i]?).getD {} = (t.fds[i]?).getD {}
    rw [List.getElem?_set_ne (Ne.symm hi)]

/-- **A handler** does to the table what it does to what is waited for. -/
theorem run {p : HandlerProg κ} (hp : p.Public) (h : t.Shows w) (fd : ℕ) :
    (p.run (byIndex fd) t).Shows (Waits.perform p w) ∧
      t.fds.length ≤ (p.run (byIndex fd) t).fds.length := by
  induction p generalizing t w with
  | done => exact ⟨h, Nat.le_refl _⟩
  | wait d fd' f ok k ih =>
    obtain ⟨hshows, hlen⟩ := ih hp (h.waitFd d fd' f ok)
    exact ⟨hshows, Nat.le_trans (t.length_le_length_waitFd d.mask fd' f ok) hlen⟩
  | cancel fd' ev ok k ih =>
    obtain ⟨hshows, hlen⟩ := ih hp.2 (h.cancelEv fd' hp.1 ok)
    exact ⟨hshows, Nat.le_trans (Nat.le_of_eq (t.length_cancelEv fd' ev ok).symm) hlen⟩
  | rearm d f k ih => exact absurd hp id
  | readFd k ih => exact absurd hp id

end Shows

/-- The table and the calls of an event so far, as what is waited for says; the table has not become
shorter. -/
structure Follows (n : ℕ) (s : FdTable κ × List (κ × Int)) (a : Waits κ × List (κ × Int)) :
    Prop where
  shows : s.1.Shows a.1
  calls_eq : s.2 = a.2
  length_le : n ≤ s.1.fds.length

variable {behave : ℕ → κ → Int → HandlerProg κ} {fd n : ℕ} {s : FdTable κ × List (κ × Int)}
  {a : Waits κ × List (κ × Int)}

/-- **One delivery.** -/
theorem Follows.deliver (hpub : ∀ k f event, (behave k f event).Public) (hfd : fd < n)
    (h : Follows n s a) (p : Direction × Int) :
    Follows n (deliver (byIndex fd) behave p.1 p.2 s) (Waits.call behave fd a p) := by
  obtain ⟨hshows, hcalls, hlen⟩ := h
  have hfunc : ((byIndex fd).entry s.1).func p.1 = (a.1 fd p.1).join := by
    show (s.1.entry fd).func p.1 = _
    rw [hshows, Waits.func_toEntry]
  rw [Waits.call, ← hfunc, ← hcalls]
  rcases hf : ((byIndex fd).entry s.1).func p.1 with - | f
  · rw [deliver_of_none hf]
    exact ⟨hshows, hcalls, hlen⟩
  · rw [deliver_of_some hf]
    obtain ⟨hrun, hlen'⟩ := (hshows.store (Nat.lt_of_lt_of_le hfd hlen) p.1).run
      (hpub s.2.length f p.2) fd
    exact ⟨hrun, rfl, Nat.le_trans (Nat.le_trans hlen (Nat.le_of_eq List.length_set.symm)) hlen'⟩

theorem Follows.foldl (hpub : ∀ k f event, (behave k f event).Public) (hfd : fd < n)
    (h : Follows n s a) (ps : List (Direction × Int)) :
    Follows n (ps.foldl (fun s p ↦ Nsio.deliver (byIndex fd) behave p.1 p.2 s) s)
      (ps.foldl (Waits.call behave fd) a) := by
  induction ps generalizing s a with
  | nil => exact h
  | cons p ps ih => exact ih (h.deliver hpub hfd p)

/-- **One event**, with the entry looked up at each access. -/
theorem Shows.onEvent {t : FdTable κ} {w : Waits κ} (h : t.Shows w) {e : Turn κ}
    (hpub : ∀ k f event, (e.behave k f event).Public) (hfd : e.fd < t.fds.length) :
    Follows t.fds.length (t.onEvent e.behave e.fd e.events e.soError) (w.process e) := by
  have hstart : Follows t.fds.length (t, []) (w, []) := ⟨h, rfl, Nat.le_refl _⟩
  rw [FdTable.onEvent, if_neg (Nat.not_le.2 hfd)]
  by_cases hidle : (t.entry e.fd).fd = -1
  · have hnot : ¬ w.Waited e.fd := fun hw ↦ (h.fd_ne_iff e.fd).2 hw hidle
    rw [Waits.process_of_not_waited hnot, dispatch,
      show (byIndex e.fd).entry t = t.entry e.fd from rfl, if_pos hidle]
    exact hstart
  · rw [dispatch_eq_foldl (A := byIndex e.fd) hidle]
    exact hstart.foldl hpub hfd _

end FdTable

/-! ### Through the held reference -/

namespace HandlerProg

variable {p : HandlerProg κ}

theorem Public.detached (h : p.Public) : p.Detached := by
  induction p with
  | done => trivial
  | wait d fd f ok k ih => exact ih h
  | cancel fd ev ok k ih => exact ih h.2
  | rearm d f k ih => exact absurd h id
  | readFd k ih => exact absurd h id

theorem Detached.safe (h : p.Detached) (n : ℕ) : p.Safe n := by
  induction p with
  | done => trivial
  | wait d fd f ok k ih => exact .inr h
  | cancel fd ev ok k ih => exact ih h
  | rearm d f k ih => exact absurd h id
  | readFd k ih => exact absurd h id

end HandlerProg

/-- A batch that is being processed: what is left of it, the table, and what is waited for. -/
structure Running (h : HeapTable κ) (w : Waits κ) (batch : List (Turn κ)) : Prop where
  shows : h.table.Shows w
  inside : ∀ e ∈ batch, e.fd < h.vec.items.length
  isPublic : ∀ e ∈ batch, ∀ k f event, (e.behave k f event).Public
  stays : HeapTable.AtTurns (fun h _ e ↦ h.WriterStays e) h w batch

namespace Running

variable {h : HeapTable κ} {w : Waits κ} {e : Turn κ} {batch : List (Turn κ)}

theorem careful (hrun : Running h w (e :: batch)) :
    CarefulFor e.behave h.vec.cap (h.table.entry e.fd) e.events e.soError where
  safe k f event := (hrun.isPublic e List.mem_cons_self k f event).detached.safe _
  first := hrun.stays.1

/-- The event does what it does by index. -/
theorem follows (hrun : Running h w (e :: batch)) :
    FdTable.Follows h.vec.items.length (Prod.map HeapTable.table id (h.process e))
      (w.process e) := by
  rw [show Prod.map HeapTable.table id (h.process e) =
    h.table.onEvent e.behave e.fd e.events e.soError from agrees_of_careful hrun.careful]
  exact hrun.shows.onEvent (hrun.isPublic e List.mem_cons_self) (hrun.inside e List.mem_cons_self)

theorem tail (hrun : Running h w (e :: batch)) :
    Running (h.process e).1 (w.process e).1 batch where
  shows := hrun.follows.shows
  inside x hx :=
    Nat.lt_of_lt_of_le (hrun.inside x (List.mem_cons_of_mem e hx)) hrun.follows.length_le
  isPublic x hx := hrun.isPublic x (List.mem_cons_of_mem e hx)
  stays := hrun.stays.2

/-- The entry in which the reader is looked at shows what is waited for then. -/
theorem exists_entry_afterWriter (hrun : Running h w (e :: batch))
    (herr : e.events &&& evErr = 0) (hin : e.events &&& epollIn ≠ 0) :
    ∃ row, (HeapTable.byRef (h.vec.ref e.fd)).entry
      (afterWriter (HeapTable.byRef (h.vec.ref e.fd)) e.behave e.events h) =
        Waits.toEntry e.fd row := by
  have hr : (h.vec.ref e.fd).storage = h.vec.cur := rfl
  rw [afterWriter]
  by_cases hout : e.events &&& epollOut ≠ 0
  · obtain ⟨hcur, -⟩ := hrun.careful.cur_deliver_write hr (.inr ⟨hout, hin⟩)
      (mem_deliveries_write (not_not.2 herr) hout)
    have htable := congrArg Prod.fst (hrun.careful.deliver_write hr emWrite)
    have hfollows : FdTable.Follows h.table.fds.length (h.table, []) (w, []) :=
      ⟨hrun.shows, rfl, Nat.le_refl _⟩
    have hshows := (hfollows.deliver (hrun.isPublic e List.mem_cons_self)
      (hrun.inside e List.mem_cons_self) (.write, emWrite)).shows
    rw [if_pos hout, HandlerProg.entry_byRef (hr.trans hcur.symm)]
    exact ⟨_, (congrArg (fun t : FdTable κ ↦ t.entry e.fd) htable).trans (hshows e.fd)⟩
  · rw [if_neg hout, HandlerProg.entry_byRef hr]
    exact ⟨_, hrun.shows e.fd⟩

/-- **One turn**: the assertions on `_event` hold, and what is called is armed. -/
theorem callsArmed (hrun : Running h w (e :: batch)) : h.CallsArmed w e := by
  refine ⟨fun _ _ herr ↦ ⟨fun _ hf ↦ ?_, fun hin hf ↦ ?_⟩, hrun.follows.calls_eq⟩
  · have hentry : (HeapTable.byRef (h.vec.ref e.fd)).entry h = Waits.toEntry e.fd (w e.fd) :=
      (HandlerProg.entry_byRef rfl).trans (hrun.shows e.fd)
    rw [hentry] at hf ⊢
    exact Waits.event_toEntry e.fd (w e.fd) (d := .write) hf
  · obtain ⟨row, hentry⟩ := hrun.exists_entry_afterWriter herr hin
    rw [hentry] at hf ⊢
    exact Waits.event_toEntry e.fd row (d := .read) hf

/-- `assert(false)` is not reached exactly when the descriptor is still waited for. -/
theorem fdAssert_iff (hrun : Running h w (e :: batch)) : h.FdAssert e ↔ w.Waited e.fd := by
  rw [← hrun.shows.fd_ne_iff]
  exact ⟨fun ha ↦ ha (hrun.inside e List.mem_cons_self), fun hne _ ↦ hne⟩

end Running

/-- **All turns of a batch**, from the turn of one event. -/
theorem Running.atTurns {h : HeapTable κ} {w : Waits κ} {batch : List (Turn κ)}
    (hrun : Running h w batch) :
    HeapTable.AtTurns HeapTable.CallsArmed h w batch ∧
      (HeapTable.AtTurns (fun h _ e ↦ h.FdAssert e) h w batch ↔ w.StillWaited batch) := by
  induction batch generalizing h w with
  | nil => exact ⟨trivial, Iff.rfl⟩
  | cons e batch ih =>
    obtain ⟨hcalls, hasserts⟩ := ih hrun.tail
    exact ⟨⟨hrun.callsArmed, hcalls⟩, and_congr hrun.fdAssert_iff hasserts⟩

/-- **Events of cancelled descriptors.** For every table that is coupled with the kernel, every
batch of events of registered descriptors, and all handlers that use the loop through its public
functions, where at no turn the writer moves the entries before the reader is looked at: the
assertions on `_event` hold and only armed callbacks are called, and `assert(false)` is not reached
exactly when each descriptor is still waited for when its event has its turn. -/
theorem batch_skips_cancelled (h : HeapTable κ) (hcoupled : h.table.AllCoupled)
    (batch : List (Turn κ)) (hreg : ∀ e ∈ batch, (h.interest e.fd).isSome)
    (hpub : ∀ e ∈ batch, ∀ k f event, (e.behave k f event).Public)
    (hstays : HeapTable.AtTurns (fun h _ e ↦ h.WriterStays e) h h.table.waits batch) :
    HeapTable.AtTurns HeapTable.CallsArmed h h.table.waits batch ∧
      (HeapTable.AtTurns (fun h _ e ↦ h.FdAssert e) h h.table.waits batch ↔
        h.table.waits.StillWaited batch) := by
  refine Running.atTurns ⟨hcoupled.shows, fun e he ↦ ?_, hpub, hstays⟩
  rcases hcoupled e.fd with ⟨-, hnone⟩ | ⟨hused, -⟩
  · have hsome := hreg e he
    rw [show h.interest e.fd = none from hnone] at hsome
    exact absurd hsome (by simp)
  · refine FdTable.lt_length_of_fd (t := h.table) ?_
    rw [hused.fd_eq]
    omega

/-! ### Two batches -/

namespace CancelledEvents

/-- 5 and 6 wait to be read. -/
def readers : HeapTable ℕ :=
  (HeapTable.empty.waitFd epollIn 5 (some 1) true).waitFd epollIn 6 (some 2) true

/-- Both can be read, and what the handler of 5 does is given. -/
def bothReadable (handler : HandlerProg ℕ) : List (Turn ℕ) :=
  [⟨5, epollIn, 0, fun _ _ _ ↦ handler⟩, ⟨6, epollIn, 0, fun _ _ _ ↦ .done⟩]

/-- The handler of 5 cancels 6. -/
def cancelLater : List (Turn ℕ) :=
  bothReadable (.cancel 6 (epollIn ||| epollOut) true .done)

/-- 5 waits to be read by 2 and to be written by 1. -/
def duplex : HeapTable ℕ :=
  (HeapTable.empty.waitFd epollIn 5 (some 2) true).waitFd epollOut 5 (some 1) true

/-- The writer of 5 waits for a descriptor past the capacity, and then cancels the reader of 5. -/
def growThenCancel : Turn ℕ :=
  { fd := 5
    events := epollIn ||| epollOut
    soError := 0
    behave := fun k _ _ ↦
      if k = 0 then .wait .read 256 none true (.cancel 5 epollIn true .done) else .done }

/-- 6 waits to be read, too. -/
def duplexAndReader : HeapTable ℕ := duplex.waitFd epollIn 6 (some 3) true

/-- The writer of 5 waits for 7. -/
def writerWaits : Turn ℕ :=
  ⟨5, epollIn ||| epollOut, 0, fun k _ _ ↦ if k = 0 then .wait .read 7 none true .done else .done⟩

/-- The reader of 6, which has no writer, waits for a descriptor past the capacity. -/
def readerGrows : Turn ℕ :=
  ⟨6, epollIn ||| epollOut, 0, fun _ _ _ ↦ .wait .read 300 none true .done⟩

theorem allCoupled_empty : (HeapTable.empty (κ := ℕ)).table.AllCoupled :=
  fun _ ↦ .inl ⟨rfl, rfl⟩

theorem allCoupled_readers : readers.table.AllCoupled := by
  rw [readers, HeapTable.table_waitFd, HeapTable.table_waitFd]
  exact (allCoupled_empty.waitFd (.inl rfl) 5 (some 1)).waitFd (.inl rfl) 6 (some 2)

theorem allCoupled_duplex : duplex.table.AllCoupled := by
  rw [duplex, HeapTable.table_waitFd, HeapTable.table_waitFd]
  exact (allCoupled_empty.waitFd (.inl rfl) 5 (some 2)).waitFd (.inr rfl) 5 (some 1)

theorem allCoupled_duplexAndReader : duplexAndReader.table.AllCoupled := by
  rw [duplexAndReader, HeapTable.table_waitFd]
  exact allCoupled_duplex.waitFd (.inl rfl) 6 (some 3)

theorem isPublic_bothReady :
    ∀ e ∈ [writerWaits, readerGrows], ∀ k f event, (e.behave k f event).Public := by
  refine List.forall_mem_cons.2 ⟨fun k _ _ ↦ ?_,
    List.forall_mem_cons.2 ⟨fun _ _ _ ↦ trivial, fun _ h ↦ absurd h (by simp)⟩⟩
  rw [writerWaits]
  dsimp only
  split <;> trivial

/-- The writer of 5 stays below the capacity, and for 6 no writer is called. -/
theorem writerStays_bothReady :
    HeapTable.AtTurns (fun h _ e ↦ h.WriterStays e) duplexAndReader duplexAndReader.table.waits
      [writerWaits, readerGrows] := by
  have hnone : ((duplexAndReader.process writerWaits).1.table.entry 6).funcW = none := by
    decide +kernel
  refine ⟨fun _ f _ event _ ↦ ?_, fun _ f hf ↦ ?_, trivial⟩
  · exact ⟨show 7 < 256 by decide, trivial⟩
  · rw [show readerGrows.fd = 6 from rfl, hnone] at hf
    exact absurd hf (by simp)

theorem registered_readers (handler : HandlerProg ℕ) :
    ∀ e ∈ bothReadable handler, readers.interest e.fd = some epollIn :=
  List.forall_mem_cons.2 ⟨rfl, List.forall_mem_cons.2 ⟨rfl, fun _ h ↦ absurd h (by simp)⟩⟩

theorem not_bothReported_readable (handler : HandlerProg ℕ) :
    ∀ e ∈ bothReadable handler, ¬ BothReported e.events :=
  have hin : ¬ BothReported epollIn := by
    rintro (h | ⟨h, -⟩)
    · exact h (by decide)
    · exact h (by decide)
  List.forall_mem_cons.2 ⟨hin, List.forall_mem_cons.2 ⟨hin, fun _ h ↦ absurd h (by simp)⟩⟩

theorem isPublic_bothReadable {handler : HandlerProg ℕ} (h : handler.Public) :
    ∀ e ∈ bothReadable handler, ∀ k f event, (e.behave k f event).Public :=
  List.forall_mem_cons.2 ⟨fun _ _ _ ↦ h,
    List.forall_mem_cons.2 ⟨fun _ _ _ ↦ trivial, fun _ h ↦ absurd h (by simp)⟩⟩

end CancelledEvents

open CancelledEvents

/-- Both descriptors are waited for when their events have their turns, and the reader that moves
the entries is the last to be called. -/
theorem batch_skips_cancelled_bothReady :
    HeapTable.AtTurns HeapTable.CallsArmed duplexAndReader duplexAndReader.table.waits
      [writerWaits, readerGrows] ∧
    HeapTable.AtTurns (fun h _ e ↦ h.FdAssert e) duplexAndReader duplexAndReader.table.waits
      [writerWaits, readerGrows] := by
  obtain ⟨hcalls, hasserts⟩ := batch_skips_cancelled duplexAndReader allCoupled_duplexAndReader
    [writerWaits, readerGrows] (List.forall_mem_cons.2 ⟨by decide,
      List.forall_mem_cons.2 ⟨by decide, fun _ h ↦ absurd h (by simp)⟩⟩)
    isPublic_bothReady writerStays_bothReady
  exact ⟨hcalls, hasserts.2 ⟨⟨.read, by decide⟩, ⟨.read, by decide⟩, trivial⟩⟩

/-- The handler of 5 cancels 6: `assert(false)` is reached for the event of 6. And a writer that
moves the entries cancels its reader, which is called. -/
theorem cancelled_event_asserts :
    (readers.table.AllCoupled ∧ (∀ e ∈ cancelLater, readers.interest e.fd = some epollIn) ∧
      (∀ e ∈ cancelLater, ∀ k f event, (e.behave k f event).Public) ∧
      (∀ e ∈ cancelLater, ¬ BothReported e.events) ∧
      ¬ HeapTable.AtTurns (fun h _ e ↦ h.FdAssert e) readers readers.table.waits cancelLater) ∧
    duplex.table.AllCoupled ∧ duplex.interest 5 = some (epollIn ||| epollOut) ∧
      (∀ k f event, (growThenCancel.behave k f event).Public) ∧
      (duplex.table.waits.process growThenCancel).2 = [(1, emWrite)] ∧
      (duplex.process growThenCancel).2 = [(1, emWrite), (2, emRead)] := by
  refine ⟨⟨allCoupled_readers, registered_readers _,
    isPublic_bothReadable ⟨.inr (.inr rfl), trivial⟩, not_bothReported_readable _, ?_⟩,
    allCoupled_duplex, by decide, fun k _ _ ↦ ?_, by decide, by decide +kernel⟩
  · rintro ⟨-, hassert, -⟩
    exact hassert (by decide) (by decide)
  · rw [growThenCancel]
    dsimp only
    split
    · exact ⟨.inl rfl, trivial⟩
    · trivial

end Nsio
