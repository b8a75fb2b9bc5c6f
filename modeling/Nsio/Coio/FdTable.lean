import Nsio.Foundations.Machine
import Mathlib.Logic.Function.Basic

/-!
# The descriptor table and the kernel's interest set

The model of the table `_fds` of `io_loop.h`: one `es_file` entry a descriptor, with the recorded
interest `_event` and a handler slot for each direction, next to what the kernel has registered.
Handlers are pointers; the model is generic in what they point to (`κ`).

`wait_fd` and `cancel_ev` touch one entry and make at most one `epoll_ctl` call, so each is an entry
operation (`EsFile.wait`, `EsFile.cancel`) and a table operation that performs it at an index. A
call of `epoll_ctl` is granted by the kernel or not (`ok`); a call that does not fit what is
registered, adding twice or changing what is not there, is refused in any case.

## The coupling

`Coupled` relates an entry to the kernel's interest for its index. The entry lemmas
(`Coupled.wait`, `Coupled.cancel`) are the only place where the masks are looked at; the table and
the runs get it from the frame lemmas `entry_put` and `interest_put`.
-/

namespace Nsio

/-- `io_loop::EM_READ`. -/
def emRead : Int := 1

/-- `io_loop::EM_WRITE`. -/
def emWrite : Int := 2

/-- `EPOLLIN`. -/
def epollIn : UInt32 := 1

/-- `EPOLLOUT`. -/
def epollOut : UInt32 := 4

theorem epollIn_and_self : epollIn &&& epollIn ≠ 0 := by decide

theorem epollOut_and_self : epollOut &&& epollOut ≠ 0 := by decide

/-- `es_file`, an entry of the table. -/
structure EsFile (κ : Type*) where
  /-- `_fd`, -1 when idle. -/
  fd : Int := -1
  /-- `_event`, the recorded interest. -/
  event : UInt32 := 0
  /-- `_func_w`. -/
  funcW : Option κ := none
  /-- `_func_r`. -/
  funcR : Option κ := none
  deriving DecidableEq, Repr

/-- What `epoll_ctl` is asked for. -/
inductive CtlOp
  | add
  | mod
  | del
  deriving DecidableEq, Repr

/-- A call of `epoll_ctl` for an entry's descriptor. -/
structure CtlCall where
  op : CtlOp
  mask : UInt32 := 0
  deriving DecidableEq, Repr

/-- The interest registered for a descriptor after a call, and the value the call returns. -/
def CtlCall.perform (c : CtlCall) (ok : Bool) (registered : Option UInt32) :
    Option UInt32 × Int :=
  match c.op, registered, ok with
  | .add, none, true => (some c.mask, 0)
  | .mod, some _, true => (some c.mask, 0)
  | .del, some _, true => (none, 0)
  | _, _, _ => (registered, -1)

namespace EsFile

variable {κ : Type*}

/-- What `wait_fd<type>` does to the entry of `fd`, and the call it makes. -/
def wait (type : UInt32) (fd : ℕ) (func : Option κ) (fe : EsFile κ) : EsFile κ × Option CtlCall :=
  if fe.fd = -1 then
    let fe := { fe with fd := fd, event := type }
    if type = epollIn then ({ fe with funcR := func }, some ⟨.add, type⟩)
    else if type &&& epollOut ≠ 0 then ({ fe with funcW := func }, some ⟨.add, type⟩)
    else (fe, some ⟨.add, type⟩)
  else if type &&& epollIn ≠ 0 then
    let fe := { fe with funcR := func }
    if fe.event &&& epollIn ≠ 0 then (fe, none)
    else ({ fe with event := fe.event ||| type }, some ⟨.mod, fe.event ||| type⟩)
  else
    let fe := { fe with funcW := func }
    if fe.event &&& epollOut ≠ 0 then (fe, none)
    else ({ fe with event := fe.event ||| type }, some ⟨.mod, fe.event ||| type⟩)

/-- What `cancel_ev` does to an entry, and the call it makes. -/
def cancel (ev : UInt32) (fe : EsFile κ) : EsFile κ × Option CtlCall :=
  if fe.fd = -1 then (fe, none)
  else
    let fe := { fe with event := fe.event &&& ~~~ev }
    if fe.event &&& epollIn ≠ 0 then ({ fe with funcW := none }, some ⟨.mod, fe.event⟩)
    else if fe.event &&& epollOut ≠ 0 then ({ fe with funcR := none }, some ⟨.mod, fe.event⟩)
    else ({ fd := -1, event := 0, funcW := none, funcR := none }, some ⟨.del, 0⟩)

end EsFile

/-- A direction of a descriptor. -/
inductive Direction
  | read
  | write
  deriving DecidableEq, Repr

/-- The interest a direction stands for. -/
def Direction.mask : Direction → UInt32
  | .read => epollIn
  | .write => epollOut

namespace EsFile

variable {κ : Type*}

/-- The handler slot of a direction. -/
def func (e : EsFile κ) : Direction → Option κ
  | .read => e.funcR
  | .write => e.funcW

/-- Store a handler, or none, in the slot of a direction. -/
def setFunc (e : EsFile κ) (d : Direction) (f : Option κ) : EsFile κ :=
  match d with
  | .read => { e with funcR := f }
  | .write => { e with funcW := f }

end EsFile

/-! ### The handler slots of an entry -/

namespace EsFile

variable {κ : Type*}

@[simp] theorem func_setFunc_self (fe : EsFile κ) (d : Direction) (f : Option κ) :
    (fe.setFunc d f).func d = f := by
  cases d <;> rfl

theorem func_setFunc_of_ne (fe : EsFile κ) {d d' : Direction} (hd : d ≠ d') (f : Option κ) :
    (fe.setFunc d' f).func d = fe.func d := by
  cases d <;> cases d' <;> first | rfl | exact absurd rfl hd

/-- A wait stores its handler in the slot of its direction and leaves the other slot. -/
theorem func_wait (e : EsFile κ) (d : Direction) (i : ℕ) (f : Option κ) :
    (e.wait d.mask i f).1.func = (e.setFunc d f).func := by
  funext d'
  by_cases he : e.fd = -1
  · rw [wait, if_pos he]
    cases d with
    | read => cases d' <;> rfl
    | write => cases d' <;> rfl
  · rw [wait, if_neg he]
    cases d with
    | read =>
      rw [show Direction.read.mask = epollIn from rfl, if_pos epollIn_and_self]
      dsimp only
      split <;> cases d' <;> rfl
    | write =>
      rw [show Direction.write.mask = epollOut from rfl, if_neg (by decide)]
      dsimp only
      split <;> cases d' <;> rfl

/-- A cancellation stores no handler. -/
theorem func_of_func_cancel {e : EsFile κ} {ev : UInt32} {d : Direction} {f : κ}
    (h : (e.cancel ev).1.func d = some f) : e.func d = some f := by
  rw [cancel] at h
  split at h
  · exact h
  · dsimp only at h
    split at h
    · cases d with
      | read => exact h
      | write => exact absurd h (by simp [func])
    · split at h
      · cases d with
        | read => exact absurd h (by simp [func])
        | write => exact h
      · cases d <;> exact absurd h (by simp [func])

end EsFile

/-- The table and the interest the kernel has registered for each descriptor. -/
structure FdTable (κ : Type*) where
  /-- `_fds`. -/
  fds : List (EsFile κ) := []
  /-- The kernel's interest mask, if the descriptor is registered. -/
  interest : ℕ → Option UInt32 := fun _ ↦ none

namespace FdTable

variable {κ : Type*}

/-- The entry at an index; past the end, the entry `resize` would put there. -/
def entry (t : FdTable κ) (fd : ℕ) : EsFile κ := (t.fds[fd]?).getD {}

/-- `_fds.resize(fd + 1)`, if the table is not that long yet. -/
def resize (t : FdTable κ) (fd : ℕ) : FdTable κ :=
  { t with fds := t.fds ++ List.replicate (fd + 1 - t.fds.length) {} }

/-- Store an entry and make its call. The value is the call's, or 0 without one. -/
def put (t : FdTable κ) (fd : ℕ) (fe : EsFile κ × Option CtlCall) (ok : Bool) : FdTable κ × Int :=
  let out := match fe.2 with
    | some c => c.perform ok (t.interest fd)
    | none => (t.interest fd, 0)
  ({ fds := t.fds.set fd fe.1, interest := Function.update t.interest fd out.1 }, out.2)

/-- `wait_fd<type>`. On the path of `EPOLL_CTL_MOD` the source returns 0 whatever the call said. -/
def waitFd (type : UInt32) (t : FdTable κ) (fd : ℕ) (func : Option κ) (ok : Bool) :
    FdTable κ × Int :=
  let t := t.resize fd
  let out := t.put fd ((t.entry fd).wait type fd func) ok
  if (t.entry fd).fd = -1 then out else (out.1, 0)

/-- `cancel_ev`. -/
def cancelEv (t : FdTable κ) (fd : ℕ) (ev : UInt32) (ok : Bool) : FdTable κ × Int :=
  if t.fds.length ≤ fd then (t, -1) else t.put fd ((t.entry fd).cancel ev) ok

/-- `wait_read`. -/
def waitRead (t : FdTable κ) (fd : ℕ) (f : Option κ) (ok : Bool) : FdTable κ :=
  (t.waitFd epollIn fd f ok).1

/-- `wait_write`. -/
def waitWrite (t : FdTable κ) (fd : ℕ) (f : Option κ) (ok : Bool) : FdTable κ :=
  (t.waitFd epollOut fd f ok).1

/-- `cancel_read`. -/
def cancelRead (t : FdTable κ) (fd : ℕ) (ok : Bool) : FdTable κ := (t.cancelEv fd epollIn ok).1

/-- `cancel_write`. -/
def cancelWrite (t : FdTable κ) (fd : ℕ) (ok : Bool) : FdTable κ := (t.cancelEv fd epollOut ok).1

/-- `cancel_fdall`. -/
def cancelFdall (t : FdTable κ) (fd : ℕ) (ok : Bool) : FdTable κ :=
  (t.cancelEv fd (epollIn ||| epollOut) ok).1

end FdTable

/-! ### The coupling of an entry with the kernel -/

/-- An entry that is in use for the descriptor `i`. -/
structure EsFile.Registered {κ : Type*} (e : EsFile κ) (i : ℕ) : Prop where
  fd_eq : e.fd = i
  event_eq : e.event = epollIn ∨ e.event = epollOut ∨ e.event = epollIn ||| epollOut
  funcR_event : e.funcR ≠ none → e.event &&& epollIn ≠ 0
  funcW_event : e.funcW ≠ none → e.event &&& epollOut ≠ 0

/-- **The coupling**: an idle entry without interest, or one in use whose recorded interest is the
kernel's. -/
def Coupled {κ : Type*} (i : ℕ) (e : EsFile κ) (registered : Option UInt32) : Prop :=
  e = {} ∧ registered = none ∨ e.Registered i ∧ registered = some e.event

namespace Coupled

variable {κ : Type*} {i : ℕ} {e : EsFile κ} {m : Option UInt32}

/-- The interest after an entry operation whose call, if any, the kernel grants. -/
def after (m : Option UInt32) (call : Option CtlCall) : Option UInt32 :=
  match call with
  | some c => (c.perform true m).1
  | none => m

/-- The entry of a registered descriptor, with its fields in view. -/
theorem of_registered {i : ℕ} {v : UInt32} {funcW funcR : Option κ}
    (hv : v = epollIn ∨ v = epollOut ∨ v = epollIn ||| epollOut)
    (hr : funcR ≠ none → v &&& epollIn ≠ 0) (hw : funcW ≠ none → v &&& epollOut ≠ 0) :
    Coupled i ⟨i, v, funcW, funcR⟩ (some v) :=
  .inr ⟨⟨rfl, hv, hr, hw⟩, rfl⟩

theorem wait (h : Coupled i e m) {type : UInt32} (htype : type = epollIn ∨ type = epollOut)
    (func : Option κ) : Coupled i (e.wait type i func).1 (after m (e.wait type i func).2) := by
  obtain ⟨fd, event, funcW, funcR⟩ := e
  rcases h with ⟨he, rfl⟩ | ⟨⟨hfd, hev, hr, hw⟩, rfl⟩
  · obtain ⟨rfl, rfl, rfl, rfl⟩ := EsFile.mk.inj he
    rcases htype with rfl | rfl
    · exact of_registered (.inl rfl) (fun _ ↦ epollIn_and_self) fun h ↦ absurd rfl h
    · exact of_registered (.inr (.inl rfl)) (fun h ↦ absurd rfl h) fun _ ↦ epollOut_and_self
  · obtain rfl : fd = i := hfd
    have hne : (i : Int) ≠ -1 := by omega
    dsimp only at hev hr hw
    -- a direction that is registered gets a new handler only, the other is added to the mask
    rcases htype with rfl | rfl
    · rw [EsFile.wait, if_neg hne, if_pos epollIn_and_self]
      by_cases hin : event &&& epollIn ≠ 0
      · rw [if_pos hin]
        exact of_registered hev (fun _ ↦ hin) hw
      · obtain rfl : event = epollOut := by
          rcases hev with rfl | rfl | rfl
          · exact absurd epollIn_and_self hin
          · rfl
          · exact absurd (by decide) hin
        rw [if_neg hin]
        exact of_registered (v := epollOut ||| epollIn) (by decide) (fun _ ↦ by decide)
          fun _ ↦ by decide
    · rw [EsFile.wait, if_neg hne, if_neg (by decide)]
      by_cases hout : event &&& epollOut ≠ 0
      · rw [if_pos hout]
        exact of_registered hev hr fun _ ↦ hout
      · obtain rfl : event = epollIn := by
          rcases hev with rfl | rfl | rfl
          · rfl
          · exact absurd epollOut_and_self hout
          · exact absurd (by decide) hout
        rw [if_neg hout]
        exact of_registered (v := epollIn ||| epollOut) (by decide) (fun _ ↦ by decide)
          fun _ ↦ by decide

/-- What is left of an interest after a cancellation. -/
theorem masks_left {event ev : UInt32}
    (hev : event = epollIn ∨ event = epollOut ∨ event = epollIn ||| epollOut)
    (hev' : ev = epollIn ∨ ev = epollOut ∨ ev = epollIn ||| epollOut) :
    event &&& ~~~ev = epollIn ∨ event &&& ~~~ev = epollOut ∨ event &&& ~~~ev = 0 := by
  rcases hev with rfl | rfl | rfl <;> rcases hev' with rfl | rfl | rfl <;> decide

theorem cancel (h : Coupled i e m) {ev : UInt32}
    (hev' : ev = epollIn ∨ ev = epollOut ∨ ev = epollIn ||| epollOut) :
    Coupled i (e.cancel ev).1 (after m (e.cancel ev).2) := by
  obtain ⟨fd, event, funcW, funcR⟩ := e
  rcases h with ⟨he, rfl⟩ | ⟨⟨hfd, hev, -, -⟩, rfl⟩
  · obtain ⟨rfl, rfl, rfl, rfl⟩ := EsFile.mk.inj he
    exact .inl ⟨rfl, rfl⟩
  · obtain rfl : fd = i := hfd
    have hne : (i : Int) ≠ -1 := by omega
    rw [EsFile.cancel, if_neg hne]
    dsimp only
    rcases masks_left hev hev' with hleft | hleft | hleft <;> rw [hleft]
    · rw [if_pos epollIn_and_self]
      exact of_registered (.inl rfl) (fun _ ↦ epollIn_and_self) fun h ↦ absurd rfl h
    · rw [if_neg (by decide), if_pos epollOut_and_self]
      exact of_registered (.inr (.inl rfl)) (fun h ↦ absurd rfl h) fun _ ↦ epollOut_and_self
    · rw [if_neg (by decide), if_neg (by decide)]
      exact .inl ⟨rfl, rfl⟩

/-- The interest in writing, and the writer, survive the cancellation of reading. -/
theorem cancel_in_keeps (h : Coupled i e m) :
    (e.cancel epollIn).1.funcW = e.funcW ∧
      (after m (e.cancel epollIn).2).getD 0 &&& epollOut = m.getD 0 &&& epollOut := by
  obtain ⟨fd, event, funcW, funcR⟩ := e
  rcases h with ⟨he, rfl⟩ | ⟨⟨hfd, hev, -, hw⟩, rfl⟩
  · obtain ⟨rfl, rfl, rfl, rfl⟩ := EsFile.mk.inj he
    exact ⟨rfl, rfl⟩
  · obtain rfl : fd = i := hfd
    have hne : (i : Int) ≠ -1 := by omega
    dsimp only at hev hw
    rw [EsFile.cancel, if_neg hne]
    dsimp only
    rcases hev with rfl | rfl | rfl
    -- reading was all: the entry goes idle, and there was no writer
    · have hnone : funcW = none := by
        by_contra hsome
        exact absurd (hw hsome) (by decide)
      rw [if_neg (by decide), if_neg (by decide), hnone]
      exact ⟨rfl, by dsimp only; decide⟩
    · rw [if_neg (by decide), if_pos (by decide)]
      exact ⟨rfl, by dsimp only; decide⟩
    · rw [if_neg (by decide), if_pos (by decide)]
      exact ⟨rfl, by dsimp only; decide⟩

/-- The interest in reading, and the reader, survive the cancellation of writing. -/
theorem cancel_out_keeps (h : Coupled i e m) :
    (e.cancel epollOut).1.funcR = e.funcR ∧
      (after m (e.cancel epollOut).2).getD 0 &&& epollIn = m.getD 0 &&& epollIn := by
  obtain ⟨fd, event, funcW, funcR⟩ := e
  rcases h with ⟨he, rfl⟩ | ⟨⟨hfd, hev, hr, -⟩, rfl⟩
  · obtain ⟨rfl, rfl, rfl, rfl⟩ := EsFile.mk.inj he
    exact ⟨rfl, rfl⟩
  · obtain rfl : fd = i := hfd
    have hne : (i : Int) ≠ -1 := by omega
    dsimp only at hev hr
    rw [EsFile.cancel, if_neg hne]
    dsimp only
    rcases hev with rfl | rfl | rfl
    · rw [if_pos (by decide)]
      exact ⟨rfl, by dsimp only; decide⟩
    · have hnone : funcR = none := by
        by_contra hsome
        exact absurd (hr hsome) (by decide)
      rw [if_neg (by decide), if_neg (by decide), hnone]
      exact ⟨rfl, by dsimp only; decide⟩
    · rw [if_pos (by decide)]
      exact ⟨rfl, by dsimp only; decide⟩

/-- The cancellation of a direction empties its slot. -/
theorem func_cancel_self (h : Coupled i e m) (d : Direction) :
    (e.cancel d.mask).1.func d = none := by
  obtain ⟨fd, event, funcW, funcR⟩ := e
  rcases h with ⟨he, rfl⟩ | ⟨⟨hfd, hev, -, -⟩, rfl⟩
  · obtain ⟨rfl, rfl, rfl, rfl⟩ := EsFile.mk.inj he
    cases d <;> rfl
  · obtain rfl : fd = i := hfd
    have hne : (i : Int) ≠ -1 := by omega
    dsimp only at hev
    rw [EsFile.cancel, if_neg hne]
    dsimp only
    -- what remains of the registered mask decides which slot is cleared
    cases d with
    | read =>
      rcases hev with rfl | rfl | rfl
      · rw [if_neg (by decide), if_neg (by decide)]
        rfl
      · rw [if_neg (by decide), if_pos (by decide)]
        rfl
      · rw [if_neg (by decide), if_pos (by decide)]
        rfl
    | write =>
      rcases hev with rfl | rfl | rfl
      · rw [if_pos (by decide)]
        rfl
      · rw [if_neg (by decide), if_neg (by decide)]
        rfl
      · rw [if_pos (by decide)]
        rfl

/-- A handler slot may be written while its direction is registered, and cleared at any time. -/
theorem setFunc (h : Coupled i e m) {d : Direction} {f : Option κ}
    (hf : f ≠ none → e.event &&& d.mask ≠ 0) (hfd : e.fd ≠ -1) : Coupled i (e.setFunc d f) m := by
  rcases h with ⟨rfl, -⟩ | ⟨⟨hi, hev, hr, hw⟩, rfl⟩
  · exact absurd rfl hfd
  · cases d with
    | read => exact .inr ⟨⟨hi, hev, hf, hw⟩, rfl⟩
    | write => exact .inr ⟨⟨hi, hev, hr, hf⟩, rfl⟩

/-- A handler in a slot says that its direction is registered. -/
theorem event_of_func (h : Coupled i e m) {d : Direction} {f : κ} (hf : e.func d = some f) :
    e.event &&& d.mask ≠ 0 := by
  rcases h with ⟨rfl, -⟩ | ⟨⟨-, -, hr, hw⟩, -⟩
  · cases d <;> exact absurd hf (by simp [EsFile.func])
  · cases d with
    | read => exact hr (by rw [show e.funcR = some f from hf]; simp)
    | write => exact hw (by rw [show e.funcW = some f from hf]; simp)

end Coupled

/-! ### The table operations -/

namespace FdTable

variable {κ : Type*} (t : FdTable κ)

@[simp] theorem entry_resize (fd j : ℕ) : (t.resize fd).entry j = t.entry j := by
  rw [entry, entry, resize]
  dsimp only
  rcases Nat.lt_or_ge j t.fds.length with hj | hj
  · rw [List.getElem?_append_left hj]
  · rw [List.getElem?_append_right hj, List.getElem?_eq_none hj]
    rcases h : (List.replicate (fd + 1 - t.fds.length) ({} : EsFile κ))[j - t.fds.length]?
      with - | e
    · rfl
    · exact List.eq_of_mem_replicate (List.mem_of_getElem? h)

/-- A fresh table holds no handler. -/
theorem func_entry_empty {κ : Type*} (i : ℕ) (d : Direction) :
    (({} : FdTable κ).entry i).func d = none := by
  cases d <;> rfl

theorem lt_length_resize (fd : ℕ) : fd < (t.resize fd).fds.length := by
  simp only [resize, List.length_append, List.length_replicate]
  omega

theorem entry_of_getElem? {t : FdTable κ} {i : ℕ} {e : EsFile κ} (h : t.fds[i]? = some e) :
    t.entry i = e := by
  rw [entry, h]
  rfl

theorem lt_length_of_fd {t : FdTable κ} {i : ℕ} (h : (t.entry i).fd ≠ -1) : i < t.fds.length := by
  by_contra hge
  rw [entry, List.getElem?_eq_none (Nat.not_lt.1 hge)] at h
  exact h rfl

/-- **The frame of an entry operation**: it stores at its index, and nowhere else. -/
theorem entry_put {fd : ℕ} (h : fd < t.fds.length) (fe : EsFile κ × Option CtlCall) (ok : Bool)
    (j : ℕ) : (t.put fd fe ok).1.entry j = if j = fd then fe.1 else t.entry j := by
  rw [put, entry, entry]
  by_cases hj : j = fd
  · rw [if_pos hj, hj, List.getElem?_set_self h]
    rfl
  · rw [if_neg hj, List.getElem?_set_ne (Ne.symm hj)]

/-- A granted call changes the interest at its index, and nowhere else. -/
theorem interest_put (fd : ℕ) (fe : EsFile κ × Option CtlCall) (j : ℕ) :
    (t.put fd fe true).1.interest j =
      if j = fd then Coupled.after (t.interest fd) fe.2 else t.interest j := by
  show Function.update _ _ _ j = _
  rw [Function.update_apply]
  rcases fe with ⟨e, - | c⟩ <;> rfl

/-- Every entry is coupled with the kernel; past the end there is nothing registered. -/
def AllCoupled : Prop := ∀ i, Coupled i (t.entry i) (t.interest i)

variable {t}

theorem AllCoupled.put (h : t.AllCoupled) {fd : ℕ} (hfd : fd < t.fds.length)
    {fe : EsFile κ × Option CtlCall} (hfe : Coupled fd fe.1 (Coupled.after (t.interest fd) fe.2)) :
    (t.put fd fe true).1.AllCoupled := by
  intro j
  rw [entry_put t hfd, interest_put]
  by_cases hj : j = fd
  · rw [if_pos hj, if_pos hj, hj]
    exact hfe
  · rw [if_neg hj, if_neg hj]
    exact h j

theorem AllCoupled.waitFd (h : t.AllCoupled) {type : UInt32}
    (htype : type = epollIn ∨ type = epollOut) (fd : ℕ) (func : Option κ) :
    (t.waitFd type fd func true).1.AllCoupled := by
  have hresize : (t.resize fd).AllCoupled := fun j ↦ by rw [entry_resize]; exact h j
  have hput := hresize.put (t.lt_length_resize fd) ((hresize fd).wait htype func)
  rw [FdTable.waitFd]
  split
  · exact hput
  · exact hput

theorem AllCoupled.cancelEv (h : t.AllCoupled) {ev : UInt32}
    (hev : ev = epollIn ∨ ev = epollOut ∨ ev = epollIn ||| epollOut) (fd : ℕ) :
    (t.cancelEv fd ev true).1.AllCoupled := by
  rw [FdTable.cancelEv]
  split
  · exact h
  · exact h.put (Nat.not_le.1 ‹_›) ((h fd).cancel hev)

/-- A wait leaves every other entry as it is. -/
theorem entry_waitFd_of_ne (type : UInt32) {fd j : ℕ} (hj : j ≠ fd) (func : Option κ) (ok : Bool) :
    (t.waitFd type fd func ok).1.entry j = t.entry j := by
  have hput := (t.resize fd).entry_put (t.lt_length_resize fd)
    (((t.resize fd).entry fd).wait type fd func) ok j
  rw [if_neg hj, t.entry_resize fd j] at hput
  rw [FdTable.waitFd]
  split
  · exact hput
  · exact hput

theorem entry_waitFd_self (type : UInt32) (fd : ℕ) (func : Option κ) (ok : Bool) :
    (t.waitFd type fd func ok).1.entry fd = ((t.entry fd).wait type fd func).1 := by
  have hput := (t.resize fd).entry_put (t.lt_length_resize fd)
    (((t.resize fd).entry fd).wait type fd func) ok fd
  rw [if_pos rfl, t.entry_resize fd fd] at hput
  rw [FdTable.waitFd, t.entry_resize fd fd]
  split
  · exact hput
  · exact hput

/-- **What a wait arms**: its own handler, in the slot of its direction. -/
theorem func_waitFd {d d' : Direction} {fd j : ℕ} {f g : κ} {ok : Bool}
    (h : ((t.waitFd d.mask fd (some f) ok).1.entry j).func d' = some g) :
    (t.entry j).func d' = some g ∨ g = f ∧ j = fd ∧ d' = d := by
  by_cases hj : j = fd
  · subst hj
    rw [entry_waitFd_self, EsFile.func_wait] at h
    by_cases hd : d' = d
    · subst hd
      rw [EsFile.func_setFunc_self] at h
      exact .inr ⟨(Option.some.inj h).symm, rfl, rfl⟩
    · rw [EsFile.func_setFunc_of_ne _ hd] at h
      exact .inl h
  · rw [entry_waitFd_of_ne d.mask hj] at h
    exact .inl h

/-- A wait leaves every other slot as it is. -/
theorem func_waitFd_of_ne {d d' : Direction} {fd j : ℕ} (hne : ¬ (j = fd ∧ d' = d))
    (f : Option κ) (ok : Bool) :
    ((t.waitFd d.mask fd f ok).1.entry j).func d' = (t.entry j).func d' := by
  by_cases hj : j = fd
  · subst hj
    rw [entry_waitFd_self, EsFile.func_wait, EsFile.func_setFunc_of_ne _ fun hd ↦ hne ⟨rfl, hd⟩]
  · rw [entry_waitFd_of_ne d.mask hj]

/-- The table never gets shorter. -/
theorem length_le_length_waitFd (t : FdTable κ) (type : UInt32) (fd : ℕ) (func : Option κ)
    (ok : Bool) : t.fds.length ≤ (t.waitFd type fd func ok).1.fds.length := by
  have hput : t.fds.length ≤
      ((t.resize fd).put fd (((t.resize fd).entry fd).wait type fd func) ok).1.fds.length := by
    simp only [put, resize, List.length_set, List.length_append]
    exact Nat.le_add_right _ _
  rw [FdTable.waitFd]
  split
  · exact hput
  · exact hput

theorem length_cancelEv (t : FdTable κ) (fd : ℕ) (ev : UInt32) (ok : Bool) :
    (t.cancelEv fd ev ok).1.fds.length = t.fds.length := by
  rw [FdTable.cancelEv]
  split
  · rfl
  · exact List.length_set

/-- A cancellation leaves every other entry as it is. -/
theorem entry_cancelEv_of_ne {fd j : ℕ} (hj : j ≠ fd) (ev : UInt32) (ok : Bool) :
    (t.cancelEv fd ev ok).1.entry j = t.entry j := by
  rw [FdTable.cancelEv]
  split
  · rfl
  · rw [entry_put t (Nat.not_le.1 ‹_›), if_neg hj]

/-- The slot of a cancelled descriptor. -/
theorem slot_cancelEv (fd : ℕ) (ev : UInt32) :
    (t.cancelEv fd ev true).1.entry fd = ((t.entry fd).cancel ev).1 ∧
      (t.cancelEv fd ev true).1.interest fd =
        Coupled.after (t.interest fd) ((t.entry fd).cancel ev).2 := by
  rw [cancelEv]
  split
  · have hidle : t.entry fd = {} := by rw [entry, List.getElem?_eq_none ‹_›]; rfl
    have hcancel : (t.entry fd).cancel ev = ({}, none) := by rw [hidle]; rfl
    rw [hcancel]
    exact ⟨hidle, rfl⟩
  · rw [entry_put t (Nat.not_le.1 ‹_›), interest_put, if_pos rfl, if_pos rfl]
    exact ⟨rfl, rfl⟩

/-- A cancellation arms nothing. -/
theorem func_cancelEv {d : Direction} {fd j : ℕ} {ev : UInt32} {f : κ}
    (h : ((t.cancelEv fd ev true).1.entry j).func d = some f) : (t.entry j).func d = some f := by
  by_cases hj : j = fd
  · subst hj
    rw [(slot_cancelEv j ev).1] at h
    exact EsFile.func_of_func_cancel h
  · rwa [entry_cancelEv_of_ne hj] at h

/-- A cancellation empties the slot of its direction. -/
theorem AllCoupled.func_cancelEv_self (h : t.AllCoupled) (fd : ℕ) (d : Direction) :
    ((t.cancelEv fd d.mask true).1.entry fd).func d = none := by
  rw [(slot_cancelEv fd d.mask).1]
  exact (h fd).func_cancel_self d

/-- A cancellation leaves every other slot as it is. -/
theorem AllCoupled.func_cancelEv_of_ne (h : t.AllCoupled) {d d' : Direction} {fd j : ℕ}
    (hne : ¬ (j = fd ∧ d' = d)) :
    ((t.cancelEv fd d.mask true).1.entry j).func d' = (t.entry j).func d' := by
  by_cases hj : j = fd
  · subst hj
    rw [(slot_cancelEv j d.mask).1]
    cases d with
    | read =>
      cases d' with
      | read => exact absurd ⟨rfl, rfl⟩ hne
      | write => exact (h j).cancel_in_keeps.1
    | write =>
      cases d' with
      | read => exact (h j).cancel_out_keeps.1
      | write => exact absurd ⟨rfl, rfl⟩ hne
  · rw [entry_cancelEv_of_ne hj]

/-- The slots after one of them is written. -/
theorem func_put_setFunc {fd i : ℕ} {d d' : Direction} {f : Option κ} (hfd : fd < t.fds.length) :
    ((t.put fd ((t.entry fd).setFunc d f, none) true).1.entry i).func d' =
      if i = fd ∧ d' = d then f else (t.entry i).func d' := by
  rw [entry_put t hfd]
  by_cases hi : i = fd
  · subst hi
    rw [if_pos rfl]
    by_cases hd : d' = d
    · subst hd
      rw [EsFile.func_setFunc_self, if_pos ⟨rfl, rfl⟩]
    · rw [EsFile.func_setFunc_of_ne _ hd, if_neg fun h ↦ hd h.2]
  · rw [if_neg hi, if_neg fun h ↦ hi h.1]

end FdTable

/-! ### Runs of the loop on its table -/

/-- The table and, while a handler is in its loop of socket calls, the entry and the direction it
was called for. -/
structure FdLoop (κ : Type*) where
  table : FdTable κ
  /-- The handler that has been called and has neither armed itself again nor gone on. -/
  handler : Option (ℕ × Direction × κ) := none

/-- What can happen to the table. Every use of `epoll_ctl` carries whether the kernel grants it. -/
inductive FdAction (κ : Type*)
  | waitRead (fd : ℕ) (f : Option κ) (ok : Bool)
  | waitWrite (fd : ℕ) (f : Option κ) (ok : Bool)
  | cancelRead (fd : ℕ) (ok : Bool)
  | cancelWrite (fd : ℕ) (ok : Bool)
  | cancelFdall (fd : ℕ) (ok : Bool)
  /-- `run` clears the slot of an entry and calls the handler. -/
  | dispatch (fd : ℕ) (d : Direction)
  /-- The called handler meets `EAGAIN` and writes itself back into its slot. -/
  | rearm
  /-- The called handler goes on: it resumes its coroutine, and its loop of calls is over. -/
  | leave

namespace FdLoop

variable {κ : Type*}

/-- An operation of the table, while no handler is in its loop of calls. -/
def operate (s : FdLoop κ) (t : FdTable κ) : Option (FdLoop κ) :=
  match s.handler with
  | none => some { table := t }
  | some _ => none

/-- One step. -/
def step (s : FdLoop κ) : FdAction κ → Option (FdLoop κ)
  | .waitRead fd f ok => s.operate (s.table.waitRead fd f ok)
  | .waitWrite fd f ok => s.operate (s.table.waitWrite fd f ok)
  | .cancelRead fd ok => s.operate (s.table.cancelRead fd ok)
  | .cancelWrite fd ok => s.operate (s.table.cancelWrite fd ok)
  | .cancelFdall fd ok => s.operate (s.table.cancelFdall fd ok)
  | .dispatch fd d =>
    match s.handler, (s.table.entry fd).func d with
    | none, some f =>
      if fd < s.table.fds.length ∧ (s.table.entry fd).fd ≠ -1 then
        some
          { table := (s.table.put fd ((s.table.entry fd).setFunc d none, none) true).1
            handler := some (fd, d, f) }
      else none
    | _, _ => none
  | .rearm => s.handler.map fun h ↦
    { table := (s.table.put h.1 ((s.table.entry h.1).setFunc h.2.1 (some h.2.2), none) true).1 }
  | .leave => s.handler.map fun _ ↦ { table := s.table }

/-- The runs of a fresh loop: the constructor waits for its own event descriptor. -/
def machine (eventFd : ℕ) (self : κ) : Machine (FdLoop κ) (FdAction κ) where
  init := { table := ({} : FdTable κ).waitRead eventFd (some self) true }
  step := step

end FdLoop

/-- The `epoll_ctl` call of the action, if it makes one, is granted. -/
def FdAction.Granted {κ : Type*} : FdAction κ → Prop
  | .waitRead _ _ ok | .waitWrite _ _ ok | .cancelRead _ ok | .cancelWrite _ ok
  | .cancelFdall _ ok => ok = true
  | .dispatch _ _ | .rearm | .leave => True

/-- The assertion of `run` at a delivery: the delivered direction is in the recorded interest. -/
def FdLoop.AssertHolds {κ : Type*} (s : FdLoop κ) : FdAction κ → Prop
  | .dispatch fd d => (s.table.entry fd).event &&& d.mask ≠ 0
  | _ => True

/-- A table every entry of which is coupled with the kernel, and in which cancelling one direction
leaves the handler and the interest of the other. -/
structure FdTable.Sound {κ : Type*} (t : FdTable κ) : Prop where
  coupled : ∀ i e, t.fds[i]? = some e → Coupled i e (t.interest i)
  cancelRead_keeps : ∀ fd, ((t.cancelRead fd true).entry fd).funcW = (t.entry fd).funcW ∧
    ((t.cancelRead fd true).interest fd).getD 0 &&& epollOut = (t.interest fd).getD 0 &&& epollOut
  cancelWrite_keeps : ∀ fd, ((t.cancelWrite fd true).entry fd).funcR = (t.entry fd).funcR ∧
    ((t.cancelWrite fd true).interest fd).getD 0 &&& epollIn = (t.interest fd).getD 0 &&& epollIn

theorem FdTable.AllCoupled.sound {κ : Type*} {t : FdTable κ} (h : t.AllCoupled) : t.Sound where
  coupled i e he := by
    have := h i
    rwa [entry_of_getElem? he] at this
  cancelRead_keeps fd := by
    obtain ⟨he, hm⟩ := slot_cancelEv (t := t) fd epollIn
    rw [cancelRead, he, hm]
    exact (h fd).cancel_in_keeps
  cancelWrite_keeps fd := by
    obtain ⟨he, hm⟩ := slot_cancelEv (t := t) fd epollOut
    rw [cancelWrite, he, hm]
    exact (h fd).cancel_out_keeps

/-- **The invariant of a run**: everything is coupled, and a called handler's direction is still
registered. -/
structure FdLoop.Inv {κ : Type*} (s : FdLoop κ) : Prop where
  coupled : s.table.AllCoupled
  handler : ∀ fd d f, s.handler = some (fd, d, f) → fd < s.table.fds.length ∧
    (s.table.entry fd).fd ≠ -1 ∧ (s.table.entry fd).event &&& d.mask ≠ 0

namespace FdLoop

variable {κ : Type*} {s u : FdLoop κ}

theorem Inv.operate {t : FdTable κ} (ht : t.AllCoupled) (hu : s.operate t = some u) : u.Inv := by
  rw [FdLoop.operate] at hu
  split at hu
  · obtain rfl := Option.some.inj hu
    exact ⟨ht, fun _ _ _ h ↦ absurd h (by simp)⟩
  · exact absurd hu (by simp)

theorem inv_init (eventFd : ℕ) (self : κ) : (machine eventFd self).init.Inv where
  coupled := by
    have hempty : ({} : FdTable κ).AllCoupled := fun i ↦ .inl ⟨rfl, rfl⟩
    exact hempty.waitFd (.inl rfl) eventFd (some self)
  handler := fun _ _ _ h ↦ absurd h (by simp [machine])

theorem inv_step {a : FdAction κ} (hu : s.step a = some u) (ha : a.Granted) (hs : s.Inv) :
    u.Inv := by
  cases a with
  | waitRead fd f ok =>
    obtain rfl : ok = true := ha
    exact .operate (hs.coupled.waitFd (.inl rfl) fd f) hu
  | waitWrite fd f ok =>
    obtain rfl : ok = true := ha
    exact .operate (hs.coupled.waitFd (.inr rfl) fd f) hu
  | cancelRead fd ok =>
    obtain rfl : ok = true := ha
    exact .operate (hs.coupled.cancelEv (.inl rfl) fd) hu
  | cancelWrite fd ok =>
    obtain rfl : ok = true := ha
    exact .operate (hs.coupled.cancelEv (.inr (.inl rfl)) fd) hu
  | cancelFdall fd ok =>
    obtain rfl : ok = true := ha
    exact .operate (hs.coupled.cancelEv (.inr (.inr rfl)) fd) hu
  | dispatch fd d =>
    rw [step] at hu
    split at hu
    · rename_i f _ hf
      split at hu
      · rename_i hin
        obtain rfl := Option.some.inj hu
        -- the slot is emptied before its handler runs
        have hslot := (hs.coupled fd).setFunc (d := d) (f := none) (fun h ↦ absurd rfl h) hin.2
        have hentry := s.table.entry_put hin.1 ((s.table.entry fd).setFunc d none, none) true fd
        rw [if_pos rfl] at hentry
        refine ⟨hs.coupled.put hin.1 hslot, fun fd' d' f' h ↦ ?_⟩
        obtain ⟨rfl, rfl, rfl⟩ : fd = fd' ∧ d = d' ∧ f = f' := by simpa using h
        dsimp only
        rw [hentry]
        refine ⟨by simpa [FdTable.put] using hin.1, ?_⟩
        have hevent := (hs.coupled fd).event_of_func hf
        cases d <;> exact ⟨hin.2, hevent⟩
      · exact absurd hu (by simp)
    · exact absurd hu (by simp)
  | rearm =>
    obtain ⟨⟨fd, d, f⟩, hh, rfl⟩ := Option.map_eq_some_iff.1 hu
    -- the handler has made no operation since its delivery: the direction is still registered
    obtain ⟨hlt, hfd, hevent⟩ := hs.handler fd d f hh
    exact ⟨hs.coupled.put hlt ((hs.coupled fd).setFunc (fun _ ↦ hevent) hfd),
      fun _ _ _ h ↦ absurd h (by simp)⟩
  | leave =>
    obtain ⟨_, -, rfl⟩ := Option.map_eq_some_iff.1 hu
    exact ⟨hs.coupled, fun _ _ _ h ↦ absurd h (by simp)⟩

/-- At a delivery the slot is not empty, so its direction is registered. -/
theorem Inv.assertHolds (hs : s.Inv) {a : FdAction κ} (hu : s.step a = some u) :
    s.AssertHolds a := by
  cases a with
  | dispatch fd d =>
    rw [step] at hu
    split at hu
    · exact (hs.coupled fd).event_of_func ‹_›
    · exact absurd hu (by simp)
  | _ => trivial

end FdLoop

/-- **The descriptor table agrees with the kernel.** From a fresh loop, through any sequence of
waits, cancellations, dispatches and re-arming handlers whose `epoll_ctl` calls are granted, every
state has a sound table, and the assertion of `run` holds at every delivery. -/
theorem fdTable_sound {κ : Type*} (eventFd : ℕ) (self : κ) (as : List (FdAction κ))
    (hok : ∀ a ∈ as, a.Granted) :
    (FdLoop.machine eventFd self).Throughout (fun s ↦ s.table.Sound) as ∧
      (FdLoop.machine eventFd self).StepsMeet FdLoop.AssertHolds as := by
  have hinv : (FdLoop.machine eventFd self).Throughout FdLoop.Inv as :=
    Machine.throughout_of_stepsMeet (FdLoop.inv_init eventFd self)
      (fun _ _ _ hu ha hs ↦ FdLoop.inv_step hu ha hs) (Machine.stepsMeet_of_forall_mem hok)
  exact ⟨hinv.mono fun _ hs ↦ hs.coupled.sound,
    Machine.stepsMeet_of_throughout (fun _ _ _ hu hs _ ↦ hs.assertHolds hu) hinv⟩

/-- Two handlers on the descriptor 7: the reader is called and blocks, the writer is called and goes
on, then writing is cancelled, and then everything. -/
theorem fdTable_sound_two_handlers :
    (FdLoop.machine 3 0).Throughout (fun s ↦ s.table.Sound)
      [.waitRead 7 (some 1) true, .waitWrite 7 (some 2) true, .dispatch 7 .read, .rearm,
        .dispatch 7 .write, .leave, .cancelWrite 7 true, .cancelFdall 7 true] :=
  (fdTable_sound 3 0 _ (by simp [FdAction.Granted])).1

end Nsio
