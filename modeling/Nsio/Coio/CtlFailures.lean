import Nsio.Coio.FdTable
import Nsio.Foundations.Word

/-!
# The descriptor table when `epoll_ctl` fails

`wait_fd` and `cancel_ev` write the entry first and then make their call. When the kernel refuses
the call, the entry is not put back. This module says in which runs the table stays in agreement
with the kernel although calls are refused: exactly those in which a refused call is an
`EPOLL_CTL_MOD` that asks for **the mask that is registered already** (`Harmless`), such as
the one `cancel_read` makes on a descriptor that only waits for writing.

A refused call of that kind leaves what a granted one leaves, so those runs are covered by the
coupling of the table with the kernel. Every other refused call leaves a state that disagrees,
because the entry then records the mask of the call (`EsFile.recorded_wait`,
`EsFile.recorded_cancel`).
-/

namespace Nsio

variable {κ : Type*}

/-! ### What an entry records -/

namespace EsFile

/-- After a wait its direction is recorded. -/
theorem event_wait (e : EsFile κ) (d : Direction) (fd : ℕ) (f : Option κ) :
    (e.wait d.mask fd f).1.event &&& d.mask ≠ 0 := by
  by_cases he : e.fd = -1
  · rw [wait, if_pos he]
    cases d with
    | read => exact epollIn_and_self
    | write => exact epollOut_and_self
  · rw [wait, if_neg he]
    cases d with
    | read =>
      rw [show Direction.read.mask = epollIn from rfl, if_pos epollIn_and_self]
      dsimp only
      split
      · assumption
      · exact (Word.or_and_self _ _).symm ▸ by decide
    | write =>
      rw [show Direction.write.mask = epollOut from rfl, if_neg (by decide)]
      dsimp only
      split
      · assumption
      · exact (Word.or_and_self _ _).symm ▸ by decide

/-- A wait never leaves its entry idle. -/
theorem fd_wait_ne (e : EsFile κ) (d : Direction) (fd : ℕ) (f : Option κ) :
    (e.wait d.mask fd f).1.fd ≠ -1 := by
  have hfd : (fd : Int) ≠ -1 := by omega
  by_cases he : e.fd = -1
  · rw [wait, if_pos he]
    cases d <;> exact hfd
  · rw [wait, if_neg he]
    split <;> dsimp only <;> split <;> exact he

/-- A cancellation that leaves its entry idle leaves it without handlers. -/
theorem func_cancel_of_idle {e : EsFile κ} {ev : UInt32}
    (he : e.fd = -1 → ∀ d, e.func d = none) (h : (e.cancel ev).1.fd = -1) (d : Direction) :
    (e.cancel ev).1.func d = none := by
  rw [cancel] at h ⊢
  split at h
  · rename_i hidle
    rw [if_pos hidle]
    exact he hidle d
  · rename_i hbusy
    rw [if_neg hbusy]
    dsimp only at h ⊢
    split at h
    · exact absurd h hbusy
    · split at h
      · exact absurd h hbusy
      · rename_i hin hout
        rw [if_neg hin, if_neg hout]
        cases d <;> rfl

/-- The entry of an operation that makes an `EPOLL_CTL_ADD` or an `EPOLL_CTL_MOD` is in use and
records the mask of the call; and the operation adds only what was idle. -/
def Records (e : EsFile κ) (out : EsFile κ × Option CtlCall) : Prop :=
  ∀ c, out.2 = some c → c.op ≠ .del →
    out.1.fd ≠ -1 ∧ out.1.event = c.mask ∧ (c.op = .add → e.fd = -1)

theorem recorded_wait (e : EsFile κ) (d : Direction) (fd : ℕ) (f : Option κ) :
    e.Records (e.wait d.mask fd f) := by
  intro c hc _
  have hfd : (fd : Int) ≠ -1 := by omega
  by_cases he : e.fd = -1
  · rw [wait, if_pos he] at hc ⊢
    cases d <;> (obtain rfl := Option.some.inj hc; exact ⟨hfd, rfl, fun _ ↦ he⟩)
  · rw [wait, if_neg he] at hc ⊢
    split at hc <;> dsimp only at hc ⊢
    · split at hc
      · exact absurd hc (by simp)
      · obtain rfl := Option.some.inj hc
        rw [if_pos ‹_›, if_neg ‹_›]
        exact ⟨he, rfl, fun h ↦ absurd h (by simp)⟩
    · split at hc
      · exact absurd hc (by simp)
      · obtain rfl := Option.some.inj hc
        rw [if_neg ‹_›, if_neg ‹_›]
        exact ⟨he, rfl, fun h ↦ absurd h (by simp)⟩

theorem recorded_cancel (e : EsFile κ) (ev : UInt32) : e.Records (e.cancel ev) := by
  intro c hc hdel
  by_cases he : e.fd = -1
  · rw [cancel, if_pos he] at hc
    exact absurd hc (by simp)
  · rw [cancel, if_neg he] at hc ⊢
    dsimp only at hc ⊢
    split at hc
    · obtain rfl := Option.some.inj hc
      rw [if_pos ‹_›]
      exact ⟨he, rfl, fun h ↦ absurd h (by simp)⟩
    · split at hc
      · obtain rfl := Option.some.inj hc
        rw [if_neg ‹_›, if_pos ‹_›]
        exact ⟨he, rfl, fun h ↦ absurd h (by simp)⟩
      · obtain rfl := Option.some.inj hc
        exact absurd rfl hdel

end EsFile

/-! ### Agreement -/

/-- Every entry records the kernel's interest in its descriptor; without one, it is idle. -/
def FdTable.Agrees (t : FdTable κ) : Prop :=
  ∀ i, match t.interest i with
    | none => (t.entry i).fd = -1 ∧ (t.entry i).event = 0
    | some m => (t.entry i).fd = i ∧ (t.entry i).event = m

/-- A table in agreement, from which every further wait reaches the kernel: its direction is
registered once its call, if it makes one, is granted. -/
structure FdTable.InStep (t : FdTable κ) : Prop where
  agrees : t.Agrees
  wait_registers : ∀ fd (d : Direction) f,
    ((t.waitFd d.mask fd f true).1.interest fd).getD 0 &&& d.mask ≠ 0

theorem FdTable.Agrees.interest_eq_none {t : FdTable κ} (h : t.Agrees) {i : ℕ}
    (hi : (t.entry i).fd = -1) : t.interest i = none := by
  have := h i
  rcases hm : t.interest i with - | m
  · rfl
  · rw [hm] at this
    have hfd := this.1
    omega

theorem FdTable.Agrees.interest_eq_some {t : FdTable κ} (h : t.Agrees) {i : ℕ}
    (hi : (t.entry i).fd ≠ -1) : t.interest i = some (t.entry i).event := by
  have := h i
  rcases hm : t.interest i with - | m
  · rw [hm] at this
    exact absurd this.1 hi
  · rw [hm] at this
    rw [this.2]

theorem FdTable.AllCoupled.agrees {t : FdTable κ} (h : t.AllCoupled) : t.Agrees := by
  intro i
  rcases h i with ⟨he, hm⟩ | ⟨he, hm⟩
  · rw [hm, he]
    exact ⟨rfl, rfl⟩
  · rw [hm]
    exact ⟨he.fd_eq, rfl⟩

theorem FdTable.AllCoupled.inStep {t : FdTable κ} (h : t.AllCoupled) : t.InStep := by
  refine ⟨h.agrees, fun fd d f ↦ ?_⟩
  have hd : d.mask = epollIn ∨ d.mask = epollOut := by cases d <;> simp [Direction.mask]
  have hevent := (t.entry fd).event_wait d fd f
  rw [← FdTable.entry_waitFd_self (t := t) d.mask fd f true] at hevent
  rcases h.waitFd hd fd f fd with ⟨he, -⟩ | ⟨-, hm⟩
  · rw [he] at hevent
    exact absurd (UInt32.zero_and) hevent
  · rw [hm]
    exact hevent

/-! ### The call an action makes -/

/-- An operation on the entry of a descriptor, and whether its call is granted. -/
structure EntryOp (κ : Type*) where
  fd : ℕ
  op : EsFile κ → EsFile κ × Option CtlCall
  ok : Bool

/-- The entry operation of a wait or a cancellation. -/
def FdAction.entryOp : FdAction κ → Option (EntryOp κ)
  | .waitRead fd f ok => some ⟨fd, EsFile.wait epollIn fd f, ok⟩
  | .waitWrite fd f ok => some ⟨fd, EsFile.wait epollOut fd f, ok⟩
  | .cancelRead fd ok => some ⟨fd, EsFile.cancel epollIn, ok⟩
  | .cancelWrite fd ok => some ⟨fd, EsFile.cancel epollOut, ok⟩
  | .cancelFdall fd ok => some ⟨fd, EsFile.cancel (epollIn ||| epollOut), ok⟩
  | .dispatch _ _ | .rearm | .leave => none

/-- The interest after a call, if one is made. -/
def registeredAfter (m : Option UInt32) (call : Option CtlCall) (ok : Bool) : Option UInt32 :=
  match call with
  | some c => (c.perform ok m).1
  | none => m

namespace FdTable

/-- The table after an entry operation: one entry and one interest are new. -/
structure OpEffect (t u : FdTable κ) (o : EntryOp κ) : Prop where
  entry : ∀ j, u.entry j = if j = o.fd then (o.op (t.entry o.fd)).1 else t.entry j
  interest : ∀ j, u.interest j =
    if j = o.fd then registeredAfter (t.interest o.fd) (o.op (t.entry o.fd)).2 o.ok
    else t.interest j

theorem interest_put_apply (t : FdTable κ) (fd : ℕ) (fe : EsFile κ × Option CtlCall) (ok : Bool)
    (j : ℕ) : (t.put fd fe ok).1.interest j =
      if j = fd then registeredAfter (t.interest fd) fe.2 ok else t.interest j := by
  show Function.update _ _ _ j = _
  rw [Function.update_apply]
  rcases fe with ⟨e, - | c⟩ <;> rfl

theorem opEffect_waitFd (t : FdTable κ) (type : UInt32) (fd : ℕ) (f : Option κ) (ok : Bool) :
    t.OpEffect (t.waitFd type fd f ok).1 ⟨fd, EsFile.wait type fd f, ok⟩ := by
  have hput : t.OpEffect ((t.resize fd).put fd (((t.resize fd).entry fd).wait type fd f) ok).1
      ⟨fd, EsFile.wait type fd f, ok⟩ := by
    refine ⟨fun j ↦ ?_, fun j ↦ ?_⟩
    · rw [entry_put _ (t.lt_length_resize fd), entry_resize, entry_resize]
    · rw [interest_put_apply, entry_resize]
      rfl
  rw [waitFd]
  split
  · exact hput
  · exact hput

theorem opEffect_cancelEv (t : FdTable κ) (fd : ℕ) (ev : UInt32) (ok : Bool) :
    t.OpEffect (t.cancelEv fd ev ok).1 ⟨fd, EsFile.cancel ev, ok⟩ := by
  rw [cancelEv]
  split
  -- past the end of the table there is no entry, and the operation on an idle one does nothing
  · have hidle : t.entry fd = {} := by
      rw [FdTable.entry, List.getElem?_eq_none ‹_›]
      rfl
    have hcancel : (t.entry fd).cancel ev = ({}, none) := by rw [hidle]; rfl
    refine ⟨fun j ↦ ?_, fun j ↦ ?_⟩ <;> dsimp only
    · rw [hcancel]
      by_cases hj : j = fd
      · rw [if_pos hj, hj, hidle]
      · rw [if_neg hj]
    · rw [hcancel]
      by_cases hj : j = fd
      · rw [if_pos hj, hj]
        rfl
      · rw [if_neg hj]
  · exact ⟨fun j ↦ entry_put t (Nat.not_le.1 ‹_›) _ _ j, fun j ↦ interest_put_apply t _ _ _ j⟩

end FdTable

/-- What a step does when its action is a wait or a cancellation. -/
theorem FdLoop.opEffect {s u : FdLoop κ} {a : FdAction κ} {o : EntryOp κ}
    (h : s.step a = some u) (ho : a.entryOp = some o) :
    s.table.OpEffect u.table o ∧ u.handler = none ∧ (s.table.entry o.fd).Records
      (o.op (s.table.entry o.fd)) := by
  have hoperate : ∀ {t : FdTable κ}, s.operate t = some u → u.table = t ∧ u.handler = none := by
    intro t ht
    rw [operate] at ht
    split at ht
    · obtain rfl := Option.some.inj ht
      exact ⟨rfl, rfl⟩
    · exact absurd ht (by simp)
  cases a with
  | waitRead fd f ok =>
    obtain rfl := Option.some.inj ho
    obtain ⟨htable, hhandler⟩ := hoperate h
    exact ⟨htable ▸ s.table.opEffect_waitFd epollIn fd f ok, hhandler,
      EsFile.recorded_wait _ .read fd f⟩
  | waitWrite fd f ok =>
    obtain rfl := Option.some.inj ho
    obtain ⟨htable, hhandler⟩ := hoperate h
    exact ⟨htable ▸ s.table.opEffect_waitFd epollOut fd f ok, hhandler,
      EsFile.recorded_wait _ .write fd f⟩
  | cancelRead fd ok | cancelWrite fd ok | cancelFdall fd ok =>
    obtain rfl := Option.some.inj ho
    obtain ⟨htable, hhandler⟩ := hoperate h
    exact ⟨htable ▸ s.table.opEffect_cancelEv fd _ ok, hhandler, EsFile.recorded_cancel _ _⟩
  | dispatch fd d => exact absurd ho (by simp [FdAction.entryOp])
  | rearm => exact absurd ho (by simp [FdAction.entryOp])
  | leave => exact absurd ho (by simp [FdAction.entryOp])

/-! ### Refused calls -/

/-- The call the kernel refuses at this step. -/
def FdLoop.refused (s : FdLoop κ) (a : FdAction κ) : Option (ℕ × CtlCall) :=
  a.entryOp.bind fun o ↦
    if o.ok then none else ((o.op (s.table.entry o.fd)).2).map fun c ↦ (o.fd, c)

/-- No `EPOLL_CTL_DEL` is refused. -/
def FdLoop.DelGranted (s : FdLoop κ) (a : FdAction κ) : Prop :=
  ∀ fd c, s.refused a = some (fd, c) → c.op ≠ .del

/-- A refused call is an `EPOLL_CTL_MOD` that asks for the mask that is registered already. -/
def FdLoop.Harmless (s : FdLoop κ) (a : FdAction κ) : Prop :=
  ∀ fd c, s.refused a = some (fd, c) → c.op = .mod ∧ s.table.interest fd = some c.mask

namespace FdLoop

variable {s u : FdLoop κ} {a : FdAction κ}

theorem refused_of_entryOp {o : EntryOp κ} {c : CtlCall} (ho : a.entryOp = some o)
    (hok : o.ok = false) (hc : (o.op (s.table.entry o.fd)).2 = some c) :
    s.refused a = some (o.fd, c) := by
  rw [refused, ho, Option.bind_some, hok, hc]
  rfl

/-- **A harmless refusal leaves what a granted call leaves.** -/
theorem registeredAfter_of_harmless {o : EntryOp κ} (ho : a.entryOp = some o)
    (hok : o.ok = false) (h : s.Harmless a) :
    registeredAfter (s.table.interest o.fd) (o.op (s.table.entry o.fd)).2 o.ok =
      Coupled.after (s.table.interest o.fd) (o.op (s.table.entry o.fd)).2 := by
  rcases hc : (o.op (s.table.entry o.fd)).2 with - | ⟨op, mask⟩
  · rfl
  · obtain ⟨rfl, hm⟩ : op = .mod ∧ s.table.interest o.fd = some mask :=
      h o.fd ⟨op, mask⟩ (refused_of_entryOp ho hok hc)
    rw [hok, hm]
    rfl

/-- The entry operation of an action keeps the coupling when its call is granted. -/
theorem coupled_op {o : EntryOp κ} (ho : a.entryOp = some o) {i : ℕ} {e : EsFile κ}
    {m : Option UInt32} (hi : i = o.fd) (h : Coupled i e m) :
    Coupled i (o.op e).1 (Coupled.after m (o.op e).2) := by
  subst hi
  cases a with
  | waitRead fd f ok => exact Option.some.inj ho ▸ h.wait (.inl rfl) f
  | waitWrite fd f ok => exact Option.some.inj ho ▸ h.wait (.inr rfl) f
  | cancelRead fd ok => exact Option.some.inj ho ▸ h.cancel (.inl rfl)
  | cancelWrite fd ok => exact Option.some.inj ho ▸ h.cancel (.inr (.inl rfl))
  | cancelFdall fd ok => exact Option.some.inj ho ▸ h.cancel (.inr (.inr rfl))
  | dispatch fd d => exact absurd ho (by simp [FdAction.entryOp])
  | rearm => exact absurd ho (by simp [FdAction.entryOp])
  | leave => exact absurd ho (by simp [FdAction.entryOp])

/-- The invariant of a run survives harmless refusals. -/
theorem inv_step_of_harmless (h : s.step a = some u) (ha : s.Harmless a) (hs : s.Inv) :
    u.Inv := by
  rcases ho : a.entryOp with - | o
  · have hgranted : a.Granted := by cases a <;> trivial
    exact inv_step h hgranted hs
  · obtain ⟨heff, hhandler, -⟩ := opEffect h ho
    refine ⟨fun j ↦ ?_, fun _ _ _ hh ↦ absurd hh (by rw [hhandler]; simp)⟩
    rw [heff.entry, heff.interest]
    by_cases hj : j = o.fd
    · rw [if_pos hj, if_pos hj]
      have hafter : registeredAfter (s.table.interest o.fd) (o.op (s.table.entry o.fd)).2 o.ok =
          Coupled.after (s.table.interest o.fd) (o.op (s.table.entry o.fd)).2 := by
        rcases hok : o.ok with - | -
        · exact hok ▸ registeredAfter_of_harmless ho hok ha
        · rcases (o.op (s.table.entry o.fd)).2 with - | c <;> rfl
      rw [hafter]
      exact coupled_op ho hj (hj ▸ hs.coupled o.fd)
    · rw [if_neg hj, if_neg hj]
      exact hs.coupled j

/-- A refusal between two states in agreement was harmless: the entry records the mask of the
call, and the kernel has what it had. -/
theorem harmless_of_agrees (h : s.step a = some u) (hdel : s.DelGranted a)
    (hs : s.table.Agrees) (hu : u.table.Agrees) : s.Harmless a := by
  intro fd c hc
  have hnotdel := hdel fd c hc
  obtain ⟨o, ho, hcall⟩ := Option.bind_eq_some_iff.1 hc
  obtain ⟨heff, -, hrec⟩ := opEffect h ho
  by_cases hok : o.ok = true
  · rw [if_pos hok] at hcall
    exact absurd hcall (by simp)
  rw [if_neg hok] at hcall
  obtain ⟨c', hc', heq⟩ := Option.map_eq_some_iff.1 hcall
  obtain ⟨rfl, rfl⟩ := Prod.mk.inj heq
  obtain ⟨hfd, hmask, hadd⟩ := hrec c' hc' hnotdel
  have hentry := heff.entry o.fd
  have hinterest := heff.interest o.fd
  rw [if_pos rfl] at hentry hinterest
  -- a refused call changes nothing in the kernel
  have hunchanged : u.table.interest o.fd = s.table.interest o.fd := by
    rw [hinterest, hc', Bool.eq_false_iff.2 hok]
    obtain ⟨op, mask⟩ := c'
    cases op <;> rcases s.table.interest o.fd with - | m <;> rfl
  have hsome : s.table.interest o.fd = some c'.mask := by
    rw [← hunchanged, hu.interest_eq_some (hentry ▸ hfd), hentry, hmask]
  refine ⟨?_, hsome⟩
  -- an addition is for an entry not in use, for which the kernel has no mask
  rcases hop : c'.op with - | - | -
  · rw [hs.interest_eq_none (hadd hop)] at hsome
    exact absurd hsome (by simp)
  · rfl
  · exact absurd hop hnotdel

end FdLoop

/-- **When the table stays in agreement although calls fail.** In a run in which any
`EPOLL_CTL_ADD` and `EPOLL_CTL_MOD` may be refused, every state is in step with the kernel exactly
when every refused call is a modification to the mask that is registered already. -/
theorem inStep_iff_harmless {κ : Type*} {eventFd : ℕ} {self : κ} {as : List (FdAction κ)}
    (hdel : (FdLoop.machine eventFd self).StepsMeet FdLoop.DelGranted as) :
    (FdLoop.machine eventFd self).Throughout (fun s ↦ s.table.InStep) as ↔
      (FdLoop.machine eventFd self).StepsMeet FdLoop.Harmless as := by
  constructor
  · intro h
    have hstep := Machine.stepsMeet_of_throughout
      (G := fun s a ↦ s.DelGranted a → s.Harmless a)
      (fun _ _ _ hu hs ht hd ↦ FdLoop.harmless_of_agrees hu hd hs.agrees ht.agrees) h
    exact (hstep.and hdel).mono fun _ _ ha ↦ ha.1 ha.2
  · intro h
    have hinv : (FdLoop.machine eventFd self).Throughout FdLoop.Inv as :=
      Machine.throughout_of_stepsMeet (FdLoop.inv_init eventFd self)
        (fun _ _ _ hu ha hs ↦ FdLoop.inv_step_of_harmless hu ha hs) h
    exact hinv.mono fun _ hs ↦ hs.coupled.inStep

/-- A refused `EPOLL_CTL_MOD` of `cancel_read` on a descriptor that waits for writing only. -/
theorem inStep_cancel_refused :
    (FdLoop.machine 3 0).Throughout (fun s ↦ s.table.InStep)
      [.waitWrite 7 (some 1) true, .cancelRead 7 false, .waitRead 7 (some 2) true] := by
  have hdel : (FdLoop.machine 3 0).StepsMeet FdLoop.DelGranted
      [.waitWrite 7 (some 1) true, .cancelRead 7 false, .waitRead 7 (some 2) true] := by
    refine .cons rfl ?_ (.cons rfl ?_ (.cons rfl ?_ trivial)) <;> rintro fd c ⟨⟩
    decide
  refine (inStep_iff_harmless hdel).2 ?_
  refine .cons rfl ?_ (.cons rfl ?_ (.cons rfl ?_ trivial)) <;> rintro fd c ⟨⟩
  exact ⟨rfl, rfl⟩

/-- A refused `EPOLL_CTL_ADD`: the entry of 7 records an interest the kernel does not have, and the
next `wait_read` on 7 makes no call. -/
theorem add_refused_not_inStep :
    ∃ s, (FdLoop.machine 3 0).run [.waitRead 7 (some 1) false] = some s ∧
      (s.table.entry 7).event = epollIn ∧ s.table.interest 7 = none ∧
      (s.table.waitRead 7 (some 2) true).interest 7 = none ∧ ¬ s.table.InStep := by
  refine ⟨_, rfl, rfl, rfl, rfl, fun h ↦ ?_⟩
  exact absurd (h.agrees 7).1 (by decide)

end Nsio
