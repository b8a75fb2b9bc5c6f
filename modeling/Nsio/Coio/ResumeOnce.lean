import Nsio.Coio.EventTurns

/-!
# How often an awaiter resumes its coroutine

An awaiter has two wake-up sources, its slot in the descriptor table and its timer. The expiry
handler cancels the slot, so nothing is delivered after an expiry. The file handler does not cancel
the timer: that is left to the destructor. An awaiter that lives on after its `co_await` returned,
as a named local does, is still called by its timer, and resumes a coroutine that is suspended
elsewhere by then. An awaiter that was destroyed with a timer left behind is called, too, which has
no defined behaviour.

## The argument

`Effect` says what a lawful step does to the awaiters, the coroutines and the slots, with the source
of every resumption. `Effect.awaiter_cases`, `Effect.pending_cases`, `Effect.armed_cases` and
`Effect.suspended_cases` read it from the side of one awaiter, slot or coroutine, and the invariants
follow from these:

* `SlotInv`: an armed slot holds an awaiter that is alive and has not resumed yet, so a delivery is
  always a first resumption;
* `CoroutineInv`: a suspended coroutine is suspended on an awaiter that has not resumed yet.

In a loop that keeps its reference over the calls of handlers, as long as that is so, the steps are
those of the runtime. `resumes_once_iff` puts together that a second resumption can only come from
the timer of an awaiter that has completed.
-/

namespace Nsio

/-- A `recv_lazy` or `recv_request` with a positive timeout. -/
def Awaiter.IsTimedRecv (w : Awaiter) : Prop := w.kind.direction = some .read ∧ w.timed = true

namespace Runtime

/-- The slot `d` of `fd` holds the awaiter at `a`. -/
def Armed (s : Runtime) (fd : ℕ) (d : Direction) (a : ℕ) : Prop :=
  (s.fds.entry fd).func d = some a

/-- The action pops a timer of the awaiter at `a`. -/
def Fires (H : TimerHeap ℕ) (s : Runtime) : RuntimeAction → ℕ → Prop
  | .expire now, a => ∃ due timers, s.timers.expire H now = some (due, timers) ∧ due.func = a
  | _, _ => False

/-- The action calls a handler of the awaiter at `a`. -/
def Calls (H : TimerHeap ℕ) (s : Runtime) : RuntimeAction → ℕ → Prop
  | .dispatch fd d _ _, a => s.Armed fd d a
  | .expire now, a => s.Fires H (.expire now) a
  | _, _ => False

/-- **A lawful step**: an awaiter has been awaited before the loop calls it, and is not destroyed
before it has resumed its coroutine. -/
structure Lawful (H : TimerHeap ℕ) (s : Runtime) (act : RuntimeAction) : Prop where
  awaited : ∀ a w, s.Calls H act a → s.awaiters a = some w → w.handle ≠ none
  completed : ∀ a w, act = .destroy a → s.awaiters a = some w → w.resumed ≠ []

/-- The timer that is popped finds its awaiter alive and, if that is a timed `recv` awaiter, not
resumed yet. -/
def FiresPendingRecv (H : TimerHeap ℕ) (s : Runtime) (act : RuntimeAction) : Prop :=
  ∀ a, s.Fires H act a → ∃ w, s.awaiters a = some w ∧ (w.IsTimedRecv → w.resumed = [])

/-- The timer that is popped finds its awaiter alive and not resumed yet. -/
def FiresPending (H : TimerHeap ℕ) (s : Runtime) (act : RuntimeAction) : Prop :=
  ∀ a, s.Fires H act a → ∃ w, s.awaiters a = some w ∧ w.resumed = []

/-- No timed `recv` awaiter has resumed its coroutine twice, and no destroyed awaiter has been
called. -/
structure RecvsOnce (s : Runtime) : Prop where
  defined : s.dangling = false
  once : ∀ a w, s.awaiters a = some w → w.IsTimedRecv → w.resumed.length ≤ 1

/-- Every awaiter has resumed its coroutine only while it was suspended on that awaiter, and no
destroyed awaiter has been called. -/
structure ResumesInPlace (s : Runtime) : Prop where
  defined : s.dangling = false
  inPlace : ∀ a w, s.awaiters a = some w → ∀ x ∈ w.resumed, x = some a

/-! ### The slots -/

/-- **The invariant of the slots**: what is armed is an awaiter that is alive, on its own descriptor
and direction, and has not resumed yet. -/
structure SlotInv (s : Runtime) : Prop where
  coupled : s.fds.AllCoupled
  owned : ∀ fd d a, s.Armed fd d a →
    ∃ w, s.awaiters a = some w ∧ w.resumed = [] ∧ w.sockfd = fd ∧ w.kind.direction = some d

variable {H : TimerHeap ℕ} {s t : Runtime}

/-- Writing a slot, with what it arms. -/
theorem armed_setSlot {fd : ℕ} {d : Direction} {f : Option ℕ} (hlt : fd < s.fds.fds.length)
    {j : ℕ} {d' : Direction} {b : ℕ} (h : (s.setSlot fd d f).Armed j d' b) :
    (j = fd ∧ d' = d ∧ f = some b) ∨ (¬ (j = fd ∧ d' = d) ∧ s.Armed j d' b) := by
  rw [Armed, setSlot, FdTable.func_put_setFunc hlt] at h
  split at h
  · rename_i hslot
    exact .inl ⟨hslot.1, hslot.2, h⟩
  · rename_i hslot
    exact .inr ⟨hslot, h⟩

/-- A slot that held an awaiter holds it alone, so once cleared nothing holds it. -/
theorem SlotInv.armed_clear (h : s.SlotInv) {fd : ℕ} {d : Direction} {a : ℕ}
    (hlt : fd < s.fds.fds.length) (ha : s.Armed fd d a) {j : ℕ} {d' : Direction} {b : ℕ}
    (hb : (s.setSlot fd d none).Armed j d' b) : s.Armed j d' b ∧ b ≠ a := by
  rcases armed_setSlot hlt hb with ⟨-, -, hnone⟩ | ⟨hne, hb⟩
  · exact absurd hnone (by simp)
  · refine ⟨hb, fun hba ↦ hne ?_⟩
    subst hba
    obtain ⟨w, hw, -, hfd, hd⟩ := h.owned fd d b ha
    obtain ⟨w', hw', -, hfd', hd'⟩ := h.owned j d' b hb
    obtain rfl := Option.some.inj (hw.symm.trans hw')
    exact ⟨hfd'.symm.trans hfd, Option.some.inj (hd'.symm.trans hd)⟩

/-- Expiry empties the slot of the awaiter it is called on. -/
theorem SlotInv.armed_cancelOwn (h : s.SlotInv) {a : ℕ} {w : Awaiter} (hw : s.awaiters a = some w)
    {j : ℕ} {d : Direction} {b : ℕ} (hb : ((w.cancelOwn s.fds).entry j).func d = some b) :
    s.Armed j d b ∧ b ≠ a := by
  rw [Awaiter.cancelOwn_eq] at hb
  rcases hd : w.kind.direction with - | d'
  · rw [hd] at hb
    refine ⟨hb, fun hba ↦ ?_⟩
    subst hba
    obtain ⟨w', hw', -, -, hd'⟩ := h.owned j d b hb
    obtain rfl := Option.some.inj (hw.symm.trans hw')
    exact absurd (hd.symm.trans hd') (by simp)
  · rw [hd] at hb
    have hsub : s.Armed j d b := FdTable.func_cancelEv hb
    refine ⟨hsub, fun hba ↦ ?_⟩
    subst hba
    obtain ⟨w', hw', -, rfl, hd'⟩ := h.owned j d b hsub
    obtain rfl := Option.some.inj (hw.symm.trans hw')
    obtain rfl := Option.some.inj (hd.symm.trans hd')
    rw [h.coupled.func_cancelEv_self] at hb
    exact absurd hb (by simp)

theorem coupled_setSlot (h : s.fds.AllCoupled) {fd : ℕ} {d : Direction} {f : Option ℕ}
    (hin : fd < s.fds.fds.length ∧ (s.fds.entry fd).fd ≠ -1)
    (hf : f ≠ none → (s.fds.entry fd).event &&& d.mask ≠ 0) : (s.setSlot fd d f).fds.AllCoupled :=
  h.put hin.1 ((h fd).setFunc hf hin.2)

theorem coupled_cancelOwn (h : s.fds.AllCoupled) (w : Awaiter) :
    (w.cancelOwn s.fds).AllCoupled := by
  rw [Awaiter.cancelOwn_eq]
  split
  · rename_i d _
    cases d with
    | read => exact h.cancelEv (.inl rfl) _
    | write => exact h.cancelEv (.inr (.inl rfl)) _
  · exact h

theorem coupled_construct (h : s.fds.AllCoupled) {a : ℕ} {ctor : AwaiterCtor}
    (ht : s.construct H a ctor = some t) : t.fds.AllCoupled := by
  obtain ⟨kind, sockfd, timed, fds, hfds, hcases⟩ := construct_cases ht
  have htable : t.fds = fds := by
    rcases hcases with ⟨deadline, -, rfl⟩ | ⟨-, when₁, when₂, rfl⟩
    · cases deadline <;> rfl
    · rfl
  rw [htable]
  rcases hfds with rfl | ⟨d, -, rfl⟩
  · exact h
  · cases d with
    | read => exact h.waitFd (.inl rfl) _ _
    | write => exact h.waitFd (.inr rfl) _ _

theorem coupled_dispatch (h : s.fds.AllCoupled) {fd : ℕ} {d : Direction} {err : Option ℕ}
    {outcome : HandlerOutcome} (ht : s.dispatch fd d err outcome = some t) : t.fds.AllCoupled := by
  obtain ⟨a, w, ha, -, hin, hev⟩ := dispatch_cases ht
  have hcoupled : (s.setSlot fd d none).fds.AllCoupled :=
    coupled_setSlot h hin fun hnone ↦ absurd rfl hnone
  rcases onFileEvent_cases hev with ⟨-, rfl⟩ | rfl | ⟨result, fds, hfds, rfl⟩
  · exact hcoupled
  · -- the handler writes itself back into the slot it was called from
    have hentry : (s.setSlot fd d none).fds.entry fd = (s.fds.entry fd).setFunc d none := by
      rw [setSlot, FdTable.entry_put _ hin.1, if_pos rfl]
    have hlen : fd < (s.setSlot fd d none).fds.fds.length :=
      Nat.lt_of_lt_of_eq hin.1 List.length_set.symm
    have hfields : ((s.fds.entry fd).setFunc d none).fd = (s.fds.entry fd).fd ∧
        ((s.fds.entry fd).setFunc d none).event = (s.fds.entry fd).event := by
      cases d <;> exact ⟨rfl, rfl⟩
    refine coupled_setSlot hcoupled ⟨hlen, ?_⟩ fun _ ↦ ?_
    · rw [hentry, hfields.1]
      exact hin.2
    · rw [hentry, hfields.2]
      exact (h fd).event_of_func ha
  · rcases hfds with rfl | ⟨-, rfl⟩
    · exact hcoupled
    · exact hcoupled.cancelEv (.inr (.inl rfl)) _

/-- **The table stays coupled with the kernel** in every step. -/
theorem coupled_step (h : s.fds.AllCoupled) {act : RuntimeAction} (ht : step H s act = some t) :
    t.fds.AllCoupled := by
  cases act with
  | construct a ctor =>
    rw [step] at ht
    exact coupled_construct h (Option.ite_none_right_eq_some.1 ht).2
  | await c a =>
    obtain ⟨w, -, -, -, rfl⟩ := await_cases ht
    exact h
  | destroy a =>
    obtain ⟨w, -, rfl⟩ := Option.map_eq_some_iff.1 ht
    exact h
  | cancelRead fd => exact Option.some.inj ht ▸ h.cancelEv (.inl rfl) fd
  | cancelWrite fd => exact Option.some.inj ht ▸ h.cancelEv (.inr (.inl rfl)) fd
  | cancelFdall fd => exact Option.some.inj ht ▸ h.cancelEv (.inr (.inr rfl)) fd
  | dispatch fd d err outcome => exact coupled_dispatch h ht
  | expire now =>
    obtain ⟨due, timers, -, ⟨-, rfl⟩ | ⟨w, -, rfl⟩⟩ := expire_cases ht
    · exact h
    · exact coupled_cancelOwn h w

/-! ### What a lawful step does -/

/-- **The effect of a lawful step** on the awaiters, the coroutines and the slots. A resumption is
the first one of its awaiter, or comes from its timer. -/
inductive Effect (H : TimerHeap ℕ) (s : Runtime) (act : RuntimeAction)
    (t : Runtime) : Prop
  | quiet (hawaiters : t.awaiters = s.awaiters) (hsuspended : t.suspended = s.suspended)
      (harmed : ∀ fd d b, t.Armed fd d b → s.Armed fd d b)
  | born (a : ℕ) (w : Awaiter) (hfree : s.awaiters a = none) (hresumed : w.resumed = [])
      (hhandle : w.handle = none) (hawaiters : t.awaiters = Function.update s.awaiters a (some w))
      (hsuspended : t.suspended = s.suspended)
      (harmed : ∀ fd d b, t.Armed fd d b →
        s.Armed fd d b ∨ b = a ∧ w.sockfd = fd ∧ w.kind.direction = some d)
  | awaited (c a : ℕ) (w : Awaiter) (hw : s.awaiters a = some w) (hhandle : w.handle = none)
      (hrunning : s.suspended c = none)
      (hawaiters : t.awaiters = Function.update s.awaiters a (some { w with handle := some c }))
      (hsuspended : t.suspended = Function.update s.suspended c (some a))
      (harmed : ∀ fd d b, t.Armed fd d b → s.Armed fd d b)
  | resumed (c a : ℕ) (w w' : Awaiter) (hw : s.awaiters a = some w) (hhandle : w.handle = some c)
      (hcause : w.resumed = [] ∨ s.Fires H act a)
      (hsame : w'.kind = w.kind ∧ w'.timed = w.timed ∧ w'.handle = w.handle)
      (hresumed : w'.resumed = w.resumed ++ [s.suspended c])
      (hawaiters : t.awaiters = Function.update s.awaiters a (some w'))
      (hsuspended : t.suspended = Function.update s.suspended c none)
      (harmed : ∀ fd d b, t.Armed fd d b → s.Armed fd d b ∧ b ≠ a)
  | gone (a : ℕ) (w : Awaiter) (hw : s.awaiters a = some w) (hresumed : w.resumed ≠ [])
      (hawaiters : t.awaiters = Function.update s.awaiters a none)
      (hsuspended : t.suspended = s.suspended)
      (harmed : ∀ fd d b, t.Armed fd d b → s.Armed fd d b)

/-- A handler that ends with `_handle.resume()`. -/
theorem Effect.of_resume {act : RuntimeAction} {fds : FdTable ℕ} {timers : TimerQueue ℕ} {a : ℕ}
    {w w₁ : Awaiter} (hw : s.awaiters a = some w) (hhandle : w.handle ≠ none)
    (hcause : w.resumed = [] ∨ s.Fires H act a)
    (hsame : w₁.kind = w.kind ∧ w₁.timed = w.timed ∧ w₁.handle = w.handle ∧ w₁.resumed = w.resumed)
    (harmed : ∀ fd d b, (fds.entry fd).func d = some b → s.Armed fd d b ∧ b ≠ a) :
    Effect H s act ({ s with fds := fds, timers := timers }.resume a w₁) := by
  obtain ⟨hkind, htimed, hhandle₁, hresumed⟩ := hsame
  obtain ⟨c, hc⟩ := Option.ne_none_iff_exists'.1 hhandle
  refine .resumed c a w { w₁ with resumed := w₁.resumed ++ [w₁.handle.bind s.suspended] } hw hc
    hcause ⟨hkind, htimed, hhandle₁⟩ ?_ rfl ?_ harmed
  · dsimp only
    rw [hresumed, hhandle₁, hc]
    rfl
  · exact suspended_resume (hhandle₁.trans hc)

theorem construct_effect {act : RuntimeAction} {a : ℕ} {ctor : AwaiterCtor}
    (ha : s.awaiters a = none) (ht : s.construct H a ctor = some t) : Effect H s act t := by
  obtain ⟨kind, sockfd, timed, fds, hfds, hcases⟩ := construct_cases ht
  have htable : t.fds = fds ∧ t.suspended = s.suspended ∧ ∃ timerId, t.awaiters =
      Function.update s.awaiters a (some { kind, sockfd, timed, timerId }) := by
    rcases hcases with ⟨deadline, -, rfl⟩ | ⟨-, when₁, when₂, rfl⟩
    · cases deadline with
      | none => exact ⟨rfl, rfl, -1, rfl⟩
      | some when => exact ⟨rfl, rfl, _, rfl⟩
    · exact ⟨rfl, rfl, _, Function.update_idem ..⟩
  obtain ⟨hfds', hsuspended, timerId, hawaiters⟩ := htable
  refine .born a _ ha rfl rfl hawaiters hsuspended fun fd d b hb ↦ ?_
  rw [Armed, hfds'] at hb
  rcases hfds with rfl | ⟨d', hd', rfl⟩
  · exact .inl hb
  · rcases FdTable.func_waitFd hb with hb | ⟨rfl, rfl, rfl⟩
    · exact .inl hb
    · exact .inr ⟨rfl, rfl, hd'⟩

theorem dispatch_effect (h : s.SlotInv) {fd : ℕ} {d : Direction} {err : Option ℕ}
    {outcome : HandlerOutcome} (hlaw : s.Lawful H (.dispatch fd d err outcome))
    (ht : s.dispatch fd d err outcome = some t) :
    Effect H s (.dispatch fd d err outcome) t := by
  obtain ⟨a, w, ha, hw, hin, hev⟩ := dispatch_cases ht
  have hclear : ∀ j d' b, (s.setSlot fd d none).Armed j d' b → s.Armed j d' b ∧ b ≠ a :=
    fun _ _ _ hb ↦ h.armed_clear hin.1 ha hb
  rcases onFileEvent_cases hev with ⟨-, rfl⟩ | rfl | ⟨result, fds, hfds, rfl⟩
  · exact .quiet rfl rfl fun j d' b hb ↦ (hclear j d' b hb).1
  · -- the handler writes itself back into the slot it was called from
    have hlen : fd < (s.setSlot fd d none).fds.fds.length :=
      Nat.lt_of_lt_of_eq hin.1 List.length_set.symm
    refine .quiet rfl rfl fun j d' b hb ↦ ?_
    rcases armed_setSlot hlen hb with ⟨rfl, rfl, hab⟩ | ⟨-, hb⟩
    · obtain rfl := Option.some.inj hab
      exact ha
    · exact (hclear j d' b hb).1
  · obtain ⟨w', hw', hfirst, -, -⟩ := h.owned fd d a ha
    obtain rfl := Option.some.inj (hw.symm.trans hw')
    refine Effect.of_resume hw (hlaw.awaited a w ha hw) (.inl hfirst) ⟨rfl, rfl, rfl, rfl⟩
      fun j d' b hb ↦ ?_
    rcases hfds with rfl | ⟨-, rfl⟩
    · exact hclear j d' b hb
    · exact hclear j d' b (FdTable.func_cancelEv hb)

/-- The other fields of an awaiter after `on_time_event`. -/
theorem onTimeEvent_same (w : Awaiter) : w.onTimeEvent.kind = w.kind ∧
    w.onTimeEvent.timed = w.timed ∧ w.onTimeEvent.handle = w.handle ∧
    w.onTimeEvent.resumed = w.resumed := by
  obtain ⟨kind, -⟩ := w
  cases kind <;> exact ⟨rfl, rfl, rfl, rfl⟩

theorem expire_effect (h : s.SlotInv) {now : Int} (hlaw : s.Lawful H (.expire now))
    (ht : s.expire H now = some t) : Effect H s (.expire now) t := by
  obtain ⟨due, timers, hdue, ⟨-, rfl⟩ | ⟨w, hw, rfl⟩⟩ := expire_cases ht
  · exact .quiet rfl rfl fun _ _ _ hb ↦ hb
  · have hfires : s.Fires H (.expire now) due.func := ⟨due, timers, hdue, rfl⟩
    exact Effect.of_resume hw (hlaw.awaited _ w hfires hw) (.inr hfires) (onTimeEvent_same w)
      fun _ _ _ hb ↦ h.armed_cancelOwn hw hb

/-- **Every lawful step has an effect.** -/
theorem SlotInv.effect (h : s.SlotInv) {act : RuntimeAction} (hlaw : s.Lawful H act)
    (ht : step H s act = some t) : Effect H s act t := by
  cases act with
  | construct a ctor =>
    rw [step] at ht
    obtain ⟨hfree, ht⟩ := Option.ite_none_right_eq_some.1 ht
    exact construct_effect hfree ht
  | await c a =>
    obtain ⟨w, hw, hhandle, hrunning, rfl⟩ := await_cases ht
    exact .awaited c a w hw hhandle hrunning rfl rfl fun _ _ _ hb ↦ hb
  | destroy a =>
    obtain ⟨w, hw, rfl⟩ := Option.map_eq_some_iff.1 ht
    exact .gone a w hw (hlaw.completed a w rfl hw) rfl rfl fun _ _ _ hb ↦ hb
  | cancelRead fd =>
    obtain rfl := Option.some.inj ht
    exact .quiet rfl rfl fun _ _ _ hb ↦ FdTable.func_cancelEv hb
  | cancelWrite fd =>
    obtain rfl := Option.some.inj ht
    exact .quiet rfl rfl fun _ _ _ hb ↦ FdTable.func_cancelEv hb
  | cancelFdall fd =>
    obtain rfl := Option.some.inj ht
    exact .quiet rfl rfl fun _ _ _ hb ↦ FdTable.func_cancelEv hb
  | dispatch fd d err outcome => exact dispatch_effect h hlaw ht
  | expire now => exact expire_effect h hlaw ht

/-- **Where an awaiter of the next state comes from**: it was there, is new, has just been awaited,
or has just resumed its coroutine. -/
theorem Effect.awaiter_cases {act : RuntimeAction} (h : Effect H s act t) {b : ℕ} {v : Awaiter}
    (hv : t.awaiters b = some v) :
    s.awaiters b = some v ∨ (v.resumed = [] ∧ v.handle = none) ∨
      (∃ c w, s.awaiters b = some w ∧ v = { w with handle := some c }) ∨
      ∃ c w, s.awaiters b = some w ∧ w.handle = some c ∧ (w.resumed = [] ∨ s.Fires H act b) ∧
        (v.kind = w.kind ∧ v.timed = w.timed ∧ v.handle = w.handle) ∧
        v.resumed = w.resumed ++ [s.suspended c] := by
  cases h with
  | quiet hawaiters _ _ => exact .inl (hawaiters ▸ hv)
  | born a w _ hresumed hhandle hawaiters _ _ =>
    rw [hawaiters, Function.update_apply] at hv
    split at hv
    · obtain rfl := Option.some.inj hv
      exact .inr (.inl ⟨hresumed, hhandle⟩)
    · exact .inl hv
  | awaited c a w hw _ _ hawaiters _ _ =>
    rw [hawaiters, Function.update_apply] at hv
    split at hv
    · rename_i hba
      exact .inr (.inr (.inl ⟨c, w, hba ▸ hw, (Option.some.inj hv).symm⟩))
    · exact .inl hv
  | resumed c a w w' hw hhandle hcause hsame hresumed hawaiters _ _ =>
    rw [hawaiters, Function.update_apply] at hv
    split at hv
    · rename_i hba
      obtain rfl := Option.some.inj hv
      subst hba
      exact .inr (.inr (.inr ⟨c, w, hw, hhandle, hcause, hsame, hresumed⟩))
    · exact .inl hv
  | gone a w _ _ hawaiters _ _ =>
    rw [hawaiters, Function.update_apply] at hv
    split at hv
    · exact absurd hv (by simp)
    · exact .inl hv

/-- **What becomes of an awaiter that has not resumed**: it is there as before, up to being awaited,
or it is resumed, and then nothing holds it any more. -/
theorem Effect.pending_cases {act : RuntimeAction} (h : Effect H s act t) {b : ℕ} {w : Awaiter}
    (hw : s.awaiters b = some w) (hfirst : w.resumed = []) :
    (∃ w', t.awaiters b = some w' ∧ w'.resumed = [] ∧ w'.sockfd = w.sockfd ∧ w'.kind = w.kind ∧
        (w.handle ≠ none → w'.handle = w.handle)) ∨
      (∃ c, w.handle = some c ∧ t.suspended = Function.update s.suspended c none) ∧
        ∀ fd d, ¬ t.Armed fd d b := by
  cases h with
  | quiet hawaiters _ _ => exact .inl ⟨w, hawaiters ▸ hw, hfirst, rfl, rfl, fun _ ↦ rfl⟩
  | born a w' hfree _ _ hawaiters _ _ =>
    have hne : b ≠ a := fun hba ↦ by simp [← hba, hw] at hfree
    rw [hawaiters, Function.update_of_ne hne]
    exact .inl ⟨w, hw, hfirst, rfl, rfl, fun _ ↦ rfl⟩
  | awaited c a w' hw' hhandle _ hawaiters _ _ =>
    rw [hawaiters]
    by_cases hba : b = a
    · subst hba
      obtain rfl := Option.some.inj (hw.symm.trans hw')
      exact .inl ⟨_, Function.update_self .., hfirst, rfl, rfl, fun hne ↦ absurd hhandle hne⟩
    · rw [Function.update_of_ne hba]
      exact .inl ⟨w, hw, hfirst, rfl, rfl, fun _ ↦ rfl⟩
  | resumed c a w' _ hw' hhandle _ _ _ hawaiters hsuspended harmed =>
    by_cases hba : b = a
    · subst hba
      obtain rfl := Option.some.inj (hw.symm.trans hw')
      exact .inr ⟨⟨c, hhandle, hsuspended⟩, fun fd d hb ↦ (harmed fd d b hb).2 rfl⟩
    · rw [hawaiters, Function.update_of_ne hba]
      exact .inl ⟨w, hw, hfirst, rfl, rfl, fun _ ↦ rfl⟩
  -- only an awaiter that has resumed is destroyed
  | gone a w' hw' hresumed hawaiters _ _ =>
    have hne : b ≠ a := fun hba ↦ by
      subst hba
      obtain rfl := Option.some.inj (hw.symm.trans hw')
      exact hresumed hfirst
    rw [hawaiters, Function.update_of_ne hne]
    exact .inl ⟨w, hw, hfirst, rfl, rfl, fun _ ↦ rfl⟩

/-- What is armed afterwards was armed before, or is a new awaiter on its own descriptor. -/
theorem Effect.armed_cases {act : RuntimeAction} (h : Effect H s act t) {fd : ℕ} {d : Direction}
    {b : ℕ} (hb : t.Armed fd d b) :
    s.Armed fd d b ∨
      ∃ w, t.awaiters b = some w ∧ w.resumed = [] ∧ w.sockfd = fd ∧ w.kind.direction = some d := by
  cases h with
  | quiet _ _ harmed => exact .inl (harmed fd d b hb)
  | born a w _ hresumed _ hawaiters _ harmed =>
    rcases harmed fd d b hb with hold | ⟨rfl, hfd, hd⟩
    · exact .inl hold
    · exact .inr ⟨w, by rw [hawaiters, Function.update_self], hresumed, hfd, hd⟩
  | awaited _ _ _ _ _ _ _ _ harmed => exact .inl (harmed fd d b hb)
  | resumed _ _ _ _ _ _ _ _ _ _ _ harmed => exact .inl (harmed fd d b hb).1
  | gone _ _ _ _ _ _ harmed => exact .inl (harmed fd d b hb)

/-! ### What every lawful run keeps -/

theorem slotInv_init : (machine H).init.SlotInv where
  coupled _ := .inl ⟨rfl, rfl⟩
  owned fd d _ h := absurd ((FdTable.func_entry_empty fd d).symm.trans h) (by simp)

theorem SlotInv.step (h : s.SlotInv) {act : RuntimeAction} (hlaw : s.Lawful H act)
    (ht : step H s act = some t) : t.SlotInv := by
  have heffect := h.effect hlaw ht
  refine ⟨coupled_step h.coupled ht, fun fd d b hb ↦ ?_⟩
  rcases heffect.armed_cases hb with hold | hnew
  · obtain ⟨w, hw, hfirst, hfd, hd⟩ := h.owned fd d b hold
    rcases heffect.pending_cases hw hfirst with ⟨w', hw', hfirst', hfd', hkind', -⟩ | ⟨-, hfree⟩
    · exact ⟨w', hw', hfirst', hfd'.trans hfd, hkind' ▸ hd⟩
    · exact absurd hb (hfree fd d)
  · exact hnew

/-- **The invariant of the coroutines**: a suspended coroutine is suspended on an awaiter that will
resume it and has not yet; an awaiter that was not awaited has resumed nothing. -/
structure CoroutineInv (s : Runtime) : Prop where
  suspended : ∀ c a, s.suspended c = some a →
    ∃ w, s.awaiters a = some w ∧ w.handle = some c ∧ w.resumed = []
  unawaited : ∀ a w, s.awaiters a = some w → w.handle = none → w.resumed = []

theorem coroutineInv_init : (machine H).init.CoroutineInv where
  suspended _ _ h := absurd h (by simp [machine])
  unawaited _ _ h := absurd h (by simp [machine])

/-- A coroutine that is suspended afterwards was so before, or has just awaited. -/
theorem Effect.suspended_cases {act : RuntimeAction} (h : Effect H s act t) {c b : ℕ}
    (hb : t.suspended c = some b) :
    s.suspended c = some b ∨ ∃ w, s.awaiters b = some w ∧ w.handle = none ∧
      t.awaiters b = some { w with handle := some c } := by
  cases h with
  | quiet _ hsuspended _ => exact .inl (hsuspended ▸ hb)
  | born _ _ _ _ _ _ hsuspended _ => exact .inl (hsuspended ▸ hb)
  | awaited c' a w hw hhandle _ hawaiters hsuspended _ =>
    rw [hsuspended, Function.update_apply] at hb
    split at hb
    · rename_i hcc
      obtain rfl := Option.some.inj hb
      exact .inr ⟨w, hw, hhandle, by rw [hawaiters, Function.update_self, hcc]⟩
    · exact .inl hb
  | resumed c' _ _ _ _ _ _ _ _ _ hsuspended _ =>
    rw [hsuspended, Function.update_apply] at hb
    split at hb
    · exact absurd hb (by simp)
    · exact .inl hb
  | gone _ _ _ _ _ hsuspended _ => exact .inl (hsuspended ▸ hb)

theorem CoroutineInv.step (h : s.CoroutineInv) {act : RuntimeAction} (heffect : Effect H s act t) :
    t.CoroutineInv where
  suspended c b hb := by
    rcases heffect.suspended_cases hb with hold | ⟨w, hw, hhandle, hw'⟩
    · obtain ⟨w, hw, hc, hfirst⟩ := h.suspended c b hold
      rcases heffect.pending_cases hw hfirst with
        ⟨w', hw', hfirst', -, -, hhandle'⟩ | ⟨⟨c', hc', hsuspended⟩, -⟩
      · exact ⟨w', hw', (hhandle' (by simp [hc])).trans hc, hfirst'⟩
      · -- the awaiter has resumed this very coroutine
        obtain rfl := Option.some.inj (hc.symm.trans hc')
        rw [hsuspended, Function.update_self] at hb
        exact absurd hb (by simp)
    · exact ⟨_, hw', rfl, h.unawaited b w hw hhandle⟩
  unawaited b v hv hnone := by
    rcases heffect.awaiter_cases hv with
      hold | ⟨hresumed, -⟩ | ⟨c, w, -, rfl⟩ | ⟨c, w, -, hc, -, hsame, -⟩
    · exact h.unawaited b v hold hnone
    · exact hresumed
    · exact absurd hnone (by simp)
    · rw [hsame.2.2, hc] at hnone
      exact absurd hnone (by simp)

/-! ### What the condition on expiries adds -/

/-- An awaiter that was awaited and has not resumed has its coroutine suspended on it. -/
def WaitInv (s : Runtime) : Prop :=
  ∀ a w c, s.awaiters a = some w → w.handle = some c → w.resumed = [] → s.suspended c = some a

/-- A resumption that `FiresPending` allows is the first of its awaiter. -/
theorem FiresPending.first {act : RuntimeAction} (hfires : s.FiresPending H act) {a : ℕ}
    {w : Awaiter} (hw : s.awaiters a = some w) (hcause : w.resumed = [] ∨ s.Fires H act a) :
    w.resumed = [] :=
  hcause.elim id fun hf ↦ by
    obtain ⟨w', hw', hfirst⟩ := hfires a hf
    exact Option.some.inj (hw'.symm.trans hw) ▸ hfirst

theorem WaitInv.step (h : s.WaitInv) {act : RuntimeAction} (hfires : s.FiresPending H act)
    (heffect : Effect H s act t) : t.WaitInv := by
  intro b v c' hv hc' hfirst
  cases heffect with
  | quiet hawaiters hsuspended _ =>
    rw [hsuspended]
    exact h b v c' (hawaiters ▸ hv) hc' hfirst
  | born a w _ _ hhandle hawaiters hsuspended _ =>
    rw [hawaiters, Function.update_apply] at hv
    rw [hsuspended]
    split at hv
    · obtain rfl := Option.some.inj hv
      exact absurd (hhandle.symm.trans hc') (by simp)
    · exact h b v c' hv hc' hfirst
  | awaited c a w _ _ hrunning hawaiters hsuspended _ =>
    rw [hawaiters, Function.update_apply] at hv
    rw [hsuspended]
    split at hv
    · rename_i hba
      obtain rfl := Option.some.inj hv
      obtain rfl : c = c' := Option.some.inj hc'
      rw [Function.update_self, hba]
    · have hold := h b v c' hv hc' hfirst
      -- a running coroutine is suspended on nothing
      have hne : c' ≠ c := fun hcc ↦ by simp [hcc, hrunning] at hold
      rwa [Function.update_of_ne hne]
  | resumed c a w w' hw hhandle hcause _ hresumed hawaiters hsuspended _ =>
    rw [hawaiters, Function.update_apply] at hv
    rw [hsuspended]
    split at hv
    · obtain rfl := Option.some.inj hv
      exact absurd (hresumed.symm.trans hfirst) (by simp)
    · rename_i hba
      have hold := h b v c' hv hc' hfirst
      -- the resumption is the first, so until now `c` was suspended on `a` and on nothing else
      have hself := h a w c hw hhandle (hfires.first hw hcause)
      have hne : c' ≠ c := fun hcc ↦ by
        rw [hcc, hself] at hold
        exact hba (Option.some.inj hold).symm
      rwa [Function.update_of_ne hne]
  | gone a w _ _ hawaiters hsuspended _ =>
    rw [hawaiters, Function.update_apply] at hv
    rw [hsuspended]
    split at hv
    · exact absurd hv (by simp)
    · exact h b v c' hv hc' hfirst

/-- A destroyed awaiter is called only when a timer is popped. -/
theorem dangling_step {act : RuntimeAction} (ht : step H s act = some t)
    (halive : ∀ a, s.Fires H act a → s.awaiters a ≠ none) : t.dangling = s.dangling := by
  cases act with
  | construct a ctor =>
    rw [step] at ht
    obtain ⟨kind, sockfd, timed, fds, -, hcases⟩ :=
      construct_cases (Option.ite_none_right_eq_some.1 ht).2
    rcases hcases with ⟨deadline, -, rfl⟩ | ⟨-, when₁, when₂, rfl⟩
    · cases deadline <;> rfl
    · rfl
  | await c a =>
    obtain ⟨w, -, -, -, rfl⟩ := await_cases ht
    rfl
  | destroy a =>
    obtain ⟨w, -, rfl⟩ := Option.map_eq_some_iff.1 ht
    rfl
  | cancelRead fd => exact Option.some.inj ht ▸ rfl
  | cancelWrite fd => exact Option.some.inj ht ▸ rfl
  | cancelFdall fd => exact Option.some.inj ht ▸ rfl
  | dispatch fd d err outcome =>
    obtain ⟨a, w, -, -, -, hev⟩ := dispatch_cases ht
    rcases onFileEvent_cases hev with ⟨-, rfl⟩ | rfl | ⟨result, fds, -, rfl⟩ <;> rfl
  | expire now =>
    obtain ⟨due, timers, hdue, ⟨hnone, -⟩ | ⟨w, -, rfl⟩⟩ := expire_cases ht
    · exact absurd hnone (halive due.func ⟨due, timers, hdue, rfl⟩)
    · rfl

theorem ResumesInPlace.step (h : s.ResumesInPlace) (hwait : s.WaitInv) {act : RuntimeAction}
    (hfires : s.FiresPending H act) (ht : step H s act = some t) (heffect : Effect H s act t) :
    t.ResumesInPlace := by
  refine ⟨(dangling_step ht fun a ha ↦ ?_).trans h.defined, fun b v hv x hx ↦ ?_⟩
  · obtain ⟨w, hw, -⟩ := hfires a ha
    simp [hw]
  rcases heffect.awaiter_cases hv with
    hold | ⟨hresumed, -⟩ | ⟨c, w, hw, rfl⟩ | ⟨c, w, hw, hc, hcause, -, hresumed⟩
  · exact h.inPlace b v hold x hx
  · exact absurd hx (by simp [hresumed])
  · exact h.inPlace b w hw x hx
  · have hfirst := hfires.first hw hcause
    rw [hresumed, hfirst, List.nil_append, List.mem_singleton] at hx
    rw [hx]
    exact hwait b w c hw hc hfirst

theorem RecvsOnce.step (h : s.RecvsOnce) {act : RuntimeAction} (hfires : s.FiresPendingRecv H act)
    (ht : step H s act = some t) (heffect : Effect H s act t) : t.RecvsOnce := by
  refine ⟨(dangling_step ht fun a ha ↦ ?_).trans h.defined, fun b v hv hrecv ↦ ?_⟩
  · obtain ⟨w, hw, -⟩ := hfires a ha
    simp [hw]
  rcases heffect.awaiter_cases hv with
    hold | ⟨hresumed, -⟩ | ⟨c, w, hw, rfl⟩ | ⟨c, w, hw, -, hcause, hsame, hresumed⟩
  · exact h.once b v hold hrecv
  · simp [hresumed]
  · exact h.once b w hw hrecv
  · have hrecv' : w.IsTimedRecv := ⟨hsame.1 ▸ hrecv.1, hsame.2.1 ▸ hrecv.2⟩
    have hfirst : w.resumed = [] := hcause.elim id fun hf ↦ by
      obtain ⟨w', hw', hpending⟩ := hfires b hf
      obtain rfl := Option.some.inj (hw'.symm.trans hw)
      exact hpending hrecv'
    rw [hresumed, hfirst]
    exact Nat.le_refl 1

/-! ### What an expiry leaves behind -/

/-- The awaiter whose timer is popped has one resumption more afterwards. -/
theorem resumed_of_fires {act : RuntimeAction} (ht : step H s act = some t) {a : ℕ} {w : Awaiter}
    (hfires : s.Fires H act a) (hw : s.awaiters a = some w) :
    ∃ w', t.awaiters a = some w' ∧ w'.kind = w.kind ∧ w'.timed = w.timed ∧
      w'.resumed = w.resumed ++ [w.handle.bind s.suspended] := by
  cases act with
  | expire now =>
    obtain ⟨due, timers, hdue, rfl⟩ := hfires
    obtain ⟨due', timers', hdue', hcases⟩ := expire_cases ht
    obtain ⟨rfl, rfl⟩ := Prod.mk.inj (Option.some.inj (hdue.symm.trans hdue'))
    rcases hcases with ⟨hnone, -⟩ | ⟨w', hw', rfl⟩
    · exact absurd (hw.symm.trans hnone) (by simp)
    · obtain rfl := Option.some.inj (hw.symm.trans hw')
      obtain ⟨hkind, htimed, hhandle, hresumed⟩ := onTimeEvent_same w
      refine ⟨_, Function.update_self .., hkind, htimed, ?_⟩
      dsimp only
      rw [hresumed, hhandle]
  | _ => exact hfires.elim

/-- An expiry that leaves the behaviour defined finds its awaiter alive. -/
theorem alive_of_fires {act : RuntimeAction} (ht : step H s act = some t)
    (hdefined : t.dangling = false) {a : ℕ} (hfires : s.Fires H act a) :
    ∃ w, s.awaiters a = some w := by
  cases act with
  | expire now =>
    obtain ⟨due, timers, hdue, rfl⟩ := hfires
    obtain ⟨due', timers', hdue', hcases⟩ := expire_cases ht
    obtain ⟨rfl, rfl⟩ := Prod.mk.inj (Option.some.inj (hdue.symm.trans hdue'))
    rcases hcases with ⟨-, rfl⟩ | ⟨w, hw, -⟩
    · exact absurd hdefined (by simp)
    · exact ⟨w, hw⟩
  | _ => exact hfires.elim

/-- An expiry that finds a timed `recv` awaiter completed makes it resume twice. -/
theorem RecvsOnce.firesPendingRecv (h : t.RecvsOnce) {act : RuntimeAction}
    (ht : Runtime.step H s act = some t) : s.FiresPendingRecv H act := by
  intro a hfires
  obtain ⟨w, hw⟩ := alive_of_fires ht h.defined hfires
  refine ⟨w, hw, fun hrecv ↦ ?_⟩
  obtain ⟨w', hw', hkind, htimed, hresumed⟩ := resumed_of_fires ht hfires hw
  have hlen := h.once a w' hw' ⟨hkind ▸ hrecv.1, htimed ▸ hrecv.2⟩
  rw [hresumed, List.length_append, List.length_singleton] at hlen
  exact List.length_eq_zero_iff.1 (by omega)

/-- An expiry that finds its awaiter completed finds its coroutine elsewhere. -/
theorem ResumesInPlace.firesPending (h : t.ResumesInPlace) (hs : s.CoroutineInv)
    {act : RuntimeAction} (ht : Runtime.step H s act = some t) : s.FiresPending H act := by
  intro a hfires
  obtain ⟨w, hw⟩ := alive_of_fires ht h.defined hfires
  refine ⟨w, hw, ?_⟩
  obtain ⟨w', hw', -, -, hresumed⟩ := resumed_of_fires ht hfires hw
  have hplace := h.inPlace a w' hw' (w.handle.bind s.suspended) (by rw [hresumed]; simp)
  obtain ⟨c, -, hc⟩ := Option.bind_eq_some_iff.1 hplace
  obtain ⟨w'', hw'', -, hfirst⟩ := hs.suspended c a hc
  obtain rfl := Option.some.inj (hw.symm.trans hw'')
  exact hfirst

end Runtime

/-! ### The loop with its turns -/

namespace EventLoop

/-- The action calls a handler of the awaiter at `a`. -/
def Calls (H : TimerHeap ℕ) (s : EventLoop) (act : LoopAction) (a : ℕ) : Prop :=
  (∃ l, s.found act = some l ∧ l.func = a) ∨
    ∃ now, act = .expire now ∧ s.run.Fires H (.expire now) a

/-- **A lawful step** of the loop: an awaiter has been awaited before the loop calls it, and is not
destroyed before it has resumed its coroutine. -/
structure Lawful (H : TimerHeap ℕ) (s : EventLoop) (act : LoopAction) : Prop where
  awaited : ∀ a w, s.Calls H act a → s.run.awaiters a = some w → w.handle ≠ none
  completed : ∀ a w, act = .code (.destroy a) → s.run.awaiters a = some w → w.resumed ≠ []

/-- A timer that is popped finds its awaiter alive and, if that is a timed `recv` awaiter, not
resumed yet. -/
def FiresPendingRecv (H : TimerHeap ℕ) (s : EventLoop) (act : LoopAction) : Prop :=
  ∀ now, act = .expire now → s.run.FiresPendingRecv H (.expire now)

/-- A timer that is popped finds its awaiter alive and not resumed yet. -/
def FiresPending (H : TimerHeap ℕ) (s : EventLoop) (act : LoopAction) : Prop :=
  ∀ now, act = .expire now → s.run.FiresPending H (.expire now)

variable {H : TimerHeap ℕ} {s t : EventLoop} {act : LoopAction} {r : RuntimeAction}

/-! ### The conditions at single steps -/

theorem Lawful.code (h : ∀ a, r ≠ .destroy a) : s.Lawful H (.code r) := by
  refine ⟨fun _ _ hcalls ↦ ?_, fun a _ hact ↦ absurd (LoopAction.code.inj hact) (h a)⟩
  rcases hcalls with ⟨l, hl, -⟩ | ⟨now, hact, -⟩
  · exact absurd hl (by simp [found])
  · cases hact

theorem Lawful.destroy {a : ℕ} {w : Awaiter} (hw : s.run.awaiters a = some w)
    (hdone : w.resumed ≠ []) : s.Lawful H (.code (.destroy a)) := by
  refine ⟨fun _ _ hcalls ↦ ?_, fun a' w' hact hw' ↦ ?_⟩
  · rcases hcalls with ⟨l, hl, -⟩ | ⟨now, hact, -⟩
    · exact absurd hl (by simp [found])
    · cases hact
  · cases hact
    exact Option.some.inj (hw.symm.trans hw') ▸ hdone

theorem Lawful.call {l : Look} {w : Awaiter} (hl : s.found act = some l)
    (hw : s.run.awaiters l.func = some w) (hhandle : w.handle ≠ none) : s.Lawful H act := by
  refine ⟨fun a w' hcalls hw' ↦ ?_, fun a _ hact ↦ ?_⟩
  · rcases hcalls with ⟨l', hl', rfl⟩ | ⟨now, rfl, -⟩
    · obtain rfl := Option.some.inj (hl.symm.trans hl')
      exact Option.some.inj (hw.symm.trans hw') ▸ hhandle
    · exact absurd hl (by simp [found])
  · rw [hact] at hl
    exact absurd hl (by simp [found])

theorem Lawful.expire {now : Int} {due : EsTime ℕ} {timers : TimerQueue ℕ} {w : Awaiter}
    (hdue : s.run.timers.expire H now = some (due, timers))
    (hw : s.run.awaiters due.func = some w) (hhandle : w.handle ≠ none) :
    s.Lawful H (.expire now) := by
  refine ⟨fun a w' hcalls hw' ↦ ?_, fun _ _ hact ↦ by cases hact⟩
  rcases hcalls with ⟨l, hl, -⟩ | ⟨now', hnow, due', timers', hdue', rfl⟩
  · exact absurd hl (by simp [found])
  · cases hnow
    obtain ⟨rfl, -⟩ := Prod.mk.inj (Option.some.inj (hdue.symm.trans hdue'))
    exact Option.some.inj (hw.symm.trans hw') ▸ hhandle

theorem FiresPending.code : s.FiresPending H (.code r) := fun _ h ↦ by cases h

theorem FiresPending.event {fd : ℕ} {events : UInt32} {soError : ℕ} {outcome : HandlerOutcome} :
    s.FiresPending H (.event fd events soError outcome) := fun _ h ↦ by cases h

theorem FiresPending.next {outcome : HandlerOutcome} : s.FiresPending H (.next outcome) :=
  fun _ h ↦ by cases h

theorem FiresPending.expire {now : Int} {due : EsTime ℕ} {timers : TimerQueue ℕ} {w : Awaiter}
    (hdue : s.run.timers.expire H now = some (due, timers))
    (hw : s.run.awaiters due.func = some w) (hfirst : w.resumed = []) :
    s.FiresPending H (.expire now) := by
  rintro now' hnow a ⟨due', timers', hdue', rfl⟩
  cases hnow
  obtain ⟨rfl, -⟩ := Prod.mk.inj (Option.some.inj (hdue.symm.trans hdue'))
  exact ⟨w, hw, hfirst⟩

theorem KeepsReference.of_idle (h : s.todo = []) : s.KeepsReference H act := by
  rintro - p hp
  rw [h] at hp
  exact absurd hp (by simp)

theorem KeepsReference.of_le {u : Runtime} (hu : Runtime.step H s.run r = some u)
    (hlen : u.fds.fds.length ≤ s.cap) : s.KeepsReference H (.code r) := by
  rintro ⟨r', u', hact, hu', hlt⟩
  cases hact
  obtain rfl := Option.some.inj (hu.symm.trans hu')
  exact absurd hlt (Nat.not_lt.2 hlen)

theorem KeepsReference.next {outcome : HandlerOutcome} : s.KeepsReference H (.next outcome) := by
  rintro ⟨_, _, hact, -⟩
  cases hact

/-! ### Steps of the runtime -/

theorem Lawful.performs (h : s.Lawful H act) (hr : s.Performs act r) : s.run.Lawful H r := by
  cases hr with
  | code hcode =>
    refine ⟨fun a w hcalls ↦ ?_, fun a w hact ↦ h.completed a w (congrArg _ hact)⟩
    cases r with
    | dispatch => exact absurd hcode (by simp [RuntimeAction.isCode])
    | expire => exact absurd hcode (by simp [RuntimeAction.isCode])
    | _ => exact hcalls.elim
  | @dispatch _ l fd outcome hfound harmed =>
    refine ⟨fun a w hcalls ↦ h.awaited a w (.inl ⟨l, hfound, ?_⟩), fun _ _ hact ↦ by cases hact⟩
    exact Option.some.inj (harmed.symm.trans hcalls)
  | @expire now =>
    exact ⟨fun a w hcalls ↦ h.awaited a w (.inr ⟨now, rfl, hcalls⟩), fun _ _ hact ↦ by cases hact⟩

/-- Only an expiry pops a timer. -/
theorem Performs.expire_of_fires (hr : s.Performs act r) {a : ℕ} (hfires : s.run.Fires H r a) :
    ∃ now, act = .expire now ∧ r = .expire now := by
  cases hr with
  | code hcode =>
    cases r with
    | expire => exact absurd hcode (by simp [RuntimeAction.isCode])
    | _ => exact hfires.elim
  | dispatch => exact hfires.elim
  | @expire now => exact ⟨now, rfl, rfl⟩

theorem FiresPendingRecv.performs (h : s.FiresPendingRecv H act) (hr : s.Performs act r) :
    s.run.FiresPendingRecv H r := by
  intro a hfires
  obtain ⟨now, hact, rfl⟩ := hr.expire_of_fires hfires
  exact h now hact a hfires

theorem FiresPending.performs (h : s.FiresPending H act) (hr : s.Performs act r) :
    s.run.FiresPending H r := by
  intro a hfires
  obtain ⟨now, hact, rfl⟩ := hr.expire_of_fires hfires
  exact h now hact a hfires

theorem step_expire {now : Int} (ht : step H s (.expire now) = some t) :
    Runtime.step H s.run (.expire now) = some t.run := by
  obtain ⟨-, ht⟩ := Option.ite_none_right_eq_some.1 ht
  obtain ⟨r, hr, rfl⟩ := Option.map_eq_some_iff.1 ht
  exact hr

/-- What a lawful run that keeps its reference has in all its states. -/
structure Inv (s : EventLoop) : Prop where
  current : s.Current
  slots : s.run.SlotInv
  coroutines : s.run.CoroutineInv

/-- **A lawful step** does nothing to the runtime, or is a lawful step of it, with its effect. -/
theorem Inv.performs (h : s.Inv) (hlaw : s.Lawful H act) (ht : step H s act = some t) :
    t.run = s.run ∨ ∃ r, s.Performs act r ∧ Runtime.step H s.run r = some t.run ∧
      s.run.Lawful H r ∧ Runtime.Effect H s.run r t.run := by
  rcases h.current.step_cases ht with hsame | ⟨r, hr, hstep⟩
  · exact .inl hsame
  · have hlaw' := hlaw.performs hr
    exact .inr ⟨r, hr, hstep, hlaw', h.slots.effect hlaw' hstep⟩

theorem inv_init : (machine H).init.Inv :=
  ⟨current_init, Runtime.slotInv_init (H := H), Runtime.coroutineInv_init (H := H)⟩

theorem Inv.step (h : s.Inv) (hkeeps : s.KeepsReference H act) (hlaw : s.Lawful H act)
    (ht : step H s act = some t) : t.Inv := by
  refine ⟨h.current.step hkeeps ht, ?_, ?_⟩
  · rcases h.performs hlaw ht with hsame | ⟨r, -, hstep, hlaw', -⟩
    · exact hsame ▸ h.slots
    · exact h.slots.step hlaw' hstep
  · rcases h.performs hlaw ht with hsame | ⟨r, -, -, -, heffect⟩
    · exact hsame ▸ h.coroutines
    · exact h.coroutines.step heffect

theorem recvsOnce_step (h : s.Inv) (hlaw : s.Lawful H act) (hfires : s.FiresPendingRecv H act)
    (ht : step H s act = some t) (honce : s.run.RecvsOnce) : t.run.RecvsOnce := by
  rcases h.performs hlaw ht with hsame | ⟨r, hr, hstep, -, heffect⟩
  · exact hsame ▸ honce
  · exact honce.step (hfires.performs hr) hstep heffect

theorem resumesInPlace_step (h : s.Inv) (hlaw : s.Lawful H act) (hfires : s.FiresPending H act)
    (ht : step H s act = some t) (hplace : s.run.WaitInv ∧ s.run.ResumesInPlace) :
    t.run.WaitInv ∧ t.run.ResumesInPlace := by
  rcases h.performs hlaw ht with hsame | ⟨r, hr, hstep, -, heffect⟩
  · exact hsame ▸ hplace
  · have hpending := hfires.performs hr
    exact ⟨hplace.1.step hpending heffect, hplace.2.step hplace.1 hpending hstep heffect⟩

theorem throughout_inv {as : List LoopAction}
    (hkeeps : (machine H).StepsMeet (KeepsReference H) as)
    (hlaw : (machine H).StepsMeet (Lawful H) as) : (machine H).Throughout Inv as :=
  Machine.throughout_of_stepsMeet inv_init
    (fun _ _ _ ht hG h ↦ h.step hG.1 hG.2 ht) (hkeeps.and hlaw)

end EventLoop

/-- **How often an awaiter resumes.** In a lawful run in which the entries do not move under a
handler that is still to be looked at: no timed `recv` awaiter resumes its coroutine twice exactly
when no timer of such an awaiter is popped after the awaiter has completed; and every awaiter
resumes its coroutine only while suspended on that awaiter exactly when no timer at all is popped
after its awaiter has completed. Timers of awaiters that were destroyed count in both. -/
theorem resumes_once_iff (H : TimerHeap ℕ) (as : List LoopAction)
    (hlaw : (EventLoop.machine H).StepsMeet (EventLoop.Lawful H) as)
    (hkeeps : (EventLoop.machine H).StepsMeet (EventLoop.KeepsReference H) as) :
    ((EventLoop.machine H).Throughout (fun s ↦ s.run.RecvsOnce) as ↔
      (EventLoop.machine H).StepsMeet (EventLoop.FiresPendingRecv H) as) ∧
    ((EventLoop.machine H).Throughout (fun s ↦ s.run.ResumesInPlace) as ↔
      (EventLoop.machine H).StepsMeet (EventLoop.FiresPending H) as) := by
  refine ⟨⟨?_, fun hfires ↦ ?_⟩, ⟨fun hplace ↦ ?_, fun hfires ↦ ?_⟩⟩
  · refine Machine.stepsMeet_of_throughout (M := EventLoop.machine H) fun s act t ht _ honce ↦ ?_
    rintro now rfl
    exact honce.firesPendingRecv (EventLoop.step_expire ht)
  · have hinv : (EventLoop.machine H).Throughout (fun s ↦ s.Inv ∧ s.run.RecvsOnce) as :=
      Machine.throughout_of_stepsMeet
        ⟨EventLoop.inv_init, rfl, fun _ _ h ↦ absurd h (by simp [EventLoop.machine])⟩
        (fun _ _ _ ht hG h ↦ ⟨h.1.step hG.1.1 hG.1.2 ht,
          EventLoop.recvsOnce_step h.1 hG.1.2 hG.2 ht h.2⟩)
        ((hkeeps.and hlaw).and hfires)
    exact hinv.mono fun _ h ↦ h.2
  · refine Machine.stepsMeet_of_throughout (M := EventLoop.machine H) (fun s act t ht hs h ↦ ?_)
      ((EventLoop.throughout_inv hkeeps hlaw).and hplace)
    rintro now rfl
    exact h.2.firesPending hs.1.coroutines (EventLoop.step_expire ht)
  · have hinv : (EventLoop.machine H).Throughout
        (fun s ↦ s.Inv ∧ s.run.WaitInv ∧ s.run.ResumesInPlace) as :=
      Machine.throughout_of_stepsMeet
        ⟨EventLoop.inv_init, fun _ _ _ h ↦ absurd h (by simp [EventLoop.machine]), rfl,
          fun _ _ h ↦ absurd h (by simp [EventLoop.machine])⟩
        (fun _ _ _ ht hG h ↦ ⟨h.1.step hG.1.1 hG.1.2 ht,
          EventLoop.resumesInPlace_step h.1 hG.1.2 hG.2 ht h.2⟩)
        ((hkeeps.and hlaw).and hfires)
    exact hinv.mono fun _ h ↦ h.2.2

/-- A timed `recv_lazy` and a `send_lazy` of two coroutines on one descriptor, both called for one
event; between the calls the second coroutine goes on to a `recv_request`, whose timer is popped. -/
theorem resumes_once_recv_twice :
    (EventLoop.machine (HeapOps.sorting _)).Throughout (fun s ↦ s.run.ResumesInPlace)
      [.code (.construct 1 (.recvLazy 5 (some 10))), .code (.await 0 1),
        .code (.construct 2 (.sendLazy 5 none)), .code (.await 1 2),
        .event 5 (epollIn ||| epollOut) 0 (.finished none), .code (.destroy 2),
        .code (.construct 2 (.recvRequest 7 (some 20))), .code (.await 1 2),
        .next (.finished (some 4)), .code (.destroy 1), .expire 20, .code (.destroy 2)] := by
  refine (resumes_once_iff (HeapOps.sorting _) _ ?_ ?_).2.2 ?_
  · exact .cons rfl (.code nofun) <| .cons rfl (.code nofun) <| .cons rfl (.code nofun) <|
      .cons rfl (.code nofun) <| .cons rfl (.call (l := ⟨2, .write, none, [(.read, none)]⟩) rfl rfl
        (by decide)) <| .cons rfl (.destroy rfl (by decide)) <| .cons rfl (.code nofun) <|
      .cons rfl (.code nofun) <|
      .cons rfl (.call (l := ⟨1, .read, none, []⟩) rfl rfl (by decide)) <|
      .cons rfl (.destroy rfl (by decide)) <| .cons rfl (.expire rfl rfl (by decide)) <|
      .cons rfl (.destroy rfl (by decide)) trivial
  · exact .cons rfl (.of_idle rfl) <| .cons rfl (.of_idle rfl) <| .cons rfl (.of_idle rfl) <|
      .cons rfl (.of_idle rfl) <| .cons rfl (.of_idle rfl) <|
      .cons rfl (.of_le rfl (by decide)) <| .cons rfl (.of_le rfl (by decide)) <|
      .cons rfl (.of_le rfl (by decide)) <| .cons rfl .next <| .cons rfl (.of_idle rfl) <|
      .cons rfl (.of_idle rfl) <| .cons rfl (.of_idle rfl) trivial
  · exact .cons rfl .code <| .cons rfl .code <| .cons rfl .code <| .cons rfl .code <|
      .cons rfl .event <| .cons rfl .code <| .cons rfl .code <| .cons rfl .code <|
      .cons rfl .next <| .cons rfl .code <| .cons rfl (.expire rfl rfl rfl) <|
      .cons rfl .code trivial

namespace EventLoop

/-- A `recv_request` is kept as a named local while its coroutine goes on to a `send_lazy`, and its
timer is popped. -/
def keptRequest : List LoopAction :=
  [.code (.construct 1 (.recvRequest 5 (some 10))), .code (.await 0 1),
    .event 5 epollIn 0 (.finished (some 100)), .code (.construct 2 (.sendLazy 5 none)),
    .code (.await 0 2), .expire 10]

/-- A timed `recv_lazy` and a `send_lazy` wait for one descriptor, and both are called for an event.
The coroutine of the `send_lazy` goes on to wait for descriptor 256 in between, and that of the
`recv_lazy` to another `send_lazy`. A second event follows, and no timer is popped. -/
def movedReader : List LoopAction :=
  [.code (.construct 1 (.recvLazy 5 (some 10))), .code (.await 0 1),
    .code (.construct 2 (.sendLazy 5 none)), .code (.await 1 2),
    .event 5 (epollIn ||| epollOut) 0 (.finished none),
    .code (.construct 3 (.recvLazy 256 none)), .code (.await 1 3),
    .next (.finished (some 4)), .code (.construct 4 (.sendLazy 5 none)), .code (.await 0 4),
    .event 5 epollIn 0 (.finished (some 4))]

theorem lawful_keptRequest :
    (machine (HeapOps.sorting _)).StepsMeet (Lawful (HeapOps.sorting _)) keptRequest :=
  .cons rfl (.code nofun) <| .cons rfl (.code nofun) <|
    .cons rfl (.call (l := ⟨1, .read, none, []⟩) rfl rfl (by decide)) <|
    .cons rfl (.code nofun) <| .cons rfl (.code nofun) <|
    .cons rfl (.expire rfl rfl (by decide)) trivial

theorem keepsReference_keptRequest :
    (machine (HeapOps.sorting _)).StepsMeet (KeepsReference (HeapOps.sorting _)) keptRequest :=
  .cons rfl (.of_idle rfl) <| .cons rfl (.of_idle rfl) <| .cons rfl (.of_idle rfl) <|
    .cons rfl (.of_idle rfl) <| .cons rfl (.of_idle rfl) <| .cons rfl (.of_idle rfl) trivial

-- the table has 257 entries by then
set_option maxRecDepth 4000

theorem lawful_movedReader :
    (machine (HeapOps.sorting _)).StepsMeet (Lawful (HeapOps.sorting _)) movedReader :=
  .cons rfl (.code nofun) <| .cons rfl (.code nofun) <| .cons rfl (.code nofun) <|
    .cons rfl (.code nofun) <|
    .cons rfl (.call (l := ⟨2, .write, none, [(.read, none)]⟩) rfl rfl (by decide)) <|
    .cons rfl (.code nofun) <| .cons rfl (.code nofun) <|
    .cons rfl (.call (l := ⟨1, .read, none, []⟩) rfl rfl (by decide)) <|
    .cons rfl (.code nofun) <| .cons rfl (.code nofun) <|
    .cons rfl (.call (l := ⟨1, .read, none, []⟩) rfl rfl (by decide)) trivial

theorem firesPending_movedReader :
    (machine (HeapOps.sorting _)).StepsMeet (FiresPending (HeapOps.sorting _)) movedReader :=
  .cons rfl .code <| .cons rfl .code <| .cons rfl .code <| .cons rfl .code <|
    .cons rfl .event <| .cons rfl .code <| .cons rfl .code <| .cons rfl .next <|
    .cons rfl .code <| .cons rfl .code <| .cons rfl .event trivial

theorem run_movedReader : ∃ t w, (machine (HeapOps.sorting _)).run movedReader = some t ∧
    t.run.awaiters 1 = some w ∧ w.IsTimedRecv ∧ w.resumed = [some 1, some 4] :=
  ⟨_, _, rfl, rfl, ⟨rfl, rfl⟩, rfl⟩

end EventLoop

open EventLoop

/-- A `recv_request` kept as a named local while its coroutine goes on to a `send_lazy`: the timer
is popped while the coroutine is suspended on the `send_lazy`, and resumes it there. And a
`recv_lazy` that is called through a reference to the old storage stays armed in the new one: the
next event resumes it again, with no timer popped. -/
theorem recv_request_resumes_send_lazy :
    (∃ t w, (machine (HeapOps.sorting _)).run keptRequest = some t ∧
      (machine (HeapOps.sorting _)).StepsMeet (Lawful (HeapOps.sorting _)) keptRequest ∧
      (machine (HeapOps.sorting _)).StepsMeet (KeepsReference (HeapOps.sorting _)) keptRequest ∧
      t.run.awaiters 1 = some w ∧ w.IsTimedRecv ∧ w.resumed = [some 1, some 2] ∧
      ¬ t.run.RecvsOnce) ∧
    ∃ t w, (machine (HeapOps.sorting _)).run movedReader = some t ∧
      (machine (HeapOps.sorting _)).StepsMeet (Lawful (HeapOps.sorting _)) movedReader ∧
      (machine (HeapOps.sorting _)).StepsMeet (FiresPending (HeapOps.sorting _)) movedReader ∧
      t.run.awaiters 1 = some w ∧ w.IsTimedRecv ∧ w.resumed = [some 1, some 4] ∧
      ¬ t.run.RecvsOnce := by
  refine ⟨⟨_, _, rfl, lawful_keptRequest, keepsReference_keptRequest, rfl, ⟨rfl, rfl⟩, rfl,
    fun honce ↦ absurd (honce.once 1 _ rfl ⟨rfl, rfl⟩) (by decide)⟩, ?_⟩
  obtain ⟨t, w, hrun, hw, hrecv, hresumed⟩ := run_movedReader
  refine ⟨t, w, hrun, lawful_movedReader, firesPending_movedReader, hw, hrecv, hresumed,
    fun honce ↦ ?_⟩
  have hlen := honce.once 1 w hw hrecv
  rw [hresumed] at hlen
  exact absurd hlen (by decide)

end Nsio
