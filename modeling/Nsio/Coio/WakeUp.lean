import Nsio.Coio.AcceptLoop
import Nsio.Coio.CtlFailures
import Nsio.Coio.ResumeOnce

/-!
# What wakes a suspended coroutine

`await_ready` is always false: whatever an awaiter's constructor has found out, the coroutine is
suspended. What wakes it is a slot of the descriptor table or a pending timer. This module says for
which constructor calls one of the two is there, from the suspension until the awaiter resumes the
coroutine.

## The timed awaiters

`AwaiterCtor.Registers` is a condition on the arguments and on the replies of `::connect` alone. It
fails for a `timeout` without a positive duration, and for a `connect` without one whose loop does
not end with `EINPROGRESS`. When it holds, the source stays for as long as nothing else takes it:
`Undisturbed` says that nobody cancels the awaiter's descriptor or timer, and that no other awaiter
is for the same direction of the same descriptor. The argument is a frame argument: a step
that does not resume the coroutine leaves the awaiter's slot and its timers (`Held.of_frame`).

## Accept

The accept awaiter has no timer. Its handler writes itself into the slot when `::accept` has nothing
more, after it may have resumed the coroutine many times. It keeps the coroutine awake exactly
when each accept of the coroutine is at the address of the one before (`AcceptLoop.SameAddress`):
otherwise it overwrites the slot of an awaiter that is alive with itself, a dead one.
-/

namespace Nsio

/-! ### What an awaiter is for -/

/-- The slot an awaiter waits in. -/
def Awaiter.target (w : Awaiter) : Option (ℕ × Direction) := w.kind.direction.map (w.sockfd, ·)

/-- The slot a constructor waits in. -/
def AwaiterCtor.target : AwaiterCtor → Option (ℕ × Direction)
  | .timeout _ => none
  | .connect sockfd _ replies =>
    if connectWaits replies = some true then some (sockfd, .write) else none
  | .recvLazy sockfd _ | .recvRequest sockfd _ => some (sockfd, .read)
  | .sendLazy sockfd _ => some (sockfd, .write)

/-- **The constructor calls that leave a wake-up source**: a `timeout` needs a positive duration,
and a `connect` a positive timeout or `EINPROGRESS` as the last reply. -/
def AwaiterCtor.Registers : AwaiterCtor → Prop
  | .timeout deadline => deadline.isSome
  | .connect _ deadline replies => deadline.isSome ∨ connectWaits replies ≠ some false
  | .recvLazy _ _ | .recvRequest _ _ | .sendLazy _ _ => True

namespace Runtime

/-- A source that can wake the coroutine suspended on the awaiter at `a`. -/
def Wakes (s : Runtime) (a : ℕ) (w : Awaiter) : Prop :=
  (∃ fd d, w.target = some (fd, d) ∧ s.Armed fd d a) ∨ ∃ x ∈ s.timers.timers, x.func = a

/-- **While the coroutine `c` is suspended on the awaiter at `a`**, the table holds the awaiter as a
handler of a descriptor whose mask includes its direction, or there is a pending timer for it. -/
def Awake (c a : ℕ) (s : Runtime) : Prop :=
  s.suspended c = some a → ∃ w, s.awaiters a = some w ∧
    ((∃ fd d, w.target = some (fd, d) ∧ s.Armed fd d a ∧
        (s.fds.entry fd).event &&& d.mask ≠ 0) ∨
      ∃ x ∈ s.timers.timers, x.func = a)

/-- **Nothing takes the sources of the awaiter at `a`**: until it is destroyed, no other awaiter
that is constructed or called is for its slot, and no cancellation is for its descriptor or
timer. -/
structure Undisturbed (H : TimerHeap ℕ) (a : ℕ) (s : Runtime) (act : RuntimeAction) : Prop where
  constructed : ∀ w b ctor x, s.awaiters a = some w → act = .construct b ctor →
    ctor.target = some x → w.target ≠ some x
  called : ∀ w b w' x, s.awaiters a = some w → s.Calls H act b → b ≠ a → s.awaiters b = some w' →
    w'.target = some x → w.target ≠ some x
  cancelled : ∀ w fd d, s.awaiters a = some w → w.target = some (fd, d) →
    act ≠ .cancelRead fd ∧ act ≠ .cancelWrite fd ∧ act ≠ .cancelFdall fd
  alive : act ≠ .destroy a
  timers : ∀ b w', act = .destroy b → s.awaiters b = some w' →
    ∀ x ∈ s.timers.timers, x.func = a → x.id ≠ w'.timerId

variable {H : TimerHeap ℕ} {s t : Runtime} {a c : ℕ}

/-! ### What a constructor leaves -/

/-- What a constructor does to the loop. -/
structure Constructed (s : Runtime) (a : ℕ) (ctor : AwaiterCtor) (t : Runtime) : Prop where
  suspended : t.suspended = s.suspended
  fds : t.fds = match ctor.target with
    | some (fd, d) => (s.fds.waitFd d.mask fd (some a) true).1
    | none => s.fds
  awaiter : ∃ w, w.handle = none ∧ t.awaiters = Function.update s.awaiters a (some w) ∧
    ∀ x, ctor.target = some x → w.target = some x
  timers : ∃ new, t.timers.timers.Perm (new ++ s.timers.timers) ∧ (∀ x ∈ new, x.func = a) ∧
    (new = [] ↔ ctor.delays = 0)

/-- The constructors that call `delay_call` at most once. -/
theorem Constructed.of_base {ctor : AwaiterCtor} {w : Awaiter} {deadline : Option Int}
    {fds : FdTable ℕ}
    (hfds : fds = match ctor.target with
      | some (fd, d) => (s.fds.waitFd d.mask fd (some a) true).1
      | none => s.fds)
    (hhandle : w.handle = none) (htarget : ∀ x, ctor.target = some x → w.target = some x)
    (hdelays : ctor.delays = if deadline.isSome then 1 else 0) :
    s.Constructed a ctor ({ s with fds := fds }.baseCtor H a w deadline) := by
  cases deadline with
  | none => exact ⟨rfl, hfds, ⟨w, hhandle, rfl, htarget⟩, [], List.Perm.refl _, by simp,
      by simp [hdelays]⟩
  | some when =>
    refine ⟨rfl, hfds, ?_, [_], TimerQueue.timers_delayCall when a, by simp, by simp [hdelays]⟩
    exact ⟨{ w with timerId := (s.timers.delayCall H when a).2 }, hhandle, rfl, htarget⟩

theorem constructed {ctor : AwaiterCtor} (ht : s.construct H a ctor = some t) :
    s.Constructed a ctor t := by
  cases ctor with
  | timeout deadline =>
    obtain rfl := Option.some.inj ht
    exact .of_base rfl rfl (fun x hx ↦ absurd hx (by simp [AwaiterCtor.target])) rfl
  -- `connect` waits only when its last reply was `EINPROGRESS`
  | connect sockfd deadline replies =>
    obtain ⟨waits, hwaits, rfl⟩ := Option.map_eq_some_iff.1 ht
    cases waits with
    | false =>
      have hnone : (AwaiterCtor.connect sockfd deadline replies).target = none := by
        rw [AwaiterCtor.target, hwaits]
        rfl
      exact .of_base (by rw [hnone]) rfl (fun x hx ↦ absurd (hnone.symm.trans hx) (by simp)) rfl
    | true =>
      have hsome : (AwaiterCtor.connect sockfd deadline replies).target =
          some (sockfd, .write) := by
        rw [AwaiterCtor.target, hwaits]
        rfl
      dsimp only
      rw [if_pos rfl, baseCtor_fds s a _ deadline fun fds ↦ fds.waitWrite sockfd (some a) true]
      exact .of_base (by rw [hsome]; rfl) rfl (fun x hx ↦ hsome.symm.trans hx) rfl
  | recvLazy sockfd deadline =>
    obtain rfl := Option.some.inj ht
    rw [baseCtor_fds s a _ deadline fun fds ↦ fds.waitRead sockfd (some a) true]
    exact .of_base rfl rfl (fun x hx ↦ hx) rfl
  | recvRequest sockfd deadline =>
    obtain rfl := Option.some.inj ht
    rw [baseCtor_fds s a _ deadline fun fds ↦ fds.waitRead sockfd (some a) true]
    exact .of_base rfl rfl (fun x hx ↦ hx) rfl
  | sendLazy sockfd deadlines =>
    -- the second `delay_call` overwrites the identifier of the first timer
    rcases deadlines with - | ⟨when₁, when₂⟩
    · obtain rfl := Option.some.inj ht
      exact ⟨rfl, rfl, ⟨_, rfl, rfl, fun x hx ↦ hx⟩, [], List.Perm.refl _, by simp,
        by simp [AwaiterCtor.delays]⟩
    · obtain rfl := Option.some.inj ht
      refine ⟨rfl, rfl, ⟨_, rfl, Function.update_idem .., fun x hx ↦ hx⟩, [_, _],
        (TimerQueue.timers_delayCall when₂ a).trans ((TimerQueue.timers_delayCall when₁ a).cons _),
        by simp, by simp [AwaiterCtor.delays]⟩

/-- A constructor that returns registers when it waits or calls `delay_call`. -/
theorem registers_iff {ctor : AwaiterCtor} (ht : s.construct H a ctor = some t) :
    ctor.Registers ↔ ctor.target ≠ none ∨ ctor.delays ≠ 0 := by
  cases ctor with
  | timeout deadline => cases deadline <;> simp [AwaiterCtor.Registers, AwaiterCtor.target,
      AwaiterCtor.delays]
  | connect sockfd deadline replies =>
    obtain ⟨waits, hwaits, -⟩ := Option.map_eq_some_iff.1 ht
    cases deadline <;> cases waits <;> simp [AwaiterCtor.Registers, AwaiterCtor.target,
      AwaiterCtor.delays, hwaits]
  | recvLazy sockfd deadline => simp [AwaiterCtor.Registers, AwaiterCtor.target]
  | recvRequest sockfd deadline => simp [AwaiterCtor.Registers, AwaiterCtor.target]
  | sendLazy sockfd deadlines => simp [AwaiterCtor.Registers, AwaiterCtor.target]

theorem Constructed.wakes {ctor : AwaiterCtor} (h : s.Constructed a ctor t)
    (hreg : ctor.target ≠ none ∨ ctor.delays ≠ 0) :
    ∃ w, t.awaiters a = some w ∧ t.Wakes a w := by
  obtain ⟨w, -, hawaiters, htarget⟩ := h.awaiter
  refine ⟨w, by rw [hawaiters, Function.update_self], ?_⟩
  rcases hreg with hslot | htimer
  · obtain ⟨⟨fd, d⟩, hfd⟩ := Option.ne_none_iff_exists'.1 hslot
    refine .inl ⟨fd, d, htarget _ hfd, ?_⟩
    have hfds := h.fds
    rw [hfd] at hfds
    dsimp only at hfds
    rw [Armed, hfds, FdTable.entry_waitFd_self, EsFile.func_wait, EsFile.func_setFunc_self]
  · obtain ⟨new, hperm, hnew, hnil⟩ := h.timers
    obtain ⟨x, hx⟩ := List.exists_mem_of_ne_nil new fun hempty ↦ htimer (hnil.1 hempty)
    exact .inr ⟨x, hperm.mem_iff.2 (List.mem_append_left _ hx), hnew x hx⟩

/-! ### The frame -/

/-- The awaiter at `a` is alive and awaited by `c`, and wakes it if it is suspended there. -/
structure Held (c a : ℕ) (s : Runtime) : Prop where
  coupled : s.fds.AllCoupled
  awaiter : ∃ w, s.awaiters a = some w ∧ w.handle = some c ∧ (s.suspended c = some a → s.Wakes a w)

theorem Held.awake (h : s.Held c a) : s.Awake c a := by
  intro hsusp
  obtain ⟨w, hw, -, hwakes⟩ := h.awaiter
  refine ⟨w, hw, ?_⟩
  rcases hwakes hsusp with ⟨fd, d, htarget, harmed⟩ | htimer
  · exact .inl ⟨fd, d, htarget, harmed, (h.coupled fd).event_of_func harmed⟩
  · exact .inr htimer

/-- **The frame**: a step that leaves the awaiter's slot and timers leaves it a source. -/
theorem Held.of_frame {w : Awaiter} (h : s.Held c a) (hw : s.awaiters a = some w)
    (hcoupled : t.fds.AllCoupled) (hawaiter : t.awaiters a = some w)
    (hsusp : t.suspended c = some a → s.suspended c = some a)
    (harmed : ∀ fd d, w.target = some (fd, d) → s.Armed fd d a → t.Armed fd d a)
    (htimers : ∀ x ∈ s.timers.timers, x.func = a → x ∈ t.timers.timers) : t.Held c a := by
  obtain ⟨w', hw', hhandle, hwakes⟩ := h.awaiter
  obtain rfl := Option.some.inj (hw.symm.trans hw')
  refine ⟨hcoupled, w, hawaiter, hhandle, fun ht ↦ ?_⟩
  rcases hwakes (hsusp ht) with ⟨fd, d, htarget, ha⟩ | ⟨x, hx, hfunc⟩
  · exact .inl ⟨fd, d, htarget, harmed fd d htarget ha⟩
  · exact .inr ⟨x, htimers x hx hfunc, hfunc⟩

/-- The awaiter itself resumes its coroutine. -/
theorem held_of_resume {fds : FdTable ℕ} {timers : TimerQueue ℕ} {w : Awaiter}
    (hhandle : w.handle = some c) (hcoupled : fds.AllCoupled) :
    ({ s with fds := fds, timers := timers }.resume a w).Held c a := by
  refine ⟨hcoupled, _, Function.update_self .., hhandle, fun hsusp ↦ ?_⟩
  rw [suspended_resume hhandle, Function.update_self] at hsusp
  exact absurd hsusp (by simp)

theorem suspended_of_resume {b : ℕ} {w : Awaiter} (h : (s.resume b w).suspended c = some a) :
    s.suspended c = some a := by
  rcases hhandle : w.handle with - | c'
  · simpa only [resume, hhandle] using h
  · rw [suspended_resume hhandle, Function.update_apply] at h
    split at h
    · exact absurd h (by simp)
    · exact h

/-- Another awaiter resumes its coroutine. -/
theorem Held.of_other_resume {w w' : Awaiter} {b : ℕ} {fds : FdTable ℕ} {timers : TimerQueue ℕ}
    (h : s.Held c a) (hw : s.awaiters a = some w) (hne : b ≠ a) (hcoupled : fds.AllCoupled)
    (harmed : ∀ fd d, w.target = some (fd, d) → s.Armed fd d a → (fds.entry fd).func d = some a)
    (htimers : ∀ x ∈ s.timers.timers, x.func = a → x ∈ timers.timers) :
    ({ s with fds := fds, timers := timers }.resume b w').Held c a := by
  refine h.of_frame hw hcoupled ?_ (fun hs ↦ ?_) harmed htimers
  · show Function.update s.awaiters b _ a = some w
    rw [Function.update_of_ne (Ne.symm hne)]
    exact hw
  · exact suspended_of_resume (s := { s with fds := fds, timers := timers }) (b := b) hs

theorem armed_setSlot_of_ne {fd j : ℕ} {d d' : Direction} {f : Option ℕ}
    (hlt : fd < s.fds.fds.length) (hne : ¬ (j = fd ∧ d' = d)) (h : s.Armed j d' a) :
    (s.setSlot fd d f).Armed j d' a := by
  rw [Armed, setSlot, FdTable.func_put_setFunc hlt, if_neg hne]
  exact h

/-- The expiry of another awaiter cancels another slot. -/
theorem armed_cancelOwn_of_ne (h : s.fds.AllCoupled) {w : Awaiter} {j : ℕ} {d' : Direction}
    (hne : w.target ≠ some (j, d')) (harmed : s.Armed j d' a) :
    ((w.cancelOwn s.fds).entry j).func d' = some a := by
  rw [Awaiter.cancelOwn_eq]
  rcases hd : w.kind.direction with - | d
  · exact harmed
  · have hslot : ¬ (j = w.sockfd ∧ d' = d) := by
      rintro ⟨rfl, rfl⟩
      exact hne (by rw [Awaiter.target, hd]; rfl)
    dsimp only
    rw [h.func_cancelEv_of_ne hslot]
    exact harmed

/-- What is not the timer that is popped stays. -/
theorem mem_of_expire {now : Int} {due : EsTime ℕ} {timers : TimerQueue ℕ}
    (hdue : s.timers.expire H now = some (due, timers)) {x : EsTime ℕ}
    (hx : x ∈ s.timers.timers) (hne : x.func ≠ due.func) : x ∈ timers.timers := by
  rcases List.mem_cons.1 ((TimerQueue.timers_expire hdue).1.mem_iff.1 hx) with rfl | hx
  · exact absurd rfl hne
  · exact hx

/-- What does not have the id that is cancelled stays. -/
theorem mem_of_cancelDelay {id : Int32} {x : EsTime ℕ} (hx : x ∈ s.timers.timers)
    (hne : x.id ≠ id) : x ∈ (s.timers.cancelDelay H id).timers := by
  rcases List.mem_append.1 ((s.timers.timers_perm_cancelDelay id).mem_iff.1 hx) with hfind | hx
  · have := List.find?_some (Option.mem_toList.1 hfind)
    exact absurd (by simpa using this) hne
  · exact hx

/-! ### One step -/

theorem Held.construct (h : s.Held c a) {b : ℕ} {ctor : AwaiterCtor}
    (hu : s.Undisturbed H a (.construct b ctor)) (hfree : s.awaiters b = none)
    (ht : s.construct H b ctor = some t) : t.Held c a := by
  obtain ⟨w, hw, -, -⟩ := h.awaiter
  have hne : a ≠ b := by
    rintro rfl
    exact absurd (hw.symm.trans hfree) (by simp)
  have hcon := constructed ht
  obtain ⟨w', -, hawaiters, -⟩ := hcon.awaiter
  refine h.of_frame hw (coupled_construct h.coupled ht) ?_ (fun hs ↦ hcon.suspended ▸ hs)
    (fun fd d htarget harmed ↦ ?_) fun x hx _ ↦ ?_
  · rw [hawaiters, Function.update_of_ne hne]
    exact hw
  · have hfds := hcon.fds
    rcases hslot : ctor.target with - | ⟨fd', d'⟩
    · rw [hslot] at hfds
      rw [Armed, hfds]
      exact harmed
    · rw [hslot] at hfds
      dsimp only at hfds
      rw [Armed, hfds, FdTable.func_waitFd_of_ne]
      · exact harmed
      -- another awaiter for the same slot would be a disturbance
      · rintro ⟨rfl, rfl⟩
        exact hu.constructed w b ctor _ hw rfl hslot htarget
  · obtain ⟨new, hperm, -⟩ := hcon.timers
    exact hperm.mem_iff.2 (List.mem_append_right _ hx)

theorem Held.await (h : s.Held c a) {c' b : ℕ} (ht : s.await c' b = some t) : t.Held c a := by
  obtain ⟨w, hw, hhandle, -⟩ := h.awaiter
  obtain ⟨w', hw', hfresh, hrunning, rfl⟩ := await_cases ht
  have hne : a ≠ b := by
    rintro rfl
    obtain rfl := Option.some.inj (hw.symm.trans hw')
    exact absurd (hhandle.symm.trans hfresh) (by simp)
  refine h.of_frame hw h.coupled ?_ (fun hs ↦ ?_) (fun _ _ _ harmed ↦ harmed) fun _ hx _ ↦ hx
  · show Function.update s.awaiters b _ a = some w
    rw [Function.update_of_ne hne]
    exact hw
  · dsimp only at hs
    rw [Function.update_apply] at hs
    split at hs
    · exact absurd (Option.some.inj hs).symm hne
    · exact hs

theorem Held.destroy (h : s.Held c a) {b : ℕ} (hu : s.Undisturbed H a (.destroy b))
    (ht : s.destroy H b = some t) : t.Held c a := by
  obtain ⟨w, hw, -, -⟩ := h.awaiter
  obtain ⟨w', hw', rfl⟩ := Option.map_eq_some_iff.1 ht
  have hne : a ≠ b := fun hab ↦ hu.alive (hab ▸ rfl)
  refine h.of_frame hw h.coupled ?_ (fun hs ↦ hs) (fun _ _ _ harmed ↦ harmed) fun x hx hfunc ↦ ?_
  · show Function.update s.awaiters b none a = some w
    rw [Function.update_of_ne hne]
    exact hw
  · dsimp only
    split
    · exact mem_of_cancelDelay hx (hu.timers b w' rfl hw' x hx hfunc)
    · exact hx

/-- A cancellation of another descriptor. -/
theorem Held.cancelEv (h : s.Held c a) {fd : ℕ} {ev : UInt32}
    (hev : ev = epollIn ∨ ev = epollOut ∨ ev = epollIn ||| epollOut)
    (hne : ∀ w d, s.awaiters a = some w → w.target ≠ some (fd, d)) :
    Held c a { s with fds := (s.fds.cancelEv fd ev true).1 } := by
  obtain ⟨w, hw, -, -⟩ := h.awaiter
  refine h.of_frame hw (h.coupled.cancelEv hev fd) hw (fun hs ↦ hs) (fun j d htarget harmed ↦ ?_)
    fun _ hx _ ↦ hx
  have hj : j ≠ fd := by
    rintro rfl
    exact hne w d hw htarget
  show ((s.fds.cancelEv fd ev true).1.entry j).func d = some a
  rw [FdTable.entry_cancelEv_of_ne hj]
  exact harmed

theorem Held.dispatch (h : s.Held c a) {fd : ℕ} {d : Direction} {err : Option ℕ}
    {outcome : HandlerOutcome} (hu : s.Undisturbed H a (.dispatch fd d err outcome))
    (ht : s.dispatch fd d err outcome = some t) : t.Held c a := by
  have hcoupled : t.fds.AllCoupled := coupled_dispatch h.coupled ht
  obtain ⟨w, hw, hhandle, -⟩ := h.awaiter
  obtain ⟨b, w', hb, hw', hin, hev⟩ := dispatch_cases ht
  have hlen : fd < (s.setSlot fd d none).fds.fds.length :=
    Nat.lt_of_lt_of_eq hin.1 List.length_set.symm
  by_cases hba : b = a
  · subst hba
    obtain rfl := Option.some.inj (hw.symm.trans hw')
    -- its own event: `timeout` has no slot, the others write themselves back or resume
    rcases onFileEvent_cases hev with ⟨hkind, rfl⟩ | rfl | ⟨result, fds, -, rfl⟩
    · refine h.of_frame hw hcoupled hw (fun hs ↦ hs) (fun j d' htarget _ ↦ ?_) fun _ hx _ ↦ hx
      rw [Awaiter.target, hkind] at htarget
      exact absurd htarget (by simp [AwaiterKind.direction])
    · refine h.of_frame hw hcoupled hw (fun hs ↦ hs) (fun j d' _ harmed ↦ ?_) fun _ hx _ ↦ hx
      by_cases hslot : j = fd ∧ d' = d
      · rw [Armed, setSlot, FdTable.func_put_setFunc hlen, if_pos hslot]
      · exact armed_setSlot_of_ne hlen hslot (armed_setSlot_of_ne hin.1 hslot harmed)
    · exact held_of_resume (w := { w with result := result }) hhandle hcoupled
  · -- the slot of the other awaiter is not the one of this awaiter
    have hother : ∀ j d', s.Armed j d' a → ¬ (j = fd ∧ d' = d) := by
      rintro j d' harmed ⟨rfl, rfl⟩
      exact hba (Option.some.inj (Eq.trans (Eq.symm hb) harmed))
    rcases onFileEvent_cases hev with ⟨-, rfl⟩ | rfl | ⟨result, fds, hfds, rfl⟩
    · exact h.of_frame hw hcoupled hw (fun hs ↦ hs)
        (fun j d' _ harmed ↦ armed_setSlot_of_ne hin.1 (hother j d' harmed) harmed) fun _ hx _ ↦ hx
    · exact h.of_frame hw hcoupled hw (fun hs ↦ hs)
        (fun j d' _ harmed ↦ armed_setSlot_of_ne hlen (hother j d' harmed)
          (armed_setSlot_of_ne hin.1 (hother j d' harmed) harmed)) fun _ hx _ ↦ hx
    · refine h.of_other_resume hw hba hcoupled (fun j d' htarget harmed ↦ ?_) fun _ hx _ ↦ hx
      have hclear : (s.setSlot fd d none).Armed j d' a :=
        armed_setSlot_of_ne hin.1 (hother j d' harmed) harmed
      rcases hfds with rfl | ⟨hkind, rfl⟩
      · exact hclear
      -- a failed `connect` cancels the writer of its own descriptor
      · have hslot : ¬ (j = w'.sockfd ∧ d' = .write) := by
          rintro ⟨rfl, rfl⟩
          refine hu.called w b w' _ hw hb hba hw' ?_ htarget
          rw [Awaiter.target, hkind]
          rfl
        have hclearcoupled : (s.setSlot fd d none).fds.AllCoupled :=
          coupled_setSlot h.coupled hin fun hnone ↦ absurd rfl hnone
        exact (hclearcoupled.func_cancelEv_of_ne (d := .write) hslot).trans hclear

theorem Held.expire (h : s.Held c a) {now : Int} (hu : s.Undisturbed H a (.expire now))
    (ht : s.expire H now = some t) : t.Held c a := by
  obtain ⟨w, hw, hhandle, -⟩ := h.awaiter
  obtain ⟨due, timers, hdue, ⟨hdead, rfl⟩ | ⟨w', hw', rfl⟩⟩ := expire_cases ht
  · have hne : a ≠ due.func := by
      rintro rfl
      exact absurd (hw.symm.trans hdead) (by simp)
    exact h.of_frame hw h.coupled hw (fun hs ↦ hs) (fun _ _ _ harmed ↦ harmed)
      fun x hx hfunc ↦ mem_of_expire hdue hx (hfunc ▸ hne)
  · have hcoupled := coupled_cancelOwn h.coupled w'
    by_cases hne : due.func = a
    · obtain rfl := Option.some.inj (hw.symm.trans (hne ▸ hw'))
      rw [hne]
      exact held_of_resume ((onTimeEvent_same w).2.2.1.trans hhandle) hcoupled
    · refine h.of_other_resume hw hne hcoupled (fun j d' htarget harmed ↦ ?_)
        fun x hx hfunc ↦ mem_of_expire hdue hx (hfunc ▸ Ne.symm hne)
      refine armed_cancelOwn_of_ne h.coupled (fun hslot ↦ ?_) harmed
      exact hu.called w due.func w' _ hw ⟨due, timers, hdue, rfl⟩ hne hw' hslot htarget

/-- **An undisturbed step leaves the awaiter a source**, until it resumes its coroutine. -/
theorem Held.step (h : s.Held c a) {act : RuntimeAction} (hu : s.Undisturbed H a act)
    (ht : step H s act = some t) : t.Held c a := by
  have huncancelled : ∀ fd, (act = .cancelRead fd ∨ act = .cancelWrite fd ∨ act = .cancelFdall fd) →
      ∀ w d, s.awaiters a = some w → w.target ≠ some (fd, d) := by
    intro fd hact w d hw htarget
    obtain ⟨hr, hwr, hall⟩ := hu.cancelled w fd d hw htarget
    rcases hact with hact | hact | hact
    · exact hr hact
    · exact hwr hact
    · exact hall hact
  cases act with
  | construct b ctor =>
    rw [Runtime.step] at ht
    obtain ⟨hfree, ht⟩ := Option.ite_none_right_eq_some.1 ht
    exact h.construct hu hfree ht
  | await c' b => exact h.await ht
  | destroy b => exact h.destroy hu ht
  | cancelRead fd =>
    obtain rfl := Option.some.inj ht
    exact h.cancelEv (.inl rfl) (huncancelled fd (.inl rfl))
  | cancelWrite fd =>
    obtain rfl := Option.some.inj ht
    exact h.cancelEv (.inr (.inl rfl)) (huncancelled fd (.inr (.inl rfl)))
  | cancelFdall fd =>
    obtain rfl := Option.some.inj ht
    exact h.cancelEv (.inr (.inr rfl)) (huncancelled fd (.inr (.inr rfl)))
  | dispatch fd d err outcome => exact h.dispatch hu ht
  | expire now => exact h.expire hu ht

/-! ### From the constructor on -/

theorem coupled_of_reachable (h : (machine H).Reachable s) : s.fds.AllCoupled :=
  h.invariant (P := fun s ↦ s.fds.AllCoupled) (fun _ ↦ .inl ⟨rfl, rfl⟩)
    fun _ _ _ ht hs ↦ coupled_step hs ht

/-- The coroutine suspends on an awaiter that wakes it. -/
theorem held_of_await {w : Awaiter} (hcoupled : s.fds.AllCoupled) (hw : s.awaiters a = some w)
    (hwakes : s.Wakes a w) (ht : s.await c a = some t) : t.Held c a := by
  obtain ⟨w', hw', -, -, rfl⟩ := await_cases ht
  obtain rfl := Option.some.inj (hw.symm.trans hw')
  exact ⟨hcoupled, _, Function.update_self .., rfl, fun _ ↦ hwakes⟩

/-- On a fresh loop, an awaiter whose constructor registered nothing has no source. -/
theorem not_awake_of_unregistered {ctor : AwaiterCtor}
    (hs : ({} : Runtime).construct H a ctor = some s) (htarget : ctor.target = none)
    (hdelays : ctor.delays = 0) : ∃ t, s.await c a = some t ∧ ¬ t.Awake c a := by
  have hcon := constructed hs
  obtain ⟨w, hhandle, hawaiters, -⟩ := hcon.awaiter
  have hw : s.awaiters a = some w := by rw [hawaiters, Function.update_self]
  have hrunning : s.suspended c = none := by rw [hcon.suspended]
  refine ⟨_, by rw [Runtime.await, hw]; exact if_pos ⟨hhandle, hrunning⟩, fun hawake ↦ ?_⟩
  obtain ⟨w', -, ⟨fd, d, -, harmed, -⟩ | ⟨x, hx, -⟩⟩ := hawake (Function.update_self ..)
  · have hfds := hcon.fds
    rw [htarget] at hfds
    have hslot : (s.fds.entry fd).func d = some a := harmed
    rw [hfds, FdTable.func_entry_empty] at hslot
    exact absurd hslot (by simp)
  · obtain ⟨new, hperm, -, hnil⟩ := hcon.timers
    rw [hnil.2 hdelays] at hperm
    exact absurd (hperm.mem_iff.1 hx) (by simp [TimerQueue.empty])

/-- **The timed awaiters.** Constructed and awaited in any state of any run, an awaiter has a source
for as long as the coroutine is suspended on it, exactly when its constructor registers. -/
theorem awake_iff_registers (H : TimerHeap ℕ) (a c : ℕ) (ctor : AwaiterCtor) :
    (∀ s s₁ t as, (machine H).Reachable s → Runtime.step H s (.construct a ctor) = some s₁ →
        Runtime.step H s₁ (.await c a) = some t →
        (machine H).StepsMeetFrom (Undisturbed H a) t as →
        (machine H).ThroughoutFrom (Awake c a) t as) ↔ ctor.Registers := by
  constructor
  · intro h
    rcases hs : ({} : Runtime).construct H a ctor with - | s₁
    · -- a constructor that does not return leaves nobody suspended
      cases ctor with
      | timeout deadline => exact absurd hs (by simp [Runtime.construct])
      | connect sockfd deadline replies =>
        exact .inr (by rw [Option.map_eq_none_iff.1 hs]; simp)
      | recvLazy sockfd deadline => trivial
      | recvRequest sockfd deadline => trivial
      | sendLazy sockfd deadlines => trivial
    · by_contra hreg
      rw [registers_iff hs, not_or, not_not, not_not] at hreg
      obtain ⟨t, ht, hasleep⟩ := not_awake_of_unregistered (c := c) hs hreg.1 hreg.2
      exact hasleep (h {} s₁ t [] .init hs ht trivial)
  · intro hreg s s₁ t as hreach hs₁ ht hsteps
    rw [Runtime.step] at hs₁
    have hs₁ := (Option.ite_none_right_eq_some.1 hs₁).2
    obtain ⟨w, hw, hwakes⟩ := (constructed hs₁).wakes ((registers_iff hs₁).1 hreg)
    have hheld : t.Held c a :=
      held_of_await (coupled_construct (coupled_of_reachable hreach) hs₁) hw hwakes ht
    have hthroughout : (machine H).ThroughoutFrom (Held c a) t as :=
      Machine.throughoutFrom_of_stepsMeetFrom (fun _ _ _ ht hu hs ↦ Held.step hs hu ht) hheld hsteps
    exact hthroughout.mono fun _ hs ↦ hs.awake

end Runtime

/-! ### Accept -/

namespace AcceptLoop

variable {γ : Type*} (view : γ → Suspension γ)

/-- **While the coroutine is suspended on accept**, the table holds the awaiter as a reader of a
descriptor whose mask includes reading, or the awaiter's handler is running. -/
def Awake (s : AcceptLoop γ) : Prop :=
  ∀ a k, view s.co = .accept a k →
    s.handler = some a ∨ s.es.func .read = some a ∧ s.es.event &&& epollIn ≠ 0

/-- Where the coroutine comes to through other awaiters. -/
abbrev Wanders : γ → γ → Prop := Relation.ReflTransGen fun c c' ↦ view c = .other c'

/-- The next accept from `c`, if any, is at the address. -/
def NextAt (a : ℕ) (c : γ) : Prop :=
  ∀ c' a' k, Wanders view c c' → view c' = .accept a' k → a' = a

/-- **The discipline.** After a result of an accept, and any number of other awaiters, the next
accept of the coroutine is at the same address. -/
def SameAddress (start : γ) : Prop :=
  ∀ c a k v, Reaches view start c → view c = .accept a k → -1 ≤ v → NextAt view a (k v)

variable {view} {servFd : ℕ} {start : γ} {s t : AcceptLoop γ}

theorem nextAt_self {a : ℕ} {c : γ} {k : Int → γ} (h : view c = .accept a k) :
    NextAt view a c := by
  intro c' a' k' hc' hview'
  rcases Relation.ReflTransGen.cases_head hc' with rfl | ⟨c₁, hc₁, -⟩
  · exact (Suspension.accept.inj (h.symm.trans hview')).1.symm
  · exact absurd (h.symm.trans hc₁) (by simp)

theorem NextAt.eq {a b : ℕ} {c : γ} {k : Int → γ} (h : NextAt view b c)
    (hview : view c = .accept a k) : a = b := h c a k .refl hview

theorem NextAt.wander {a : ℕ} {c c' : γ} (h : NextAt view a c) (hview : view c = .other c') :
    NextAt view a c' :=
  fun c₁ a' k hc₁ hview' ↦ h c₁ a' k (.head hview hc₁) hview'

/-- What refers to an awaiter, the slot or the handler, refers to the next accept of the coroutine,
and the coroutine's own is among them. -/
structure AwakeInv (view : γ → Suspension γ) (start : γ) (s : AcceptLoop γ) : Prop where
  reaches : Reaches view start s.co
  result : ∀ b, -1 ≤ s.result b
  stored : ∀ b, s.es.func .read = some b → NextAt view b s.co ∧ s.es.event &&& epollIn ≠ 0
  handler : ∀ b, s.handler = some b → NextAt view b s.co ∧ s.es.event &&& epollIn ≠ 0
  held : ∀ a k, view s.co = .accept a k → s.handler = some a ∨ s.es.func .read = some a

theorem AwakeInv.awake (h : s.AwakeInv view start) : s.Awake view := by
  intro a k hview
  rcases h.held a k hview with hthis | hstored
  · exact .inl hthis
  · exact .inr ⟨hstored, (h.stored a hstored).2⟩

theorem le_freshResult {result : ℕ → Int} (h : ∀ b, -1 ≤ result b) (c : γ) (b : ℕ) :
    -1 ≤ freshResult view result c b := by
  rcases hview : view c with ⟨a, k⟩ | c' | -
  · rw [freshResult, hview]
    dsimp only
    rw [Function.update_apply]
    split
    · exact Int.le_refl _
    · exact h b
  · rw [freshResult, hview]
    exact h b
  · rw [freshResult, hview]
    exact h b

/-- The coroutine comes to `c`. -/
theorem awakeInv_settle {c : γ} (hc : Reaches view start c) (hresult : ∀ b, -1 ≤ s.result b)
    (hstored : ∀ b, s.es.func .read = some b → NextAt view b c ∧ s.es.event &&& epollIn ≠ 0)
    (hhandler : ∀ b, s.handler = some b → NextAt view b c ∧ s.es.event &&& epollIn ≠ 0) :
    (settle view servFd s c).AwakeInv view start := by
  -- a new accept takes the slot, anything else leaves the entry as it is
  by_cases haccept : ∃ a k, view c = .accept a k
  · obtain ⟨a, k, hview⟩ := haccept
    have hfunc : (settle view servFd s c).es.func .read = some a := func_construct hview _
    have hevent : (settle view servFd s c).es.event &&& epollIn ≠ 0 := by
      show (construct view servFd s.es c).event &&& epollIn ≠ 0
      rw [construct, hview]
      exact s.es.event_wait .read servFd (some a)
    refine ⟨hc, fun b ↦ ?_, fun b hb ↦ ?_, fun b hb ↦ ⟨(hhandler b hb).1, hevent⟩,
      fun a' k' hview' ↦ .inr ?_⟩
    · exact le_freshResult hresult c b
    · obtain rfl := Option.some.inj (hfunc.symm.trans hb)
      exact ⟨nextAt_self hview, hevent⟩
    · obtain ⟨rfl, -⟩ := Suspension.accept.inj (hview.symm.trans hview')
      exact hfunc
  · have hnot : ∀ a k, view c ≠ .accept a k := fun a k hview ↦ haccept ⟨a, k, hview⟩
    have hes : (settle view servFd s c).es = s.es := construct_of_not_accept hnot s.es
    refine ⟨hc, fun b ↦ ?_, fun b hb ↦ ?_, fun b hb ↦ ?_, fun a k hview ↦ absurd hview (hnot a k)⟩
    · exact le_freshResult hresult c b
    · rw [hes] at hb ⊢
      exact hstored b hb
    · rw [hes]
      exact hhandler b hb

theorem awakeInv_init : (machine view servFd start).init.AwakeInv view start :=
  awakeInv_settle .start (fun _ ↦ Int.le_refl _) (fun _ h ↦ absurd h (by simp [EsFile.func]))
    fun _ h ↦ absurd h (by simp)

/-- The handler resumes the coroutine, wherever it is. -/
theorem AwakeInv.complete (h : s.AwakeInv view start) (hd : SameAddress view start) (this : ℕ)
    {v : Int} (hv : -1 ≤ v) : (AcceptLoop.complete view servFd s this v).AwakeInv view start := by
  have hresult : ∀ b, -1 ≤ Function.update s.result this v b := by
    intro b
    rw [Function.update_apply]
    split
    · exact hv
    · exact h.result b
  rcases hview : view s.co with ⟨a, k⟩ | c | -
  · rw [complete_accept hview]
    -- whatever the result, the coroutine comes back to the same address
    have hnext : NextAt view a (k (Function.update s.result this v a)) :=
      hd s.co a k _ h.reaches hview (hresult a)
    refine awakeInv_settle (.result h.reaches hview (hresult a)) hresult (fun b hb ↦ ?_)
      fun b hb ↦ ?_
    · obtain ⟨hb, hevent⟩ := h.stored b hb
      exact ⟨hb.eq hview ▸ hnext, hevent⟩
    · obtain ⟨hb, hevent⟩ := h.handler b hb
      exact ⟨hb.eq hview ▸ hnext, hevent⟩
  · rw [AcceptLoop.complete, resume]
    dsimp only
    rw [hview]
    exact awakeInv_settle (.wake h.reaches hview) hresult
      (fun b hb ↦ ⟨(h.stored b hb).1.wander hview, (h.stored b hb).2⟩)
      fun b hb ↦ ⟨(h.handler b hb).1.wander hview, (h.handler b hb).2⟩
  · rw [AcceptLoop.complete, resume]
    dsimp only
    rw [hview]
    exact ⟨h.reaches, hresult, h.stored, h.handler, h.held⟩

theorem awakeInv_step {act : AcceptAction} (hd : SameAddress view start)
    (ht : step view servFd s act = some t) (h : s.AwakeInv view start) : t.AwakeInv view start := by
  cases act with
  | event =>
    unfold step at ht
    dsimp only at ht
    split at ht
    · rename_i this hnone hslot
      obtain rfl := Option.some.inj ht
      refine ⟨h.reaches, h.result, fun b hb ↦ absurd hb (by simp), fun b hb ↦ ?_,
        fun a k hview ↦ ?_⟩
      · exact h.stored b (hslot.trans hb)
      · rcases h.held a k hview with hthis | hstored
        · exact absurd (hnone.symm.trans hthis) (by simp)
        · exact .inl (hslot.symm.trans hstored)
    · exact absurd ht (by simp)
  | reply r =>
    obtain ⟨this, hthis, rfl⟩ := Option.map_eq_some_iff.1 ht
    have hcalled : (called view s).AwakeInv view start :=
      ⟨h.reaches, h.result, h.stored, h.handler, h.held⟩
    obtain ⟨hnext, hevent⟩ := h.handler this hthis
    -- the handler stores itself, and the coroutine can only be suspended on it
    have hrearm : AwakeInv view start
        { called view s with es := s.es.setFunc .read (some this), handler := none } := by
      refine ⟨h.reaches, h.result, fun b hb ↦ ?_, fun b hb ↦ absurd hb (by simp),
        fun a k hview ↦ .inr ?_⟩
      · dsimp only at hb
        rw [EsFile.func_setFunc_self] at hb
        obtain rfl := Option.some.inj hb
        exact ⟨hnext, hevent⟩
      · dsimp only
        rw [EsFile.func_setFunc_self, hnext.eq hview]
    cases r with
    | eintr => exact hcalled
    | eagain => exact hrearm
    | econnaborted => exact hrearm
    | descriptor fd =>
      refine AwakeInv.complete ?_ hd this (by omega)
      exact ⟨h.reaches, h.result, h.stored, h.handler, h.held⟩
    | failed => exact hcalled.complete hd this (by omega)
  | wake =>
    unfold step at ht
    dsimp only at ht
    split at ht
    · rename_i c hnone hview
      obtain rfl := Option.some.inj ht
      exact awakeInv_settle (.wake h.reaches hview) h.result
        (fun b hb ↦ ⟨(h.stored b hb).1.wander hview, (h.stored b hb).2⟩)
        fun b hb ↦ absurd (hnone.symm.trans hb) (by simp)
    · exact absurd ht (by simp)

/-! ### A coroutine that changes the address -/

/-- While the handler runs for the awaiter at `b`, the coroutine is not suspended on another accept:
the handler would take its slot. -/
theorem eq_of_handler {a b : ℕ} {k : Int → γ}
    (h : ∀ s, (machine view servFd start).Reachable s → s.Awake view)
    (hs : (machine view servFd start).Reachable s) (hthis : s.handler = some b)
    (hview : view s.co = .accept a k) : a = b := by
  have hnext := h _ (hs.step (step_reply hthis .eagain)) a k hview
  rcases hnext with hnone | ⟨hstored, -⟩
  · exact absurd hnone (by simp [onReply])
  · have hb : (s.es.setFunc .read (some b)).func .read = some a := hstored
    rw [EsFile.func_setFunc_self] at hb
    exact (Option.some.inj hb).symm

/-- The handler resumes the coroutine on another awaiter, and runs on. -/
theorem exists_stray {b : ℕ} {c : γ} (hs : (machine view servFd start).Reachable s)
    (hthis : s.handler = some b) (hview : view s.co = .other c) :
    ∃ t, (machine view servFd start).Reachable t ∧ t.co = c ∧ t.handler = some b := by
  refine ⟨_, hs.step (step_reply hthis (.descriptor 0)), ?_⟩
  rw [onReply, AcceptLoop.complete, resume]
  dsimp only
  rw [show view (called view s).co = .other c from hview]
  exact ⟨rfl, hthis⟩

/-- The handler drags the coroutine along, through its other awaiters. -/
theorem exists_dragged {b : ℕ} {c : γ} (hs : (machine view servFd start).Reachable s)
    (hthis : s.handler = some b) (hwanders : Wanders view s.co c) :
    ∃ t, (machine view servFd start).Reachable t ∧ t.co = c ∧ t.handler = some b := by
  induction hwanders with
  | refl => exact ⟨s, hs, rfl, hthis⟩
  | tail _ hother ih =>
    obtain ⟨t, ht, hco, hhandler⟩ := ih
    exact exists_stray ht hhandler (hco ▸ hother)

/-- The coroutine is at `c`; on accept, its awaiter is stored or has its handler running. -/
structure Ready (view : γ → Suspension γ) (c : γ) (s : AcceptLoop γ) : Prop where
  co : s.co = c
  held : ∀ a k, view c = .accept a k →
    s.handler = none ∧ s.es.func .read = some a ∨ s.handler = some a

theorem Ready.exists_working {c : γ} {a : ℕ} {k : Int → γ} {v : Int} (h : s.Ready view c)
    (hs : (machine view servFd start).Reachable s) (hview : view c = .accept a k) (hv : -1 ≤ v) :
    ∃ t, (machine view servFd start).Reachable t ∧ t.Working view (k v) a := by
  have hco : view s.co = .accept a k := h.co ▸ hview
  rcases h.held a k hview with ⟨hnone, hstored⟩ | hthis
  · exact exists_working_of_handler (hs.step (step_event hnone hstored)) rfl hco hv
  · exact exists_working_of_handler hs hthis hco hv

theorem exists_ready {c : γ} (h : ∀ s, (machine view servFd start).Reachable s → s.Awake view)
    (hc : Reaches view start c) :
    ∃ s, (machine view servFd start).Reachable s ∧ s.Ready view c := by
  induction hc with
  | start => exact ⟨_, .init, rfl, fun a k hview ↦ .inl ⟨rfl, func_construct hview _⟩⟩
  | result _ hview hv ih =>
    obtain ⟨s, hs, hready⟩ := ih
    obtain ⟨t, ht, hw⟩ := hready.exists_working hs hview hv
    refine ⟨t, ht, hw.co, fun a k hview ↦ .inr ?_⟩
    rw [← hw.co] at hview
    rw [hw.handler, eq_of_handler h ht hw.handler hview]
  | wake _ hview ih =>
    obtain ⟨s, hs, hready⟩ := ih
    rw [← hready.co] at hview
    rcases hthis : s.handler with - | b
    · exact ⟨_, hs.step (step_wake hthis hview), rfl,
        fun a k hview ↦ .inl ⟨hthis, func_construct hview _⟩⟩
    · obtain ⟨t, ht, hco, hhandler⟩ := exists_stray hs hthis hview
      refine ⟨t, ht, hco, fun a k hview ↦ .inr ?_⟩
      rw [← hco] at hview
      rw [hhandler, eq_of_handler h ht hhandler hview]

theorem sameAddress_of_awake (h : ∀ s, (machine view servFd start).Reachable s → s.Awake view) :
    SameAddress view start := by
  intro c a k v hc hview hv c' a' k' hwanders hview'
  obtain ⟨s, hs, hready⟩ := exists_ready h hc
  obtain ⟨t, ht, hw⟩ := hready.exists_working hs hview hv
  obtain ⟨u, hu, hco, hthis⟩ := exists_dragged ht hw.handler (hw.co.symm ▸ hwanders)
  rw [← hco] at hview'
  exact eq_of_handler h hu hthis hview'

end AcceptLoop

/-- **No suspended coroutine is without a wake-up source**, exactly for these awaiters: a timed one
whose constructor registers, and the accepts of a coroutine that awaits them at one address. -/
theorem wakeUp_iff (H : TimerHeap ℕ) (a c : ℕ) (ctor : AwaiterCtor) {γ : Type*}
    (view : γ → Suspension γ) (servFd : ℕ) (start : γ) :
    ((∀ s s₁ t as, (Runtime.machine H).Reachable s →
        Runtime.step H s (.construct a ctor) = some s₁ →
        Runtime.step H s₁ (.await c a) = some t →
        (Runtime.machine H).StepsMeetFrom (Runtime.Undisturbed H a) t as →
        (Runtime.machine H).ThroughoutFrom (Runtime.Awake c a) t as) ↔ ctor.Registers) ∧
      ((∀ s, (AcceptLoop.machine view servFd start).Reachable s → s.Awake view) ↔
        AcceptLoop.SameAddress view start) := by
  refine ⟨Runtime.awake_iff_registers H a c ctor, AcceptLoop.sameAddress_of_awake,
    fun hd s hs ↦ ?_⟩
  have hinv : s.AwakeInv view start :=
    hs.invariant AcceptLoop.awakeInv_init fun _ _ _ ht h ↦ AcceptLoop.awakeInv_step hd ht h
  exact hinv.awake

namespace AcceptLoop

/-- A coroutine that awaits accept in two places in turn, whose awaiters are at 0 and at 8. -/
def twoPlaces (n : ℕ) : Suspension ℕ := .accept (8 * (n % 2)) fun _ ↦ n + 1

end AcceptLoop

/-- Three coroutines that nothing wakes: one awaits a `timeout` of no duration; one a `connect`
without a timeout for which `::connect` succeeds at once; and one, suspended on its second accept
at 8, is in no slot, because the handler of the first has stored itself again. -/
theorem suspended_without_source :
    (∃ s, (Runtime.machine (HeapOps.sorting _)).run [.construct 1 (.timeout none), .await 0 1] =
        some s ∧ s.suspended 0 = some 1 ∧ ¬ s.Awake 0 1) ∧
    (∃ s, (Runtime.machine (HeapOps.sorting _)).run
          [.construct 1 (.connect 5 none [.established]), .await 0 1] = some s ∧
        s.suspended 0 = some 1 ∧ ¬ s.Awake 0 1) ∧
    ∃ s, (AcceptLoop.machine AcceptLoop.twoPlaces 3 0).run
          [.event, .reply (.descriptor 7), .reply .eagain] = some s ∧
        s.handler = none ∧ s.es.func .read = some 0 ∧ ¬ s.Awake AcceptLoop.twoPlaces := by
  refine ⟨⟨_, rfl, rfl, fun h ↦ ?_⟩, ⟨_, rfl, rfl, fun h ↦ ?_⟩, ⟨_, rfl, rfl, rfl, fun h ↦ ?_⟩⟩
  · obtain ⟨w, -, ⟨fd, d, -, harmed, -⟩ | ⟨x, hx, -⟩⟩ := h rfl
    · exact absurd ((FdTable.func_entry_empty fd d).symm.trans harmed) (by simp)
    · exact (List.not_mem_nil hx).elim
  · obtain ⟨w, -, ⟨fd, d, -, harmed, -⟩ | ⟨x, hx, -⟩⟩ := h rfl
    · exact absurd ((FdTable.func_entry_empty fd d).symm.trans harmed) (by simp)
    · exact (List.not_mem_nil hx).elim
  · rcases h 8 _ rfl with hthis | ⟨hstored, -⟩
    · exact absurd hthis (by decide)
    · exact absurd hstored (by decide)

end Nsio
