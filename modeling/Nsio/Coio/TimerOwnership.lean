import Nsio.Coio.TimedAwaiter

/-!
# Who owns a pending timer

A pending timer holds the address of the awaiter it will call, so it must not outlive the awaiter.
The destructor sees to that by cancelling the one id it has, `_timer_id`. This is enough as long as
every pending timer is the one whose id its awaiter holds (`TimersAgree`), which the awaiters keep,
with one exception: the base constructor of `send_lazy` arms a timer, and `send_lazy` then arms a
second one and forgets the id of the first.

`timersOwned_iff` says that this is the only way to lose a timer. Ids are told apart by their number
while there are fewer than `2 ^ 31` of them.
-/

namespace Nsio

/-! ### Timers and the ids their awaiters hold -/

/-- **The agreement** of the pending timers with the ids the awaiters hold. -/
structure TimersAgree (q : TimerQueue ℕ) (ids : ℕ → Option Int32) : Prop where
  nodup : (q.timers.map EsTime.id).Nodup
  owned : ∀ t ∈ q.timers, ids t.func = some t.id
  pos : ∀ t ∈ q.timers, 0 < t.id.toInt
  le_delays : ∀ a id, ids a = some id → id.toInt ≤ q.delays
  distinct : ∀ a b id, ids a = some id → ids b = some id → 0 < id.toInt → a = b

namespace TimersAgree

variable {H : TimerHeap ℕ} {q q' : TimerQueue ℕ} {ids : ℕ → Option Int32}

/-- An awaiter without a timer. -/
theorem store (h : TimersAgree q ids) {a : ℕ} (hfree : ids a = none) :
    TimersAgree q (Function.update ids a (some (-1))) where
  nodup := h.nodup
  owned t ht := by
    have hne : t.func ≠ a := fun hta ↦ by simpa [hta, hfree] using h.owned t ht
    rw [Function.update_of_ne hne]
    exact h.owned t ht
  pos := h.pos
  le_delays b id hb := by
    rw [Function.update_apply] at hb
    split at hb
    · obtain rfl := Option.some.inj hb
      exact Int.le_trans (by decide) (Int.natCast_nonneg q.delays)
    · exact h.le_delays b id hb
  distinct b c id hb hc hid := by
    have hold : ∀ b, Function.update ids a (some (-1)) b = some id → ids b = some id := by
      intro b hb
      rw [Function.update_apply] at hb
      split at hb
      · obtain rfl := Option.some.inj hb
        exact absurd hid (by decide)
      · exact hb
    exact h.distinct b c id (hold b hb) (hold c hc) hid

/-- An awaiter that arms its timer. -/
theorem arm (h : TimersAgree q ids) {a : ℕ} (hfree : ids a = none) (hfew : q.delays + 1 < 2 ^ 31)
    (when : Int) : TimersAgree (q.delayCall H when a).1
      (Function.update ids a (some (q.delayCall H when a).2)) := by
  set id := (q.delayCall H when a).2 with hiddef
  have hid : id.toInt = q.delays + 1 := TimerQueue.toInt_delayCall hfew when a
  have hperm : (q.delayCall H when a).1.timers.Perm (⟨id, when, a⟩ :: q.timers) :=
    TimerQueue.timers_delayCall when a
  have hdelays : (q.delayCall H when a).1.delays = q.delays + 1 := rfl
  -- the new id is larger than every id that is held
  have hfresh : ∀ b, ids b ≠ some id := fun b hb ↦ by
    have := h.le_delays b id hb
    omega
  constructor
  · rw [(hperm.map EsTime.id).nodup_iff, List.map_cons, List.nodup_cons]
    refine ⟨fun hmem ↦ ?_, h.nodup⟩
    obtain ⟨t, ht, hteq⟩ := List.mem_map.1 hmem
    exact hfresh t.func ((h.owned t ht).trans (congrArg some hteq))
  · intro t ht
    rcases List.mem_cons.1 (hperm.mem_iff.1 ht) with rfl | ht
    · exact Function.update_self ..
    · have hne : t.func ≠ a := fun hta ↦ by simpa [hta, hfree] using h.owned t ht
      rw [Function.update_of_ne hne]
      exact h.owned t ht
  · intro t ht
    rcases List.mem_cons.1 (hperm.mem_iff.1 ht) with rfl | ht
    · dsimp only
      omega
    · exact h.pos t ht
  · intro b id' hb
    rw [Function.update_apply] at hb
    split at hb
    · obtain rfl := Option.some.inj hb
      omega
    · have := h.le_delays b id' hb
      omega
  · intro b c id' hb hc hpos
    rw [Function.update_apply] at hb hc
    split at hb
    · obtain rfl := Option.some.inj hb
      split at hc
      · rename_i hba hca
        rw [hba, hca]
      · exact absurd hc (hfresh c)
    · split at hc
      · obtain rfl := Option.some.inj hc
        exact absurd hb (hfresh b)
      · exact h.distinct b c id' hb hc hpos

/-- A timer that is popped. Its awaiter keeps the id or resets it. -/
theorem pop (h : TimersAgree q ids) {t : EsTime ℕ} (hperm : q.timers.Perm (t :: q'.timers))
    (hdelays : q'.delays = q.delays) {id : Int32} (hid : id = t.id ∨ id = 0) :
    TimersAgree q' (Function.update ids t.func (some id)) := by
  have hnodup := (hperm.map EsTime.id).nodup_iff.1 h.nodup
  rw [List.map_cons, List.nodup_cons] at hnodup
  have hmem : ∀ u ∈ q'.timers, u ∈ q.timers := fun u hu ↦
    hperm.mem_iff.2 (List.mem_cons_of_mem t hu)
  have hheld : ids t.func = some t.id := h.owned t (hperm.mem_iff.2 List.mem_cons_self)
  -- a positive id that is held now was held before
  have hold : ∀ b id', Function.update ids t.func (some id) b = some id' → 0 < id'.toInt →
      ids b = some id' := by
    intro b id' hb hpos
    rw [Function.update_apply] at hb
    split at hb
    · rename_i hbt
      obtain rfl := Option.some.inj hb
      rcases hid with rfl | rfl
      · rw [hbt, hheld]
      · exact absurd hpos (by decide)
    · exact hb
  constructor
  · exact hnodup.2
  · intro u hu
    have hne : u.func ≠ t.func := fun hut ↦ by
      have hu' := h.owned u (hmem u hu)
      rw [hut, hheld] at hu'
      exact hnodup.1 (Option.some.inj hu' ▸ List.mem_map_of_mem hu)
    rw [Function.update_of_ne hne]
    exact h.owned u (hmem u hu)
  · exact fun u hu ↦ h.pos u (hmem u hu)
  · intro b id' hb
    rw [hdelays]
    by_cases hpos : 0 < id'.toInt
    · exact h.le_delays b id' (hold b id' hb hpos)
    · omega
  · exact fun b c id' hb hc hpos ↦ h.distinct b c id' (hold b id' hb hpos) (hold c id' hc hpos) hpos

/-- An awaiter that is destroyed, with the cancellation of its id. -/
theorem destroy (h : TimersAgree q ids) {a : ℕ} {id : Int32} (ha : ids a = some id) :
    TimersAgree (if (0 : Int32) < id then q.cancelDelay H id else q)
      (Function.update ids a none) := by
  set q' := if (0 : Int32) < id then q.cancelDelay H id else q with hq'
  have hdelays : q'.delays = q.delays := by
    rw [hq']
    split
    · exact TimerQueue.delays_cancelDelay id
    · rfl
  -- what is left are timers with other ids
  have hleft : ∃ l, q'.timers.Perm l ∧ l.Sublist q.timers ∧ ∀ t ∈ l, t.id ≠ id := by
    rw [hq']
    split
    · exact ⟨_, TimerQueue.timers_cancelDelay h.nodup id, List.filter_sublist, fun t ht ↦ by
        simpa using (List.mem_filter.1 ht).2⟩
    · rename_i hid
      refine ⟨_, .refl _, .refl _, fun t ht hta ↦ hid ?_⟩
      rw [← hta]
      exact Int32.lt_iff_toInt_lt.2 (h.pos t ht)
  obtain ⟨l, hperm, hsub, hne⟩ := hleft
  have hmem : ∀ t ∈ q'.timers, t ∈ q.timers := fun t ht ↦ hsub.mem (hperm.mem_iff.1 ht)
  have hold : ∀ b id', Function.update ids a none b = some id' → ids b = some id' := by
    intro b id' hb
    rw [Function.update_apply] at hb
    split at hb
    · exact absurd hb (by simp)
    · exact hb
  constructor
  · rw [(hperm.map EsTime.id).nodup_iff]
    exact h.nodup.sublist (hsub.map EsTime.id)
  · intro t ht
    have hta : t.func ≠ a := fun hta ↦ by
      have ht' := h.owned t (hmem t ht)
      rw [hta, ha] at ht'
      exact hne t (hperm.mem_iff.1 ht) (Option.some.inj ht').symm
    rw [Function.update_of_ne hta]
    exact h.owned t (hmem t ht)
  · exact fun t ht ↦ h.pos t (hmem t ht)
  · intro b id' hb
    rw [hdelays]
    exact h.le_delays b id' (hold b id' hb)
  · exact fun b c id' hb hc hpos ↦ h.distinct b c id' (hold b id' hb) (hold c id' hc) hpos

/-- Of one awaiter, at most one timer is pending. -/
theorem length_filter_le_one (h : TimersAgree q ids) {a : ℕ} {id : Int32} (ha : ids a = some id) :
    (q.timers.filter fun t ↦ t.func = a).length ≤ 1 := by
  have heq : (q.timers.filter fun t ↦ t.func = a).map EsTime.id =
      List.replicate (q.timers.filter fun t ↦ t.func = a).length id := by
    refine List.eq_replicate_iff.2 ⟨List.length_map _, fun x hx ↦ ?_⟩
    obtain ⟨t, ht, rfl⟩ := List.mem_map.1 hx
    obtain ⟨ht, hta⟩ := List.mem_filter.1 ht
    have hown := h.owned t ht
    rw [of_decide_eq_true hta, ha] at hown
    exact (Option.some.inj hown).symm
  have hnodup : ((q.timers.filter fun t ↦ t.func = a).map EsTime.id).Nodup :=
    h.nodup.sublist (List.filter_sublist.map EsTime.id)
  rw [heq] at hnodup
  exact List.nodup_replicate.1 hnodup

end TimersAgree

/-! ### Runs -/

/-- An awaiter that is alive has at most one pending timer, and it is the one whose id it holds; no
timer refers to an awaiter that was destroyed, and none has been called. -/
structure Runtime.TimersOwned (s : Runtime) : Prop where
  length_le_one : ∀ a w, s.awaiters a = some w →
    (s.timers.timers.filter fun t ↦ t.func = a).length ≤ 1
  id_eq : ∀ a w, s.awaiters a = some w → ∀ t ∈ s.timers.timers, t.func = a → t.id = w.timerId
  alive : ∀ t ∈ s.timers.timers, s.awaiters t.func ≠ none
  not_dangling : s.dangling = false

/-- The number of calls of `delay_call` an action makes. -/
def RuntimeAction.delays : RuntimeAction → ℕ
  | .construct _ ctor => ctor.delays
  | _ => 0

/-- The construction of a `send_lazy` with a positive timeout. -/
def RuntimeAction.IsTimedSend : RuntimeAction → Prop
  | .construct _ (.sendLazy _ (some _)) => True
  | _ => False

/-- Only a `send_lazy` with a positive timeout calls `delay_call` twice. -/
theorem RuntimeAction.isTimedSend_iff {a : RuntimeAction} : a.IsTimedSend ↔ a.delays = 2 := by
  have hone : ∀ deadline : Option Int, (if deadline.isSome then 1 else 0) ≠ 2 := by
    intro deadline
    split
    · decide
    · decide
  cases a with
  | construct a ctor =>
    cases ctor with
    | sendLazy sockfd deadlines =>
      cases deadlines <;> simp [IsTimedSend, delays, AwaiterCtor.delays]
    | timeout deadline => exact iff_of_false id (hone deadline)
    | connect sockfd deadline replies => exact iff_of_false id (hone deadline)
    | recvLazy sockfd deadline => exact iff_of_false id (hone deadline)
    | recvRequest sockfd deadline => exact iff_of_false id (hone deadline)
  | _ => exact iff_of_false id (by simp [delays])

namespace Runtime

variable {H : TimerHeap ℕ} {s t : Runtime}

/-- The ids the awaiters hold. -/
def timerIds (s : Runtime) (a : ℕ) : Option Int32 := (s.awaiters a).map Awaiter.timerId

theorem timerIds_of_awaiter {a : ℕ} {w : Awaiter} (hw : s.awaiters a = some w) :
    s.timerIds a = some w.timerId := by
  rw [timerIds, hw]
  rfl

theorem timerIds_store (s : Runtime) (a : ℕ) (w : Awaiter) :
    (s.store a w).timerIds = Function.update s.timerIds a (some w.timerId) := by
  funext b
  by_cases hb : b = a
  · subst hb
    simp [timerIds, store]
  · simp [timerIds, store, hb]

theorem timerIds_resume (s : Runtime) (a : ℕ) (w : Awaiter) :
    (s.resume a w).timerIds = Function.update s.timerIds a (some w.timerId) :=
  timerIds_store s a { w with resumed := w.resumed ++ [w.handle.bind s.suspended] }

/-- Storing other fields of an awaiter leaves the ids. -/
theorem update_timerIds {a : ℕ} {w : Awaiter} (hw : s.awaiters a = some w) :
    Function.update s.timerIds a (some w.timerId) = s.timerIds := by
  rw [← timerIds_of_awaiter hw, Function.update_eq_self]

/-- The invariant of a run. -/
def TimerInv (s : Runtime) : Prop := TimersAgree s.timers s.timerIds ∧ s.dangling = false

theorem TimerInv.timersOwned (h : s.TimerInv) : s.TimersOwned where
  length_le_one a w hw := h.1.length_filter_le_one (timerIds_of_awaiter hw)
  id_eq a w hw t ht hta := by
    have := h.1.owned t ht
    rw [hta, timerIds_of_awaiter hw] at this
    exact (Option.some.inj this).symm
  alive t ht hnone := by
    have := h.1.owned t ht
    rw [timerIds, hnone] at this
    exact absurd this (by simp)
  not_dangling := h.2

theorem timerInv_init : (machine H).init.TimerInv :=
  ⟨⟨List.nodup_nil, by simp [machine, TimerQueue.empty], by simp [machine, TimerQueue.empty],
    by simp [machine, timerIds], by simp [machine, timerIds]⟩, rfl⟩

/-- A constructor that calls `delay_call` at most once. -/
theorem TimerInv.construct (h : s.TimerInv) {a : ℕ} {ctor : AwaiterCtor} (ha : s.awaiters a = none)
    (ht : s.construct H a ctor = some t) (hfew : s.timers.delays + ctor.delays < 2 ^ 31)
    (honce : ctor.delays ≠ 2) : t.TimerInv := by
  have hfree : s.timerIds a = none := by rw [timerIds, ha]; rfl
  obtain ⟨kind, sockfd, timed, fds, -, ⟨deadline, hdelays, rfl⟩ | ⟨htwo, -⟩⟩ := construct_cases ht
  · rcases deadline with - | when
    · refine ⟨?_, h.2⟩
      rw [baseCtor, timerIds_store]
      exact h.1.store hfree
    · rw [hdelays] at hfew
      refine ⟨?_, h.2⟩
      rw [baseCtor, armTimer, timerIds_store]
      exact h.1.arm hfree hfew when
  · exact absurd htwo honce

/-- What `on_time_event` leaves in `_timer_id`. -/
theorem timerId_onTimeEvent (w : Awaiter) :
    w.onTimeEvent.timerId = w.timerId ∨ w.onTimeEvent.timerId = 0 := by
  unfold Awaiter.onTimeEvent
  split
  · exact .inr rfl
  · exact .inr rfl
  · exact .inl rfl
  · exact .inl rfl
  · exact .inr rfl

/-- A timer that is due belongs to an awaiter that is alive. -/
theorem TimerInv.expire (h : s.TimerInv) {now : Int} (ht : s.expire H now = some t) :
    t.TimerInv := by
  obtain ⟨due, timers, hdue, hcases⟩ := expire_cases ht
  obtain ⟨hperm, -, hdelays⟩ := TimerQueue.timers_expire hdue
  have hheld : s.timerIds due.func = some due.id :=
    h.1.owned due (hperm.mem_iff.2 List.mem_cons_self)
  rcases hcases with ⟨hnone, -⟩ | ⟨w, hw, rfl⟩
  · rw [timerIds, hnone] at hheld
    exact absurd hheld (by simp)
  · refine ⟨?_, h.2⟩
    rw [timerIds_resume]
    have hid : w.timerId = due.id := Option.some.inj ((timerIds_of_awaiter hw).symm.trans hheld)
    exact h.1.pop hperm hdelays (hid ▸ timerId_onTimeEvent w)

theorem TimerInv.destroy (h : s.TimerInv) {a : ℕ} (ht : s.destroy H a = some t) : t.TimerInv := by
  obtain ⟨w, hw, rfl⟩ := Option.map_eq_some_iff.1 ht
  refine ⟨?_, h.2⟩
  have hids : timerIds { s with awaiters := Function.update s.awaiters a none } =
      Function.update s.timerIds a none := by
    funext b
    by_cases hb : b = a
    · subst hb
      simp [timerIds]
    · simp [timerIds, hb]
  show TimersAgree _ (timerIds { s with awaiters := Function.update s.awaiters a none })
  rw [hids]
  exact h.1.destroy (timerIds_of_awaiter hw)

/-- A delivery touches neither the timers nor the ids. -/
theorem TimerInv.dispatch (h : s.TimerInv) {fd : ℕ} {d : Direction} {err : Option ℕ}
    {outcome : HandlerOutcome} (ht : s.dispatch fd d err outcome = some t) : t.TimerInv := by
  obtain ⟨a, w, -, hw, -, hev⟩ := dispatch_cases ht
  rcases onFileEvent_cases hev with ⟨-, rfl⟩ | rfl | ⟨result, fds, -, rfl⟩
  · exact h
  · exact h
  · refine ⟨?_, h.2⟩
    rw [timerIds_resume]
    show TimersAgree s.timers (Function.update s.timerIds a (some w.timerId))
    rw [update_timerIds hw]
    exact h.1

theorem TimerInv.await (h : s.TimerInv) {c a : ℕ} (ht : s.await c a = some t) : t.TimerInv := by
  obtain ⟨w, hw, -, -, rfl⟩ := await_cases ht
  refine ⟨?_, h.2⟩
  show TimersAgree s.timers (s.store a { w with handle := some c }).timerIds
  rw [timerIds_store, update_timerIds hw]
  exact h.1

/-- **The step lemma**: every step but the construction of a timed `send_lazy` keeps the agreement,
while ids are few. -/
theorem TimerInv.step (h : s.TimerInv) {a : RuntimeAction} (ht : step H s a = some t)
    (hfew : s.timers.delays + a.delays < 2 ^ 31) (ha : ¬ a.IsTimedSend) : t.TimerInv := by
  cases a with
  | construct a ctor =>
    rw [Runtime.step] at ht
    split at ht
    · exact h.construct ‹_› ht hfew fun htwo ↦ ha (RuntimeAction.isTimedSend_iff.2 htwo)
    · exact absurd ht (by simp)
  | await c a => exact h.await ht
  | destroy a => exact h.destroy ht
  | cancelRead fd => exact Option.some.inj ht ▸ h
  | cancelWrite fd => exact Option.some.inj ht ▸ h
  | cancelFdall fd => exact Option.some.inj ht ▸ h
  | dispatch fd d err outcome => exact h.dispatch ht
  | expire now => exact h.expire ht

/-- No step calls `delay_call` more often than its action says. -/
theorem delays_step {a : RuntimeAction} (ht : Runtime.step H s a = some t) :
    t.timers.delays ≤ s.timers.delays + a.delays := by
  cases a with
  | construct a ctor =>
    rw [Runtime.step] at ht
    split at ht
    · show _ ≤ _ + ctor.delays
      obtain ⟨kind, sockfd, timed, fds, -, ⟨deadline, hdelays, rfl⟩ | ⟨htwo, _, _, rfl⟩⟩ :=
        construct_cases ht
      · rw [hdelays]
        rcases deadline with - | when
        · exact Nat.le_refl _
        · exact Nat.le_refl _
      · rw [htwo]
        exact Nat.le_refl _
    · exact absurd ht (by simp)
  | await c a =>
    obtain ⟨w, -, -, -, rfl⟩ := await_cases ht
    exact Nat.le_refl _
  | destroy a =>
    obtain ⟨w, -, rfl⟩ := Option.map_eq_some_iff.1 ht
    dsimp only
    split
    · exact Nat.le_of_eq (TimerQueue.delays_cancelDelay _)
    · exact Nat.le_refl _
  | cancelRead fd => exact Option.some.inj ht ▸ Nat.le_refl _
  | cancelWrite fd => exact Option.some.inj ht ▸ Nat.le_refl _
  | cancelFdall fd => exact Option.some.inj ht ▸ Nat.le_refl _
  -- no handler calls `delay_call`
  | dispatch fd d err outcome =>
    obtain ⟨a, w, -, -, -, hev⟩ := dispatch_cases ht
    rcases onFileEvent_cases hev with ⟨-, rfl⟩ | rfl | ⟨result, fds, -, rfl⟩
    · exact Nat.le_refl _
    · exact Nat.le_refl _
    · exact Nat.le_refl _
  | expire now =>
    obtain ⟨due, timers, hdue, hcases⟩ := expire_cases ht
    have hdelays := (TimerQueue.timers_expire hdue).2.2
    rcases hcases with ⟨-, rfl⟩ | ⟨w, -, rfl⟩
    · exact Nat.le_of_eq hdelays
    · exact Nat.le_of_eq hdelays

/-- The construction of a timed `send_lazy` leaves two timers for it. -/
theorem not_timersOwned_of_isTimedSend {a : RuntimeAction} (ht : Runtime.step H s a = some t)
    (ha : a.IsTimedSend) : ¬ t.TimersOwned := by
  intro howned
  have htwo := RuntimeAction.isTimedSend_iff.1 ha
  cases a with
  | construct a ctor =>
    rw [Runtime.step] at ht
    split at ht
    · obtain ⟨kind, sockfd, timed, fds, -, ⟨deadline, hdelays, -⟩ | ⟨-, when₁, when₂, rfl⟩⟩ :=
        construct_cases ht
      · have : ctor.delays = 2 := htwo
        rw [hdelays] at this
        split at this
        · omega
        · omega
      -- both timers call the new awaiter
      · set q := (s.timers.delayCall H when₁ a).1
        have hperm : (q.delayCall H when₂ a).1.timers.Perm
            (⟨(q.delayCall H when₂ a).2, when₂, a⟩ ::
              ⟨(s.timers.delayCall H when₁ a).2, when₁, a⟩ :: s.timers.timers) :=
          (TimerQueue.timers_delayCall when₂ a).trans
            ((TimerQueue.timers_delayCall when₁ a).cons _)
        have hlen : ((q.delayCall H when₂ a).1.timers.filter fun t ↦ t.func = a).length ≤ 1 :=
          howned.length_le_one a _ (Function.update_self ..)
        rw [(hperm.filter _).length_eq, List.filter_cons_of_pos (by simp),
          List.filter_cons_of_pos (by simp), List.length_cons, List.length_cons] at hlen
        omega
    · exact absurd ht (by simp)
  | _ => exact ha

end Runtime

/-- **Who owns a timer.** In a run with fewer than `2 ^ 31` calls of `delay_call`, every pending
timer belongs to its awaiter, at most one to each, and none outlives it, exactly when no
`send_lazy` is constructed with a positive timeout. -/
theorem timersOwned_iff (H : TimerHeap ℕ) (as : List RuntimeAction)
    (hfew : (as.map RuntimeAction.delays).sum < 2 ^ 31) :
    (Runtime.machine H).Throughout Runtime.TimersOwned as ↔
      (Runtime.machine H).StepsMeet (fun _ a ↦ ¬ a.IsTimedSend) as := by
  constructor
  · exact Machine.stepsMeet_of_throughout (M := Runtime.machine H) fun _ _ _ ht _ howned ha ↦
      Runtime.not_timersOwned_of_isTimedSend ht ha howned
  · intro hsteps
    have hbudget : (Runtime.machine H).StepsMeet
        (fun s a ↦ s.timers.delays + a.delays < 2 ^ 31) as :=
      Machine.stepsMeetFrom_of_budget (fun _ _ _ ht ↦ Runtime.delays_step ht)
        (by simpa [Runtime.machine, TimerQueue.empty])
    have hinv : (Runtime.machine H).Throughout Runtime.TimerInv as :=
      Machine.throughout_of_stepsMeet Runtime.timerInv_init
        (fun _ _ _ ht hG h ↦ h.step ht hG.1 hG.2) (hbudget.and hsteps)
    exact hinv.mono fun _ h ↦ h.timersOwned

/-- A `recv_lazy` that completes before its deadline and a `connect` that does not, with a
`send_lazy` without a timeout. -/
theorem timersOwned_recv_connect_send :
    (Runtime.machine (HeapOps.sorting _)).Throughout Runtime.TimersOwned
      [.construct 1 (.recvLazy 5 (some 10)), .await 0 1,
        .dispatch 5 .read none (.finished (some 4)), .construct 2 (.sendLazy 5 none), .await 0 2,
        .dispatch 5 .write none (.finished (some 4)), .destroy 2, .destroy 1,
        .construct 1 (.connect 6 (some 20) [.eintr, .inProgress]), .await 0 1, .expire 20,
        .destroy 1] :=
  (timersOwned_iff (HeapOps.sorting _) _ (by decide)).2
    (Machine.stepsMeet_of_forall_mem (G := fun a ↦ ¬ RuntimeAction.IsTimedSend a)
      (by simp [RuntimeAction.IsTimedSend]))

/-- A `send_lazy` with a timeout that completes and is destroyed before its deadline: the first of
its two timers stays, and calls it. -/
theorem timer_outlives_send_lazy :
    ∃ s t : Runtime,
      (Runtime.machine (HeapOps.sorting _)).run
        [.construct 1 (.sendLazy 5 (some (10, 11))), .await 0 1,
          .dispatch 5 .write none (.finished (some 4)), .destroy 1] = some s ∧
      s.awaiters 1 = none ∧ s.timers.timers = [⟨1, 10, 1⟩] ∧ ¬ s.TimersOwned ∧
      Runtime.step (HeapOps.sorting _) s (.expire 10) = some t ∧ t.dangling = true := by
  refine ⟨_, _, rfl, rfl, rfl, fun howned ↦ ?_, rfl, rfl⟩
  exact howned.alive ⟨1, 10, 1⟩ (by decide) rfl

end Nsio
