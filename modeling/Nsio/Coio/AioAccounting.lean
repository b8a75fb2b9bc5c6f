import Nsio.Coio.Aio
import Mathlib.Data.List.Flatten
import Mathlib.Data.List.Perm.Basic

/-!
# Every disk request is served once, and which are left behind

Two questions about `io_aio_impl` over every run, with any nesting of `fetch_events` in `submit` in
callbacks.

## Is every request served once?

`AioLog` adds to the context the logs of the requests `io_submit` took and of those `io_getevents`
handed out. The logs are never read. Whatever the kernel does, a request that was taken is in
flight, in the ring, or handed out, and a request that was handed out has had its callback called
or stands in a frame that is going to call it (`LogInv`). The counters `_req` and `_res` follow: the
frames know what `_res` has not been told yet.

## Is a completion left behind?

The handler zeroes the counter and then calls `io_getevents` **once**, which hands out at most 256
completions. When that call hands out all completions whose signals were read, nothing is left
without a signal (`ReapsAllRead`). When it hands out fewer, the rest stays in the ring with a
counter at zero (`exists_stranded_of_short_reap`).
-/

namespace Nsio

/-! ### The logs -/

/-- The context with the logs of its requests. -/
structure AioLog (ρ : Type*) where
  aio : Aio ρ := {}
  /-- The requests `io_submit` took. -/
  submitted : List ρ := []
  /-- The requests `io_getevents` handed out. -/
  reaped : List ρ := []
  deriving Repr

namespace AioFrame

variable {ρ : Type*}

/-- The callbacks a frame still has to run. -/
def pending : AioFrame ρ → List ρ
  | .callbacks rest _ => rest
  | _ => []

/-- What a frame still has to add to `_res`. -/
def owed : AioFrame ρ → ℕ
  | .callbacks _ rc => rc
  | _ => 0

/-- The frame belongs to a call of `fetch_events`. -/
def inFetch : AioFrame ρ → Bool
  | .fetch | .callbacks _ _ => true
  | .submit _ | .handler => false

theorem pending_of_not_inFetch {f : AioFrame ρ} (h : f.inFetch = false) : f.pending = [] := by
  cases f <;> first | rfl | exact absurd h (by simp [inFetch])

theorem owed_of_not_inFetch {f : AioFrame ρ} (h : f.inFetch = false) : f.owed = 0 := by
  cases f <;> first | rfl | exact absurd h (by simp [inFetch])

end AioFrame

namespace AioLog

variable {ρ : Type*}

/-- What an action adds to the log of the submitted requests. -/
def taken (s : Aio ρ) : AioAction ρ → List ρ
  | .accepted => match s.stack with
    | .submit r :: _ => [r]
    | _ => []
  | _ => []

/-- What an action adds to the log of the reaped requests. -/
def handedOut (s : Aio ρ) : AioAction ρ → List ρ
  | .getevents n => s.ring.take n
  | _ => []

/-- One step of the context, with the logs. -/
def step (s : AioLog ρ) (a : AioAction ρ) : Option (AioLog ρ) :=
  (s.aio.step a).map fun t ↦
    { aio := t
      submitted := s.submitted ++ taken s.aio a
      reaped := s.reaped ++ handedOut s.aio a }

/-- The runs of a fresh context, with the logs. -/
def machine (ρ : Type*) : Machine (AioLog ρ) (AioAction ρ) where
  init := {}
  step := step

/-- The callbacks the thread still has to run. -/
def pending (stack : List (AioFrame ρ)) : List ρ := stack.flatMap AioFrame.pending

/-- What the thread still has to add to `_res`. -/
def owed (stack : List (AioFrame ρ)) : ℕ := (stack.map AioFrame.owed).sum

end AioLog

/-! ### The accounts of the requests -/

namespace Aio

variable {ρ : Type*} {s t : Aio ρ}

/-- Where the requests are, as far as the logs are concerned: what a step takes, hands out and
serves. -/
structure Moves (s t : Aio ρ) (a : AioAction ρ) : Prop where
  outstanding : (t.inflight ++ t.ring ++ AioLog.handedOut s a).Perm
    (s.inflight ++ s.ring ++ AioLog.taken s a)
  served : (AioLog.pending t.stack ++ t.delivered).Perm
    (AioLog.pending s.stack ++ s.delivered ++ AioLog.handedOut s a)
  req_eq : t.req = s.req + (AioLog.taken s a).length
  res_eq : t.res + AioLog.owed t.stack =
    s.res + AioLog.owed s.stack + (AioLog.handedOut s a).length

/-- A step that touches nothing the logs are about. -/
theorem Moves.of_eq {a : AioAction ρ} (htaken : AioLog.taken s a = [])
    (hout : AioLog.handedOut s a = []) (hinflight : t.inflight = s.inflight)
    (hring : t.ring = s.ring) (hdelivered : t.delivered = s.delivered) (hreq : t.req = s.req)
    (hres : t.res = s.res) (hpending : AioLog.pending t.stack = AioLog.pending s.stack)
    (howed : AioLog.owed t.stack = AioLog.owed s.stack) : Moves s t a := by
  refine ⟨?_, ?_, ?_, ?_⟩
  · rw [htaken, hout, hinflight, hring]
  · rw [hout, hpending, hdelivered, List.append_nil]
  · rw [htaken, hreq, List.length_nil, Nat.add_zero]
  · rw [hout, hres, howed, List.length_nil, Nat.add_zero]

theorem Moves.of_complete {i : ℕ} {r : ρ} (hr : s.inflight[i]? = some r) :
    Moves s { s with
      inflight := s.inflight.eraseIdx i
      ring := s.ring ++ [r]
      unsignalled := s.unsignalled + 1 } (.complete i) := by
  obtain ⟨hi, hget⟩ := List.getElem?_eq_some_iff.1 hr
  have hperm : s.inflight.Perm (r :: s.inflight.eraseIdx i) :=
    hget ▸ (List.getElem_cons_eraseIdx_perm hi).symm
  refine ⟨?_, by simp [AioLog.handedOut], by simp [AioLog.taken], by simp [AioLog.handedOut]⟩
  -- the request moves from the requests in flight to the ring
  simp only [AioLog.taken, AioLog.handedOut, List.append_nil]
  refine List.Perm.trans ?_ (hperm.append_right _).symm
  rw [← List.append_assoc]
  exact List.perm_append_singleton _ _

theorem Moves.of_accepted {r : ρ} {stack : List (AioFrame ρ)}
    (hstack : s.stack = .submit r :: stack) :
    Moves s { s with inflight := s.inflight ++ [r], req := s.req + 1, stack := stack }
      .accepted := by
  have htaken : AioLog.taken s .accepted = [r] := by simp only [AioLog.taken, hstack]
  refine ⟨?_, ?_, by rw [htaken]; rfl, ?_⟩
  · rw [htaken]
    simp only [AioLog.handedOut, List.append_nil, List.append_assoc]
    exact List.Perm.append_left _ List.perm_append_comm
  · simp only [AioLog.handedOut, AioLog.pending, hstack, List.flatMap_cons, AioFrame.pending,
      List.append_nil, List.nil_append]
    exact List.Perm.refl _
  · simp only [AioLog.handedOut, AioLog.owed, hstack, List.map_cons, List.sum_cons,
      AioFrame.owed, List.length_nil, Nat.add_zero, Nat.zero_add]

theorem Moves.of_getevents {n : ℕ} {stack : List (AioFrame ρ)}
    (hstack : s.stack = .fetch :: stack) (hn : n ≤ s.ring.length) :
    Moves s (s.afterGetevents n stack) (.getevents n) := by
  refine ⟨?_, ?_, rfl, ?_⟩
  · simp only [AioLog.taken, AioLog.handedOut, List.append_nil, afterGetevents, List.append_assoc]
    refine List.Perm.append_left _ (List.perm_append_comm.trans (List.Perm.of_eq ?_))
    exact List.take_append_drop n s.ring
  · simp only [AioLog.handedOut, AioLog.pending, hstack, afterGetevents, List.flatMap_cons,
      AioFrame.pending, List.nil_append]
    rw [List.append_assoc]
    exact List.perm_append_comm
  · simp only [AioLog.handedOut, AioLog.owed, hstack, afterGetevents, List.map_cons,
      List.sum_cons, AioFrame.owed, List.length_take, Nat.min_eq_left hn]
    omega

theorem Moves.of_deliver {r : ρ} {rest : List ρ} {rc : ℕ} {stack : List (AioFrame ρ)}
    (hstack : s.stack = .callbacks (r :: rest) rc :: stack) :
    Moves s { s with delivered := s.delivered ++ [r], stack := .callbacks rest rc :: stack }
      .deliver := by
  refine ⟨List.Perm.refl _, ?_, rfl, ?_⟩
  · simp only [AioLog.handedOut, AioLog.pending, hstack, List.flatMap_cons, AioFrame.pending,
      List.append_nil, List.cons_append]
    rw [← List.append_assoc]
    exact List.perm_append_singleton _ _
  · simp only [AioLog.handedOut, AioLog.owed, hstack, List.map_cons, List.sum_cons,
      AioFrame.owed, List.length_nil, Nat.add_zero]

theorem Moves.of_fetched {rc : ℕ} {stack : List (AioFrame ρ)}
    (hstack : s.stack = .callbacks [] rc :: stack) :
    Moves s { s with res := s.res + rc, stack := stack } .fetched := by
  refine ⟨List.Perm.refl _, ?_, rfl, ?_⟩
  · simp only [AioLog.handedOut, AioLog.pending, hstack, List.flatMap_cons, AioFrame.pending,
      List.append_nil, List.nil_append]
    exact List.Perm.refl _
  · simp only [AioLog.handedOut, AioLog.owed, hstack, List.map_cons, List.sum_cons,
      AioFrame.owed, List.length_nil, Nat.add_zero]
    omega

/-- **What a step moves.** -/
theorem moves_step {a : AioAction ρ} (ht : s.step a = some t) : Moves s t a := by
  cases Step.of_step ht with
  | complete hr => exact .of_complete hr
  | accepted hstack => exact .of_accepted hstack
  | getevents hstack hn => exact .of_getevents hstack hn.2.2
  | deliver hstack => exact .of_deliver hstack
  | fetched hstack => exact .of_fetched hstack
  | signal | submitAgain | geteventsAgain => exact .of_eq rfl rfl rfl rfl rfl rfl rfl rfl rfl
  | submit => exact .of_eq rfl rfl rfl rfl rfl rfl rfl rfl (Nat.zero_add _)
  | refused hstack =>
    refine .of_eq rfl rfl rfl rfl rfl rfl rfl ?_ ?_
    · rw [hstack]
      rfl
    · rw [hstack]
      exact Nat.zero_add _
  | event hstack | rearm hstack =>
    refine .of_eq rfl rfl rfl rfl rfl rfl rfl ?_ ?_ <;> rw [hstack] <;> rfl

end Aio

namespace AioLog

variable {ρ : Type*} {s t : AioLog ρ}

/-- Every request that was taken is in flight, in the ring or handed out; every one that was handed
out was served or is going to be; and the counters say so. -/
structure LogInv (s : AioLog ρ) : Prop where
  taken : (s.aio.inflight ++ s.aio.ring ++ s.reaped).Perm s.submitted
  served : (pending s.aio.stack ++ s.aio.delivered).Perm s.reaped
  req_eq : s.aio.req = s.submitted.length
  res_eq : s.aio.res + owed s.aio.stack = s.reaped.length

theorem logInv_init : (machine ρ).init.LogInv :=
  ⟨List.Perm.refl _, List.Perm.refl _, rfl, rfl⟩

theorem logInv_step {a : AioAction ρ} (ht : s.step a = some t) (hs : s.LogInv) : t.LogInv := by
  obtain ⟨u, hu, rfl⟩ := Option.map_eq_some_iff.1 ht
  have hmoves := Aio.moves_step hu
  refine ⟨?_, ?_, ?_, ?_⟩
  · have hout := hmoves.outstanding.append_right s.reaped
    refine List.Perm.trans ?_ (hout.trans ?_)
    · rw [List.append_assoc (u.inflight ++ u.ring)]
      exact List.Perm.append_left _ List.perm_append_comm
    · rw [List.append_assoc (s.aio.inflight ++ s.aio.ring)]
      refine (List.Perm.append_left _ List.perm_append_comm).trans ?_
      rw [← List.append_assoc]
      exact hs.taken.append_right _
  · exact hmoves.served.trans (hs.served.append_right _)
  · show u.req = (s.submitted ++ taken s.aio a).length
    rw [hmoves.req_eq, hs.req_eq, List.length_append]
  · show u.res + owed u.stack = (s.reaped ++ handedOut s.aio a).length
    rw [hmoves.res_eq, hs.res_eq, List.length_append]

/-- No call of `fetch_events` is active. -/
def NoFetch (s : AioLog ρ) : Prop := ∀ f ∈ s.aio.stack, f.inFetch = false

theorem pending_eq_nil (h : s.NoFetch) : pending s.aio.stack = [] :=
  List.flatMap_eq_nil_iff.2 fun f hf ↦ AioFrame.pending_of_not_inFetch (h f hf)

theorem owed_eq_zero (h : s.NoFetch) : owed s.aio.stack = 0 := by
  rw [owed, List.sum_eq_zero]
  intro n hn
  obtain ⟨f, hf, rfl⟩ := List.mem_map.1 hn
  exact AioFrame.owed_of_not_inFetch (h f hf)

/-- Requests are served once: what was handed out has had its callback called or is in a frame that
is going to call it, nothing else was called, and no request is lost. Outside `fetch_events` every
callback has been called, and `_req - _res` is the number of requests that were taken and not
handed out. -/
structure ServedOnce (s : AioLog ρ) : Prop where
  taken : (s.aio.inflight ++ s.aio.ring ++ s.reaped).Perm s.submitted
  served : (pending s.aio.stack ++ s.aio.delivered).Perm s.reaped
  all_served : s.NoFetch → s.aio.delivered.Perm s.reaped
  counters : s.NoFetch → s.aio.res ≤ s.aio.req ∧ s.aio.req - s.aio.res = s.aio.outstanding

theorem LogInv.servedOnce (hs : s.LogInv) : s.ServedOnce where
  taken := hs.taken
  served := hs.served
  all_served h := by
    have := hs.served
    rwa [pending_eq_nil h] at this
  counters h := by
    have hlen := hs.taken.length_eq
    have hres := hs.res_eq
    rw [List.length_append, List.length_append] at hlen
    rw [owed_eq_zero h] at hres
    rw [hs.req_eq, Aio.outstanding]
    omega

/-! ### Completions that are left behind -/

/-- In `epoll_wait`, a completion in the ring has a signal that is still to come. -/
def NotStranded (s : AioLog ρ) : Prop :=
  s.aio.stack = [] → s.aio.ring ≠ [] → 0 < s.aio.counter ∨ 0 < s.aio.unsignalled

/-- The `io_getevents` of the handler hands out all completions whose signals were read. -/
def ReapsAllRead (s : AioLog ρ) : AioAction ρ → Prop
  | .getevents n => s.aio.stack = [.fetch, .handler] → s.aio.consumed ≤ s.aio.reaped + n
  | _ => True

/-- Outside that call no signal was read for a completion that was not handed out. -/
structure ReadInv (s : Aio ρ) : Prop extends Aio.Accounted s where
  consumed_le : s.stack ≠ [.fetch, .handler] → s.consumed ≤ s.reaped

end AioLog

/-- Inside `io_getevents` the thread can only return from it. -/
theorem Aio.step_of_fetch {ρ : Type*} {s t : Aio ρ} {a : AioAction ρ}
    {stack : List (AioFrame ρ)} (hstack : s.stack = .fetch :: stack) (ht : s.step a = some t) :
    t.stack = s.stack ∨ ∃ n, a = .getevents n ∧ t = s.afterGetevents n stack := by
  cases Step.of_step ht with
  | complete | signal | submitAgain | geteventsAgain => exact .inl rfl
  | getevents htop =>
    obtain rfl := List.tail_eq_of_cons_eq (hstack.symm.trans htop)
    exact .inr ⟨_, rfl, rfl⟩
  | submit hcan => simp [canSubmit, hstack] at hcan
  | accepted htop | refused htop | event htop | deliver htop | fetched htop | rearm htop =>
    simp [hstack] at htop

namespace AioLog

variable {ρ : Type*} {s t : AioLog ρ}

theorem readInv_step {a : AioAction ρ} (ht : s.step a = some t) (ha : s.ReapsAllRead a)
    (hs : ReadInv s.aio) : ReadInv t.aio := by
  obtain ⟨u, hu, rfl⟩ := Option.map_eq_some_iff.1 ht
  refine ⟨Aio.accounted_step s.aio a u hu hs.toAccounted, fun hout ↦ ?_⟩
  dsimp only at hout ⊢
  by_cases hin : s.aio.stack = [.fetch, .handler]
  · rcases Aio.step_of_fetch hin hu with hstack | ⟨n, rfl, rfl⟩
    · exact absurd (hstack.trans hin) hout
    · exact ha hin
  · have hle := hs.consumed_le hin
    obtain hk | hq | rfl | ⟨-, -, rfl⟩ | ⟨n, stack, -, -, -, rfl⟩ :=
      Aio.step_cases hu hs.fetch_innermost
    · rw [hk.consumed_eq, hk.reaped_eq]
      exact hle
    · rw [hq.consumed_eq, hq.reaped_eq]
      exact hle
    · exact hle
    · exact absurd rfl hout
    · exact Nat.le_trans hle (Nat.le_add_right _ _)

theorem ReadInv.notStranded (hs : ReadInv s.aio) : s.NotStranded := by
  intro hidle hring
  have hle := hs.consumed_le (by rw [hidle]; simp)
  have hsig := hs.signals_eq
  have hpos := List.length_pos_of_ne_nil hring
  omega

end AioLog

/-- **Disk requests are served once, and none is left behind** when the `io_getevents` of the
handler hands out all completions whose signals the handler has read. The first holds in every
run. -/
theorem aio_served {ρ : Type*} (as : List (AioAction ρ)) :
    (AioLog.machine ρ).Throughout AioLog.ServedOnce as ∧
      ((AioLog.machine ρ).StepsMeet AioLog.ReapsAllRead as →
        (AioLog.machine ρ).Throughout AioLog.NotStranded as) := by
  have hlog : (AioLog.machine ρ).Throughout AioLog.LogInv as :=
    Machine.throughout_of_invariant AioLog.logInv_init
      (fun _ _ _ ht hs ↦ AioLog.logInv_step ht hs) as
  refine ⟨hlog.mono fun _ hs ↦ hs.servedOnce, fun hall ↦ ?_⟩
  have hread : (AioLog.machine ρ).Throughout (fun s ↦ AioLog.ReadInv s.aio) as :=
    Machine.throughout_of_stepsMeet ⟨Aio.accounted_init, fun _ ↦ Nat.le_refl 0⟩
      (fun _ _ _ ht ha hs ↦ AioLog.readInv_step ht ha hs) hall
  exact hread.mono fun _ hs ↦ hs.notStranded

/-- Two requests complete; both signals are read, and both completions are handed out. -/
theorem aio_served_two_requests :
    (AioLog.machine ℕ).Throughout AioLog.NotStranded
      [.submit 1, .accepted, .submit 2, .accepted, .complete 0, .signal, .complete 0, .signal,
        .event, .getevents 2, .deliver, .deliver, .fetched, .rearm] := by
  refine (aio_served _).2 ?_
  refine .cons rfl trivial (.cons rfl trivial (.cons rfl trivial (.cons rfl trivial ?_)))
  refine .cons rfl trivial (.cons rfl trivial (.cons rfl trivial (.cons rfl trivial ?_)))
  refine .cons rfl trivial (.cons rfl (fun _ ↦ by decide) (.cons rfl trivial ?_))
  exact .cons rfl trivial (.cons rfl trivial (.cons rfl trivial trivial))

/-! ### A batch that is too large -/

namespace AioLog

variable {ρ : Type*}

/-- Each request is submitted, completes and signals. -/
def completeAll (rs : List ρ) : List (AioAction ρ) :=
  rs.flatMap fun r ↦ [.submit r, .accepted, .complete 0, .signal]

/-- The handler reads the counter, reaps `n` completions, runs their callbacks and returns. -/
def handleEvent (n : ℕ) : List (AioAction ρ) :=
  .event :: .getevents n :: (List.replicate n .deliver ++ [.fetched, .rearm])

/-- Nothing is in flight or unsignalled, and the thread is in `epoll_wait`. -/
structure Quiescent (s : AioLog ρ) : Prop where
  inflight : s.aio.inflight = []
  stack : s.aio.stack = []
  unsignalled : s.aio.unsignalled = 0

theorem exists_runFrom_completeAll (rs : List ρ) {s : AioLog ρ} (hs : s.Quiescent) :
    ∃ t, (machine ρ).runFrom s (completeAll rs) = some t ∧ t.Quiescent ∧
      t.aio.ring = s.aio.ring ++ rs ∧ t.aio.counter = s.aio.counter + rs.length := by
  induction rs generalizing s with
  | nil => exact ⟨s, rfl, hs, (List.append_nil _).symm, rfl⟩
  | cons r rs ih =>
    obtain ⟨u, hu, huquiet, huring, hucounter⟩ : ∃ u,
        (machine ρ).runFrom s [.submit r, .accepted, .complete 0, .signal] = some u ∧
        u.Quiescent ∧ u.aio.ring = s.aio.ring ++ [r] ∧ u.aio.counter = s.aio.counter + 1 := by
      obtain ⟨⟨inflight, ring, unsignalled, counter, req, res, stack, delivered, consumed, reaped⟩,
        submitted, log⟩ := s
      obtain ⟨rfl, rfl, rfl⟩ := hs
      exact ⟨_, rfl, ⟨rfl, rfl, rfl⟩, rfl, rfl⟩
    obtain ⟨t, ht, htquiet, htring, htcounter⟩ := ih huquiet
    refine ⟨t, ?_, htquiet, ?_, ?_⟩
    · rw [completeAll, List.flatMap_cons, Machine.runFrom_append _ hu]
      exact ht
    · rw [htring, huring, List.append_assoc]
      rfl
    · rw [htcounter, hucounter, List.length_cons]
      omega

theorem exists_runFrom_deliver (rest : List ρ) {s : AioLog ρ} {rc : ℕ}
    {stack : List (AioFrame ρ)} (hs : s.aio.stack = .callbacks rest rc :: stack) :
    ∃ t, (machine ρ).runFrom s (List.replicate rest.length .deliver) = some t ∧
      t.aio.stack = .callbacks [] rc :: stack ∧ t.aio.ring = s.aio.ring ∧
      t.aio.counter = s.aio.counter ∧ t.aio.unsignalled = s.aio.unsignalled := by
  induction rest generalizing s with
  | nil => exact ⟨s, rfl, hs, rfl, rfl, rfl⟩
  | cons r rest ih =>
    obtain ⟨u, hu, hustack, huring, hucounter, husig⟩ : ∃ u, (machine ρ).step s .deliver = some u ∧
        u.aio.stack = .callbacks rest rc :: stack ∧ u.aio.ring = s.aio.ring ∧
        u.aio.counter = s.aio.counter ∧ u.aio.unsignalled = s.aio.unsignalled := by
      refine ⟨⟨{ s.aio with
        delivered := s.aio.delivered ++ [r], stack := .callbacks rest rc :: stack },
        s.submitted ++ [], s.reaped ++ []⟩, ?_, rfl, rfl, rfl, rfl⟩
      simp only [machine, step, Aio.step, hs, Option.map_some, taken, handedOut]
    obtain ⟨t, ht, htstack, htring, htcounter, htsig⟩ := ih hustack
    refine ⟨t, ?_, htstack, htring.trans huring, htcounter.trans hucounter, htsig.trans husig⟩
    rw [List.length_cons, List.replicate_succ, Machine.runFrom_cons, hu, Option.bind_some, ht]

/-- **A short reap leaves completions behind.** When every completion in the ring has been
signalled and the handler reaps fewer than are there, the rest stays without a signal. -/
theorem exists_stranded_of_short_reap {s : AioLog ρ} (hs : s.Quiescent)
    (hcounter : 0 < s.aio.counter) {n : ℕ} (hn : 1 ≤ n) (hmax : n ≤ maxEvents)
    (hshort : n < s.aio.ring.length) :
    ∃ t, (machine ρ).runFrom s (handleEvent n) = some t ∧ ¬ t.NotStranded := by
  obtain ⟨u, hu, hustack, huring, hucounter, husig⟩ : ∃ u,
      (machine ρ).runFrom s [.event, .getevents n] = some u ∧
      u.aio.stack = [.callbacks (s.aio.ring.take n) n, .handler] ∧
      u.aio.ring = s.aio.ring.drop n ∧ u.aio.counter = 0 ∧ u.aio.unsignalled = 0 := by
    refine ⟨⟨s.aio.afterEvent.afterGetevents n [.handler], s.submitted ++ [] ++ [],
      s.reaped ++ [] ++ s.aio.ring.take n⟩, ?_, rfl, rfl, rfl, hs.unsignalled⟩
    have hevent : s.aio.step .event = some s.aio.afterEvent := by
      simp only [Aio.step, hs.stack, if_pos hcounter, Aio.afterEvent]
    have hget : s.aio.afterEvent.step (.getevents n) =
        some (s.aio.afterEvent.afterGetevents n [.handler]) :=
      if_pos ⟨hn, hmax, hshort.le⟩
    simp only [Machine.runFrom, machine, step, hevent, hget, Option.map_some, Option.bind_some,
      taken, handedOut]
    rfl
  -- the callbacks of the batch, then the return and the rearming: the ring is not touched again
  have hlen : (s.aio.ring.take n).length = n := by
    rw [List.length_take, Nat.min_eq_left hshort.le]
  obtain ⟨v, hv, hvstack, hvring, hvcounter, hvsig⟩ := exists_runFrom_deliver _ hustack
  rw [hlen] at hv
  refine ⟨⟨{ v.aio with res := v.aio.res + n, stack := [] }, v.submitted ++ [] ++ [],
    v.reaped ++ [] ++ []⟩, ?_, fun hnot ↦ ?_⟩
  · have hsplit : handleEvent n = [AioAction.event, .getevents n] ++
        (List.replicate n .deliver ++ [.fetched, (.rearm : AioAction ρ)]) := rfl
    rw [hsplit, Machine.runFrom_append _ hu, Machine.runFrom_append _ hv]
    simp only [Machine.runFrom, machine, step, Aio.step, hvstack, Option.map_some,
      Option.bind_some, taken, handedOut]
  -- neither the counter nor a pending signal is left to announce the rest
  · have hring : v.aio.ring ≠ [] := by
      rw [hvring, huring]
      exact List.ne_nil_of_length_pos (by rw [List.length_drop]; omega)
    rcases hnot rfl hring with hpos | hpos
    · exact absurd (hvcounter.trans hucounter) hpos.ne'
    · exact absurd (hvsig.trans husig) hpos.ne'

end AioLog

/-- With 257 requests outstanding, all completed and signalled, the handler reads all 257 signals
and reaps 256 completions: the last one stays in the ring, with the counter at zero and nothing
left to signal it. -/
theorem aio_stranded :
    ∃ t, (AioLog.machine ℕ).run
        (AioLog.completeAll (List.range 257) ++ AioLog.handleEvent 256) = some t ∧
      ¬ t.NotStranded := by
  obtain ⟨s, hrun, hquiet, hring, hcounter⟩ := AioLog.exists_runFrom_completeAll (List.range 257)
    (s := (AioLog.machine ℕ).init) ⟨rfl, rfl, rfl⟩
  have hlen : s.aio.ring.length = 257 := by
    rw [hring, List.length_append, List.length_range]
    rfl
  have hpos : 0 < s.aio.counter := by
    rw [hcounter, List.length_range]
    omega
  obtain ⟨t, ht, hstranded⟩ := AioLog.exists_stranded_of_short_reap hquiet hpos
    (n := 256) (by omega) (Nat.le_refl _) (by omega)
  exact ⟨t, (Machine.runFrom_append _ hrun).trans ht, hstranded⟩

end Nsio
