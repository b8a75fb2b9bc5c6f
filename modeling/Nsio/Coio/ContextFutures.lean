import Nsio.Coio.IoContext
import Mathlib.Data.List.Nodup

/-!
# The futures of a context

`async_return` puts a function into the queue together with a promise, and hands out the future.
`futures_exact` says what a thread may conclude from a future, in every run of the context of
`Coio.IoContext`: it is ready exactly when the function has returned; no promise is set twice; and
when the context is destroyed, the futures of the functions that have not run are broken, so nobody
waits for them forever. Until then they are pending, also after `stop`.

What has returned is the beginning of what was appended (`AsyncQueue.HasReturned.isPrefix`), so the
futures that are pending are those of the rest (`FuturesInv.pending_iff`).
-/

namespace Nsio

namespace AsyncQueue

variable {π φ : Type*} {q q' : AsyncQueue π φ} {returned : List φ}

/-- The functions that have returned: all that were called, but for the one that is running. -/
def HasReturned (q : AsyncQueue π φ) (returned : List φ) : Prop :=
  match q.pc with
  | .inFunc i => ∃ f, q.tmp[i]? = some f ∧ q.executed = returned ++ [f]
  | .idle | .read | .running _ | .cleared => q.executed = returned

/-- What has returned is the beginning of what was appended. -/
theorem HasReturned.isPrefix (h : q.HasReturned returned) (hq : q.Inv) :
    returned <+: q.appended := by
  rw [← hq.order, List.append_assoc]
  rw [HasReturned] at h
  split at h
  · obtain ⟨f, -, h⟩ := h
    rw [h, List.append_assoc]
    exact List.prefix_append _ _
  all_goals
    rw [h]
    exact List.prefix_append _ _

variable [DecidableEq π]

theorem HasReturned.handle {a : AsyncAction π φ} (h : q.HasReturned returned)
    (hq : q.step a = some q') (ha : a ∈ [.eventRead, .swap, .call, .clear, .rearm]) :
    q'.HasReturned returned := by
  simp only [List.mem_cons, List.not_mem_nil, or_false] at ha
  rcases ha with rfl | rfl | rfl | rfl | rfl
  all_goals
    rw [step] at hq
    split at hq
    · rename_i hpc
      rw [HasReturned, hpc] at h
      first
      | obtain rfl := Option.some.inj hq
        exact h
      | obtain ⟨-, hq⟩ := Option.ite_none_right_eq_some.1 hq
        obtain rfl := Option.some.inj hq
        exact h
      | obtain ⟨f, hf, rfl⟩ := Option.map_eq_some_iff.1 hq
        exact ⟨f, hf, congrArg (· ++ [f]) h⟩
    · exact absurd hq (by simp)

theorem HasReturned.ret {i : ℕ} {f : φ} (h : q.HasReturned returned) (hpc : q.pc = .inFunc i)
    (hf : q.tmp[i]? = some f) (hq : q.step .ret = some q') :
    q'.HasReturned (returned ++ [f]) := by
  rw [HasReturned, hpc] at h
  obtain ⟨g, hg, h⟩ := h
  obtain rfl := Option.some.inj (hf.symm.trans hg)
  rw [ret_eq hpc hq]
  exact h

end AsyncQueue

namespace IoContext

variable {π φ : Type*} [DecidableEq π] {s t : IoContext π φ} {a : ContextAction π φ}

/-- **The futures say what happened.** -/
structure FuturesExact (s : IoContext π φ) : Prop where
  /-- No promise was set twice. -/
  satisfied : s.crashed ≠ some .promiseSatisfied
  /-- The future of a function is ready exactly when the function has returned. -/
  ready_iff : ∀ j ∈ s.queue.appended, ∀ n, j.promise = some n →
    (s.futures[n]? = some FutureState.ready ↔ j ∈ s.returned)
  /-- After the destruction of the context, nobody waits forever. -/
  settled : s.destroyed = true → FutureState.pending ∉ s.futures
  /-- Before it, no promise is broken. -/
  unbroken : s.destroyed = false → FutureState.broken ∉ s.futures

/-- The promises of the functions that have not returned. -/
def openPromises (s : IoContext π φ) : List ℕ :=
  (s.queue.appended.drop s.returned.length).filterMap Job.promise

/-- What carries it, while the context is there. -/
structure FuturesInv (s : IoContext π φ) : Prop where
  returned : s.queue.HasReturned s.returned
  nodup : (s.queue.appended.filterMap Job.promise).Nodup
  lt : ∀ n ∈ s.queue.appended.filterMap Job.promise, n < s.futures.length
  pending_iff : ∀ n : ℕ, s.futures[n]? = some FutureState.pending ↔ n ∈ s.openPromises
  unbroken : FutureState.broken ∉ s.futures

omit [DecidableEq π] in
theorem FuturesInv.congr (hs : s.FuturesInv) (hreturned : t.queue.HasReturned t.returned)
    (happended : t.queue.appended = s.queue.appended) (hlog : t.returned = s.returned)
    (hfutures : t.futures = s.futures) : t.FuturesInv := by
  refine ⟨hreturned, ?_, ?_, ?_, ?_⟩
  · rw [happended]
    exact hs.nodup
  · rw [happended, hfutures]
    exact hs.lt
  · rw [openPromises, happended, hlog, hfutures]
    exact hs.pending_iff
  · rw [hfutures]
    exact hs.unbroken

omit [DecidableEq π] in
/-- A function is called where it is. -/
theorem FuturesInv.callReturn (hs : s.FuturesInv) :
    FuturesInv { s with futures := s.futures ++ [.ready] } := by
  refine ⟨hs.returned, hs.nodup, fun n hn ↦ ?_, fun n ↦ ?_, by simpa using hs.unbroken⟩
  · rw [List.length_append]
    exact Nat.lt_add_right _ (hs.lt n hn)
  · show (s.futures ++ [FutureState.ready])[n]? = _ ↔ n ∈ s.openPromises
    rw [← hs.pending_iff n, List.getElem?_append]
    split
    · rfl
    · rename_i hge
      rw [List.getElem?_eq_none (Nat.not_lt.1 hge)]
      refine iff_of_false (fun h ↦ ?_) (by simp)
      exact absurd (List.mem_of_getElem? h) (by simp)

/-- A function is submitted, with a promise of its own or without. -/
theorem FuturesInv.submit (hs : s.FuturesInv) (hq : s.queue.Inv) {p : Option π} {j : Job φ}
    (new : List FutureState) (hnew : (new = [] ∧ j.promise = none) ∨
      (new = [.pending] ∧ j.promise = some s.futures.length)) {q : AsyncQueue π (Job φ)}
    (hstep : s.queue.step (.append p j) = some q) :
    FuturesInv { s with queue := q, futures := s.futures ++ new } := by
  have hopen : (s.queue.appended ++ [j]).drop s.returned.length =
      s.queue.appended.drop s.returned.length ++ [j] :=
    List.drop_append_of_le_length (hs.returned.isPrefix hq).length_le
  rw [AsyncQueue.append_eq hstep]
  rcases hnew with ⟨rfl, hnone⟩ | ⟨rfl, hsome⟩
  · refine ⟨hs.returned, ?_, ?_, fun n ↦ ?_, ?_⟩
    · simpa [hnone] using hs.nodup
    · simpa [hnone] using hs.lt
    · simpa [openPromises, hopen, hnone] using hs.pending_iff n
    · simpa using hs.unbroken
  · refine ⟨hs.returned, ?_, fun n hn ↦ ?_, fun n ↦ ?_, ?_⟩
    · show ((s.queue.appended ++ [j]).filterMap Job.promise).Nodup
      rw [List.filterMap_append, List.filterMap_cons_some hsome, List.filterMap_nil]
      refine hs.nodup.append (List.nodup_singleton _) fun n hn hlast ↦ ?_
      exact absurd (hs.lt n hn) (by simp [List.mem_singleton.1 hlast])
    · have hn : n ∈ (s.queue.appended ++ [j]).filterMap Job.promise := hn
      rw [List.filterMap_append, List.filterMap_cons_some hsome, List.filterMap_nil] at hn
      rw [List.length_append, List.length_singleton]
      rcases List.mem_append.1 hn with hn | hn
      · exact Nat.lt_succ_of_lt (hs.lt n hn)
      · exact Nat.lt_succ_of_le (Nat.le_of_eq (List.mem_singleton.1 hn))
    · show _ ↔ n ∈ ((s.queue.appended ++ [j]).drop s.returned.length).filterMap Job.promise
      rw [hopen, List.filterMap_append, List.filterMap_cons_some hsome, List.filterMap_nil,
        List.mem_append, List.mem_singleton]
      have hpending := hs.pending_iff n
      rw [openPromises] at hpending
      rw [← hpending]
      rcases Nat.lt_trichotomy n s.futures.length with hlt | rfl | hgt
      · rw [List.getElem?_append_left hlt]
        simp [hlt.ne]
      · simp
      · have hnone : (s.futures ++ [FutureState.pending])[n]? = none :=
          List.getElem?_eq_none (by rw [List.length_append, List.length_singleton]; exact hgt)
        rw [hnone, List.getElem?_eq_none (Nat.le_of_lt hgt)]
        simp [hgt.ne']
    · simpa using hs.unbroken

/-- A function returns. -/
theorem FuturesInv.setValue (hs : s.FuturesInv) (hq : s.queue.Inv) {i : ℕ} {j : Job φ}
    (hpc : s.queue.pc = .inFunc i) (hj : s.queue.tmp[i]? = some j) {q : AsyncQueue π (Job φ)}
    (hstep : s.queue.step .ret = some q) :
    (IoContext.setValue { s with queue := q } j).FuturesInv ∧
      (IoContext.setValue { s with queue := q } j).crashed = s.crashed := by
  have hreturned := hs.returned.ret hpc hj hstep
  have happended : q.appended = s.queue.appended := by rw [AsyncQueue.ret_eq hpc hstep]
  have hnext : s.queue.appended.drop s.returned.length =
      j :: s.queue.appended.drop (s.returned ++ [j]).length := by
    obtain ⟨rest, hrest⟩ := hreturned.isPrefix (AsyncQueue.inv_step _ _ _ hstep hq)
    rw [← happended, ← hrest, List.drop_left, List.append_assoc, List.drop_left]
    rfl
  have hnodup : (q.appended.filterMap Job.promise).Nodup := happended ▸ hs.nodup
  have hlt : ∀ n ∈ q.appended.filterMap Job.promise, n < s.futures.length := happended ▸ hs.lt
  have hpending := hs.pending_iff
  simp only [openPromises, hnext] at hpending
  rcases hpromise : j.promise with - | n
  · rw [IoContext.setValue, hpromise]
    refine ⟨⟨hreturned, hnodup, hlt, fun m ↦ ?_, hs.unbroken⟩, rfl⟩
    rw [List.filterMap_cons_none hpromise] at hpending
    show _ ↔ m ∈ (q.appended.drop (s.returned ++ [j]).length).filterMap Job.promise
    rw [happended]
    exact hpending m
  · rw [List.filterMap_cons_some hpromise] at hpending
    have hn : s.futures[n]? = some FutureState.pending := (hpending n).2 List.mem_cons_self
    -- no other function has the promise
    have hother : n ∉ (s.queue.appended.drop (s.returned ++ [j]).length).filterMap Job.promise := by
      have hsub := (hs.nodup.sublist ((List.drop_sublist s.returned.length _).filterMap _))
      rw [hnext, List.filterMap_cons_some hpromise] at hsub
      exact (List.nodup_cons.1 hsub).1
    rw [IoContext.setValue, hpromise]
    dsimp only
    rw [if_pos hn]
    refine ⟨⟨hreturned, hnodup, ?_, fun m ↦ ?_, fun hmem ↦ ?_⟩, rfl⟩
    · rw [List.length_set]
      exact hlt
    · show _ ↔ m ∈ (q.appended.drop (s.returned ++ [j]).length).filterMap Job.promise
      rw [happended]
      rcases eq_or_ne n m with rfl | hne
      · rw [List.getElem?_set_self (List.getElem?_eq_some_iff.1 hn).1]
        exact iff_of_false (by simp) hother
      · rw [List.getElem?_set_ne hne, hpending m, List.mem_cons]
        simp [hne.symm]
    · rcases List.mem_or_eq_of_mem_set hmem with hmem | heq
      · exact hs.unbroken hmem
      · exact absurd heq (by simp)

omit [DecidableEq π] in
theorem FuturesInv.exact (hs : s.FuturesInv) (hq : s.queue.Inv) (hd : s.destroyed = false)
    (hc : s.crashed ≠ some .promiseSatisfied) : s.FuturesExact := by
  refine ⟨hc, fun j hj n hn ↦ ?_, fun h ↦ absurd (hd.symm.trans h) (by simp), fun _ ↦ hs.unbroken⟩
  obtain ⟨rest, hrest⟩ := hs.returned.isPrefix hq
  have hopen : n ∈ s.openPromises ↔ n ∈ rest.filterMap Job.promise := by
    rw [openPromises, ← hrest, List.drop_left]
  have hnodup := hs.nodup
  rw [← hrest, List.filterMap_append] at hnodup
  rw [← hrest] at hj
  have hlt : n < s.futures.length := by
    refine hs.lt n ?_
    rw [← hrest]
    exact List.mem_filterMap.2 ⟨j, hj, hn⟩
  have hpending := hs.pending_iff n
  rw [hopen] at hpending
  have hstate : s.futures[n]? = some FutureState.ready ↔ n ∉ rest.filterMap Job.promise := by
    have hmem : s.futures[n] ∈ s.futures := List.getElem_mem hlt
    have hunbroken := hs.unbroken
    rw [← hpending, List.getElem?_eq_getElem hlt]
    rcases hx : s.futures[n] <;> simp_all
  rw [hstate]
  constructor
  · intro hnot
    refine (List.mem_append.1 hj).resolve_right fun hmem ↦ hnot ?_
    exact List.mem_filterMap.2 ⟨j, hmem, hn⟩
  · intro hmem hopen
    exact List.disjoint_of_nodup_append hnodup (List.mem_filterMap.2 ⟨j, hmem, hn⟩) hopen

omit [DecidableEq π] in
theorem destroyed_setValue {j : Job φ} : (s.setValue j).destroyed = s.destroyed := by
  rw [setValue]
  split
  · rfl
  · split <;> rfl

/-- The steps of a context that is there. -/
theorem alive_of_step (ht : s.step a = some t) : s.destroyed = false ∧ s.crashed = none := by
  unfold step at ht
  obtain ⟨h, -⟩ := Option.ite_none_left_eq_some.1 ht
  simpa using h

omit [DecidableEq π] in
/-- The destruction of the context settles what is open. -/
theorem FuturesInv.destroy (hs : s.FuturesInv) (hinv : s.Inv) (hloop : s.loop = none)
    (hd : s.destroyed = false) (hc : s.crashed = none) : FuturesExact { s with
      destroyed := true
      futures := breakPromises (s.queue.funcs ++ s.queue.tmp) s.futures } := by
  -- outside the loop what is open is what is in the queue
  have hpc : s.queue.pc = .idle := hinv.idle (by simp [hloop])
  have htmp := hinv.queue.tmp_eq_nil (.inl hpc)
  have hreturned := hs.returned
  have horder := hinv.queue.order
  simp only [AsyncQueue.HasReturned, hpc] at hreturned
  rw [AsyncQueue.unexecuted, htmp, List.drop_nil, List.append_nil, hreturned] at horder
  have hopen : s.openPromises = s.queue.funcs.filterMap Job.promise := by
    rw [openPromises, ← horder, List.drop_left]
  have hget := getElem?_breakPromises s.queue.funcs s.futures
  rw [← hopen] at hget
  rw [htmp, List.append_nil]
  refine ⟨by simp [hc], fun j hj n hn ↦ ?_, fun _ hmem ↦ ?_, fun h ↦ absurd h (by simp)⟩
  · rw [← (hs.exact hinv.queue hd (by simp [hc])).ready_iff j hj n hn]
    show (breakPromises s.queue.funcs s.futures)[n]? = _ ↔ _
    rw [hget n]
    split
    · rcases s.futures[n]? with - | x
      · simp
      · cases x <;> simp
    · rfl
  · obtain ⟨n, hn⟩ := List.mem_iff_getElem?.1 hmem
    have hn := (hget n).symm.trans hn
    split at hn
    · obtain ⟨x, -, hx⟩ := Option.map_eq_some_iff.1 hn
      cases x <;> simp at hx
    · rename_i hnot
      exact hnot ((hs.pending_iff n).1 hn)

/-- The invariant of every step. -/
structure Futures (s : IoContext π φ) : Prop extends Inv s, FuturesExact s where
  inv : s.destroyed = false → s.FuturesInv

theorem futures_step (s : IoContext π φ) (a : ContextAction π φ) (t : IoContext π φ)
    (ht : s.step a = some t) (hs : s.Futures) : t.Futures := by
  have hinv := inv_step s a t ht hs.toInv
  obtain ⟨hd, hc⟩ := alive_of_step ht
  have hfutures := hs.inv hd
  -- it is enough to keep the invariant, except when the context is destroyed
  suffices h : t.destroyed = false ∧ t.FuturesInv ∧ t.crashed ≠ some .promiseSatisfied ∨
      t.FuturesExact ∧ t.destroyed = true by
    rcases h with ⟨hd', h, hc'⟩ | ⟨h, hd'⟩
    · exact ⟨hinv, h.exact hinv.queue hd' hc', fun _ ↦ h⟩
    · exact ⟨hinv, h, fun h ↦ absurd (h.symm.trans hd') (by simp)⟩
  have hc' : s.crashed ≠ some .promiseSatisfied := by simp [hc]
  cases Step.of_step ht with
  | misuse _ hne =>
    exact .inl ⟨hd, hfutures.congr hfutures.returned rfl rfl rfl, fun h ↦ hne (Option.some.inj h)⟩
  | destroy hloop => exact .inr ⟨hfutures.destroy hs.toInv hloop hd hc, rfl⟩
  | runWorker | started | runLocal | ready | run | test | poll | endTurn | expired | exitWorker
  | exitLocal | stop | stopLocal | enterJoin | join | call | callback =>
    exact .inl ⟨hd, hfutures.congr hfutures.returned rfl rfl rfl, hc'⟩
  | handle hloop hq ha =>
    have happended := (AsyncQueue.handle_frame hq ha).1
    exact .inl ⟨hd, hfutures.congr (hfutures.returned.handle hq ha) happended rfl rfl, hc'⟩
  | ret hloop hpc hj hq =>
    obtain ⟨h, hsame⟩ := hfutures.setValue hs.queue hpc hj hq
    refine .inl ⟨?_, h, by rw [hsame]; exact hc'⟩
    rw [destroyed_setValue]
    exact hd
  | callReturn => exact .inl ⟨hd, hfutures.callReturn, hc'⟩
  | submit hmay hlocal hq =>
    have h := hfutures.submit hs.queue [] (.inl ⟨rfl, rfl⟩) hq
    rw [List.append_nil] at h
    exact .inl ⟨hd, h, hc'⟩
  | submitReturn hmay hlocal hq =>
    exact .inl ⟨hd, hfutures.submit hs.queue [.pending] (.inr ⟨rfl, rfl⟩) hq, hc'⟩
  | write hq =>
    rw [AsyncQueue.write_eq hq]
    exact .inl ⟨hd, hfutures.congr hfutures.returned rfl rfl rfl, hc'⟩

theorem futures_init : (machine π φ).init.Futures where
  toInv := inv_init
  satisfied := by simp [machine]
  ready_iff := fun j hj ↦ absurd hj List.not_mem_nil
  settled := fun h ↦ absurd h (by simp [machine])
  unbroken := fun _ ↦ List.not_mem_nil
  inv := fun _ ↦ ⟨rfl, List.nodup_nil, by simp [machine], by simp [machine, openPromises],
    List.not_mem_nil⟩

end IoContext

/-- In every run, whatever the threads do and in whatever order, the futures of the functions that
were submitted say what happened to them. -/
theorem futures_exact (π φ : Type*) [DecidableEq π] (as : List (ContextAction π φ)) :
    (IoContext.machine π φ).Throughout IoContext.FuturesExact as :=
  (Machine.throughout_of_invariant IoContext.futures_init IoContext.futures_step as).mono
    fun _ hs ↦ hs.toFuturesExact

end Nsio
