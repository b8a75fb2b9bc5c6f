import Nsio.Foundations.Progress
import Nsio.Coio.Aio

/-!
# The retry loops of `submit` and `fetch_events`

Both functions of `io_aio_impl` call the kernel in a loop until it succeeds. A reply that is no
success is a reason to call again, whatever the error is: `log_errno` is followed by the next round.

`Aio` leaves the replies to the kernel's state and does not tell errors apart. Here the replies are
given as infinite sequences, the thread is the same stack of frames, and it is driven by them alone
(`AioThread.next`); where the two models see the same replies they take the same steps
(`AioThread.SameThread.next`).

Under the assumption that the sequences answer definitely again and again, a thread that meets no
permanent error and whose callbacks submit finitely often lowers a lexicographic rank with every
step, so it returns. One that meets a permanent error stays where it is, and one that has returned
has run finitely many callbacks (`aio_returns_iff`).
-/

namespace Nsio

/-- A reply of `io_submit` for one request. -/
inductive SubmitReply
  | accepted
  /-- `EAGAIN`. -/
  | again
  /-- `EINTR`. -/
  | intr
  /-- Any other error. -/
  | error
  deriving DecidableEq, Repr

/-- The request is taken or refused for good. -/
def SubmitReply.Definite (x : SubmitReply) : Prop := x = .accepted ∨ x = .error
  deriving Decidable

/-- A reply of `io_getevents`, with the completed requests. -/
inductive GetReply (ρ : Type*)
  | events (r : ρ) (rs : List ρ)
  /-- No event. -/
  | zero
  /-- `EINTR`. -/
  | intr
  /-- Any other error. -/
  | error
  deriving DecidableEq, Repr

/-- There are events, or there will be none. -/
def GetReply.Definite {ρ : Type*} : GetReply ρ → Prop
  | .events _ _ => True
  | .zero => False
  | .intr => False
  | .error => True

instance {ρ : Type*} : DecidablePred (GetReply.Definite (ρ := ρ))
  | .events _ _ => .isTrue trivial
  | .zero => .isFalse id
  | .intr => .isFalse id
  | .error => .isTrue trivial

/-- What the thread is answered, call by call. -/
structure Replies (ρ : Type*) where
  submits : ℕ → SubmitReply
  gets : ℕ → GetReply ρ
  /-- What a callback does next: submit a request, or return. -/
  code : ℕ → Option ρ

namespace Replies

variable {ρ : Type*} (env : Replies ρ)

/-- Each call is answered definitely after finitely many other answers, and a permanent error is
repeated. -/
structure Fair : Prop where
  submits_definite : Recurs fun i ↦ (env.submits i).Definite
  gets_definite : Recurs fun i ↦ (env.gets i).Definite
  submits_error : ∀ i, env.submits i = .error → env.submits (i + 1) = .error
  gets_error : ∀ i, env.gets i = .error → env.gets (i + 1) = .error

/-- The requests accepted by the first `n` calls of `io_submit`. -/
def accepted (n : ℕ) : ℕ := (List.range n).countP fun i ↦ env.submits i = .accepted

end Replies

/-- The loop's thread inside `io_aio_impl`, and how far it is in the replies. -/
structure AioThread (ρ : Type*) where
  /-- Innermost call first. -/
  stack : List (AioFrame ρ)
  /-- Calls of `io_submit` so far. -/
  submitted : ℕ := 0
  /-- Calls of `io_getevents` so far. -/
  polled : ℕ := 0
  /-- Steps of callbacks so far. -/
  decided : ℕ := 0
  /-- `_req`. -/
  req : ℕ := 0
  /-- `_res`. -/
  res : ℕ := 0
  /-- Calls of `submit` by callbacks. -/
  nested : ℕ := 0
  deriving DecidableEq, Repr

namespace AioThread

open Aio

variable {ρ : Type*}

/-- A round of the loop of `submit`. -/
def afterSubmit (t : AioThread ρ) (r : ρ) (stack : List (AioFrame ρ)) :
    SubmitReply → AioThread ρ
  | .accepted => { t with stack := stack, submitted := t.submitted + 1, req := t.req + 1 }
  | .again => { t with stack := .fetch :: .submit r :: stack, submitted := t.submitted + 1 }
  | .intr => { t with submitted := t.submitted + 1 }
  -- `log_errno`, and the next round
  | .error => { t with submitted := t.submitted + 1 }

/-- A round of the loop of `fetch_events`, up to the callbacks. -/
def afterGet (t : AioThread ρ) (stack : List (AioFrame ρ)) : GetReply ρ → AioThread ρ
  | .events r rs =>
    { t with stack := .callbacks (r :: rs) (rs.length + 1) :: stack, polled := t.polled + 1 }
  | .zero => { t with polled := t.polled + 1 }
  | .intr => { t with polled := t.polled + 1 }
  -- `log_errno`, and the next round
  | .error => { t with polled := t.polled + 1 }

/-- A callback submits, or it returns and the next one is called, or `fetch_events` returns. -/
def afterCode (t : AioThread ρ) (rest : List ρ) (rc : ℕ) (stack : List (AioFrame ρ)) :
    Option ρ → AioThread ρ
  | some r =>
    { t with
      stack := .submit r :: .callbacks rest rc :: stack
      decided := t.decided + 1
      nested := t.nested + 1 }
  | none =>
    match rest with
    | [] => { t with stack := stack, decided := t.decided + 1, res := t.res + rc }
    | _ :: rest => { t with stack := .callbacks rest rc :: stack, decided := t.decided + 1 }

/-- What the callback that runs does next; before the first callback there is none. -/
def codeOf (env : Replies ρ) (t : AioThread ρ) (rest : List ρ) (rc : ℕ) : Option ρ :=
  if rest.length < rc then env.code t.decided else none

/-- One step. A thread without a frame has returned. -/
def next (env : Replies ρ) (t : AioThread ρ) : AioThread ρ :=
  match t.stack with
  | [] => t
  | .submit r :: stack => t.afterSubmit r stack (env.submits t.submitted)
  | .fetch :: stack => t.afterGet stack (env.gets t.polled)
  | .callbacks rest rc :: stack => t.afterCode rest rc stack (t.codeOf env rest rc)
  | .handler :: stack => { t with stack := stack }

/-- The reply to the call the thread makes next is a permanent error. -/
def Failing (env : Replies ρ) (t : AioThread ρ) : Prop :=
  match t.stack with
  | .submit _ :: _ => env.submits t.submitted = .error
  | .fetch :: _ => env.gets t.polled = .error
  | _ => False

/-! ### The same thread as in `Aio` -/

/-- The action of `Aio` a reply of `io_submit` is. -/
def submitAction : SubmitReply → AioAction ρ
  | .accepted => .accepted
  | .again => .refused
  | .intr => .submitAgain
  | .error => .submitAgain

/-- The action of `Aio` a reply of `io_getevents` is. -/
def getAction : GetReply ρ → AioAction ρ
  | .events _ rs => .getevents (rs.length + 1)
  | .zero => .geteventsAgain
  | .intr => .geteventsAgain
  | .error => .geteventsAgain

/-- The action of `Aio` a step of a callback is. -/
def codeAction (rest : List ρ) : Option ρ → AioAction ρ
  | some r => .submit r
  | none => if rest = [] then .fetched else .deliver

/-- The action of `Aio` the next step is. -/
def action (env : Replies ρ) (t : AioThread ρ) : Option (AioAction ρ) :=
  match t.stack with
  | [] => none
  | .submit _ :: _ => some (submitAction (env.submits t.submitted))
  | .fetch :: _ => some (getAction (env.gets t.polled))
  | .callbacks rest rc :: _ => some (codeAction rest (t.codeOf env rest rc))
  | .handler :: _ => some .rearm

/-- The states of the two models agree on the thread. -/
structure SameThread (s : Aio ρ) (t : AioThread ρ) : Prop where
  stack_eq : s.stack = t.stack
  req_eq : s.req = t.req
  res_eq : s.res = t.res

namespace SameThread

variable {s u : Aio ρ} {t : AioThread ρ} {stack : List (AioFrame ρ)}

theorem afterSubmit {r : ρ} (h : SameThread s t) (hs : s.stack = .submit r :: stack)
    {x : SubmitReply} (hu : s.step (submitAction x) = some u) :
    SameThread u (t.afterSubmit r stack x) := by
  obtain ⟨hstack, hreq, hres⟩ := h
  cases x with
  | accepted =>
    cases Step.of_step (a := .accepted) hu with
    | accepted hs' =>
      obtain ⟨⟨⟩, rfl⟩ := List.cons.inj (hs.symm.trans hs')
      exact ⟨rfl, congrArg (· + 1) hreq, hres⟩
  | again =>
    cases Step.of_step (a := .refused) hu with
    | refused hs' =>
      obtain ⟨⟨⟩, rfl⟩ := List.cons.inj (hs.symm.trans hs')
      exact ⟨rfl, hreq, hres⟩
  | intr | error =>
    cases Step.of_step (a := .submitAgain) hu with
    | submitAgain _ => exact ⟨hstack, hreq, hres⟩

theorem afterGet (h : SameThread s t) (hs : s.stack = .fetch :: stack) {x : GetReply ρ}
    (hring : ∀ r rs, x = .events r rs → r :: rs <+: s.ring)
    (hu : s.step (getAction x) = some u) : SameThread u (t.afterGet stack x) := by
  obtain ⟨hstack, hreq, hres⟩ := h
  cases x with
  | events r rs =>
    cases Step.of_step (a := .getevents (rs.length + 1)) hu with
    | getevents hs' _ =>
      obtain ⟨-, rfl⟩ := List.cons.inj (hs.symm.trans hs')
      have htake : s.ring.take (rs.length + 1) = r :: rs :=
        (List.prefix_iff_eq_take.1 (hring r rs rfl)).symm
      refine ⟨?_, hreq, hres⟩
      show AioFrame.callbacks (s.ring.take (rs.length + 1)) (rs.length + 1) :: _ = _
      rw [htake]
      rfl
  | zero | intr | error =>
    cases Step.of_step (a := .geteventsAgain) hu with
    | geteventsAgain _ => exact ⟨hstack, hreq, hres⟩

theorem afterCode {rest : List ρ} {rc : ℕ} (h : SameThread s t)
    (hs : s.stack = .callbacks rest rc :: stack) {x : Option ρ}
    (hu : s.step (codeAction rest x) = some u) : SameThread u (t.afterCode rest rc stack x) := by
  obtain ⟨-, hreq, hres⟩ := h
  rcases x with - | r
  · rcases rest with - | ⟨r, rest⟩
    · cases Step.of_step (a := .fetched) hu with
      | fetched hs' =>
        obtain ⟨⟨⟩, rfl⟩ := List.cons.inj (hs.symm.trans hs')
        exact ⟨rfl, hreq, congrArg (· + _) hres⟩
    · cases Step.of_step (a := .deliver) hu with
      | deliver hs' =>
        obtain ⟨⟨⟩, rfl⟩ := List.cons.inj (hs.symm.trans hs')
        exact ⟨rfl, hreq, hres⟩
  · cases Step.of_step (a := .submit r) hu with
    | submit _ => exact ⟨congrArg _ hs, hreq, hres⟩

/-- **The two models take the same steps** on the same replies, as long as the events handed out are
the oldest in the ring. -/
theorem next {env : Replies ρ} {a : AioAction ρ} (h : SameThread s t)
    (ha : t.action env = some a) (hu : s.step a = some u)
    (hring : ∀ r rs, env.gets t.polled = .events r rs → r :: rs <+: s.ring) :
    SameThread u (t.next env) := by
  have hstack := h.stack_eq
  rw [action] at ha
  rw [AioThread.next]
  rcases hts : t.stack with - | ⟨f, stack⟩
  · rw [hts] at ha
    exact absurd ha (by simp)
  rw [hts] at ha hstack
  cases f with
  | submit r =>
    obtain rfl := Option.some.inj ha
    exact h.afterSubmit hstack hu
  | fetch =>
    obtain rfl := Option.some.inj ha
    exact h.afterGet hstack hring hu
  | callbacks rest rc =>
    obtain rfl := Option.some.inj ha
    exact h.afterCode hstack hu
  | handler =>
    obtain rfl := Option.some.inj ha
    cases Step.of_step (a := .rearm) hu with
    | rearm hs' =>
      obtain ⟨-, rfl⟩ := List.cons.inj (hstack.symm.trans hs')
      exact ⟨rfl, h.req_eq, h.res_eq⟩

end SameThread

/-! ### What a step can do -/

/-- The steps as a relation, one rule for each kind of reply. -/
inductive Advance (env : Replies ρ) (t : AioThread ρ) : AioThread ρ → Prop
  | accepted {r : ρ} {stack : List (AioFrame ρ)} (hs : t.stack = .submit r :: stack)
    (hx : env.submits t.submitted = .accepted) :
    Advance env t { t with stack := stack, submitted := t.submitted + 1, req := t.req + 1 }
  | refused {r : ρ} {stack : List (AioFrame ρ)} (hs : t.stack = .submit r :: stack)
    (hx : env.submits t.submitted = .again) :
    Advance env t
      { t with stack := .fetch :: .submit r :: stack, submitted := t.submitted + 1 }
  | submitAgain {r : ρ} {stack : List (AioFrame ρ)} (hs : t.stack = .submit r :: stack)
    (hx : env.submits t.submitted = .intr ∨ env.submits t.submitted = .error) :
    Advance env t { t with submitted := t.submitted + 1 }
  | events {r : ρ} {rs : List ρ} {stack : List (AioFrame ρ)} (hs : t.stack = .fetch :: stack)
    (hx : env.gets t.polled = .events r rs) :
    Advance env t
      { t with stack := .callbacks (r :: rs) (rs.length + 1) :: stack, polled := t.polled + 1 }
  | getAgain {stack : List (AioFrame ρ)} (hs : t.stack = .fetch :: stack)
    (hx : env.gets t.polled = .zero ∨ env.gets t.polled = .intr ∨ env.gets t.polled = .error) :
    Advance env t { t with polled := t.polled + 1 }
  | nested {r : ρ} {rest : List ρ} {rc : ℕ} {stack : List (AioFrame ρ)}
    (hs : t.stack = .callbacks rest rc :: stack) (hx : env.code t.decided = some r) :
    Advance env t
      { t with
        stack := .submit r :: .callbacks rest rc :: stack
        decided := t.decided + 1
        nested := t.nested + 1 }
  | fetched {rc : ℕ} {stack : List (AioFrame ρ)} (hs : t.stack = .callbacks [] rc :: stack) :
    Advance env t { t with stack := stack, decided := t.decided + 1, res := t.res + rc }
  | delivered {r : ρ} {rest : List ρ} {rc : ℕ} {stack : List (AioFrame ρ)}
    (hs : t.stack = .callbacks (r :: rest) rc :: stack) :
    Advance env t { t with stack := .callbacks rest rc :: stack, decided := t.decided + 1 }
  | rearmed {stack : List (AioFrame ρ)} (hs : t.stack = .handler :: stack) :
    Advance env t { t with stack := stack }

/-- Every step before the return is by one of the rules. -/
theorem advance_next (env : Replies ρ) {t : AioThread ρ} (hne : t.stack ≠ []) :
    Advance env t (t.next env) := by
  rw [next]
  rcases hs : t.stack with - | ⟨f, stack⟩
  · exact absurd hs hne
  cases f with
  | submit r =>
    dsimp only
    rcases hx : env.submits t.submitted with _ | _ | _ | _
    · exact .accepted hs hx
    · exact .refused hs hx
    · exact .submitAgain hs (.inl hx)
    · exact .submitAgain hs (.inr hx)
  | fetch =>
    dsimp only
    rcases hx : env.gets t.polled with ⟨r, rs⟩ | _ | _ | _
    · exact .events hs hx
    · exact .getAgain hs (.inl hx)
    · exact .getAgain hs (.inr (.inl hx))
    · exact .getAgain hs (.inr (.inr hx))
  | callbacks rest rc =>
    dsimp only
    rcases hx : t.codeOf env rest rc with - | r
    · rcases rest with - | ⟨r, rest⟩
      · exact .fetched hs
      · exact .delivered hs
    -- before the first callback `codeOf` is `none`, so this request is from `code`
    · refine .nested hs ?_
      rw [codeOf] at hx
      split at hx
      · exact hx
      · exact absurd hx (by simp)
  | handler => exact .rearmed hs

/-! ### Requests are counted once -/

/-- The frame is a call of `submit`. -/
def isSubmit : AioFrame ρ → Bool
  | .submit _ => true
  | _ => false

/-- The frame is a call of `io_getevents`. -/
def isFetch : AioFrame ρ → Bool
  | .fetch => true
  | _ => false

/-- The steps a frame takes by itself. -/
def frameWork : AioFrame ρ → ℕ
  | .callbacks rest _ => rest.length + 1
  | .handler => 1
  | _ => 0

/-- What a thread has counted since `t`: `_req` is one more for each request that was accepted, and
the thread returns when every call of `submit` has had its request accepted. -/
structure Accounts (env : Replies ρ) (t u : AioThread ρ) : Prop where
  req_eq : u.req + env.accepted t.submitted = t.req + env.accepted u.submitted
  calls_eq : u.req + u.stack.countP isSubmit + t.nested =
    t.req + t.stack.countP isSubmit + u.nested

theorem Accounts.refl (env : Replies ρ) (t : AioThread ρ) : Accounts env t t := ⟨rfl, rfl⟩

theorem Accounts.trans {env : Replies ρ} {t u v : AioThread ρ} (h₁ : Accounts env t u)
    (h₂ : Accounts env u v) : Accounts env t v := by
  obtain ⟨hreq₁, hcalls₁⟩ := h₁
  obtain ⟨hreq₂, hcalls₂⟩ := h₂
  exact ⟨by omega, by omega⟩

theorem accepted_succ (env : Replies ρ) (n : ℕ) :
    env.accepted (n + 1) = env.accepted n + if env.submits n = .accepted then 1 else 0 := by
  rw [Replies.accepted, Replies.accepted, List.range_succ, List.countP_append]
  simp [List.countP_cons]

variable {env : Replies ρ}

theorem Advance.accounts {t u : AioThread ρ} (h : Advance env t u) : Accounts env t u := by
  cases h with
  -- `_req` and the number of accepted requests go up together, as the `submit` returns
  | accepted hs hx =>
    have hsucc := accepted_succ env t.submitted
    rw [if_pos hx] at hsucc
    refine ⟨by dsimp only; omega, ?_⟩
    rw [hs, List.countP_cons_of_pos rfl]
    dsimp only
    omega
  | refused hs hx =>
    have hsucc := accepted_succ env t.submitted
    rw [hx, if_neg (by decide)] at hsucc
    refine ⟨by dsimp only; omega, ?_⟩
    rw [hs]
    rfl
  | submitAgain hs hx =>
    have hsucc := accepted_succ env t.submitted
    rw [if_neg (by rcases hx with hx | hx <;> rw [hx] <;> decide)] at hsucc
    exact ⟨by dsimp only; omega, rfl⟩
  | events hs hx =>
    refine ⟨rfl, ?_⟩
    rw [hs]
    rfl
  | getAgain hs hx => exact ⟨rfl, rfl⟩
  -- one more `submit` on the stack, called by the callback: it is not counted until it returns
  | nested hs hx =>
    refine ⟨rfl, ?_⟩
    rw [hs, List.countP_cons_of_pos rfl]
    dsimp only
    omega
  | fetched hs | delivered hs | rearmed hs =>
    refine ⟨rfl, ?_⟩
    rw [hs]
    rfl

theorem accounts_iterate (env : Replies ρ) (t : AioThread ρ) (k : ℕ) :
    Accounts env t ((next env)^[k] t) := by
  refine Function.Iterate.rec (Accounts env t) (.refl env t) (fun u h ↦ h.trans ?_) k
  by_cases hnil : u.stack = []
  · rw [next, hnil]
    exact .refl env u
  · exact (advance_next env hnil).accounts

/-! ### Permanent errors -/

/-- **A permanent error is asked for again**, and nothing else changes. -/
theorem failing_next (hfair : env.Fair) {t : AioThread ρ} (h : t.Failing env) :
    (t.next env).Failing env ∧ (t.next env).stack = t.stack := by
  rw [Failing] at h
  rw [next]
  rcases hts : t.stack with - | ⟨f, stack⟩
  · rw [hts] at h
    exact absurd h id
  rw [hts] at h
  cases f with
  | submit r =>
    have herr : env.submits t.submitted = .error := h
    rw [Failing]
    dsimp only
    rw [herr, afterSubmit, hts]
    exact ⟨hfair.submits_error _ herr, rfl⟩
  | fetch =>
    have herr : env.gets t.polled = .error := h
    rw [Failing]
    dsimp only
    rw [herr, afterGet, hts]
    exact ⟨hfair.gets_error _ herr, rfl⟩
  | callbacks rest rc => exact absurd h id
  | handler => exact absurd h id

theorem stack_ne_nil_of_failing {t : AioThread ρ} (h : t.Failing env) : t.stack ≠ [] := by
  intro hnil
  rw [Failing, hnil] at h
  exact h

theorem next_of_returned {t : AioThread ρ} (h : t.stack = []) : t.next env = t := by
  rw [next, h]

/-- A thread that has returned stays so. -/
theorem iterate_of_returned {t : AioThread ρ} (h : t.stack = []) (k : ℕ) :
    (next env)^[k] t = t :=
  Function.iterate_fixed (next_of_returned h) k

/-- A thread that has met a permanent error never returns. -/
theorem not_returned_of_failing (hfair : env.Fair) {t : AioThread ρ} {n : ℕ}
    (h : ((next env)^[n] t).Failing env) (k : ℕ) : ((next env)^[k] t).stack ≠ [] := by
  have hstays : ∀ m, ((next env)^[m] ((next env)^[n] t)).Failing env := fun m ↦
    Function.Iterate.rec (Failing env) h (fun u hu ↦ (failing_next hfair hu).1) m
  intro hk
  have hlate := hstays k
  rw [← Function.iterate_add_apply, Nat.add_comm, Function.iterate_add_apply,
    iterate_of_returned hk] at hlate
  exact stack_ne_nil_of_failing hlate hk

/-! ### Submissions of callbacks -/

theorem Advance.nested_le {t u : AioThread ρ} (h : Advance env t u) : t.nested ≤ u.nested := by
  cases h with
  | nested => exact Nat.le_succ _
  | _ => exact Nat.le_refl _

theorem nested_le_next (env : Replies ρ) (t : AioThread ρ) : t.nested ≤ (t.next env).nested := by
  rcases eq_or_ne t.stack [] with hnil | hne
  · rw [next_of_returned hnil]
  · exact (advance_next env hne).nested_le

/-- What a thread has counted when it returns is the most it ever counts. -/
theorem nested_le_of_returned {t : AioThread ρ} {n : ℕ} (h : ((next env)^[n] t).stack = [])
    (k : ℕ) :
    ((next env)^[k] t).nested ≤ ((next env)^[n] t).nested := by
  have hmono : Monotone fun k ↦ ((next env)^[k] t).nested := monotone_nat_of_le_succ fun k ↦ by
    rw [Function.iterate_succ_apply']
    exact nested_le_next env _
  have hlate : (next env)^[n + k] t = (next env)^[n] t := by
    rw [Nat.add_comm, Function.iterate_add_apply, iterate_of_returned h]
  exact hlate ▸ hmono (Nat.le_add_left k n)

/-! ### Progress -/

/-- The rank of a thread, when callbacks submit `n` times at most. Its parts are, by their weight:
what is left of the submissions of callbacks, the calls of `submit`, the replies until `io_submit`
is definite, the calls of `io_getevents`, the replies until that is definite, and the steps the
frames take by themselves. -/
def rank (hfair : env.Fair) (n : ℕ) (t : AioThread ρ) :
    ℕ ×ₗ ℕ ×ₗ ℕ ×ₗ ℕ ×ₗ ℕ ×ₗ ℕ :=
  toLex (n - t.nested, toLex (t.stack.countP isSubmit,
    toLex (untilNext hfair.submits_definite t.submitted, toLex (t.stack.countP isFetch,
      toLex (untilNext hfair.gets_definite t.polled, (t.stack.map frameWork).sum)))))

theorem rank_lt_iff {hfair : env.Fair} {n : ℕ} {t u : AioThread ρ} :
    rank hfair n u < rank hfair n t ↔
      n - u.nested < n - t.nested ∨ n - u.nested = n - t.nested ∧
        (u.stack.countP isSubmit < t.stack.countP isSubmit ∨
          u.stack.countP isSubmit = t.stack.countP isSubmit ∧
        (untilNext hfair.submits_definite u.submitted <
            untilNext hfair.submits_definite t.submitted ∨
          untilNext hfair.submits_definite u.submitted =
            untilNext hfair.submits_definite t.submitted ∧
        (u.stack.countP isFetch < t.stack.countP isFetch ∨
          u.stack.countP isFetch = t.stack.countP isFetch ∧
        (untilNext hfair.gets_definite u.polled < untilNext hfair.gets_definite t.polled ∨
          untilNext hfair.gets_definite u.polled = untilNext hfair.gets_definite t.polled ∧
        (u.stack.map frameWork).sum < (t.stack.map frameWork).sum)))) := by
  simp only [rank, Prod.Lex.toLex_lt_toLex]

/-- **One step of a thread that meets no permanent error lowers its rank.** -/
theorem Advance.rank_lt (hfair : env.Fair) {n : ℕ} {t u : AioThread ρ} (h : Advance env t u)
    (hok : ¬ t.Failing env) (hn : u.nested ≤ n) : rank hfair n u < rank hfair n t := by
  have hsubmit : ¬ (env.submits t.submitted).Definite →
    untilNext hfair.submits_definite (t.submitted + 1) <
      untilNext hfair.submits_definite t.submitted := untilNext_succ_lt hfair.submits_definite
  have hget : ¬ (env.gets t.polled).Definite →
    untilNext hfair.gets_definite (t.polled + 1) <
      untilNext hfair.gets_definite t.polled := untilNext_succ_lt hfair.gets_definite
  rw [rank_lt_iff]
  rw [Failing] at hok
  cases h with
  | accepted hs hx =>
    rw [hs, List.countP_cons_of_pos rfl]
    exact .inr ⟨rfl, .inl (Nat.lt_succ_self _)⟩
  | refused hs hx =>
    rw [hx] at hsubmit
    rw [hs]
    exact .inr ⟨rfl, .inr ⟨rfl, .inl (hsubmit (by decide))⟩⟩
  | submitAgain hs hx =>
    rw [hs] at hok
    rw [hx.resolve_right hok] at hsubmit
    exact .inr ⟨rfl, .inr ⟨rfl, .inl (hsubmit (by decide))⟩⟩
  | @events r rs stack hs hx =>
    have hfetch : (AioFrame.fetch (ρ := ρ) :: stack).countP isFetch = stack.countP isFetch + 1 :=
      List.countP_cons_of_pos rfl
    rw [hs, hfetch]
    exact .inr ⟨rfl, .inr ⟨rfl, .inr ⟨rfl, .inl (Nat.lt_succ_self _)⟩⟩⟩
  | getAgain hs hx =>
    have htransient : ¬ (env.gets t.polled).Definite := by
      rw [hs] at hok
      rcases hx with hx | hx | hx
      · rw [hx]
        exact id
      · rw [hx]
        exact id
      · exact absurd hx hok
    exact .inr ⟨rfl, .inr ⟨rfl, .inr ⟨rfl, .inr ⟨rfl, .inl (hget htransient)⟩⟩⟩⟩
  | nested hs hx =>
    dsimp only at hn ⊢
    exact .inl (by omega)
  | fetched hs | delivered hs =>
    rw [hs]
    refine .inr ⟨rfl, .inr ⟨rfl, .inr ⟨rfl, .inr ⟨rfl, .inr ⟨rfl, ?_⟩⟩⟩⟩⟩
    simp only [List.map_cons, List.sum_cons, frameWork, List.length_cons, List.length_nil]
    omega
  | rearmed hs =>
    rw [hs]
    refine .inr ⟨rfl, .inr ⟨rfl, .inr ⟨rfl, .inr ⟨rfl, .inr ⟨rfl, ?_⟩⟩⟩⟩⟩
    simp only [List.map_cons, List.sum_cons, frameWork]
    omega

end AioThread

open AioThread

/-- **When `submit` and `fetch_events` return.** For all replies in which each call is answered
definitely after finitely many other answers and permanent errors are repeated, and whatever the
callbacks do: the thread returns if and only if none of its calls is answered by a permanent error
and the callbacks it runs submit finitely often. At every point `_req` has been increased once for
each request `io_submit` has accepted, and these are the requests of the calls of `submit` that have
returned. -/
theorem aio_returns_iff {ρ : Type*} (env : Replies ρ) (hfair : env.Fair) (t : AioThread ρ) :
    ((∃ k, ((next env)^[k] t).stack = []) ↔
      (∀ k, ¬ ((next env)^[k] t).Failing env) ∧ ∃ n, ∀ k, ((next env)^[k] t).nested ≤ n) ∧
      ∀ k, Accounts env t ((next env)^[k] t) := by
  refine ⟨⟨fun ⟨k, hk⟩ ↦ ⟨fun n hn ↦ not_returned_of_failing hfair hn k hk, _,
    nested_le_of_returned hk⟩, fun ⟨hok, n, hn⟩ ↦ ?_⟩, accounts_iterate env t⟩
  refine exists_iterate_of_rank_lt (f := next env) (fun u ↦ u.stack = []) (rank hfair n)
    fun k hk ↦ ?_
  have hnext := hn (k + 1)
  rw [Function.iterate_succ_apply'] at hnext ⊢
  exact (advance_next env hk).rank_lt hfair (hok k) hnext

/-! ### Threads that do not return -/

namespace AioRetry

/-- `io_submit` fails for good. -/
def badSubmit : Replies ℕ := ⟨fun _ ↦ .error, fun _ ↦ .events 0 [], fun _ ↦ none⟩

/-- `io_getevents` fails for good. -/
def badGet : Replies ℕ := ⟨fun _ ↦ .accepted, fun _ ↦ .error, fun _ ↦ none⟩

/-- `io_submit` refuses every other request for lack of room, and every callback submits one. -/
def crowded : Replies ℕ :=
  { submits := fun i ↦ if i % 2 = 0 then .again else .accepted
    gets := fun _ ↦ .events 0 []
    code := fun i ↦ if i % 3 = 1 then some 1 else none }

/-- Every callback submits one request, which is accepted. -/
def submitting : Replies ℕ :=
  { submits := fun _ ↦ .accepted
    gets := fun _ ↦ .events 0 []
    code := fun i ↦ if i % 3 = 1 then some 1 else none }

theorem fair_submitting : submitting.Fair where
  submits_definite := fun _ ↦ ⟨0, .inl rfl⟩
  gets_definite := fun _ ↦ ⟨0, trivial⟩
  submits_error := fun _ h ↦ absurd h (by simp [submitting])
  gets_error := fun _ h ↦ absurd h (by simp [submitting])

theorem fair_badSubmit : badSubmit.Fair where
  submits_definite := fun _ ↦ ⟨0, .inr rfl⟩
  gets_definite := fun _ ↦ ⟨0, trivial⟩
  submits_error := fun _ h ↦ h
  gets_error := fun _ h ↦ absurd h (by simp [badSubmit])

theorem fair_badGet : badGet.Fair where
  submits_definite := fun _ ↦ ⟨0, .inl rfl⟩
  gets_definite := fun _ ↦ ⟨0, trivial⟩
  submits_error := fun _ h ↦ absurd h (by simp [badGet])
  gets_error := fun _ h ↦ h

theorem fair_crowded : crowded.Fair where
  submits_definite := fun i ↦ ⟨1 - i % 2, .inl (if_neg (by omega))⟩
  gets_definite := fun _ ↦ ⟨0, trivial⟩
  submits_error := fun i h ↦ by
    have hne : crowded.submits i ≠ .error := by
      rw [crowded]
      dsimp only
      split <;> simp
    exact absurd h hne
  gets_error := fun _ h ↦ absurd h (by simp [crowded])

/-- The outer `submit` after `n` rounds, in each of which a callback has got its request in. -/
def rounds (n : ℕ) : AioThread ℕ :=
  { stack := [.submit 0]
    submitted := 2 * n
    polled := n
    decided := 3 * n
    req := n
    res := n
    nested := n }

theorem next_rounds (n : ℕ) : (next crowded)^[6] (rounds n) = rounds (n + 1) := by
  have h₁ : crowded.submits (2 * n) = .again := if_pos (by omega)
  have h₂ : crowded.submits (2 * n + 1) = .accepted := if_neg (by omega)
  have h₃ : crowded.code (3 * n + 1) = some 1 := if_pos (by omega)
  have h₄ : crowded.code (3 * n + 1 + 1) = none := if_neg (by omega)
  have h₅ : ∀ i, crowded.gets i = .events 0 [] := fun _ ↦ rfl
  simp [rounds, next, afterSubmit, afterGet, afterCode, codeOf, h₁, h₂, h₃, h₄, h₅]
  omega

theorem iterate_rounds (n : ℕ) : (next crowded)^[6 * n] (rounds 0) = rounds n := by
  induction n with
  | zero => rfl
  | succ n ih =>
    rw [Nat.mul_succ, Nat.add_comm, Function.iterate_add_apply, ih, next_rounds]

/-- A thread that is at work again and again has not returned before. -/
theorem rounds_not_returned (k : ℕ) : ((next crowded)^[k] (rounds 0)).stack ≠ [] := by
  intro hk
  have hlate := iterate_rounds k
  rw [show 6 * k = 5 * k + k by omega, Function.iterate_add_apply, iterate_of_returned hk] at hlate
  rw [hlate] at hk
  exact absurd hk (by simp [rounds])

end AioRetry

open AioRetry

/-- Callbacks that submit one request each, without end; `fetch_events` runs one of them. -/
theorem aio_returns_submitting :
    (∃ k, ((next submitting)^[k] { stack := [.fetch] }).stack = []) ∧
      ∃ n, ∀ k, ((next submitting)^[k] { stack := [.fetch] }).nested ≤ n :=
  have hreturns : ∃ k, ((next submitting)^[k] { stack := [.fetch] }).stack = [] := ⟨5, rfl⟩
  ⟨hreturns, ((aio_returns_iff submitting fair_submitting _).1.1 hreturns).2⟩

/-- With a permanent error of `io_submit`, `submit` never returns; with one of `io_getevents`,
`fetch_events` never returns; and with callbacks that submit without end, a request may be refused
for lack of room without end. -/
theorem aio_never_returns :
    (badSubmit.Fair ∧ (∀ i, badSubmit.code i = none) ∧
      ∀ k, ((next badSubmit)^[k] { stack := [.submit 7] }).stack ≠ []) ∧
    (badGet.Fair ∧ (∀ i, badGet.code i = none) ∧
      ∀ k, ((next badGet)^[k] { stack := [.fetch] }).stack ≠ []) ∧
    (crowded.Fair ∧ (∀ i, crowded.submits i ≠ .error ∧ crowded.gets i ≠ .error) ∧
      ∀ k, ((next crowded)^[k] { stack := [.submit 0] }).stack ≠ []) := by
  refine ⟨⟨fair_badSubmit, fun _ ↦ rfl, fun k ↦ ?_⟩, ⟨fair_badGet, fun _ ↦ rfl, fun k ↦ ?_⟩,
    fair_crowded, fun i ↦ ⟨?_, by simp [crowded]⟩, rounds_not_returned⟩
  · exact not_returned_of_failing (t := { stack := [.submit 7] }) (n := 0) fair_badSubmit
      (show badSubmit.submits 0 = .error from rfl) k
  · exact not_returned_of_failing (t := { stack := [.fetch] }) (n := 0) fair_badGet
      (show badGet.gets 0 = .error from rfl) k
  · rw [crowded]
    dsimp only
    split <;> simp

end Nsio
