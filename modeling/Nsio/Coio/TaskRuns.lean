import Nsio.Coio.TaskCalls

/-!
# What coroutines can rely on

The machine of `task.h` shows the call stacks of `Direct` in every run. What follows from this, for
every code:

* **Crashes** (`cause_of_crashed`). No handle is ever misused. A program ends early only when it
  awaits a task that was moved away, when an exception leaves a coroutine that was spawned, or when
  one leaves a `task<T>` whose promise is in memory that is not zero.
* **Ownership** (`exists_owned`, `frames_eq_none`, `awaited_unique`). Each frame is owned by exactly
  one handle, or by itself if it is detached, and there is no frame once all coroutines have ended.
  A frame has at most one waiter, and its `parent_coro` is this waiter.
* **Sequential meaning** (`eval_of_run`). `Eval` reads the code of a coroutine as a sequential
  program, in which awaiting a task is a call. Whatever the other coroutines do, and wherever its
  frames are, the operations a coroutine awaits are those of this program, and so is what it
  returns.

`Direct.effect` says once what a step can do, and `StackInvariant` what is left to show for a
property of single call stacks.
-/

namespace Nsio

variable {γ ι V E : Type*}

/-! ### Sequential meaning -/

/-- A local task without its name: a call that has not been made, or its outcome. -/
inductive Lazy (γ V E : Type*)
  | pending (kind : TaskKind) (body : γ)
  | done (kind : TaskKind) (outcome : Except E V)

/-- What an activation does next, read sequentially. -/
inductive Next (γ ι V E : Type*)
  | ends (outcome : Except E V)
  | waits (op : ι) (k : Int → γ)
  /-- It goes on, with these local tasks. -/
  | within (locals : List (Option (Lazy γ V E))) (c : γ)
  /-- The pending call of a local task is made. -/
  | call (n : ℕ) (kind : TaskKind) (body : γ) (k : Awaited γ V E)
  /-- It awaits an empty task, or names a task it does not have. -/
  | stuck

/-- What an activation with the given local tasks does next. Spawning has no effect on it. -/
def Act.next (locals : List (Option (Lazy γ V E))) : Act γ ι V E → Next γ ι V E
  | .coReturn v => .ends (.ok v)
  | .throw e => .ends (.error e)
  | .io op k => .waits op k
  | .call kind body k => .within (some (.pending kind body) :: locals) k
  | .await n ref k =>
    match locals[n]? with
    | some (some (.pending kind body)) => .call n kind body (.result ref k)
    | some (some (.done kind outcome)) =>
      .within (locals.set n (some (.done kind (kind.left ref outcome)))) (k (kind.result outcome))
    | none | some none => .stuck
  | .whenReady n k =>
    match locals[n]? with
    | some (some (.pending kind body)) => .call n kind body (.ready k)
    | some none | some (some (.done _ _)) => .within locals k
    | none => .stuck
  | .isReady n k =>
    match locals[n]? with
    | some none | some (some (.done _ _)) => .within locals (k true)
    | some (some (.pending _ _)) => .within locals (k false)
    | none => .stuck
  | .move dst src k =>
    match locals[dst]?, locals[src]? with
    | some _, some new =>
      if dst = src then .within locals k else .within ((locals.set dst new).set src none) k
    | _, _ => .stuck
  | .drop k =>
    match locals with
    | [] => .stuck
    | _ :: locals => .within locals k
  | .spawn _ k => .within locals k

/-- What an activation has come to: an outcome, or an operation whose result it needs. -/
inductive Answer (ι V E : Type*)
  | done (outcome : Except E V)
  | waits (op : ι)

/-- **The sequential program.** With the given local tasks and from the given control point, an
activation awaits the operations of `log`, is given the results in it, and comes to the answer. -/
inductive Eval (code : γ → Act γ ι V E) :
    List (Option (Lazy γ V E)) → γ → List (ι × Int) → Answer ι V E → Prop
  | ends {locals c outcome} (hc : (code c).next locals = .ends outcome) :
    Eval code locals c [] (.done outcome)
  | waits {locals c op k} (hc : (code c).next locals = .waits op k) :
    Eval code locals c [] (.waits op)
  | io {locals c op k r log answer} (hc : (code c).next locals = .waits op k)
    (h : Eval code locals (k r) log answer) : Eval code locals c ((op, r) :: log) answer
  | within {locals c locals' c' log answer} (hc : (code c).next locals = .within locals' c')
    (h : Eval code locals' c' log answer) : Eval code locals c log answer
  /-- A call that has not returned. -/
  | inside {locals c n kind body k log op} (hc : (code c).next locals = .call n kind body k)
    (h : Eval code [] body log (.waits op)) : Eval code locals c log (.waits op)
  | call {locals c n kind body k log log' outcome answer}
    (hc : (code c).next locals = .call n kind body k)
    (hcall : Eval code [] body log (.done outcome))
    (h : Eval code (locals.set n (some (.done kind (k.left kind outcome))))
      (k.resume (kind.result outcome)) log' answer) : Eval code locals c (log ++ log') answer

/-! ### What a step can do -/

def Thunk.toLazy : Thunk γ V E → Lazy γ V E
  | .pending _ init body => .pending init.kind body
  | .done _ kind outcome => .done kind outcome

/-- The local tasks without their names. -/
def calls (locals : List (Option (Thunk γ V E))) : List (Option (Lazy γ V E)) :=
  locals.map (Option.map Thunk.toLazy)

theorem getElem?_calls (locals : List (Option (Thunk γ V E))) (n : ℕ) :
    (calls locals)[n]? = (locals[n]?).map (Option.map Thunk.toLazy) :=
  List.getElem?_map ..

theorem calls_set (locals : List (Option (Thunk γ V E))) (n : ℕ) (x : Option (Thunk γ V E)) :
    calls (locals.set n x) = (calls locals).set n (x.map Thunk.toLazy) :=
  List.map_set

/-- What a step of the call stacks can do. -/
inductive Direct.Effect (code : γ → Act γ ι V E) (t : Direct γ ι V E) : Direct γ ι V E → Prop
  | broken {st c rest n ref k} (hactive : t.active = (st, c) :: rest) (hc : code c = .await n ref k)
    (hempty : st.locals[n]? = some none) : Effect code t (crash .brokenPromise)
  | unhandled {st c rest e} (hactive : t.active = (st, c) :: rest) (hc : code c = .throw e)
    (hst : st.callers = []) : Effect code t (crash (.unhandled e))
  | stray {st c rest e caller callers} (hactive : t.active = (st, c) :: rest)
    (hc : code c = .throw e) (hst : st.callers = caller :: callers)
    (hinit : st.init.keepsException = false) : Effect code t (crash .strayPointer)
  | within {st c rest locals k} (hactive : t.active = (st, c) :: rest)
    (hc : (code c).next (calls st.locals) = .within (calls locals) k) :
    Effect code t { t with active := ({ st with locals := locals }, k) :: rest }
  | spawn {st c rest b body k} (hactive : t.active = (st, c) :: rest)
    (hc : code c = .spawn body k) :
    Effect code t { t with active := ({ name := b, body := body }, body) :: (st, k) :: rest }
  | enter {st c rest n b init body k} (hactive : t.active = (st, c) :: rest)
    (hc : (code c).next (calls st.locals) = .call n init.kind body k) :
    Effect code t { t with active := (st.enter n b init k, body) :: rest }
  | leave {st c rest outcome caller callers} (hactive : t.active = (st, c) :: rest)
    (hc : (code c).next (calls st.locals) = .ends outcome) (hst : st.callers = caller :: callers) :
    Effect code t { t with active := st.leave caller callers outcome :: rest }
  | finish {st c rest v} (hactive : t.active = (st, c) :: rest) (hc : code c = .coReturn v)
    (hst : st.callers = []) :
    Effect code t { t with active := rest, finished := (st.body, st.log, v) :: t.finished }
  | suspend {st c rest op k} (hactive : t.active = (st, c) :: rest)
    (hc : (code c).next (calls st.locals) = .waits op k) :
    Effect code t { t with active := rest, suspended := (st, op, k) :: t.suspended }
  | resume {st op k suspended} (hsuspended : t.suspended.Perm ((st, op, k) :: suspended))
    (r : Int) :
    Effect code t { t with
      active := ({ st with log := st.log ++ [(op, r)] }, k r) :: t.active
      suspended := suspended }
  | post {a body} : Effect code t { t with posted := t.posted ++ [(a, body)] }
  | start {a body posted} (hactive : t.active = []) :
    Effect code t { t with active := [({ name := a, body := body }, body)], posted := posted }

namespace Direct

variable {code : γ → Act γ ι V E} {t t' : Direct γ ι V E}

theorem effect_act {st : CallStack γ ι V E} {c : γ} {rest : List (CallStack γ ι V E × γ)} {b : ℕ}
    {zero : Bool} (hactive : t.active = (st, c) :: rest)
    (h : t.act st rest b zero (code c) = some t') : Effect code t t' := by
  rcases hc : code c with v | e | ⟨op, k⟩ | ⟨kind, body, k⟩ | ⟨n, ref, k⟩ | ⟨n, k⟩ | ⟨n, k⟩ |
    ⟨dst, src, k⟩ | k | ⟨body, k⟩
  all_goals rw [hc, act] at h
  case coReturn =>
    rcases hst : st.callers with - | ⟨caller, callers⟩
    all_goals rw [hst] at h; obtain rfl := Option.some.inj h
    · exact .finish hactive hc hst
    · exact .leave hactive (by rw [hc]; rfl) hst
  case throw =>
    rcases hst : st.callers with - | ⟨caller, callers⟩
    all_goals rw [hst] at h
    · obtain rfl := Option.some.inj h
      exact .unhandled hactive hc hst
    · dsimp only at h
      split at h
      all_goals obtain rfl := Option.some.inj h
      · exact .leave hactive (by rw [hc]; rfl) hst
      · exact .stray hactive hc hst (Bool.eq_false_iff.2 ‹_›)
  case io =>
    obtain rfl := Option.some.inj h
    exact .suspend hactive (by rw [hc]; rfl)
  case call =>
    obtain ⟨-, h⟩ := Option.ite_none_right_eq_some.1 h
    obtain rfl := Option.some.inj h
    exact .within hactive (by rw [hc]; rfl)
  case spawn =>
    obtain ⟨-, h⟩ := Option.ite_none_right_eq_some.1 h
    obtain rfl := Option.some.inj h
    exact .spawn hactive hc
  case await =>
    obtain ⟨x, hx, rfl⟩ := Option.map_eq_some_iff.1 h
    rcases x with - | ⟨b, init, body⟩ | ⟨b, kind, outcome⟩
    · exact .broken hactive hc hx
    · exact .enter hactive (by rw [hc, Act.next, getElem?_calls, hx]; rfl)
    · exact .within hactive (by rw [hc, Act.next, getElem?_calls, hx, calls_set]; rfl)
  case whenReady =>
    obtain ⟨x, hx, rfl⟩ := Option.map_eq_some_iff.1 h
    rcases x with - | ⟨b, init, body⟩ | ⟨b, kind, outcome⟩
    · exact .within hactive (by rw [hc, Act.next, getElem?_calls, hx]; rfl)
    · exact .enter hactive (by rw [hc, Act.next, getElem?_calls, hx]; rfl)
    · exact .within hactive (by rw [hc, Act.next, getElem?_calls, hx]; rfl)
  case isReady =>
    obtain ⟨x, hx, rfl⟩ := Option.map_eq_some_iff.1 h
    rcases x with - | ⟨b, init, body⟩ | ⟨b, kind, outcome⟩
    all_goals exact .within hactive (by rw [hc, Act.next, getElem?_calls, hx]; rfl)
  case move =>
    rcases hdst : st.locals[dst]? with - | old
    · rw [hdst] at h
      exact absurd h (by simp)
    rcases hsrc : st.locals[src]? with - | new
    · rw [hdst, hsrc] at h
      exact absurd h (by simp)
    rw [hdst, hsrc] at h
    dsimp only at h
    by_cases hne : dst = src
    · rw [if_pos hne] at h
      obtain rfl := Option.some.inj h
      refine .within hactive ?_
      rw [hc, Act.next, getElem?_calls, getElem?_calls, hdst, hsrc]
      exact if_pos hne
    · rw [if_neg hne] at h
      obtain rfl := Option.some.inj h
      refine .within hactive ?_
      rw [hc, Act.next, getElem?_calls, getElem?_calls, hdst, hsrc, calls_set, calls_set]
      exact if_neg hne
  case drop =>
    rcases hlocals : st.locals with - | ⟨x, locals⟩
    all_goals rw [hlocals] at h
    · exact absurd h (by simp)
    · obtain rfl := Option.some.inj h
      exact .within hactive (by rw [hc, hlocals]; rfl)

/-- Every step is one of these. -/
theorem effect {a : CoAction γ} (h : t.step code a = some t') : Effect code t t' := by
  cases a with
  | exec b zero =>
    rw [step] at h
    rcases hactive : t.active with - | ⟨⟨st, c⟩, rest⟩
    all_goals rw [hactive] at h
    · exact absurd h (by simp)
    · exact effect_act hactive h
  | resume a r =>
    obtain ⟨x, hx, rfl⟩ := Option.map_eq_some_iff.1 h
    exact .resume (CoHeap.perm_cons_eraseP hx) r
  | post a body =>
    obtain ⟨-, h⟩ := Option.ite_none_right_eq_some.1 h
    obtain rfl := Option.some.inj h
    exact .post
  | start =>
    rw [step] at h
    rcases hactive : t.active with - | ⟨x, rest⟩
    all_goals rcases hposted : t.posted with - | ⟨⟨a, body⟩, posted⟩
    all_goals rw [hactive, hposted] at h
    case nil.cons =>
      obtain rfl := Option.some.inj h
      exact .start hactive
    all_goals exact absurd h (by simp)

end Direct

/-! ### One call stack at a time -/

/-- What is true of a new call stack, and kept by everything a call stack can do on its own. -/
structure StackInvariant (code : γ → Act γ ι V E) (A : CallStack γ ι V E → γ → Prop)
    (S : CallStack γ ι V E → ι → (Int → γ) → Prop) : Prop where
  new (b : ℕ) (body : γ) : A { name := b, body := body } body
  within {st c locals k} (hc : (code c).next (calls st.locals) = .within (calls locals) k)
    (h : A st c) : A { st with locals := locals } k
  enter {st c n b init body k} (hc : (code c).next (calls st.locals) = .call n init.kind body k)
    (h : A st c) : A (st.enter n b init k) body
  leave {st c outcome caller callers} (hc : (code c).next (calls st.locals) = .ends outcome)
    (hst : st.callers = caller :: callers) (h : A st c) :
    A (st.leave caller callers outcome).1 (st.leave caller callers outcome).2
  suspend {st c op k} (hc : (code c).next (calls st.locals) = .waits op k) (h : A st c) :
    S st op k
  resume {st op k} (h : S st op k) (r : Int) : A { st with log := st.log ++ [(op, r)] } (k r)

namespace StackInvariant

variable {code : γ → Act γ ι V E} {A : CallStack γ ι V E → γ → Prop}
  {S : CallStack γ ι V E → ι → (Int → γ) → Prop} {t t' : Direct γ ι V E}

theorem effect (hinv : StackInvariant code A S) (heffect : t.Effect code t')
    (h : (∀ x ∈ t.active, A x.1 x.2) ∧ ∀ x ∈ t.suspended, S x.1 x.2.1 x.2.2) :
    (∀ x ∈ t'.active, A x.1 x.2) ∧ ∀ x ∈ t'.suspended, S x.1 x.2.1 x.2.2 := by
  -- the step is taken by the call stack at the front
  have hfront : ∀ {st c rest}, t.active = (st, c) :: rest → A st c ∧ ∀ x ∈ rest, A x.1 x.2 :=
    fun hactive ↦ List.forall_mem_cons.1 (hactive ▸ h.1)
  cases heffect with
  | broken | unhandled | stray => exact ⟨List.forall_mem_nil _, List.forall_mem_nil _⟩
  | within hactive hc =>
    obtain ⟨hst, hrest⟩ := hfront hactive
    exact ⟨List.forall_mem_cons.2 ⟨hinv.within hc hst, hrest⟩, h.2⟩
  | spawn hactive hc =>
    obtain ⟨hst, hrest⟩ := hfront hactive
    have hgoes := hinv.within (by rw [hc]; rfl) hst
    exact ⟨List.forall_mem_cons.2 ⟨hinv.new _ _, List.forall_mem_cons.2 ⟨hgoes, hrest⟩⟩, h.2⟩
  | enter hactive hc =>
    obtain ⟨hst, hrest⟩ := hfront hactive
    exact ⟨List.forall_mem_cons.2 ⟨hinv.enter hc hst, hrest⟩, h.2⟩
  | leave hactive hc hcallers =>
    obtain ⟨hst, hrest⟩ := hfront hactive
    exact ⟨List.forall_mem_cons.2 ⟨hinv.leave hc hcallers hst, hrest⟩, h.2⟩
  | finish hactive hc hcallers => exact ⟨(hfront hactive).2, h.2⟩
  | suspend hactive hc =>
    obtain ⟨hst, hrest⟩ := hfront hactive
    exact ⟨hrest, List.forall_mem_cons.2 ⟨hinv.suspend hc hst, h.2⟩⟩
  | resume hsuspended r =>
    have hmem := List.forall_mem_cons.1 fun x hx ↦ h.2 x (hsuspended.mem_iff.2 hx)
    exact ⟨List.forall_mem_cons.2 ⟨hinv.resume hmem.1 r, h.1⟩, hmem.2⟩
  | post => exact h
  | start => exact ⟨List.forall_mem_singleton.2 (hinv.new _ _), h.2⟩

/-- It holds of every call stack, whatever the others do. -/
theorem of_reachable (hinv : StackInvariant code A S) (h : (Direct.machine code).Reachable t) :
    (∀ x ∈ t.active, A x.1 x.2) ∧ ∀ x ∈ t.suspended, S x.1 x.2.1 x.2.2 :=
  h.invariant ⟨List.forall_mem_nil _, List.forall_mem_nil _⟩
    fun _ _ _ ht ↦ hinv.effect (Direct.effect ht)

end StackInvariant

/-! ### Crashes -/

section Crashes

variable {code : γ → Act γ ι V E} {t t' : Direct γ ι V E} {a : CoAction γ}

/-- No local task of the call stack has been moved away. -/
def CallStack.Whole (st : CallStack γ ι V E) : Prop :=
  none ∉ st.locals ∧ ∀ c ∈ st.callers, none ∉ c.inner ∧ none ∉ c.outer

theorem none_mem_calls {locals : List (Option (Thunk γ V E))} :
    none ∈ calls locals ↔ none ∈ locals := by
  simp [calls]

/-- Only a move empties a task. -/
theorem Act.none_notMem_within {a : Act γ ι V E} (ha : ∀ dst src k, a ≠ .move dst src k)
    {locals locals' : List (Option (Lazy γ V E))} {k : γ} (h : a.next locals = .within locals' k)
    (hlocals : none ∉ locals) : none ∉ locals' := by
  cases a with
  | move dst src k => exact absurd rfl (ha dst src k)
  | call kind body k' =>
    obtain ⟨rfl, -⟩ := Next.within.inj h
    simpa using hlocals
  | drop k' =>
    cases locals with
    | nil => exact absurd h (by simp [next])
    | cons x locals =>
      obtain ⟨rfl, -⟩ := Next.within.inj h
      exact fun hmem ↦ hlocals (List.mem_cons_of_mem _ hmem)
  | coReturn | throw | io => exact absurd h (by simp [next])
  | spawn body k' => exact (Next.within.inj h).1 ▸ hlocals
  | await n ref k' =>
    rw [next] at h
    split at h
    case h_2 =>
      obtain ⟨rfl, -⟩ := Next.within.inj h
      exact fun hmem ↦ (List.mem_or_eq_of_mem_set hmem).elim hlocals (by simp)
    all_goals exact absurd h (by simp)
  | whenReady n k' | isReady n k' =>
    rw [next] at h
    split at h
    all_goals first | exact (Next.within.inj h).1 ▸ hlocals | exact absurd h (by simp)

theorem CallStack.Whole.enter {st : CallStack γ ι V E} (h : st.Whole) (n b : ℕ)
    (init : PromiseInit) (k : Awaited γ V E) : (st.enter n b init k).Whole := by
  refine ⟨List.not_mem_nil, fun c hc ↦ ?_⟩
  rcases List.mem_cons.1 hc with rfl | hc
  · exact ⟨fun hmem ↦ h.1 (List.mem_of_mem_take hmem), fun hmem ↦ h.1 (List.mem_of_mem_drop hmem)⟩
  · exact h.2 c hc

theorem CallStack.Whole.leave {st : CallStack γ ι V E} (h : st.Whole) {c : Caller γ V E}
    {callers : List (Caller γ V E)} (hst : st.callers = c :: callers) (outcome : Except E V) :
    (st.leave c callers outcome).1.Whole := by
  rw [Whole, hst] at h
  have hc := h.2 c List.mem_cons_self
  refine ⟨?_, fun c hc ↦ h.2 c (List.mem_cons_of_mem _ hc)⟩
  simpa [CallStack.leave] using hc

/-- Without a move, no task is ever empty. -/
theorem stackInvariant_whole (hcode : ∀ c dst src k, code c ≠ .move dst src k) :
    StackInvariant code (fun st _ ↦ st.Whole) fun st _ _ ↦ st.Whole where
  new b body := ⟨List.not_mem_nil, fun _ hc ↦ absurd hc List.not_mem_nil⟩
  within {st c locals k} hc h := by
    refine ⟨fun hmem ↦ ?_, h.2⟩
    exact Act.none_notMem_within (hcode c) hc (fun hcalls ↦ h.1 (none_mem_calls.1 hcalls))
      (none_mem_calls.2 hmem)
  enter hc h := h.enter ..
  leave hc hst h := h.leave hst _
  suspend hc h := h
  resume h r := h

/-- Why a program ends early when the coroutine of the frame `f` goes on at `c`. -/
def Crash.Cause (code : γ → Act γ ι V E) (f : CoFrame γ ι V E) (c : γ) : Crash E → Prop
  -- it awaits an empty task; without a move there are none
  | .brokenPromise => (∃ n ref k, code c = .await n ref k ∧ f.locals[n]? = some none) ∧
    ∃ c' dst src k, code c' = .move dst src k
  -- an exception leaves it, and it is detached
  | .unhandled e => code c = .throw e ∧ f.promise = .void .detached
  -- an exception leaves it, and its promise is in memory that is not zero
  | .strayPointer => (∃ e, code c = .throw e) ∧ f.promise = .value (.mono false)
  | .misuse => False

/-- Nothing is left of a program that has crashed. -/
structure Direct.Over (t : Direct γ ι V E) : Prop where
  active : t.active = []
  suspended : t.suspended = []
  posted : t.posted = []

theorem Direct.Over.step_eq_none {why : Crash E} (h : t.Over) (hwhy : t.crashed = some why)
    (a : CoAction γ) : t.step code a = none := by
  cases a with
  | exec b zero => rw [step, h.active]
  | resume a r => rw [step, h.suspended]; rfl
  | post a body => exact if_neg (by simp [hwhy])
  | start => rw [step, h.active, h.posted]

theorem Direct.over_of_reachable (h : (machine code).Reachable t) :
    t.crashed ≠ none → t.Over := by
  refine h.invariant (P := fun t ↦ t.crashed ≠ none → t.Over) (fun hne ↦ absurd rfl hne) ?_
  intro s a t ht hs hne
  have hstep : ∀ {why}, s.crashed = some why → False := fun hwhy ↦
    absurd (ht.symm.trans ((hs (by simp [hwhy])).step_eq_none hwhy a)) (by simp)
  have hkept : ∀ {u : Direct γ ι V E}, u.crashed ≠ none → u.crashed = s.crashed → u.Over := by
    intro u hu heq
    obtain ⟨why, hwhy⟩ := Option.ne_none_iff_exists'.1 hu
    exact (hstep (heq ▸ hwhy)).elim
  have heffect : Effect code s t := effect ht
  cases heffect with
  | broken | unhandled | stray => exact ⟨rfl, rfl, rfl⟩
  | _ => exact hkept hne rfl

/-- A program crashes when a coroutine goes on. -/
theorem Direct.eq_exec_of_crashed {a : CoAction γ} (ht : t.step code a = some t')
    (hcrash : t'.crashed ≠ t.crashed) : ∃ b zero, a = .exec b zero := by
  cases a with
  | exec b zero => exact ⟨b, zero, rfl⟩
  | resume a r =>
    obtain ⟨x, -, rfl⟩ := Option.map_eq_some_iff.1 ht
    exact absurd rfl hcrash
  | post a body =>
    obtain ⟨-, ht⟩ := Option.ite_none_right_eq_some.1 ht
    exact absurd (Option.some.inj ht ▸ rfl) hcrash
  | start =>
    rw [step] at ht
    split at ht
    · exact absurd (Option.some.inj ht ▸ rfl) hcrash
    · exact absurd ht (by simp)

theorem PromiseInit.eq_of_keepsException {init : PromiseInit}
    (h : init.keepsException = false) : init = ⟨.value, false⟩ := by
  obtain ⟨kind, zero⟩ := init
  revert h
  cases kind <;> cases zero <;> decide

/-- The coroutine that goes on gives the cause. -/
theorem Direct.exists_cause {why : Crash E} (hs : (machine code).Reachable t)
    (ht : t.step code a = some t') (hnone : t.crashed = none) (hwhy : t'.crashed = some why) :
    ∃ st c rest, t.active = (st, c) :: rest ∧ why.Cause code (st.frame (.running c)) c := by
  have heffect : Effect code t t' := effect ht
  cases heffect with
  | @broken st c rest n ref k hactive hc hempty =>
    obtain rfl := Option.some.inj hwhy
    refine ⟨st, c, rest, hactive, ⟨n, ref, k, hc, ?_⟩, ?_⟩
    · rw [CallStack.frame, CoHeap.getElem?_handles, hempty]
      rfl
    · by_contra hcode
      have hwhole : st.Whole := (stackInvariant_whole fun c dst src k hmove ↦
        hcode ⟨c, dst, src, k, hmove⟩).of_reachable hs |>.1 (st, c) (hactive ▸ List.mem_cons_self)
      exact hwhole.1 (List.mem_of_getElem? hempty)
  | @unhandled st c rest e hactive hc hst =>
    obtain rfl := Option.some.inj hwhy
    refine ⟨st, c, rest, hactive, hc, ?_⟩
    rw [CallStack.frame, hst]
    rfl
  | @stray st c rest e caller callers hactive hc hst hinit =>
    obtain rfl := Option.some.inj hwhy
    refine ⟨st, c, rest, hactive, ⟨e, hc⟩, ?_⟩
    rw [CoHeap.promise_frame_of_caller hst, PromiseInit.eq_of_keepsException hinit]
    rfl
  | _ => exact absurd (hnone.symm.trans hwhy) (by simp)

end Crashes

/-! ### The history of a call stack -/

section History

variable {code : γ → Act γ ι V E} {t t' : Direct γ ι V E}

/-- When the activation at `name` has come to an answer, its callers await the operations of the log
and come to the last answer. -/
def Caller.Evals (code : γ → Act γ ι V E) :
    ℕ → TaskKind → List (Caller γ V E) → Answer ι V E → List (ι × Int) → Answer ι V E → Prop
  | _, _, [], answer, log, last => log = [] ∧ last = answer
  | _, _, _ :: _, .waits op, log, last => log = [] ∧ last = .waits op
  | name, kind, c :: callers, .done outcome, log, last =>
    ∃ log₁ log₂ answer, log = log₁ ++ log₂ ∧
      Eval code (calls (c.inner ++ some (.done name kind (c.k.left kind outcome)) :: c.outer))
        (c.k.resume (kind.result outcome)) log₁ answer ∧
      Evals code c.name c.init.kind callers answer log₂ last

/-- The call stack, from the control point of its innermost activation on. -/
def CallStack.Evals (code : γ → Act γ ι V E) (st : CallStack γ ι V E) (c : γ) (log : List (ι × Int))
    (last : Answer ι V E) : Prop :=
  ∃ log₁ log₂ answer, log = log₁ ++ log₂ ∧ Eval code (calls st.locals) c log₁ answer ∧
    Caller.Evals code st.name st.init.kind st.callers answer log₂ last

theorem Act.lt_of_call {a : Act γ ι V E} {locals : List (Option (Lazy γ V E))} {n : ℕ}
    {kind : TaskKind} {body : γ} {k : Awaited γ V E}
    (h : a.next locals = .call n kind body k) : n < locals.length := by
  cases a with
  | await m _ k' | whenReady m k' =>
    rw [next] at h
    split at h
    case h_1 hm =>
      obtain ⟨rfl, -⟩ := Next.call.inj h
      exact (List.getElem?_eq_some_iff.1 hm).1
    all_goals exact absurd h (by simp)
  | isReady m k' | move dst src k' =>
    rw [next] at h
    repeat' split at h
    all_goals exact absurd h (by simp)
  | drop k' => cases locals <;> exact absurd h (by simp [next])
  | _ => exact absurd h (by simp [next])

theorem Caller.evals_waits (name : ℕ) (kind : TaskKind) (callers : List (Caller γ V E)) (op : ι) :
    Caller.Evals code name kind callers (.waits op) [] (.waits op) := by
  cases callers <;> exact ⟨rfl, rfl⟩

namespace CallStack

variable {st : CallStack γ ι V E} {c : γ} {log : List (ι × Int)} {last : Answer ι V E}

/-- What the innermost activation does first. -/
theorem Evals.imp {st' : CallStack γ ι V E} {c' : γ} (h : st'.Evals code c' log last)
    (log' : List (ι × Int)) (hname : st'.name = st.name) (hinit : st'.init = st.init)
    (hcallers : st'.callers = st.callers)
    (heval : ∀ log answer, Eval code (calls st'.locals) c' log answer →
      Eval code (calls st.locals) c (log' ++ log) answer) : st.Evals code c (log' ++ log) last := by
  obtain ⟨log₁, log₂, answer, rfl, h₁, h₂⟩ := h
  refine ⟨log' ++ log₁, log₂, answer, (List.append_assoc ..).symm, heval log₁ answer h₁, ?_⟩
  rwa [hname, hinit, hcallers] at h₂

theorem evals_enter {n b : ℕ} {init : PromiseInit} {body : γ} {k : Awaited γ V E}
    (hc : (code c).next (calls st.locals) = .call n init.kind body k)
    (h : (st.enter n b init k).Evals code body log last) : st.Evals code c log last := by
  obtain ⟨log₁, log₂, answer, rfl, h₁, h₂⟩ := h
  cases answer with
  | waits op =>
    obtain ⟨rfl, rfl⟩ := h₂
    exact ⟨log₁, [], .waits op, rfl, .inside hc h₁, Caller.evals_waits ..⟩
  | done outcome =>
    obtain ⟨log₃, log₄, answer, rfl, h₃, h₄⟩ := h₂
    refine ⟨log₁ ++ log₃, log₄, answer, (List.append_assoc ..).symm, .call hc h₁ ?_, h₄⟩
    have hlocals : ∀ x : Option (Thunk γ V E),
        st.locals.take n ++ x :: st.locals.drop (n + 1) = st.locals.set n x := fun x ↦ by
      have hn := Act.lt_of_call hc
      rw [calls, List.length_map] at hn
      rw [List.set_eq_take_append_cons_drop, if_pos hn]
    have h₃' : Eval code (calls (st.locals.take n ++ some (.done b init.kind
      (k.left init.kind outcome)) :: st.locals.drop (n + 1)))
      (k.resume (init.kind.result outcome)) log₃ answer := h₃
    rwa [hlocals, calls_set] at h₃'

theorem evals_leave {outcome : Except E V} {caller : Caller γ V E} {callers : List (Caller γ V E)}
    (hc : (code c).next (calls st.locals) = .ends outcome) (hst : st.callers = caller :: callers)
    (h : (st.leave caller callers outcome).1.Evals code (st.leave caller callers outcome).2 log
      last) : st.Evals code c log last := by
  refine ⟨[], log, .done outcome, rfl, .ends hc, ?_⟩
  rw [hst]
  exact h

end CallStack

/-- **History.** What has happened to a call stack, followed by what it will do, is what its body
does. -/
theorem stackInvariant_history :
    StackInvariant code
      (fun st c ↦ ∀ log last, st.Evals code c log last → Eval code [] st.body (st.log ++ log) last)
      fun st op k ↦ Eval code [] st.body st.log (.waits op) ∧ ∀ r log last,
        st.Evals code (k r) log last → Eval code [] st.body (st.log ++ (op, r) :: log) last where
  new b body log last h := by
    obtain ⟨log₁, log₂, answer, rfl, h₁, rfl, rfl⟩ := h
    rw [List.append_nil]
    exact h₁
  within {st c locals k} hc h log last hlast :=
    h log last (hlast.imp [] rfl rfl rfl fun _ _ heval ↦ .within hc heval)
  enter hc h log last hlast := h log last (CallStack.evals_enter hc hlast)
  leave hc hst h log last hlast := h log last (CallStack.evals_leave hc hst hlast)
  suspend {st c op k} hc h := by
    refine ⟨?_, fun r log last hlast ↦ ?_⟩
    · have hwaits := h [] (.waits op) ⟨[], [], .waits op, rfl, .waits hc, Caller.evals_waits ..⟩
      rwa [List.append_nil] at hwaits
    · exact h _ last (hlast.imp [(op, r)] rfl rfl rfl fun _ _ heval ↦ .io hc heval)
  resume {st op k} h r log last hlast := by
    rw [List.append_assoc]
    exact h.2 r log last hlast

/-- A coroutine that has ended has done what its body does. -/
theorem Direct.eval_of_mem_finished (h : (machine code).Reachable t) :
    ∀ x ∈ t.finished, Eval code [] x.1 x.2.1 (.done (.ok x.2.2)) := by
  have hinv : (machine code).Reachable t ∧
      ∀ x ∈ t.finished, Eval code [] x.1 x.2.1 (.done (.ok x.2.2)) := by
    refine Machine.Reachable.invariant (P := fun t ↦ (machine code).Reachable t ∧
      ∀ x ∈ t.finished, Eval code [] x.1 x.2.1 (.done (.ok x.2.2))) h
      ⟨.init, List.forall_mem_nil _⟩ ?_
    intro s a t ht hs
    refine ⟨hs.1.step ht, ?_⟩
    have heffect : Effect code s t := effect ht
    cases heffect with
    | broken | unhandled | stray => exact List.forall_mem_nil _
    | @finish st c rest v hactive hc hst =>
      have hlast := (stackInvariant_history.of_reachable hs.1).1 (st, c)
        (hactive ▸ List.mem_cons_self) [] (.done (.ok v))
        ⟨[], [], .done (.ok v), rfl, .ends (by rw [hc]; rfl), by rw [hst]; exact ⟨rfl, rfl⟩⟩
      rw [List.append_nil] at hlast
      exact List.forall_mem_cons.2 ⟨hlast, hs.2⟩
    | _ => exact hs.2
  exact hinv.2

end History

/-! ### The results determine the operations -/

section Unique

variable {code : γ → Act γ ι V E} {locals : List (Option (Lazy γ V E))} {c : γ}
  {log log' : List (ι × Int)} {answer answer' : Answer ι V E}

/-- Of two readings of one program, one has not come further than the other, and agrees with it. -/
def Agree (log : List (ι × Int)) (answer : Answer ι V E) (log' : List (ι × Int))
    (answer' : Answer ι V E) : Prop :=
  (log = log' ∧ answer = answer') ∨
    (∃ op r rest, log' = log ++ (op, r) :: rest ∧ answer = .waits op) ∨
    ∃ op r rest, log = log' ++ (op, r) :: rest ∧ answer' = .waits op

theorem Agree.append (h : Agree log answer log' answer') (before : List (ι × Int)) :
    Agree (before ++ log) answer (before ++ log') answer' := by
  rcases h with ⟨rfl, rfl⟩ | ⟨op, r, rest, rfl, rfl⟩ | ⟨op, r, rest, rfl, rfl⟩
  · exact .inl ⟨rfl, rfl⟩
  · exact .inr (.inl ⟨op, r, rest, (List.append_assoc ..).symm, rfl⟩)
  · exact .inr (.inr ⟨op, r, rest, (List.append_assoc ..).symm, rfl⟩)

/-- A call that one reading has returned from and the other has not. -/
theorem Agree.inside {outcome : Except E V} {op : ι}
    (h : Agree log (.waits op) log' (.done outcome)) (after : List (ι × Int)) :
    ∃ r rest, log' ++ after = log ++ (op, r) :: rest := by
  rcases h with ⟨-, hne⟩ | ⟨op', r, rest, rfl, heq⟩ | ⟨_, _, _, _, hne⟩
  · cases hne
  · cases heq
    exact ⟨r, rest ++ after, List.append_assoc ..⟩
  · cases hne

theorem Agree.symm (h : Agree log answer log' answer') : Agree log' answer' log answer := by
  rcases h with ⟨rfl, rfl⟩ | h | h
  · exact .inl ⟨rfl, rfl⟩
  · exact .inr (.inr h)
  · exact .inr (.inl h)

/-- Two readings that are given the same results agree. -/
theorem Eval.agree (h : Eval code locals c log answer) (h' : Eval code locals c log' answer')
    {rs rs' : List Int} (hrs : log.map Prod.snd ++ rs = log'.map Prod.snd ++ rs') :
    Agree log answer log' answer' := by
  -- what comes next is the same in both, so the last rules of the two readings fit together
  induction h generalizing log' answer' rs rs' with
  | ends hc =>
    cases h' with
    | ends hc' =>
      cases hc.symm.trans hc'
      exact .inl ⟨rfl, rfl⟩
    | waits hc' | io hc' | within hc' | inside hc' | call hc' => cases hc.symm.trans hc'
  | @waits _ _ op k hc =>
    cases h' with
    | waits hc' =>
      cases hc.symm.trans hc'
      exact .inl ⟨rfl, rfl⟩
    | @io _ _ _ _ r rest _ hc' h' =>
      cases hc.symm.trans hc'
      exact .inr (.inl ⟨op, r, rest, rfl, rfl⟩)
    | ends hc' | within hc' | inside hc' | call hc' => cases hc.symm.trans hc'
  | @io _ _ op k r rest _ hc h ih =>
    cases h' with
    | waits hc' =>
      cases hc.symm.trans hc'
      exact .inr (.inr ⟨op, r, rest, rfl, rfl⟩)
    | io hc' h' =>
      cases hc.symm.trans hc'
      obtain ⟨rfl, hrs'⟩ := List.cons.inj hrs
      exact (ih h' hrs').append [(op, r)]
    | ends hc' | within hc' | inside hc' | call hc' => cases hc.symm.trans hc'
  | within hc h ih =>
    cases h' with
    | within hc' h' =>
      cases hc.symm.trans hc'
      exact ih h' hrs
    | ends hc' | waits hc' | io hc' | inside hc' | call hc' => cases hc.symm.trans hc'
  | @inside _ _ _ _ _ _ log op hc h ih =>
    cases h' with
    | inside hc' h' =>
      cases hc.symm.trans hc'
      exact ih h' hrs
    | @call _ _ _ _ _ _ _ after _ _ hc' hcall' h' =>
      cases hc.symm.trans hc'
      rw [List.map_append, List.append_assoc] at hrs
      obtain ⟨r, rest, hlog⟩ := (ih hcall' hrs).inside after
      exact .inr (.inl ⟨op, r, rest, hlog, rfl⟩)
    | ends hc' | waits hc' | io hc' | within hc' => cases hc.symm.trans hc'
  | @call _ _ _ _ _ _ log after _ _ hc hcall h ihcall ih =>
    rw [List.map_append, List.append_assoc] at hrs
    cases h' with
    | @inside _ _ _ _ _ _ _ op hc' h' =>
      cases hc.symm.trans hc'
      obtain ⟨r, rest, hlog⟩ := (ihcall h' hrs).symm.inside after
      exact .inr (.inr ⟨op, r, rest, hlog, rfl⟩)
    | call hc' hcall' h' =>
      cases hc.symm.trans hc'
      rw [List.map_append, List.append_assoc] at hrs
      rcases ihcall hcall' hrs with ⟨rfl, heq⟩ | ⟨_, _, _, _, hne⟩ | ⟨_, _, _, _, hne⟩
      · cases heq
        exact (ih h' (List.append_cancel_left hrs)).append _
      · cases hne
      · cases hne
    | ends hc' | waits hc' | io hc' | within hc' => cases hc.symm.trans hc'

/-- The results that a program is given determine the operations it awaits, and what it comes to. -/
theorem Eval.unique (h : Eval code locals c log answer) (h' : Eval code locals c log' answer')
    (hrs : log.map Prod.snd = log'.map Prod.snd) : log = log' ∧ answer = answer' := by
  have hlength : log.length = log'.length := by simpa using congrArg List.length hrs
  have hrs' : log.map Prod.snd ++ [] = log'.map Prod.snd ++ [] := by rw [hrs]
  rcases h.agree h' hrs' with h | ⟨_, _, _, hlog, -⟩ | ⟨_, _, _, hlog, -⟩
  · exact h
  all_goals
    rw [hlog, List.length_append, List.length_cons] at hlength
    omega

end Unique

/-! ### Who owns a frame -/

section Owners

/-- The handles that the frames hold. -/
def held (cells : List (ℕ × CoFrame γ ι V E)) : List ℕ :=
  cells.flatMap fun x ↦ x.2.locals.reduceOption

/-- The frames of detached tasks, which destroy themselves. -/
def detached (cells : List (ℕ × CoFrame γ ι V E)) : List ℕ :=
  (cells.filter fun x ↦ x.2.promise.isDetached).map Prod.fst

/-- Each frame is owned once. -/
def Owned (cells : List (ℕ × CoFrame γ ι V E)) : Prop :=
  (held cells ++ detached cells).Perm (cells.map Prod.fst)

variable {cells cells' : List (ℕ × CoFrame γ ι V E)}

theorem held_append : held (cells ++ cells') = held cells ++ held cells' := List.flatMap_append

theorem detached_append : detached (cells ++ cells') = detached cells ++ detached cells' := by
  rw [detached, List.filter_append, List.map_append]
  rfl

theorem Owned.append (h : Owned cells) (h' : Owned cells') : Owned (cells ++ cells') := by
  rw [Owned, held_append, detached_append, List.map_append]
  have hsort : (held cells ++ held cells' ++ (detached cells ++ detached cells')).Perm
      (held cells ++ detached cells ++ (held cells' ++ detached cells')) := by
    rw [List.append_assoc, List.append_assoc]
    exact (List.perm_append_comm_assoc ..).append_left _
  exact hsort.trans (List.Perm.append h h')

theorem owned_flatMap {α : Type*} {l : List α} {f : α → List (ℕ × CoFrame γ ι V E)}
    (h : ∀ x ∈ l, Owned (f x)) : Owned (l.flatMap f) := by
  induction l with
  | nil => exact .nil
  | cons x l ih =>
    rw [List.flatMap_cons]
    exact (h x List.mem_cons_self).append (ih fun y hy ↦ h y (List.mem_cons_of_mem _ hy))

theorem Promise.isDetached_new (init : PromiseInit) :
    (Promise.new init : Promise V E).isDetached = false := by
  obtain ⟨kind, zero⟩ := init
  cases kind <;> rfl

/-- Local tasks hold nothing, and are not detached. -/
theorem held_taskCells (owner : ℕ) (locals : List (Option (Thunk γ V E))) :
    held (taskCells ι owner locals) = [] := by
  rw [held, List.flatMap_eq_nil_iff]
  intro x hx
  obtain ⟨y, -, rfl⟩ := List.mem_map.1 hx
  cases y <;> rfl

theorem detached_taskCells (owner : ℕ) (locals : List (Option (Thunk γ V E))) :
    detached (taskCells ι owner locals) = [] := by
  rw [detached, List.map_eq_nil_iff, List.filter_eq_nil_iff]
  intro x hx
  obtain ⟨y, -, rfl⟩ := List.mem_map.1 hx
  cases y with
  | pending b init body => simp [Thunk.cell, Promise.isDetached_new]
  | done b kind outcome => simp [Thunk.cell, Promise.isDetached_ofOutcome]

theorem reduceOption_handles (locals : List (Option (Thunk γ V E))) :
    (handles locals).reduceOption = locals.reduceOption.map Thunk.name :=
  List.reduceOption_map

theorem held_cons (a : ℕ) (f : CoFrame γ ι V E) :
    held ((a, f) :: cells) = f.locals.reduceOption ++ held cells :=
  List.flatMap_cons ..

/-- The outermost activation is detached, and no other. -/
def outermost (name : ℕ) : List (Caller γ V E) → List ℕ
  | [] => [name]
  | _ :: _ => []

theorem detached_cons {name : ℕ} {f : CoFrame γ ι V E} {init : PromiseInit}
    {callers : List (Caller γ V E)} (hf : f.promise = promiseUnder init callers) :
    detached ((name, f) :: cells) = outermost name callers ++ detached cells := by
  cases callers with
  | nil => rw [detached, List.filter_cons_of_pos (by rw [hf]; rfl)]; rfl
  | cons c callers =>
    rw [detached, List.filter_cons_of_neg (by rw [hf]; simp [promiseUnder, Promise.isDetached_new])]
    rfl

theorem owned_callerCells (name : ℕ) (callers : List (Caller γ V E)) :
    (held (callerCells ι name callers) ++
      (outermost name callers ++ detached (callerCells ι name callers))).Perm
      (name :: (callerCells ι name callers).map Prod.fst) := by
  induction callers generalizing name with
  | nil => rfl
  | cons c callers ih =>
    rw [callerCells, held_cons, held_append, held_taskCells, detached_cons rfl, detached_append,
      detached_taskCells, List.map_cons, List.map_append, map_fst_taskCells]
    dsimp only
    rw [List.reduceOption_append, List.reduceOption_cons_of_some, reduceOption_handles,
      reduceOption_handles, List.reduceOption_append, List.map_append]
    have hcallers := List.perm_iff_count.1 (ih c.name)
    refine List.perm_iff_count.2 fun a ↦ ?_
    have ha := hcallers a
    simp only [outermost, List.count_append, List.count_cons, List.nil_append] at ha ⊢
    omega

theorem CallStack.owned_cells (st : CallStack γ ι V E) (point : Point γ ι V E) :
    Owned (st.cells point) := by
  rw [Owned, cells, held_cons, held_append, held_taskCells, detached_cons rfl, detached_append,
    detached_taskCells, List.map_cons, List.map_append, map_fst_taskCells, frame,
    reduceOption_handles]
  have hcallers := List.perm_iff_count.1 (owned_callerCells (ι := ι) st.name st.callers)
  refine List.perm_iff_count.2 fun a ↦ ?_
  have ha := hcallers a
  simp only [List.count_append, List.count_cons, List.nil_append] at ha ⊢
  omega

theorem Direct.owned_cells (t : Direct γ ι V E) : Owned t.cells := by
  refine (owned_flatMap fun x _ ↦ x.1.owned_cells _).append
    ((owned_flatMap fun x _ ↦ x.1.owned_cells _).append ?_)
  rw [List.map_eq_flatMap]
  exact owned_flatMap fun x _ ↦ .refl _

end Owners

/-! ### Who waits for a frame -/

section Waiters

variable {a child : ℕ} {f : CoFrame γ ι V E} {k : Awaited γ V E}

theorem ne_atTask_of_mem_taskCells {owner : ℕ} {locals : List (Option (Thunk γ V E))}
    (h : (a, f) ∈ taskCells ι owner locals) : f.point ≠ .atTask child k := by
  obtain ⟨x, -, hx⟩ := List.mem_map.1 h
  obtain rfl : (x.cell ι owner).2 = f := congrArg Prod.snd hx
  cases x <;> simp [Thunk.cell]

/-- An activation that waits is the parent of the one it waits for. -/
theorem exists_callee {callee : ℕ} {g : CoFrame γ ι V E} {callers : List (Caller γ V E)}
    (hg : g.parent = parentOf callers) (h : (a, f) ∈ callerCells ι callee callers)
    (hf : f.point = .atTask child k) :
    ∃ g', (child, g') ∈ (callee, g) :: callerCells ι callee callers ∧ g'.parent = some a := by
  induction callers generalizing callee g with
  | nil => exact absurd h List.not_mem_nil
  | cons c callers ih =>
    rw [callerCells, List.mem_cons, List.mem_append] at h
    rcases h with h | h | h
    · obtain ⟨rfl, rfl⟩ := Prod.mk.inj h
      obtain ⟨rfl, -⟩ := Point.atTask.inj hf
      exact ⟨g, List.mem_cons_self, hg⟩
    · exact absurd hf (ne_atTask_of_mem_taskCells h)
    · obtain ⟨g', hmem, hparent⟩ := ih
        (g := ⟨.atTask callee c.k, promiseUnder c.init callers, parentOf callers,
          handles c.inner ++ some callee :: handles c.outer⟩) rfl h
      refine ⟨g', List.mem_cons_of_mem _ ?_, hparent⟩
      rw [callerCells, List.mem_cons, List.mem_append]
      exact (List.mem_cons.1 hmem).imp_right .inr

theorem CallStack.exists_callee {st : CallStack γ ι V E} {point : Point γ ι V E}
    (hpoint : ∀ child k, point ≠ .atTask child k) (h : (a, f) ∈ st.cells point)
    (hf : f.point = .atTask child k) : ∃ g, (child, g) ∈ st.cells point ∧ g.parent = some a := by
  rw [cells, List.mem_cons, List.mem_append] at h
  rcases h with h | h | h
  · obtain ⟨-, rfl⟩ := Prod.mk.inj h
    exact absurd hf (hpoint child k)
  · exact absurd hf (ne_atTask_of_mem_taskCells h)
  · obtain ⟨g, hmem, hparent⟩ := Nsio.exists_callee (g := st.frame point) rfl h hf
    refine ⟨g, ?_, hparent⟩
    rw [cells, List.mem_cons, List.mem_append]
    exact (List.mem_cons.1 hmem).imp_right .inr

theorem Direct.exists_callee {t : Direct γ ι V E} (h : (a, f) ∈ t.cells)
    (hf : f.point = .atTask child k) : ∃ g, (child, g) ∈ t.cells ∧ g.parent = some a := by
  simp only [cells, List.mem_append, List.mem_flatMap, List.mem_map] at h ⊢
  rcases h with ⟨x, hx, h⟩ | ⟨x, hx, h⟩ | ⟨x, -, h⟩
  · obtain ⟨g, hg, hparent⟩ := CallStack.exists_callee (by simp) h hf
    exact ⟨g, .inl ⟨x, hx, hg⟩, hparent⟩
  · obtain ⟨g, hg, hparent⟩ := CallStack.exists_callee (by simp) h hf
    exact ⟨g, .inr (.inl ⟨x, hx, hg⟩), hparent⟩
  · rw [← (Prod.mk.inj h).2] at hf
    exact absurd hf (by simp)

end Waiters

/-! ### The machine of `task.h` -/

/-- A coroutine that throws. -/
def throwCode : Unit → Act Unit ℕ ℕ ℕ := fun _ ↦ .throw 5

/-- A coroutine declares a task (0), awaits it (1) and ends (2); the task awaits an operation (3)
and throws (4). -/
def callCode : Fin 5 → Act (Fin 5) ℕ ℕ ℕ
  | 0 => .call .value 3 1
  | 1 => .await 0 (.rvalue fun _ ↦ 0) fun _ ↦ 2
  | 2 => .coReturn 0
  | 3 => .io 7 fun _ ↦ 4
  | 4 => .throw 5

/-- It is spawned at address `a`, its task is at `b`, in memory that is zero or not, and the
operation is awaited. -/
def callActions (a b : ℕ) (zero : Bool) : List (CoAction (Fin 5)) :=
  [.post a 0, .start, .exec b zero, .exec b zero, .exec b zero]

/-- The operation returns, and the coroutine ends. -/
def endActions : List (CoAction (Fin 5)) := [.resume 1 0, .exec 0 true, .exec 0 true]

namespace CoHeap

variable {code : γ → Act γ ι V E} {as : List (CoAction γ)} {s : CoHeap γ ι V E}

theorem exists_shows (h : (machine code).run as = some s) :
    ∃ t, (Direct.machine code).run as = some t ∧ s.Shows t := by
  have hrel := shows_run code as
  rw [h] at hrel
  generalize (Direct.machine code).run as = t at hrel
  cases hrel with
  | some hst => exact ⟨_, rfl, hst⟩

theorem exists_shows_step {t : Direct γ ι V E} {u : CoHeap γ ι V E} {a : CoAction γ}
    (hst : s.Shows t) (hu : s.step code a = some u) :
    ∃ t', t.step code a = some t' ∧ u.Shows t' := by
  have hrel := shows_step code hst a
  rw [hu] at hrel
  generalize t.step code a = t' at hrel
  cases hrel with
  | some hst => exact ⟨_, rfl, hst⟩

/-- No handle is ever used that points to no frame, or to one the call is not allowed for. A program
ends early in a step of a coroutine that awaits an empty task, that an exception leaves while it is
detached, or that an exception leaves while its promise is in memory that is not zero. -/
theorem cause_of_crashed {why : Crash E} (h : (machine code).run as = some s)
    (hwhy : s.crashed = some why) :
    ∃ bs b zero u a rest f c, as = bs ++ [.exec b zero] ∧ (machine code).run bs = some u ∧
      u.stack = a :: rest ∧ u.frames a = some f ∧ f.point = .running c ∧ why.Cause code f c := by
  rcases as.eq_nil_or_concat with rfl | ⟨bs, x, rfl⟩
  · exact absurd (Option.some.inj h ▸ hwhy) (by simp [machine])
  rw [List.concat_eq_append] at h ⊢
  obtain ⟨u, hu, hstep⟩ := Machine.exists_of_runFrom_concat _ h
  obtain ⟨t, ht, hst⟩ := exists_shows hu
  obtain ⟨t', ht', hst'⟩ := exists_shows_step hst hstep
  have hwhy' : t'.crashed = some why := hst'.crashed ▸ hwhy
  have hreach : (Direct.machine code).Reachable t := ⟨bs, ht⟩
  -- after a crash there is no further step
  have hnone : t.crashed = none := by
    by_contra hne
    obtain ⟨why', hwhy'⟩ := Option.ne_none_iff_exists'.1 hne
    have hover : t.step code x = none :=
      (Direct.over_of_reachable hreach hne).step_eq_none hwhy' x
    exact absurd (hover.symm.trans ht') (by simp)
  obtain ⟨b, zero, rfl⟩ := Direct.eq_exec_of_crashed ht' (by simp [hnone, hwhy'])
  obtain ⟨st, c, rest, hactive, hcause⟩ := Direct.exists_cause hreach ht' hnone hwhy'
  exact ⟨bs, b, zero, u, st.name, _, st.frame (.running c), c, rfl, hu, hst.stack_eq hactive,
    (hst.innermost hactive).get, rfl, hcause⟩

/-- An exception leaves a detached coroutine; and one leaves a `task<T>` in memory that is not zero,
although its caller awaits it. -/
theorem cause_of_crashed_throwCode :
    (∃ s, (machine throwCode).run [.post 0 (), .start, .exec 0 true] = some s ∧
      s.crashed = some (.unhandled 5) ∧ ∃ f c, (Crash.unhandled 5).Cause throwCode f c) ∧
    ∃ s, (machine callCode).run (callActions 0 1 false ++ [.resume 1 0, .exec 0 true]) = some s ∧
      s.crashed = some .strayPointer ∧ ∃ f c, Crash.strayPointer.Cause callCode f c := by
  refine ⟨⟨_, rfl, rfl, ?_⟩, _, rfl, rfl, ?_⟩
  · obtain ⟨-, -, -, -, -, -, f, c, -, -, -, -, -, hcause⟩ := @cause_of_crashed _ _ _ _ throwCode
      [.post 0 (), .start, .exec 0 true] _ (.unhandled 5) rfl rfl
    exact ⟨f, c, hcause⟩
  · obtain ⟨-, -, -, -, -, -, f, c, -, -, -, -, -, hcause⟩ := @cause_of_crashed _ _ _ _ callCode
      (callActions 0 1 false ++ [.resume 1 0, .exec 0 true]) _ .strayPointer rfl rfl
    exact ⟨f, c, hcause⟩

/-- Every frame is owned exactly once: it is the handle of one local task of one frame, or it is
detached. Every handle that a frame holds is that of a frame. -/
theorem exists_owned (h : (machine code).run as = some s) :
    ∃ cells, Holds s.frames cells ∧ Owned cells := by
  obtain ⟨t, -, hst⟩ := exists_shows h
  exact ⟨t.cells, hst.frames, t.owned_cells⟩

theorem exists_owned_callCode :
    ∃ s, (machine callCode).run (callActions 0 1 true) = some s ∧ s.stack = [] ∧
      (s.frames 0).isSome ∧ (s.frames 1).isSome ∧ ∃ cells, Holds s.frames cells ∧ Owned cells :=
  ⟨_, rfl, rfl, rfl, rfl, @exists_owned _ _ _ _ callCode (callActions 0 1 true) _ rfl⟩

/-- There is no leak: when no coroutine runs, is queued or waits for an operation, no frame is
left. -/
theorem frames_eq_none (h : (machine code).run as = some s) (hstack : s.stack = [])
    (hposted : s.posted = [])
    (hio : ∀ a f op k, s.frames a = some f → f.point ≠ .atIo op k) (a : ℕ) : s.frames a = none := by
  obtain ⟨t, -, hst⟩ := exists_shows h
  have hactive : t.active = [] := List.map_eq_nil_iff.1 (hst.stack.symm.trans hstack)
  have hposted' : t.posted = [] := List.map_eq_nil_iff.1 (hst.posted.symm.trans hposted)
  have hsuspended : t.suspended = [] := by
    rcases hsuspended : t.suspended with - | ⟨⟨st, op, k⟩, suspended⟩
    · rfl
    · have hframe := (shows_resume hst (.of_eq hsuspended) 0).1
      exact absurd rfl (hio _ _ op k hframe)
  have hcells : t.cells = [] := by
    rw [Direct.cells, hactive, hposted', hsuspended]
    rfl
  exact congrFun (Holds.nil_iff.1 (hcells ▸ hst.frames)) a

theorem frames_eq_none_callCode :
    ∃ s, (machine callCode).run (callActions 0 1 true ++ endActions) = some s ∧
      s.frames 0 = none ∧ s.frames 1 = none := by
  obtain ⟨s, hs⟩ : ∃ s, (machine callCode).run (callActions 0 1 true ++ endActions) = some s :=
    ⟨_, rfl⟩
  obtain ⟨t, ht, hst⟩ := exists_shows hs
  cases ht
  have hio : ∀ a f op k, s.frames a = some f → f.point ≠ .atIo op k := fun a f op k hf ↦
    absurd ((hst.frames.eq_some_iff a f).1 hf) List.not_mem_nil
  have hnone := frames_eq_none hs hst.stack hst.posted hio
  exact ⟨s, hs, hnone 0, hnone 1⟩

/-- Whatever is interleaved with it, a coroutine does what its body does as a sequential program: a
coroutine that waits for an operation has awaited those that the program awaits before it, and one
that has ended has awaited all of them and returned what the program returns; the results of the
operations determine both. -/
theorem eval_of_run (h : (machine code).run as = some s) :
    ∃ t, (Direct.machine code).run as = some t ∧ s = t.toHeap ∧
      (∀ x ∈ t.suspended, Eval code [] x.1.body x.1.log (.waits x.2.1)) ∧
      ∀ x ∈ t.finished, Eval code [] x.1 x.2.1 (.done (.ok x.2.2)) ∧
        ∀ log answer, Eval code [] x.1 log answer → log.map Prod.snd = x.2.1.map Prod.snd →
          log = x.2.1 ∧ answer = .done (.ok x.2.2) := by
  obtain ⟨t, ht, hst⟩ := exists_shows h
  refine ⟨t, ht, hst.eq_toHeap, fun x hx ↦ ?_, fun x hx ↦ ?_⟩
  · exact ((stackInvariant_history.of_reachable ⟨as, ht⟩).2 x hx).1
  · have heval := Direct.eval_of_mem_finished ⟨as, ht⟩ x hx
    exact ⟨heval, fun log answer h hrs ↦ h.unique heval hrs⟩

/-- The coroutine of `callCode` has ended, after the operation 7 with the result 0. -/
theorem eval_of_run_callCode :
    ∃ s, (machine callCode).run (callActions 0 1 true ++ endActions) = some s ∧
      Eval callCode [] 0 [(7, 0)] (.done (.ok 0)) := by
  obtain ⟨t, ht, -, -, hfinished⟩ :=
    @eval_of_run _ _ _ _ callCode (callActions 0 1 true ++ endActions) _ rfl
  cases ht
  exact ⟨_, rfl, (hfinished (0, [(7, 0)], 0) List.mem_cons_self).1⟩

/-- A coroutine that waits for a task is the one that `parent_coro` of the task names, so no two
coroutines wait for the same task. -/
theorem awaited_unique (h : (machine code).run as = some s) {a a' child : ℕ}
    {f f' : CoFrame γ ι V E} {k k' : Awaited γ V E} (hf : s.frames a = some f)
    (hf' : s.frames a' = some f') (hk : f.point = .atTask child k)
    (hk' : f'.point = .atTask child k') :
    a = a' ∧ ∃ g, s.frames child = some g ∧ g.parent = some a := by
  obtain ⟨t, -, hst⟩ := exists_shows h
  have hwaits : ∀ {a f k}, s.frames a = some f → f.point = .atTask child k →
      ∃ g, s.frames child = some g ∧ g.parent = some a := by
    intro a f k hf hk
    obtain ⟨g, hg, hparent⟩ := Direct.exists_callee ((hst.frames.eq_some_iff a f).1 hf) hk
    exact ⟨g, (hst.frames.eq_some_iff child g).2 hg, hparent⟩
  obtain ⟨g, hg, hparent⟩ := hwaits hf hk
  obtain ⟨g', hg', hparent'⟩ := hwaits hf' hk'
  obtain rfl := Option.some.inj (hg.symm.trans hg')
  exact ⟨Option.some.inj (hparent.symm.trans hparent'), g, hg, hparent⟩

/-- The coroutine at 0 waits for the task at 1. -/
theorem awaited_unique_callCode :
    ∃ s f k, (machine callCode).run (callActions 0 1 true) = some s ∧ s.frames 0 = some f ∧
      f.point = .atTask 1 k ∧ ∃ g, s.frames 1 = some g ∧ g.parent = some 0 :=
  ⟨_, _, _, rfl, rfl, rfl, (@awaited_unique _ _ _ _ callCode (callActions 0 1 true) _ rfl 0 0 1 _ _
    _ _ rfl rfl rfl rfl).2⟩

end CoHeap

end Nsio
