import Mathlib.Algebra.BigOperators.Group.List.Basic
import Mathlib.Algebra.Ring.Nat
import Mathlib.Data.List.Basic

/-!
# Guarded machines and what holds along their runs

A **machine** is a start state and a guarded step: `step s a` is `some t` when the action `a` is
enabled at `s` and leads to `t`, and `none` when it is not. Every source of nondeterminism of a
modelled system (a reply of the kernel, the order of threads, a choice left open by a library) is
an argument of the action, so the step itself is a function and a concrete run can be evaluated.

Two ways of speaking about runs are used throughout:

* `Reachable` and `Reachable.invariant`, for a property of every state of every run;
* `Throughout` and `StepsMeet`, for a property of the states of **one** run against a condition on
  the steps of that same run. `throughout_of_stepsMeet` is the induction that turns a conditional
  step lemma into a statement about conditional runs, and `stepsMeet_of_throughout` goes back.
-/

/-- A start state and a guarded step. -/
structure Machine (σ α : Type*) where
  /-- The state a run starts in. -/
  init : σ
  /-- The state after the action, if the action is enabled. -/
  step : σ → α → Option σ

namespace Machine

variable {σ α : Type*} (M : Machine σ α)

/-! ### Runs -/

/-- The state after a list of actions, if each is enabled when its turn comes. -/
def runFrom : σ → List α → Option σ
  | s, [] => some s
  | s, a :: as => (M.step s a).bind fun t ↦ runFrom t as

/-- A run from the start state. -/
def run (as : List α) : Option σ := M.runFrom M.init as

theorem runFrom_cons (s : σ) (a : α) (as : List α) :
    M.runFrom s (a :: as) = (M.step s a).bind fun t ↦ M.runFrom t as := rfl

theorem runFrom_cons_of_step {M : Machine σ α} {s t : σ} {a : α} {as : List α}
    (h : M.step s a = some t) : M.runFrom s (a :: as) = M.runFrom t as := by
  rw [runFrom_cons, h, Option.bind_some]

/-- A run followed by a run. -/
theorem runFrom_append {s t : σ} {as bs : List α} (h : M.runFrom s as = some t) :
    M.runFrom s (as ++ bs) = M.runFrom t bs := by
  induction as generalizing s with
  | nil => rw [Option.some.inj h, List.nil_append]
  | cons a as ih =>
    rw [runFrom_cons] at h
    obtain ⟨u, hu, h'⟩ := Option.bind_eq_some_iff.1 h
    rw [List.cons_append, runFrom_cons, hu, Option.bind_some, ih h']

/-- The last step of a run. -/
theorem exists_of_runFrom_concat {s t : σ} {as : List α} {a : α}
    (h : M.runFrom s (as ++ [a]) = some t) :
    ∃ u, M.runFrom s as = some u ∧ M.step u a = some t := by
  induction as generalizing s with
  | nil =>
    obtain ⟨u, hu, hlast⟩ := Option.bind_eq_some_iff.1 h
    exact ⟨s, rfl, Option.some.inj hlast ▸ hu⟩
  | cons b as ih =>
    obtain ⟨u, hu, hrest⟩ := Option.bind_eq_some_iff.1 h
    obtain ⟨v, hv, hlast⟩ := ih hrest
    exact ⟨v, by rw [runFrom_cons, hu, Option.bind_some, hv], hlast⟩

/-- The states of the runs from the start state. -/
def Reachable (t : σ) : Prop := ∃ as, M.run as = some t

variable {M}

theorem Reachable.init : M.Reachable M.init := ⟨[], rfl⟩

theorem Reachable.step {s t : σ} {a : α} (hs : M.Reachable s) (ht : M.step s a = some t) :
    M.Reachable t := by
  obtain ⟨as, has⟩ := hs
  refine ⟨as ++ [a], ?_⟩
  rw [run, runFrom_append M has, runFrom_cons, ht]
  rfl

theorem runFrom_invariant {P : σ → Prop}
    (hstep : ∀ s a t, M.step s a = some t → P s → P t) {s t : σ} {as : List α} (hs : P s)
    (h : M.runFrom s as = some t) : P t := by
  induction as generalizing s with
  | nil => exact Option.some.inj h ▸ hs
  | cons a as ih =>
    rw [runFrom_cons] at h
    obtain ⟨u, hu, h'⟩ := Option.bind_eq_some_iff.1 h
    exact ih (hstep s a u hu hs) h'

/-- **The invariant rule.** What holds at the start and is kept by every enabled step holds of
every reachable state. -/
theorem Reachable.invariant {P : σ → Prop} {t : σ} (ht : M.Reachable t) (hinit : P M.init)
    (hstep : ∀ s a t, M.step s a = some t → P s → P t) : P t := by
  obtain ⟨as, has⟩ := ht
  exact runFrom_invariant hstep hinit has

/-! ### One run against a condition on its steps -/

variable (M)

/-- `P` holds of every state the run passes through, the first and the last included. A run that
meets a disabled action stops there. -/
def ThroughoutFrom (P : σ → Prop) : σ → List α → Prop
  | s, [] => P s
  | s, a :: as => P s ∧ ∀ t, M.step s a = some t → ThroughoutFrom P t as

/-- Every step the run takes meets `G`, which speaks of the state before the step and of the
action. -/
def StepsMeetFrom (G : σ → α → Prop) : σ → List α → Prop
  | _, [] => True
  | s, a :: as => ∀ t, M.step s a = some t → G s a ∧ StepsMeetFrom G t as

/-- `P` in every state of the run from the start state. -/
def Throughout (P : σ → Prop) (as : List α) : Prop := M.ThroughoutFrom P M.init as

/-- `G` at every step of the run from the start state. -/
def StepsMeet (G : σ → α → Prop) (as : List α) : Prop := M.StepsMeetFrom G M.init as

variable {M}

theorem ThroughoutFrom.start {P : σ → Prop} {s : σ} {as : List α}
    (h : M.ThroughoutFrom P s as) : P s := by
  cases as with
  | nil => exact h
  | cons a as => exact h.1

theorem ThroughoutFrom.mono {P Q : σ → Prop} (hPQ : ∀ s, P s → Q s) {s : σ} {as : List α}
    (h : M.ThroughoutFrom P s as) : M.ThroughoutFrom Q s as := by
  induction as generalizing s with
  | nil => exact hPQ s h
  | cons a as ih => exact ⟨hPQ s h.1, fun t ht ↦ ih (h.2 t ht)⟩

theorem ThroughoutFrom.and {P Q : σ → Prop} {s : σ} {as : List α} (hP : M.ThroughoutFrom P s as)
    (hQ : M.ThroughoutFrom Q s as) : M.ThroughoutFrom (fun s ↦ P s ∧ Q s) s as := by
  induction as generalizing s with
  | nil => exact ⟨hP, hQ⟩
  | cons a as ih => exact ⟨⟨hP.1, hQ.1⟩, fun t ht ↦ ih (hP.2 t ht) (hQ.2 t ht)⟩

theorem StepsMeetFrom.mono {G H : σ → α → Prop} (hGH : ∀ s a, G s a → H s a) {s : σ}
    {as : List α} (h : M.StepsMeetFrom G s as) : M.StepsMeetFrom H s as := by
  induction as generalizing s with
  | nil => trivial
  | cons a as ih => exact fun t ht ↦ ⟨hGH s a (h t ht).1, ih (h t ht).2⟩

theorem StepsMeetFrom.and {G H : σ → α → Prop} {s : σ} {as : List α}
    (hG : M.StepsMeetFrom G s as) (hH : M.StepsMeetFrom H s as) :
    M.StepsMeetFrom (fun s a ↦ G s a ∧ H s a) s as := by
  induction as generalizing s with
  | nil => trivial
  | cons a as ih =>
    exact fun t ht ↦ ⟨⟨(hG t ht).1, (hH t ht).1⟩, ih (hG t ht).2 (hH t ht).2⟩

/-- A run that starts with a step meeting `G`. -/
theorem StepsMeetFrom.cons {G : σ → α → Prop} {s t : σ} {a : α} {as : List α}
    (ht : M.step s a = some t) (hG : G s a) (h : M.StepsMeetFrom G t as) :
    M.StepsMeetFrom G s (a :: as) := by
  intro u hu
  obtain rfl := Option.some.inj (ht.symm.trans hu)
  exact ⟨hG, h⟩

/-- A condition on the actions alone is met by a run when the actions of its list meet it. -/
theorem stepsMeet_of_forall_mem {G : α → Prop} {as : List α} (h : ∀ a ∈ as, G a) :
    M.StepsMeet (fun _ a ↦ G a) as := by
  suffices hfrom : ∀ s, M.StepsMeetFrom (fun _ a ↦ G a) s as from hfrom M.init
  induction as with
  | nil => exact fun _ ↦ trivial
  | cons a as ih =>
    rw [List.forall_mem_cons] at h
    exact fun s t _ ↦ ⟨h.1, ih h.2 t⟩

/-- **The budget rule.** When no step adds more to a count than the cost of its action, a run whose
actions cost less than the budget stays within it at every step. -/
theorem stepsMeetFrom_of_budget {count : σ → ℕ} {cost : α → ℕ} {budget : ℕ}
    (hstep : ∀ s a t, M.step s a = some t → count t ≤ count s + cost a) {s : σ} {as : List α}
    (h : count s + (as.map cost).sum < budget) :
    M.StepsMeetFrom (fun s a ↦ count s + cost a < budget) s as := by
  induction as generalizing s with
  | nil => trivial
  | cons a as ih =>
    rw [List.map_cons, List.sum_cons] at h
    intro t ht
    have := hstep s a t ht
    exact ⟨by omega, ih (by omega)⟩

/-- **The conditional invariant rule.** An invariant that is kept by the steps meeting `G` holds in
every state of a run all of whose steps meet `G`. -/
theorem throughoutFrom_of_stepsMeetFrom {P : σ → Prop} {G : σ → α → Prop}
    (hstep : ∀ s a t, M.step s a = some t → G s a → P s → P t) {s : σ} {as : List α} (hs : P s)
    (h : M.StepsMeetFrom G s as) : M.ThroughoutFrom P s as := by
  induction as generalizing s with
  | nil => exact hs
  | cons a as ih =>
    refine ⟨hs, fun t ht ↦ ?_⟩
    obtain ⟨hG, hrest⟩ := h t ht
    exact ih (hstep s a t ht hG hs) hrest

theorem throughout_of_stepsMeet {P : σ → Prop} {G : σ → α → Prop} (hinit : P M.init)
    (hstep : ∀ s a t, M.step s a = some t → G s a → P s → P t) {as : List α}
    (h : M.StepsMeet G as) : M.Throughout P as :=
  throughoutFrom_of_stepsMeetFrom hstep hinit h

/-- An invariant of every step holds throughout every run. -/
theorem throughout_of_invariant {P : σ → Prop} (hinit : P M.init)
    (hstep : ∀ s a t, M.step s a = some t → P s → P t) (as : List α) : M.Throughout P as :=
  throughout_of_stepsMeet hinit (fun s a t h _ ↦ hstep s a t h)
    (stepsMeet_of_forall_mem (G := fun _ ↦ True) fun _ _ ↦ trivial)

/-- **The converse rule.** When a step that fails `G` always lands in a state that fails `P`, a run
with `P` throughout meets `G` at every step. -/
theorem stepsMeetFrom_of_throughoutFrom {P : σ → Prop} {G : σ → α → Prop}
    (hstep : ∀ s a t, M.step s a = some t → P s → P t → G s a) {s : σ} {as : List α}
    (h : M.ThroughoutFrom P s as) : M.StepsMeetFrom G s as := by
  induction as generalizing s with
  | nil => trivial
  | cons a as ih =>
    intro t ht
    exact ⟨hstep s a t ht h.1 (h.2 t ht).start, ih (h.2 t ht)⟩

theorem stepsMeet_of_throughout {P : σ → Prop} {G : σ → α → Prop}
    (hstep : ∀ s a t, M.step s a = some t → P s → P t → G s a) {as : List α}
    (h : M.Throughout P as) : M.StepsMeet G as :=
  stepsMeetFrom_of_throughoutFrom hstep h

/-- A property that each step keeps **exactly** when it meets `G`, given an invariant of the
machine: the runs that have the property throughout are those whose steps meet `G`. -/
theorem throughout_iff_stepsMeet {I P : σ → Prop} {G : σ → α → Prop} (hI : I M.init)
    (hIstep : ∀ s a t, M.step s a = some t → I s → I t) (hP : P M.init)
    (hstep : ∀ s a t, M.step s a = some t → I s → P s → (P t ↔ G s a)) (as : List α) :
    M.Throughout P as ↔ M.StepsMeet G as := by
  constructor
  · intro h
    have hboth : M.Throughout (fun s ↦ I s ∧ P s) as := (throughout_of_invariant hI hIstep as).and h
    exact stepsMeet_of_throughout (fun s a t ht hs hPt ↦ (hstep s a t ht hs.1 hs.2).1 hPt.2) hboth
  · intro h
    have hboth : M.Throughout (fun s ↦ I s ∧ P s) as :=
      throughout_of_stepsMeet ⟨hI, hP⟩
        (fun s a t ht hG hs ↦ ⟨hIstep s a t ht hs.1, (hstep s a t ht hs.1 hs.2).2 hG⟩) h
    exact hboth.mono fun _ hs ↦ hs.2

/-- What holds throughout a run holds of its last state. -/
theorem ThroughoutFrom.last {P : σ → Prop} {s t : σ} {as : List α}
    (h : M.ThroughoutFrom P s as) (hrun : M.runFrom s as = some t) : P t := by
  induction as generalizing s with
  | nil => exact Option.some.inj hrun ▸ h
  | cons a as ih =>
    rw [runFrom_cons] at hrun
    obtain ⟨u, hu, h'⟩ := Option.bind_eq_some_iff.1 hrun
    exact ih (h.2 u hu) h'

/-! ### Two machines in step -/

/-- **The simulation rule.** Two machines that, from related states, can take the same actions and
are in related states afterwards, run in step. -/
theorem rel_runFrom {τ : Type*} {N : Machine τ α} {R : σ → τ → Prop}
    (hstep : ∀ s t a, R s t → Option.Rel R (M.step s a) (N.step t a)) {s : σ} {t : τ} (h : R s t)
    (as : List α) : Option.Rel R (M.runFrom s as) (N.runFrom t as) := by
  induction as generalizing s t with
  | nil => exact .some h
  | cons a as ih =>
    rw [runFrom_cons, runFrom_cons]
    have hrel := hstep s t a h
    generalize M.step s a = s' at hrel ⊢
    generalize N.step t a = t' at hrel ⊢
    cases hrel with
    | none => exact .none
    | some hst => exact ih hst

end Machine
