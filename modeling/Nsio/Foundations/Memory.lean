import Nsio.Foundations.Ledger

/-!
# A memory shared by several owners

A memory is a function of addresses. `load` and `store` move lists; a load of one range does not see
a store to another (`load_store_of_apart`), and a store at the end of a range extends it
(`load_store_append`).

Who may store where is `Exclusive`: each owner holds at most one range, further ranges are kept
aside, and all of them are apart. Ranges are taken from those kept aside, put back, given up, or
new; there is one rule for each.
-/

namespace Memory

/-! ### Loads and stores -/

section LoadStore

variable {β : Type*} {m m' : ℕ → β} {a b n : ℕ} {xs : List β}

/-- The memory after a list was stored at an address. -/
def store (m : ℕ → β) (a : ℕ) (xs : List β) : ℕ → β :=
  fun i ↦ if a ≤ i then (xs[i - a]?).getD (m i) else m i

/-- The `n` values from an address on. -/
def load (m : ℕ → β) (a n : ℕ) : List β := (List.range n).map fun i ↦ m (a + i)

@[simp] theorem length_load : (load m a n).length = n := by
  rw [load, List.length_map, List.length_range]

theorem load_congr (h : ∀ i, a ≤ i → i < a + n → m i = m' i) : load m a n = load m' a n := by
  refine List.map_congr_left fun i hi ↦ h (a + i) (Nat.le_add_right a i) ?_
  exact Nat.add_lt_add_left (List.mem_range.1 hi) a

theorem load_add {k : ℕ} : load m a (n + k) = load m a n ++ load m (a + n) k := by
  rw [load, List.range_add, List.map_append, List.map_map]
  refine congrArg (load m a n ++ ·) (List.map_congr_left fun i _ ↦ ?_)
  rw [Function.comp_apply, Nat.add_assoc]

theorem take_load {k : ℕ} (hk : k ≤ n) : (load m a n).take k = load m a k := by
  obtain ⟨j, rfl⟩ := Nat.exists_eq_add_of_le hk
  rw [load_add, List.take_left' length_load]

theorem drop_load {k : ℕ} (hk : k ≤ n) : (load m a n).drop k = load m (a + k) (n - k) := by
  obtain ⟨j, rfl⟩ := Nat.exists_eq_add_of_le hk
  rw [load_add, List.drop_left' length_load, Nat.add_sub_cancel_left]

theorem store_of_outside {i : ℕ} (h : i < a ∨ a + xs.length ≤ i) : store m a xs i = m i := by
  rw [store]
  split
  · rw [List.getElem?_eq_none (by omega), Option.getD_none]
  · rfl

theorem load_store_self : load (store m a xs) a xs.length = xs := by
  refine List.ext_getElem length_load fun i _ hi ↦ ?_
  simp only [load, List.getElem_map, List.getElem_range]
  rw [store, if_pos (Nat.le_add_right a i), Nat.add_sub_cancel_left, List.getElem?_eq_getElem hi,
    Option.getD_some]

/-- **The frame rule.** -/
theorem load_store_of_apart (h : Intervals.Apart (a, n) (b, xs.length)) :
    load (store m b xs) a n = load m a n :=
  load_congr fun i hlo hhi ↦ store_of_outside <| by
    rcases h with h | h
    · exact .inl (Nat.lt_of_lt_of_le hhi h)
    · exact .inr (Nat.le_trans h hlo)

/-- A store at the end of a range. -/
theorem load_store_append : load (store m (a + n) xs) a (n + xs.length) = load m a n ++ xs := by
  rw [load_add, load_store_self, load_store_of_apart (.inl (Nat.le_refl _))]

end LoadStore

/-! ### Owners -/

/-- Each owner holds at most one range, and these and the ranges kept aside are apart. -/
structure Exclusive {κ : Type*} (held : κ → Option (ℕ × ℕ)) (aside : List (ℕ × ℕ)) : Prop where
  apart : ∀ c c' x y, c ≠ c' → held c = some x → held c' = some y → Intervals.Apart x y
  apart_aside : ∀ c x, held c = some x → ∀ y ∈ aside, Intervals.Apart x y
  pairwise : aside.Pairwise Intervals.Apart

namespace Exclusive

variable {κ : Type*} [DecidableEq κ] {held : κ → Option (ℕ × ℕ)} {aside aside' : List (ℕ × ℕ)}
  {c : κ} {x : ℕ × ℕ}

/-- An owner gets a range that is apart from all others. -/
theorem fresh (h : Exclusive held aside)
    (hheld : ∀ c' ≠ c, ∀ y, held c' = some y → Intervals.Apart x y)
    (haside : ∀ y ∈ aside, Intervals.Apart x y) :
    Exclusive (Function.update held c (some x)) aside where
  apart := by
    intro c₁ c₂ y z hne hy hz
    rcases eq_or_ne c₁ c with rfl | h₁
    · rw [Function.update_self, Option.some_inj] at hy
      rw [Function.update_of_ne hne.symm] at hz
      exact hy ▸ hheld c₂ hne.symm z hz
    · rw [Function.update_of_ne h₁] at hy
      rcases eq_or_ne c₂ c with rfl | h₂
      · rw [Function.update_self, Option.some_inj] at hz
        exact hz ▸ (hheld c₁ h₁ y hy).symm
      · rw [Function.update_of_ne h₂] at hz
        exact h.apart c₁ c₂ y z hne hy hz
  apart_aside := by
    intro c' y hy
    rcases eq_or_ne c' c with rfl | hne
    · rw [Function.update_self, Option.some_inj] at hy
      exact hy ▸ haside
    · rw [Function.update_of_ne hne] at hy
      exact h.apart_aside c' y hy
  pairwise := h.pairwise

/-- An owner gives its range up. -/
theorem drop (h : Exclusive held aside) (c : κ) :
    Exclusive (Function.update held c none) aside where
  apart := by
    intro c₁ c₂ y z hne hy hz
    rcases eq_or_ne c₁ c with rfl | h₁
    · exact absurd hy (by simp)
    rcases eq_or_ne c₂ c with rfl | h₂
    · exact absurd hz (by simp)
    rw [Function.update_of_ne h₁] at hy
    rw [Function.update_of_ne h₂] at hz
    exact h.apart c₁ c₂ y z hne hy hz
  apart_aside := by
    intro c' y hy
    rcases eq_or_ne c' c with rfl | hne
    · exact absurd hy (by simp)
    · rw [Function.update_of_ne hne] at hy
      exact h.apart_aside c' y hy
  pairwise := h.pairwise

/-- An owner puts its range aside. -/
theorem putAside (h : Exclusive held aside) (hx : held c = some x) :
    Exclusive (Function.update held c none) (x :: aside) where
  apart := (h.drop c).apart
  apart_aside := by
    intro c' y hy z hz
    have hdrop := (h.drop c).apart_aside c' y hy
    rcases eq_or_ne c' c with rfl | hne
    · exact absurd hy (by simp)
    rw [Function.update_of_ne hne] at hy
    rcases List.mem_cons.1 hz with rfl | hz
    · exact h.apart c' c y z hne hy hx
    · exact hdrop z hz
  pairwise := List.pairwise_cons.2 ⟨h.apart_aside c x hx, h.pairwise⟩

/-- An owner takes a range that was kept aside. -/
theorem take (h : Exclusive held aside) (hperm : aside.Perm (x :: aside')) :
    Exclusive (Function.update held c (some x)) aside' := by
  obtain ⟨hx, hrest⟩ :=
    List.pairwise_cons.1 ((hperm.pairwise_iff Intervals.Apart.symm).1 h.pairwise)
  have hsub : ∀ y ∈ aside', y ∈ aside := fun y hy ↦ hperm.mem_iff.2 (List.mem_cons_of_mem x hy)
  have hmem : x ∈ aside := hperm.mem_iff.2 List.mem_cons_self
  have hless : Exclusive held aside' :=
    ⟨h.apart, fun c' y hy z hz ↦ h.apart_aside c' y hy z (hsub z hz), hrest⟩
  exact hless.fresh (fun c' _ y hy ↦ (h.apart_aside c' y hy x hmem).symm) hx

end Exclusive

end Memory
