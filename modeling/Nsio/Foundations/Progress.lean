import Mathlib.Order.WellFounded
import Mathlib.Order.OrderIsoNat
import Mathlib.Logic.Function.Iterate
import Mathlib.Data.Prod.Lex
import Mathlib.Data.Nat.Find

/-!
# Progress of a deterministic system

A system that is driven by infinite sequences of answers is a function iterated on a state. It comes
to an end when every step before the end lowers a rank in a well-founded order
(`exists_iterate_of_rank_lt`).

What an answer sequence contributes to such a rank is the number of answers until the next one of a
kind, if that kind comes again and again (`Recurs`, `untilNext`): it drops with every answer that is
not of the kind.

A system of several parties under a schedule makes progress when each state has a party whose move
lowers a measure, the others do not raise it, and the schedule comes back to each party
(`exists_of_fair`).
-/

namespace Nsio

/-- **The progress rule.** -/
theorem exists_iterate_of_rank_lt {σ α : Type*} [Preorder α] [WellFoundedLT α] {f : σ → σ}
    (final : σ → Prop) (rank : σ → α) {s : σ}
    (h : ∀ k, ¬ final (f^[k] s) → rank (f^[k + 1] s) < rank (f^[k] s)) :
    ∃ k, final (f^[k] s) := by
  by_contra hnever
  have hchain : ∀ k, rank (f^[k + 1] s) < rank (f^[k] s) := fun k ↦
    h k fun hk ↦ hnever ⟨k, hk⟩
  exact (wellFounded_iff_isEmpty_descending_chain.1
    (wellFounded_lt (α := α))).false ⟨fun k ↦ rank (f^[k] s), hchain⟩

/-- Again and again: from every position on, `P` holds at some position. -/
def Recurs (P : ℕ → Prop) : Prop := ∀ i, ∃ d, P (i + d)

section UntilNext

variable {P : ℕ → Prop} [DecidablePred P]

/-- The number of positions from `i` to the next at which `P` holds. -/
def untilNext (h : Recurs P) (i : ℕ) : ℕ := Nat.find (h i)

theorem untilNext_succ_lt (h : Recurs P) {i : ℕ} (hi : ¬ P i) :
    untilNext h (i + 1) < untilNext h i := by
  have hspec : P (i + untilNext h i) := Nat.find_spec (h i)
  obtain ⟨d, hd⟩ : ∃ d, untilNext h i = d + 1 := by
    refine Nat.exists_eq_add_one_of_ne_zero fun hzero ↦ hi ?_
    rwa [hzero] at hspec
  have hnext : P (i + 1 + d) := by
    rwa [hd, Nat.add_comm d 1, ← Nat.add_assoc] at hspec
  rw [hd]
  exact Nat.lt_succ_of_le (Nat.find_min' (h (i + 1)) hnext)

end UntilNext

/-- **The fairness rule.** Until the end, each state has a mover `c` that lowers the measure when
its turn comes (`P c`); a turn of another lowers it too, or leaves it and the mover as they are. -/
theorem exists_of_fair {σ κ α : Type*} [PartialOrder α] [WellFoundedLT α] {states : ℕ → σ}
    {P : κ → ℕ → Prop} (hfair : ∀ c, Recurs (P c)) (final : σ → Prop) (measure : σ → α)
    (mover : σ → κ)
    (hmove : ∀ k, ¬ final (states k) → P (mover (states k)) k →
      measure (states (k + 1)) < measure (states k))
    (hstay : ∀ k, ¬ final (states k) → ¬ P (mover (states k)) k →
      measure (states (k + 1)) < measure (states k) ∨
        measure (states (k + 1)) = measure (states k) ∧
          mover (states (k + 1)) = mover (states k)) :
    ∃ k, final (states k) := by
  classical
  let wait (c : κ) (k : ℕ) : ℕ := untilNext (hfair c) k
  let rank (k : ℕ) : α ×ₗ ℕ := toLex (measure (states k), wait (mover (states k)) k)
  obtain ⟨k, hk⟩ := exists_iterate_of_rank_lt (f := Nat.succ) (s := 0)
    (fun k ↦ final (states k)) rank (fun k hk ↦ by
      rw [Function.iterate_succ_apply']
      generalize Nat.succ^[k] 0 = i at hk ⊢
      refine Prod.Lex.toLex_lt_toLex.2 ?_
      rcases Classical.em (P (mover (states i)) i) with hturn | hturn
      · exact .inl (hmove i hk hturn)
      · rcases hstay i hk hturn with hlt | ⟨hmeasure, hmover⟩
        · exact .inl hlt
        · refine .inr ⟨hmeasure, ?_⟩
          show wait (mover (states (i + 1))) (i + 1) < wait (mover (states i)) i
          rw [hmover]
          exact untilNext_succ_lt _ hturn)
  exact ⟨_, hk⟩

end Nsio
