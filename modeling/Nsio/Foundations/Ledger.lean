import Mathlib.Algebra.BigOperators.Group.List.Basic
import Mathlib.Algebra.Ring.Nat
import Mathlib.Data.Finset.Card
import Mathlib.Logic.Function.Basic
import Mathlib.Order.Interval.Finset.Nat

/-!
# A ledger of allocations

An allocator may hand out an address again once it was freed, so an address does not name a chunk.
The **ledger** keeps one record per chunk, the newest first, with the number of times it was freed.
A pointer denotes the newest chunk at its address, and that is the chunk `free` counts against.

`Balanced held l` says that every chunk of the ledger is accounted for, where `held p` is the
number of places that keep a pointer `p`: the number of frees of a chunk and the number of places
that hold it add up to one. For a chunk whose address was handed out again the second number is
zero. The rules `Balanced.handOut` and `Balanced.free` are all a client needs.

The last section bounds the bytes of chunks that do not overlap.
-/

namespace Ledger

/-- One chunk an allocator handed out. -/
structure Chunk (α : Type*) where
  /-- The address of the chunk. -/
  addr : α
  /-- How often it was freed. -/
  frees : ℕ := 0
  deriving DecidableEq, Repr

variable {α : Type*} [DecidableEq α]

/-- The allocator hands out the address `p`. -/
def handOut (p : α) (l : List (Chunk α)) : List (Chunk α) := ⟨p, 0⟩ :: l

/-- `free p` counts against the newest chunk at `p`. -/
def free (p : α) : List (Chunk α) → List (Chunk α)
  | [] => []
  | c :: l => if c.addr = p then { c with frees := c.frees + 1 } :: l else c :: free p l

/-- The chunk at index `k` is the newest one at its address. -/
def Newest (l : List (Chunk α)) (k : ℕ) (p : α) : Prop := ∀ c ∈ l.take k, c.addr ≠ p

instance (l : List (Chunk α)) (k : ℕ) (p : α) : Decidable (Newest l k p) :=
  inferInstanceAs (Decidable (∀ c ∈ l.take k, c.addr ≠ p))

/-- Every chunk was freed or is held, once; nothing else is held. -/
def Balanced (held : α → ℕ) : List (Chunk α) → Prop
  | [] => ∀ p, held p = 0
  | c :: l => c.frees + held c.addr = 1 ∧ Balanced (Function.update held c.addr 0) l

/-! ### The rules -/

theorem Balanced.handOut {held : α → ℕ} {l : List (Chunk α)} (h : Balanced held l) {p : α}
    (hp : held p = 0) : Balanced (Function.update held p 1) (handOut p l) := by
  refine ⟨by simp, ?_⟩
  rwa [Function.update_idem, Function.update_eq_self_iff.2 hp.symm]

theorem Balanced.free {held : α → ℕ} {l : List (Chunk α)} (h : Balanced held l) {p : α}
    (hp : held p = 1) : Balanced (Function.update held p 0) (free p l) := by
  induction l generalizing held with
  | nil => exact absurd (h p) (by omega)
  | cons c l ih =>
    obtain ⟨hc, hl⟩ := h
    by_cases hcp : c.addr = p
    · subst hcp
      rw [Ledger.free, if_pos rfl]
      exact ⟨by simp; omega, by rwa [Function.update_idem]⟩
    · rw [Ledger.free, if_neg hcp]
      refine ⟨by rwa [Function.update_of_ne hcp], ?_⟩
      rw [Function.update_comm (Ne.symm hcp)]
      exact ih hl (by rwa [Function.update_of_ne (Ne.symm hcp)])

/-- Freeing every pointer that is held, each once. -/
theorem Balanced.foldl_free {held : α → ℕ} {l : List (Chunk α)} {ps : List α} (hps : ps.Nodup)
    (h : Balanced held l) (hheld : ∀ p, held p = ps.count p) :
    Balanced (fun _ ↦ 0) (ps.foldl (fun l p ↦ Ledger.free p l) l) := by
  induction ps generalizing held l with
  | nil =>
    have hzero : held = fun _ ↦ 0 := funext hheld
    rwa [hzero] at h
  | cons p ps ih =>
    obtain ⟨hp, hps⟩ := List.nodup_cons.1 hps
    have hone : held p = 1 := by rw [hheld, List.count_cons_self, List.count_eq_zero.2 hp]
    refine ih hps (h.free hone) fun q ↦ ?_
    by_cases hq : q = p
    · rw [hq, Function.update_self, List.count_eq_zero.2 hp]
    · rw [Function.update_of_ne hq, hheld, List.count_cons_of_ne (Ne.symm hq)]

/-! ### What a balanced ledger says of each chunk -/

theorem Balanced.held_le_one {held : α → ℕ} {l : List (Chunk α)} (h : Balanced held l) (p : α) :
    held p ≤ 1 := by
  induction l generalizing held with
  | nil => exact (h p).trans_le (Nat.zero_le _)
  | cons c l ih =>
    by_cases hp : p = c.addr
    · have := h.1
      rw [hp]
      omega
    · have := ih h.2
      rwa [Function.update_of_ne hp] at this

/-- **The fate of a chunk**: its frees, and its holders if its address was not handed out again,
add up to one. -/
theorem Balanced.frees_add_held {held : α → ℕ} {l : List (Chunk α)} (h : Balanced held l) {k : ℕ}
    {c : Chunk α} (hk : l[k]? = some c) :
    c.frees + (if Newest l k c.addr then held c.addr else 0) = 1 := by
  induction l generalizing held k with
  | nil => simp at hk
  | cons b l ih =>
    rcases k with - | k
    · obtain rfl : b = c := Option.some.inj hk
      rw [if_pos (by simp [Newest])]
      exact h.1
    · have hrest := ih h.2 hk
      have hnewest : Newest (b :: l) (k + 1) c.addr ↔ b.addr ≠ c.addr ∧ Newest l k c.addr := by
        rw [Newest, List.take_succ_cons, List.forall_mem_cons, Newest]
      by_cases hb : c.addr = b.addr
      · rw [hb, Function.update_self, ite_self] at hrest
        rwa [if_neg fun hn ↦ (hnewest.1 hn).1 hb.symm]
      · rw [Function.update_of_ne hb] at hrest
        rwa [if_congr (hnewest.trans (and_iff_right (Ne.symm hb))) rfl rfl]

/-- What is held was handed out and not freed. -/
theorem Balanced.exists_unfreed {held : α → ℕ} {l : List (Chunk α)} (h : Balanced held l) {p : α}
    (hp : held p ≠ 0) : ∃ c ∈ l, c.addr = p ∧ c.frees = 0 := by
  induction l generalizing held with
  | nil => exact absurd (h p) hp
  | cons c l ih =>
    by_cases hc : p = c.addr
    · have := h.1
      exact ⟨c, List.mem_cons_self, hc.symm, by rw [hc] at hp; omega⟩
    · obtain ⟨b, hb, hbp⟩ := ih h.2 (by rwa [Function.update_of_ne hc])
      exact ⟨b, List.mem_cons_of_mem c hb, hbp⟩

end Ledger

/-! ### Chunks that do not overlap -/

namespace Intervals

/-- Two half-open intervals, each a start and a length, do not overlap. -/
def Apart (x y : ℕ × ℕ) : Prop := x.1 + x.2 ≤ y.1 ∨ y.1 + y.2 ≤ x.1

instance (x y : ℕ × ℕ) : Decidable (Apart x y) := inferInstanceAs (Decidable (_ ∨ _))

theorem Apart.symm {x y : ℕ × ℕ} (h : Apart x y) : Apart y x := Or.symm h

theorem Apart.disjoint {x y : ℕ × ℕ} (h : Apart x y) :
    Disjoint (Finset.Ico x.1 (x.1 + x.2)) (Finset.Ico y.1 (y.1 + y.2)) := by
  rw [Finset.disjoint_left]
  intro i hx hy
  rw [Finset.mem_Ico] at hx hy
  rcases h with h | h <;> omega

/-- **Intervals that do not overlap are together no longer than the range they lie in.** -/
theorem sum_le_of_pairwise_apart {l : List (ℕ × ℕ)} {a b : ℕ} (h : l.Pairwise Apart)
    (hin : ∀ x ∈ l, a ≤ x.1 ∧ x.1 + x.2 ≤ b) : (l.map Prod.snd).sum ≤ b - a := by
  -- the points of the intervals, as one set
  suffices hset : ∃ S : Finset ℕ, S.card = (l.map Prod.snd).sum ∧
      ∀ i ∈ S, ∃ x ∈ l, i ∈ Finset.Ico x.1 (x.1 + x.2) by
    obtain ⟨S, hcard, hS⟩ := hset
    rw [← hcard, ← Nat.card_Ico]
    refine Finset.card_le_card fun i hi ↦ ?_
    obtain ⟨x, hx, hix⟩ := hS i hi
    have := hin x hx
    rw [Finset.mem_Ico] at hix ⊢
    omega
  clear hin
  induction l with
  | nil => exact ⟨∅, by simp⟩
  | cons x l ih =>
    obtain ⟨hx, hl⟩ := List.pairwise_cons.1 h
    obtain ⟨S, hcard, hS⟩ := ih hl
    refine ⟨Finset.Ico x.1 (x.1 + x.2) ∪ S, ?_, fun i hi ↦ ?_⟩
    · rw [Finset.card_union_of_disjoint, hcard, Nat.card_Ico, List.map_cons, List.sum_cons,
        Nat.add_sub_cancel_left]
      rw [Finset.disjoint_left]
      intro i hix hi
      obtain ⟨y, hy, hiy⟩ := hS i hi
      exact Finset.disjoint_left.1 (hx y hy).disjoint hix hiy
    · rcases Finset.mem_union.1 hi with hi | hi
      · exact ⟨x, List.mem_cons_self, hi⟩
      · obtain ⟨y, hy, hiy⟩ := hS i hi
        exact ⟨y, List.mem_cons_of_mem x hy, hiy⟩

end Intervals
