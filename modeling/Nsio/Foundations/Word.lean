import Mathlib.Data.Nat.Basic
import Mathlib.Data.Nat.Bitwise
import Mathlib.Tactic.Ring

/-!
# Rounding and packing in 32-bit words

Two idioms of C code on `uint32_t`, with their meaning in `ℕ`:

* rounding up to a power of two by mask, `(x + a - 1) & ~(a - 1)` (`Word.alignUp`). Its meaning is
  the exact rounding `roundUp` **reduced modulo `2 ^ 32`** (`toNat_alignUp`): the sum may wrap, and
  because the alignment divides the word size the wrapped value is still the rounded one, reduced;
* packing a value and a small tag into one word, `(x << 8) | tag` (`Word.pack`). The shift drops
  the top eight bits of the value, so two packed words are equal exactly when the tags are and the
  values agree modulo `2 ^ 24` (`pack_eq_pack_iff`).

`roundUp` is the exact rounding in `ℕ`, with the facts the word lemmas reduce to.
-/

/-! ### Exact rounding -/

/-- The least multiple of `m` that is at least `n` (for `m ≠ 0`). -/
def roundUp (n m : ℕ) : ℕ := (n + (m - 1)) / m * m

theorem dvd_roundUp (n m : ℕ) : m ∣ roundUp n m := Dvd.intro_left _ rfl

@[simp] theorem roundUp_zero (m : ℕ) : roundUp 0 m = 0 := by
  rcases Nat.eq_zero_or_pos m with rfl | hm
  · simp [roundUp]
  · rw [roundUp, Nat.zero_add, Nat.div_eq_of_lt (by omega), Nat.zero_mul]

theorem le_roundUp {n m : ℕ} (hm : 0 < m) : n ≤ roundUp n m := by
  have h := Nat.lt_div_mul_add (a := n + (m - 1)) hm
  simp only [roundUp]
  omega

theorem roundUp_lt {n m : ℕ} (hm : 0 < m) : roundUp n m < n + m := by
  have h := Nat.div_mul_le_self (n + (m - 1)) m
  simp only [roundUp]
  omega

/-- Rounding up is the least multiple: the Galois connection that settles every bound on it. -/
theorem roundUp_le_mul_iff {n m k : ℕ} (hm : 0 < m) : roundUp n m ≤ k * m ↔ n ≤ k * m := by
  refine ⟨fun h ↦ (le_roundUp hm).trans h, fun h ↦ ?_⟩
  refine Nat.mul_le_mul_right m (Nat.le_of_lt_succ ?_)
  rw [Nat.div_lt_iff_lt_mul hm, Nat.succ_mul]
  omega

theorem roundUp_of_dvd {n m : ℕ} (h : m ∣ n) : roundUp n m = n := by
  obtain ⟨k, rfl⟩ := h
  rcases Nat.eq_zero_or_pos m with rfl | hm
  · simp [roundUp]
  · refine Nat.le_antisymm ?_ (le_roundUp hm)
    rw [Nat.mul_comm m k]
    exact (roundUp_le_mul_iff hm).2 le_rfl

theorem roundUp_le_iff {n m c : ℕ} (hm : 0 < m) (hc : m ∣ c) : roundUp n m ≤ c ↔ n ≤ c := by
  obtain ⟨k, rfl⟩ := hc
  rw [Nat.mul_comm m k]
  exact roundUp_le_mul_iff hm

theorem unit_le_roundUp {n m : ℕ} (hm : 0 < m) (hn : 0 < n) : m ≤ roundUp n m :=
  Nat.le_of_dvd (hn.trans_le (le_roundUp hm)) (dvd_roundUp n m)

/-- A positive number of at most one unit is rounded to the unit. -/
theorem roundUp_eq_unit {n m : ℕ} (hn : 0 < n) (hle : n ≤ m) : roundUp n m = m :=
  Nat.le_antisymm ((roundUp_le_iff (hn.trans_le hle) dvd_rfl).2 hle)
    (unit_le_roundUp (hn.trans_le hle) hn)

/-- Below a multiple `w` of the unit, a rounding is `w` itself, the last multiple before it, or
smaller. -/
theorem roundUp_near_top {n m w : ℕ} (hm : 0 < m) (hw : m ∣ w) (hn : n ≤ w) :
    (w < n + m ∧ roundUp n m = w) ∨ (w < n + 2 * m ∧ n + m ≤ w ∧ roundUp n m + m = w) ∨
      (n + 2 * m ≤ w ∧ roundUp n m + 2 * m ≤ w) := by
  have hle : roundUp n m ≤ w := (roundUp_le_iff hm hw).2 hn
  obtain ⟨j, hj⟩ := dvd_roundUp n m
  obtain ⟨k, rfl⟩ := hw
  have hge := le_roundUp (n := n) hm
  have hlt := roundUp_lt (n := n) hm
  rw [hj] at hle hge hlt ⊢
  obtain ⟨d, rfl⟩ := Nat.exists_eq_add_of_le (Nat.le_of_mul_le_mul_left hle hm)
  rw [Nat.mul_add] at *
  rcases d with - | - | d
  · exact .inl (by omega)
  · exact .inr (.inl (by omega))
  · have hd : m * (d + 1 + 1) = m * d + 2 * m := by ring
    exact .inr (.inr (by omega))

/-- Rounding a remainder modulo a multiple of `m` gives the remainder of the rounding. -/
theorem roundUp_mod_mul {n m k : ℕ} (hm : 0 < m) :
    roundUp (n % (k * m)) m % (k * m) = roundUp n m % (k * m) := by
  have hsplit : n + (m - 1) = n % (k * m) + (m - 1) + m * (k * (n / (k * m))) := by
    have h := Nat.mod_add_div n (k * m)
    have hcomm : m * (k * (n / (k * m))) = k * m * (n / (k * m)) := by ring
    omega
  have hround : roundUp n m = roundUp (n % (k * m)) m + k * m * (n / (k * m)) := by
    rw [roundUp, hsplit, Nat.add_mul_div_left _ _ hm, Nat.add_mul, roundUp]
    ring
  rw [hround, Nat.add_mul_mod_self_left]

/-- Rounding first to one of two nested alignments and then to the other rounds to the larger. -/
theorem roundUp_roundUp_of_dvd {n a b : ℕ} (hb : 0 < b) (h : a ∣ b) :
    roundUp (roundUp n a) b = roundUp n b := by
  have ha : 0 < a := Nat.pos_of_dvd_of_pos h hb
  obtain ⟨c, hc⟩ := h
  obtain ⟨q, hq⟩ := dvd_roundUp n b
  have hqb : roundUp n b = q * b := by rw [hq, Nat.mul_comm]
  refine Nat.le_antisymm ?_ ?_
  · rw [hqb, roundUp_le_mul_iff hb, hc, show q * (a * c) = q * c * a by ring,
      roundUp_le_mul_iff ha, show q * c * a = q * b by rw [hc]; ring, ← hqb]
    exact le_roundUp hb
  · obtain ⟨r, hr⟩ := dvd_roundUp (roundUp n a) b
    rw [hr, Nat.mul_comm b r, roundUp_le_mul_iff hb]
    exact (le_roundUp ha).trans ((le_roundUp hb).trans (by rw [hr, Nat.mul_comm]))

/-! ### Rounding in words -/

namespace Word

/-- The C rounding idiom `(x + a - 1) & ~(a - 1)` on `uint32_t`. -/
def alignUp (x a : UInt32) : UInt32 := (x + a - 1) &&& ~~~(a - 1)

theorem toNat_one_shiftLeft {b : UInt32} (hb : b < 32) :
    (1 <<< b : UInt32).toNat = 2 ^ b.toNat := by
  have hb' : b.toNat < 32 := UInt32.lt_iff_toNat_lt.1 hb
  have hlt : 2 ^ b.toNat < 2 ^ 32 := Nat.pow_lt_pow_right (by omega) hb'
  rw [UInt32.toNat_shiftLeft, Nat.mod_eq_of_lt hb', Nat.shiftLeft_eq, UInt32.toNat_one,
    Nat.one_mul, Nat.mod_eq_of_lt hlt]

/-- Clearing the low `k` bits of a word is rounding it down. -/
theorem and_not_toNat {x m : UInt32} {k : ℕ} (hm : m.toNat = 2 ^ k - 1) :
    (x &&& ~~~m).toNat = x.toNat / 2 ^ k * 2 ^ k := by
  refine Nat.eq_of_testBit_eq fun i ↦ ?_
  rw [UInt32.toNat_and, Nat.testBit_and, Nat.testBit_mul_two_pow, Nat.testBit_div_two_pow]
  have hbit : m.toBitVec.getLsbD i = decide (i < k) := by
    rw [← Nat.testBit_two_pow_sub_one, ← hm]
    rfl
  by_cases hi : i < 32
  · have hnot : (~~~m).toNat.testBit i = !decide (i < k) := by
      rw [← hbit]
      show (~~~m.toBitVec).getLsbD i = _
      rw [BitVec.getLsbD_not, decide_eq_true hi, Bool.true_and]
    rw [hnot]
    by_cases hk : k ≤ i
    · simp [hk, Nat.sub_add_cancel hk]
    · simp [hk, Nat.lt_of_not_le hk]
  -- above the word size both sides are zero
  · have hx : ∀ j, 32 ≤ j → x.toNat.testBit j = false := fun j hj ↦
      Nat.testBit_lt_two_pow (x.toNat_lt.trans_le (Nat.pow_le_pow_right (by omega) hj))
    rw [hx i (by omega), Bool.false_and]
    by_cases hk : k ≤ i
    · rw [Nat.sub_add_cancel hk, hx i (by omega), Bool.and_false]
    · simp [hk]

/-- **The meaning of the rounding idiom**: exact rounding, reduced modulo the word size. -/
theorem toNat_alignUp {x a : UInt32} {k : ℕ} (hk : k < 32) (ha : a.toNat = 2 ^ k) :
    (alignUp x a).toNat = roundUp x.toNat (2 ^ k) % 2 ^ 32 := by
  have hpos : 0 < 2 ^ k := Nat.two_pow_pos k
  have hle : (1 : UInt32) ≤ a := by
    rw [UInt32.le_iff_toNat_le, ha, UInt32.toNat_one]
    exact hpos
  have hmask : (a - 1).toNat = 2 ^ k - 1 := by
    rw [UInt32.toNat_sub_of_le _ _ hle, ha, UInt32.toNat_one]
  have hsum : (x + a - 1).toNat = (x.toNat + (2 ^ k - 1)) % 2 ^ 32 := by
    rw [UInt32.sub_eq_add_neg, UInt32.add_assoc, ← UInt32.sub_eq_add_neg, UInt32.toNat_add, hmask]
  have hword : 2 ^ 32 = 2 ^ (32 - k) * 2 ^ k := by rw [← Nat.pow_add]; congr 1; omega
  rw [alignUp, and_not_toNat hmask, hsum, roundUp, hword, Nat.mod_mul_left_div_self,
    Nat.mul_mod_mul_right]

/-! ### Packing a tag -/

/-- A value and an 8-bit tag in one word, `(x << 8) | tag`. -/
def pack (x tag : UInt32) : UInt32 := (x <<< 8) ||| tag

theorem toNat_pack {x tag : UInt32} (h : tag.toNat < 2 ^ 8) :
    (pack x tag).toNat = x.toNat % 2 ^ 24 * 2 ^ 8 + tag.toNat := by
  have hshift : (x <<< 8 : UInt32).toNat = (x.toNat % 2 ^ 24) <<< 8 := by
    rw [UInt32.toNat_shiftLeft, Nat.shiftLeft_eq, Nat.shiftLeft_eq,
      show (8 : UInt32).toNat % 32 = 8 from rfl, show 2 ^ 32 = 2 ^ 24 * 2 ^ 8 by norm_num,
      Nat.mul_mod_mul_right]
  rw [pack, UInt32.toNat_or, hshift, ← Nat.shiftLeft_add_eq_or_of_lt h, Nat.shiftLeft_eq]

/-- **Two packed words agree exactly when the tags do and the values do modulo `2 ^ 24`.** -/
theorem pack_eq_pack_iff {x y s t : UInt32} (hs : s.toNat < 2 ^ 8) (ht : t.toNat < 2 ^ 8) :
    pack x s = pack y t ↔ x.toNat % 2 ^ 24 = y.toNat % 2 ^ 24 ∧ s = t := by
  rw [← UInt32.toNat_inj, toNat_pack hs, toNat_pack ht]
  constructor
  · intro h
    exact ⟨by omega, UInt32.toNat_inj.1 (by omega)⟩
  · rintro ⟨h, rfl⟩
    rw [h]

/-- What was added to a mask is in it. -/
theorem or_and_self (x m : UInt32) : (x ||| m) &&& m = m := by
  rw [← UInt32.toBitVec_inj, UInt32.toBitVec_and, UInt32.toBitVec_or]
  ext i hi
  simp only [BitVec.getElem_and, BitVec.getElem_or, Bool.and_eq_right_iff_imp]
  intro h
  rw [h, Bool.or_true]

end Word
