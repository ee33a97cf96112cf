import Mathlib.Data.BitVec
import Mathlib.Tactic.Common

/-!
# Words as bitmaps

What a word says of each of its bits once one is tested, set or cleared, or once the low ones are
tested together.

* `and_bit_eq_zero`, `and_mask_eq` — a test of one bit, and of all bits below one;
* `or_bit_getLsbD`, `and_not_bit_getLsbD` — the bits after one is set, or cleared.
-/

namespace VPcie.Lib

variable {w : ℕ}

/-- The word with bit `i` alone. -/
def bit (w i : ℕ) : BitVec w := 1#w <<< i

/-- The word with the bits below `k`. -/
def lowMask (w k : ℕ) : BitVec w := 1#w <<< k - 1#w

theorem bit_getLsbD {i : ℕ} (hi : i < w) (j : ℕ) : (bit w i).getLsbD j = decide (j = i) := by
  rw [bit, ← BitVec.twoPow_eq, BitVec.getLsbD_twoPow, decide_eq_true hi, Bool.true_and]
  exact decide_eq_decide.mpr eq_comm

theorem lowMask_getLsbD {k : ℕ} (hk : k < w) (j : ℕ) :
    (lowMask w k).getLsbD j = decide (j < k) := by
  have hpow : (1#w <<< k).toNat = 2 ^ k := by
    rw [← BitVec.twoPow_eq, BitVec.toNat_twoPow_of_lt hk]
  have hone : (1#w).toNat = 1 := Nat.mod_eq_of_lt (Nat.one_lt_two_pow (by omega))
  have hle : 1#w ≤ 1#w <<< k := by
    rw [BitVec.le_def, hpow, hone]
    exact Nat.one_le_two_pow
  rw [lowMask, BitVec.getLsbD, BitVec.toNat_sub_of_le hle, hpow, hone, Nat.testBit_two_pow_sub_one]

/-- A test of one bit. -/
theorem and_bit_eq_zero {x : BitVec w} {i : ℕ} (hi : i < w) :
    x &&& bit w i = 0#w ↔ x.getLsbD i = false := by
  constructor
  · intro h
    have hbit : (x &&& bit w i).getLsbD i = false := by rw [h, BitVec.getLsbD_zero]
    rwa [BitVec.getLsbD_and, bit_getLsbD hi, decide_eq_true rfl, Bool.and_true] at hbit
  · intro h
    apply BitVec.eq_of_getLsbD_eq
    intro j _
    rw [BitVec.getLsbD_and, bit_getLsbD hi, BitVec.getLsbD_zero]
    by_cases hj : j = i
    · rw [hj, h, Bool.false_and]
    · rw [decide_eq_false hj, Bool.and_false]

/-- A test of all bits below one. -/
theorem and_mask_eq {x : BitVec w} {k : ℕ} (hk : k < w) :
    x &&& lowMask w k = lowMask w k ↔ ∀ j < k, x.getLsbD j = true := by
  constructor
  · intro h j hj
    have hbit : (x &&& lowMask w k).getLsbD j = true := by
      rw [h, lowMask_getLsbD hk, decide_eq_true hj]
    rwa [BitVec.getLsbD_and, lowMask_getLsbD hk, decide_eq_true hj, Bool.and_true] at hbit
  · intro h
    apply BitVec.eq_of_getLsbD_eq
    intro j _
    rw [BitVec.getLsbD_and, lowMask_getLsbD hk]
    by_cases hj : j < k
    · rw [h j hj, Bool.true_and]
    · rw [decide_eq_false hj, Bool.and_false]

/-- The bits after one is set. -/
theorem or_bit_getLsbD (x : BitVec w) {i : ℕ} (hi : i < w) (j : ℕ) :
    (x ||| bit w i).getLsbD j = (x.getLsbD j || decide (j = i)) := by
  rw [BitVec.getLsbD_or, bit_getLsbD hi]

/-- The bits after one is cleared. -/
theorem and_not_bit_getLsbD (x : BitVec w) {i : ℕ} (hi : i < w) (j : ℕ) :
    (x &&& ~~~(bit w i)).getLsbD j = (x.getLsbD j && !decide (j = i)) := by
  rw [BitVec.getLsbD_and, BitVec.getLsbD_not, bit_getLsbD hi]
  by_cases hj : j < w
  · rw [decide_eq_true hj, Bool.true_and]
  · rw [BitVec.getLsbD_of_ge x j (by omega), Bool.false_and, Bool.false_and]

/-- Setting a bit that is set changes nothing. -/
theorem or_bit_eq_self {x : BitVec w} {i : ℕ} (hi : i < w) (h : x.getLsbD i = true) :
    x ||| bit w i = x := by
  apply BitVec.eq_of_getLsbD_eq
  intro j _
  rw [or_bit_getLsbD x hi]
  by_cases hj : j = i
  · rw [hj, h, Bool.true_or]
  · rw [decide_eq_false hj, Bool.or_false]

end VPcie.Lib
