import Mathlib.Data.BitVec
import Mathlib.Tactic.Common

/-!
# Slices of a vector of bits

* `setSlice` — a vector with the bits from one on replaced by a word;
* `setSlice_extract_self`, `setSlice_extract_of_le` — that slice, and the ones below it;
* `HoldsWords.snoc` — words set one after another are there.
-/

namespace VPcie.Lib

variable {n w : ℕ}

/-- The vector with the bits from `i` on replaced by those of a word. -/
def setSlice (v : BitVec n) (i : ℕ) (x : BitVec w) : BitVec n :=
  v &&& ~~~((BitVec.allOnes w).setWidth n <<< i) ||| x.setWidth n <<< i

theorem setSlice_getLsbD (v : BitVec n) (i : ℕ) (x : BitVec w) {j : ℕ} (hj : j < n) :
    (setSlice v i x).getLsbD j
      = if i ≤ j ∧ j < i + w then x.getLsbD (j - i) else v.getLsbD j := by
  simp only [setSlice, BitVec.getLsbD_or, BitVec.getLsbD_and, BitVec.getLsbD_not,
    BitVec.getLsbD_shiftLeft, BitVec.getLsbD_setWidth, BitVec.getLsbD_allOnes, hj, decide_true,
    Bool.true_and]
  by_cases hi : j < i
  · have hout : ¬(i ≤ j ∧ j < i + w) := by omega
    simp [hi, hout]
  · have hlt : j - i < n := by omega
    by_cases hw : j - i < w
    · have hin : i ≤ j ∧ j < i + w := by omega
      simp [hi, hlt, hw, hin]
    · have hout : ¬(i ≤ j ∧ j < i + w) := by omega
      simp [hi, hw, hout, BitVec.getLsbD_of_ge x (j - i) (by omega)]

/-- The slice that is set. -/
theorem setSlice_extract_self (v : BitVec n) {i : ℕ} (x : BitVec w) (h : i + w ≤ n) :
    (setSlice v i x).extractLsb' i w = x := by
  apply BitVec.eq_of_getLsbD_eq
  intro j hj
  have hin : i ≤ i + j ∧ i + j < i + w := by omega
  rw [BitVec.getLsbD_extractLsb', setSlice_getLsbD v i x (by omega), if_pos hin,
    decide_eq_true hj, Bool.true_and, Nat.add_sub_cancel_left]

/-- One below it. -/
theorem setSlice_extract_of_le (v : BitVec n) {i k : ℕ} (x : BitVec w) (h : i + w ≤ n)
    (hk : k + w ≤ i) : (setSlice v i x).extractLsb' k w = v.extractLsb' k w := by
  apply BitVec.eq_of_getLsbD_eq
  intro j hj
  have hout : ¬(i ≤ k + j ∧ k + j < i + w) := by omega
  rw [BitVec.getLsbD_extractLsb', BitVec.getLsbD_extractLsb',
    setSlice_getLsbD v i x (by omega), if_neg hout]

/-- The words are those of the vector, from bit 0 on. -/
def HoldsWords (v : BitVec n) (xs : List (BitVec w)) : Prop :=
  ∀ (j : ℕ) (hj : j < xs.length), v.extractLsb' (j * w) w = xs[j]

theorem holdsWords_nil (v : BitVec n) : HoldsWords v ([] : List (BitVec w)) := by
  intro j hj
  exact absurd hj (Nat.not_lt_zero j)

/-- **A word set after others** is there, and they still are. -/
theorem HoldsWords.snoc {v : BitVec n} {xs : List (BitVec w)} (h : HoldsWords v xs)
    (x : BitVec w) (hfits : xs.length * w + w ≤ n) :
    HoldsWords (setSlice v (xs.length * w) x) (xs ++ [x]) := by
  intro j hj
  rw [List.length_append, List.length_singleton] at hj
  rcases Nat.lt_or_ge j xs.length with hlt | hge
  · have hbelow : j * w + w ≤ xs.length * w := by
      rw [← Nat.succ_mul]
      exact Nat.mul_le_mul_right w hlt
    rw [setSlice_extract_of_le v x hfits hbelow, h j hlt, List.getElem_append_left hlt]
  · obtain rfl : j = xs.length := by omega
    rw [setSlice_extract_self v x hfits, List.getElem_concat_length rfl]

end VPcie.Lib
