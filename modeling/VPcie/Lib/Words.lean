import VPcie.Lib.Bytes

/-!
# Aligned 32-bit words of a memory

A structure of 32-bit fields is a byte memory read by words: `word m i` is the one at `4 * i`, and
`setWord` replaces it.

* `word_setWord` — a word is what it was set to, and the others are as they were;
* `setWord_eq_self_iff` — setting a word changes nothing exactly when it has this value.
-/

namespace VPcie.Lib

/-- The word at `4 * i`. -/
def word (m : Mem) (i : ℕ) : BitVec 32 := BitVec.ofNat 32 (leNat (load m (4 * i) 4))

/-- The memory with the word at `4 * i` replaced. -/
def setWord (m : Mem) (i : ℕ) (v : BitVec 32) : Mem := store m (4 * i) (leBytes 4 v.toNat)

variable (m : Mem) (i j : ℕ) (v : BitVec 32)

theorem word_setWord_self : word (setWord m i v) i = v := by
  rw [word, setWord, load_store_eq m (4 * i) 4 _ (leBytes_length 4 v.toNat)]
  exact ofNat_leNat_leBytes 4 v

theorem word_setWord_of_ne (h : j ≠ i) : word (setWord m i v) j = word m j := by
  have hbeside : 4 * j + 4 ≤ 4 * i ∨ 4 * i + (leBytes 4 v.toNat).length ≤ 4 * j := by
    rw [leBytes_length]
    omega
  rw [word, setWord, load_store_disjoint m _ _ _ _ hbeside, word]

/-- **A word is what it was set to**, and the others are as they were. -/
theorem word_setWord : word (setWord m i v) j = if j = i then v else word m j := by
  by_cases h : j = i
  · rw [if_pos h, h, word_setWord_self]
  · rw [if_neg h, word_setWord_of_ne m i j v h]

theorem setWord_apply_of_ne {a : ℕ} (h : a / 4 ≠ i) : setWord m i v a = m a := by
  rcases Nat.lt_or_ge a (4 * i) with hlt | hge
  · exact store_apply_of_lt _ _ _ _ hlt
  · apply store_apply_of_ge
    rw [leBytes_length]
    omega

theorem word_toNat : (word m i).toNat = leNat (load m (4 * i) 4) := by
  have hlt := leNat_lt (load m (4 * i) 4)
  rw [load_length] at hlt
  rw [word, BitVec.toNat_ofNat, show 2 ^ 32 = 256 ^ 4 by norm_num, Nat.mod_eq_of_lt hlt]

/-- The bytes of a word are the bytes there. -/
theorem leBytes_word : leBytes 4 (word m i).toNat = load m (4 * i) 4 := by
  have hround := leBytes_leNat (load m (4 * i) 4)
  rw [load_length] at hround
  rw [word_toNat, hround]

theorem setWord_word : setWord m i (word m i) = m := by
  rw [setWord, leBytes_word]
  funext a
  by_cases h : a / 4 = i
  · obtain ⟨k, rfl⟩ : ∃ k, a = 4 * i + k := ⟨a - 4 * i, by omega⟩
    have hk : k < 4 := by omega
    rw [store_apply_add _ _ _ _ (by rw [load_length]; exact hk), load_getD _ _ _ _ hk]
  · have hsame := setWord_apply_of_ne m i (word m i) h
    rw [setWord, leBytes_word] at hsame
    exact hsame

/-- **Setting a word changes nothing** exactly when it has this value. -/
theorem setWord_eq_self_iff : setWord m i v = m ↔ v = word m i := by
  constructor
  · intro h
    rw [← h, word_setWord_self]
  · intro h
    rw [h, setWord_word]

end VPcie.Lib
