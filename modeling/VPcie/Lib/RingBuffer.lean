import Mathlib.Data.BitVec
import Mathlib.Logic.Function.Basic

/-!
# Ring buffers

A memory of `n` slots holds a list in successive slots, and the slot after the last is the first.
Places are numbered without wrapping, and `ix` says in which slot a place is.  A pointer of `k + 1`
bits is such a number modulo twice the number of slots.

* `BoundedQueue` — what it is for;
* `Stored` — the memory holds a list from a place on;
* `Stored.push`, `Stored.pop` — one more word, and one less;
* `ofNat_add_eq_iff`, `lapped_iff` — when two pointers are equal, and when one is a lap ahead.
-/

namespace VPcie.Lib

/-! ### Bounded queues -/

/-- A queue with room for `n` words, the oldest first. -/
structure BoundedQueue (α : Type*) (n : ℕ) where
  words : List α
  length_le : words.length ≤ n

namespace BoundedQueue

variable {α : Type*} {n : ℕ}

def empty (n : ℕ) : BoundedQueue α n := ⟨[], Nat.zero_le n⟩

/-- The word that is taken out in a cycle. -/
def popped (q : BoundedQueue α n) (pop : Bool) : Option α := if pop then q.words.head? else none

/-- The word that is put in; there is room only if there was room before the cycle. -/
def pushed (q : BoundedQueue α n) (push : Option α) : List α :=
  if q.words.length < n then push.toList else []

theorem pushed_length_le (q : BoundedQueue α n) (push : Option α) :
    q.words.length + (q.pushed push).length ≤ n := by
  have hle := q.length_le
  have hpush : push.toList.length ≤ 1 := by
    cases push with
    | none => exact Nat.zero_le 1
    | some w => exact Nat.le_refl 1
  rw [pushed]
  split
  · omega
  · exact hle

/-- A cycle in which a word may be put in and one taken out. -/
def clock (q : BoundedQueue α n) (push : Option α) (pop : Bool) : BoundedQueue α n where
  words := (if pop then q.words.tail else q.words) ++ q.pushed push
  length_le := by
    have hle := q.pushed_length_le push
    rw [List.length_append]
    split
    · rw [List.length_tail]
      omega
    · exact hle

end BoundedQueue

/-! ### Words in successive slots -/

section Stored

variable {α ι : Type*}

/-- Any `n` successive places are in different slots. -/
def SlotsApart (ix : ℕ → ι) (n : ℕ) : Prop := ∀ i j, i < j → j < i + n → ix i ≠ ix j

/-- The memory holds these words from place `p` on. -/
def Stored (ix : ℕ → ι) (ram : ι → α) (p : ℕ) (ws : List α) : Prop :=
  ∀ i (h : i < ws.length), ram (ix (p + i)) = ws[i]

variable {ix : ℕ → ι} {n : ℕ} {ram : ι → α} {p : ℕ} {w : α} {ws : List α}

theorem stored_nil (ix : ℕ → ι) (ram : ι → α) (p : ℕ) : Stored ix ram p [] := by
  intro i hi
  exact absurd hi (Nat.not_lt_zero i)

theorem stored_cons : Stored ix ram p (w :: ws) ↔ ram (ix p) = w ∧ Stored ix ram (p + 1) ws := by
  constructor
  · intro h
    refine ⟨h 0 (Nat.succ_pos _), ?_⟩
    intro i hi
    rw [Nat.add_assoc, Nat.add_comm 1 i]
    exact h (i + 1) (Nat.succ_lt_succ hi)
  · rintro ⟨hw, hws⟩ i hi
    cases i with
    | zero => exact hw
    | succ i =>
      have hlt : i < ws.length := Nat.lt_of_succ_lt_succ hi
      have hplace : p + (i + 1) = p + 1 + i := by omega
      rw [hplace]
      exact hws i hlt

/-- **The first word is taken out.** -/
theorem Stored.pop (h : Stored ix ram p (w :: ws)) : ram (ix p) = w ∧ Stored ix ram (p + 1) ws :=
  stored_cons.mp h

variable [DecidableEq ι]

/-- A write to the slot of another place. -/
theorem Stored.update (h : Stored ix ram p ws) {q : ℕ} (d : α)
    (hq : ∀ i < ws.length, ix (p + i) ≠ ix q) : Stored ix (Function.update ram (ix q) d) p ws := by
  intro i hi
  rw [Function.update_of_ne (hq i hi)]
  exact h i hi

/-- **A word is added behind the last one**, if there is a free slot. -/
theorem Stored.push (h : Stored ix ram p ws) (hix : SlotsApart ix n) (hlt : ws.length < n) (d : α) :
    Stored ix (Function.update ram (ix (p + ws.length)) d) p (ws ++ [d]) := by
  have hkept : Stored ix (Function.update ram (ix (p + ws.length)) d) p ws :=
    h.update d fun i hi => hix _ _ (by omega) (by omega)
  intro i hi
  rw [List.length_append, List.length_singleton] at hi
  rcases Nat.lt_or_ge i ws.length with hlt' | hge
  · rw [List.getElem_append_left hlt']
    exact hkept i hlt'
  · obtain rfl : i = ws.length := by omega
    rw [Function.update_self, List.getElem_append_right (Nat.le_refl _)]
    simp

end Stored

/-! ### Pointers -/

section Pointers

variable {k w : ℕ}

/-- Pointers less than a full turn apart are equal only if the places are. -/
theorem ofNat_add_eq_iff {i j : ℕ} (hj : j < 2 ^ w) :
    BitVec.ofNat w (i + j) = BitVec.ofNat w i ↔ j = 0 := by
  constructor
  · intro h
    have hmod := congrArg BitVec.toNat h
    rw [BitVec.toNat_ofNat, BitVec.toNat_ofNat] at hmod
    have hzero := Nat.sub_mod_eq_zero_of_mod_eq hmod
    rw [Nat.add_sub_cancel_left, Nat.mod_eq_of_lt hj] at hzero
    exact hzero
  · rintro rfl
    rfl

/-- The slots of a memory addressed with `k` bits. -/
theorem slotsApart_ofNat (k : ℕ) : SlotsApart (BitVec.ofNat k) (2 ^ k) := by
  intro i j hlt hlt' heq
  obtain ⟨d, rfl⟩ := Nat.exists_eq_add_of_lt hlt
  rw [Nat.add_assoc] at heq
  have hzero := (ofNat_add_eq_iff (by omega)).mp heq.symm
  omega

/-- The top bit tells the laps apart. -/
theorem msb_ofNat_add (i : ℕ) :
    (BitVec.ofNat (k + 1) (i + 2 ^ k)).msb = !(BitVec.ofNat (k + 1) i).msb := by
  rw [BitVec.msb_eq_getLsbD_last, BitVec.msb_eq_getLsbD_last, BitVec.getLsbD_ofNat,
    BitVec.getLsbD_ofNat, Nat.add_sub_cancel, Nat.add_comm i, Nat.testBit_two_pow_add_eq]
  simp

/-- **One pointer is a lap ahead** when only the top bits differ. -/
theorem lapped_iff {i j : ℕ} (hj : j < 2 ^ (k + 1)) :
    ((BitVec.ofNat (k + 1) (i + j)).setWidth k = (BitVec.ofNat (k + 1) i).setWidth k ∧
      (BitVec.ofNat (k + 1) (i + j)).msb ≠ (BitVec.ofNat (k + 1) i).msb) ↔ j = 2 ^ k := by
  have hpow : 2 ^ (k + 1) = 2 ^ k + 2 ^ k := by
    rw [Nat.pow_succ]
    omega
  rw [BitVec.setWidth_ofNat_of_le (Nat.le_succ k), BitVec.setWidth_ofNat_of_le (Nat.le_succ k)]
  constructor
  · rintro ⟨hlow, hmsb⟩
    rcases Nat.lt_or_ge j (2 ^ k) with hlt | hge
    · obtain rfl := (ofNat_add_eq_iff hlt).mp hlow
      exact absurd rfl hmsb
    · obtain ⟨d, rfl⟩ := Nat.exists_eq_add_of_le hge
      have hlap : BitVec.ofNat k (i + (2 ^ k + d)) = BitVec.ofNat k (i + d) := by
        apply BitVec.eq_of_toNat_eq
        rw [BitVec.toNat_ofNat, BitVec.toNat_ofNat, Nat.add_left_comm, Nat.add_mod_left]
      rw [hlap] at hlow
      rw [(ofNat_add_eq_iff (by omega)).mp hlow, Nat.add_zero]
  · rintro rfl
    refine ⟨?_, ?_⟩
    · apply BitVec.eq_of_toNat_eq
      rw [BitVec.toNat_ofNat, BitVec.toNat_ofNat, Nat.add_mod_right]
    · rw [msb_ofNat_add]
      cases (BitVec.ofNat (k + 1) i).msb <;> decide

end Pointers

end VPcie.Lib
