import Mathlib.Tactic.NormNum
import Mathlib.Tactic.Ring
import Mathlib.Data.List.GetD
import Mathlib.Data.List.Induction

/-!
# Little-endian words in byte-addressed memory

Both programs of the repository overlay packed C structures on byte buffers that are reused from
one message to the next, so a buffer here is a total map `Mem` from addresses to bytes: a shorter
write leaves the bytes behind it as they were.  `load` and `store` move lists of bytes, `leBytes`
and `leNat` are the little-endian layout of a word.

* `leNat_leBytes`, `leBytes_leNat` — the layout round-trips;
* `load_store`, `load_store_disjoint` — a load sees the last store, or looks past it;
* `foldl_store` — after a list of stores, each byte is the last one written there.
-/

namespace VPcie.Lib

/-- A byte. -/
abbrev Byte := BitVec 8

/-! ### Little-endian words -/

/-- The low `k` bytes of `n`, least significant first. -/
def leBytes : ℕ → ℕ → List Byte
  | 0, _ => []
  | k + 1, n => BitVec.ofNat 8 n :: leBytes k (n / 256)

/-- The number a list of bytes stands for, least significant first. -/
def leNat : List Byte → ℕ
  | [] => 0
  | b :: bs => b.toNat + 256 * leNat bs

@[simp] theorem leBytes_length (k n : ℕ) : (leBytes k n).length = k := by
  induction k generalizing n with
  | zero => rfl
  | succ k ih => simp [leBytes, ih]

theorem leNat_lt (bs : List Byte) : leNat bs < 256 ^ bs.length := by
  induction bs with
  | nil => simp [leNat]
  | cons b bs ih =>
    have hb : b.toNat < 256 := b.isLt
    rw [leNat, List.length_cons, pow_succ]
    omega

/-- **Decoding an encoded word** keeps its low `k` bytes. -/
theorem leNat_leBytes (k n : ℕ) : leNat (leBytes k n) = n % 256 ^ k := by
  induction k generalizing n with
  | zero => simp [leBytes, leNat, Nat.mod_one]
  | succ k ih =>
    rw [leBytes, leNat, ih, BitVec.toNat_ofNat, show 256 ^ (k + 1) = 256 * 256 ^ k by ring,
      Nat.mod_mul]

/-- **Encoding a decoded word** gives its bytes back. -/
theorem leBytes_leNat (bs : List Byte) : leBytes bs.length (leNat bs) = bs := by
  induction bs with
  | nil => rfl
  | cons b bs ih =>
    have hb : b.toNat < 256 := b.isLt
    have hdiv : (b.toNat + 256 * leNat bs) / 256 = leNat bs := by omega
    have hmod : BitVec.ofNat 8 (b.toNat + 256 * leNat bs) = b := by
      apply BitVec.eq_of_toNat_eq
      rw [BitVec.toNat_ofNat]
      omega
    simp only [List.length_cons, leNat, leBytes, hdiv, hmod, ih]

theorem leBytes_take (j k n : ℕ) (h : j ≤ k) : (leBytes k n).take j = leBytes j n := by
  induction j generalizing k n with
  | zero => simp [leBytes]
  | succ j ih =>
    obtain ⟨k, rfl⟩ : ∃ k', k = k' + 1 := ⟨k - 1, by omega⟩
    simp [leBytes, ih k (n / 256) (by omega)]

/-- Bit `j` of a word lies in byte `j / 8`. -/
theorem leNat_testBit (bs : List Byte) (j : ℕ) :
    (leNat bs).testBit j = (bs.getD (j / 8) 0).getLsbD (j % 8) := by
  induction bs generalizing j with
  | nil => simp [leNat]
  | cons b bs ih =>
    have hsplit := Nat.testBit_two_pow_mul_add (leNat bs) (i := 8) b.isLt j
    rw [leNat, Nat.add_comm, show 256 = 2 ^ 8 from rfl, hsplit]
    by_cases hj : j < 8
    · rw [if_pos hj, Nat.div_eq_of_lt hj, Nat.mod_eq_of_lt hj]
      rfl
    · rw [if_neg hj, ih, show j / 8 = (j - 8) / 8 + 1 by omega,
        show j % 8 = (j - 8) % 8 by omega, List.getD_cons_succ]

/-- A word survives its own width. -/
theorem ofNat_leNat_leBytes (k : ℕ) (x : BitVec (8 * k)) :
    BitVec.ofNat (8 * k) (leNat (leBytes k x.toNat)) = x := by
  have hlt : x.toNat < 256 ^ k := by
    rw [show 256 ^ k = 2 ^ (8 * k) by rw [pow_mul]; norm_num]
    exact x.isLt
  rw [leNat_leBytes, Nat.mod_eq_of_lt hlt, BitVec.ofNat_toNat, BitVec.setWidth_eq]

/-! ### Memory -/

/-- Byte-addressed memory; every address holds some byte. -/
abbrev Mem := ℕ → Byte

/-- The `n` bytes from address `off` on. -/
def load (m : Mem) (off n : ℕ) : List Byte := (List.range n).map fun j => m (off + j)

/-- Memory after the bytes `bs` have been copied to address `off`. -/
def store (m : Mem) (off : ℕ) (bs : List Byte) : Mem :=
  fun a => if off ≤ a ∧ a < off + bs.length then bs.getD (a - off) 0 else m a

@[simp] theorem load_length (m : Mem) (off n : ℕ) : (load m off n).length = n := by
  simp [load]

theorem load_getD (m : Mem) (off n j : ℕ) (h : j < n) : (load m off n).getD j 0 = m (off + j) := by
  simp [load, List.getD_eq_getElem?_getD, h]

theorem load_congr {m m' : Mem} {off n : ℕ} (h : ∀ j < n, m (off + j) = m' (off + j)) :
    load m off n = load m' off n := by
  simp only [load]
  apply List.map_congr_left
  intro j hj
  exact h j (List.mem_range.mp hj)

/-- Reading through a pointer `k` bytes into a buffer. -/
theorem load_shift (m : Mem) (k off n : ℕ) :
    load (fun j => m (k + j)) off n = load m (k + off) n := by
  simp only [load, Nat.add_assoc]

theorem load_append (m : Mem) (off a b : ℕ) :
    load m off (a + b) = load m off a ++ load m (off + a) b := by
  simp only [load, List.range_add, List.map_append, List.map_map, Function.comp_def,
    Nat.add_assoc]

theorem load_take (m : Mem) (off n k : ℕ) (h : k ≤ n) :
    (load m off n).take k = load m off k := by
  obtain ⟨d, rfl⟩ := Nat.exists_eq_add_of_le h
  rw [load_append, List.take_left' (load_length m off k)]

theorem store_apply_of_lt (m : Mem) (off : ℕ) (bs : List Byte) (a : ℕ) (h : a < off) :
    store m off bs a = m a := by
  rw [store, if_neg (by omega)]

theorem store_apply_of_ge (m : Mem) (off : ℕ) (bs : List Byte) (a : ℕ)
    (h : off + bs.length ≤ a) : store m off bs a = m a := by
  rw [store, if_neg (by omega)]

theorem store_apply_add (m : Mem) (off : ℕ) (bs : List Byte) (j : ℕ) (h : j < bs.length) :
    store m off bs (off + j) = bs.getD j 0 := by
  rw [store, if_pos (by omega), Nat.add_sub_cancel_left]

/-- **A load sees the bytes just stored**, at any place inside them. -/
theorem load_store (m : Mem) (off : ℕ) (bs : List Byte) (i n : ℕ) (h : i + n ≤ bs.length) :
    load (store m off bs) (off + i) n = (bs.drop i).take n := by
  apply List.ext_getElem
  · simp only [load_length, List.length_take, List.length_drop]
    omega
  · intro j hj _
    rw [load_length] at hj
    have hb : i + j < bs.length := by omega
    simp only [load, List.getElem_map, List.getElem_range, List.getElem_take, List.getElem_drop]
    rw [Nat.add_assoc, store_apply_add m off bs (i + j) hb, List.getD_eq_getElem bs 0 hb]

/-- The whole of what was stored. -/
theorem load_store_self (m : Mem) (off : ℕ) (bs : List Byte) :
    load (store m off bs) off bs.length = bs := by
  simpa using load_store m off bs 0 bs.length (by omega)

theorem load_store_eq (m : Mem) (off n : ℕ) (bs : List Byte) (h : bs.length = n) :
    load (store m off bs) off n = bs := h ▸ load_store_self m off bs

/-- **A load beside a store** sees the old bytes. -/
theorem load_store_disjoint (m : Mem) (off : ℕ) (bs : List Byte) (off' n : ℕ)
    (h : off' + n ≤ off ∨ off + bs.length ≤ off') :
    load (store m off bs) off' n = load m off' n := by
  apply load_congr
  intro j hj
  rw [store, if_neg (by omega)]

/-! ### The last write -/

/-- The byte that a write of the bytes `w.2` at `w.1` leaves at an address. -/
def byteWritten (a : ℕ) (w : ℕ × List Byte) : Option Byte :=
  if w.1 ≤ a ∧ a < w.1 + w.2.length then some (w.2.getD (a - w.1) 0) else none

/-- The memory of which each byte is the last one written there, or that of `m` where none was. -/
def lastBytes (m : Mem) (ws : List (ℕ × List Byte)) : Mem :=
  fun a => (ws.filterMap (byteWritten a)).getLast?.getD (m a)

/-- One more write covers what was there before. -/
theorem lastBytes_snoc (m : Mem) (ws : List (ℕ × List Byte)) (w : ℕ × List Byte) :
    lastBytes m (ws ++ [w]) = store (lastBytes m ws) w.1 w.2 := by
  funext a
  rw [lastBytes, List.filterMap_append, store]
  by_cases hin : w.1 ≤ a ∧ a < w.1 + w.2.length
  · have hlast : [w].filterMap (byteWritten a) = [w.2.getD (a - w.1) 0] := by
      simp [byteWritten, hin]
    rw [hlast, List.getLast?_concat, if_pos hin]
    rfl
  · have hnone : [w].filterMap (byteWritten a) = [] := by
      simp [byteWritten, hin]
    rw [hnone, List.append_nil, if_neg hin]
    rfl

/-- **Copies one after the other** leave the last byte written at each address. -/
theorem foldl_store (m : Mem) (ws : List (ℕ × List Byte)) :
    ws.foldl (fun m w => store m w.1 w.2) m = lastBytes m ws := by
  induction ws using List.reverseRecOn with
  | nil => rfl
  | append_singleton ws w ih =>
    rw [List.foldl_append, List.foldl_cons, List.foldl_nil, ih, lastBytes_snoc]

end VPcie.Lib
