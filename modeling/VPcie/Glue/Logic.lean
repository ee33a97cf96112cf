import VPcie.Net.Message

/-!
# Logic vectors

GHDL passes a vector as an array of bytes, one enumeration position for each element, the leftmost
(most significant) element first.  The glue converts between these and C integers, and builds from
them the messages the VHDL side sends.

* `logicToUint_uintToLogic` — reading a vector the glue wrote gives the integer back.
-/

namespace VPcie.Glue

open VPcie.Lib VPcie.Net

/-- `glue_levels`: the positions of `'0'` and `'1'` in `std_ulogic`. -/
def glueLevel (b : Bool) : Byte := if b then 3 else 2

/-- `uintN_to_logic`, from bit `k - 1` down. -/
def uintToLogicFrom {w : ℕ} (x : BitVec w) : ℕ → List Byte
  | 0 => []
  | k + 1 => glueLevel (x.getLsbD k) :: uintToLogicFrom x k

def uintToLogic {w : ℕ} (x : BitVec w) : List Byte := uintToLogicFrom x w

/-- The loop of `logic_to_uintN`, from bit `k - 1` down. -/
def logicToUintFrom (w : ℕ) : ℕ → Mem → BitVec w → BitVec w
  | 0, _, x => x
  | k + 1, buf, x =>
    logicToUintFrom w k (fun j => buf (j + 1))
      (if buf 0 = glueLevel true then x ||| BitVec.twoPow w k else x)

def logicToUint (w : ℕ) (buf : Mem) : BitVec w := logicToUintFrom w w buf 0

/-- `logic_to_buf`: byte `i` of the payload is the `i`-th group of eight from the right. -/
def logicToBuf (data : Mem) (dataSize size : ℕ) : List Byte :=
  (List.range size).map fun i => logicToUint 8 fun j => data ((dataSize - 1 - i) * 8 + j)

/-! ### Reading back -/

theorem uintToLogicFrom_getD {w : ℕ} (x : BitVec w) (k j : ℕ) (hj : j < k) :
    (uintToLogicFrom x k).getD j 0 = glueLevel (x.getLsbD (k - 1 - j)) := by
  induction k generalizing j with
  | zero => omega
  | succ k ih =>
    cases j with
    | zero => rfl
    | succ j =>
      rw [uintToLogicFrom, List.getD_cons_succ, ih j (by omega)]
      congr 2
      omega

/-- What the loop leaves: the bits below `k` come from the vector, the others stay. -/
theorem logicToUintFrom_bit (w k : ℕ) (hk : k ≤ w) (buf : Mem) (x : BitVec w)
    (hx : ∀ i < k, x.getLsbD i = false) (i : ℕ) :
    (logicToUintFrom w k buf x).getLsbD i
      = if i < k then decide (buf (k - 1 - i) = glueLevel true) else x.getLsbD i := by
  induction k generalizing buf x with
  | zero => rw [if_neg (by omega)]; rfl
  | succ k ih =>
    have hstep : ∀ i, (if buf 0 = glueLevel true then x ||| BitVec.twoPow w k else x).getLsbD i
        = if i = k then decide (buf 0 = glueLevel true) else x.getLsbD i := by
      intro i
      by_cases hbit : buf 0 = glueLevel true
      · rw [if_pos hbit, BitVec.getLsbD_or, BitVec.getLsbD_twoPow]
        by_cases hi : i = k
        · subst hi
          simp [hbit, show i < w by omega]
        · simp [hi, Ne.symm hi]
      · rw [if_neg hbit]
        by_cases hi : i = k
        · subst hi
          simp [hbit, hx i (by omega)]
        · simp [hi]
    rw [logicToUintFrom, ih (by omega) _ _ fun i hi => by
      rw [hstep, if_neg (by omega)]
      exact hx i (by omega)]
    by_cases hi : i < k
    · rw [if_pos hi, if_pos (by omega), show k - 1 - i + 1 = k + 1 - 1 - i by omega]
    · rw [if_neg hi, hstep]
      by_cases hik : i = k
      · rw [if_pos hik, if_pos (by omega), hik, show k + 1 - 1 - k = 0 by omega]
      · rw [if_neg hik, if_neg (by omega)]

theorem glueLevel_eq_true (b : Bool) : decide (glueLevel b = glueLevel true) = b := by
  cases b <;> decide

/-- **Reading a vector the glue wrote gives the integer back.** -/
theorem logicToUint_uintToLogic {w : ℕ} (x : BitVec w) :
    logicToUint w (fun j => (uintToLogic x).getD j 0) = x := by
  apply BitVec.eq_of_getLsbD_eq
  intro i hi
  rw [logicToUint, logicToUintFrom_bit w w le_rfl _ _ (by simp), if_pos hi, uintToLogic,
    uintToLogicFrom_getD x w _ (by omega), show w - 1 - (w - 1 - i) = i by omega,
    glueLevel_eq_true]

/-! ### The messages of the VHDL side -/

/-- A call that sends: its arguments as logic vectors. -/
inductive SendCall where
  | msi
  | writeBuf (addr buf dataSize : Mem)
  | write (addr data dataSize size : Mem)

/-- What `alloc_write_node` leaves unset in a node. -/
structure Junk where
  bar : Byte
  width : Byte
deriving DecidableEq, Repr

/-- `alloc_write_node`, with the data its caller fills in. -/
def allocWriteNode (junk : Junk) (op : Byte) (addr : BitVec 64) (data : List Byte) : Content :=
  ⟨op, junk.bar, junk.width, addr, data⟩

/-- The message `pcie_glue_send_msi`, `pcie_glue_send_write_buf` or `pcie_glue_send_write` puts in
the node it pushes. -/
def SendCall.msg (junk : Junk) : SendCall → Content
  | msi => allocWriteNode junk opMsi 0 (List.replicate 8 0)
  | writeBuf addr buf dataSize =>
    -- one element further for each byte, not eight
    allocWriteNode junk opWriteMem (logicToUint 64 addr)
      ((List.range (logicToUint 16 dataSize).toNat).map fun i =>
        logicToUint 8 fun j => buf (i + j))
  | write addr data dataSize _ =>
    -- both sizes are read from the `data_size` argument
    allocWriteNode junk opWriteMem (logicToUint 64 addr)
      (logicToBuf data (logicToUint 16 dataSize).toNat (logicToUint 16 dataSize).toNat)

end VPcie.Glue
