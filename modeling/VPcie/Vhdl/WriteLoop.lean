import VPcie.Vhdl.Transfer

/-!
# Whether the write loop ends

The loop ends when the offset is the size.  The offset steps by a block of 128 bytes and wraps at
2 ^ 16, so it is always a multiple of the block.

* `loop_forever` — with a size that is not one the engine writes for ever;
* `done_iff` — so it is done exactly for the multiples of the block;
* `write_loop_never` — and then it has written one block more than the size has.
-/

namespace VPcie.Vhdl

open VPcie.Lib

/-- The blocks of a size, the last perhaps in part. -/
def blocksOf (size : BitVec 16) : ℕ := (size.toNat + (dmaBlockSize - 1)) / dmaBlockSize

/-- The loop of the transfer that starts in cycle `n` ends, with at most one write a block. -/
def LoopEnds (st : ℕ → Dma) (n : ℕ) : Prop :=
  ∃ m, DoneAt st n m ∧ (mwrAddrs st n m).length ≤ blocksOf (st n).out.size

/-- The offset is a multiple of the block, also after it has wrapped. -/
theorem dvd_mulPow2 (counter : BitVec 16) : dmaBlockSize ∣ (mulPow2 counter).toNat := by
  show 128 ∣ (counter <<< 7).toNat
  rw [BitVec.toNat_shiftLeft, Nat.shiftLeft_eq]
  have hwrap : 128 ∣ 2 ^ 16 := by decide
  exact (Nat.dvd_mod_iff hwrap).mpr (Nat.dvd_mul_left 128 counter.toNat)

section Forever

variable {reqs : ℕ → Req} {n : ℕ} {size : BitVec 16} {addr : BitVec 64} {counter : BitVec 16}

/-- **The loop invariant** of a loop that never ends. -/
theorem loop_forever (h : (afterReset reqs n).Runs .writeStart size addr counter)
    (hsize : ¬dmaBlockSize ∣ size.toNat) (k : ℕ) :
    ∃ c, (afterReset reqs (n + 1 + 2 * k)).Runs .writeOne size addr c ∧
      (afterReset reqs (n + 1 + 2 * k + 1)).Runs .writeNext size addr c := by
  have hne : ∀ c, mulPow2 c ≠ size := by
    intro c heq
    exact hsize (heq ▸ dvd_mulPow2 c)
  induction k with
  | zero =>
    obtain ⟨hone, -⟩ := h.start (reqs n)
    rw [← afterReset_succ] at hone
    have hnext := hone.one (reqs (n + 1))
    exact ⟨0, hone, hnext⟩
  | succ k ih =>
    obtain ⟨c, -, hnext⟩ := ih
    obtain ⟨hone, -⟩ := hnext.next (hne c) (reqs (n + 1 + 2 * k + 1))
    rw [← afterReset_succ] at hone
    have hnext' := hone.one (reqs (n + 1 + 2 * k + 1 + 1))
    exact ⟨c + 1, hone, hnext'⟩

/-- No cycle after the start is the end. -/
theorem not_done (h : (afterReset reqs n).Runs .writeStart size addr counter)
    (hsize : ¬dmaBlockSize ∣ size.toNat) {m : ℕ} (hm : n < m) :
    (afterReset reqs m).state ≠ .writeDone := by
  obtain ⟨k, hk⟩ : ∃ k, m = n + 1 + 2 * k ∨ m = n + 1 + 2 * k + 1 :=
    ⟨(m - (n + 1)) / 2, by omega⟩
  obtain ⟨c, hone, hnext⟩ := loop_forever h hsize k
  rcases hk with rfl | rfl
  · rw [hone.state]
    nofun
  · rw [hnext.state]
    nofun

end Forever

section Start

variable {reqs : ℕ → Req} {n : ℕ}

/-- What the engine keeps of a transfer that starts. -/
theorem runs_of_start (hstart : (afterReset reqs n).state = .writeStart) :
    (afterReset reqs n).Runs .writeStart (afterReset reqs n).out.size (afterReset reqs n).out.addr
      (afterReset reqs n).counter :=
  ⟨afterReset_consistent reqs n, hstart, rfl, rfl, rfl⟩

/-- **The loop ends exactly for the multiples of the block.** -/
theorem done_iff (hstart : (afterReset reqs n).state = .writeStart) :
    (∃ m, DoneAt (afterReset reqs) n m) ↔ dmaBlockSize ∣ (afterReset reqs n).out.size.toNat := by
  constructor
  · rintro ⟨m, hm, hdone, -⟩
    by_contra hsize
    exact not_done (runs_of_start hstart) hsize hm hdone
  · intro hsize
    obtain ⟨m, hdone, -, -⟩ := transfer_writes reqs hstart hsize
    exact ⟨m, hdone⟩

/-- One write more than there are blocks. -/
theorem writes_length (hstart : (afterReset reqs n).state = .writeStart)
    (hsize : dmaBlockSize ∣ (afterReset reqs n).out.size.toNat) {m : ℕ}
    (hdone : DoneAt (afterReset reqs) n m) : (mwrAddrs (afterReset reqs) n m).length
      = (afterReset reqs n).out.size.toNat / dmaBlockSize + 1 := by
  obtain ⟨m', hdone', hwrites, -⟩ := transfer_writes reqs hstart hsize
  rw [hdone.unique hdone', hwrites]
  simp

/-- **The loop never does what it is for**, whatever the size: it does not end, or it has written
one block too many. -/
theorem write_loop_never (hstart : (afterReset reqs n).state = .writeStart) :
    ¬LoopEnds (afterReset reqs) n := by
  rintro ⟨m, hdone, hlength⟩
  have hsize := (done_iff hstart).mp ⟨m, hdone⟩
  obtain ⟨M, hM⟩ := hsize
  have hblocks : dmaBlockSize * M / dmaBlockSize = M := Nat.mul_div_cancel_left M (by decide)
  have hceil : (dmaBlockSize * M + (dmaBlockSize - 1)) / dmaBlockSize = M := by
    rw [dmaBlockSize]
    omega
  rw [writes_length hstart ⟨M, hM⟩ hdone, blocksOf, hM, hblocks, hceil] at hlength
  exact absurd hlength (Nat.not_succ_le_self M)

end Start

/-- A write of CTL, with 100 bytes to transfer, held for a cycle. -/
def ctlWriteOdd (k : ℕ) : Req :=
  if k = 0 then ⟨true, true, 1, 0x00, 0x80000064⟩ else ⟨false, false, 0, 0, 0⟩

theorem write_loop_never_ctlWriteOdd : ¬LoopEnds (afterReset ctlWriteOdd) 3 :=
  write_loop_never (by decide)

/-- This transfer is under way for ever. -/
theorem ctlWriteOdd_forever : ¬∀ (reqs : ℕ → Req) (n : ℕ),
    (afterReset reqs n).state = .writeStart → LoopEnds (afterReset reqs) n := by
  intro h
  obtain ⟨m, ⟨hm, hdone, -⟩, -⟩ := h ctlWriteOdd 3 (by decide)
  exact not_done (runs_of_start (by decide)) (by decide) hm hdone

end VPcie.Vhdl
