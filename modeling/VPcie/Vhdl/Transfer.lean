import VPcie.Lib.Runs
import VPcie.Vhdl.Dma

/-!
# A transfer of the VHDL engine

From `write_start` the engine alternates between `write_one` and `write_next` until the offset is
the size.  In `write_one` it puts the pointer on `mwr_addr`, but the pointer as it was before the
edge: the first write goes where the counter of the previous transfer points, and each later one a
block behind the counter.

* `edge_consistent` — between edges the next state and the enables are those of the state;
* `transfer_writes` — the addresses of a transfer, one more than it has blocks, and its status;
* `transfer_not_exact` — so no transfer writes exactly its blocks.
-/

namespace VPcie.Vhdl

open VPcie.Lib

/-! ### What holds between edges -/

/-- The enables and the next state are those of the state, whatever was executed when. -/
structure Dma.Consistent (d : Dma) : Prop where
  counterClr : d.out.counterClr = decide (d.state = .writeStart)
  counterEn : d.out.counterEn = decide (d.state = .writeNext)
  ctlClrEn : d.out.ctlClrEn = decide (d.state = .writeStart)
  staSetEn : d.out.staSetEn = decide (d.state = .writeStart ∨ d.state = .writeDone)
  mwrEn : d.out.mwrEn = decide (d.state = .writeOne)
  reqAck : d.out.reqAck = decide (d.state = .writeDone)
  next : d.nextState = nextStateLogic d.state d.ctl.regData d.off d.out.size

/-- The state a reset leaves, with `'0'` for what it does not assign. -/
def Dma.reset : Dma where
  state := .idle
  nextState := .idle
  counter := 0
  out := ⟨0, 0, false, false, false, false, 0, false, false, 0, 0, false, false⟩
  ctl := ⟨0, 0⟩
  sta := ⟨0, false, 0, 0⟩
  adl := ⟨0, 0⟩
  adh := ⟨0, 0⟩
  baz := ⟨0, 0⟩

theorem reset_consistent : Dma.reset.Consistent := by
  constructor <;> decide

/-- Which state may follow which. -/
inductive DmaState.Follows : DmaState → DmaState → Prop where
  | stays : Follows .idle .idle
  | starts : Follows .idle .writeStart
  | started : Follows .writeStart .writeOne
  | written : Follows .writeOne .writeNext
  | goesOn : Follows .writeNext .writeOne
  | ends : Follows .writeNext .writeDone
  | done : Follows .writeDone .idle

/-- **Step lemma** of the automaton. -/
theorem nextStateLogic_follows (state : DmaState) (ctlData : BitVec 64) (off size : BitVec 16) :
    state.Follows (nextStateLogic state ctlData off size) := by
  cases state with
  | idle =>
    rw [nextStateLogic]
    split
    · exact .starts
    · exact .stays
  | writeNext =>
    rw [nextStateLogic]
    split
    · exact .ends
    · exact .goesOn
  | writeStart => exact .started
  | writeOne => exact .written
  | writeDone => exact .done

section Edge

variable {d : Dma}

theorem Dma.Consistent.follows (h : d.Consistent) : d.state.Follows d.nextState :=
  h.next ▸ nextStateLogic_follows ..

/-- Only the idle state can stay. -/
theorem Dma.Consistent.stays (h : d.Consistent) (heq : d.state = d.nextState) :
    d.state = .idle := by
  have hfollows := h.follows
  rw [← heq] at hfollows
  generalize d.state = state at hfollows
  cases hfollows
  rfl

/-- `write_start` is entered from idle only. -/
theorem Dma.Consistent.idle_of_start (h : d.Consistent) (hnext : d.nextState = .writeStart) :
    d.state = .idle := by
  have hfollows := h.follows
  rw [hnext] at hfollows
  generalize d.state = state at hfollows
  cases hfollows
  rfl

theorem Dma.edge_state (d : Dma) (req : Req) : (d.edge req).state = d.nextState := rfl

theorem Dma.edge_counter (h : d.Consistent) (req : Req) : (d.edge req).counter
    = if d.state = .writeStart then 0
      else if d.state = .writeNext then d.counter + 1 else d.counter := by
  show counterClock d.counter d.out.counterClr d.out.counterEn = _
  rw [h.counterClr, h.counterEn, counterClock]
  simp only [decide_eq_true_eq]

/-- Where the state changes the output logic is executed. -/
theorem Dma.edge_out (d : Dma) (req : Req) (hne : d.state ≠ d.nextState) : (d.edge req).out
    = d.out.output d.nextState (d.edge req).ctl.regData (d.edge req).adh.regData
      (d.edge req).adl.regData d.off d.ptr := if_pos hne

theorem Dma.edge_out_stays (d : Dma) (req : Req) (heq : d.state = d.nextState) :
    (d.edge req).out = d.out := by
  show onEvent d.state d.nextState _ d.out = d.out
  rw [heq, onEvent_self]

theorem Dma.edge_next (d : Dma) (req : Req) (hne : d.state ≠ d.nextState) :
    (d.edge req).nextState
      = nextStateLogic d.nextState (d.edge req).ctl.regData d.off d.out.size := by
  show onEvent (d.state, d.ctl.regData) (d.nextState, (d.edge req).ctl.regData) _ _ = _
  refine if_pos ?_
  intro heq
  exact hne (congrArg Prod.fst heq)

/-- The output logic sets the enables of its state. -/
theorem Moore.output_flags (m : Moore) (state : DmaState) (ctlData adhData adlData : BitVec 64)
    (off : BitVec 16) (ptr : BitVec 64) :
    let out := m.output state ctlData adhData adlData off ptr
    out.counterClr = decide (state = .writeStart) ∧ out.counterEn = decide (state = .writeNext) ∧
      out.ctlClrEn = decide (state = .writeStart) ∧
      out.staSetEn = decide (state = .writeStart ∨ state = .writeDone) ∧
      out.mwrEn = decide (state = .writeOne) ∧ out.reqAck = decide (state = .writeDone) := by
  cases state <;> exact ⟨rfl, rfl, rfl, rfl, rfl, rfl⟩

/-- The size is captured in `write_start` only. -/
theorem Moore.output_size (m : Moore) {state : DmaState} (hne : state ≠ .writeStart)
    (ctlData adhData adlData : BitVec 64) (off : BitVec 16) (ptr : BitVec 64) :
    (m.output state ctlData adhData adlData off ptr).size = m.size ∧
      (m.output state ctlData adhData adlData off ptr).addr = m.addr := by
  cases state with
  | writeStart => exact absurd rfl hne
  | _ => exact ⟨rfl, rfl⟩

/-- `write_next` is entered from `write_one` only. -/
theorem nextStateLogic_writeNext {state : DmaState} {ctlData : BitVec 64} {off size : BitVec 16}
    (h : nextStateLogic state ctlData off size = .writeNext) : state = .writeOne := by
  have hfollows := nextStateLogic_follows state ctlData off size
  rw [h] at hfollows
  cases hfollows
  rfl

/-- Outside `write_next` the offset and the size do not matter. -/
theorem nextStateLogic_congr {state : DmaState} (hne : state ≠ .writeNext) (ctlData : BitVec 64)
    (off size off' size' : BitVec 16) :
    nextStateLogic state ctlData off size = nextStateLogic state ctlData off' size' := by
  cases state with
  | writeNext => exact absurd rfl hne
  | _ => rfl

/-- **Step lemma.**  Every edge leaves the enables and the next state of the new state. -/
theorem edge_consistent (h : d.Consistent) (req : Req) : (d.edge req).Consistent := by
  by_cases heq : d.state = d.nextState
  · -- the engine stays idle, where only the next state can change
    have hidle := h.stays heq
    have hout := d.edge_out_stays req heq
    have hstate : (d.edge req).state = .idle := heq.symm.trans hidle
    refine ⟨?_, ?_, ?_, ?_, ?_, ?_, ?_⟩
    · rw [hout, hstate, h.counterClr, hidle]
    · rw [hout, hstate, h.counterEn, hidle]
    · rw [hout, hstate, h.ctlClrEn, hidle]
    · rw [hout, hstate, h.staSetEn, hidle]
    · rw [hout, hstate, h.mwrEn, hidle]
    · rw [hout, hstate, h.reqAck, hidle]
    · have hnext : d.nextState = nextStateLogic .idle d.ctl.regData d.off d.out.size := by
        rw [h.next, hidle]
      show onEvent (d.state, d.ctl.regData) (d.nextState, (d.edge req).ctl.regData) _ _ = _
      rw [hstate, ← heq, hidle]
      by_cases hctl : d.ctl.regData = (d.edge req).ctl.regData
      · rw [← hctl, onEvent_self]
        exact (hidle.symm.trans (heq.trans hnext)).trans
          (nextStateLogic_congr (by decide) _ _ _ _ _)
      · rw [onEvent, if_pos fun hpair => hctl (congrArg Prod.snd hpair)]
        exact nextStateLogic_congr (by decide) _ _ _ _ _
  · obtain ⟨h1, h2, h3, h4, h5, h6⟩ := d.out.output_flags d.nextState (d.edge req).ctl.regData
      (d.edge req).adh.regData (d.edge req).adl.regData d.off d.ptr
    have hout := d.edge_out req heq
    rw [← hout] at h1 h2 h3 h4 h5 h6
    refine ⟨h1, h2, h3, h4, h5, h6, ?_⟩
    rw [d.edge_next req heq]
    by_cases hnext : d.nextState = .writeNext
    · -- the comparison reads the old offset, which this edge does not change
      have hone := nextStateLogic_writeNext (h.next.symm.trans hnext)
      have hcounter : (d.edge req).counter = d.counter := by
        rw [Dma.edge_counter h, hone, if_neg (by decide), if_neg (by decide)]
      have hsize : (d.edge req).out.size = d.out.size := by
        rw [hout]
        exact (d.out.output_size (by rw [hnext]; decide) _ _ _ _ _).1
      rw [Dma.edge_state, Dma.off, Dma.off, hcounter, hsize]
    · exact nextStateLogic_congr hnext _ _ _ _ _

/-! ### One state after the other -/

/-- What the engine keeps of the transfer under way. -/
structure Dma.Runs (d : Dma) (state : DmaState) (size : BitVec 16) (addr : BitVec 64)
    (counter : BitVec 16) : Prop where
  consistent : d.Consistent
  state : d.state = state
  size : d.out.size = size
  addr : d.out.addr = addr
  counter : d.counter = counter

section Steps

variable {d : Dma} {size : BitVec 16} {addr : BitVec 64} {counter : BitVec 16}

/-- An edge into a state that captures nothing. -/
theorem Dma.Runs.edge {state state' : DmaState} (h : d.Runs state size addr counter)
    (hne : state ≠ state') (hstart : state' ≠ .writeStart)
    (hnext : ∀ ctlData, nextStateLogic state ctlData (mulPow2 counter) size = state') (req : Req) :
    (d.edge req).Runs state' size addr (if state = .writeStart then 0
      else if state = .writeNext then counter + 1 else counter) ∧
      (d.edge req).out = d.out.output state' (d.edge req).ctl.regData (d.edge req).adh.regData
        (d.edge req).adl.regData (mulPow2 counter) (dmaPtr (addr, mulPow2 counter)) := by
  have hoff : d.off = mulPow2 counter := by rw [Dma.off, h.counter]
  have hptr : d.ptr = dmaPtr (addr, mulPow2 counter) := by rw [Dma.ptr, h.addr, hoff]
  have hnext' : d.nextState = state' := by
    rw [h.consistent.next, h.state, hoff, h.size]
    exact hnext _
  have hout := d.edge_out req (by rw [h.state, hnext']; exact hne)
  rw [hnext', hoff, hptr] at hout
  have hkeep := d.out.output_size hstart (d.edge req).ctl.regData (d.edge req).adh.regData
    (d.edge req).adl.regData (mulPow2 counter) (dmaPtr (addr, mulPow2 counter))
  rw [← hout, h.size, h.addr] at hkeep
  refine ⟨⟨edge_consistent h.consistent req, hnext', hkeep.1, hkeep.2, ?_⟩, hout⟩
  rw [Dma.edge_counter h.consistent, h.state, h.counter]

/-- The first block: its address is read before the counter is cleared. -/
theorem Dma.Runs.start (h : d.Runs .writeStart size addr counter) (req : Req) :
    (d.edge req).Runs .writeOne size addr 0 ∧
      (d.edge req).out.mwrAddr = dmaPtr (addr, mulPow2 counter) := by
  obtain ⟨hrun, hout⟩ := h.edge (by decide) (by decide) (fun _ => rfl) req
  exact ⟨hrun, congrArg Moore.mwrAddr hout⟩

theorem Dma.Runs.one (h : d.Runs .writeOne size addr counter) (req : Req) :
    (d.edge req).Runs .writeNext size addr counter :=
  (h.edge (by decide) (by decide) (fun _ => rfl) req).1

/-- A further block: its address is read before the counter is incremented. -/
theorem Dma.Runs.next (h : d.Runs .writeNext size addr counter) (hne : mulPow2 counter ≠ size)
    (req : Req) : (d.edge req).Runs .writeOne size addr (counter + 1) ∧
      (d.edge req).out.mwrAddr = dmaPtr (addr, mulPow2 counter) := by
  obtain ⟨hrun, hout⟩ := h.edge (by decide) (by decide) (fun _ => if_neg hne) req
  exact ⟨hrun, congrArg Moore.mwrAddr hout⟩

/-- The end: the status is built from the offset before the counter is incremented. -/
theorem Dma.Runs.done (h : d.Runs .writeNext size addr counter) (heq : mulPow2 counter = size)
    (req : Req) : (d.edge req).Runs .writeDone size addr (counter + 1) ∧
      (d.edge req).out.staSetData = setLow d.out.staSetData (0x8000#16 ++ size) := by
  obtain ⟨hrun, hout⟩ := h.edge (by decide) (by decide) (fun _ => if_pos heq) req
  rw [heq] at hout
  exact ⟨hrun, congrArg Moore.staSetData hout⟩

/-- The status register takes what the engine built. -/
theorem Dma.Runs.stored (h : d.Runs .writeDone size addr counter) (req : Req) :
    (d.edge req).sta.data = d.out.staSetData := by
  show (d.sta.clock d.out.staSetEn d.out.staSetData (req.reads 0x04)).data = d.out.staSetData
  rw [RegRo.clock, h.consistent.staSetEn, h.state]
  rfl

end Steps

end Edge

/-! ### A whole transfer -/

/-- The engine after `n` edges from a reset, with these requests on the ports. -/
def afterReset (reqs : ℕ → Req) (n : ℕ) : Dma := drive Dma.edge Dma.reset reqs n

theorem afterReset_succ (reqs : ℕ → Req) (n : ℕ) :
    afterReset reqs (n + 1) = (afterReset reqs n).edge (reqs n) := rfl

theorem afterReset_consistent (reqs : ℕ → Req) (n : ℕ) : (afterReset reqs n).Consistent :=
  drive_invariant Dma.Consistent (fun _ a h => edge_consistent h a) reset_consistent reqs n

/-- The addresses written in the cycles from `n` up to `m`. -/
def mwrAddrs (st : ℕ → Dma) (n m : ℕ) : List (BitVec 64) :=
  ((List.range' n (m - n)).filter fun k => (st k).out.mwrEn).map fun k => (st k).out.mwrAddr

/-- The transfer that starts in cycle `n` is done in cycle `m`. -/
def DoneAt (st : ℕ → Dma) (n m : ℕ) : Prop :=
  n < m ∧ (st m).state = .writeDone ∧ ∀ k, n < k → k < m → (st k).state ≠ .writeDone

/-- What the transfer of `N` bytes to `A` that starts in cycle `n` and is done in cycle `m` is for:
each block is written once, and the status says so. -/
def TransferExact (st : ℕ → Dma) (n m : ℕ) : Prop :=
  mwrAddrs st n m = (List.range ((st n).out.size.toNat / dmaBlockSize)).map
      (fun k => (st n).out.addr + BitVec.ofNat 64 (dmaBlockSize * k)) ∧
    (st (m + 1)).sta.data.setWidth 32 = 0x80000000 ||| (st n).out.size.setWidth 32

section Whole

variable {st : ℕ → Dma} {n m : ℕ}

theorem mwrAddrs_self (st : ℕ → Dma) (n : ℕ) : mwrAddrs st n n = [] := by
  rw [mwrAddrs, Nat.sub_self]
  rfl

/-- One more cycle writes its address if the enable is up. -/
theorem mwrAddrs_succ (st : ℕ → Dma) (h : n ≤ m) : mwrAddrs st n (m + 1)
    = mwrAddrs st n m ++ if (st m).out.mwrEn then [(st m).out.mwrAddr] else [] := by
  have hlast : n + 1 * (m - n) = m := by omega
  rw [mwrAddrs, Nat.succ_sub h, List.range'_concat, hlast, List.filter_append, List.map_append,
    ← mwrAddrs]
  by_cases hen : (st m).out.mwrEn = true
  · rw [if_pos hen, List.filter_singleton, hen]
    rfl
  · rw [if_neg hen, List.filter_singleton, Bool.eq_false_iff.mpr hen]
    rfl

/-- A transfer is done once. -/
theorem DoneAt.unique {m' : ℕ} (h : DoneAt st n m) (h' : DoneAt st n m') : m = m' := by
  obtain ⟨hlt, hdone, hbefore⟩ := h
  obtain ⟨hlt', hdone', hbefore'⟩ := h'
  rcases Nat.lt_trichotomy m m' with hm | hm | hm
  · exact absurd hdone (hbefore' m hlt hm)
  · exact hm
  · exact absurd hdone' (hbefore m' hlt' hm)

/-- The address of the `k`-th write: the pointer a block behind, and at first whatever it was. -/
def writtenAddr (addr stale : BitVec 64) : ℕ → BitVec 64
  | 0 => stale
  | k + 1 => addr + BitVec.ofNat 64 (dmaBlockSize * k)

theorem mulPow2_toNat {k : ℕ} (h : k < 512) :
    (mulPow2 (BitVec.ofNat 16 k)).toNat = dmaBlockSize * k := by
  show (BitVec.ofNat 16 k <<< 7).toNat = 128 * k
  rw [BitVec.toNat_shiftLeft, BitVec.toNat_ofNat, Nat.shiftLeft_eq]
  omega

theorem dmaPtr_block (addr : BitVec 64) {k : ℕ} (h : k < 512) :
    dmaPtr (addr, mulPow2 (BitVec.ofNat 16 k)) = addr + BitVec.ofNat 64 (dmaBlockSize * k) := by
  show addr + (mulPow2 (BitVec.ofNat 16 k)).setWidth 64 = _
  congr 1
  apply BitVec.eq_of_toNat_eq
  rw [BitVec.toNat_setWidth, mulPow2_toNat h, BitVec.toNat_ofNat]

/-- The status word of a finished transfer. -/
theorem setLow_done (d : BitVec 64) (size : BitVec 16) :
    (setLow d (0x8000#16 ++ size)).setWidth 32 = 0x80000000#32 ||| size.setWidth 32 := by
  have hlow : (setLow d (0x8000#16 ++ size)).setWidth 32 = 0x8000#16 ++ size :=
    BitVec.setWidth_append_eq_right
  have hlt := size.isLt
  rw [hlow]
  apply BitVec.eq_of_toNat_eq
  rw [BitVec.toNat_append, BitVec.toNat_or, BitVec.toNat_setWidth, Nat.mod_eq_of_lt (by omega)]
  rfl

section Loop

variable {reqs : ℕ → Req} {size : BitVec 16} {addr : BitVec 64} {counter : BitVec 16} {M : ℕ}

theorem blocks_lt (hsize : size.toNat = dmaBlockSize * M) : M < 512 := by
  have hlt := size.isLt
  rw [hsize, dmaBlockSize] at hlt
  omega

/-- The offset is the size in the last round only. -/
theorem off_eq_size (hsize : size.toNat = dmaBlockSize * M) {k : ℕ} (hk : k ≤ M) :
    mulPow2 (BitVec.ofNat 16 k) = size ↔ k = M := by
  have hlt := blocks_lt hsize
  rw [← BitVec.toNat_inj, mulPow2_toNat (by omega), hsize]
  exact Nat.mul_right_inj (by decide)

/-- **The loop invariant.**  In the `k`-th round `write_one` has the counter at `k` and the pointer
of the round before. -/
theorem round_one (h : (afterReset reqs n).Runs .writeStart size addr counter)
    (hsize : size.toNat = dmaBlockSize * M) (k : ℕ) (hk : k ≤ M) :
    (afterReset reqs (n + 1 + 2 * k)).Runs .writeOne size addr (BitVec.ofNat 16 k) ∧
      (afterReset reqs (n + 1 + 2 * k)).out.mwrAddr
        = writtenAddr addr (dmaPtr (addr, mulPow2 counter)) k := by
  induction k with
  | zero => exact h.start (reqs n)
  | succ k ih =>
    obtain ⟨hone, -⟩ := ih (Nat.le_of_succ_le hk)
    have hnext := hone.one (reqs (n + 1 + 2 * k))
    rw [← afterReset_succ] at hnext
    have hne : mulPow2 (BitVec.ofNat 16 k) ≠ size := by
      intro heq
      exact absurd ((off_eq_size hsize (Nat.le_of_succ_le hk)).mp heq) (Nat.ne_of_lt hk)
    obtain ⟨hrun, haddr⟩ := hnext.next hne (reqs (n + 1 + 2 * k + 1))
    rw [dmaPtr_block addr (Nat.lt_trans hk (blocks_lt hsize))] at haddr
    have hcounter : BitVec.ofNat 16 k + 1 = BitVec.ofNat 16 (k + 1) := (BitVec.ofNat_add k 1).symm
    rw [hcounter] at hrun
    exact ⟨hrun, haddr⟩

/-- Each round goes on to `write_next`. -/
theorem round_next (h : (afterReset reqs n).Runs .writeStart size addr counter)
    (hsize : size.toNat = dmaBlockSize * M) (k : ℕ) (hk : k ≤ M) :
    (afterReset reqs (n + 1 + 2 * k + 1)).Runs .writeNext size addr (BitVec.ofNat 16 k) := by
  rw [afterReset_succ]
  exact (round_one h hsize k hk).1.one _

/-- What the rounds before the `k`-th have written. -/
theorem rounds_writes (h : (afterReset reqs n).Runs .writeStart size addr counter)
    (hsize : size.toNat = dmaBlockSize * M) (k : ℕ) (hk : k ≤ M + 1) :
    mwrAddrs (afterReset reqs) n (n + 1 + 2 * k)
      = (List.range k).map (writtenAddr addr (dmaPtr (addr, mulPow2 counter))) := by
  induction k with
  | zero =>
    show mwrAddrs (afterReset reqs) n (n + 1) = []
    rw [mwrAddrs_succ _ n.le_refl, mwrAddrs_self, h.consistent.mwrEn, h.state]
    rfl
  | succ k ih =>
    have hkM := Nat.le_of_succ_le_succ hk
    obtain ⟨hone, haddr⟩ := round_one h hsize k hkM
    have hnext := round_next h hsize k hkM
    have hidx : n + 1 + 2 * (k + 1) = n + 1 + 2 * k + 1 + 1 := by omega
    rw [hidx, mwrAddrs_succ _ (by omega), mwrAddrs_succ _ (by omega), ih (by omega),
      hone.consistent.mwrEn, hone.state, hnext.consistent.mwrEn, hnext.state, haddr,
      List.range_succ, List.map_append]
    exact List.append_nil _

/-- The transfer is done, with its status, once the counter has reached the size: a round late. -/
theorem rounds_done (h : (afterReset reqs n).Runs .writeStart size addr counter)
    (hsize : size.toNat = dmaBlockSize * M) :
    DoneAt (afterReset reqs) n (n + 1 + 2 * (M + 1)) ∧
      (afterReset reqs (n + 1 + 2 * (M + 1) + 1)).sta.data.setWidth 32
        = 0x80000000 ||| size.setWidth 32 := by
  have hnext := round_next h hsize M M.le_refl
  have hoff := (off_eq_size hsize M.le_refl).mpr rfl
  obtain ⟨hdone, hsta⟩ := hnext.done hoff (reqs (n + 1 + 2 * M + 1))
  rw [← afterReset_succ] at hdone hsta
  have hstored := hdone.stored (reqs (n + 1 + 2 * (M + 1)))
  rw [hsta] at hstored
  refine ⟨⟨by omega, hdone.state, ?_⟩, ?_⟩
  · -- every cycle in between belongs to a round
    intro i hi him
    obtain ⟨k, hk⟩ : ∃ k, i = n + 1 + 2 * k ∨ i = n + 1 + 2 * k + 1 :=
      ⟨(i - (n + 1)) / 2, by omega⟩
    have hkM : k ≤ M := by omega
    rcases hk with rfl | rfl
    · rw [(round_one h hsize k hkM).1.state]
      decide
    · rw [(round_next h hsize k hkM).state]
      decide
  · show ((afterReset reqs (n + 1 + 2 * M + 1 + 1)).edge _).sta.data.setWidth 32 = _
    rw [hstored]
    exact setLow_done _ size

end Loop

/-- **What a transfer writes**: its blocks, after one write more, which goes where the counter of
the transfer before points.  The status is right. -/
theorem transfer_writes (reqs : ℕ → Req) (hstart : (afterReset reqs n).state = .writeStart)
    (hsize : dmaBlockSize ∣ (afterReset reqs n).out.size.toNat) :
    ∃ m, DoneAt (afterReset reqs) n m ∧
      mwrAddrs (afterReset reqs) n m
        = ((afterReset reqs n).out.addr + (afterReset reqs n).off.setWidth 64) ::
          (List.range ((afterReset reqs n).out.size.toNat / dmaBlockSize)).map
            (fun k => (afterReset reqs n).out.addr + BitVec.ofNat 64 (dmaBlockSize * k)) ∧
      (afterReset reqs (m + 1)).sta.data.setWidth 32
        = 0x80000000 ||| (afterReset reqs n).out.size.setWidth 32 := by
  obtain ⟨M, hM⟩ := hsize
  have h : (afterReset reqs n).Runs .writeStart (afterReset reqs n).out.size
      (afterReset reqs n).out.addr (afterReset reqs n).counter :=
    ⟨afterReset_consistent reqs n, hstart, rfl, rfl, rfl⟩
  obtain ⟨hdone, hsta⟩ := rounds_done h hM
  refine ⟨n + 1 + 2 * (M + 1), hdone, ?_, hsta⟩
  rw [rounds_writes h hM (M + 1) (Nat.le_refl _), hM, Nat.mul_div_cancel_left M (by decide),
    List.range_succ_eq_map, List.map_cons, List.map_map]
  rfl

/-- **No transfer writes exactly its blocks.** -/
theorem transfer_not_exact (reqs : ℕ → Req) (n : ℕ)
    (hstart : (afterReset reqs n).state = .writeStart)
    (hsize : dmaBlockSize ∣ (afterReset reqs n).out.size.toNat) :
    (∃ m, DoneAt (afterReset reqs) n m) ∧
      ∀ m, DoneAt (afterReset reqs) n m → ¬ TransferExact (afterReset reqs) n m := by
  obtain ⟨m, hdone, hwrites, -⟩ := transfer_writes reqs hstart hsize
  refine ⟨⟨m, hdone⟩, ?_⟩
  intro m' hdone' hexact
  rw [← hdone.unique hdone'] at hexact
  have hlength := congrArg List.length (hwrites.symm.trans hexact.1)
  simp at hlength

/-- A write of CTL, with 128 bytes to transfer, held for a cycle. -/
def ctlWriteOnce (k : ℕ) : Req :=
  if k = 0 then ⟨true, true, 1, 0x00, 0x80000080⟩ else ⟨false, false, 0, 0, 0⟩

theorem transfer_not_exact_ctlWriteOnce :
    (afterReset ctlWriteOnce 3).state = .writeStart ∧
      (∃ m, DoneAt (afterReset ctlWriteOnce) 3 m) ∧
      ∀ m, DoneAt (afterReset ctlWriteOnce) 3 m → ¬ TransferExact (afterReset ctlWriteOnce) 3 m :=
  ⟨by decide, transfer_not_exact ctlWriteOnce 3 (by decide) (by decide)⟩

/-- The only block of the first transfer after a reset is written twice. -/
theorem transfer_writes_twice :
    (afterReset ctlWriteOnce 3).state = .writeStart ∧
      (afterReset ctlWriteOnce 3).out.size = 128 ∧ DoneAt (afterReset ctlWriteOnce) 3 8 ∧
      mwrAddrs (afterReset ctlWriteOnce) 3 8 = [0, 0] ∧
      ¬ TransferExact (afterReset ctlWriteOnce) 3 8 := by
  refine ⟨by decide, by decide, ⟨by decide, by decide, ?_⟩, by decide, ?_⟩
  · intro k hk hk8
    obtain rfl | rfl | rfl | rfl : k = 4 ∨ k = 5 ∨ k = 6 ∨ k = 7 := by omega
    all_goals decide
  · intro h
    exact absurd h.1 (by decide)

end Whole

end VPcie.Vhdl
