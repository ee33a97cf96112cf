import VPcie.Ebone.Dma

/-!
# The steps of a transfer

A descriptor moves words of 64 bits from the memory of the second E-bone, in bursts of the payload
size; the last burst may be shorter.

* `Descriptor`, `Descriptor.Loaded` — the descriptor, in the registers;
* `Ft.Runs`, `FtRegs.Holds` — it runs, with the counters at some word;
* `Dma.Sound`, `Dma.Free` — the memory and its slave, and a controller that asks for no bus.
-/

namespace VPcie.Ebone

/-! ### Descriptors -/

/-- A descriptor; `src`, `count` and `payload` are in words of 64 bits.  The second E-bone has no
address bits for a word within a group of four. -/
structure Descriptor where
  src : ℕ
  dst : BitVec 64
  count : ℕ
  payload : ℕ
  four_dvd_src : 4 ∣ src
  four_dvd_payload : 4 ∣ payload
  payload_pos : 0 < payload
  payload_lt : payload < 256
  count_pos : 0 < count
  inside : src + count ≤ 512

namespace Descriptor

variable (D : Descriptor)

/-- The control word, with the bit that starts the descriptor. -/
def control (go : Bool) : BitVec 32 := BitVec.ofBool go ++ (0 : BitVec 7) ++ BitVec.ofNat 24 D.count

/-- The registers hold the descriptor as number 0, and nobody aborts number 1. -/
structure Loaded (go : Bool) (regs : ℕ → BitVec 32) : Prop where
  src : regs 0 = BitVec.ofNat 32 (0x20001000 + D.src)
  dstLow : regs 3 = D.dst.setWidth 32
  dstHigh : regs 4 = D.dst.extractLsb' 32 32
  control : regs 5 = D.control go
  abrt1 : (regs 11).getLsbD 29 = false
  payload : (regs 12).extractLsb' 3 8 = BitVec.ofNat 8 D.payload

theorem count_le : D.count ≤ 512 := by
  have h := D.inside
  omega

theorem control_getLsbD (go : Bool) {b : ℕ} (hlow : 24 ≤ b) (hhigh : b < 31) :
    (D.control go).getLsbD b = false := by
  rw [control, BitVec.getLsbD_append, if_neg (by omega), BitVec.getLsbD_append, if_pos (by omega)]
  exact BitVec.getLsbD_zero

theorem control_go (go : Bool) : (D.control go).getLsbD 31 = go := by
  rw [control, BitVec.getLsbD_append, if_neg (by decide), BitVec.getLsbD_append, if_neg (by decide)]
  cases go <;> rfl

theorem control_count (go : Bool) : (D.control go).setWidth 24 = BitVec.ofNat 24 D.count := by
  apply BitVec.eq_of_getLsbD_eq
  intro b hb
  rw [BitVec.getLsbD_setWidth, control, BitVec.getLsbD_append, if_pos hb, decide_eq_true hb,
    Bool.true_and]

theorem goCleared_control (go : Bool) : goCleared true (D.control go) = D.control false := by
  apply BitVec.eq_of_getLsbD_eq
  intro b hb
  have hmask : (0x7fffffff : BitVec 32) = (0 : BitVec 1) ++ BitVec.allOnes 31 := by decide
  rw [goCleared, if_pos rfl, BitVec.getLsbD_and, hmask, BitVec.getLsbD_append]
  by_cases hlow : b < 24
  · have hword : ∀ go, (D.control go).getLsbD b = (BitVec.ofNat 24 D.count).getLsbD b := by
      intro go
      rw [control, BitVec.getLsbD_append, if_pos hlow]
    rw [hword, hword, if_pos (by omega), BitVec.getLsbD_allOnes, decide_eq_true (by omega),
      Bool.and_true]
  · by_cases hmid : b < 31
    · rw [D.control_getLsbD go (by omega) hmid, D.control_getLsbD false (by omega) hmid,
        Bool.false_and]
    · have hb : b = 31 := by omega
      rw [hb, control_go, control_go, if_neg (by decide)]
      exact Bool.and_false _

end Descriptor

/-! ### The registers -/

/-- The host leaves the registers and the memory alone. -/
structure DmaIn.Away (i : DmaIn) : Prop where
  lines : i.as = true → i.eof = false ∧ ebftRegs.selects i.dat = false
  wr : i.wr = none

/-- The registers hold the descriptor, and nobody addresses them. -/
structure FtRegs.Holds (D : Descriptor) (go rund done : Bool) (r : FtRegs ebftRegs) : Prop where
  state : r.state = .iddle
  loaded : D.Loaded go r.regs
  rund0 : r.dma0Rund = rund
  done0 : r.dma0Done = done
  rund1 : r.dma1Rund = false
  done1 : r.dma1Done = false

theorem ftStat_msb (run : Bool) (e : FtErrors) (sts : BitVec 24) :
    (ftStat run e sts).msb = run := by
  rw [ftStat, BitVec.msb_eq_getLsbD_last]
  simp only [BitVec.getLsbD_append]
  cases run <;> rfl

/-- **Step lemma.** -/
theorem FtRegs.Holds.clock {D : Descriptor} {go rund done : Bool} {s : Dma}
    (h : s.regs.Holds D go rund done) {i : DmaIn} (hi : i.Away) (hrun1 : s.ft.flags.run1 = false) :
    (s.clock i).regs.Holds D (go && !done) s.ft.flags.run0 (rund && !s.ft.flags.run0) := by
  have hlines : s.regs.ctl (s.coreIn i).linesTo.1 = { nextate := .iddle } := by
    simp only [FtRegs.ctl, h.state]
    cases hm0 : s.m0Brq with
    | true =>
      have hbus : (s.coreIn i).linesTo.1 = ⟨true, i.as, i.eof, i.dat⟩ := by
        simp [CoreIn.linesTo, CoreIn.busState, arbiter, Dma.coreIn, hm0]
      rw [hbus]
      cases has : i.as with
      | true =>
        obtain ⟨heof, hsel⟩ := hi.lines has
        simp [heof, hsel]
      | false => simp
    | false =>
      have hbus : (s.coreIn i).linesTo.1.bmx = false := by
        cases hft : s.ft.flags.ebft with
        | true => simp [CoreIn.linesTo, CoreIn.busState, arbiter, Dma.coreIn, hm0, hft]
        | false => simp [CoreIn.linesTo, CoreIn.busState, arbiter, Dma.coreIn, hm0, hft]
      simp [hbus]
  have hregs : ∀ a, (s.clock i).regs.regs a
      = if a = 5 then goCleared done (s.regs.regs a) else s.regs.regs a := by
    intro a
    show s.regs.store _ _ a = _
    rw [hlines, FtRegs.store, h.done0, h.done1]
    simp [goCleared]
  have hother : ∀ a, a ≠ 5 → (s.clock i).regs.regs a = s.regs.regs a := by
    intro a ha
    rw [hregs, if_neg ha]
  refine ⟨?_, ⟨?_, ?_, ?_, ?_, ?_, ?_⟩, ?_, ?_, ?_, ?_⟩
  · simp [Dma.clock, FtRegs.clock, hlines]
  · rw [hother 0 (by decide), h.loaded.src]
  · rw [hother 3 (by decide), h.loaded.dstLow]
  · rw [hother 4 (by decide), h.loaded.dstHigh]
  · rw [hregs 5, if_pos rfl, h.loaded.control]
    cases done with
    | true => rw [D.goCleared_control, Bool.not_true, Bool.and_false]
    | false => rw [Bool.not_false, Bool.and_true, goCleared, if_neg (by decide)]
  · rw [hother 11 (by decide), h.loaded.abrt1]
  · rw [hother 12 (by decide), h.loaded.payload]
  · exact ftStat_msb ..
  · show (false || s.regs.dma0Rund && !(ftStat _ _ _).msb) = _
    rw [ftStat_msb, h.rund0, Bool.false_or]
  · exact (ftStat_msb ..).trans hrun1
  · show (false || s.regs.dma1Rund && !(ftStat _ _ _).msb) = _
    rw [h.rund1]
    rfl

/-! ### The counters -/

/-- How near the end of the counter is; the difference wraps around where there are fewer words. -/
theorem near_end (k n c : ℕ) (hk : k < 2 ^ 23) (hn : n < 2 ^ 23) (hc : c < 2 ^ 23) :
    (!decide (BitVec.ofNat 24 c < BitVec.ofNat 24 n - BitVec.ofNat 24 k))
      = decide (k ≤ n ∧ n ≤ c + k) := by
  have hsub : (BitVec.ofNat 24 n - BitVec.ofNat 24 k).toNat = (2 ^ 24 - k + n) % 2 ^ 24 := by
    rw [BitVec.toNat_sub, BitVec.toNat_ofNat, BitVec.toNat_ofNat,
      Nat.mod_eq_of_lt (show k < 2 ^ 24 by omega), Nat.mod_eq_of_lt (show n < 2 ^ 24 by omega)]
  have hcnt : (BitVec.ofNat 24 c).toNat = c := by
    rw [BitVec.toNat_ofNat, Nat.mod_eq_of_lt (by omega)]
  rw [← decide_not, decide_eq_decide, BitVec.lt_def, hsub, hcnt]
  omega

/-- The descriptor runs, and `c` words are counted. -/
structure Ft.Runs (D : Descriptor) (c : ℕ) (t : Ft) : Prop where
  run0 : t.flags.run0 = true
  maseg : t.src.maseg = 2
  macnt : t.src.macnt = BitVec.ofNat 28 (0x1000 + D.src + c)
  dacnt : t.cnt.dacnt = BitVec.ofNat 24 c
  small : c ≤ D.count + 1

/-- The flags are those of `c` words. -/
structure Ft.Near (D : Descriptor) (c : ℕ) (t : Ft) : Prop where
  all : t.cnt.daendall = decide (D.count ≤ c)
  m1 : t.cnt.daendm1 = decide (D.count ≤ c + 1)
  m2 : t.cnt.daendm2 = decide (2 ≤ D.count ∧ D.count ≤ c + 2)
  m3 : t.cnt.daendm3 = decide (3 ≤ D.count ∧ D.count ≤ c + 3)

/-- What an edge does to the counters. -/
structure FtCtl.Counts (c : FtCtl) (e : Bool) : Prop where
  dmadone : c.dmadone = false
  mald : c.mald = false
  daclr : c.daclr = false
  daen : c.daen = e
  maen : c.maen = e
  errdone : c.errdone = false

/-- **Step lemma.**  The flags are one cycle late. -/
theorem Ft.Runs.clock {D : Descriptor} {c : ℕ} {s : Dma} (h : s.ft.Runs D c) {go : Bool}
    (hregs : D.Loaded go s.regs.regs) {i : DmaIn} {e : Bool} (hctl : (s.ftCtl i).Counts e)
    (hsmall : c + e.toNat ≤ D.count + 1) :
    (s.clock i).ft.Runs D (c + e.toNat) ∧ (s.clock i).ft.Near D c := by
  have hcount := D.count_le
  have hc := h.small
  have hpos := D.count_pos
  have hdactop : (s.ftIn i (s.answer i)).dactop s.ft.flags.run0 = BitVec.ofNat 24 D.count := by
    rw [h.run0]
    show (s.regs.regs 5).setWidth 24 = _
    rw [hregs.control, D.control_count]
  have hcnt : (s.clock i).ft.cnt = s.ft.cnt.clock (s.ftCtl i) (BitVec.ofNat 24 D.count) := by
    rw [← hdactop]
    rfl
  have hflags : (s.clock i).ft.flags = s.ft.flags.clock (s.ftIn i (s.answer i)) (s.ftCtl i) := rfl
  have hsrc : (s.clock i).ft.src
      = s.ft.src.clock (s.ftIn i (s.answer i)) (s.ftCtl i) s.ft.flags := rfl
  have hrst : (s.ftIn i (s.answer i)).rst = false := rfl
  refine ⟨⟨?_, ?_, ?_, ?_, hsmall⟩, ⟨?_, ?_, ?_, ?_⟩⟩
  · rw [hflags]
    simp [FtFlags.clock, hrst, h.run0, hctl.dmadone]
  · rw [hsrc]
    simp [FtSource.clock, hctl.mald, h.maseg]
  · rw [hsrc]
    cases e with
    | true =>
      simp [FtSource.clock, hctl.mald, hctl.maen, h.macnt, BitVec.ofNat_add, BitVec.add_assoc]
    | false => simp [FtSource.clock, hctl.mald, hctl.maen, h.macnt]
  · rw [hcnt]
    cases e with
    | true => simp [FtCount.clock, hctl.daclr, hctl.daen, h.dacnt, BitVec.ofNat_add]
    | false => simp [FtCount.clock, hctl.daclr, hctl.daen, h.dacnt]
  · rw [hcnt]
    show (!decide (s.ft.cnt.dacnt < BitVec.ofNat 24 D.count)) = _
    rw [h.dacnt, ← BitVec.sub_zero (BitVec.ofNat 24 D.count)]
    exact (near_end 0 D.count c (by omega) (by omega) (by omega)).trans
      (decide_eq_decide.mpr (by omega))
  · rw [hcnt]
    show (!decide (s.ft.cnt.dacnt < BitVec.ofNat 24 D.count - 1)) = _
    rw [h.dacnt]
    exact (near_end 1 D.count c (by omega) (by omega) (by omega)).trans
      (decide_eq_decide.mpr (by omega))
  · rw [hcnt]
    show (!decide (s.ft.cnt.dacnt < BitVec.ofNat 24 D.count - 2)) = _
    rw [h.dacnt]
    exact near_end 2 D.count c (by omega) (by omega) (by omega)
  · rw [hcnt]
    show (!decide (s.ft.cnt.dacnt < BitVec.ofNat 24 D.count - 3)) = _
    rw [h.dacnt]
    exact near_end 3 D.count c (by omega) (by omega) (by omega)

/-! ### What does not change -/

/-- No descriptor number 1, no fifo, no message interface. -/
structure Ft.Plain (t : Ft) : Prop where
  run1 : t.flags.run1 = false
  fifo : t.flags.fifo = false
  mif : t.flags.mif = false

theorem Ft.Plain.clock {D : Descriptor} {s : Dma} (h : s.ft.Plain) {go : Bool}
    (hregs : D.Loaded go s.regs.regs) {i : DmaIn} (hinit1 : (s.ftCtl i).init1 = false) :
    (s.clock i).ft.Plain := by
  have hflags : (s.clock i).ft.flags = s.ft.flags.clock (s.ftIn i (s.answer i)) (s.ftCtl i) := rfl
  have hbit : ∀ b, 24 ≤ b → b < 31 → (s.ftIn i (s.answer i)).ctl0 b = false := by
    intro b hlow hhigh
    show (s.regs.regs 5).getLsbD b = false
    rw [hregs.control, D.control_getLsbD go hlow hhigh]
  refine ⟨?_, ?_, ?_⟩
  · rw [hflags]
    simp [FtFlags.clock, hinit1, h.run1]
  · rw [hflags]
    simp [FtFlags.clock, hbit, hinit1, h.fifo]
  · rw [hflags]
    simp [FtFlags.clock, hbit, hinit1, h.mif]

/-- The memory holds `M`, is not empty, and its slave is within its window. -/
structure Dma.Sound (M : ℕ → BitVec 32) (s : Dma) : Prop where
  emti1 : s.bram.emti1 = false
  emti2 : s.bram.emti2 = false
  ovf : s.bram.ovfErr = false
  mem : s.mem.bramArray = M

theorem Dma.Sound.clock {M : ℕ → BitVec 32} {s : Dma} (h : s.Sound M) {i : DmaIn} (hi : i.Away)
    (hofst : (s.bram.ctl (s.lines2 i) false).ofen = false ∨ s.bram.ofst.msb = false) :
    (s.clock i).Sound M := by
  refine ⟨rfl, h.emti1, ?_, ?_⟩
  · show (!_ && (s.bram.ctl (s.lines2 i) false).ofen && s.bram.ofst.msb) = false
    rcases hofst with hen | hmsb
    · rw [hen, Bool.and_false, Bool.false_and]
    · rw [hmsb, Bool.and_false]
  · simp only [Dma.clock, DualPort.clock, hi.wr, h.mem]

/-- Nobody has asked for a bus. -/
structure Dma.Free (s : Dma) : Prop where
  ebft : s.ft.flags.ebft = false
  mx : s.mx.state = .iddle
  ebmx : s.mx.ebmx = false
  bram : s.bram.state = .iddle

end VPcie.Ebone
