import VPcie.Ebone.DmaStages

/-!
# Where a transfer goes

One lemma for each state of the fast transmitter, up to the first word of a burst.

* `Dma.Goes` — an edge leads to a stage that fits what is collected;
* `Dma.Active.clock` — what an edge does while the descriptor runs.
-/

namespace VPcie.Ebone

/-- An edge leads to a stage that fits what is collected. -/
def Dma.Goes (D : Descriptor) (M : ℕ → BitVec 32) (q : Collected) (s : Dma) (i : DmaIn) : Prop :=
  ∃ k, k ≤ D.bursts ∧ ((s.events i).foldl Collected.next q).done = D.first M k ∧
    (s.clock i).Stage D M k ((s.events i).foldl Collected.next q).cur

section Step

variable {D : Descriptor} {M : ℕ → BitVec 32} {s : Dma} {i : DmaIn} {q : Collected} {k : ℕ}

/-! ### The registers, as the automaton reads them -/

theorem loaded_go {go : Bool} (h : D.Loaded go s.regs.regs) (ans : MxAnswer) :
    (s.ftIn i ans).ctl0 31 = go := by
  show (s.regs.regs 5).getLsbD 31 = go
  rw [h.control, D.control_go]

theorem loaded_zero {go : Bool} (h : D.Loaded go s.regs.regs) (ans : MxAnswer) {b : ℕ}
    (hlow : 24 ≤ b) (hhigh : b < 31) : (s.ftIn i ans).ctl0 b = false := by
  show (s.regs.regs 5).getLsbD b = false
  rw [h.control, D.control_getLsbD go hlow hhigh]

theorem loaded_abrt1 {go : Bool} (h : D.Loaded go s.regs.regs) (ans : MxAnswer) :
    (s.ftIn i ans).ctl1 29 = false := h.abrt1

/-- Descriptor number 1 is started in `wait1` only. -/
theorem Ft.ctl_init1 {d : FtWidth} (t : Ft) (j : FtIn d) (h : t.state ≠ .wait1) :
    (t.ctl j).init1 = false := by
  cases hs : t.state with
  | wait1 => exact absurd hs h
  | _ =>
    simp only [Ft.ctl, hs]
    try split_ifs
    all_goals simp [FtCtl.count, FtCtl.ends]

/-! ### What is collected -/

theorem Dma.Goes.silent (hk : k ≤ D.bursts) (hq : q.done = D.first M k) (hev : s.events i = [])
    (h : (s.clock i).Stage D M k q.cur) : s.Goes D M q i := by
  refine ⟨k, hk, ?_, ?_⟩
  · rw [hev]
    exact hq
  · rw [hev]
    exact h

theorem Dma.Goes.broadcast (hk : k ≤ D.bursts) (hq : q.done = D.first M k)
    (hev : s.events i = [.broadcast]) (h : (s.clock i).Stage D M k q.cur) : s.Goes D M q i := by
  refine ⟨k, hk, ?_, ?_⟩
  · rw [hev]
    exact hq
  · rw [hev]
    exact h

theorem Dma.Goes.address {a : BitVec 64} (hk : k ≤ D.bursts) (hq : q.done = D.first M k)
    (hev : s.events i = [.address a]) (h : (s.clock i).Stage D M k (a, [])) : s.Goes D M q i := by
  refine ⟨k, hk, ?_, ?_⟩
  · rw [hev]
    exact hq
  · rw [hev]
    exact h

theorem Dma.Goes.word {w : BitVec 64} (hk : k ≤ D.bursts) (hq : q.done = D.first M k)
    (hev : s.events i = [.word w false])
    (h : (s.clock i).Stage D M k (q.cur.1, q.cur.2 ++ [w])) : s.Goes D M q i := by
  refine ⟨k, hk, ?_, ?_⟩
  · rw [hev]
    exact hq
  · rw [hev]
    exact h

/-- The last word of a burst. -/
theorem Dma.Goes.last {w : BitVec 64} (hk : k + 1 ≤ D.bursts) (hq : q.done = D.first M k)
    (hev : s.events i = [.word w true]) (hcur : (q.cur.1, q.cur.2 ++ [w]) = D.burst M k)
    (h : (s.clock i).Stage D M (k + 1) (q.cur.1, [])) : s.Goes D M q i := by
  refine ⟨k + 1, hk, ?_, ?_⟩
  · rw [hev, D.first_succ, ← hq, ← hcur]
    rfl
  · rw [hev]
    exact h

/-! ### While the descriptor runs -/

theorem Dma.Active.clock {c : ℕ} {e : Bool} (h : s.Active D M c) (hi : i.Away)
    (hplain : s.ft.Plain) (hctl : (s.ftCtl i).Counts e)
    (hofst : (s.bram.ctl (s.lines2 i) false).ofen = false ∨ s.bram.ofst.msb = false)
    (hsmall : c + e.toNat ≤ D.count + 1) :
    (s.clock i).Active D M (c + e.toNat) ∧ (s.clock i).ft.Near D c := by
  obtain ⟨hruns, hnear⟩ := h.runs.clock h.regs.loaded hctl hsmall
  have hregs := h.regs.clock hi hplain.run1
  rw [h.runs.run0] at hregs
  refine ⟨⟨h.sound.clock hi hofst, hregs, hruns, ?_⟩, hnear⟩
  rw [Dma.clock_err, hctl.errdone, h.err]
  rfl

/-- An error aborts. -/
theorem Dma.Active.abort {c : ℕ} {cur : BitVec 64 × List (BitVec 64)} (h : s.Active D M c)
    (hi : i.Away) (hplain : s.ft.Plain) (hmore : k * D.payload < D.count)
    (hnext : (s.ftCtl i).nextate = .abrt1) (hdone : (s.ftCtl i).dmadone = false)
    (hofst : (s.bram.ctl (s.lines2 i) false).ofen = false ∨ s.bram.ofst.msb = false)
    (hcut : (s.clock i).Cut) : (s.clock i).Stage D M k cur := by
  have hs' : (s.clock i).ft.state = .abrt1 := hnext
  simp only [Dma.Stage, hs']
  refine ⟨?_, ?_, D.lt_bursts hmore, h.sound.clock hi hofst, hcut⟩
  · rw [Dma.clock_run0, h.runs.run0, hdone, Bool.or_true]
    rfl
  · have hregs := h.regs.clock hi hplain.run1
    rw [h.runs.run0] at hregs
    exact hregs

/-- What is armed stays so until the data. -/
theorem Dma.Armed.clock (h : s.Armed D) (hbcld : (s.ftCtl i).bcld = false)
    (hbcen : (s.ftCtl i).bcen = false) (hpausen : (s.ftCtl i).pausen = false)
    (hebdat : (s.ftCtl i).ebdat = false) : (s.clock i).Armed D := by
  refine ⟨?_, ?_, ?_⟩
  · rw [Dma.clock_bcnt, hbcld, hbcen]
    exact h.bcnt
  · rw [Dma.clock_ebadrs, hebdat, h.ebadrs, Bool.or_true]
    rfl
  · rw [Dma.clock_pauscnt, hbcld, hpausen]
    exact h.pauscnt

/-- The first word of a burst is prepared. -/
theorem Dma.Active.arm {c : ℕ} (h : s.Active D M c) (hbcld : (s.ftCtl i).bcld = true)
    (hebdat : (s.ftCtl i).ebdat = false) : (s.clock i).Armed D := by
  refine ⟨?_, ?_, ?_⟩
  · rw [Dma.clock_bcnt, if_pos hbcld]
    exact h.regs.loaded.payload
  · rw [Dma.clock_ebadrs, hebdat, hbcld, Bool.true_or]
    rfl
  · rw [Dma.clock_pauscnt, if_pos hbcld]


theorem Dma.Ended.stays (h : s.Ended D k) (hrun0 : s.ft.flags.run0 = false)
    (hdaclr : (s.ftCtl i).daclr = false) : (s.clock i).Ended D k := by
  have herr' : (s.clock i).ft.errors0.err = s.ft.errors0.err := by
    rw [Dma.clock_err, hrun0, hdaclr, Bool.and_false, Bool.false_or, Bool.not_false, Bool.and_true]
  rcases h with ⟨herr, hearly⟩ | ⟨herr, hbursts, hsts⟩
  · exact Or.inl ⟨herr'.trans herr, hearly⟩
  · refine Or.inr ⟨herr'.trans herr, hbursts, ?_⟩
    rw [Dma.clock_dma0Sts, hrun0]
    exact hsts

theorem Dma.clock_daburst (hdbld : (s.ftCtl i).dbld = false) :
    (s.clock i).ft.daburst = s.ft.daburst := by
  show (if (s.ftCtl i).dbld then _ else s.ft.daburst) = _
  rw [hdbld]
  rfl

/-- What is granted stays so until the data. -/
theorem Dma.Granted.clock {a : ℕ} (h : s.Granted D a) (hbcld : (s.ftCtl i).bcld = false)
    (hbcen : (s.ftCtl i).bcen = false) (hpausen : (s.ftCtl i).pausen = false)
    (hebdat : (s.ftCtl i).ebdat = false) (hebeof : (s.ftCtl i).ebeof = false)
    (hdbld : (s.ftCtl i).dbld = false) (hmx : (s.mxCtl i).ebeof = false) :
    (s.clock i).Granted D a := by
  refine ⟨h.armed.clock hbcld hbcen hpausen hebdat, ?_, ?_, ?_, ?_⟩
  · rw [Dma.clock_ebft, h.ebft, hebeof, Bool.or_true]
    rfl
  · exact Dma.clock_m0Brq h.ebft h.m0Brq
  · rw [Dma.clock_daburst hdbld]
    exact h.daburst
  · rw [Dma.clock_ebmx, h.ebmx, hmx, Bool.or_true]
    rfl

/-! ### The address on the second E-bone -/

theorem toNat_append_eq {m n : ℕ} (x : BitVec m) (y : BitVec n) :
    (x ++ y).toNat = x.toNat * 2 ^ n + y.toNat := by
  rw [BitVec.toNat_append, Nat.shiftLeft_eq, Nat.mul_comm, ← Nat.two_pow_add_eq_or_of_lt y.isLt]

theorem Descriptor.aligned (D : Descriptor) (k : ℕ) : 4 ∣ D.src + k * D.payload :=
  Nat.dvd_add D.four_dvd_src (Dvd.dvd.mul_left D.four_dvd_payload k)

/-- The master addresses the slave of the memory. -/
theorem Ft.Runs.readDat {a : ℕ} (h : s.ft.Runs D a) (hfifo : s.ft.flags.fifo = false)
    (haligned : 4 ∣ D.src + a) (hinside : D.src + a < 512) {c : MxCtl} (hadrs : c.ebadrs = true)
    {m : MxCmd} (hbwr : m.bwr = false) (hclr : m.clr = false) (hrst : m.rst = false) :
    mxDat c m s.mxAdrs = BitVec.ofNat 32 (0xa0001000 + (D.src + a)) := by
  have hmx : s.ft.mxAdrs = (2 : BitVec 4) ++ BitVec.ofNat 28 (0x1000 + D.src + a) := by
    rw [Ft.mxAdrs, hfifo, h.maseg, h.macnt]
    rfl
  simp only [mxDat, hadrs, if_true, Dma.mxAdrs, hmx, hbwr, hclr, hrst]
  apply BitVec.eq_of_toNat_eq
  simp only [toNat_append_eq, BitVec.extractLsb'_toNat, BitVec.toNat_ofNat,
    Nat.shiftRight_eq_div_pow]
  show (_ * 2 ^ 1 + 0) * 2 ^ 1 + 0 = _
  simp
  omega

theorem dacqBram_selects {a : ℕ} (ha : a < 512) :
    dacqBram.selects (BitVec.ofNat 32 (0xa0001000 + a)) = true := by
  rw [BramGenerics.selects, Bool.and_eq_true, beq_iff_eq, beq_iff_eq]
  refine ⟨?_, ?_⟩
  · apply BitVec.eq_of_toNat_eq
    simp only [BitVec.extractLsb'_toNat, BitVec.toNat_ofNat, Nat.shiftRight_eq_div_pow]
    show _ = 2
    omega
  · apply BitVec.eq_of_toNat_eq
    simp only [BitVec.extractLsb'_toNat, BitVec.toNat_ofNat, Nat.shiftRight_eq_div_pow]
    show _ / 2 ^ 10 % 2 ^ 6 = 4
    omega

theorem readDat_read {a : ℕ} (ha : a < 512) :
    (BitVec.ofNat 32 (0xa0001000 + a)).getLsbD 31 = true := by
  rw [BitVec.getLsbD_ofNat]
  simp [Nat.testBit, Nat.shiftRight_eq_div_pow]
  omega

/-- The slave of the memory takes the address. -/
theorem Dma.bram_addressed {a : ℕ} (ha : a < 512) (hbram : s.bram.state = .iddle)
    (hbmx : s.mx.ebmx = true) (has : (s.mxCtl i).ebadrs = true) (heof : (s.mxCtl i).eof = false)
    (hdat : mxDat (s.mxCtl i) (s.ftCtl i).mx s.mxAdrs = BitVec.ofNat 32 (0xa0001000 + a)) :
    s.bram.ctl (s.lines2 i) false = { nextate := .rd0, ofld := true } ∧
      (s.clock i).bram.ofst.toNat = a := by
  have hctl : s.bram.ctl (s.lines2 i) false = { nextate := .rd0, ofld := true } := by
    simp [Bram.ctl, hbram, Dma.lines2, hbmx, has, heof, hdat, dacqBram_selects ha, readDat_read ha]
  refine ⟨hctl, ?_⟩
  have hload : (s.clock i).bram.ofst
      = ((s.lines2 i).dat.setWidth dacqBram.adLog).setWidth (dacqBram.adLog + 1) := by
    simp [Dma.clock, Bram.clock, hctl]
  rw [hload]
  show (((mxDat (s.mxCtl i) (s.ftCtl i).mx s.mxAdrs).setWidth 10).setWidth 11).toNat = a
  rw [hdat, BitVec.toNat_setWidth, BitVec.toNat_setWidth, BitVec.toNat_ofNat]
  omega

/-! ### The address -/

/-- The address stays on the first E-bone until the first word comes. -/
theorem Dma.Granted.address {a : ℕ} (h : s.Granted D a) (hact : s.Active D M a)
    (has : (s.ftCtl i).as = true) (heof : (s.ftCtl i).eof = false) :
    s.events i = [.address (D.addr a)] := by
  rw [Dma.events_one h.ebft h.m0Brq, has, heof,
    Dma.dxtO_addr hact.runs.run0 hact.regs.loaded h.armed.ebadrs h.daburst]
  rfl

/-- While the first E-bone has not answered, the source waits. -/
theorem Dma.source_waits (hmx : s.mx.state = .adr1) (hebmx : s.mx.ebmx = true)
    (hbram : s.bram.state = .iddle) (hcmd : (s.ftCtl i).mx = {}) :
    (s.mxCtl i).ebeof = false ∧ (s.bram.ctl (s.lines2 i) false).ofen = false ∧
      (s.clock i).mx.state = .adr1 ∧ (s.clock i).mx.ebmx = true ∧
      (s.clock i).bram.state = .iddle := by
  have hctl : s.mxCtl i = { nextate := .adr1, answer := ⟨true, false, false, false⟩ } := by
    simp [Dma.mxCtl, VPcie.Ebone.mxCtl, hmx, hcmd]
  have hstays := Dma.bram_stays (i := i) hbram (by rw [hctl])
  refine ⟨by rw [hctl], by rw [hstays], ?_, ?_, ?_⟩
  · rw [Dma.clock_mxState, hctl]
  · rw [Dma.clock_ebmx, hctl, hebmx]
    rfl
  · rw [Dma.clock_bramState, hstays]

/-- The first E-bone makes the fast transmitter ask again. -/
theorem Dma.Stage.adr1_refused (hi : i.Away) (hk : k ≤ D.bursts) (hq : q.done = D.first M k)
    (hs : s.ft.state = .adr1) (hplain : s.ft.Plain) (hact : s.Active D M (k * D.payload))
    (hmore : k * D.payload < D.count) (hgranted : s.Granted D (k * D.payload))
    (hmx0 : s.mx.state = .adr1) (hbram0 : s.bram.state = .iddle) (herr : i.err = true)
    (hdk : i.dk = true) : s.Goes D M q i := by
  have hctl : s.ftCtl i = { nextate := .brq9, as := true, ebeof := true } := by
    simp [Dma.ftCtl, Ft.ctl, hs, herr, hdk]
  obtain ⟨-, hofen, hmx', hebmx', hbram'⟩ :=
    Dma.source_waits (i := i) hmx0 hgranted.ebmx hbram0 (by rw [hctl])
  have hcounts : (s.ftCtl i).Counts false := by
    rw [hctl]
    exact ⟨rfl, rfl, rfl, rfl, rfl, rfl⟩
  obtain ⟨hact', -⟩ := hact.clock hi hplain hcounts (Or.inl hofen) hact.runs.small
  refine Dma.Goes.address hk hq (hgranted.address hact (by rw [hctl]) (by rw [hctl])) ?_
  have hs' : (s.clock i).ft.state = .brq9 := by rw [Dma.clock_state, hctl]
  simp only [Dma.Stage, hs']
  refine ⟨hact', hmore, ?_, hbram', Or.inl ⟨?_, hmx', hebmx'⟩⟩
  · rw [Dma.clock_ebft, hctl, Bool.not_true, Bool.and_false]
  · rw [Dma.clock_pauscnt, hctl]
    exact hgranted.armed.pauscnt

/-- The first E-bone answers, and the slave of the memory is addressed. -/
theorem Dma.Stage.adr1_answered (hi : i.Away) (hk : k ≤ D.bursts) (hq : q.done = D.first M k)
    (hs : s.ft.state = .adr1) (hplain : s.ft.Plain) (hact : s.Active D M (k * D.payload))
    (hmore : k * D.payload < D.count) (hgranted : s.Granted D (k * D.payload))
    (hmx0 : s.mx.state = .adr1) (hbram0 : s.bram.state = .iddle) (herr : i.err = false)
    (hdk : i.dk = true) : s.Goes D M q i := by
  have hinside := D.inside
  have hctl : s.ftCtl i = { nextate := .adr2, as := true, mx := { read := true } } := by
    simp [Dma.ftCtl, Ft.ctl, hs, herr, hdk]
  have hmx : s.mxCtl i
      = { nextate := .adr2, ebadrs := true, answer := ⟨true, false, false, false⟩ } := by
    simp [Dma.mxCtl, VPcie.Ebone.mxCtl, hmx0, hctl]
  have hdat := hact.runs.readDat hplain.fifo (D.aligned k) (by omega)
    (show (s.mxCtl i).ebadrs = true by rw [hmx]) (m := (s.ftCtl i).mx) (by rw [hctl])
    (by rw [hctl]) (by rw [hctl])
  obtain ⟨hbram, hofst⟩ := Dma.bram_addressed (by omega) hbram0 hgranted.ebmx (by rw [hmx])
    (by rw [hmx]) hdat
  have hcounts : (s.ftCtl i).Counts false := by
    rw [hctl]
    exact ⟨rfl, rfl, rfl, rfl, rfl, rfl⟩
  obtain ⟨hact', hnear'⟩ :=
    hact.clock hi hplain hcounts (Or.inl (by rw [hbram])) hact.runs.small
  refine Dma.Goes.address hk hq (hgranted.address hact (by rw [hctl]) (by rw [hctl])) ?_
  have hs' : (s.clock i).ft.state = .adr2 := by rw [Dma.clock_state, hctl]
  simp only [Dma.Stage, hs']
  refine ⟨hact', hmore, hnear', ?_, trivial, Or.inl ⟨?_, ?_, ?_, ?_, hofst⟩⟩
  · exact hgranted.clock (by rw [hctl]) (by rw [hctl]) (by rw [hctl]) (by rw [hctl])
      (by rw [hctl]) (by rw [hctl]) (by rw [hmx])
  · rw [Dma.clock_mxState, hmx]
  · rw [Dma.clock_bramState, hbram]
  · simp [Dma.clock, Bram.clock, hbram, hact.sound.ovf]
  · simp [Dma.clock, Bram.clock, hbram]

/-- The first E-bone has not answered yet. -/
theorem Dma.Stage.adr1_waits (hi : i.Away) (hk : k ≤ D.bursts) (hq : q.done = D.first M k)
    (hs : s.ft.state = .adr1) (hplain : s.ft.Plain) (hact : s.Active D M (k * D.payload))
    (hmore : k * D.payload < D.count) (hgranted : s.Granted D (k * D.payload))
    (hmx0 : s.mx.state = .adr1) (hbram0 : s.bram.state = .iddle) (herr : i.err = false)
    (hdk : i.dk = false) : s.Goes D M q i := by
  have hctl : s.ftCtl i = { nextate := .adr1, as := true } := by
    simp [Dma.ftCtl, Ft.ctl, hs, herr, hdk]
  obtain ⟨hebeof, hofen, hmx', -, hbram'⟩ :=
    Dma.source_waits (i := i) hmx0 hgranted.ebmx hbram0 (by rw [hctl])
  have hcounts : (s.ftCtl i).Counts false := by
    rw [hctl]
    exact ⟨rfl, rfl, rfl, rfl, rfl, rfl⟩
  obtain ⟨hact', -⟩ := hact.clock hi hplain hcounts (Or.inl hofen) hact.runs.small
  refine Dma.Goes.address hk hq (hgranted.address hact (by rw [hctl]) (by rw [hctl])) ?_
  have hs' : (s.clock i).ft.state = .adr1 := by rw [Dma.clock_state, hctl]
  simp only [Dma.Stage, hs']
  refine ⟨hact', hmore, ?_, hmx', hbram', trivial⟩
  exact hgranted.clock (by rw [hctl]) (by rw [hctl]) (by rw [hctl]) (by rw [hctl])
    (by rw [hctl]) (by rw [hctl]) hebeof

/-! ### One lemma for each state -/

variable (hi : i.Away) (hk : k ≤ D.bursts) (hq : q.done = D.first M k)
  (h : s.Stage D M k q.cur)
include hi hk hq h

theorem Dma.Stage.iddle (hs : s.ft.state = .iddle) (hplain : s.ft.Plain) : s.Goes D M q i := by
  simp only [Dma.Stage, hs] at h
  obtain ⟨hrun0, hebft, hrest⟩ := h
  rcases hrest with ⟨hregs, hzero, hsound, hfree⟩ | ⟨hregs, hended, hcalm⟩
  · have hctl : s.ftCtl i = { nextate := .wait0 } := by
      simp [Dma.ftCtl, Ft.ctl, hs, loaded_go hregs.loaded]
    obtain ⟨hfree', hofen⟩ := hfree.stays (i := i) (by rw [hctl]) (by rw [hctl]) (by rw [hctl])
    refine Dma.Goes.silent hk hq (Dma.events_none (Or.inl hebft)) ?_
    have hs' : (s.clock i).ft.state = .wait0 := by rw [Dma.clock_state, hctl]
    simp only [Dma.Stage, hs']
    refine ⟨?_, ?_, hzero, hsound.clock hi (Or.inl hofen), hfree'⟩
    · rw [Dma.clock_run0, hctl, hrun0]
      rfl
    · have hregs' := hregs.clock hi hplain.run1
      rw [hrun0] at hregs'
      exact hregs'
  · have hctl : s.ftCtl i = { nextate := .iddle } := by
      simp [Dma.ftCtl, Ft.ctl, hs, loaded_go hregs.loaded]
    refine Dma.Goes.silent hk hq (Dma.events_none (Or.inl hebft)) ?_
    have hs' : (s.clock i).ft.state = .iddle := by rw [Dma.clock_state, hctl]
    simp only [Dma.Stage, hs']
    refine ⟨?_, ?_, Or.inr ⟨?_, ?_, hcalm.stays hi (by rw [hctl]) (by rw [hctl])⟩⟩
    · rw [Dma.clock_run0, hctl, hrun0]
      rfl
    · rw [Dma.clock_ebft, hctl, hebft]
      rfl
    · have hregs' := hregs.clock hi hplain.run1
      rw [hrun0] at hregs'
      exact hregs'
    · exact hended.stays hrun0 (by rw [hctl])

theorem Dma.Stage.wait0 (hs : s.ft.state = .wait0) (hplain : s.ft.Plain) : s.Goes D M q i := by
  simp only [Dma.Stage, hs] at h
  obtain ⟨hrun0, hregs, hzero, hsound, hfree⟩ := h
  have hctl : s.ftCtl i = { nextate := .wait2, init0 := true } := by
    simp [Dma.ftCtl, Ft.ctl, hs, loaded_go hregs.loaded, loaded_zero hregs.loaded]
  obtain ⟨hfree', hofen⟩ := hfree.stays (i := i) (by rw [hctl]) (by rw [hctl]) (by rw [hctl])
  refine Dma.Goes.silent hk hq (Dma.events_none (Or.inl hfree.ebft)) ?_
  have hs' : (s.clock i).ft.state = .wait2 := by rw [Dma.clock_state, hctl]
  simp only [Dma.Stage, hs']
  refine ⟨?_, ?_, hzero, hsound.clock hi (Or.inl hofen), hfree'⟩
  · rw [Dma.clock_run0, hctl]
    rfl
  · have hregs' := hregs.clock hi hplain.run1
    rw [hrun0] at hregs'
    exact hregs'

/-- The counters are set. -/
theorem Dma.Stage.wait2 (hs : s.ft.state = .wait2) (hplain : s.ft.Plain) : s.Goes D M q i := by
  simp only [Dma.Stage, hs] at h
  obtain ⟨hrun0, hregs, hzero, hsound, hfree⟩ := h
  have hctl : s.ftCtl i = { nextate := .brq1, fcld := true, daclr := true, mald := true } := by
    simp [Dma.ftCtl, Ft.ctl, hs, hplain.mif, hplain.fifo]
  obtain ⟨hfree', hofen⟩ := hfree.stays (i := i) (by rw [hctl]) (by rw [hctl]) (by rw [hctl])
  refine Dma.Goes.silent hk hq (Dma.events_none (Or.inl hfree.ebft)) ?_
  have hs' : (s.clock i).ft.state = .brq1 := by rw [Dma.clock_state, hctl]
  have hinside := D.inside
  have hdesc : (s.ftIn i (s.answer i)).desc s.ft.flags.run0 0
      = BitVec.ofNat 32 (0x20001000 + D.src) := by
    rw [hrun0]
    exact hregs.loaded.src
  have hsrc : (s.clock i).ft.src
      = s.ft.src.clock (s.ftIn i (s.answer i)) (s.ftCtl i) s.ft.flags := rfl
  simp only [Dma.Stage, hs']
  subst hzero
  rw [Nat.zero_mul]
  refine ⟨⟨hsound.clock hi (Or.inl hofen), ?_, ⟨?_, ?_, ?_, ?_, Nat.zero_le _⟩, ?_⟩, D.count_pos,
    hfree'⟩
  · have hregs' := hregs.clock hi hplain.run1
    rw [hrun0] at hregs'
    exact hregs'
  · rw [Dma.clock_run0, hctl, hrun0]
    rfl
  · have hseg : (s.clock i).ft.src.maseg
        = (((s.ftIn i (s.answer i)).desc s.ft.flags.run0 0).extractLsb' 28 2).setWidth 4 := by
      rw [hsrc, hctl]
      simp [FtSource.clock, hplain.fifo]
    rw [hseg, hdesc]
    apply BitVec.eq_of_toNat_eq
    simp only [BitVec.toNat_setWidth, BitVec.extractLsb'_toNat, BitVec.toNat_ofNat,
      Nat.shiftRight_eq_div_pow]
    show _ = 2
    omega
  · have hcnt : (s.clock i).ft.src.macnt
        = ((s.ftIn i (s.answer i)).desc s.ft.flags.run0 0).setWidth 28 := by
      rw [hsrc, hctl]
      simp [FtSource.clock, hplain.mif]
    rw [hcnt, hdesc]
    apply BitVec.eq_of_toNat_eq
    simp only [BitVec.toNat_setWidth, BitVec.toNat_ofNat]
    omega
  · have hcnt : (s.clock i).ft.cnt = s.ft.cnt.clock (s.ftCtl i) _ := rfl
    rw [hcnt, hctl]
    rfl
  · rw [Dma.clock_err, hctl, Bool.not_true, Bool.and_false]

theorem Dma.Stage.brq1 (hs : s.ft.state = .brq1) (hplain : s.ft.Plain) : s.Goes D M q i := by
  simp only [Dma.Stage, hs] at h
  obtain ⟨hact, hmore, hfree⟩ := h
  have hctl : s.ftCtl i = { nextate := .brq2, bcld := true } := by
    simp [Dma.ftCtl, Ft.ctl, hs]
  obtain ⟨hfree', hofen⟩ := hfree.stays (i := i) (by rw [hctl]) (by rw [hctl]) (by rw [hctl])
  have hcounts : (s.ftCtl i).Counts false := by
    rw [hctl]
    exact ⟨rfl, rfl, rfl, rfl, rfl, rfl⟩
  obtain ⟨hact', -⟩ := hact.clock hi hplain hcounts (Or.inl hofen) hact.runs.small
  refine Dma.Goes.silent hk hq (Dma.events_none (Or.inl hfree.ebft)) ?_
  have hs' : (s.clock i).ft.state = .brq2 := by rw [Dma.clock_state, hctl]
  simp only [Dma.Stage, hs']
  exact ⟨hact', hmore, hfree', hact.arm (by rw [hctl]) (by rw [hctl])⟩

/-- The fast transmitter waits for the first E-bone, and then asks for both. -/
theorem Dma.Stage.brq2 (hs : s.ft.state = .brq2) (hplain : s.ft.Plain) : s.Goes D M q i := by
  simp only [Dma.Stage, hs] at h
  obtain ⟨hact, hmore, hfree, harmed⟩ := h
  refine Dma.Goes.silent hk hq (Dma.events_none (Or.inl hfree.ebft)) ?_
  cases hm0 : s.m0Brq with
  | true =>
    have hctl : s.ftCtl i = { nextate := .brq2, dbld := true } := by
      simp [Dma.ftCtl, Ft.ctl, hs, hm0]
    obtain ⟨hfree', hofen⟩ := hfree.stays (i := i) (by rw [hctl]) (by rw [hctl]) (by rw [hctl])
    have hcounts : (s.ftCtl i).Counts false := by
      rw [hctl]
      exact ⟨rfl, rfl, rfl, rfl, rfl, rfl⟩
    obtain ⟨hact', -⟩ := hact.clock hi hplain hcounts (Or.inl hofen) hact.runs.small
    have hs' : (s.clock i).ft.state = .brq2 := by rw [Dma.clock_state, hctl]
    simp only [Dma.Stage, hs']
    exact ⟨hact', hmore, hfree',
      harmed.clock (by rw [hctl]) (by rw [hctl]) (by rw [hctl]) (by rw [hctl])⟩
  | false =>
    have hctl : s.ftCtl i
        = { nextate := .brq3, dbld := true, ebrq := true, mx := { brq := true } } := by
      simp [Dma.ftCtl, Ft.ctl, hs, hm0]
    have hmx : s.mxCtl i = { nextate := .brq1, ebrq := true } := by
      simp [Dma.mxCtl, VPcie.Ebone.mxCtl, hfree.mx, hctl, hfree.ebmx]
    have hbram := Dma.bram_stays (i := i) hfree.bram (by rw [hmx])
    have hcounts : (s.ftCtl i).Counts false := by
      rw [hctl]
      exact ⟨rfl, rfl, rfl, rfl, rfl, rfl⟩
    obtain ⟨hact', -⟩ :=
      hact.clock hi hplain hcounts (Or.inl (by rw [hbram])) hact.runs.small
    have hs' : (s.clock i).ft.state = .brq3 := by rw [Dma.clock_state, hctl]
    simp only [Dma.Stage, hs']
    refine ⟨hact', hmore, ?_, ?_, ?_, ?_, ?_, ?_⟩
    · exact harmed.clock (by rw [hctl]) (by rw [hctl]) (by rw [hctl]) (by rw [hctl])
    · rw [Dma.clock_ebft, hctl]
      rfl
    · exact hact.runs.daburst hact.regs.loaded (by rw [hctl])
    · rw [Dma.clock_mxState, hmx]
    · rw [Dma.clock_ebmx, hmx]
      rfl
    · rw [Dma.clock_bramState, hbram]

/-- Both are granted, or the other master came first. -/
theorem Dma.Stage.brq3 (hs : s.ft.state = .brq3) (hplain : s.ft.Plain) : s.Goes D M q i := by
  simp only [Dma.Stage, hs] at h
  obtain ⟨hact, hmore, harmed, hebft, hburst, hmx0, hebmx, hbram0⟩ := h
  have hbg : (s.answer i).bg = true := by
    simp [Dma.answer_eq, VPcie.Ebone.mxCtl, hmx0, hebmx]
  have hmx : s.mxCtl i = { nextate := .adr1, answer := ⟨true, false, false, false⟩ } := by
    simp [Dma.mxCtl, VPcie.Ebone.mxCtl, hmx0, hebmx]
  have hbram := Dma.bram_stays (i := i) hbram0 (by rw [hmx])
  cases hm0 : s.m0Brq with
  | false =>
    have hctl : s.ftCtl i = { nextate := .adr1, mx := { brq := true }, as := true } := by
      simp [Dma.ftCtl, Ft.ctl, hs, hm0, hebft, hbg]
    have hcounts : (s.ftCtl i).Counts false := by
      rw [hctl]
      exact ⟨rfl, rfl, rfl, rfl, rfl, rfl⟩
    obtain ⟨hact', -⟩ :=
      hact.clock hi hplain hcounts (Or.inl (by rw [hbram])) hact.runs.small
    have hev : s.events i = [.address (D.addr (k * D.payload))] := by
      rw [Dma.events_one hebft hm0,
        Dma.dxtO_addr hact.runs.run0 hact.regs.loaded harmed.ebadrs hburst, hctl]
      rfl
    refine Dma.Goes.address hk hq hev ?_
    have hs' : (s.clock i).ft.state = .adr1 := by rw [Dma.clock_state, hctl]
    simp only [Dma.Stage, hs']
    refine ⟨hact', hmore, ⟨?_, ?_, ?_, ?_, ?_⟩, ?_, ?_, trivial⟩
    · exact harmed.clock (by rw [hctl]) (by rw [hctl]) (by rw [hctl]) (by rw [hctl])
    · rw [Dma.clock_ebft, hctl, hebft]
      rfl
    · exact Dma.clock_m0Brq hebft hm0
    · rw [Dma.clock_daburst (by rw [hctl])]
      exact hburst
    · rw [Dma.clock_ebmx, hmx, hebmx]
      rfl
    · rw [Dma.clock_mxState, hmx]
    · rw [Dma.clock_bramState, hbram]
  | true =>
    have hctl : s.ftCtl i = { nextate := .brq9, mx := { brq := true }, ebeof := true } := by
      simp [Dma.ftCtl, Ft.ctl, hs, hm0, hbg]
    have hcounts : (s.ftCtl i).Counts false := by
      rw [hctl]
      exact ⟨rfl, rfl, rfl, rfl, rfl, rfl⟩
    obtain ⟨hact', -⟩ :=
      hact.clock hi hplain hcounts (Or.inl (by rw [hbram])) hact.runs.small
    refine Dma.Goes.silent hk hq (Dma.events_none (Or.inr hm0)) ?_
    have hs' : (s.clock i).ft.state = .brq9 := by rw [Dma.clock_state, hctl]
    simp only [Dma.Stage, hs']
    refine ⟨hact', hmore, ?_, ?_, Or.inl ⟨?_, ?_, ?_⟩⟩
    · rw [Dma.clock_ebft, hctl, Bool.not_true, Bool.and_false]
    · rw [Dma.clock_bramState, hbram]
    · rw [Dma.clock_pauscnt, hctl]
      exact harmed.pauscnt
    · rw [Dma.clock_mxState, hmx]
    · rw [Dma.clock_ebmx, hmx, hebmx]
      rfl

/-- The pause after a request that failed. -/
theorem Dma.Stage.brq9 (hs : s.ft.state = .brq9) (hplain : s.ft.Plain) : s.Goes D M q i := by
  simp only [Dma.Stage, hs] at h
  obtain ⟨hact, hmore, hebft, hbram0, hgives⟩ := h
  refine Dma.Goes.silent hk hq (Dma.events_none (Or.inl hebft)) ?_
  cases hmsb : s.ft.pauscnt.msb with
  | true =>
    have hctl : s.ftCtl i = { nextate := .brq1, mx := { abrt := true }, pausen := true } := by
      simp [Dma.ftCtl, Ft.ctl, hs, hmsb]
    rcases hgives with ⟨hpaus, -⟩ | ⟨hpaus, -⟩ | ⟨hmx0, hebmx, -⟩
    · rw [hpaus] at hmsb
      exact absurd hmsb (by decide)
    · rw [hpaus] at hmsb
      exact absurd hmsb (by decide)
    · obtain ⟨hfree', hofen⟩ := Dma.Free.stays (i := i) ⟨hebft, hmx0, hebmx, hbram0⟩
        (by rw [hctl]) (by rw [hctl]) (by rw [hctl])
      have hcounts : (s.ftCtl i).Counts false := by
        rw [hctl]
        exact ⟨rfl, rfl, rfl, rfl, rfl, rfl⟩
      obtain ⟨hact', -⟩ := hact.clock hi hplain hcounts (Or.inl hofen) hact.runs.small
      have hs' : (s.clock i).ft.state = .brq1 := by rw [Dma.clock_state, hctl]
      simp only [Dma.Stage, hs']
      exact ⟨hact', hmore, hfree'⟩
  | false =>
    have hctl : s.ftCtl i = { nextate := .brq9, mx := { abrt := true }, pausen := true } := by
      simp [Dma.ftCtl, Ft.ctl, hs, hmsb]
    have hcounts : (s.ftCtl i).Counts false := by
      rw [hctl]
      exact ⟨rfl, rfl, rfl, rfl, rfl, rfl⟩
    have hpaus' : (s.clock i).ft.pauscnt = s.ft.pauscnt + 1 := by
      rw [Dma.clock_pauscnt, hctl]
      rfl
    have hadrs : (s.mxCtl i).ebadrs = false := by
      rcases hgives with ⟨-, hmx0, -⟩ | ⟨-, hmx0, -⟩ | ⟨hmx0, -⟩
      · simp [Dma.mxCtl, VPcie.Ebone.mxCtl, hmx0, hctl]
      · simp [Dma.mxCtl, VPcie.Ebone.mxCtl, hmx0, hctl]
      · simp [Dma.mxCtl, VPcie.Ebone.mxCtl, hmx0, hctl]
    have hbram := Dma.bram_stays hbram0 hadrs
    obtain ⟨hact', -⟩ :=
      hact.clock hi hplain hcounts (Or.inl (by rw [hbram])) hact.runs.small
    have hs' : (s.clock i).ft.state = .brq9 := by rw [Dma.clock_state, hctl]
    simp only [Dma.Stage, hs']
    refine ⟨hact', hmore, ?_, ?_, ?_⟩
    · rw [Dma.clock_ebft, hctl, hebft]
      rfl
    · rw [Dma.clock_bramState, hbram]
    · rcases hgives with ⟨hpaus, hmx0, hebmx⟩ | ⟨hpaus, hmx0, hebmx⟩ | ⟨hmx0, hebmx, hpaus⟩
      · refine Or.inr (Or.inl ⟨?_, ?_, ?_⟩)
        · rw [hpaus', hpaus]
          rfl
        · rw [Dma.clock_mxState]
          simp [Dma.mxCtl, VPcie.Ebone.mxCtl, hmx0, hctl]
        · rw [Dma.clock_ebmx]
          simp [Dma.mxCtl, VPcie.Ebone.mxCtl, hmx0, hctl]
      · refine Or.inr (Or.inr ⟨?_, ?_, ?_⟩)
        · rw [Dma.clock_mxState]
          simp [Dma.mxCtl, VPcie.Ebone.mxCtl, hmx0, hctl]
        · rw [Dma.clock_ebmx]
          simp [Dma.mxCtl, VPcie.Ebone.mxCtl, hmx0, hctl, hebmx]
        · rw [hpaus', hpaus]
          decide
      · refine Or.inr (Or.inr ⟨?_, ?_, ?_⟩)
        · rw [Dma.clock_mxState]
          simp [Dma.mxCtl, VPcie.Ebone.mxCtl, hmx0, hctl]
        · rw [Dma.clock_ebmx]
          simp [Dma.mxCtl, VPcie.Ebone.mxCtl, hmx0, hctl, hebmx]
        · have hlow : s.ft.pauscnt.toNat < 8 := by
            rw [BitVec.msb_eq_decide] at hmsb
            simpa using hmsb
          rw [hpaus', BitVec.toNat_add]
          show 2 ≤ (_ + 1) % 16
          omega

/-- The first E-bone answers, or makes the fast transmitter wait. -/
theorem Dma.Stage.adr1 (hs : s.ft.state = .adr1) (hplain : s.ft.Plain) : s.Goes D M q i := by
  simp only [Dma.Stage, hs] at h
  obtain ⟨hact, hmore, hgranted, hmx0, hbram0, -⟩ := h
  cases herr : i.err with
  | true =>
    cases hdk : i.dk with
    | true =>
      exact Dma.Stage.adr1_refused hi hk hq hs hplain hact hmore hgranted hmx0 hbram0 herr hdk
    | false =>
      have hctl : s.ftCtl i = { nextate := .abrt1, as := true, adrerr := true } := by
        simp [Dma.ftCtl, Ft.ctl, hs, herr, hdk]
      obtain ⟨-, hofen, hmx', hebmx', hbram'⟩ :=
        Dma.source_waits (i := i) hmx0 hgranted.ebmx hbram0 (by rw [hctl])
      refine Dma.Goes.address hk hq (hgranted.address hact (by rw [hctl]) (by rw [hctl])) ?_
      exact hact.abort hi hplain hmore (by rw [hctl]) (by rw [hctl]) (Or.inl hofen)
        ⟨hebmx', Or.inl ⟨hmx', hbram'⟩⟩
  | false =>
    cases hdk : i.dk with
    | true =>
      exact Dma.Stage.adr1_answered hi hk hq hs hplain hact hmore hgranted hmx0 hbram0 herr hdk
    | false =>
      exact Dma.Stage.adr1_waits hi hk hq hs hplain hact hmore hgranted hmx0 hbram0 herr hdk

end Step

end VPcie.Ebone
