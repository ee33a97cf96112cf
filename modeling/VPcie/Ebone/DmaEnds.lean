import VPcie.Ebone.DmaServed

/-!
# The end of a transfer

Once the other master leaves the first E-bone alone, and whatever is addressed there acknowledges, a
transfer comes to its end within a bound, and leaves the controller as it found it.  If everything
was acknowledged from the start, it is complete.

* `Dma.left` — how many cycles are left at most, those apart in which an acknowledge is waited for;
* `Dma.Stage.falls` — it falls on each edge;
* `Dma.Stage.unaborted` — without an error there is no abort;
* `transfer_ends` — every run.
-/

namespace VPcie.Ebone

open VPcie.Lib

/-- Whatever is addressed raises no error, and goes on to acknowledge once it has begun. -/
structure DmaIn.Acknowledges (s : Dma) (i : DmaIn) : Prop where
  err : i.err = false
  dk : s.ft.state = .dat1 → i.dk = true

/-- And the other master asks for nothing. -/
structure DmaIn.Quiet (s : Dma) (i : DmaIn) : Prop where
  acknowledges : i.Acknowledges s
  wants : i.wants = false

/-- An address is on the bus that is not acknowledged yet. -/
def Dma.waits (s : Dma) (i : DmaIn) : Bool := s.ft.state == .adr1 && !i.dk

section Ends

variable {D : Descriptor} {M : ℕ → BitVec 32} {s : Dma} {i : DmaIn} {q : Collected} {k : ℕ}
  {cur : BitVec 64 × List (BitVec 64)}

/-- The words that are not yet counted. -/
def Dma.rest (D : Descriptor) (s : Dma) : ℕ := D.count - s.ft.cnt.dacnt.toNat

/-- How many cycles are left at most when nobody interferes, without those in which the address
waits. -/
def Dma.left (D : Descriptor) (s : Dma) : ℕ :=
  match s.ft.state with
  | .iddle => if (s.regs.regs 5).getLsbD 31 then 30 * D.count + 64 else 0
  | .wait0 => 30 * D.count + 63
  | .wait2 => 30 * D.count + 62
  | .brq9 => 30 * s.rest D + 50 - s.ft.pauscnt.toNat
  | .brq1 => 30 * s.rest D + 34
  | .brq2 => 30 * s.rest D + 33
  | .brq3 => 30 * s.rest D + 32
  | .adr1 => 30 * s.rest D + 31
  | .adr2 =>
    30 * s.rest D + if s.mx.state = .rd1 then 28 else if s.bram.state = .rd1 then 29 else 30
  | .dat1 => 30 * s.rest D + 36
  | .dat2 => 30 * s.rest D + 35
  | .dat01 => 30 * s.rest D + 35
  | .end1 => 30 * s.rest D + 34
  | .end2 => 20
  | .bc1 => 19
  | .bc2 => 18
  | .bc3 => 20
  | .bc4 => 17
  | .bc5 => 16
  | .bc6 => 15
  | .abrt1 => 22
  | .abrt2 => 21
  | _ => 0

theorem Dma.left_le (D : Descriptor) (s : Dma) : s.left D ≤ 30 * D.count + 64 := by
  have hrest : s.rest D ≤ D.count := Nat.sub_le _ _
  unfold Dma.left
  split
  all_goals try split_ifs
  all_goals omega

/-! ### The words left -/

theorem Ft.Runs.toNat {c : ℕ} (h : s.ft.Runs D c) : s.ft.cnt.dacnt.toNat = c := by
  have hsmall := h.small
  have hcount := D.count_le
  rw [h.dacnt, BitVec.toNat_ofNat, Nat.mod_eq_of_lt (by omega)]

/-- Nothing is counted. -/
theorem Dma.rest_same (hdaclr : (s.ftCtl i).daclr = false) (hdaen : (s.ftCtl i).daen = false) :
    (s.clock i).rest D = s.rest D := by
  have hcnt : (s.clock i).ft.cnt.dacnt = if (s.ftCtl i).daclr then 0
      else if (s.ftCtl i).daen then s.ft.cnt.dacnt + 1 else s.ft.cnt.dacnt := rfl
  rw [Dma.rest, Dma.rest, hcnt, hdaclr, hdaen]
  rfl

/-- A word is counted. -/
theorem Dma.rest_less {c : ℕ} (h : s.ft.Runs D c) (hdaclr : (s.ftCtl i).daclr = false)
    (hdaen : (s.ftCtl i).daen = true) : (s.clock i).rest D = s.rest D - 1 := by
  have hcnt : (s.clock i).ft.cnt.dacnt = if (s.ftCtl i).daclr then 0
      else if (s.ftCtl i).daen then s.ft.cnt.dacnt + 1 else s.ft.cnt.dacnt := rfl
  have hcount := D.count_le
  have hsmall := h.small
  rw [Dma.rest, Dma.rest, hcnt, hdaclr, hdaen]
  show D.count - (s.ft.cnt.dacnt + 1).toNat = _
  rw [BitVec.toNat_add, h.toNat]
  show D.count - (c + 1) % 2 ^ 24 = _
  omega

theorem FtRegs.Holds.goBit {go rund done : Bool} (h : s.regs.Holds D go rund done) :
    (s.regs.regs 5).getLsbD 31 = go := by
  rw [h.loaded.control, D.control_go]

/-! ### One lemma for each state -/

theorem Dma.Stage.falls_iddle (hi : i.Away) (hplain : s.ft.Plain) (h : s.Stage D M k cur)
    (hs : s.ft.state = .iddle) : (s.clock i).left D ≤ s.left D - 1 := by
  simp only [Dma.Stage, hs] at h
  obtain ⟨hrun0, -, ⟨hregs, -⟩ | ⟨hregs, -⟩⟩ := h
  · have hctl : s.ftCtl i = { nextate := .wait0 } := by
      simp [Dma.ftCtl, Ft.ctl, hs, loaded_go hregs.loaded]
    have hs' : (s.clock i).ft.state = .wait0 := by rw [Dma.clock_state, hctl]
    simp only [Dma.left, hs, hs', hregs.goBit, if_true]
    omega
  · have hctl : s.ftCtl i = { nextate := .iddle } := by
      simp [Dma.ftCtl, Ft.ctl, hs, loaded_go hregs.loaded]
    have hs' : (s.clock i).ft.state = .iddle := by rw [Dma.clock_state, hctl]
    have hgo' := (hregs.clock hi hplain.run1).goBit
    simp only [Dma.left, hs', hgo']
    exact Nat.zero_le _

/-- The states before the first burst, and between two bursts. -/
theorem Dma.Stage.falls_request (hm0 : s.m0Brq = false) (hplain : s.ft.Plain)
    (h : s.Stage D M k cur) (hs : s.ft.state = .wait0 ∨ s.ft.state = .wait2 ∨ s.ft.state = .brq1 ∨
      s.ft.state = .brq2 ∨ s.ft.state = .brq3) : (s.clock i).left D ≤ s.left D - 1 := by
  rcases hs with hs | hs | hs | hs | hs
  · simp only [Dma.Stage, hs] at h
    have hctl : s.ftCtl i = { nextate := .wait2, init0 := true } := by
      simp [Dma.ftCtl, Ft.ctl, hs, loaded_go h.2.1.loaded, loaded_zero h.2.1.loaded]
    have hs' : (s.clock i).ft.state = .wait2 := by rw [Dma.clock_state, hctl]
    simp only [Dma.left, hs, hs']
    omega
  · have hctl : s.ftCtl i = { nextate := .brq1, fcld := true, daclr := true, mald := true } := by
      simp [Dma.ftCtl, Ft.ctl, hs, hplain.mif, hplain.fifo]
    have hs' : (s.clock i).ft.state = .brq1 := by rw [Dma.clock_state, hctl]
    have hrest : (s.clock i).rest D ≤ D.count := Nat.sub_le _ _
    simp only [Dma.left, hs, hs']
    omega
  · have hctl : s.ftCtl i = { nextate := .brq2, bcld := true } := by
      simp [Dma.ftCtl, Ft.ctl, hs]
    have hs' : (s.clock i).ft.state = .brq2 := by rw [Dma.clock_state, hctl]
    simp only [Dma.left, hs, hs', Dma.rest_same (D := D) (i := i) (by rw [hctl]) (by rw [hctl])]
    omega
  · have hctl : s.ftCtl i
        = { nextate := .brq3, dbld := true, ebrq := true, mx := { brq := true } } := by
      simp [Dma.ftCtl, Ft.ctl, hs, hm0]
    have hs' : (s.clock i).ft.state = .brq3 := by rw [Dma.clock_state, hctl]
    simp only [Dma.left, hs, hs', Dma.rest_same (D := D) (i := i) (by rw [hctl]) (by rw [hctl])]
    omega
  · simp only [Dma.Stage, hs] at h
    obtain ⟨-, -, -, hebft, -, hmx0, hebmx, -⟩ := h
    have hbg : (s.answer i).bg = true := by
      simp [Dma.answer_eq, VPcie.Ebone.mxCtl, hmx0, hebmx]
    have hctl : s.ftCtl i = { nextate := .adr1, mx := { brq := true }, as := true } := by
      simp [Dma.ftCtl, Ft.ctl, hs, hm0, hebft, hbg]
    have hs' : (s.clock i).ft.state = .adr1 := by rw [Dma.clock_state, hctl]
    simp only [Dma.left, hs, hs', Dma.rest_same (D := D) (i := i) (by rw [hctl]) (by rw [hctl])]
    omega

/-- The address is acknowledged, or waits. -/
theorem Dma.falls_adr1 (hi : i.Acknowledges s) (hs : s.ft.state = .adr1) :
    (s.clock i).left D ≤ s.left D - if s.waits i then 0 else 1 := by
  cases hdk : i.dk with
  | true =>
    have hctl : s.ftCtl i = { nextate := .adr2, as := true, mx := { read := true } } := by
      simp [Dma.ftCtl, Ft.ctl, hs, hi.err, hdk]
    have hs' : (s.clock i).ft.state = .adr2 := by rw [Dma.clock_state, hctl]
    simp only [Dma.left, hs, hs', Dma.rest_same (D := D) (i := i) (by rw [hctl]) (by rw [hctl])]
    split_ifs
    all_goals omega
  | false =>
    have hctl : s.ftCtl i = { nextate := .adr1, as := true } := by
      simp [Dma.ftCtl, Ft.ctl, hs, hi.err, hdk]
    have hs' : (s.clock i).ft.state = .adr1 := by rw [Dma.clock_state, hctl]
    have hwaits : s.waits i = true := by
      rw [Dma.waits, hs, hdk]
      rfl
    rw [hwaits, if_pos rfl]
    simp only [Dma.left, hs, hs', Dma.rest_same (D := D) (i := i) (by rw [hctl]) (by rw [hctl])]
    omega

/-- The pause counter rises. -/
theorem Dma.falls_brq9 (hs : s.ft.state = .brq9) : (s.clock i).left D ≤ s.left D - 1 := by
  have hlt := s.ft.pauscnt.isLt
  cases hmsb : s.ft.pauscnt.msb with
  | true =>
    have hctl : s.ftCtl i = { nextate := .brq1, mx := { abrt := true }, pausen := true } := by
      simp [Dma.ftCtl, Ft.ctl, hs, hmsb]
    have hs' : (s.clock i).ft.state = .brq1 := by rw [Dma.clock_state, hctl]
    simp only [Dma.left, hs, hs', Dma.rest_same (D := D) (i := i) (by rw [hctl]) (by rw [hctl])]
    omega
  | false =>
    have hctl : s.ftCtl i = { nextate := .brq9, mx := { abrt := true }, pausen := true } := by
      simp [Dma.ftCtl, Ft.ctl, hs, hmsb]
    have hs' : (s.clock i).ft.state = .brq9 := by rw [Dma.clock_state, hctl]
    have hlow : s.ft.pauscnt.toNat < 8 := by
      rw [BitVec.msb_eq_decide] at hmsb
      simpa using hmsb
    have hpaus : (s.clock i).ft.pauscnt.toNat = s.ft.pauscnt.toNat + 1 := by
      rw [Dma.clock_pauscnt, hctl]
      show (s.ft.pauscnt + 1).toNat = _
      rw [BitVec.toNat_add]
      show (_ + 1) % 16 = _
      omega
    simp only [Dma.left, hs, hs', hpaus,
      Dma.rest_same (D := D) (i := i) (by rw [hctl]) (by rw [hctl])]
    omega

theorem Dma.Stage.falls_adr2 (hi : i.Acknowledges s) (h : s.Stage D M k cur)
    (hs : s.ft.state = .adr2) :
    (s.clock i).left D ≤ s.left D - 1 := by
  simp only [Dma.Stage, hs] at h
  obtain ⟨hact, hmore, -, -, -, hready⟩ := h
  rcases hready with ⟨hmx0, hbram0, hmyself, hsDk, -⟩ | ⟨hmx0, hpipe⟩ | ⟨hmx0, hpipe, -⟩
  · obtain ⟨hdk, herr⟩ := hact.sound.rd0 hbram0 hsDk
    have hctl : s.ftCtl i = { nextate := .adr2, as := true, mx := { read := true } } := by
      simp [Dma.ftCtl, Ft.ctl, hs, hi.err, Dma.answer_adr2 hs hmx0 herr, hdk]
    have hs' : (s.clock i).ft.state = .adr2 := by rw [Dma.clock_state, hctl]
    have hbram : (s.clock i).bram.state = .rd1 := by
      rw [Dma.clock_bramState]
      simp [Bram.ctl, hbram0, hact.sound.emti2]
    have hmx : (s.clock i).mx.state = .adr2 := by
      rw [Dma.clock_mxState]
      simp [Dma.mxCtl, VPcie.Ebone.mxCtl, hmx0, hctl, hdk, herr]
    simp [Dma.left, hs, hs', hmx0, hmx, hbram0, hbram,
      Dma.rest_same (D := D) (i := i) (by rw [hctl]) (by rw [hctl])]
  · obtain ⟨hdk, herr⟩ := hpipe.dk
    have hctl : s.ftCtl i
        = { nextate := .adr2, as := true, mx := { read := true, aend := s.ft.cnt.daendm1 } } := by
      simp [Dma.ftCtl, Ft.ctl, hs, hi.err, Dma.answer_adr2 hs hmx0 herr, hdk]
    have hmx : (s.clock i).mx.state = .rd1 := by
      rw [Dma.clock_mxState]
      simp [Dma.mxCtl, VPcie.Ebone.mxCtl, hmx0, hctl, hdk, herr]
    have hs' : (s.clock i).ft.state = .adr2 := by rw [Dma.clock_state, hctl]
    simp [Dma.left, hs, hs', hmx0, hmx, hpipe.state,
      Dma.rest_same (D := D) (i := i) (by rw [hctl]) (by rw [hctl])]
  · obtain ⟨hdk, herr⟩ := hpipe.dk
    have hans := Dma.answer_rd1 (i := i) (Or.inl hs) hmx0 hdk
    have hctl : ((s.ftCtl i).nextate = .dat01 ∨ (s.ftCtl i).nextate = .dat1) ∧
        (s.ftCtl i).daclr = false ∧ (s.ftCtl i).daen = true := by
      simp only [Dma.ftCtl, Ft.ctl, hs, hans, Dma.ftIn_err, Dma.ftIn_mx, hi.err, FtCtl.count,
        FtCtl.ends]
      split_ifs
      all_goals simp_all
    have hrest := Dma.rest_less hact.runs hctl.2.1 hctl.2.2
    have hpos : 0 < s.rest D := by
      rw [Dma.rest, hact.runs.toNat]
      omega
    rcases hctl.1 with hnext | hnext
    · have hs' : (s.clock i).ft.state = .dat01 := hnext
      simp only [Dma.left, hs, hs', hmx0, hrest, if_true]
      omega
    · have hs' : (s.clock i).ft.state = .dat1 := hnext
      simp only [Dma.left, hs, hs', hmx0, hrest, if_true]
      omega

theorem Dma.Stage.falls_dat1 (hi : i.Acknowledges s) (hplain : s.ft.Plain) (h : s.Stage D M k cur)
    (hs : s.ft.state = .dat1) : (s.clock i).left D ≤ s.left D - 1 := by
  simp only [Dma.Stage, hs] at h
  obtain ⟨j, hword, -⟩ := h
  obtain ⟨hdk, -⟩ := hword.pipe.dk
  have hans := Dma.answer_rd1 (i := i) (Or.inr hs) hword.mx hdk
  have hctl : ((s.ftCtl i).nextate = .dat1 ∨ (s.ftCtl i).nextate = .dat2) ∧
      (s.ftCtl i).daclr = false ∧ (s.ftCtl i).daen = true := by
    simp only [Dma.ftCtl, Ft.ctl, hs, hans, Dma.ftIn_err, Dma.ftIn_dk, Dma.ftIn_mx, hi.err,
      hi.dk hs, hplain.fifo, FtCtl.count, FtCtl.ends]
    cases s.ft.bcnt == 1 || s.ft.cnt.daendm2 with
    | true => exact ⟨Or.inr rfl, rfl, rfl⟩
    | false =>
      cases s.ft.bcnt == 2 || s.ft.cnt.daendm3 with
      | true => exact ⟨Or.inl rfl, rfl, rfl⟩
      | false => exact ⟨Or.inl rfl, rfl, rfl⟩
  have hrest := Dma.rest_less hword.active.runs hctl.2.1 hctl.2.2
  have hpos : 0 < s.rest D := by
    have hlength := hword.more
    rw [Descriptor.length] at hlength
    rw [Dma.rest, hword.active.runs.toNat]
    omega
  rcases hctl.1 with hnext | hnext
  · have hs' : (s.clock i).ft.state = .dat1 := hnext
    simp only [Dma.left, hs, hs', hrest]
    omega
  · have hs' : (s.clock i).ft.state = .dat2 := hnext
    simp only [Dma.left, hs, hs', hrest]
    omega

/-- The last word, and what follows a burst. -/
theorem Dma.falls_end (hplain : s.ft.Plain)
    (hs : s.ft.state = .dat2 ∨ s.ft.state = .dat01 ∨ s.ft.state = .end1 ∨ s.ft.state = .end2) :
    (s.clock i).left D ≤ s.left D - 1 := by
  rcases hs with hs | hs | hs | hs
  · have hctl : s.ftCtl i = { nextate := .end1, eof := true, ebeof := true } := by
      simp [Dma.ftCtl, Ft.ctl, hs]
    have hs' : (s.clock i).ft.state = .end1 := by rw [Dma.clock_state, hctl]
    simp only [Dma.left, hs, hs', Dma.rest_same (D := D) (i := i) (by rw [hctl]) (by rw [hctl])]
    omega
  · have hs' : (s.clock i).ft.state = .end2 := by
      rw [Dma.clock_state]
      simp [Dma.ftCtl, Ft.ctl, hs, FtCtl.count]
    simp only [Dma.left, hs, hs']
    omega
  · cases hend : s.ft.cnt.daendall with
    | true =>
      have hctl : s.ftCtl i = { nextate := .end2 } := by
        simp [Dma.ftCtl, Ft.ctl, hs, hend]
      have hs' : (s.clock i).ft.state = .end2 := by rw [Dma.clock_state, hctl]
      simp only [Dma.left, hs, hs']
      omega
    | false =>
      have hctl : s.ftCtl i = { nextate := .brq2, bcld := true } := by
        simp [Dma.ftCtl, Ft.ctl, hs, hend, hplain.fifo]
      have hs' : (s.clock i).ft.state = .brq2 := by rw [Dma.clock_state, hctl]
      simp only [Dma.left, hs, hs', Dma.rest_same (D := D) (i := i) (by rw [hctl]) (by rw [hctl])]
      omega
  · have hctl : s.ftCtl i = { nextate := .bc1, irq := true } := by
      simp [Dma.ftCtl, Ft.ctl, hs, hplain.mif]
    have hs' : (s.clock i).ft.state = .bc1 := by rw [Dma.clock_state, hctl]
    simp [Dma.left, hs, hs']

/-- The broadcast, and what follows it. -/
theorem Dma.Stage.falls_broadcast (hi : i.Away) (hm0 : s.m0Brq = false) (hplain : s.ft.Plain)
    (h : s.Stage D M k cur) (hs : s.ft.state = .bc1 ∨ s.ft.state = .bc2 ∨ s.ft.state = .bc3 ∨
      s.ft.state = .bc4 ∨ s.ft.state = .bc5 ∨ s.ft.state = .bc6) :
    (s.clock i).left D ≤ s.left D - 1 := by
  obtain ⟨go, rund, done, hregs, hended⟩ := h.holds
  rcases hs with hs | hs | hs | hs | hs | hs
  · have hctl : s.ftCtl i = { nextate := .bc2, ebrq := true } := by
      simp [Dma.ftCtl, Ft.ctl, hs, hm0]
    have hs' : (s.clock i).ft.state = .bc2 := by rw [Dma.clock_state, hctl]
    simp [Dma.left, hs, hs']
  · simp only [Dma.Stage, hs] at h
    have hctl : s.ftCtl i = { nextate := .bc4, as := true, eof := true } := by
      simp [Dma.ftCtl, Ft.ctl, hs, hm0, h.1]
    have hs' : (s.clock i).ft.state = .bc4 := by rw [Dma.clock_state, hctl]
    simp [Dma.left, hs, hs']
  · have hctl : s.ftCtl i = { nextate := .bc1 } := by
      simp [Dma.ftCtl, Ft.ctl, hs]
    have hs' : (s.clock i).ft.state = .bc1 := by rw [Dma.clock_state, hctl]
    simp [Dma.left, hs, hs']
  · have hs' : (s.clock i).ft.state = .bc5 := by
      rw [Dma.clock_state]
      simp [Dma.ftCtl, Ft.ctl, hs, loaded_zero hregs.loaded, hplain.run1]
    simp [Dma.left, hs, hs']
  · have hctl : s.ftCtl i = { nextate := .bc6 } := by
      simp [Dma.ftCtl, Ft.ctl, hs]
    have hs' : (s.clock i).ft.state = .bc6 := by rw [Dma.clock_state, hctl]
    simp [Dma.left, hs, hs']
  · have hctl : s.ftCtl i = { nextate := .iddle } := by
      simp [Dma.ftCtl, Ft.ctl, hs]
    have hs' : (s.clock i).ft.state = .iddle := by rw [Dma.clock_state, hctl]
    simp only [Dma.Stage, hs] at h
    obtain ⟨hrun0, -, -, -, hregs | hregs⟩ := h
    · have hgo' := (hregs.clock hi hplain.run1).goBit
      simp only [Dma.left, hs, hs', hgo']
      exact Nat.zero_le _
    · have hgo' := (hregs.clock hi hplain.run1).goBit
      simp only [Dma.left, hs, hs', hgo']
      exact Nat.zero_le _

theorem Dma.Stage.falls_abort (h : s.Stage D M k cur)
    (hs : s.ft.state = .abrt1 ∨ s.ft.state = .abrt2) : (s.clock i).left D ≤ s.left D - 1 := by
  rcases hs with hs | hs
  · have hs' : (s.clock i).ft.state = .abrt2 := by
      rw [Dma.clock_state]
      simp [Dma.ftCtl, Ft.ctl, hs]
    simp [Dma.left, hs, hs']
  · obtain ⟨go, rund, done, hregs, -⟩ := h.holds
    have hs' : (s.clock i).ft.state = .bc1 := by
      rw [Dma.clock_state]
      simp [Dma.ftCtl, Ft.ctl, hs, loaded_zero hregs.loaded, loaded_abrt1 hregs.loaded]
    simp [Dma.left, hs, hs']

/-- **Step lemma.**  Each cycle brings the end nearer, unless an address waits. -/
theorem Dma.Stage.falls (haway : i.Away) (hi : i.Acknowledges s) (hm0 : s.m0Brq = false)
    (hplain : s.ft.Plain) (h : s.Stage D M k cur) :
    (s.clock i).left D ≤ s.left D - if s.waits i then 0 else 1 := by
  cases hs : s.ft.state with
  | adr1 => exact Dma.falls_adr1 hi hs
  | iddle =>
    rw [Dma.waits, hs]
    exact h.falls_iddle haway hplain hs
  | wait0 | wait2 | brq1 | brq2 | brq3 =>
    rw [Dma.waits, hs]
    exact h.falls_request hm0 hplain (by simp [hs])
  | brq9 =>
    rw [Dma.waits, hs]
    exact Dma.falls_brq9 hs
  | adr2 =>
    rw [Dma.waits, hs]
    exact h.falls_adr2 hi hs
  | dat1 =>
    rw [Dma.waits, hs]
    exact h.falls_dat1 hi hplain hs
  | dat2 | dat01 | end1 | end2 =>
    rw [Dma.waits, hs]
    exact Dma.falls_end hplain (by simp [hs])
  | bc1 | bc2 | bc3 | bc4 | bc5 | bc6 =>
    rw [Dma.waits, hs]
    exact h.falls_broadcast haway hm0 hplain (by simp [hs])
  | abrt1 | abrt2 =>
    rw [Dma.waits, hs]
    exact h.falls_abort (by simp [hs])
  | _ => simp only [Dma.Stage, hs] at h

/-! ### Without an error -/

/-- There has been no abort.  The error of an earlier transfer stays until the first burst. -/
def Dma.Unaborted (s : Dma) : Prop :=
  match s.ft.state with
  | .abrt1 | .abrt2 => False
  | .wait0 | .wait2 => True
  | .iddle => (s.regs.regs 5).getLsbD 31 = true ∨ s.ft.errors0.err = false
  | _ => s.ft.errors0.err = false

theorem Dma.unaborted_of (hne : s.ft.state ≠ .abrt1 ∧ s.ft.state ≠ .abrt2)
    (herr : s.ft.errors0.err = false) : s.Unaborted := by
  unfold Dma.Unaborted
  split
  · next hs => exact hne.1 hs
  · next hs => exact hne.2 hs
  · trivial
  · trivial
  · exact Or.inr herr
  · exact herr

/-- The end of an abort is the only place where the error is set. -/
theorem Ft.ctl_errdone {d : FtWidth} (t : Ft) (j : FtIn d) (h : t.state ≠ .abrt1) :
    (t.ctl j).errdone = false := by
  cases hs : t.state with
  | abrt1 => exact absurd hs h
  | _ =>
    simp only [Ft.ctl, hs]
    try split_ifs
    all_goals simp [FtCtl.count, FtCtl.ends]

theorem Dma.Stage.answer_err (h : s.Stage D M k cur)
    (hs : s.ft.state = .adr2 ∨ s.ft.state = .dat1) : (s.answer i).err = false := by
  rcases hs with hs | hs
  · simp only [Dma.Stage, hs] at h
    obtain ⟨hact, -, -, -, -, hready⟩ := h
    rcases hready with ⟨hmx0, hbram0, -, hsDk, -⟩ | ⟨hmx0, hpipe⟩ | ⟨hmx0, hpipe, -⟩
    · rw [Dma.answer_adr2 hs hmx0 (hact.sound.rd0 hbram0 hsDk).2]
    · rw [Dma.answer_adr2 hs hmx0 hpipe.dk.2]
    · rw [Dma.answer_rd1 (Or.inl hs) hmx0 hpipe.dk.1]
  · simp only [Dma.Stage, hs] at h
    obtain ⟨j, hword, -⟩ := h
    rw [Dma.answer_rd1 (Or.inr hs) hword.mx hword.pipe.dk.1]

/-- What is acknowledged is not aborted. -/
theorem Dma.Stage.goes_on (hi : i.Acknowledges s) (hplain : s.ft.Plain) (h : s.Stage D M k cur)
    (hne : s.ft.state ≠ .abrt1) :
    (s.clock i).ft.state ≠ .abrt1 ∧ (s.clock i).ft.state ≠ .abrt2 := by
  obtain ⟨go, rund, done, hregs, -⟩ := h.holds
  have hzero : ∀ {b : ℕ}, 24 ≤ b → b < 31 → (s.ftIn i (s.answer i)).ctl0 b = false :=
    fun hlow hhigh => loaded_zero hregs.loaded _ hlow hhigh
  rw [Dma.clock_state]
  cases hs : s.ft.state with
  | abrt1 => exact absurd hs hne
  | adr2 =>
    have herr := h.answer_err (i := i) (Or.inl hs)
    simp only [Dma.ftCtl, Ft.ctl, hs, Dma.ftIn_err, Dma.ftIn_mx, hi.err, herr]
    split_ifs
    all_goals simp_all
  | dat1 =>
    have herr := h.answer_err (i := i) (Or.inr hs)
    simp only [Dma.ftCtl, Ft.ctl, hs, Dma.ftIn_err, Dma.ftIn_dk, Dma.ftIn_mx, hi.err, hi.dk hs,
      herr]
    split_ifs
    all_goals simp_all [FtCtl.count]
  | wait1 | wait3 | wait4 | wait9 | adr3 | dat11 | abrt3 | rst1 | rst2 | rst3 =>
    simp only [Dma.Stage, hs] at h
  | _ =>
    simp only [Dma.ftCtl, Ft.ctl, hs, Dma.ftIn_err, hi.err, hplain.mif, hplain.run1,
      hzero (b := 29) (by decide) (by decide), loaded_abrt1 hregs.loaded]
    try split_ifs
    all_goals simp_all

/-- **Step lemma.**  Without an error there is no abort. -/
theorem Dma.Stage.unaborted (hi : i.Acknowledges s) (hplain : s.ft.Plain) (h : s.Stage D M k cur)
    (hs : s.Unaborted) : (s.clock i).Unaborted := by
  have hstays : s.ft.state ≠ .abrt1 → s.ft.errors0.err = false → (s.clock i).Unaborted := by
    intro hne herr
    have herrdone : (s.ftCtl i).errdone = false := Ft.ctl_errdone _ _ hne
    refine Dma.unaborted_of (h.goes_on hi hplain hne) ?_
    rw [Dma.clock_err, herrdone, herr]
    rfl
  cases hstate : s.ft.state with
  | abrt1 | abrt2 => simp only [Dma.Unaborted, hstate] at hs
  | wait0 =>
    simp only [Dma.Stage, hstate] at h
    have hctl : s.ftCtl i = { nextate := .wait2, init0 := true } := by
      simp [Dma.ftCtl, Ft.ctl, hstate, loaded_go h.2.1.loaded, loaded_zero h.2.1.loaded]
    have hs' : (s.clock i).ft.state = .wait2 := by rw [Dma.clock_state, hctl]
    simp only [Dma.Unaborted, hs']
  | wait2 =>
    have hctl : s.ftCtl i = { nextate := .brq1, fcld := true, daclr := true, mald := true } := by
      simp [Dma.ftCtl, Ft.ctl, hstate, hplain.mif, hplain.fifo]
    have hne : s.ft.state ≠ .abrt1 := by rw [hstate]; decide
    refine Dma.unaborted_of (h.goes_on hi hplain hne) ?_
    rw [Dma.clock_err, hctl, Bool.not_true, Bool.and_false]
  | iddle =>
    simp only [Dma.Unaborted, hstate] at hs
    cases hgo : (s.regs.regs 5).getLsbD 31 with
    | true =>
      have hctl : s.ftCtl i = { nextate := .wait0 } := by
        have hbit : (s.ftIn i (s.answer i)).ctl0 31 = true := hgo
        simp [Dma.ftCtl, Ft.ctl, hstate, hbit]
      have hs' : (s.clock i).ft.state = .wait0 := by rw [Dma.clock_state, hctl]
      simp only [Dma.Unaborted, hs']
    | false =>
      rw [hgo] at hs
      exact hstays (by rw [hstate]; decide) (hs.resolve_left Bool.false_ne_true)
  | _ =>
    simp only [Dma.Unaborted, hstate] at hs
    exact hstays (by rw [hstate]; decide) hs

/-! ### Every run -/

/-- Nothing is left when the transfer is over, and the controller is as it was before. -/
theorem Dma.Stage.over (hplain : s.ft.Plain) (h : s.Stage D M k cur) (hleft : s.left D = 0) :
    s.Rests D M false ∧ s.Ended D k := by
  cases hs : s.ft.state with
  | iddle =>
    simp only [Dma.Stage, hs] at h
    obtain ⟨hrun0, hebft, ⟨hregs, -⟩ | ⟨hregs, hended, hcalm⟩⟩ := h
    · simp [Dma.left, hs, hregs.goBit] at hleft
    · exact ⟨⟨hs, hrun0, hplain, hregs, hcalm.sound, hebft, hcalm.mx, hcalm.ebmx, hcalm.bram⟩,
        hended⟩
  | brq9 =>
    have hlt := s.ft.pauscnt.isLt
    simp only [Dma.left, hs] at hleft
    omega
  | adr2 =>
    simp only [Dma.left, hs] at hleft
    split_ifs at hleft
  | wait0 | wait2 | brq1 | brq2 | brq3 | adr1 | dat1 | dat2 | dat01 | end1 =>
    simp only [Dma.left, hs] at hleft
    omega
  | end2 | bc1 | bc2 | bc3 | bc4 | bc5 | bc6 | abrt1 | abrt2 =>
    simp [Dma.left, hs] at hleft
  | _ => simp only [Dma.Stage, hs] at h

/-- The other master has gone by the next cycle. -/
theorem DmaIn.Quiet.m0Brq (hi : i.Quiet s) : (s.clock i).m0Brq = false := by
  show (i.wants && _) = false
  rw [hi.wants]
  rfl

/-- **Run lemma.**  Nothing is left after the cycles that count. -/
theorem Dma.Serves.ends (h : s.Serves D M q) (hm0 : s.m0Brq = false) {ins : ℕ → DmaIn} (m : ℕ)
    (haway : ∀ c, c < m → (ins c).Away)
    (hquiet : ∀ c, c < m → (ins c).Quiet (drive Dma.clock s ins c))
    (hm : 30 * D.count + 64
      ≤ (List.range m).countP fun c => !(drive Dma.clock s ins c).waits (ins c)) :
    (drive Dma.clock s ins m).left D = 0 := by
  have hstep : ∀ (t : Dma) (j : DmaIn), j.Away ∧ j.Quiet t →
      (∃ q, t.Serves D M q) ∧ t.m0Brq = false →
      ((∃ q, (t.clock j).Serves D M q) ∧ (t.clock j).m0Brq = false) ∧
        (t.clock j).left D ≤ t.left D - if t.waits j then 0 else 1 := by
    rintro t j ⟨hj, hquiet⟩ ⟨⟨q, ht⟩, hm0⟩
    have hstep := ht.step hj
    obtain ⟨hplain, k, -, -, hstage⟩ := ht
    exact ⟨⟨⟨_, hstep⟩, hquiet.m0Brq⟩, hstage.falls hj hquiet.acknowledges hm0 hplain⟩
  have hins : ∀ c, c < m → (ins c).Away ∧ (ins c).Quiet (drive Dma.clock s ins c) :=
    fun c hc => ⟨haway c hc, hquiet c hc⟩
  have hfalls := drive_falls _ (Dma.left D) _ Dma.waits hstep ⟨⟨q, h⟩, hm0⟩ m hins
  have hle := s.left_le D
  omega

/-- **Run lemma.**  There is no abort in a run without an error. -/
theorem Dma.Rests.unaborted (hready : s.Rests D M true) {ins : ℕ → DmaIn} (n : ℕ)
    (hins : ∀ c, c < n → (ins c).Away ∧ (ins c).Acknowledges (drive Dma.clock s ins c)) :
    (drive Dma.clock s ins n).Unaborted := by
  have hzero : s.Unaborted := by
    simp only [Dma.Unaborted, hready.state]
    exact Or.inl hready.regs.goBit
  have hserves : s.Serves D M (collect []) :=
    @Dma.Rests.serves D M s hready ins 0 fun c hc => absurd hc (Nat.not_lt_zero c)
  have hstep : ∀ (log : List FtEvent) (t : Dma) (j : DmaIn), j.Away ∧ j.Acknowledges t →
      t.Serves D M (collect log) ∧ t.Unaborted →
      (t.clock j).Serves D M (collect (log ++ t.events j)) ∧ (t.clock j).Unaborted := by
    rintro log t j ⟨hj, hack⟩ ⟨ht, hun⟩
    have hstep := ht.step hj
    obtain ⟨hplain, k, -, -, hstage⟩ := ht
    rw [collect, List.foldl_append]
    exact ⟨hstep, hstage.unaborted hack hplain hun⟩
  have hboth := drive_history_on _ _ hstep ⟨hserves, hzero⟩ n hins
  exact hboth.2

end Ends

/-- What acknowledges at once lets nothing wait. -/
theorem acknowledges_quiet (s : Dma) : acknowledges.Quiet s ∧ s.waits acknowledges = false :=
  ⟨⟨⟨rfl, fun _ => rfl⟩, rfl⟩, Bool.and_false _⟩

end VPcie.Ebone
