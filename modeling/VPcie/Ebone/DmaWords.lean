import VPcie.Ebone.DmaRequest

/-!
# The words of a burst

One lemma for each state of the fast transmitter from the address to the end of a burst.  The source
is some cycles ahead: its slave is addressed, then the memory is, and the word comes out of two
registers.
-/

namespace VPcie.Ebone

section Words

variable {D : Descriptor} {M : ℕ → BitVec 32} {s : Dma} {i : DmaIn} {q : Collected} {k : ℕ}

/-! ### The address -/

/-- The slave of the memory is not ready. -/
theorem Dma.Sound.rd0 (h : s.Sound M) (hbram : s.bram.state = .rd0) (hsDk : s.bram.sDk = false) :
    s.mxBus.dk = false ∧ s.mxBus.err = false := by
  refine ⟨?_, ?_⟩
  · show s.bram.dk s.lines0 false = false
    rw [Bram.dk, Bram.fifErr_eq, hsDk, hbram, h.emti2]
    simp
  · show s.bram.err s.lines0 false = false
    rw [Bram.err, Bram.fifErr_eq, hbram, h.emti2]
    simp

theorem Dma.answer_adr2 (hs : s.ft.state = .adr2) (hmx : s.mx.state = .adr2)
    (herr : s.mxBus.err = false) : s.answer i = ⟨false, s.mxBus.dk, false, false⟩ := by
  cases hdk : s.mxBus.dk with
  | true => simp [Dma.answer_eq, VPcie.Ebone.mxCtl, hmx, hdk, herr, Ft.orders, hs]
  | false => simp [Dma.answer_eq, VPcie.Ebone.mxCtl, hmx, hdk, herr, Ft.orders, hs]

theorem Dma.answer_rd1 (hs : s.ft.state = .adr2 ∨ s.ft.state = .dat1) (hmx : s.mx.state = .rd1)
    (hdk : s.mxBus.dk = true) : s.answer i = ⟨false, false, true, false⟩ := by
  rcases hs with hs | hs
  · simp [Dma.answer_eq, VPcie.Ebone.mxCtl, hmx, hdk, Ft.orders, hs]
  · simp [Dma.answer_eq, VPcie.Ebone.mxCtl, hmx, hdk, Ft.orders, hs]

/-- The slave of the memory is addressed. -/
theorem Dma.Stage.adr2_addressed (hi : i.Away) (hk : k ≤ D.bursts) (hq : q.done = D.first M k)
    (hs : s.ft.state = .adr2) (hplain : s.ft.Plain) (hact : s.Active D M (k * D.payload))
    (hmore : k * D.payload < D.count) (hgranted : s.Granted D (k * D.payload))
    (hmx0 : s.mx.state = .adr2) (hbram0 : s.bram.state = .rd0) (hmyself : s.bram.myself = true)
    (hsDk : s.bram.sDk = false) (hofst : s.bram.ofst.toNat = D.src + k * D.payload) :
    s.Goes D M q i := by
  have hinside := D.inside
  obtain ⟨hdk, herr⟩ := hact.sound.rd0 hbram0 hsDk
  have hans : s.answer i = ⟨false, false, false, false⟩ := by
    rw [Dma.answer_adr2 hs hmx0 herr, hdk]
  have hbram : s.bram.ctl (s.lines2 i) false
      = { nextate := .rd1, ofen := true, adk := true, memRd := true } := by
    simp [Bram.ctl, hbram0, hact.sound.emti2]
  have hmsb : s.bram.ofst.msb = false := by
    rw [BitVec.msb_eq_decide, hofst]
    show decide (1024 ≤ _) = false
    exact decide_eq_false (by omega)
  have hcmd : (s.ftCtl i).mx = { read := true } := by
    cases hierr : i.err with
    | true => simp [Dma.ftCtl, Ft.ctl, hs, hierr, hans]
    | false => simp [Dma.ftCtl, Ft.ctl, hs, hierr, hans]
  have hmx : s.mxCtl i = { nextate := .adr2, ebadrs := true } := by
    simp [Dma.mxCtl, VPcie.Ebone.mxCtl, hmx0, hcmd, hdk, herr]
  have hmx' : (s.clock i).mx.state = .adr2 := by rw [Dma.clock_mxState, hmx]
  have hpipe' : (s.clock i).Pipe D (k * D.payload) := by
    refine ⟨?_, ?_, ?_, ?_, ?_⟩
    · rw [Dma.clock_bramState, hbram]
    · simp [Dma.clock, Bram.clock, hbram, hmyself, hact.sound.ovf]
    · simp [Dma.clock, Bram.clock, hbram, hact.sound.ovf]
    · have hnext : (s.clock i).bram.ofst = s.bram.ofst + 1 := by
        simp [Dma.clock, Bram.clock, hbram, hmsb]
      rw [hnext, BitVec.toNat_add, hofst]
      show (_ + 1) % 2048 = _
      omega
    · show ((s.bram.ofst.setWidth 32).setWidth 9).toNat * 2 = _
      rw [BitVec.toNat_setWidth, BitVec.toNat_setWidth, hofst]
      omega
  cases hierr : i.err with
  | true =>
    have hctl : s.ftCtl i
        = { nextate := .abrt1, as := true, adrerr := true, mx := { read := true } } := by
      simp [Dma.ftCtl, Ft.ctl, hs, hierr, hans]
    refine Dma.Goes.address hk hq (hgranted.address hact (by rw [hctl]) (by rw [hctl])) ?_
    refine hact.abort hi hplain hmore (by rw [hctl]) (by rw [hctl]) (Or.inr hmsb)
      (hpipe'.cut (by omega) ?_ (Or.inl hmx'))
    rw [Dma.clock_ebmx, hmx, hgranted.ebmx]
    rfl
  | false =>
    have hctl : s.ftCtl i = { nextate := .adr2, as := true, mx := { read := true } } := by
      simp [Dma.ftCtl, Ft.ctl, hs, hierr, hans]
    have hcounts : (s.ftCtl i).Counts false := by
      rw [hctl]
      exact ⟨rfl, rfl, rfl, rfl, rfl, rfl⟩
    obtain ⟨hact', hnear'⟩ := hact.clock hi hplain hcounts (Or.inr hmsb) hact.runs.small
    refine Dma.Goes.address hk hq (hgranted.address hact (by rw [hctl]) (by rw [hctl])) ?_
    have hs' : (s.clock i).ft.state = .adr2 := by rw [Dma.clock_state, hctl]
    simp only [Dma.Stage, hs']
    refine ⟨hact', hmore, hnear', ?_, trivial, Or.inr (Or.inl ⟨hmx', hpipe'⟩)⟩
    exact hgranted.clock (by rw [hctl]) (by rw [hctl]) (by rw [hctl]) (by rw [hctl])
      (by rw [hctl]) (by rw [hctl]) (by rw [hmx])

/-- The memory is addressed. -/
theorem Dma.Stage.adr2_piped (hi : i.Away) (hk : k ≤ D.bursts) (hq : q.done = D.first M k)
    (hs : s.ft.state = .adr2) (hplain : s.ft.Plain) (hact : s.Active D M (k * D.payload))
    (hmore : k * D.payload < D.count) (hgranted : s.Granted D (k * D.payload))
    (hmx0 : s.mx.state = .adr2) (hpipe : s.Pipe D (k * D.payload)) : s.Goes D M q i := by
  have hinside := D.inside
  obtain ⟨hdk, herr⟩ := hpipe.dk
  have hans : s.answer i = ⟨false, true, false, false⟩ := by
    rw [Dma.answer_adr2 hs hmx0 herr, hdk]
  have hcmd : (s.ftCtl i).mx = { read := true, aend := s.ft.cnt.daendm1 } := by
    cases hierr : i.err with
    | true => simp [Dma.ftCtl, Ft.ctl, hs, hierr, hans]
    | false => simp [Dma.ftCtl, Ft.ctl, hs, hierr, hans]
  have hmx : s.mxCtl i
      = { nextate := .rd1, ebadrs := true, answer := ⟨false, true, false, false⟩ } := by
    simp [Dma.mxCtl, VPcie.Ebone.mxCtl, hmx0, hcmd, hdk, herr]
  have hmx' : (s.clock i).mx.state = .rd1 := by rw [Dma.clock_mxState, hmx]
  obtain ⟨hpipe', hrdData, -, hmsb⟩ :=
    hpipe.clock (i := i) hact.sound (by omega) hgranted.ebmx (by rw [hmx])
  cases hierr : i.err with
  | true =>
    have hctl : s.ftCtl i = { nextate := .abrt1, as := true, adrerr := true, mx :=
        { read := true, aend := s.ft.cnt.daendm1 } } := by
      simp [Dma.ftCtl, Ft.ctl, hs, hierr, hans]
    refine Dma.Goes.address hk hq (hgranted.address hact (by rw [hctl]) (by rw [hctl])) ?_
    refine hact.abort hi hplain hmore (by rw [hctl]) (by rw [hctl]) (Or.inr hmsb)
      (hpipe'.cut (by omega) ?_ (Or.inr hmx'))
    rw [Dma.clock_ebmx, hmx, hgranted.ebmx]
    rfl
  | false =>
    have hctl : s.ftCtl i
        = { nextate := .adr2, as := true, mx := { read := true, aend := s.ft.cnt.daendm1 } } := by
      simp [Dma.ftCtl, Ft.ctl, hs, hierr, hans]
    have hcounts : (s.ftCtl i).Counts false := by
      rw [hctl]
      exact ⟨rfl, rfl, rfl, rfl, rfl, rfl⟩
    obtain ⟨hact', hnear'⟩ := hact.clock hi hplain hcounts (Or.inr hmsb) hact.runs.small
    refine Dma.Goes.address hk hq (hgranted.address hact (by rw [hctl]) (by rw [hctl])) ?_
    have hs' : (s.clock i).ft.state = .adr2 := by rw [Dma.clock_state, hctl]
    simp only [Dma.Stage, hs']
    refine ⟨hact', hmore, hnear', ?_, trivial, Or.inr (Or.inr ⟨hmx', hpipe', hrdData⟩)⟩
    exact hgranted.clock (by rw [hctl]) (by rw [hctl]) (by rw [hctl]) (by rw [hctl])
      (by rw [hctl]) (by rw [hctl]) (by rw [hmx])

/-- A burst has two words at least if two are left. -/
theorem Descriptor.two_le_length (D : Descriptor) {k : ℕ} (h : k * D.payload + 2 ≤ D.count) :
    2 ≤ D.length k := by
  have hfour := Nat.le_of_dvd D.payload_pos D.four_dvd_payload
  rw [Descriptor.length]
  omega

/-- The burst has one word, and it is there. -/
theorem Dma.Stage.adr2_one (hi : i.Away) (hk : k ≤ D.bursts) (hq : q.done = D.first M k)
    (hs : s.ft.state = .adr2) (hplain : s.ft.Plain) (hact : s.Active D M (k * D.payload))
    (hnear : s.ft.Near D (k * D.payload)) (hgranted : s.Granted D (k * D.payload))
    (hmx0 : s.mx.state = .rd1) (hpipe : s.Pipe D (k * D.payload + 1))
    (hrdData : s.mem.rdData = D.fetched M (k * D.payload)) (hierr : i.err = false)
    (hone : D.count = k * D.payload + 1) : s.Goes D M q i := by
  have hinside := D.inside
  have hdk := hpipe.dk.1
  have hans := Dma.answer_rd1 (i := i) (Or.inl hs) hmx0 hdk
  have hm1 : s.ft.cnt.daendm1 = true := by rw [hnear.m1, decide_eq_true hone.le]
  have hctl : s.ftCtl i =
      { nextate := .dat01, as := true, ebdat := true, bcen := true, fcen := true, daen := true,
        maen := true, mx := { read := true, «end» := true }, aef := true } := by
    simp [Dma.ftCtl, Ft.ctl, hs, hierr, hans, hm1, FtCtl.count, FtCtl.ends]
  have hmx : s.mxCtl i = { nextate := .iddle, ebeof := true, eof := true, answer :=
      ⟨false, false, true, false⟩ } := by
    simp [Dma.mxCtl, VPcie.Ebone.mxCtl, hmx0, hctl, hdk]
  obtain ⟨hbram', hdout, hmsb⟩ :=
    hpipe.stop (i := i) (by omega) hgranted.ebmx (by rw [hmx])
  have hcounts : (s.ftCtl i).Counts true := by
    rw [hctl]
    exact ⟨rfl, rfl, rfl, rfl, rfl, rfl⟩
  obtain ⟨hact', -⟩ := hact.clock hi hplain hcounts (Or.inr hmsb)
    (show k * D.payload + 1 ≤ D.count + 1 by omega)
  refine Dma.Goes.address hk hq (hgranted.address hact (by rw [hctl]) (by rw [hctl])) ?_
  have hs' : (s.clock i).ft.state = .dat01 := by rw [Dma.clock_state, hctl]
  simp only [Dma.Stage, hs']
  refine ⟨hone, hact', ⟨?_, ?_, ?_, ?_⟩, trivial, ?_, ?_, hbram'⟩
  · rw [Dma.clock_ebft, hctl, hgranted.ebft]
    rfl
  · exact Dma.clock_m0Brq hgranted.ebft hgranted.m0Brq
  · rw [Dma.clock_ebadrs, hctl, Bool.not_true, Bool.and_false]
  · rw [hdout, hrdData]
  · rw [Dma.clock_mxState, hmx]
  · rw [Dma.clock_ebmx, hmx, Bool.not_true, Bool.and_false]

/-- The first word is there, with the next one right behind it. -/
theorem Dma.Stage.adr2_first (hi : i.Away) (hk : k ≤ D.bursts) (hq : q.done = D.first M k)
    (hs : s.ft.state = .adr2) (hplain : s.ft.Plain) (hact : s.Active D M (k * D.payload))
    (hnear : s.ft.Near D (k * D.payload)) (hgranted : s.Granted D (k * D.payload))
    (hmx0 : s.mx.state = .rd1) (hpipe : s.Pipe D (k * D.payload + 1))
    (hrdData : s.mem.rdData = D.fetched M (k * D.payload)) (hierr : i.err = false)
    (htwo : k * D.payload + 2 ≤ D.count) : s.Goes D M q i := by
  have hinside := D.inside
  have hdk := hpipe.dk.1
  have hans := Dma.answer_rd1 (i := i) (Or.inl hs) hmx0 hdk
  have hm1 : s.ft.cnt.daendm1 = false := by
    rw [hnear.m1]
    exact decide_eq_false (by omega)
  have hctl : s.ftCtl i =
      { nextate := .dat1, as := true, ebdat := true, bcen := true, fcen := true, daen := true,
        maen := true, mx := { read := true, aend := s.ft.cnt.daendm2 } } := by
    cases hm2 : s.ft.cnt.daendm2 with
    | true => simp [Dma.ftCtl, Ft.ctl, hs, hierr, hans, hm1, hm2, FtCtl.count]
    | false => simp [Dma.ftCtl, Ft.ctl, hs, hierr, hans, hm1, hm2, FtCtl.count]
  have hmx : s.mxCtl i = { nextate := .rd1, aef := s.ft.cnt.daendm2, answer :=
      ⟨false, false, true, false⟩ } := by
    cases hm2 : s.ft.cnt.daendm2 with
    | true => simp [Dma.mxCtl, VPcie.Ebone.mxCtl, hmx0, hctl, hdk, hm2]
    | false => simp [Dma.mxCtl, VPcie.Ebone.mxCtl, hmx0, hctl, hdk, hm2]
  obtain ⟨hpipe', hrdData', hdout, hmsb⟩ :=
    hpipe.clock (i := i) hact.sound (by omega) hgranted.ebmx (by rw [hmx])
  have hcounts : (s.ftCtl i).Counts true := by
    rw [hctl]
    exact ⟨rfl, rfl, rfl, rfl, rfl, rfl⟩
  obtain ⟨hact', hnear'⟩ := hact.clock hi hplain hcounts (Or.inr hmsb)
    (show k * D.payload + 1 ≤ D.count + 1 by omega)
  refine Dma.Goes.address hk hq (hgranted.address hact (by rw [hctl]) (by rw [hctl])) ?_
  have hs' : (s.clock i).ft.state = .dat1 := by rw [Dma.clock_state, hctl]
  simp only [Dma.Stage, hs']
  refine ⟨0, ⟨hact', hnear', ⟨?_, ?_, ?_, ?_⟩, ?_, ?_, ?_, ?_, hpipe', hrdData'⟩, rfl⟩
  · rw [Dma.clock_ebft, hctl, hgranted.ebft]
    rfl
  · exact Dma.clock_m0Brq hgranted.ebft hgranted.m0Brq
  · rw [Dma.clock_ebadrs, hctl, Bool.not_true, Bool.and_false]
  · rw [hdout, hrdData]
    rfl
  · rw [Dma.clock_bcnt, hctl]
    show s.ft.bcnt - 1 = _
    rw [hgranted.armed.bcnt, Nat.sub_zero]
    have hpos := D.payload_pos
    have hlt := D.payload_lt
    apply BitVec.eq_of_toNat_eq
    rw [BitVec.toNat_sub, BitVec.toNat_ofNat, BitVec.toNat_ofNat]
    show (2 ^ 8 - 1 + _) % 2 ^ 8 = _
    omega
  · exact D.two_le_length htwo
  · rw [Dma.clock_mxState, hmx]
  · rw [Dma.clock_ebmx, hmx, hgranted.ebmx]
    rfl

/-- The first word is there. -/
theorem Dma.Stage.adr2_ready (hi : i.Away) (hk : k ≤ D.bursts) (hq : q.done = D.first M k)
    (hs : s.ft.state = .adr2) (hplain : s.ft.Plain) (hact : s.Active D M (k * D.payload))
    (hmore : k * D.payload < D.count) (hnear : s.ft.Near D (k * D.payload))
    (hgranted : s.Granted D (k * D.payload)) (hmx0 : s.mx.state = .rd1)
    (hpipe : s.Pipe D (k * D.payload + 1)) (hrdData : s.mem.rdData = D.fetched M (k * D.payload)) :
    s.Goes D M q i := by
  have hinside := D.inside
  have hdk := hpipe.dk.1
  have hans := Dma.answer_rd1 (i := i) (Or.inl hs) hmx0 hdk
  cases hierr : i.err with
  | true =>
    have hctl : s.ftCtl i
        = { nextate := .abrt1, as := true, adrerr := true, mx := { read := true } } := by
      simp [Dma.ftCtl, Ft.ctl, hs, hierr, hans]
    have hmx : s.mxCtl i = { nextate := .rd1, answer := ⟨false, false, true, false⟩ } := by
      simp [Dma.mxCtl, VPcie.Ebone.mxCtl, hmx0, hctl, hdk]
    obtain ⟨hpipe', -, -, hmsb⟩ :=
      hpipe.clock (i := i) hact.sound (by omega) hgranted.ebmx (by rw [hmx])
    refine Dma.Goes.address hk hq (hgranted.address hact (by rw [hctl]) (by rw [hctl])) ?_
    refine hact.abort hi hplain hmore (by rw [hctl]) (by rw [hctl]) (Or.inr hmsb)
      (hpipe'.cut (by omega) ?_ (Or.inr ?_))
    · rw [Dma.clock_ebmx, hmx, hgranted.ebmx]
      rfl
    · rw [Dma.clock_mxState, hmx]
  | false =>
    by_cases hone : D.count ≤ k * D.payload + 1
    · exact Dma.Stage.adr2_one hi hk hq hs hplain hact hnear hgranted hmx0 hpipe hrdData hierr
        (by omega)
    · exact Dma.Stage.adr2_first hi hk hq hs hplain hact hnear hgranted hmx0 hpipe hrdData hierr
        (by omega)

theorem Dma.Stage.adr2 (hi : i.Away) (hk : k ≤ D.bursts) (hq : q.done = D.first M k)
    (h : s.Stage D M k q.cur) (hs : s.ft.state = .adr2) (hplain : s.ft.Plain) :
    s.Goes D M q i := by
  simp only [Dma.Stage, hs] at h
  obtain ⟨hact, hmore, hnear, hgranted, -, hready⟩ := h
  rcases hready with ⟨hmx0, hbram0, hmyself, hsDk, hofst⟩ | ⟨hmx0, hpipe⟩ | ⟨hmx0, hpipe, hrdData⟩
  · exact Dma.Stage.adr2_addressed hi hk hq hs hplain hact hmore hgranted hmx0 hbram0 hmyself hsDk
      hofst
  · exact Dma.Stage.adr2_piped hi hk hq hs hplain hact hmore hgranted hmx0 hpipe
  · exact Dma.Stage.adr2_ready hi hk hq hs hplain hact hmore hnear hgranted hmx0 hpipe hrdData

/-! ### The words -/

theorem Descriptor.words_succ (D : Descriptor) (M : ℕ → BitVec 32) (k j : ℕ) :
    ((List.range j).map fun j => D.fetched M (k * D.payload + j))
        ++ [D.fetched M (k * D.payload + j)]
      = (List.range (j + 1)).map fun j => D.fetched M (k * D.payload + j) := by
  rw [List.range_succ, List.map_append]
  rfl

/-- The last word but one is told by the burst counter, or by the destination counter. -/
theorem Dma.Word.ends {j : ℕ} (h : s.Word D M k j) :
    (s.ft.bcnt == 1 || s.ft.cnt.daendm2) = decide (D.length k = j + 2) := by
  have hmore := h.more
  have hlt := D.payload_lt
  have hbcnt : (s.ft.bcnt == 1) = decide (j + 2 = D.payload) := by
    rw [h.bcnt, Bool.beq_eq_decide_eq, decide_eq_decide, ← BitVec.toNat_inj, BitVec.toNat_ofNat]
    rw [Descriptor.length] at hmore
    show _ % 2 ^ 8 = 1 ↔ _
    omega
  rw [hbcnt, h.near.m2, ← Bool.decide_or, decide_eq_decide]
  rw [Descriptor.length] at hmore ⊢
  omega

theorem Dma.Word.next {j : ℕ} (hi : i.Away) (hplain : s.ft.Plain) (h : s.Word D M k j)
    (hcounts : (s.ftCtl i).Counts true) (hebft : (s.ftCtl i).ebeof = false)
    (hbcld : (s.ftCtl i).bcld = false) (hbcen : (s.ftCtl i).bcen = true) {b : Bool}
    (hmx : s.mxCtl i = { nextate := .rd1, aef := b, answer := ⟨false, false, true, false⟩ })
    (hmore : D.length k ≠ j + 2) : (s.clock i).Word D M k (j + 1) := by
  have hinside := D.inside
  have hlength : j + 3 ≤ D.length k := by
    have hle := h.more
    omega
  have hleft : k * D.payload + j + 3 ≤ D.count := by
    rw [Descriptor.length] at hlength
    omega
  obtain ⟨hpipe', hrdData', hdout, hmsb⟩ :=
    h.pipe.clock (i := i) h.active.sound (by omega) h.ebmx (by rw [hmx])
  obtain ⟨hact', hnear'⟩ := h.active.clock hi hplain hcounts (Or.inr hmsb)
    (show k * D.payload + j + 1 + 1 ≤ D.count + 1 by omega)
  refine ⟨hact', hnear', ⟨?_, ?_, ?_, ?_⟩, ?_, hlength, ?_, ?_, hpipe', hrdData'⟩
  · rw [Dma.clock_ebft, hebft, h.shows.ebft, Bool.or_true]
    rfl
  · exact Dma.clock_m0Brq h.shows.ebft h.shows.m0Brq
  · rw [Dma.clock_ebadrs, hbcld, h.shows.ebadrs]
    rfl
  · rw [hdout, h.rdData]
    rfl
  · rw [Dma.clock_bcnt, hbcld, hbcen]
    show s.ft.bcnt - 1 = _
    rw [h.bcnt]
    have hlt := D.payload_lt
    rw [Descriptor.length] at hlength
    apply BitVec.eq_of_toNat_eq
    rw [BitVec.toNat_sub, BitVec.toNat_ofNat, BitVec.toNat_ofNat]
    show (2 ^ 8 - 1 + _) % 2 ^ 8 = _
    omega
  · rw [Dma.clock_mxState, hmx]
  · rw [Dma.clock_ebmx, hmx, h.ebmx]
    rfl

/-- A word on the bus is seen. -/
theorem Dma.Shows.word {w : BitVec 64} {last : Bool} (h : s.Shows w)
    (has : (s.ftCtl i).as = false) (heof : (s.ftCtl i).eof = last) :
    s.events i = [.word w last] := by
  rw [Dma.events_one h.ebft h.m0Brq, has, heof, h.dxtO]
  rfl

/-- The word is refused, or it is an error. -/
theorem Dma.Stage.dat1_bad {j : ℕ} (hi : i.Away) (hk : k ≤ D.bursts) (hq : q.done = D.first M k)
    (hs : s.ft.state = .dat1) (hplain : s.ft.Plain) (hword : s.Word D M k j)
    (hbad : (i.err || !i.dk) = true) : s.Goes D M q i := by
  have hinside := D.inside
  have hctl : s.ftCtl i =
      { nextate := .abrt1, bcen := true, fcen := true, daen := true, maen := true,
        daterr := true } := by
    rcases Bool.or_eq_true_iff.mp hbad with hierr | hidk
    · simp [Dma.ftCtl, Ft.ctl, hs, hierr, FtCtl.count]
    · have hidk' : i.dk = false := by simpa using hidk
      simp [Dma.ftCtl, Ft.ctl, hs, hidk', FtCtl.count]
  refine Dma.Goes.word hk hq (hword.shows.word (by rw [hctl]) (by rw [hctl])) ?_
  have hleft : k * D.payload + j + 2 ≤ D.count := by
    have hlength := hword.more
    rw [Descriptor.length] at hlength
    omega
  have hmx : s.mxCtl i = { nextate := .rd1, answer := ⟨false, false, true, false⟩ } := by
    simp [Dma.mxCtl, VPcie.Ebone.mxCtl, hword.mx, hctl, hword.pipe.dk.1]
  obtain ⟨hpipe', -, -, hmsb⟩ :=
    hword.pipe.clock (i := i) hword.active.sound (by omega) hword.ebmx (by rw [hmx])
  refine hword.active.abort hi hplain (by omega) (by rw [hctl]) (by rw [hctl]) (Or.inr hmsb)
    (hpipe'.cut (by omega) ?_ (Or.inr ?_))
  · rw [Dma.clock_ebmx, hmx, hword.ebmx]
    rfl
  · rw [Dma.clock_mxState, hmx]

/-- The word before the last: the source is stopped. -/
theorem Dma.Stage.dat1_last {j : ℕ} (hi : i.Away) (hk : k ≤ D.bursts) (hq : q.done = D.first M k)
    (hs : s.ft.state = .dat1) (hplain : s.ft.Plain) (hword : s.Word D M k j)
    (hcur : q.cur = (D.addr (k * D.payload),
      (List.range j).map fun j => D.fetched M (k * D.payload + j)))
    (herr : i.err = false) (hidk : i.dk = true) (hlast : D.length k = j + 2) :
    s.Goes D M q i := by
  have hinside := D.inside
  have hdk := hword.pipe.dk.1
  have hans := Dma.answer_rd1 (i := i) (Or.inr hs) hword.mx hdk
  have hends := hword.ends
  rw [decide_eq_true hlast] at hends
  have hctl : s.ftCtl i =
      { nextate := .dat2, bcen := true, fcen := true, daen := true, maen := true,
        mx := { «end» := true }, aef := true } := by
    simp only [Dma.ftCtl, Ft.ctl, hs, hans, Dma.ftIn_err, Dma.ftIn_dk, Dma.ftIn_mx, herr, hidk,
      hends, FtCtl.count, FtCtl.ends]
    rfl
  have hmx : s.mxCtl i = { nextate := .iddle, ebeof := true, eof := true, answer :=
      ⟨false, false, true, false⟩ } := by
    simp [Dma.mxCtl, VPcie.Ebone.mxCtl, hword.mx, hctl, hdk]
  have hleft : k * D.payload + j + 2 ≤ D.count := by
    rw [Descriptor.length] at hlast
    omega
  obtain ⟨hbram', hdout, hmsb⟩ :=
    hword.pipe.stop (i := i) (by omega) hword.ebmx (by rw [hmx])
  have hcounts : (s.ftCtl i).Counts true := by
    rw [hctl]
    exact ⟨rfl, rfl, rfl, rfl, rfl, rfl⟩
  obtain ⟨hact', -⟩ := hword.active.clock hi hplain hcounts (Or.inr hmsb)
    (show k * D.payload + j + 1 + 1 ≤ D.count + 1 by omega)
  refine Dma.Goes.word hk hq (hword.shows.word (by rw [hctl]) (by rw [hctl])) ?_
  rw [hcur, D.words_succ]
  have hs' : (s.clock i).ft.state = .dat2 := by rw [Dma.clock_state, hctl]
  simp only [Dma.Stage, hs']
  refine ⟨j, hlast, hact', ⟨?_, ?_, ?_, ?_⟩, rfl, ?_, ?_, hbram'⟩
  · rw [Dma.clock_ebft, hctl, hword.shows.ebft]
    rfl
  · exact Dma.clock_m0Brq hword.shows.ebft hword.shows.m0Brq
  · rw [Dma.clock_ebadrs, hctl, hword.shows.ebadrs]
    rfl
  · rw [hdout, hword.rdData]
  · rw [Dma.clock_mxState, hmx]
  · rw [Dma.clock_ebmx, hmx, Bool.not_true, Bool.and_false]

/-- The next word is right behind. -/
theorem Dma.Stage.dat1_next {j : ℕ} (hi : i.Away) (hk : k ≤ D.bursts) (hq : q.done = D.first M k)
    (hs : s.ft.state = .dat1) (hplain : s.ft.Plain) (hword : s.Word D M k j)
    (hcur : q.cur = (D.addr (k * D.payload),
      (List.range j).map fun j => D.fetched M (k * D.payload + j)))
    (herr : i.err = false) (hidk : i.dk = true) (hmore : D.length k ≠ j + 2) :
    s.Goes D M q i := by
  have hdk := hword.pipe.dk.1
  have hans := Dma.answer_rd1 (i := i) (Or.inr hs) hword.mx hdk
  have hends := hword.ends
  rw [decide_eq_false hmore] at hends
  obtain ⟨b, hctl⟩ : ∃ b, s.ftCtl i =
      { nextate := .dat1, bcen := true, fcen := true, daen := true, maen := true,
        mx := { aend := b } } := by
    simp only [Dma.ftCtl, Ft.ctl, hs, hans, Dma.ftIn_err, Dma.ftIn_dk, Dma.ftIn_mx, herr, hidk,
      hends, hplain.fifo, FtCtl.count]
    cases s.ft.bcnt == 2 || s.ft.cnt.daendm3 with
    | true => exact ⟨true, rfl⟩
    | false => exact ⟨false, rfl⟩
  have hmx : s.mxCtl i
      = { nextate := .rd1, aef := b, answer := ⟨false, false, true, false⟩ } := by
    cases b with
    | true => simp [Dma.mxCtl, VPcie.Ebone.mxCtl, hword.mx, hctl, hdk]
    | false => simp [Dma.mxCtl, VPcie.Ebone.mxCtl, hword.mx, hctl, hdk]
  have hcounts : (s.ftCtl i).Counts true := by
    rw [hctl]
    exact ⟨rfl, rfl, rfl, rfl, rfl, rfl⟩
  have hword' := hword.next hi hplain hcounts (by rw [hctl]) (by rw [hctl]) (by rw [hctl]) hmx
    hmore
  refine Dma.Goes.word hk hq (hword.shows.word (by rw [hctl]) (by rw [hctl])) ?_
  rw [hcur, D.words_succ]
  have hs' : (s.clock i).ft.state = .dat1 := by rw [Dma.clock_state, hctl]
  simp only [Dma.Stage, hs']
  exact ⟨j + 1, hword', rfl⟩

/-- A word that is not the last of its burst. -/
theorem Dma.Stage.dat1 (hi : i.Away) (hk : k ≤ D.bursts) (hq : q.done = D.first M k)
    (h : s.Stage D M k q.cur) (hs : s.ft.state = .dat1) (hplain : s.ft.Plain) :
    s.Goes D M q i := by
  simp only [Dma.Stage, hs] at h
  obtain ⟨j, hword, hcur⟩ := h
  by_cases hbad : (i.err || !i.dk) = true
  · exact Dma.Stage.dat1_bad hi hk hq hs hplain hword hbad
  · rw [Bool.not_eq_true, Bool.or_eq_false_iff, Bool.not_eq_false'] at hbad
    obtain ⟨herr, hidk⟩ := hbad
    by_cases hlast : D.length k = j + 2
    · exact Dma.Stage.dat1_last hi hk hq hs hplain hword hcur herr hidk hlast
    · exact Dma.Stage.dat1_next hi hk hq hs hplain hword hcur herr hidk hlast

/-- The last word of a burst. -/
theorem Dma.Stage.dat2 (hi : i.Away) (hq : q.done = D.first M k) (h : s.Stage D M k q.cur)
    (hs : s.ft.state = .dat2) (hplain : s.ft.Plain) : s.Goes D M q i := by
  simp only [Dma.Stage, hs] at h
  obtain ⟨j, hlength, hact, hshows, hcur, hmx0, hebmx, hbram0⟩ := h
  have hctl : s.ftCtl i = { nextate := .end1, eof := true, ebeof := true } := by
    simp [Dma.ftCtl, Ft.ctl, hs]
  have hmx : s.mxCtl i = { nextate := .iddle } := by
    simp [Dma.mxCtl, VPcie.Ebone.mxCtl, hmx0, hctl]
  have hbram := Dma.bram_stays (i := i) hbram0 (by rw [hmx])
  have hcounts : (s.ftCtl i).Counts false := by
    rw [hctl]
    exact ⟨rfl, rfl, rfl, rfl, rfl, rfl⟩
  obtain ⟨hact', hnear'⟩ :=
    hact.clock hi hplain hcounts (Or.inl (by rw [hbram])) hact.runs.small
  have hmore : k * D.payload < D.count := by
    rw [Descriptor.length] at hlength
    omega
  refine Dma.Goes.last (D.lt_bursts hmore) hq
    (hshows.word (by rw [hctl]) (by rw [hctl])) ?_ ?_
  · rw [hcur, Descriptor.burst, hlength, ← D.words_succ M k (j + 1)]
    rfl
  · have hs' : (s.clock i).ft.state = .end1 := by rw [Dma.clock_state, hctl]
    simp only [Dma.Stage, hs']
    refine ⟨k, rfl, by omega, ?_, ?_, ⟨?_, ?_, ?_, ?_⟩⟩
    · rw [hlength]
      exact hact'
    · rw [hlength]
      exact hnear'
    · rw [Dma.clock_ebft, hctl, Bool.not_true, Bool.and_false]
    · rw [Dma.clock_mxState, hmx]
    · rw [Dma.clock_ebmx, hmx, hebmx]
      rfl
    · rw [Dma.clock_bramState, hbram]

/-! ### The end -/

theorem Descriptor.moved_eq (D : Descriptor) {k c : ℕ} (hc : D.count = k * D.payload + c)
    (hle : c ≤ D.payload) : D.moved = if c = 1 then D.count + 1 else D.count := by
  have hfour := Nat.le_of_dvd D.payload_pos D.four_dvd_payload
  have hmod : D.count % D.payload = c % D.payload := by
    rw [hc, Nat.add_comm, Nat.mul_comm, Nat.add_mul_mod_self_left]
  have hone : D.count % D.payload = 1 ↔ c = 1 := by
    rw [hmod]
    rcases Nat.lt_or_ge c D.payload with hlt | hge
    · rw [Nat.mod_eq_of_lt hlt]
    · rw [Nat.le_antisymm hle hge, Nat.mod_self]
      omega
  rw [Descriptor.moved]
  simp only [hone]

/-- The word of a burst of one word; it is counted once more. -/
theorem Dma.Stage.dat01 (hi : i.Away) (hq : q.done = D.first M k) (h : s.Stage D M k q.cur)
    (hs : s.ft.state = .dat01) (hplain : s.ft.Plain) : s.Goes D M q i := by
  simp only [Dma.Stage, hs] at h
  obtain ⟨hcount, hact, hshows, hcur, hmx0, hebmx, hbram0⟩ := h
  have hfour := Nat.le_of_dvd D.payload_pos D.four_dvd_payload
  have hctl : s.ftCtl i =
      { nextate := .end2, bcen := true, fcen := true, daen := true, maen := true, eof := true,
        ebeof := true } := by
    simp [Dma.ftCtl, Ft.ctl, hs, FtCtl.count]
  have hlength : D.length k = 1 := by
    rw [Descriptor.length]
    omega
  have hev := hshows.word (by rw [hctl]) (show (s.ftCtl i).eof = true by rw [hctl])
  have hcounts : (s.ftCtl i).Counts true := by
    rw [hctl]
    exact ⟨rfl, rfl, rfl, rfl, rfl, rfl⟩
  obtain ⟨hruns', -⟩ := hact.runs.clock (i := i) hact.regs.loaded hcounts
    (show k * D.payload + 1 + 1 ≤ D.count + 1 by omega)
  have hregs' := hact.regs.clock hi hplain.run1
  rw [hact.runs.run0] at hregs'
  have hmoved : D.moved = k * D.payload + 1 + 1 := by
    rw [D.moved_eq hcount (by omega), if_pos rfl, hcount]
  refine Dma.Goes.last (D.lt_bursts (by omega)) hq hev ?_ ?_
  · rw [hcur, Descriptor.burst, hlength]
    rfl
  · have hs' : (s.clock i).ft.state = .end2 := by rw [Dma.clock_state, hctl]
    simp only [Dma.Stage, hs']
    refine ⟨?_, ⟨hregs', ?_, ?_, ?_⟩, ?_⟩
    · rw [Dma.clock_ebft, hctl, Bool.not_true, Bool.and_false]
    · rw [hmoved]
      exact hruns'
    · rw [Dma.clock_err, hctl, hact.err]
      rfl
    · rw [D.bursts_eq (k := k) (by omega) (by rw [Nat.add_mul]; omega)]
    · exact Dma.Calm.stays ⟨hact.sound, hmx0, hebmx, hbram0⟩ hi (by rw [hctl]) (by rw [hctl])

/-- All words are moved, or the next burst begins. -/
theorem Dma.Stage.end1 (hi : i.Away) (hk : k ≤ D.bursts) (hq : q.done = D.first M k)
    (h : s.Stage D M k q.cur) (hs : s.ft.state = .end1) (hplain : s.ft.Plain) :
    s.Goes D M q i := by
  simp only [Dma.Stage, hs] at h
  obtain ⟨j, rfl, htwo, hact, hnear, hfree⟩ := h
  have hlength : D.length j = min D.payload (D.count - j * D.payload) := rfl
  refine Dma.Goes.silent hk hq (Dma.events_none (Or.inl hfree.ebft)) ?_
  by_cases hall : D.count ≤ j * D.payload + D.length j
  · have hend : s.ft.cnt.daendall = true := by rw [hnear.all, decide_eq_true hall]
    have hctl : s.ftCtl i = { nextate := .end2 } := by
      simp [Dma.ftCtl, Ft.ctl, hs, hend]
    have hcounts : (s.ftCtl i).Counts false := by
      rw [hctl]
      exact ⟨rfl, rfl, rfl, rfl, rfl, rfl⟩
    obtain ⟨hfree', hofen⟩ := hfree.stays (i := i) (by rw [hctl]) (by rw [hctl]) (by rw [hctl])
    obtain ⟨hact', -⟩ := hact.clock hi hplain hcounts (Or.inl hofen) hact.runs.small
    have hmoved : D.moved = j * D.payload + D.length j := by
      rw [D.moved_eq (k := j) (c := D.length j) (by omega) (by omega),
        if_neg (by omega)]
      omega
    have hs' : (s.clock i).ft.state = .end2 := by rw [Dma.clock_state, hctl]
    simp only [Dma.Stage, hs']
    refine ⟨hfree'.ebft, ⟨hact'.regs, ?_, hact'.err, ?_⟩,
      ⟨hact'.sound, hfree'.mx, hfree'.ebmx, hfree'.bram⟩⟩
    · rw [hmoved]
      exact hact'.runs
    · rw [D.bursts_eq (k := j) (by omega) (by rw [Nat.add_mul]; omega)]
  · have hend : s.ft.cnt.daendall = false := by rw [hnear.all, decide_eq_false hall]
    have hctl : s.ftCtl i = { nextate := .brq2, bcld := true } := by
      simp [Dma.ftCtl, Ft.ctl, hs, hend, hplain.fifo]
    have hcounts : (s.ftCtl i).Counts false := by
      rw [hctl]
      exact ⟨rfl, rfl, rfl, rfl, rfl, rfl⟩
    obtain ⟨hfree', hofen⟩ := hfree.stays (i := i) (by rw [hctl]) (by rw [hctl]) (by rw [hctl])
    obtain ⟨hact', -⟩ := hact.clock hi hplain hcounts (Or.inl hofen) hact.runs.small
    have hnext : (j + 1) * D.payload = j * D.payload + D.length j := by
      rw [Nat.add_mul, Nat.one_mul]
      omega
    have hs' : (s.clock i).ft.state = .brq2 := by rw [Dma.clock_state, hctl]
    simp only [Dma.Stage, hs']
    rw [hnext]
    exact ⟨hact', by omega, hfree', hact.arm (by rw [hctl]) (by rw [hctl])⟩

end Words

end VPcie.Ebone
