import VPcie.Ebone.DmaWords

/-!
# Transfers

Whatever the other master asks for, and whatever answers on the first E-bone, a transfer shows the
bursts of its descriptor, in order and complete, or is aborted.

* `Dma.Serves.step` — an edge;
* `transfer_served` — every run.
-/

namespace VPcie.Ebone

open VPcie.Lib

section Served

variable {D : Descriptor} {M : ℕ → BitVec 32} {s : Dma} {i : DmaIn} {q : Collected} {k : ℕ}

/-! ### The broadcast -/

/-- Nothing changes while a broadcast is asked for. -/
structure FtCtl.Idles (c : FtCtl) : Prop where
  counts : c.Counts false
  init0 : c.init0 = false

theorem Dma.Complete.clock (h : s.Complete D k) (hi : i.Away) (hplain : s.ft.Plain)
    (hctl : (s.ftCtl i).Idles) : (s.clock i).Complete D k := by
  obtain ⟨hruns', -⟩ := h.runs.clock (i := i) h.regs.loaded hctl.counts h.runs.small
  have hregs' := h.regs.clock hi hplain.run1
  rw [h.runs.run0] at hregs'
  refine ⟨hregs', hruns', ?_, h.all⟩
  rw [Dma.clock_err, hctl.counts.errdone, h.err]
  rfl

theorem Dma.Aborted.clock {go rund done : Bool} (h : s.Aborted D k go rund done) (hi : i.Away)
    (hplain : s.ft.Plain) (hinit0 : (s.ftCtl i).init0 = false)
    (hdaclr : (s.ftCtl i).daclr = false) :
    (s.clock i).Aborted D k (go && !done) false rund := by
  have hregs' := h.regs.clock hi hplain.run1
  rw [h.run0, Bool.not_false, Bool.and_true] at hregs'
  refine ⟨hregs', ?_, ?_, h.early⟩
  · rw [Dma.clock_run0, hinit0, h.run0]
    rfl
  · rw [Dma.clock_err, h.err, hdaclr, Bool.or_true]
    rfl

/-- It is over, one way or the other. -/
theorem Dma.over_clock (h : s.Complete D k ∨ s.Aborted D k false false false) (hi : i.Away)
    (hplain : s.ft.Plain) (hctl : (s.ftCtl i).Idles) :
    (s.clock i).Complete D k ∨ (s.clock i).Aborted D k false false false := by
  rcases h with hcomplete | haborted
  · exact Or.inl (hcomplete.clock hi hplain hctl)
  · exact Or.inr (haborted.clock hi hplain hctl.init0 hctl.counts.daclr)

/-- The source has settled, and so have the registers. -/
theorem Dma.bc1_over (hi : i.Away) (hplain : s.ft.Plain)
    (hover : (s.Complete D k ∨ s.Aborted D k false false false) ∧ s.Calm M ∨
      s.Aborted D k true false true ∧ s.Sound M ∧ s.mx.state = .iddle ∧ s.mx.ebmx = false ∧
        (s.bram.state = .iddle ∨ s.bram.state = .abort))
    (hidles : (s.ftCtl i).Idles) (hbrq : (s.ftCtl i).mx.brq = false)
    (hbwr : (s.ftCtl i).mx.bwr = false) :
    ((s.clock i).Complete D k ∨ (s.clock i).Aborted D k false false false) ∧
      (s.clock i).Calm M := by
  rcases hover with ⟨hover, hcalm⟩ | ⟨haborted, hsound, hmx0, hebmx, hbram0⟩
  · exact ⟨Dma.over_clock hover hi hplain hidles, hcalm.stays hi hbrq hbwr⟩
  · have hmx : s.mxCtl i = { nextate := .iddle } := by
      simp [Dma.mxCtl, VPcie.Ebone.mxCtl, hmx0, hbrq, hbwr]
    have hbram : (s.bram.ctl (s.lines2 i) false).nextate = .iddle ∧
        (s.bram.ctl (s.lines2 i) false).ofen = false := by
      rcases hbram0 with hbram0 | hbram0
      · simp [Bram.ctl, hbram0, Dma.lines2, hebmx]
      · simp [Bram.ctl, hbram0]
    refine ⟨Or.inr (haborted.clock hi hplain hidles.init0 hidles.counts.daclr),
      ⟨hsound.clock hi (Or.inl hbram.2), ?_, ?_, hbram.1⟩⟩
    · rw [Dma.clock_mxState, hmx]
    · rw [Dma.clock_ebmx, hmx, hebmx]
      rfl

/-- The master of the second E-bone gives it back; its slave notices a cycle later. -/
theorem Dma.Cut.clock (hi : i.Away) (hcut : s.Cut) (hsound : s.Sound M)
    (hcmd : (s.ftCtl i).mx = { abrt := true }) :
    (s.clock i).Sound M ∧ (s.clock i).mx.state = .abrt1 ∧ (s.clock i).mx.ebmx = false ∧
      ((s.clock i).bram.state = .iddle ∨ (s.clock i).bram.state = .rd1) := by
  obtain ⟨hebmx, ⟨hmx0, hbram0⟩ | ⟨hmx0, hbram0, hmsb⟩⟩ := hcut
  · have hmx : s.mxCtl i
        = { nextate := .abrt1, ebeof := true, answer := ⟨true, false, false, false⟩ } := by
      simp [Dma.mxCtl, VPcie.Ebone.mxCtl, hmx0, hcmd]
    have hbram := Dma.bram_stays (i := i) hbram0 (by rw [hmx])
    refine ⟨hsound.clock hi (Or.inl (by rw [hbram])), ?_, ?_, Or.inl ?_⟩
    · rw [Dma.clock_mxState, hmx]
    · rw [Dma.clock_ebmx, hmx, Bool.not_true, Bool.and_false]
    · rw [Dma.clock_bramState, hbram]
  · have hmx : (s.mxCtl i).nextate = .abrt1 ∧ (s.mxCtl i).ebeof = true ∧
        (s.mxCtl i).eof = false := by
      rcases hmx0 with hmx0 | hmx0
      · simp [Dma.mxCtl, VPcie.Ebone.mxCtl, hmx0, hcmd]
      · simp [Dma.mxCtl, VPcie.Ebone.mxCtl, hmx0, hcmd]
    obtain ⟨hnext, hebeof, heof⟩ := hmx
    have hbram : (s.bram.ctl (s.lines2 i) false).nextate = .rd1 := by
      simp [Bram.ctl, hbram0, Dma.lines2, hebmx, heof, hsound.emti2]
    refine ⟨hsound.clock hi (Or.inr hmsb), ?_, ?_, Or.inr ?_⟩
    · rw [Dma.clock_mxState, hnext]
    · rw [Dma.clock_ebmx, hebeof, Bool.not_true, Bool.and_false]
    · rw [Dma.clock_bramState, hbram]

variable (hi : i.Away) (hk : k ≤ D.bursts) (hq : q.done = D.first M k)
  (h : s.Stage D M k q.cur)
include hi hk hq h

theorem Dma.Stage.end2 (hs : s.ft.state = .end2) (hplain : s.ft.Plain) : s.Goes D M q i := by
  simp only [Dma.Stage, hs] at h
  obtain ⟨hebft, hcomplete, hcalm⟩ := h
  have hctl : s.ftCtl i = { nextate := .bc1, irq := true } := by
    simp [Dma.ftCtl, Ft.ctl, hs, hplain.mif]
  have hidles : (s.ftCtl i).Idles := by
    rw [hctl]
    exact ⟨⟨rfl, rfl, rfl, rfl, rfl, rfl⟩, rfl⟩
  refine Dma.Goes.silent hk hq (Dma.events_none (Or.inl hebft)) ?_
  have hs' : (s.clock i).ft.state = .bc1 := by rw [Dma.clock_state, hctl]
  simp only [Dma.Stage, hs']
  refine ⟨?_, Or.inl ⟨Or.inl (hcomplete.clock hi hplain hidles), ?_⟩⟩
  · rw [Dma.clock_ebft, hctl, hebft]
    rfl
  · exact hcalm.stays hi (by rw [hctl]) (by rw [hctl])

theorem Dma.Stage.bc1 (hs : s.ft.state = .bc1) (hplain : s.ft.Plain) : s.Goes D M q i := by
  simp only [Dma.Stage, hs] at h
  obtain ⟨hebft, hover⟩ := h
  refine Dma.Goes.silent hk hq (Dma.events_none (Or.inl hebft)) ?_
  cases hm0 : s.m0Brq with
  | true =>
    have hctl : s.ftCtl i = { nextate := .bc1 } := by
      simp [Dma.ftCtl, Ft.ctl, hs, hm0]
    have hidles : (s.ftCtl i).Idles := by
      rw [hctl]
      exact ⟨⟨rfl, rfl, rfl, rfl, rfl, rfl⟩, rfl⟩
    have hs' : (s.clock i).ft.state = .bc1 := by rw [Dma.clock_state, hctl]
    simp only [Dma.Stage, hs']
    refine ⟨?_, Or.inl (Dma.bc1_over hi hplain hover hidles (by rw [hctl]) (by rw [hctl]))⟩
    rw [Dma.clock_ebft, hctl, hebft]
    rfl
  | false =>
    have hctl : s.ftCtl i = { nextate := .bc2, ebrq := true } := by
      simp [Dma.ftCtl, Ft.ctl, hs, hm0]
    have hidles : (s.ftCtl i).Idles := by
      rw [hctl]
      exact ⟨⟨rfl, rfl, rfl, rfl, rfl, rfl⟩, rfl⟩
    have hs' : (s.clock i).ft.state = .bc2 := by rw [Dma.clock_state, hctl]
    simp only [Dma.Stage, hs']
    refine ⟨?_, Dma.bc1_over hi hplain hover hidles (by rw [hctl]) (by rw [hctl])⟩
    rw [Dma.clock_ebft, hctl]
    rfl

theorem Dma.Stage.bc2 (hs : s.ft.state = .bc2) (hplain : s.ft.Plain) : s.Goes D M q i := by
  simp only [Dma.Stage, hs] at h
  obtain ⟨hebft, hover, hcalm⟩ := h
  cases hm0 : s.m0Brq with
  | true =>
    have hctl : s.ftCtl i = { nextate := .bc3, ebeof := true } := by
      simp [Dma.ftCtl, Ft.ctl, hs, hm0]
    have hidles : (s.ftCtl i).Idles := by
      rw [hctl]
      exact ⟨⟨rfl, rfl, rfl, rfl, rfl, rfl⟩, rfl⟩
    refine Dma.Goes.silent hk hq (Dma.events_none (Or.inr hm0)) ?_
    have hs' : (s.clock i).ft.state = .bc3 := by rw [Dma.clock_state, hctl]
    simp only [Dma.Stage, hs']
    refine ⟨?_, Dma.over_clock hover hi hplain hidles,
      hcalm.stays hi (by rw [hctl]) (by rw [hctl])⟩
    rw [Dma.clock_ebft, hctl, Bool.not_true, Bool.and_false]
  | false =>
    have hctl : s.ftCtl i = { nextate := .bc4, as := true, eof := true } := by
      simp [Dma.ftCtl, Ft.ctl, hs, hm0, hebft]
    have hidles : (s.ftCtl i).Idles := by
      rw [hctl]
      exact ⟨⟨rfl, rfl, rfl, rfl, rfl, rfl⟩, rfl⟩
    have hev : s.events i = [.broadcast] := by
      rw [Dma.events_one hebft hm0, hctl]
      rfl
    refine Dma.Goes.broadcast hk hq hev ?_
    have hs' : (s.clock i).ft.state = .bc4 := by rw [Dma.clock_state, hctl]
    simp only [Dma.Stage, hs']
    refine ⟨?_, Dma.clock_m0Brq hebft hm0, Dma.over_clock hover hi hplain hidles,
      hcalm.stays hi (by rw [hctl]) (by rw [hctl])⟩
    rw [Dma.clock_ebft, hctl, hebft]
    rfl

theorem Dma.Stage.bc3 (hs : s.ft.state = .bc3) (hplain : s.ft.Plain) : s.Goes D M q i := by
  simp only [Dma.Stage, hs] at h
  obtain ⟨hebft, hover, hcalm⟩ := h
  have hctl : s.ftCtl i = { nextate := .bc1 } := by
    simp [Dma.ftCtl, Ft.ctl, hs]
  have hidles : (s.ftCtl i).Idles := by
    rw [hctl]
    exact ⟨⟨rfl, rfl, rfl, rfl, rfl, rfl⟩, rfl⟩
  refine Dma.Goes.silent hk hq (Dma.events_none (Or.inl hebft)) ?_
  have hs' : (s.clock i).ft.state = .bc1 := by rw [Dma.clock_state, hctl]
  simp only [Dma.Stage, hs']
  refine ⟨?_, Or.inl ⟨Dma.over_clock hover hi hplain hidles,
    hcalm.stays hi (by rw [hctl]) (by rw [hctl])⟩⟩
  rw [Dma.clock_ebft, hctl, hebft]
  rfl

/-- The run is over; the registers see it later. -/
theorem Dma.Stage.bc4 (hs : s.ft.state = .bc4) (hplain : s.ft.Plain) : s.Goes D M q i := by
  simp only [Dma.Stage, hs] at h
  obtain ⟨hebft, hm0, hover, hcalm⟩ := h
  have hchain : (s.ftIn i (s.answer i)).ctl0 30 = false := by
    rcases hover with hcomplete | haborted
    · exact loaded_zero hcomplete.regs.loaded _ (by decide) (by decide)
    · exact loaded_zero haborted.regs.loaded _ (by decide) (by decide)
  have hctl : s.ftCtl i =
      { nextate := .bc5, as := true, eof := true, irqend := true, ebeof := true,
        dmadone := true } := by
    simp [Dma.ftCtl, Ft.ctl, hs, hchain, hplain.run1]
  have hev : s.events i = [.broadcast] := by
    rw [Dma.events_one hebft hm0, hctl]
    rfl
  have hcalm' := hcalm.stays hi (by rw [hctl]) (by rw [hctl])
  refine Dma.Goes.broadcast hk hq hev ?_
  have hs' : (s.clock i).ft.state = .bc5 := by rw [Dma.clock_state, hctl]
  simp only [Dma.Stage, hs']
  refine ⟨?_, ?_, ?_⟩
  · rw [Dma.clock_run0, hctl, Bool.not_true, Bool.and_false]
  · rw [Dma.clock_ebft, hctl, Bool.not_true, Bool.and_false]
  · rcases hover with hcomplete | haborted
    · have hregs' := hcomplete.regs.clock hi hplain.run1
      rw [hcomplete.runs.run0] at hregs'
      refine ⟨Or.inr ⟨?_, hcomplete.all, ?_⟩, hcalm', Or.inl hregs'⟩
      · rw [Dma.clock_err, hctl, hcomplete.err]
        rfl
      · rw [Dma.clock_dma0Sts, hcomplete.runs.run0]
        exact hcomplete.runs.dacnt
    · have haborted' := haborted.clock hi hplain (by rw [hctl]) (by rw [hctl])
      exact ⟨Or.inl ⟨haborted'.err, haborted'.early⟩, hcalm', Or.inr haborted'.regs⟩

theorem Dma.Stage.bc5 (hs : s.ft.state = .bc5) (hplain : s.ft.Plain) : s.Goes D M q i := by
  simp only [Dma.Stage, hs] at h
  obtain ⟨hrun0, hebft, hended, hcalm, hregs⟩ := h
  have hctl : s.ftCtl i = { nextate := .bc6 } := by
    simp [Dma.ftCtl, Ft.ctl, hs]
  refine Dma.Goes.silent hk hq (Dma.events_none (Or.inl hebft)) ?_
  have hs' : (s.clock i).ft.state = .bc6 := by rw [Dma.clock_state, hctl]
  simp only [Dma.Stage, hs']
  refine ⟨?_, ?_, hended.stays hrun0 (by rw [hctl]),
    hcalm.stays hi (by rw [hctl]) (by rw [hctl]), ?_⟩
  · rw [Dma.clock_run0, hctl, hrun0]
    rfl
  · rw [Dma.clock_ebft, hctl, hebft]
    rfl
  · rcases hregs with hregs | hregs
    · have hregs' := hregs.clock hi hplain.run1
      rw [hrun0] at hregs'
      exact Or.inl hregs'
    · have hregs' := hregs.clock hi hplain.run1
      rw [hrun0] at hregs'
      exact Or.inr hregs'

theorem Dma.Stage.bc6 (hs : s.ft.state = .bc6) (hplain : s.ft.Plain) : s.Goes D M q i := by
  simp only [Dma.Stage, hs] at h
  obtain ⟨hrun0, hebft, hended, hcalm, hregs⟩ := h
  have hctl : s.ftCtl i = { nextate := .iddle } := by
    simp [Dma.ftCtl, Ft.ctl, hs]
  refine Dma.Goes.silent hk hq (Dma.events_none (Or.inl hebft)) ?_
  have hs' : (s.clock i).ft.state = .iddle := by rw [Dma.clock_state, hctl]
  simp only [Dma.Stage, hs']
  refine ⟨?_, ?_, Or.inr ⟨?_, hended.stays hrun0 (by rw [hctl]),
    hcalm.stays hi (by rw [hctl]) (by rw [hctl])⟩⟩
  · rw [Dma.clock_run0, hctl, hrun0]
    rfl
  · rw [Dma.clock_ebft, hctl, hebft]
    rfl
  · rcases hregs with hregs | hregs
    · have hregs' := hregs.clock hi hplain.run1
      rw [hrun0] at hregs'
      exact hregs'
    · have hregs' := hregs.clock hi hplain.run1
      rw [hrun0] at hregs'
      exact hregs'

/-! ### Aborts -/

/-- The run is over with an error; the fast transmitter may still have the bus. -/
theorem Dma.Stage.abrt1 (hs : s.ft.state = .abrt1) (hplain : s.ft.Plain) : s.Goes D M q i := by
  simp only [Dma.Stage, hs] at h
  obtain ⟨hrun0, hregs, hearly, hsound, hcut⟩ := h
  have hctl : s.ftCtl i =
      { nextate := .abrt2, ebeof := true, dmadone := true, errdone := true,
        mx := { abrt := true } } := by
    simp [Dma.ftCtl, Ft.ctl, hs]
  have hs' : (s.clock i).ft.state = .abrt2 := by rw [Dma.clock_state, hctl]
  have hstage : ∀ cur, (s.clock i).Stage D M k cur := by
    intro cur
    have hregs' := hregs.clock hi hplain.run1
    rw [hrun0] at hregs'
    simp only [Dma.Stage, hs']
    refine ⟨?_, ⟨hregs', ?_, ?_, hearly⟩, hcut.clock hi hsound (by rw [hctl])⟩
    · rw [Dma.clock_ebft, hctl, Bool.not_true, Bool.and_false]
    · rw [Dma.clock_run0, hctl, Bool.not_true, Bool.and_false]
    · rw [Dma.clock_err, hctl, hrun0]
      rfl
  by_cases hquiet : s.ft.flags.ebft = false ∨ s.m0Brq = true
  · exact Dma.Goes.silent hk hq (Dma.events_none hquiet) (hstage _)
  · have hebft : s.ft.flags.ebft = true := by
      cases hb : s.ft.flags.ebft with
      | true => rfl
      | false => exact absurd (Or.inl hb) hquiet
    have hm0 : s.m0Brq = false := by
      cases hb : s.m0Brq with
      | true => exact absurd (Or.inr hb) hquiet
      | false => rfl
    have hev : s.events i = [.word (s.ft.dxtO (s.ftIn i (s.answer i))) false] := by
      rw [Dma.events_one hebft hm0, hctl]
      rfl
    exact Dma.Goes.word hk hq hev (hstage _)

theorem Dma.Stage.abrt2 (hs : s.ft.state = .abrt2) (hplain : s.ft.Plain) : s.Goes D M q i := by
  simp only [Dma.Stage, hs] at h
  obtain ⟨hebft, haborted, hsound, hmx0, hebmx, hbram0⟩ := h
  have hctl : s.ftCtl i = { nextate := .bc1, mx := { abrt := true } } := by
    simp [Dma.ftCtl, Ft.ctl, hs, loaded_zero haborted.regs.loaded,
      loaded_abrt1 haborted.regs.loaded]
  have hmx : s.mxCtl i = { nextate := .iddle, answer := ⟨false, false, false, true⟩ } := by
    simp [Dma.mxCtl, VPcie.Ebone.mxCtl, hmx0, hctl]
  have hbram : (s.bram.ctl (s.lines2 i) false).ofen = false ∧
      ((s.bram.ctl (s.lines2 i) false).nextate = .iddle ∨
        (s.bram.ctl (s.lines2 i) false).nextate = .abort) := by
    rcases hbram0 with hbram0 | hbram0
    · simp [Bram.ctl, hbram0, Dma.lines2, hebmx]
    · simp [Bram.ctl, hbram0, Dma.lines2, hebmx]
  refine Dma.Goes.silent hk hq (Dma.events_none (Or.inl hebft)) ?_
  have hs' : (s.clock i).ft.state = .bc1 := by rw [Dma.clock_state, hctl]
  have haborted' := haborted.clock hi hplain (by rw [hctl]) (by rw [hctl])
  simp only [Dma.Stage, hs']
  refine ⟨?_, Or.inr ⟨haborted', hsound.clock hi (Or.inl hbram.1), ?_, ?_, hbram.2⟩⟩
  · rw [Dma.clock_ebft, hctl, hebft]
    rfl
  · rw [Dma.clock_mxState, hmx]
  · rw [Dma.clock_ebmx, hmx, hebmx]
    rfl

omit hi hk hq h

/-- An event is a broadcast in two states only. -/
theorem Ft.ctl_broadcast {d : FtWidth} (t : Ft) (j : FtIn d) (has : (t.ctl j).as = true)
    (heof : (t.ctl j).eof = true) : t.state = .bc2 ∨ t.state = .bc4 := by
  cases hs : t.state with
  | bc2 => exact Or.inl rfl
  | bc4 => exact Or.inr rfl
  | _ =>
    simp only [Ft.ctl, hs] at has heof
    try split_ifs at has heof
    all_goals simp [FtCtl.count, FtCtl.ends] at has heof

theorem Dma.broadcast_state (hev : .broadcast ∈ s.events i) :
    s.ft.state = .bc2 ∨ s.ft.state = .bc4 := by
  by_cases hquiet : s.ft.flags.ebft = false ∨ s.m0Brq = true
  · rw [Dma.events_none hquiet] at hev
    exact absurd hev (List.not_mem_nil)
  · have hebft : s.ft.flags.ebft = true := by
      cases hb : s.ft.flags.ebft with
      | true => rfl
      | false => exact absurd (Or.inl hb) hquiet
    have hm0 : s.m0Brq = false := by
      cases hb : s.m0Brq with
      | true => exact absurd (Or.inr hb) hquiet
      | false => rfl
    rw [Dma.events_one hebft hm0, List.mem_singleton] at hev
    refine Ft.ctl_broadcast s.ft (s.ftIn i (s.answer i)) ?_ ?_
    · cases has : (s.ftCtl i).as with
      | true => exact has
      | false => simp [has] at hev
    · cases has : (s.ftCtl i).as with
      | true =>
        cases heof : (s.ftCtl i).eof with
        | true => exact heof
        | false => simp [has, heof] at hev
      | false => simp [has] at hev

/-- A broadcast tells that the transfer is complete, or that it was aborted. -/
theorem Dma.Stage.told {cur : BitVec 64 × List (BitVec 64)} (h : s.Stage D M k cur)
    (hs : s.ft.state = .bc2 ∨ s.ft.state = .bc4) :
    s.ft.errors0.err = false ↔ k = D.bursts := by
  have hover : s.Complete D k ∨ s.Aborted D k false false false := by
    rcases hs with hs | hs
    · simp only [Dma.Stage, hs] at h
      exact h.2.1
    · simp only [Dma.Stage, hs] at h
      exact h.2.2.1
  rcases hover with hcomplete | haborted
  · exact iff_of_true hcomplete.err hcomplete.all
  · have hearly := haborted.early
    refine iff_of_false ?_ (by omega)
    rw [haborted.err]
    decide

theorem Dma.Aborted.ended {go rund done : Bool} (h : s.Aborted D k go rund done) : s.Ended D k :=
  Or.inl ⟨h.err, h.early⟩

/-- The registers hold the descriptor, and the bit that starts it is cleared at the end only. -/
theorem Dma.Stage.holds {cur : BitVec 64 × List (BitVec 64)} (h : s.Stage D M k cur) :
    ∃ go rund done, s.regs.Holds D go rund done ∧ (go = false → s.Ended D k) := by
  have hruns : s.regs.Holds D true true false →
      ∃ go rund done, s.regs.Holds D go rund done ∧ (go = false → s.Ended D k) :=
    fun hregs => ⟨true, true, false, hregs, fun hgo => absurd hgo (by decide)⟩
  have hover : s.Complete D k ∨ s.Aborted D k false false false →
      ∃ go rund done, s.regs.Holds D go rund done ∧ (go = false → s.Ended D k) := by
    rintro (hcomplete | haborted)
    · exact hruns hcomplete.regs
    · exact ⟨_, _, _, haborted.regs, fun _ => haborted.ended⟩
  cases hs : s.ft.state with
  | iddle =>
    simp only [Dma.Stage, hs] at h
    obtain ⟨-, -, ⟨hregs, -⟩ | ⟨hregs, hended, -⟩⟩ := h
    · exact ⟨_, _, _, hregs, fun hgo => absurd hgo (by decide)⟩
    · exact ⟨_, _, _, hregs, fun _ => hended⟩
  | wait0 =>
    simp only [Dma.Stage, hs] at h
    exact ⟨_, _, _, h.2.1, fun hgo => absurd hgo (by decide)⟩
  | wait2 =>
    simp only [Dma.Stage, hs] at h
    exact ⟨_, _, _, h.2.1, fun hgo => absurd hgo (by decide)⟩
  | dat1 =>
    simp only [Dma.Stage, hs] at h
    obtain ⟨j, hword, -⟩ := h
    exact hruns hword.active.regs
  | dat2 =>
    simp only [Dma.Stage, hs] at h
    obtain ⟨j, -, hact, -⟩ := h
    exact hruns hact.regs
  | dat01 =>
    simp only [Dma.Stage, hs] at h
    exact hruns h.2.1.regs
  | end1 =>
    simp only [Dma.Stage, hs] at h
    obtain ⟨j, -, -, hact, -⟩ := h
    exact hruns hact.regs
  | end2 =>
    simp only [Dma.Stage, hs] at h
    exact hruns h.2.1.regs
  | bc1 =>
    simp only [Dma.Stage, hs] at h
    obtain ⟨-, ⟨hover', -⟩ | ⟨haborted, -⟩⟩ := h
    · exact hover hover'
    · exact ⟨_, _, _, haborted.regs, fun _ => haborted.ended⟩
  | bc2 =>
    simp only [Dma.Stage, hs] at h
    exact hover h.2.1
  | bc3 =>
    simp only [Dma.Stage, hs] at h
    exact hover h.2.1
  | bc4 =>
    simp only [Dma.Stage, hs] at h
    exact hover h.2.2.1
  | bc5 =>
    simp only [Dma.Stage, hs] at h
    obtain ⟨-, -, hended, -, hregs | hregs⟩ := h
    · exact hruns hregs
    · exact ⟨_, _, _, hregs, fun _ => hended⟩
  | bc6 =>
    simp only [Dma.Stage, hs] at h
    obtain ⟨-, -, hended, -, hregs | hregs⟩ := h
    · exact ⟨_, _, _, hregs, fun _ => hended⟩
    · exact ⟨_, _, _, hregs, fun _ => hended⟩
  | abrt1 =>
    simp only [Dma.Stage, hs] at h
    exact hruns h.2.1
  | abrt2 =>
    simp only [Dma.Stage, hs] at h
    exact ⟨_, _, _, h.2.1.regs, fun _ => h.2.1.ended⟩
  | brq1 | brq2 | brq3 | brq9 | adr1 | adr2 =>
    simp only [Dma.Stage, hs] at h
    exact hruns h.1.regs
  | _ =>
    simp only [Dma.Stage, hs] at h

/-! ### Every run -/

/-- What was collected is a part of the plan, and the stage fits. -/
def Dma.Serves (D : Descriptor) (M : ℕ → BitVec 32) (q : Collected) (s : Dma) : Prop :=
  s.ft.Plain ∧ ∃ k, k ≤ D.bursts ∧ q.done = D.first M k ∧ s.Stage D M k q.cur

theorem Dma.Stage.step (hi : i.Away) (hk : k ≤ D.bursts) (hq : q.done = D.first M k)
    (h : s.Stage D M k q.cur) (hplain : s.ft.Plain) : s.Goes D M q i := by
  cases hs : s.ft.state with
  | iddle => exact h.iddle hi hk hq hs hplain
  | wait0 => exact h.wait0 hi hk hq hs hplain
  | wait2 => exact h.wait2 hi hk hq hs hplain
  | brq1 => exact h.brq1 hi hk hq hs hplain
  | brq2 => exact h.brq2 hi hk hq hs hplain
  | brq3 => exact h.brq3 hi hk hq hs hplain
  | brq9 => exact h.brq9 hi hk hq hs hplain
  | adr1 => exact h.adr1 hi hk hq hs hplain
  | adr2 => exact h.adr2 hi hk hq hs hplain
  | dat1 => exact h.dat1 hi hk hq hs hplain
  | dat2 => exact h.dat2 hi hq hs hplain
  | dat01 => exact h.dat01 hi hq hs hplain
  | end1 => exact h.end1 hi hk hq hs hplain
  | end2 => exact h.end2 hi hk hq hs hplain
  | bc1 => exact h.bc1 hi hk hq hs hplain
  | bc2 => exact h.bc2 hi hk hq hs hplain
  | bc3 => exact h.bc3 hi hk hq hs hplain
  | bc4 => exact h.bc4 hi hk hq hs hplain
  | bc5 => exact h.bc5 hi hk hq hs hplain
  | bc6 => exact h.bc6 hi hk hq hs hplain
  | abrt1 => exact h.abrt1 hi hk hq hs hplain
  | abrt2 => exact h.abrt2 hi hk hq hs hplain
  | _ => simp only [Dma.Stage, hs] at h

/-- **Step lemma.** -/
theorem Dma.Serves.step (hi : i.Away) (h : s.Serves D M q) :
    (s.clock i).Serves D M ((s.events i).foldl Collected.next q) := by
  obtain ⟨hplain, k, hk, hq, hstage⟩ := h
  have hwait1 : s.ft.state ≠ .wait1 := by
    intro hs
    simp only [Dma.Stage, hs] at hstage
  obtain ⟨go, rund, done, hregs, -⟩ := hstage.holds
  exact ⟨hplain.clock hregs.loaded (s.ft.ctl_init1 _ hwait1), hstage.step hi hk hq hplain⟩

/-- Nothing goes on; `go` says whether the descriptor is about to start. -/
structure Dma.Rests (D : Descriptor) (M : ℕ → BitVec 32) (go : Bool) (s : Dma) : Prop where
  state : s.ft.state = .iddle
  run0 : s.ft.flags.run0 = false
  plain : s.ft.Plain
  regs : s.regs.Holds D go false false
  sound : s.Sound M
  free : s.Free

/-- **Run lemma.** -/
theorem Dma.Rests.serves (hready : s.Rests D M true) {ins : ℕ → DmaIn} (n : ℕ)
    (haway : ∀ c, c < n → (ins c).Away) :
    (drive Dma.clock s ins n).Serves D M (collect (shown Dma.clock Dma.events s ins n)) := by
  refine drive_history_on (fun log (t : Dma) => t.Serves D M (collect log))
    (fun _ j => j.Away) ?_ ?_ n haway
  · intro log t j hj h
    rw [collect, List.foldl_append]
    exact h.step hj
  · refine ⟨hready.plain, 0, Nat.zero_le _, rfl, ?_⟩
    simp only [Dma.Stage, hready.state]
    exact ⟨hready.run0, hready.free.ebft, Or.inl ⟨hready.regs, trivial, hready.sound, hready.free⟩⟩

theorem Descriptor.first_le_plan (D : Descriptor) (M : ℕ → BitVec 32) {k : ℕ} (hk : k ≤ D.bursts) :
    D.first M k <+: D.plan M := by
  obtain ⟨m, hm⟩ := Nat.exists_eq_add_of_le hk
  rw [Descriptor.plan, Descriptor.first, Descriptor.first, hm, List.range_add, List.map_append]
  exact List.prefix_append _ _

theorem Descriptor.first_eq_plan (D : Descriptor) (M : ℕ → BitVec 32) (k : ℕ) :
    D.first M k = D.plan M ↔ k = D.bursts := by
  constructor
  · intro h
    have hlength := congrArg List.length h
    simpa [Descriptor.first, Descriptor.plan] using hlength
  · rintro rfl
    rfl

end Served

/-- A descriptor of one word. -/
def oneWord : Descriptor :=
  ⟨8, 0x1122334400001000, 1, 4, by decide, by decide, by decide, by decide, by decide, by decide⟩

/-- The registers, with this descriptor. -/
def oneWordRegs : FtRegs ebftRegs where
  state := .iddle
  myself := false
  sDk := false
  ofst := 0
  regs a :=
    if a = 0 then 0x20001008 else if a = 3 then 0x00001000 else if a = 4 then 0x11223344
    else if a = 5 then 0x80000001 else if a = 12 then 0x20 else 0
  rmux := 0
  dma0Rund := false
  dma0Done := false
  dma1Rund := false
  dma1Done := false

/-- The controller at rest; the memory holds the offset in each word. -/
def oneWordStart : Dma where
  regs := oneWordRegs
  ft :=
    { state := .iddle
      flags := ⟨false, false, false, false, false, false, false⟩
      errors0 := ⟨false, false, false, false⟩
      errors1 := ⟨false, false, false, false⟩
      pauscnt := 0
      bcnt := 0
      fifos := ⟨false, 0, false, 0, 0⟩
      src := ⟨0, 0, 0⟩
      cnt := ⟨0, false, false, false, false⟩
      daburst := 0
      dma0Sts := 0
      dma1Sts := 0
      fifRdy := false
      fifEmpty := false
      dmaEot := false
      dmaErr := false }
  mx := ⟨.iddle, false, 0⟩
  bram := ⟨.iddle, false, false, false, 0, false, false⟩
  mem := ⟨fun a => BitVec.ofNat 32 a, 0, 0⟩
  m0Brq := false

/-- Everything is acknowledged. -/
def acknowledges : DmaIn := ⟨true, false, false, false, false, 0, none⟩

theorem acknowledges_away : acknowledges.Away := ⟨fun has => absurd has (by decide), rfl⟩

theorem oneWordStart_rests : oneWordStart.Rests oneWord (fun a => BitVec.ofNat 32 a) true where
  state := rfl
  run0 := rfl
  plain := ⟨rfl, rfl, rfl⟩
  regs := ⟨rfl, ⟨by decide, by decide, by decide, by decide, by decide, by decide⟩, rfl, rfl, rfl,
    rfl⟩
  sound := ⟨rfl, rfl, rfl, rfl⟩
  free := ⟨rfl, rfl, rfl, rfl⟩

end VPcie.Ebone
