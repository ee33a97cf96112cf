import VPcie.Lib.Runs
import Mathlib.Data.BitVec
import Mathlib.Logic.Function.Basic

/-!
# The register slave

`ebs_regs`: a stack of 32 bit registers behind the E-bone, the first ones read and write, the last
ones read only.  The process of its automaton is sensitive to all it reads, so its outputs are a
function of the state and of the bus.

* `RegsGenerics` — the generics, with what the three `assert`s demand;
* `Regs.ctl` — the automaton, `Regs.clock` — an edge, `Regs.dkO`, `errO`, `datO` — the drivers;
* `Regs.Quiet` — nobody has addressed the slave;
* `Regs.WriteAt`, `Regs.ReadAt` — it is in a burst, and the next word is that of an offset.
-/

namespace VPcie.Ebone

open VPcie.Lib

/-! ### Signals -/

/-- `state_typ` of `ebs_regs`. -/
inductive RegsState where
  | iddle
  | adrs
  | wr1
  | rd1
  | bcc1
  | bcc2
  | error
  | abort
deriving DecidableEq, Repr

/-- What the E-bone drives towards a slave. -/
structure Lines where
  bmx : Bool
  as : Bool
  eof : Bool
  dat : BitVec 32
deriving DecidableEq, Repr

/-- The generics; `EBS_AD_SIZE` is `2 ^ adLog`, so `UPRANGE` is `adLog - 1`. -/
structure RegsGenerics where
  adRnge : ℕ
  adBase : ℕ
  adLog : ℕ
  adOfst : ℕ
  mirq : BitVec 16
  roSize : ℕ
  woBits : ℕ
  two_le_adLog : 2 ≤ adLog
  ofst_aligned : 2 ^ adLog ∣ adOfst
  roSize_le : roSize ≤ 2 ^ adLog

/-- `EBS_AD_SIZE`. -/
def RegsGenerics.adSize (g : RegsGenerics) : ℕ := 2 ^ g.adLog

/-- The number of read and write registers, the range of `rw_typ`. -/
def RegsGenerics.rwSize (g : RegsGenerics) : ℕ := g.adSize - g.roSize

/-- The interrupt filter and the pending request. -/
structure RegsIrq where
  irq1 : Bool
  irq2 : Bool
  irq3 : Bool
  irq : Bool
  pendg : Bool
  rirq : BitVec 16
  iak : Bool
deriving DecidableEq, Repr

/-- The registers. -/
structure Regs (g : RegsGenerics) where
  state : RegsState
  myself : Bool
  irqBcall : Bool
  ofst : BitVec (g.adLog + 1)
  ovfErr : Bool
  rwRegs : ℕ → BitVec 32
  rmux : BitVec 32
  irqs : RegsIrq
  sDk : Bool

/-- What an edge samples: the bus, the read only registers, the interrupt request, and
`reg0_sclr_i`. -/
structure RegsIn where
  rst : Bool
  lines : Lines
  regsI : ℕ → BitVec 32
  irqI : Bool
  sclr : Bool

/-- What the process of the automaton drives. -/
structure RegsCtl where
  nextate : RegsState
  load : Bool
  ofld : Bool
  ofen : Bool
  bcall : Bool
  dk : Bool
  eof : Bool
  bwrite : Bool
  berr : Bool
deriving DecidableEq, Repr

/-! ### The logic of the processes -/

variable {g : RegsGenerics}

/-- `eb_bar = base` and `eb_amsb` is the upper part of `bofst`. -/
def RegsGenerics.selects (g : RegsGenerics) (dat : BitVec 32) : Bool :=
  dat.extractLsb' 28 2 == BitVec.ofNat 2 g.adBase &&
    dat.extractLsb' g.adLog (g.adRnge - g.adLog)
      == (BitVec.ofNat g.adRnge g.adOfst).extractLsb' g.adLog (g.adRnge - g.adLog)

/-- The lower bits of an address, the offset of a register. -/
def RegsGenerics.offset (g : RegsGenerics) (dat : BitVec 32) : BitVec g.adLog :=
  dat.setWidth g.adLog

/-- `ovf_wr`: a write to a read only register. -/
def RegsGenerics.ovfWr (g : RegsGenerics) (dat : BitVec 32) : Bool :=
  !dat.getLsbD 31 && decide (BitVec.ofNat g.adLog g.rwSize ≤ g.offset dat)

/-- What the process assigns before its `case`. -/
def RegsCtl.stay (state : RegsState) : RegsCtl :=
  ⟨state, false, false, false, false, false, false, false, false⟩

/-- The automaton. -/
def Regs.ctl (s : Regs g) (i : Lines) : RegsCtl :=
  let o := RegsCtl.stay s.state
  match s.state with
  | .iddle =>
    if i.bmx && i.as then
      if i.eof then { o with nextate := .bcc1 }
      else if g.selects i.dat then
        if g.ovfWr i.dat then { o with ofld := true, berr := true, nextate := .error }
        else { o with ofld := true, dk := true, nextate := .adrs }
      else o
    else o
  | .adrs =>
    if i.dat.getLsbD 31 then { o with dk := true, ofen := true, nextate := .rd1 }
    else { o with dk := true, nextate := .wr1 }
  | .wr1 =>
    let o := { o with bwrite := true }
    if i.bmx = false then { o with nextate := .abort }
    else
      let o := { o with dk := !i.eof }
      if i.as then o
      else
        let o := { o with load := true, ofen := true }
        if i.eof then { o with eof := true, nextate := .iddle } else o
  | .rd1 =>
    if i.bmx = false then { o with nextate := .abort }
    else
      let o := { o with dk := !i.eof, ofen := true }
      if i.eof then { o with eof := true, nextate := .iddle } else o
  | .bcc1 =>
    if i.dat.getLsbD 31 then { o with bcall := true, nextate := .bcc2 }
    else { o with nextate := .bcc2 }
  | .bcc2 =>
    if i.bmx = false then { o with nextate := .abort }
    else if i.eof then { o with eof := true, nextate := .iddle }
    else o
  | .error =>
    if i.bmx then { o with berr := true } else { o with eof := true, nextate := .iddle }
  | .abort => { o with eof := true, nextate := .iddle }

/-- The offset counter on an edge, and `ovf_err`. -/
def ofstClock {k : ℕ} (ofst : BitVec (k + 1)) (ofld ofen : Bool) (offset : BitVec k) :
    BitVec (k + 1) × Bool :=
  if ofld then (offset.setWidth (k + 1), false)
  else if ofen then if ofst.msb then (ofst, true) else (ofst + 1, false)
  else (ofst, false)

/-- The low bits of register 0, cleared. -/
def selfClear (woBits : ℕ) (w : BitVec 32) : BitVec 32 := (w >>> woBits) <<< woBits

/-- The register stack on an edge; the word that is loaded wins over the self clear. -/
def Regs.store (s : Regs g) (i : RegsIn) (load : Bool) : ℕ → BitVec 32 := fun a =>
  if load && (decide (s.ofst.toNat = a) && decide (a < g.rwSize)) then i.lines.dat
  else if i.sclr && decide (a = 0) then selfClear g.woBits (s.rwRegs 0)
  else s.rwRegs a

/-- What is read at an offset; beyond the last register there is nothing to read. -/
def RegsGenerics.readAt (g : RegsGenerics) (rw ro : ℕ → BitVec 32) (a : ℕ) : Option (BitVec 32) :=
  if a < g.rwSize then some (rw a) else if a < g.adSize then some (ro a) else none

/-- The interrupt registers on an edge. -/
def RegsIrq.clock (q : RegsIrq) (rst irqI bcall : Bool) (mirq : BitVec 16) : RegsIrq where
  irq1 := irqI
  irq2 := q.irq1
  irq3 := q.irq2
  irq := (q.irq1 && q.irq2) && !q.irq3
  pendg := !rst && ((q.irq || q.pendg) && !bcall)
  rirq := if rst then 0 else if q.pendg then mirq else 0
  iak := q.pendg

/-- A rising edge. -/
def Regs.clock (s : Regs g) (i : RegsIn) : Regs g :=
  let c := s.ctl i.lines
  let (ofst, ovfErr) := ofstClock s.ofst c.ofld c.ofen (g.offset i.lines.dat)
  { state := if i.rst then .iddle else c.nextate
    myself := !i.rst && ((c.ofld || s.myself) && !(c.eof || s.ovfErr))
    irqBcall := !i.rst && ((c.bcall || s.irqBcall) && !c.eof)
    ofst := ofst
    ovfErr := ovfErr
    rwRegs := s.store i c.load
    rmux := (g.readAt s.rwRegs i.regsI s.ofst.toNat).getD s.rmux
    irqs := s.irqs.clock i.rst i.irqI (s.irqBcall && c.eof) g.mirq
    sDk := c.dk && !s.ovfErr }

/-! ### The drivers -/

/-- `eb_dk_o`. -/
def Regs.dkO (s : Regs g) : Bool := s.myself && s.sDk

/-- `eb_err_o`. -/
def Regs.errO (s : Regs g) (i : Lines) : Bool := s.myself && (s.ctl i).berr

/-- `eb_dat_o`. -/
def Regs.datO (s : Regs g) : BitVec 32 :=
  if s.myself then s.rmux else if s.irqBcall then s.irqs.rirq.setWidth 32 else 0

/-- `regs_ofs_o`, `regs_ofswr_o` and `regs_ofsrd_o`. -/
def Regs.ofsO (s : Regs g) (i : Lines) : BitVec g.adLog × Bool × Bool :=
  let c := s.ctl i
  (s.ofst.setWidth g.adLog, c.ofen && c.bwrite, c.ofen && !c.eof && !c.bwrite)

/-! ### The register stack -/

/-- A word is stored at an offset, if that is one of a read and write register. -/
def RegsGenerics.put (g : RegsGenerics) (rw : ℕ → BitVec 32) (a : ℕ) (w : BitVec 32) :
    ℕ → BitVec 32 :=
  if a < g.rwSize then Function.update rw a w else rw

/-- What the self clear leaves. -/
def RegsGenerics.tick (g : RegsGenerics) (sclr : Bool) (rw : ℕ → BitVec 32) : ℕ → BitVec 32 :=
  if sclr then Function.update rw 0 (selfClear g.woBits (rw 0)) else rw

theorem selfClear_idem (woBits : ℕ) (w : BitVec 32) :
    selfClear woBits (selfClear woBits w) = selfClear woBits w := by
  apply BitVec.eq_of_getLsbD_eq
  intro j hj
  by_cases hlow : j < woBits
  · simp [selfClear, hlow]
  · simp [selfClear, hlow, hj, show woBits + (j - woBits) = j by omega]

theorem tick_tick (sclr : Bool) (rw : ℕ → BitVec 32) :
    g.tick sclr (g.tick sclr rw) = g.tick sclr rw := by
  cases sclr with
  | false => rfl
  | true => simp [RegsGenerics.tick, selfClear_idem]

theorem Regs.store_idle (s : Regs g) (i : RegsIn) :
    s.store i false = g.tick i.sclr s.rwRegs := by
  funext a
  cases hsclr : i.sclr with
  | false => simp [Regs.store, RegsGenerics.tick, hsclr]
  | true =>
    by_cases ha : a = 0
    · simp [Regs.store, RegsGenerics.tick, hsclr, ha]
    · simp [Regs.store, RegsGenerics.tick, hsclr, ha]

theorem Regs.store_load (s : Regs g) (i : RegsIn) :
    s.store i true = g.put (g.tick i.sclr s.rwRegs) s.ofst.toNat i.lines.dat := by
  funext a
  rw [← s.store_idle i, RegsGenerics.put]
  by_cases ha : s.ofst.toNat = a
  · subst ha
    by_cases hlt : s.ofst.toNat < g.rwSize
    · simp [Regs.store, hlt]
    · simp [Regs.store, hlt]
  · by_cases hlt : s.ofst.toNat < g.rwSize
    · simp [Regs.store, ha, hlt, Function.update_of_ne (Ne.symm ha)]
    · simp [Regs.store, ha, hlt]

/-- There is something to read at every offset of the slave. -/
theorem readAt_of_lt (rw ro : ℕ → BitVec 32) {a : ℕ} (ha : a < g.adSize) :
    ∃ w, g.readAt rw ro a = some w := by
  by_cases hlt : a < g.rwSize
  · exact ⟨rw a, if_pos hlt⟩
  · exact ⟨ro a, by rw [RegsGenerics.readAt, if_neg hlt, if_pos ha]⟩

theorem rwSize_le (g : RegsGenerics) : g.rwSize ≤ g.adSize := Nat.sub_le _ _

/-- Beyond the last register nothing is stored. -/
theorem put_min (rw : ℕ → BitVec 32) (a : ℕ) (w : BitVec 32) :
    g.put rw (min a g.adSize) w = g.put rw a w := by
  by_cases ha : a ≤ g.adSize
  · rw [Nat.min_eq_left ha]
  · have hle := rwSize_le g
    rw [RegsGenerics.put, RegsGenerics.put, if_neg (by omega), if_neg (by omega)]

/-! ### The offset counter -/

section Offset

variable {k : ℕ} {ofst : BitVec (k + 1)}

theorem msb_ofst : ofst.msb = decide (2 ^ k ≤ ofst.toNat) := by
  rw [BitVec.msb_eq_decide, Nat.add_sub_cancel]

/-- It counts up to `EBS_AD_SIZE`, where the overflow bit is set. -/
theorem ofstClock_ofen (hle : ofst.toNat ≤ 2 ^ k) (offset : BitVec k) :
    (ofstClock ofst false true offset).1.toNat = min (ofst.toNat + 1) (2 ^ k) ∧
      (ofstClock ofst false true offset).2 = decide (ofst.toNat = 2 ^ k) := by
  have hmsb : ofst.msb = decide (2 ^ k ≤ ofst.toNat) := msb_ofst
  by_cases hfull : ofst.toNat = 2 ^ k
  · rw [hfull, decide_eq_true (Nat.le_refl _)] at hmsb
    simp [ofstClock, hmsb, hfull]
  · have hlt : ofst.toNat + 1 < 2 ^ (k + 1) := by
      rw [Nat.pow_succ]
      omega
    rw [decide_eq_false (by omega)] at hmsb
    have hadd : (ofst + 1#(k + 1)).toNat = ofst.toNat + 1 := by
      rw [BitVec.toNat_add, BitVec.toNat_ofNat, Nat.add_mod_mod, Nat.mod_eq_of_lt hlt]
    have hclock : ofstClock ofst false true offset = (ofst + 1#(k + 1), false) := by
      simp [ofstClock, hmsb]
    rw [hclock, hadd, decide_eq_false hfull]
    exact ⟨(Nat.min_eq_left (by omega)).symm, rfl⟩

theorem ofstClock_ofld (ofen : Bool) (offset : BitVec k) :
    ofstClock ofst true ofen offset = (offset.setWidth (k + 1), false) := rfl

theorem ofstClock_keep (offset : BitVec k) :
    ofstClock ofst false false offset = (ofst, false) := rfl

end Offset

/-! ### What an edge does -/

/-- Nobody has addressed the slave: it drives nothing. -/
structure Regs.Quiet (s : Regs g) : Prop where
  state : s.state = .iddle
  myself : s.myself = false
  bcall : s.irqBcall = false
  sDk : s.sDk = false

/-- The slave has taken an address. -/
structure Regs.Addressed (s : Regs g) (a : ℕ) : Prop where
  state : s.state = .adrs
  myself : s.myself = true
  bcall : s.irqBcall = false
  sDk : s.sDk = true
  ovf : s.ovfErr = false
  ofst : s.ofst.toNat = a

/-- It is in a burst write, and the next word is for this offset. -/
structure Regs.WriteAt (s : Regs g) (a : ℕ) : Prop where
  state : s.state = .wr1
  bcall : s.irqBcall = false
  ofst : s.ofst.toNat = min a g.adSize
  acks : a ≤ g.adSize → s.myself = true ∧ s.sDk = true ∧ s.ovfErr = false

/-- It is in a burst read, and shows the register at this offset. -/
structure Regs.ReadAt (s : Regs g) (ro : ℕ → BitVec 32) (a : ℕ) : Prop where
  state : s.state = .rd1
  bcall : s.irqBcall = false
  ofst : s.ofst.toNat = min (a + 1) g.adSize
  acks : a < g.adSize → s.myself = true ∧ s.sDk = true ∧ s.ovfErr = false ∧
    g.readAt s.rwRegs ro a = some s.rmux

/-- It has refused a write to a read only register. -/
structure Regs.Refused (s : Regs g) : Prop where
  state : s.state = .error
  bcall : s.irqBcall = false
  sDk : s.sDk = false

theorem Regs.Quiet.dkO {s : Regs g} (h : s.Quiet) : s.dkO = false := by
  rw [Regs.dkO, h.myself, Bool.false_and]

theorem Regs.Quiet.errO {s : Regs g} (h : s.Quiet) (i : Lines) : s.errO i = false := by
  rw [Regs.errO, h.myself, Bool.false_and]

theorem Regs.Quiet.datO {s : Regs g} (h : s.Quiet) : s.datO = 0 := by
  simp [Regs.datO, h.myself, h.bcall]

section Edge

variable {s : Regs g} {i : RegsIn} (hrst : i.rst = false)
include hrst

/-- What is not for the slave leaves it alone. -/
theorem Regs.Quiet.away (h : s.Quiet) (hl : (i.lines.bmx && i.lines.as) = false ∨
    i.lines.eof = false ∧ g.selects i.lines.dat = false) :
    (s.clock i).Quiet ∧ (s.clock i).ovfErr = false ∧
      (s.clock i).rwRegs = g.tick i.sclr s.rwRegs := by
  have hctl : s.ctl i.lines = RegsCtl.stay .iddle := by
    rw [Regs.ctl, h.state]
    rcases hl with hl | ⟨heof, hsel⟩
    · simp [hl]
    · simp [heof, hsel]
  refine ⟨⟨?_, ?_, ?_, ?_⟩, ?_, ?_⟩
  · simp [Regs.clock, hctl, hrst, RegsCtl.stay]
  · simp [Regs.clock, hctl, RegsCtl.stay, h.myself]
  · simp [Regs.clock, hctl, RegsCtl.stay, h.bcall]
  · simp [Regs.clock, hctl, RegsCtl.stay]
  · simp [Regs.clock, hctl, RegsCtl.stay, ofstClock_keep]
  · simp [Regs.clock, hctl, RegsCtl.stay, s.store_idle]

/-- An address in the window is taken. -/
theorem Regs.Quiet.addressed (h : s.Quiet) (hovf : s.ovfErr = false) (hbmx : i.lines.bmx = true)
    (has : i.lines.as = true) (heof : i.lines.eof = false) (hsel : g.selects i.lines.dat = true)
    (hwr : g.ovfWr i.lines.dat = false) :
    (s.clock i).Addressed (g.offset i.lines.dat).toNat ∧
      (s.clock i).rwRegs = g.tick i.sclr s.rwRegs := by
  have hctl : s.ctl i.lines
      = { RegsCtl.stay .iddle with ofld := true, dk := true, nextate := .adrs } := by
    rw [Regs.ctl, h.state]
    simp [hbmx, has, heof, hsel, hwr]
  refine ⟨⟨?_, ?_, ?_, ?_, ?_, ?_⟩, ?_⟩
  · simp [Regs.clock, hctl, hrst]
  · simp [Regs.clock, hctl, hrst, RegsCtl.stay, hovf]
  · simp [Regs.clock, hctl, RegsCtl.stay, h.bcall]
  · simp [Regs.clock, hctl, hovf]
  · simp [Regs.clock, hctl, ofstClock_ofld]
  · simp [Regs.clock, hctl, ofstClock_ofld]
  · simp [Regs.clock, hctl, RegsCtl.stay, s.store_idle]

/-- A write to a read only register is refused. -/
theorem Regs.Quiet.refuses (h : s.Quiet) (hbmx : i.lines.bmx = true) (has : i.lines.as = true)
    (heof : i.lines.eof = false) (hsel : g.selects i.lines.dat = true)
    (hwr : g.ovfWr i.lines.dat = true) :
    (s.clock i).Refused ∧ (s.clock i).rwRegs = g.tick i.sclr s.rwRegs := by
  have hctl : s.ctl i.lines
      = { RegsCtl.stay .iddle with ofld := true, berr := true, nextate := .error } := by
    rw [Regs.ctl, h.state]
    simp [hbmx, has, heof, hsel, hwr]
  refine ⟨⟨?_, ?_, ?_⟩, ?_⟩
  · simp [Regs.clock, hctl, hrst]
  · simp [Regs.clock, hctl, RegsCtl.stay, h.bcall]
  · simp [Regs.clock, hctl, RegsCtl.stay]
  · simp [Regs.clock, hctl, RegsCtl.stay, s.store_idle]

/-- The bus is busy: the slave goes on refusing. -/
theorem Regs.Refused.stays (h : s.Refused) (hbmx : i.lines.bmx = true) :
    (s.clock i).Refused ∧ (s.clock i).rwRegs = g.tick i.sclr s.rwRegs := by
  have hctl : s.ctl i.lines = { RegsCtl.stay .error with berr := true } := by
    rw [Regs.ctl, h.state]
    simp [hbmx]
  refine ⟨⟨?_, ?_, ?_⟩, ?_⟩
  · simp [Regs.clock, hctl, hrst, RegsCtl.stay]
  · simp [Regs.clock, hctl, RegsCtl.stay, h.bcall]
  · simp [Regs.clock, hctl, RegsCtl.stay]
  · simp [Regs.clock, hctl, RegsCtl.stay, s.store_idle]

omit hrst in
/-- The bus is released. -/
theorem Regs.Refused.released (h : s.Refused) (hbmx : i.lines.bmx = false) :
    (s.clock i).Quiet ∧ (s.clock i).ovfErr = false ∧
      (s.clock i).rwRegs = g.tick i.sclr s.rwRegs := by
  have hctl : s.ctl i.lines = { RegsCtl.stay .error with eof := true, nextate := .iddle } := by
    rw [Regs.ctl, h.state]
    simp [hbmx]
  refine ⟨⟨?_, ?_, ?_, ?_⟩, ?_, ?_⟩
  · simp [Regs.clock, hctl]
  · simp [Regs.clock, hctl]
  · simp [Regs.clock, hctl]
  · simp [Regs.clock, hctl, RegsCtl.stay]
  · simp [Regs.clock, hctl, RegsCtl.stay, ofstClock_keep]
  · simp [Regs.clock, hctl, RegsCtl.stay, s.store_idle]

/-- The direction is read from the bus once more. -/
theorem Regs.Addressed.write {a : ℕ} (h : s.Addressed a) (ha : a < g.adSize)
    (hdir : i.lines.dat.getLsbD 31 = false) :
    (s.clock i).WriteAt a ∧ (s.clock i).rwRegs = g.tick i.sclr s.rwRegs := by
  have hctl : s.ctl i.lines = { RegsCtl.stay .adrs with dk := true, nextate := .wr1 } := by
    rw [Regs.ctl, h.state]
    exact if_neg (by rw [hdir]; decide)
  refine ⟨⟨?_, ?_, ?_, fun _ => ⟨?_, ?_, ?_⟩⟩, ?_⟩
  · simp [Regs.clock, hctl, hrst]
  · simp [Regs.clock, hctl, RegsCtl.stay, h.bcall]
  · rw [Nat.min_eq_left (Nat.le_of_lt ha), ← h.ofst]
    simp [Regs.clock, hctl, RegsCtl.stay, ofstClock_keep]
  · simp [Regs.clock, hctl, RegsCtl.stay, hrst, h.myself, h.ovf]
  · simp [Regs.clock, hctl, h.ovf]
  · simp [Regs.clock, hctl, RegsCtl.stay, ofstClock_keep]
  · simp [Regs.clock, hctl, RegsCtl.stay, s.store_idle]

theorem Regs.Addressed.read {a : ℕ} (h : s.Addressed a) (ha : a < g.adSize)
    (hdir : i.lines.dat.getLsbD 31 = true) (hrw : g.tick i.sclr s.rwRegs = s.rwRegs) :
    (s.clock i).ReadAt i.regsI a ∧ (s.clock i).rwRegs = s.rwRegs := by
  have hctl : s.ctl i.lines
      = { RegsCtl.stay .adrs with dk := true, ofen := true, nextate := .rd1 } := by
    rw [Regs.ctl, h.state]
    exact if_pos hdir
  have hle : s.ofst.toNat ≤ 2 ^ g.adLog := by
    rw [h.ofst]
    exact Nat.le_of_lt ha
  obtain ⟨hofst, hovf⟩ := ofstClock_ofen hle (g.offset i.lines.dat)
  have hstore : (s.clock i).rwRegs = s.rwRegs := by
    rw [← hrw]
    simp [Regs.clock, hctl, RegsCtl.stay, s.store_idle]
  refine ⟨⟨?_, ?_, ?_, fun _ => ⟨?_, ?_, ?_, ?_⟩⟩, hstore⟩
  · simp [Regs.clock, hctl, hrst]
  · simp [Regs.clock, hctl, RegsCtl.stay, h.bcall]
  · rw [← h.ofst, RegsGenerics.adSize, ← hofst]
    simp [Regs.clock, hctl, RegsCtl.stay]
  · simp [Regs.clock, hctl, RegsCtl.stay, hrst, h.myself, h.ovf]
  · simp [Regs.clock, hctl, h.ovf]
  · rw [h.ofst, decide_eq_false (show a ≠ 2 ^ g.adLog from Nat.ne_of_lt ha)] at hovf
    rw [← hovf]
    simp [Regs.clock, hctl, RegsCtl.stay]
  · rw [hstore]
    obtain ⟨w, hw⟩ := readAt_of_lt s.rwRegs i.regsI ha
    simp [Regs.clock, h.ofst, hw]

/-- The address is held longer. -/
theorem Regs.WriteAt.holds {a : ℕ} (h : s.WriteAt a) (hbmx : i.lines.bmx = true)
    (has : i.lines.as = true) (heof : i.lines.eof = false) :
    (s.clock i).WriteAt a ∧ (s.clock i).rwRegs = g.tick i.sclr s.rwRegs := by
  have hctl : s.ctl i.lines = { RegsCtl.stay .wr1 with bwrite := true, dk := true } := by
    rw [Regs.ctl, h.state]
    simp [hbmx, has, heof]
  refine ⟨⟨?_, ?_, ?_, fun ha => ?_⟩, ?_⟩
  · simp [Regs.clock, hctl, hrst, RegsCtl.stay]
  · simp [Regs.clock, hctl, RegsCtl.stay, h.bcall]
  · rw [← h.ofst]
    simp [Regs.clock, hctl, RegsCtl.stay, ofstClock_keep]
  · obtain ⟨hmyself, -, hovf⟩ := h.acks ha
    simp [Regs.clock, hctl, RegsCtl.stay, ofstClock_keep, hrst, hmyself, hovf]
  · simp [Regs.clock, hctl, RegsCtl.stay, s.store_idle]

/-- A word of a burst write is stored, and the last one ends it. -/
theorem Regs.WriteAt.word {a : ℕ} (h : s.WriteAt a) (hbmx : i.lines.bmx = true)
    (has : i.lines.as = false) :
    (s.clock i).rwRegs = g.put (g.tick i.sclr s.rwRegs) a i.lines.dat ∧
      if i.lines.eof then (s.clock i).Quiet else (s.clock i).WriteAt (a + 1) := by
  have hctl : s.ctl i.lines = ⟨if i.lines.eof then .iddle else .wr1, true, false, true, false,
      !i.lines.eof, i.lines.eof, true, false⟩ := by
    rw [Regs.ctl, h.state]
    cases heof : i.lines.eof with
    | true => simp [hbmx, has, RegsCtl.stay]
    | false => simp [hbmx, has, RegsCtl.stay]
  have hle : s.ofst.toNat ≤ 2 ^ g.adLog := by
    rw [h.ofst]
    exact Nat.min_le_right _ _
  obtain ⟨hofst, hovf⟩ := ofstClock_ofen hle (g.offset i.lines.dat)
  have hstore : (s.clock i).rwRegs = g.put (g.tick i.sclr s.rwRegs) a i.lines.dat := by
    rw [← put_min, ← h.ofst, ← s.store_load i]
    simp [Regs.clock, hctl]
  refine ⟨hstore, ?_⟩
  cases heof : i.lines.eof with
  | true =>
    refine ⟨?_, ?_, ?_, ?_⟩
    · simp [Regs.clock, hctl, heof]
    · simp [Regs.clock, hctl, heof]
    · simp [Regs.clock, hctl, heof]
    · simp [Regs.clock, hctl, heof]
  | false =>
    refine ⟨?_, ?_, ?_, fun ha => ?_⟩
    · simp [Regs.clock, hctl, hrst, heof]
    · simp [Regs.clock, hctl, h.bcall]
    · rw [show (s.clock i).ofst = (ofstClock s.ofst false true (g.offset i.lines.dat)).1 by
        simp [Regs.clock, hctl], hofst, h.ofst, RegsGenerics.adSize]
      omega
    · obtain ⟨hmyself, -, hnovf⟩ := h.acks (Nat.le_of_succ_le ha)
      have hnow : (s.clock i).ovfErr = false := by
        rw [show (s.clock i).ovfErr = (ofstClock s.ofst false true (g.offset i.lines.dat)).2 by
          simp [Regs.clock, hctl], hovf, h.ofst, RegsGenerics.adSize]
        rw [RegsGenerics.adSize] at ha
        exact decide_eq_false (by omega)
      refine ⟨?_, ?_, hnow⟩
      · simp [Regs.clock, hctl, hrst, heof, hmyself, hnovf]
      · simp [Regs.clock, hctl, heof, hnovf]

/-- The registers of a burst read follow each other, and the last word ends it. -/
theorem Regs.ReadAt.word {a : ℕ} (h : s.ReadAt i.regsI a) (hbmx : i.lines.bmx = true)
    (hrw : g.tick i.sclr s.rwRegs = s.rwRegs) :
    (s.clock i).rwRegs = s.rwRegs ∧
      if i.lines.eof then (s.clock i).Quiet else (s.clock i).ReadAt i.regsI (a + 1) := by
  have hctl : s.ctl i.lines = ⟨if i.lines.eof then .iddle else .rd1, false, false, true, false,
      !i.lines.eof, i.lines.eof, false, false⟩ := by
    rw [Regs.ctl, h.state]
    cases heof : i.lines.eof with
    | true => simp [hbmx, RegsCtl.stay]
    | false => simp [hbmx, RegsCtl.stay]
  have hle : s.ofst.toNat ≤ 2 ^ g.adLog := by
    rw [h.ofst]
    exact Nat.min_le_right _ _
  obtain ⟨hofst, hovf⟩ := ofstClock_ofen hle (g.offset i.lines.dat)
  have hstore : (s.clock i).rwRegs = s.rwRegs := by
    rw [← hrw]
    simp [Regs.clock, hctl, s.store_idle]
  refine ⟨hstore, ?_⟩
  cases heof : i.lines.eof with
  | true =>
    refine ⟨?_, ?_, ?_, ?_⟩
    · simp [Regs.clock, hctl, heof]
    · simp [Regs.clock, hctl, heof]
    · simp [Regs.clock, hctl, heof]
    · simp [Regs.clock, hctl, heof]
  | false =>
    refine ⟨?_, ?_, ?_, fun ha => ?_⟩
    · simp [Regs.clock, hctl, hrst, heof]
    · simp [Regs.clock, hctl, h.bcall]
    · rw [show (s.clock i).ofst = (ofstClock s.ofst false true (g.offset i.lines.dat)).1 by
        simp [Regs.clock, hctl], hofst, h.ofst, RegsGenerics.adSize]
      omega
    · obtain ⟨hmyself, -, hnovf, -⟩ := h.acks (Nat.lt_of_succ_lt ha)
      have hat : s.ofst.toNat = a + 1 := by
        rw [h.ofst]
        exact Nat.min_eq_left (Nat.le_of_lt ha)
      have hnow : (s.clock i).ovfErr = false := by
        rw [show (s.clock i).ovfErr = (ofstClock s.ofst false true (g.offset i.lines.dat)).2 by
          simp [Regs.clock, hctl], hovf, hat]
        exact decide_eq_false (Nat.ne_of_lt ha)
      refine ⟨?_, ?_, hnow, ?_⟩
      · simp [Regs.clock, hctl, hrst, heof, hmyself, hnovf]
      · simp [Regs.clock, hctl, heof, hnovf]
      · obtain ⟨w, hw⟩ := readAt_of_lt s.rwRegs i.regsI ha
        rw [hstore]
        simp [Regs.clock, hat, hw]

end Edge

end VPcie.Ebone
