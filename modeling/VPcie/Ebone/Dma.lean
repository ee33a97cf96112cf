import VPcie.Ebone.Core
import VPcie.Ebone.FtSource

/-!
# The DMA controller

`ebftm_regs`, the registers of the DMA controller, and `ebm_ebft` in `rashpa_top`: the fast
transmitter reads a memory on the second E-bone, where it is the only master.  The other master of
the first E-bone asks for it at any time when it is free; whatever is addressed there may answer
anything.

* `FtRegs.ctl`, `FtRegs.clock` — the registers;
* `Dma.answer`, `Dma.ftCtl`, `Dma.mxCtl`, `Dma.lines2` — the signals between two edges;
* `Dma.settled` — they are what every process drives;
* `Dma.clock` — an edge, `Dma.events` — what the fast transmitter shows on the first E-bone.
-/

namespace VPcie.Ebone

/-! ### The registers -/

/-- `state_typ` of `ebftm_regs`. -/
inductive FtRegsState where
  | iddle
  | adrs
  | wr1
  | rd1
  | bcc1
  | abort
deriving DecidableEq, Repr

/-- The generics; `EBS_AD_SIZE` is 16, as `ebm_ebft` asserts, and there are 14 read and write
registers. -/
structure FtRegsGenerics where
  adRnge : ℕ
  adBase : ℕ
  adOfst : ℕ
  ofst_aligned : 16 ∣ adOfst

/-- The registers, and the detectors of the end of a run. -/
structure FtRegs (g : FtRegsGenerics) where
  state : FtRegsState
  myself : Bool
  sDk : Bool
  ofst : BitVec 5
  regs : ℕ → BitVec 32
  rmux : BitVec 32
  dma0Rund : Bool
  dma0Done : Bool
  dma1Rund : Bool
  dma1Done : Bool

/-- What the process of the automaton drives. -/
structure FtRegsCtl where
  nextate : FtRegsState
  load : Bool := false
  ofld : Bool := false
  ofen : Bool := false
  dk : Bool := false
  eof : Bool := false
deriving DecidableEq, Repr

/-- The status that is read. -/
structure FtStatus where
  dma0Stat : BitVec 32
  dma1Stat : BitVec 32
  dmaStat : BitVec 8
deriving DecidableEq, Repr

section Regs

variable {g : FtRegsGenerics}

/-- `eb_bar = base` and `eb_amsb` is the upper part of `bofst`. -/
def FtRegsGenerics.selects (g : FtRegsGenerics) (dat : BitVec 32) : Bool :=
  dat.extractLsb' 28 2 == BitVec.ofNat 2 g.adBase &&
    dat.extractLsb' 4 (g.adRnge - 4)
      == (BitVec.ofNat g.adRnge g.adOfst).extractLsb' 4 (g.adRnge - 4)

/-- The automaton. -/
def FtRegs.ctl (s : FtRegs g) (i : Lines) : FtRegsCtl :=
  let o : FtRegsCtl := { nextate := s.state }
  match s.state with
  | .iddle =>
    if i.bmx && i.as then
      if i.eof then { o with nextate := .bcc1 }
      else if g.selects i.dat then { o with ofld := true, dk := true, nextate := .adrs }
      else o
    else o
  | .adrs =>
    if i.dat.getLsbD 31 then { o with dk := true, ofen := true, nextate := .rd1 }
    else { o with dk := true, nextate := .wr1 }
  | .wr1 =>
    if i.bmx = false then { o with nextate := .abort }
    else
      let o := { o with dk := !i.eof }
      if i.as then o
      else
        let o := { o with load := true, ofen := true }
        if i.eof then { o with eof := true, nextate := .iddle } else o
  | .rd1 =>
    if i.bmx = false then { o with nextate := .abort }
    else
      let o := { o with dk := !i.eof }
      if i.eof then { o with eof := true, nextate := .iddle } else { o with ofen := true }
  | .bcc1 =>
    if i.bmx = false then { o with nextate := .abort }
    else if i.eof then { o with eof := true, nextate := .iddle }
    else o
  | .abort => { o with eof := true, nextate := .iddle }

/-- The bit that starts a descriptor, cleared. -/
def goCleared (done : Bool) (w : BitVec 32) : BitVec 32 := if done then w &&& 0x7fffffff else w

/-- The register stack on an edge; the self clear wins over the word that is loaded. -/
def FtRegs.store (s : FtRegs g) (i : Lines) (load : Bool) (a : ℕ) : BitVec 32 :=
  let w := if load && (decide (s.ofst.toNat = a) && decide (a < 14)) then i.dat else s.regs a
  if a = 5 then goCleared s.dma0Done w else if a = 5 + 6 then goCleared s.dma1Done w else w

/-- What is read at an offset. -/
def FtRegs.readAt (s : FtRegs g) (st : FtStatus) (a : ℕ) : Option (BitVec 32) :=
  if a < 13 then some (s.regs a)
  else if a = 13 then some (st.dmaStat ++ (s.regs 13).setWidth 24)
  else if a = 14 then some st.dma0Stat
  else if a = 15 then some st.dma1Stat
  else none

/-- A rising edge. -/
def FtRegs.clock (s : FtRegs g) (rst : Bool) (i : Lines) (st : FtStatus) : FtRegs g :=
  let c := s.ctl i
  let oerr := s.ofst.msb && c.ofen
  { state := if rst then .iddle else c.nextate
    myself := !rst && ((c.ofld || s.myself) && !(c.eof || oerr))
    sDk := c.dk && !oerr
    ofst := if c.ofld then i.dat.setWidth 5 else if c.ofen then s.ofst + 1 else s.ofst
    regs := s.store i c.load
    rmux := (s.readAt st s.ofst.toNat).getD s.rmux
    dma0Rund := st.dma0Stat.msb
    dma0Done := rst || s.dma0Rund && !st.dma0Stat.msb
    dma1Rund := st.dma1Stat.msb
    dma1Done := rst || s.dma1Rund && !st.dma1Stat.msb }

/-- The drivers; `eb_err_o` is always `'0'`. -/
def FtRegs.slaveLines (s : FtRegs g) : SlaveLines where
  dk := s.myself && s.sDk
  err := false
  dat := if s.myself then s.rmux else 0

end Regs

/-! ### The controller and its memory -/

/-- The window of the registers in `rashpa_top`. -/
def ebftRegs : FtRegsGenerics where
  adRnge := 16
  adBase := 1
  adOfst := 0x100
  ofst_aligned := by decide

/-- The window of `dacq_ebs_bram`. -/
def dacqBram : BramGenerics where
  adRnge := 16
  adBase := 2
  adLog := 10
  adOfst := 0x1000
  two_le_adLog := by decide
  ofst_aligned := by decide

/-- All registers; `m0Brq` is that the other master has the first E-bone. -/
structure Dma where
  regs : FtRegs ebftRegs
  ft : Ft
  mx : Mx 64
  bram : Bram dacqBram
  mem : DualPort
  m0Brq : Bool

/-- The inputs of a cycle: what answers on the first E-bone, whether the other master wants it, what
that master drives, and what is written to the memory. -/
structure DmaIn where
  dk : Bool
  err : Bool
  wants : Bool
  as : Bool
  eof : Bool
  dat : BitVec 32
  wr : Option (BitVec 10 × BitVec 32)

/-! ### Between two edges -/

/-- The slave without its lines: nothing but `eb_bmx` matters for its answer. -/
def Dma.lines0 (s : Dma) : BramLines := ⟨s.mx.ebmx, false, false, false, 0⟩

/-- The second E-bone, as its master sees it; it is granted to the master that asks. -/
def Dma.mxBus (s : Dma) : MxBus :=
  ⟨s.mx.ebmx, s.bram.dk s.lines0 false, s.bram.err s.lines0 false, s.mx.ebmx, false⟩

/-- What reaches the fast transmitter; `cmd_*_i` and `ebx2_msg_dat_i` are `'0'`. -/
def Dma.ftIn (s : Dma) (i : DmaIn) (answer : MxAnswer) : FtIn .w64 where
  rst := false
  bmx := s.m0Brq
  bft := s.ft.flags.ebft && !s.m0Brq
  dk := i.dk
  err := i.err
  dmaRegs := s.regs.regs
  fifReady := false
  fifEmpty := false
  cmd := ⟨false, false, false, false⟩
  mx := answer
  mxDout := s.mx.dout

section Signals

variable (s : Dma) (i : DmaIn) (ans : MxAnswer)

@[simp] theorem Dma.mxBus_bg : s.mxBus.bg = s.mx.ebmx := rfl

@[simp] theorem Dma.mxBus_bmx : s.mxBus.bmx = s.mx.ebmx := rfl

@[simp] theorem Dma.mxBus_bft : s.mxBus.bft = false := rfl

@[simp] theorem Dma.ftIn_bmx : (s.ftIn i ans).bmx = s.m0Brq := rfl

@[simp] theorem Dma.ftIn_bft : (s.ftIn i ans).bft = (s.ft.flags.ebft && !s.m0Brq) := rfl

@[simp] theorem Dma.ftIn_dk : (s.ftIn i ans).dk = i.dk := rfl

@[simp] theorem Dma.ftIn_err : (s.ftIn i ans).err = i.err := rfl

@[simp] theorem Dma.ftIn_cmd : (s.ftIn i ans).cmd = ⟨false, false, false, false⟩ := rfl

@[simp] theorem Dma.ftIn_mx : (s.ftIn i ans).mx = ans := rfl

end Signals

/-- The answers of the source; none of them depends on what follows from an answer. -/
def Dma.answer (s : Dma) (i : DmaIn) : MxAnswer :=
  (mxCtl s.mx.state (s.ft.ctl (s.ftIn i ⟨false, false, false, false⟩)).mx s.mxBus).answer

def Dma.ftCtl (s : Dma) (i : DmaIn) : FtCtl := s.ft.ctl (s.ftIn i (s.answer i))

def Dma.mxCtl (s : Dma) (i : DmaIn) : MxCtl :=
  VPcie.Ebone.mxCtl s.mx.state (s.ftCtl i).mx s.mxBus

/-- `mx_adrs_o`, `mif_adrs_o` and `mif_count_o`. -/
def Dma.mxAdrs (s : Dma) : MxAdrs := ⟨s.ft.mxAdrs, s.ft.fifos.mifAdrs, s.ft.fifos.mifCount⟩

/-- What the master drives on the second E-bone. -/
def Dma.lines2 (s : Dma) (i : DmaIn) : BramLines where
  bmx := s.mx.ebmx
  as := (s.mxCtl i).ebadrs
  eof := (s.mxCtl i).eof
  aef := (s.mxCtl i).aef
  dat := mxDat (s.mxCtl i) (s.ftCtl i).mx s.mxAdrs

/-- The first E-bone: master 1 is not there. -/
def Dma.coreIn (s : Dma) (i : DmaIn) : CoreIn where
  m0 := ⟨s.m0Brq, i.as, i.eof, false, i.dat⟩
  m1 := ⟨false, false, false, false, 0⟩
  ft := ⟨s.ft.flags.ebft, (s.ftCtl i).as, (s.ftCtl i).eof, (s.ftCtl i).aef, 0⟩
  s0Dk := i.dk
  s0Err := i.err
  slaves := []

/-- The status that `ebftm_regs` sees. -/
def Dma.status (s : Dma) : FtStatus := ⟨s.ft.dma0Stat, s.ft.dma1Stat, s.ft.dmaStat .w64⟩

/-! ### Edges -/

/-- A rising edge.  The other master asks for the first E-bone only after it was not granted to the
fast transmitter. -/
def Dma.clock (s : Dma) (i : DmaIn) : Dma where
  regs := s.regs.clock false (s.coreIn i).linesTo.1 s.status
  ft := s.ft.clock (s.ftIn i (s.answer i))
  mx := s.mx.clock false (s.ftCtl i).mx s.mxBus (s.bram.dat s.mem.rdData)
  bram := s.bram.clock false (s.lines2 i) false false
  mem := s.mem.clock false i.wr true (s.bram.memAddr.setWidth 9)
  m0Brq := i.wants && !(s.coreIn i).busState.bft

/-- What a slave of the fast transmitter sees in a cycle in which it has the bus. -/
inductive FtEvent where
  | address (a : BitVec 64)
  | word (w : BitVec 64) (last : Bool)
  | broadcast
deriving DecidableEq, Repr

/-- What is on the first E-bone when the fast transmitter has it. -/
def Dma.events (s : Dma) (i : DmaIn) : List FtEvent :=
  if (s.coreIn i).busState.bft then
    let lines := (s.coreIn i).linesTo.1
    let dxt : BitVec 64 := s.ft.dxtO (s.ftIn i (s.answer i))
    [if lines.as then if lines.eof then .broadcast else .address dxt else .word dxt lines.eof]
  else []

/-! ### The signals have settled -/

/-- What the fast transmitter asks of the source whatever the source answers. -/
def Ft.orders (s : Ft) : MxCmd where
  bwr := s.state == .wait4 || s.state == .rst2 ||
    (s.state == .end2 || s.state == .abrt3) && s.flags.mif
  clr := (s.state == .end2 || s.state == .abrt3) && s.flags.mif
  rst := s.state == .rst2
  abrt := s.state == .brq9 || s.state == .abrt1 || s.state == .abrt2

/-- Two commands that the master cannot tell apart by its answers. -/
def MxCmd.Same (a b : MxCmd) : Prop :=
  a.bwr = b.bwr ∧ a.clr = b.clr ∧ a.rst = b.rst ∧ a.abrt = b.abrt

theorem Ft.ctl_orders {d : FtWidth} (s : Ft) (i : FtIn d) : (s.ctl i).mx.Same s.orders := by
  cases hs : s.state with
  | end2 =>
    cases hmif : s.flags.mif with
    | true =>
      simp only [Ft.ctl, hs, hmif]
      split_ifs <;> simp [MxCmd.Same, Ft.orders, hs, hmif]
    | false => simp [MxCmd.Same, Ft.orders, Ft.ctl, hs, hmif]
  | abrt3 =>
    cases hmif : s.flags.mif with
    | true =>
      simp only [Ft.ctl, hs, hmif]
      split_ifs <;> simp [MxCmd.Same, Ft.orders, hs, hmif]
    | false => simp [MxCmd.Same, Ft.orders, Ft.ctl, hs, hmif]
  | _ =>
    simp only [Ft.ctl, hs]
    try split_ifs
    all_goals simp [MxCmd.Same, Ft.orders, hs, FtCtl.count, FtCtl.ends]

theorem MxCmd.Same.answer {a b : MxCmd} (h : a.Same b) (state : MxState) (bus : MxBus) :
    (VPcie.Ebone.mxCtl state a bus).answer = (VPcie.Ebone.mxCtl state b bus).answer := by
  obtain ⟨hbwr, hclr, hrst, habrt⟩ := h
  cases state with
  | iddle =>
    simp only [VPcie.Ebone.mxCtl]
    split_ifs <;> rfl
  | abrt1 =>
    simp only [VPcie.Ebone.mxCtl]
    split_ifs <;> rfl
  | adr1 =>
    simp only [VPcie.Ebone.mxCtl]
    split_ifs <;> rfl
  | rd1 =>
    simp only [VPcie.Ebone.mxCtl]
    split_ifs <;> rfl
  | _ => simp only [VPcie.Ebone.mxCtl, hbwr, hclr, hrst, habrt]

theorem MxCmd.Same.symm {a b : MxCmd} (h : a.Same b) : b.Same a :=
  ⟨h.1.symm, h.2.1.symm, h.2.2.1.symm, h.2.2.2.symm⟩

/-- `fif_err` is a function of the state and of `eb_bmx`. -/
theorem Bram.fifErr_eq {g : BramGenerics} (s : Bram g) (i : BramLines) :
    (s.ctl i false).fifErr = (s.state == .rd0 && s.emti2 || s.state == .error && i.bmx) := by
  cases hs : s.state with
  | rd0 => cases hemti : s.emti2 <;> simp [Bram.ctl, hs, hemti]
  | error => cases hbmx : i.bmx <;> simp [Bram.ctl, hs, hbmx]
  | _ =>
    simp only [Bram.ctl, hs, Bool.false_eq_true, if_false]
    try split_ifs
    all_goals simp

/-- **The signals between two edges** are what every process drives from all of them. -/
theorem Dma.settled (s : Dma) (i : DmaIn) :
    (s.mxCtl i).answer = s.answer i ∧ s.mxBus.dk = s.bram.dk (s.lines2 i) false ∧
      s.mxBus.err = s.bram.err (s.lines2 i) false := by
  refine ⟨?_, ?_, ?_⟩
  · have hsame := (s.ft.ctl_orders (s.ftIn i (s.answer i))).answer s.mx.state s.mxBus
    exact hsame.trans ((s.ft.ctl_orders (s.ftIn i _)).symm.answer s.mx.state s.mxBus)
  · show s.bram.dk s.lines0 false = _
    rw [Bram.dk, Bram.dk, Bram.fifErr_eq, Bram.fifErr_eq]
    rfl
  · show s.bram.err s.lines0 false = _
    rw [Bram.err, Bram.err, Bram.fifErr_eq, Bram.fifErr_eq]
    rfl

end VPcie.Ebone
