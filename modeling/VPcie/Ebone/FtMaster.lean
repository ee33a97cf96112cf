import VPcie.Lib.Runs
import Mathlib.Data.BitVec
import Mathlib.Logic.Function.Basic

/-!
# The fast transmitter

`ebftm_ft`, the part of the DMA controller that drives the fast transmitter bus.  The process of its
automaton is sensitive to all it reads, so its outputs are a function of the state and the inputs.

* `Ft.ctl` — the automaton, `Ft.clock` — an edge;
* `Ft.dxtO`, `Ft.mxAdrs`, `Ft.dma0Stat` — the drivers.
-/

namespace VPcie.Ebone

/-! ### Signals -/

/-- `state_typ` of `ebftm_ft`. -/
inductive FtState where
  | iddle
  | wait0
  | wait1
  | wait2
  | wait3
  | wait4
  | wait9
  | brq1
  | brq2
  | brq3
  | brq9
  | adr1
  | adr2
  | adr3
  | dat01
  | dat1
  | dat11
  | dat2
  | end1
  | end2
  | bc1
  | bc2
  | bc3
  | bc4
  | bc5
  | bc6
  | abrt1
  | abrt2
  | abrt3
  | rst1
  | rst2
  | rst3
deriving DecidableEq, Repr

/-- The widths of the fast transmitter bus. -/
inductive FtWidth where
  | w32
  | w64
  | w128
  | w256
deriving DecidableEq, Repr

/-- `EBFT_DW32`. -/
def FtWidth.dw32 : FtWidth → ℕ
  | .w32 => 1
  | .w64 => 2
  | .w128 => 4
  | .w256 => 8

/-- `EBFT_DWIDTH`. -/
def FtWidth.bits (d : FtWidth) : ℕ := 32 * d.dw32

/-- `EBFT_DWLOG`. -/
def FtWidth.dwLog : FtWidth → ℕ
  | .w32 => 1
  | .w64 => 2
  | .w128 => 3
  | .w256 => 4

/-- `ftw_stat`. -/
def FtWidth.stat : FtWidth → BitVec 4
  | .w32 => 0
  | .w64 => 1
  | .w128 => 2
  | .w256 => 3

/-- What the automaton keeps besides its state. -/
structure FtFlags where
  ebft : Bool
  ebbc : Bool
  ebadrs : Bool
  run0 : Bool
  run1 : Bool
  fifo : Bool
  mif : Bool
deriving DecidableEq, Repr

/-- The error bits of a descriptor. -/
structure FtErrors where
  adrerr : Bool
  daterr : Bool
  err : Bool
  ovlerr : Bool
deriving DecidableEq, Repr

/-- The fifo burst counter, and what is asked of a memory with a message interface. -/
structure FtFifo where
  remsmall : Bool
  fcnt : BitVec 12
  fczero : Bool
  mifCount : BitVec 16
  mifAdrs : BitVec 32
deriving DecidableEq, Repr

/-- The source address. -/
structure FtSource where
  maseg : BitVec 4
  mafif : BitVec 28
  macnt : BitVec 28
deriving DecidableEq, Repr

/-- The destination counter, and how near its end is. -/
structure FtCount where
  dacnt : BitVec 24
  daendall : Bool
  daendm1 : Bool
  daendm2 : Bool
  daendm3 : Bool
deriving DecidableEq, Repr

/-- The registers. -/
structure Ft where
  state : FtState
  flags : FtFlags
  errors0 : FtErrors
  errors1 : FtErrors
  pauscnt : BitVec 4
  bcnt : BitVec 8
  fifos : FtFifo
  src : FtSource
  cnt : FtCount
  daburst : BitVec 32
  dma0Sts : BitVec 24
  dma1Sts : BitVec 24
  fifRdy : Bool
  fifEmpty : Bool
  dmaEot : Bool
  dmaErr : Bool
deriving DecidableEq, Repr

/-- The commands from outside. -/
structure FtCmd where
  go : Bool
  flush : Bool
  abort : Bool
  reset : Bool
deriving DecidableEq, Repr

/-- What the source answers. -/
structure MxAnswer where
  bg : Bool
  ardy : Bool
  rdy : Bool
  err : Bool
deriving DecidableEq, Repr

/-- The inputs. -/
structure FtIn (d : FtWidth) where
  rst : Bool
  bmx : Bool
  bft : Bool
  dk : Bool
  err : Bool
  dmaRegs : ℕ → BitVec 32
  fifReady : Bool
  fifEmpty : Bool
  cmd : FtCmd
  mx : MxAnswer
  mxDout : BitVec d.bits

/-- What the fast transmitter asks of the source. -/
structure MxCmd where
  brq : Bool := false
  bwr : Bool := false
  clr : Bool := false
  rst : Bool := false
  read : Bool := false
  aend : Bool := false
  «end» : Bool := false
  abrt : Bool := false
deriving DecidableEq, Repr

/-- What the process of the automaton drives. -/
structure FtCtl where
  nextate : FtState
  alsw : Bool := false
  init0 : Bool := false
  init1 : Bool := false
  ebrq : Bool := false
  ebdat : Bool := false
  ebeof : Bool := false
  bcld : Bool := false
  bcen : Bool := false
  fcld : Bool := false
  fcen : Bool := false
  daclr : Bool := false
  dbld : Bool := false
  daen : Bool := false
  mald : Bool := false
  maen : Bool := false
  irq : Bool := false
  irqend : Bool := false
  dmadone : Bool := false
  errdone : Bool := false
  adrerr : Bool := false
  daterr : Bool := false
  ovlerr : Bool := false
  pausen : Bool := false
  mx : MxCmd := {}
  as : Bool := false
  aef : Bool := false
  eof : Bool := false
deriving DecidableEq, Repr

/-! ### The automaton -/

variable {d : FtWidth}

/-- A bit of the control word of a descriptor. -/
def FtIn.ctl0 (i : FtIn d) (b : ℕ) : Bool := (i.dmaRegs 5).getLsbD b

def FtIn.ctl1 (i : FtIn d) (b : ℕ) : Bool := (i.dmaRegs (5 + 6)).getLsbD b

/-- Somebody asks for a flush. -/
def FtIn.flush (i : FtIn d) : Bool := i.ctl0 28 || i.ctl1 28 || i.cmd.flush

/-- What goes on with each word. -/
def FtCtl.count (o : FtCtl) : FtCtl :=
  { o with bcen := true, fcen := true, daen := true, maen := true }

/-- The last word of a burst but one. -/
def FtCtl.ends (o : FtCtl) : FtCtl := { o with mx.end := true, aef := true }

/-- The automaton. -/
def Ft.ctl (s : Ft) (i : FtIn d) : FtCtl :=
  let o : FtCtl := { nextate := s.state }
  match s.state with
  | .iddle =>
    if i.cmd.reset then { o with nextate := .rst1 }
    else if i.ctl0 31 || i.cmd.go then { o with nextate := .wait0 }
    else o
  | .wait0 =>
    if i.ctl0 29 || i.cmd.abort then { o with nextate := .abrt1 }
    else if i.ctl0 31 || i.cmd.go then { o with init0 := true, nextate := .wait2 }
    else o
  | .wait1 =>
    if i.ctl1 29 then { o with nextate := .abrt1 }
    else if i.ctl1 31 then { o with init1 := true, nextate := .wait2 }
    else o
  | .wait2 =>
    let o := { o with fcld := true, daclr := true, mald := true }
    if s.flags.mif then { o with nextate := .wait3 }
    else if s.flags.fifo then { o with nextate := .wait9 }
    else { o with nextate := .brq1 }
  | .wait3 => { o with fcld := true, nextate := .wait4 }
  | .wait4 =>
    let o := { o with mx.bwr := true }
    if i.mx.err then { o with adrerr := true, nextate := .abrt1 }
    else if i.mx.rdy then { o with nextate := .wait9 }
    else o
  | .wait9 =>
    if i.ctl0 29 || i.ctl1 29 || i.cmd.abort then { o with nextate := .abrt1 }
    else if s.fifRdy || i.flush then { o with nextate := .brq1 }
    else o
  | .brq1 => { o with bcld := true, nextate := .brq2 }
  | .brq2 =>
    let o := { o with dbld := true }
    if i.bmx then o else { o with ebrq := true, mx.brq := true, nextate := .brq3 }
  | .brq3 =>
    let o := { o with mx.brq := true }
    if i.bft && i.mx.bg then { o with as := true, nextate := .adr1 }
    else { o with ebeof := true, nextate := .brq9 }
  | .brq9 =>
    let o := { o with mx.abrt := true, pausen := true }
    if s.pauscnt.msb then { o with nextate := .brq1 } else o
  | .adr1 =>
    let o := { o with as := true }
    if i.err then
      if i.dk then { o with ebeof := true, nextate := .brq9 }
      else { o with adrerr := true, nextate := .abrt1 }
    else if i.dk then { o with mx.read := true, nextate := .adr2 }
    else o
  | .adr2 =>
    let o := { o with as := true, mx.read := true, mx.aend := i.mx.ardy && s.cnt.daendm1 }
    if i.err || i.mx.err then { o with adrerr := true, nextate := .abrt1 }
    else if d = .w32 then
      if i.mx.ardy then { o with ebdat := true, nextate := .adr3 } else o
    else if i.mx.rdy then
      let o := { o.count with ebdat := true }
      if s.cnt.daendm1 then { o.ends with nextate := .dat01 }
      else if s.cnt.daendm2 then { o with mx.aend := true, nextate := .dat1 }
      else { o with nextate := .dat1 }
    else o
  | .adr3 =>
    -- the next state that is assigned last wins
    let o := { o.count with alsw := true, ebdat := true }
    if s.cnt.daendm1 then { o.ends with nextate := .dat1 }
    else if s.cnt.daendm2 then { o with mx.aend := true, nextate := .dat1 }
    else { o with nextate := .dat1 }
  | .dat01 => { o.count with eof := true, ebeof := true, nextate := .end2 }
  | .dat1 =>
    let o := o.count
    if i.err || !i.dk || i.mx.err then { o with daterr := true, nextate := .abrt1 }
    else if s.bcnt == 1 || s.cnt.daendm2 then { o.ends with nextate := .dat2 }
    else if s.flags.fifo && s.fifEmpty then
      if i.flush then { o.ends with nextate := .dat2 } else { o.ends with nextate := .dat11 }
    else if s.bcnt == 2 || s.cnt.daendm3 then { o with mx.aend := true }
    else o
  | .dat11 => { o with eof := true, ovlerr := true, nextate := .abrt1 }
  | .dat2 => { o with eof := true, ebeof := true, nextate := .end1 }
  | .end1 =>
    if s.cnt.daendall then { o with nextate := .end2 }
    else if s.flags.fifo && s.fifos.fczero then
      { o with fcld := true, nextate := if s.flags.mif then .wait3 else .wait9 }
    else if s.flags.fifo && i.flush then { o with nextate := .end2 }
    else { o with bcld := true, nextate := .brq2 }
  | .end2 =>
    let o := { o with irq := true }
    if s.flags.mif then
      let o := { o with mx.bwr := true, mx.clr := true }
      if i.mx.err then { o with adrerr := true, nextate := .abrt1 }
      else if i.mx.rdy then { o with nextate := .bc1 }
      else o
    else { o with nextate := .bc1 }
  | .bc1 => if i.bmx then o else { o with ebrq := true, nextate := .bc2 }
  | .bc2 =>
    if i.bft then { o with as := true, eof := true, nextate := .bc4 }
    else { o with ebeof := true, nextate := .bc3 }
  | .bc3 => { o with nextate := .bc1 }
  | .bc4 =>
    let o := { o with as := true, eof := true, irqend := true, ebeof := true, dmadone := true }
    if s.flags.run0 && i.ctl0 30 then { o with nextate := .wait1 }
    else if s.flags.run1 && i.ctl1 30 then { o with nextate := .wait0 }
    else { o with nextate := .bc5 }
  | .bc5 => { o with nextate := .bc6 }
  | .bc6 => { o with nextate := .iddle }
  | .abrt1 =>
    { o with ebeof := true, dmadone := true, errdone := true, mx.abrt := true, nextate := .abrt2 }
  | .abrt2 =>
    { o with mx.abrt := true, nextate := if i.ctl0 29 || i.ctl1 29 then .abrt3 else .bc1 }
  | .abrt3 =>
    if s.flags.mif then
      let o := { o with mx.bwr := true, mx.clr := true }
      if i.mx.err || i.mx.rdy then { o with nextate := .iddle } else o
    else { o with nextate := .iddle }
  | .rst1 =>
    if i.ctl0 26 then { o with init0 := true, nextate := .rst2 } else { o with nextate := .iddle }
  | .rst2 =>
    let o := { o with mx.bwr := true, mx.rst := true }
    if i.mx.err || i.mx.rdy then { o with dmadone := true, nextate := .rst3 } else o
  | .rst3 => { o with nextate := .iddle }

/-! ### The clocked processes -/

/-- The flags on an edge. -/
def FtFlags.clock (f : FtFlags) (i : FtIn d) (c : FtCtl) : FtFlags where
  ebft := !i.rst && ((c.ebrq || f.ebft) && !c.ebeof)
  ebbc := !i.rst && ((c.irq || f.ebbc) && !c.irqend)
  ebadrs := !i.rst && ((c.bcld || f.ebadrs) && !c.ebdat)
  run0 := !i.rst && ((c.init0 || f.run0) && !c.dmadone)
  run1 := !i.rst && ((c.init1 || f.run1) && !c.dmadone)
  fifo := !i.rst && ((c.init0 && i.ctl0 27 || c.init1 && i.ctl1 27 || f.fifo) && !c.dmadone)
  mif := !i.rst && ((c.init0 && i.ctl0 26 || c.init1 && i.ctl1 26 || f.mif) && !c.dmadone)

/-- The error bits of the descriptor that runs. -/
def FtErrors.clock (e : FtErrors) (rst run : Bool) (c : FtCtl) : FtErrors where
  adrerr := !rst && ((c.adrerr && run || e.adrerr) && !c.daclr)
  daterr := !rst && ((c.daterr && run || e.daterr) && !c.daclr)
  err := !rst && ((c.errdone && run || e.err) && !c.daclr)
  ovlerr := !rst && ((c.ovlerr && run || e.ovlerr) && !c.daclr)

/-- A register of the descriptor that runs. -/
def FtIn.desc (i : FtIn d) (run0 : Bool) (a : ℕ) : BitVec 32 :=
  if run0 then i.dmaRegs a else i.dmaRegs (a + 6)

/-- `dactop`. -/
def FtIn.dactop (i : FtIn d) (run0 : Bool) : BitVec 24 := (i.desc run0 5).setWidth 24

/-- The fifo burst counter on an edge; `mif_adrs_o` takes the source address. -/
def FtFifo.clock (f : FtFifo) (i : FtIn d) (c : FtCtl) (run0 : Bool) (dacnt : BitVec 24)
    (macnt : BitVec 28) : FtFifo :=
  let desc := i.desc run0 0
  let remcnt := i.dactop run0 - dacnt
  { remsmall := decide (remcnt < (desc.extractLsb' 16 12).setWidth 24)
    fcnt :=
      if c.fcld then if f.remsmall then remcnt.setWidth 12 else desc.extractLsb' 16 12
      else if c.fcen then f.fcnt - 1 else f.fcnt
    fczero := f.fcnt == 0
    mifCount :=
      if c.fcld then
        if f.remsmall then desc.extractLsb' 28 4 ++ remcnt.setWidth 12 else desc.extractLsb' 16 16
      else f.mifCount
    mifAdrs := if c.fcld then macnt.setWidth 32 else f.mifAdrs }

/-- The source address on an edge. -/
def FtSource.clock (f : FtSource) (i : FtIn d) (c : FtCtl) (s : FtFlags) : FtSource :=
  let desc := i.desc s.run0
  { maseg :=
      if c.mald then if s.fifo then 1 else ((desc 0).extractLsb' 28 2).setWidth 4 else f.maseg
    mafif := if c.mald && s.fifo then ((desc 0).setWidth 16).setWidth 28 else f.mafif
    macnt :=
      if c.mald then if s.mif then (desc 1).setWidth 28 else (desc 0).setWidth 28
      else if c.maen then f.macnt + 1 else f.macnt }

/-- The destination counter on an edge. -/
def FtCount.clock (f : FtCount) (c : FtCtl) (dactop : BitVec 24) : FtCount where
  dacnt := if c.daclr then 0 else if c.daen then f.dacnt + 1 else f.dacnt
  daendall := !decide (f.dacnt < dactop)
  daendm1 := !decide (f.dacnt < dactop - 1)
  daendm2 := !decide (f.dacnt < dactop - 2)
  daendm3 := !decide (f.dacnt < dactop - 3)

/-- The payload size, in words of the bus. -/
def FtIn.pldft (i : FtIn d) : BitVec 8 := (i.dmaRegs 12).extractLsb' (d.dwLog + 1) 8

/-- A rising edge. -/
def Ft.clock (s : Ft) (i : FtIn d) : Ft :=
  let c := s.ctl i
  let run0 := s.flags.run0
  { state := if i.rst then .iddle else c.nextate
    flags := s.flags.clock i c
    errors0 := s.errors0.clock i.rst run0 c
    errors1 := s.errors1.clock i.rst s.flags.run1 c
    pauscnt := if c.bcld then 0 else if c.pausen then s.pauscnt + 1 else s.pauscnt
    bcnt := if c.bcld then i.pldft else if c.bcen then s.bcnt - 1 else s.bcnt
    fifos := s.fifos.clock i c run0 s.cnt.dacnt s.src.macnt
    src := s.src.clock i c s.flags
    cnt := s.cnt.clock c (i.dactop run0)
    daburst :=
      if c.dbld then i.desc run0 3 + (s.cnt.dacnt.setWidth 32) * BitVec.ofNat 32 (4 * d.dw32)
      else s.daburst
    dma0Sts := if run0 then s.cnt.dacnt else s.dma0Sts
    dma1Sts := if s.flags.run1 then s.cnt.dacnt else s.dma1Sts
    fifRdy := i.fifReady
    fifEmpty := i.fifEmpty
    dmaEot := c.irqend
    dmaErr := c.errdone }

/-! ### The drivers -/

/-- `eb_ft_dxt_o`: the address while `ebadrs`, or the data. -/
def Ft.dxtO (s : Ft) (i : FtIn d) : BitVec d.bits :=
  let damsw := i.desc s.flags.run0 4
  if d = .w32 then
    if s.flags.ebadrs then damsw.setWidth d.bits
    else if (s.ctl i).alsw then s.daburst.setWidth d.bits else i.mxDout
  else if s.flags.ebadrs then (i.mxDout >>> 64) <<< 64 ||| (damsw ++ s.daburst).setWidth d.bits
  else i.mxDout

/-- `mx_adrs_o`. -/
def Ft.mxAdrs (s : Ft) : BitVec 32 :=
  s.src.maseg ++ if s.flags.fifo then s.src.mafif else s.src.macnt

/-- `dma0_stat_o` and `dma1_stat_o`. -/
def ftStat (run : Bool) (e : FtErrors) (sts : BitVec 24) : BitVec 32 :=
  BitVec.ofBool run ++ BitVec.ofBool e.err ++ BitVec.ofBool e.ovlerr ++ BitVec.ofBool e.daterr
    ++ BitVec.ofBool e.adrerr ++ (0 : BitVec 3) ++ sts

def Ft.dma0Stat (s : Ft) : BitVec 32 := ftStat s.flags.run0 s.errors0 s.dma0Sts

def Ft.dma1Stat (s : Ft) : BitVec 32 := ftStat s.flags.run1 s.errors1 s.dma1Sts

/-- `dma_stat_o`. -/
def Ft.dmaStat (s : Ft) (d : FtWidth) : BitVec 8 :=
  d.stat ++ BitVec.ofBool s.fifEmpty ++ BitVec.ofBool s.fifRdy ++ (0 : BitVec 2)

end VPcie.Ebone
