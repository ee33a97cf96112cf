import VPcie.Ebone.FtMaster

/-!
# The source of the fast transmitter

What is on the second E-bone: `ebftm_mx`, its master, `ebs_bram`, a memory slave, and
`dualport_bram`, the memory.  The processes of the automata are sensitive to all they read.

* `Mx.ctl`, `Mx.clock`, `Mx.dat` — the master;
* `Bram.ctl`, `Bram.clock`, `Bram.dk`, `Bram.err`, `Bram.dat` — the slave;
* `DualPort.clock` — the memory.
-/

namespace VPcie.Ebone

/-! ### The master -/

/-- `state_typ` of `ebftm_mx`. -/
inductive MxState where
  | iddle
  | brq1
  | adr1
  | adr2
  | rd1
  | wr1
  | wr2
  | abrt1
deriving DecidableEq, Repr

/-- The registers; `mx_dout_o` is the data pipeline. -/
structure Mx (w : ℕ) where
  state : MxState
  ebmx : Bool
  dout : BitVec w
deriving DecidableEq, Repr

/-- The inputs from the second E-bone. -/
structure MxBus where
  bg : Bool
  dk : Bool
  err : Bool
  bmx : Bool
  bft : Bool
deriving DecidableEq, Repr

/-- What the process of the automaton drives. -/
structure MxCtl where
  nextate : MxState
  ebrq : Bool := false
  ebeof : Bool := false
  ebdat1 : Bool := false
  ebdat2 : Bool := false
  ebadrs : Bool := false
  answer : MxAnswer := ⟨false, false, false, false⟩
  eof : Bool := false
  aef : Bool := false
deriving DecidableEq, Repr

/-- The automaton. -/
def mxCtl (state : MxState) (i : MxCmd) (b : MxBus) : MxCtl :=
  let o : MxCtl := { nextate := state }
  match state with
  | .iddle =>
    if (i.brq || i.bwr) && (!b.bmx && !b.bft) then { o with ebrq := true, nextate := .brq1 } else o
  | .brq1 =>
    if b.bg then { o with answer.bg := true, nextate := .adr1 }
    else { o with ebeof := true, nextate := .abrt1 }
  | .adr1 =>
    let o := { o with answer.bg := true }
    if i.abrt then { o with ebeof := true, nextate := .abrt1 }
    else if i.bwr || i.read then { o with ebadrs := true, nextate := .adr2 }
    else o
  | .adr2 =>
    let o := { o with ebadrs := true }
    if b.err || i.abrt then { o with ebeof := true, nextate := .abrt1 }
    else if b.dk then
      if i.clr || i.rst then { o with aef := true, nextate := .wr2 }
      else if i.bwr then { o with nextate := .wr1 }
      else { o with answer.ardy := true, nextate := .rd1 }
    else o
  | .wr1 => { o with ebdat1 := true, aef := true, nextate := .wr2 }
  | .wr2 =>
    let o := { o with ebdat2 := true, ebeof := true }
    if !b.dk || i.abrt then { o with nextate := .abrt1 }
    else { o with answer.rdy := true, eof := true, nextate := .iddle }
  | .rd1 =>
    let o := { o with answer.rdy := true }
    if !b.dk || i.abrt then { o with ebeof := true, nextate := .abrt1 }
    else if i.end then { o with eof := true, ebeof := true, nextate := .iddle }
    else if i.aend then { o with aef := true }
    else o
  | .abrt1 =>
    let o := { o with answer.err := true }
    if !i.brq && !i.bwr && !i.read then { o with nextate := .iddle } else o

/-- The addresses of a burst, and of a request to a memory with a message interface. -/
structure MxAdrs where
  mxAdrs : BitVec 32
  mifAdrs : BitVec 32
  mifCount : BitVec 16
deriving DecidableEq, Repr

/-- `eb_dat`. -/
def mxDat (c : MxCtl) (i : MxCmd) (a : MxAdrs) : BitVec 32 :=
  let cmd := BitVec.ofBool (i.clr || i.rst)
  let mifDat : BitVec 16 := if i.clr then 0 else if i.rst then 0x000f else a.mifCount
  if c.ebadrs then BitVec.ofBool (!i.bwr) ++ a.mxAdrs.extractLsb' 2 29 ++ cmd ++ cmd
  else if c.ebdat1 then a.mifAdrs
  else if c.ebdat2 then mifDat.setWidth 32
  else 0

/-- `ebx2_msg_set_o`. -/
def mxMsgSet (mid : BitVec 4) (c : MxCtl) (i : MxCmd) : BitVec 8 :=
  if c.ebadrs && !i.clr then mid.setWidth 8 else 0

/-- A rising edge. -/
def Mx.clock {w : ℕ} (s : Mx w) (rst : Bool) (i : MxCmd) (b : MxBus) (dat : BitVec w) : Mx w :=
  let c := mxCtl s.state i b
  { state := if rst then .iddle else c.nextate
    ebmx := !rst && ((c.ebrq || s.ebmx) && !c.ebeof)
    dout := dat }

/-! ### The memory slave -/

/-- `state_typ` of `ebs_bram`. -/
inductive BramState where
  | iddle
  | wr1
  | rd0
  | rd1
  | bcc1
  | abort
  | error
deriving DecidableEq, Repr

/-- The generics, with what the `assert`s demand; `EBS_AD_SIZE` is `2 ^ adLog`. -/
structure BramGenerics where
  adRnge : ℕ
  adBase : ℕ
  adLog : ℕ
  adOfst : ℕ
  two_le_adLog : 2 ≤ adLog
  ofst_aligned : 2 ^ adLog ∣ adOfst

/-- The registers. -/
structure Bram (g : BramGenerics) where
  state : BramState
  myself : Bool
  sDk : Bool
  ovfErr : Bool
  ofst : BitVec (g.adLog + 1)
  emti1 : Bool
  emti2 : Bool
deriving DecidableEq, Repr

/-- What the bus drives; of the data the slave decodes the lower 32 bits. -/
structure BramLines where
  bmx : Bool
  as : Bool
  eof : Bool
  aef : Bool
  dat : BitVec 32
deriving DecidableEq, Repr

/-- What the process of the automaton drives. -/
structure BramCtl where
  nextate : BramState
  ofld : Bool := false
  ofen : Bool := false
  adk : Bool := false
  eof : Bool := false
  memWr : Bool := false
  memRd : Bool := false
  rwErr : Bool := false
  fifErr : Bool := false
deriving DecidableEq, Repr

section Bram

variable {g : BramGenerics}

/-- `eb_bar = base` and `eb_amsb` is the upper part of `bofst`. -/
def BramGenerics.selects (g : BramGenerics) (dat : BitVec 32) : Bool :=
  dat.extractLsb' 28 2 == BitVec.ofNat 2 g.adBase &&
    dat.extractLsb' g.adLog (g.adRnge - g.adLog)
      == (BitVec.ofNat g.adRnge g.adOfst).extractLsb' g.adLog (g.adRnge - g.adLog)

/-- The automaton; `memFull` is `mem_full_i`. -/
def Bram.ctl (s : Bram g) (i : BramLines) (memFull : Bool) : BramCtl :=
  let o : BramCtl := { nextate := s.state }
  match s.state with
  | .iddle =>
    if i.bmx && i.as then
      if i.eof then { o with nextate := .bcc1 }
      else if g.selects i.dat then
        let o := { o with ofld := true }
        if i.dat.getLsbD 31 then { o with nextate := .rd0 }
        else if memFull then { o with fifErr := true, nextate := .error }
        else { o with adk := true, nextate := .wr1 }
      else o
    else o
  | .wr1 =>
    if i.bmx = false then { o with nextate := .abort }
    else
      let o := { o with adk := !i.eof }
      if i.as then o
      else
        let o := { o with memWr := true, ofen := true }
        if i.eof then { o with eof := true, nextate := .iddle }
        else if memFull then { o with rwErr := true }
        else o
  | .rd0 =>
    if s.emti2 then { o with fifErr := true, nextate := .error }
    else { o with ofen := true, adk := true, memRd := true, nextate := .rd1 }
  | .rd1 =>
    if i.bmx = false then { o with nextate := .abort }
    else
      let o := { o with ofen := true }
      if i.eof then { o with eof := true, nextate := .iddle }
      else if s.emti2 then { o with rwErr := true }
      else { o with adk := true, memRd := !i.aef }
  | .bcc1 =>
    if i.bmx = false then { o with nextate := .abort }
    else if i.eof then { o with eof := true, nextate := .iddle }
    else o
  | .error =>
    if i.bmx then { o with fifErr := true } else { o with eof := true, nextate := .iddle }
  | .abort => { o with eof := true, nextate := .iddle }

/-- A rising edge; `memEmpty` is `mem_empty_i`. -/
def Bram.clock (s : Bram g) (rst : Bool) (i : BramLines) (memEmpty memFull : Bool) : Bram g :=
  let c := s.ctl i memFull
  { state := if rst then .iddle else c.nextate
    myself := !rst && ((c.ofld || s.myself) && !(c.eof || (s.ovfErr || c.rwErr)))
    sDk := c.adk && !(s.ovfErr || c.rwErr)
    ovfErr := !c.ofld && c.ofen && s.ofst.msb
    ofst :=
      if c.ofld then (i.dat.setWidth g.adLog).setWidth (g.adLog + 1)
      else if c.ofen && !s.ofst.msb then s.ofst + 1
      else s.ofst
    emti1 := memEmpty
    emti2 := s.emti1 }

/-- `mem_addr_o`. -/
def Bram.memAddr (s : Bram g) : BitVec 32 := s.ofst.setWidth 32

/-- `mem_rd_o`. -/
def Bram.memRd (s : Bram g) (i : BramLines) (memFull : Bool) : Bool :=
  if i.as then (s.ctl i memFull).memRd else (s.ctl i memFull).memRd && !i.aef

/-- `eb_err_o`. -/
def Bram.err (s : Bram g) (i : BramLines) (memFull : Bool) : Bool :=
  s.myself && (s.ctl i memFull).fifErr

/-- `eb_dk_o`. -/
def Bram.dk (s : Bram g) (i : BramLines) (memFull : Bool) : Bool :=
  s.myself && (s.sDk || (s.ctl i memFull).fifErr)

/-- `eb_dat_o`. -/
def Bram.dat {w : ℕ} (s : Bram g) (memDout : BitVec w) : BitVec w := if s.myself then memDout else 0

end Bram

/-! ### The memory -/

/-- `dualport_bram`: 32 bit words are written, and pairs of them read through two registers. -/
structure DualPort where
  bramArray : ℕ → BitVec 32
  latchedRdAddr : ℕ
  rdData : BitVec 64

/-- A pair of words. -/
def pairAt (bramArray : ℕ → BitVec 32) (a : ℕ) : BitVec 64 := bramArray (a + 1) ++ bramArray a

/-- A rising edge; a word that is written, and the address of a pair. -/
def DualPort.clock (s : DualPort) (rst : Bool) (wr : Option (BitVec 10 × BitVec 32)) (rdEn : Bool)
    (rdAddr : BitVec 9) : DualPort where
  bramArray :=
    match rst, wr with
    | false, some (a, w) => Function.update s.bramArray a.toNat w
    | _, _ => s.bramArray
  latchedRdAddr := if rst then 0 else rdAddr.toNat * 2
  rdData := if !rst && rdEn then pairAt s.bramArray s.latchedRdAddr else s.rdData

end VPcie.Ebone
