import VPcie.Ebone.Master
import VPcie.Ebone.RegsSlave

/-!
# The interconnect core

`ebs_core`: the arbiter and the multiplexers, which are combinational, the watch dog that raises an
error when nobody acknowledges, and the detector of two requests at a time.

* `arbiter`, `busState`, `linesTo`, `busTo` — what the core drives;
* `Core.clock` — the watch dog and the detector on an edge;
* `Core.Fresh` — the watch dog has nothing to report.
-/

namespace VPcie.Ebone

open VPcie.Lib

/-! ### Signals -/

/-- `bustate_typ`, and `bustats_typ`. -/
inductive BusState where
  | iddle
  | ft
  | m1
  | m0
deriving DecidableEq, Repr

/-- What a master drives; the fast transmitter has no data here. -/
structure MasterLines where
  brq : Bool
  as : Bool
  eof : Bool
  aef : Bool
  dat : BitVec 32
deriving DecidableEq, Repr

/-- What a slave drives. -/
structure SlaveLines where
  dk : Bool
  err : Bool
  dat : BitVec 32
deriving DecidableEq, Repr

/-- All inputs: the masters, slave 0 (the fast transmitter) and the other slaves. -/
structure CoreIn where
  m0 : MasterLines
  m1 : MasterLines
  ft : MasterLines
  s0Dk : Bool
  s0Err : Bool
  slaves : List SlaveLines

/-- The registers; `cnt_dk` has `EBS_TMO_DK + 1` bits. -/
structure Core (tmoDk : ℕ) where
  ebBusy : Bool
  ebBusy2 : Bool
  cntDk : BitVec (tmoDk + 1)
  coreErr : Bool
  brqErr : Bool
  bustats : BusState
deriving DecidableEq, Repr

/-! ### The logic of the processes -/

/-- The arbiter. -/
def arbiter (m0Brq m1Brq ftBrq : Bool) : BusState :=
  if m0Brq then .m0 else if m1Brq then .m1 else if ftBrq then .ft else .iddle

/-- `eb_bft_o`. -/
def BusState.bft (b : BusState) : Bool := b == .ft

/-- `eb_bmx_o`. -/
def BusState.bmx (b : BusState) : Bool := b == .m1 || b == .m0

/-- `bustate`. -/
def CoreIn.busState (i : CoreIn) : BusState := arbiter i.m0.brq i.m1.brq i.ft.brq

/-- What reaches the slaves, with `eb_aef_o`. -/
def CoreIn.linesTo (i : CoreIn) : Lines × Bool :=
  match i.busState with
  | .ft => (⟨false, i.ft.as, i.ft.eof, 0⟩, i.ft.aef)
  | .m1 => (⟨true, i.m1.as, i.m1.eof, i.m1.dat⟩, i.m1.aef)
  | .m0 => (⟨true, i.m0.as, i.m0.eof, i.m0.dat⟩, i.m0.aef)
  | .iddle => (⟨false, false, false, 0⟩, false)

/-- `eb_m_dk_int`. -/
def CoreIn.dk (i : CoreIn) : Bool := i.slaves.foldl (fun acc s => acc || s.dk) false || i.s0Dk

/-- What reaches master 0. -/
def CoreIn.busTo {tmoDk : ℕ} (i : CoreIn) (c : Core tmoDk) : Bus where
  bg := i.busState == .m0
  dk := i.dk
  err := i.slaves.foldl (fun acc s => acc || s.err) false || i.s0Err || c.coreErr
  dat := i.slaves.foldl (fun acc s => acc ||| s.dat) 0
  bft := i.busState.bft
  bmx := i.busState.bmx

/-- `brq_err`: a request of another master than the one that had the bus. -/
def inconsistent (bustats : BusState) (m0Brq m1Brq ftBrq : Bool) : Bool :=
  match bustats with
  | .iddle => false
  | .ft => m0Brq || m1Brq
  | .m1 => m0Brq || ftBrq
  | .m0 => m1Brq || ftBrq

/-- A rising edge. -/
def Core.clock {tmoDk : ℕ} (c : Core tmoDk) (i : CoreIn) : Core tmoDk where
  ebBusy := i.busState.bft || i.busState.bmx
  ebBusy2 := c.ebBusy
  cntDk := if i.dk || !c.ebBusy then 0 else if c.ebBusy2 then c.cntDk + 1 else c.cntDk
  coreErr := c.cntDk.msb || c.brqErr
  brqErr := inconsistent c.bustats i.m0.brq i.m1.brq i.ft.brq
  bustats := i.busState

end VPcie.Ebone
