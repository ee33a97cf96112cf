import VPcie.Lib.DeltaCycle
import VPcie.Lib.Runs
import VPcie.Lib.Slices

/-!
# The fast transmitter slave

The processes of `ebm0_pcie_vpcie_slave`, for the three widths it has a burst index for.  The next
state is a latch in three of the states.  The output process is sensitive to the state and to the
address strobe, not to the burst index and the address it reads.

* `Regs` — the registers and latches, `Sig` — all signals;
* `Regs.edge`, `Regs.change` — what an edge leaves, and what a change of the bus between edges;
* `settle_edge`, `settle_change` — this is what the delta cycles compute;
* `step` — either of them; a word beyond the payload ends the simulation.
-/

namespace VPcie.Ebone.Slave

open VPcie.Lib

/-! ### Signals -/

/-- The widths of the fast transmitter bus. -/
inductive Dwidth where
  | dwidth64
  | dwidth128
  | dwidth256
deriving DecidableEq, Repr

/-- `EBFT_DWIDTH`. -/
def Dwidth.bits : Dwidth → ℕ
  | .dwidth64 => 64
  | .dwidth128 => 128
  | .dwidth256 => 256

/-- The shift of the burst counter, one for each `generate`. -/
def Dwidth.shift : Dwidth → ℕ
  | .dwidth64 => 6
  | .dwidth128 => 7
  | .dwidth256 => 8

/-- `state_t` of the slave. -/
inductive State where
  | idle
  | bcast
  | notEof
  | write
  | notBft
deriving DecidableEq, Repr

/-- What the fast transmitter and the bus drive. -/
structure Bus (d : Dwidth) where
  dxt : BitVec d.bits
  bft : Bool
  as : Bool
  eof : Bool
deriving DecidableEq, Repr

/-- The signals the output process drives. -/
structure Out where
  dk : Bool
  err : Bool
  mwrEn : Bool
  mwrAddr : BitVec 64
  mwrSize : BitVec 16
  msiEn : Bool
  addrEn : Bool
  burstEn : Bool
  burstClr : Bool
  dataEn : Bool
deriving DecidableEq, Repr

/-- The signals that keep a value from one edge to the next. -/
structure Regs where
  state : State
  nextState : State
  out : Out
  addrReg : BitVec 64
  burstReg : BitVec 16
  mwrData : BitVec 1024
deriving DecidableEq, Repr

/-- All signals. -/
structure Sig (d : Dwidth) where
  clk : Bool
  bus : Bus d
  r : Regs
  burstIndex : ℕ

/-! ### The logic of the processes -/

/-- The next state logic; where it makes no assignment `next_state` keeps its value. -/
def nextStateLogic (i : State × Bool × Bool × Bool) (nextState : State) : State :=
  let (state, bft, as, eof) := i
  match state with
  | .idle => if bft && as then if eof then .bcast else .notEof else nextState
  | .bcast => .notBft
  | .notEof => if eof then .write else nextState
  | .write => if bft then .notBft else .idle
  | .notBft => if bft then nextState else .idle

/-- The outputs in a state that assigns none. -/
def Out.default : Out := ⟨false, false, false, 0, 0, false, false, false, false, false⟩

/-- The output logic. -/
def outputLogic (i : State × Bool) (addrReg : BitVec 64) (burstIndex : ℕ) : Out :=
  let (state, as) := i
  let o := Out.default
  match state with
  | .idle => o
  | .bcast => { o with msiEn := true }
  | .notEof =>
    let o := { o with dk := true }
    if as then { o with burstClr := true, addrEn := true }
    else { o with burstEn := true, dataEn := true }
  | .write =>
    { o with mwrSize := BitVec.ofNat 16 (burstIndex / 8), mwrAddr := addrReg, mwrEn := true }
  | .notBft => o

section Logic

variable {d : Dwidth}

/-- `burst_reg * EBFT_DWIDTH`. -/
def burstIndexOf (d : Dwidth) (burstReg : BitVec 16) : ℕ := (burstReg <<< d.shift).toNat

/-- The address register on a rising edge. -/
def addrClock (r : Regs) (bus : Bus d) : BitVec 64 :=
  if r.out.addrEn then if bus.as then bus.dxt.setWidth 64 else r.addrReg else r.addrReg

/-- The burst counter on a rising edge. -/
def burstClock (r : Regs) : BitVec 16 :=
  if r.out.burstClr then 0 else if r.out.burstEn then r.burstReg + 1 else r.burstReg

/-- The payload on a rising edge. -/
def dataClock (r : Regs) (bus : Bus d) (burstIndex : ℕ) : BitVec 1024 :=
  if r.out.dataEn then setSlice r.mwrData burstIndex bus.dxt else r.mwrData

/-! ### The processes -/

/-- What the next state logic is sensitive to. -/
def nextIn (state : State) (bus : Bus d) : State × Bool × Bool × Bool :=
  (state, bus.bft, bus.as, bus.eof)

/-- The processes of the slave, and the one that drives the bus at each rising edge. -/
def processes (driveBus : Sig d → Bus d) : List (Process (Sig d)) :=
  [clocked Sig.clk ⟨Sig.bus, fun s v => { s with bus := v }, fun _ => rfl⟩ driveBus,
    clocked Sig.clk ⟨fun s => s.r.state, fun s v => { s with r.state := v }, fun _ => rfl⟩
      fun s => s.r.nextState,
    process (fun s => nextIn s.r.state s.bus)
      ⟨fun s => s.r.nextState, fun s v => { s with r.nextState := v }, fun _ => rfl⟩
      fun s => nextStateLogic (nextIn s.r.state s.bus) s.r.nextState,
    process (fun s => (s.r.state, s.bus.as))
      ⟨fun s => s.r.out, fun s v => { s with r.out := v }, fun _ => rfl⟩
      fun s => outputLogic (s.r.state, s.bus.as) s.r.addrReg s.burstIndex,
    clocked Sig.clk ⟨fun s => s.r.addrReg, fun s v => { s with r.addrReg := v }, fun _ => rfl⟩
      fun s => addrClock s.r s.bus,
    clocked Sig.clk ⟨fun s => s.r.burstReg, fun s v => { s with r.burstReg := v }, fun _ => rfl⟩
      fun s => burstClock s.r,
    process (fun s => s.r.burstReg)
      ⟨Sig.burstIndex, fun s v => { s with burstIndex := v }, fun _ => rfl⟩
      fun s => burstIndexOf d s.r.burstReg,
    clocked Sig.clk ⟨fun s => s.r.mwrData, fun s v => { s with r.mwrData := v }, fun _ => rfl⟩
      fun s => dataClock s.r s.bus s.burstIndex]

/-- One delta cycle, signal by signal. -/
def Sig.next (driveBus : Sig d → Bus d) (old cur : Sig d) : Sig d where
  clk := cur.clk
  bus := onEdge old.clk cur.clk (driveBus cur) cur.bus
  r :=
    { state := onEdge old.clk cur.clk cur.r.nextState cur.r.state
      nextState := onEvent (nextIn old.r.state old.bus) (nextIn cur.r.state cur.bus)
        (nextStateLogic (nextIn cur.r.state cur.bus) cur.r.nextState) cur.r.nextState
      out := onEvent (old.r.state, old.bus.as) (cur.r.state, cur.bus.as)
        (outputLogic (cur.r.state, cur.bus.as) cur.r.addrReg cur.burstIndex) cur.r.out
      addrReg := onEdge old.clk cur.clk (addrClock cur.r cur.bus) cur.r.addrReg
      burstReg := onEdge old.clk cur.clk (burstClock cur.r) cur.r.burstReg
      mwrData := onEdge old.clk cur.clk (dataClock cur.r cur.bus cur.burstIndex) cur.r.mwrData }
  burstIndex := onEvent old.r.burstReg cur.r.burstReg (burstIndexOf d cur.r.burstReg) cur.burstIndex

theorem delta_processes (driveBus : Sig d → Bus d) (old cur : Sig d) :
    delta (processes driveBus) old cur = Sig.next driveBus old cur := by
  simp only [delta, processes, List.foldl_cons, List.foldl_nil, process_apply, clocked_apply]
  rfl

end Logic

/-! ### Between edges -/

section Settle

variable {d : Dwidth}

/-- All signals once the combinational ones have followed the registers and the bus. -/
def Regs.signals (r : Regs) (bus : Bus d) (clk : Bool) : Sig d where
  clk := clk
  bus := bus
  r := r
  burstIndex := burstIndexOf d r.burstReg

/-- The registers right after a rising edge, before the logic follows. -/
def Regs.latch (r : Regs) (bus : Bus d) : Regs where
  state := r.nextState
  nextState := r.nextState
  out := r.out
  addrReg := addrClock r bus
  burstReg := burstClock r
  mwrData := dataClock r bus (burstIndexOf d r.burstReg)

/-- What a rising edge leaves when the bus changes to `bus'`.  The outputs are computed with the
burst index from before the edge. -/
def Regs.edge (r : Regs) (bus bus' : Bus d) : Regs :=
  { r.latch bus with
    nextState := onEvent (nextIn r.state bus) (nextIn r.nextState bus')
      (nextStateLogic (nextIn r.nextState bus') r.nextState) r.nextState
    out := onEvent (r.state, bus.as) (r.nextState, bus'.as)
      (outputLogic (r.nextState, bus'.as) (addrClock r bus) (burstIndexOf d r.burstReg)) r.out }

/-- What a change of the bus between two edges leaves. -/
def Regs.change (r : Regs) (bus bus' : Bus d) : Regs :=
  { r with
    nextState := onEvent (nextIn r.state bus) (nextIn r.state bus')
      (nextStateLogic (nextIn r.state bus') r.nextState) r.nextState
    out := onEvent (r.state, bus.as) (r.state, bus'.as)
      (outputLogic (r.state, bus'.as) r.addrReg (burstIndexOf d r.burstReg)) r.out }

variable (driveBus : Sig d → Bus d) (r : Regs) (bus bus' : Bus d)

/-- In the first delta cycle after an edge the registers and the bus have changed. -/
def Regs.latched : Sig d := { r.signals bus true with bus := bus', r := r.latch bus }

theorem next_rising : Sig.next driveBus (r.signals bus false) (r.signals bus true)
    = r.latched bus (driveBus (r.signals bus true)) := by
  simp only [Sig.next, Regs.signals, onEdge_rising, onEvent_self, Regs.latched, Regs.latch]

theorem next_latched : Sig.next driveBus (r.signals bus true) (r.latched bus bus')
    = (r.edge bus bus').signals bus' true := by
  simp only [Sig.next, Regs.signals, onEdge_self, Regs.latched,
    onEvent_comb (burstIndexOf d)]
  rfl

theorem next_settled : Sig.next driveBus (r.latched bus bus')
    ((r.edge bus bus').signals bus' true) = (r.edge bus bus').signals bus' true := by
  simp only [Sig.next, Regs.signals, onEdge_self, Regs.latched, Regs.edge, Regs.latch,
    onEvent_self]

theorem processes_irrefl : ∀ p ∈ processes driveBus, ∀ s, p.event s s = false := by
  simp [processes, process, clocked]

/-- **What the delta cycles after a rising edge compute** is the step of the slave. -/
theorem settle_edge (n : ℕ) : settle (processes driveBus) (n + 2)
    (r.signals bus false) (r.signals bus true)
      = (r.edge bus (driveBus (r.signals bus true))).signals (driveBus (r.signals bus true))
          true := by
  simp only [settle_succ, delta_processes, next_rising, next_latched]
  apply settle_of_quiet (processes_irrefl driveBus)
  rw [delta_processes, next_settled]

/-- Right after a change of the bus nothing has followed. -/
def Regs.changed (clk : Bool) : Sig d := { r.signals bus clk with bus := bus' }

theorem next_changed (clk : Bool) : Sig.next driveBus (r.signals bus clk)
    (r.changed bus bus' clk) = (r.change bus bus').signals bus' clk := by
  simp only [Sig.next, Regs.signals, onEdge_self, Regs.changed, onEvent_self, Regs.change]

/-- **What the delta cycles after a change of the bus compute.** -/
theorem settle_change (clk : Bool) (n : ℕ) : settle (processes driveBus) (n + 1)
    (r.signals bus clk) (r.changed bus bus' clk) = (r.change bus bus').signals bus' clk := by
  rw [settle_succ, delta_processes, next_changed]
  apply settle_of_quiet (processes_irrefl driveBus)
  rw [delta_processes]
  simp only [Sig.next, Regs.signals, onEdge_self, Regs.changed, Regs.change, onEvent_self]

/-- A falling edge changes nothing else. -/
theorem settle_falling (n : ℕ) : settle (processes driveBus) n
    (r.signals bus true) (r.signals bus false) = r.signals bus false := by
  apply settle_of_quiet (processes_irrefl driveBus)
  rw [delta_processes]
  simp only [Sig.next, Regs.signals, onEdge_falling, onEvent_self]

end Settle

/-! ### Steps -/

section Steps

variable {d : Dwidth}

/-- The slave and the bus. -/
structure System (d : Dwidth) where
  r : Regs
  bus : Bus d
deriving DecidableEq, Repr

/-- The state a reset leaves, with `'0'` for what it does not assign. -/
def System.reset (bus : Bus d) : System d where
  r :=
    { state := .idle
      nextState := nextStateLogic (nextIn .idle bus) .idle
      out := outputLogic (.idle, bus.as) 0 0
      addrReg := 0
      burstReg := 0
      mwrData := 0 }
  bus := bus

/-- A rising edge on which the bus becomes `bus`, or a change of it between two edges. -/
inductive Move (d : Dwidth) where
  | edge (bus : Bus d)
  | change (bus : Bus d)
deriving DecidableEq, Repr

/-- The bus from then on. -/
def Move.bus : Move d → Bus d
  | .edge bus => bus
  | .change bus => bus

/-- The word that is about to be stored is not in the payload. -/
def System.beyond (s : System d) : Prop :=
  s.r.out.dataEn = true ∧ 1024 < burstIndexOf d s.r.burstReg + d.bits

instance (s : System d) : Decidable s.beyond := inferInstanceAs (Decidable (_ ∧ _))

/-- One move.  An index beyond the payload is an error that ends the simulation. -/
def step (s : System d) : Move d → Option (System d)
  | .edge bus => if s.beyond then none else some ⟨s.r.edge s.bus bus, bus⟩
  | .change bus => some ⟨s.r.change s.bus bus, bus⟩

end Steps

end VPcie.Ebone.Slave
