import VPcie.Vhdl.Endpoint

/-!
# The E-bone master

The processes of `ebm0_pcie_vpcie_master`, each with its sensitivity list.  The next state is a
latch: in `state_idle` and `state_as` it keeps its value unless something happens.  The output
process is sensitive to the state alone.

The bus may change on an edge of the clock and at any time between two edges.

* `Master` — the registers and latches, `Sig` — all signals;
* `Master.edge`, `Master.busChange` — what an edge leaves, and what a change of the bus;
* `settle_edge`, `settle_bus` — this is what the delta cycles compute.
-/

namespace VPcie.Ebone

open VPcie.Lib VPcie.Glue
open VPcie.Vhdl (Req)

/-! ### Signals -/

/-- `state_t` of the master. -/
inductive MasterState where
  | idle
  | brq
  | as
  | data
  | reply
  | ack
  | done
deriving DecidableEq, Repr

/-- What the bus drives: grant, data acknowledge, error, data, and the two busy lines. -/
structure Bus where
  bg : Bool
  dk : Bool
  err : Bool
  dat : BitVec 32
  bft : Bool
  bmx : Bool
deriving DecidableEq, Repr

/-- The request as it is captured. -/
structure Captured where
  isRead : Bool
  bar : BitVec 3
  addr : BitVec 64
  w32Count : BitVec 16
  w32CountMinusOne : BitVec 16
  w32CountMinusTwo : BitVec 16
deriving DecidableEq, Repr

/-- The signals the output process drives. -/
structure MasterOut where
  brq : Bool
  as : Bool
  eof : Bool
  aef : Bool
  dat : BitVec 32
  burstClr : Bool
  burstEn : Bool
  reqAck : Bool
  repEn : Bool
  repDataEn : Bool
deriving DecidableEq, Repr

/-- The signals that keep a value from one edge to the next. -/
structure Master where
  state : MasterState
  nextState : MasterState
  out : MasterOut
  burst : BitVec 16
  cap : Captured
  repData : BitVec 64
deriving DecidableEq, Repr

/-- All signals. -/
structure Sig where
  clk : Bool
  req : Req
  bus : Bus
  m : Master
  busy : Bool
  reqWord : BitVec 32
  repWord : BitVec 64

/-! ### The logic of the processes -/

/-- What the next state logic is sensitive to. -/
structure NextIn where
  state : MasterState
  reqEn : Bool
  isRead : Bool
  busy : Bool
  bg : Bool
  err : Bool
  dk : Bool
  burst : BitVec 16
deriving DecidableEq, Repr

/-- The next state logic; where it makes no assignment `next_state` keeps its value. -/
def nextStateLogic (i : NextIn) (minusOne : BitVec 16) (nextState : MasterState) : MasterState :=
  match i.state with
  | .idle => if i.reqEn && !i.busy then .brq else nextState
  | .brq => if i.bg then .as else .idle
  | .as =>
    if i.err && i.dk then .done
    else if i.err then .done
    else if i.dk then .data
    else nextState
  | .data => if i.burst = minusOne then if i.isRead then .reply else .ack else .data
  | .reply => .ack
  | .ack => .done
  | .done => .idle

/-- The word of the addressing phase: the direction, two bits of the BAR, the address divided
by 4. -/
def addrWord (isRead : Bool) (bar : BitVec 3) (addr : BitVec 64) : BitVec 32 :=
  BitVec.ofBool isRead ++ 0#1 ++ bar.setWidth 2 ++ addr.extractLsb' 2 28

/-- The outputs in a state that assigns none. -/
def MasterOut.default : MasterOut :=
  ⟨false, false, false, false, 0, false, false, false, false, false⟩

/-- The output logic. -/
def outputLogic (state : MasterState) (cap : Captured) (burst : BitVec 16) (reqWord : BitVec 32) :
    MasterOut :=
  let o := MasterOut.default
  match state with
  | .idle => o
  | .brq => { o with brq := true }
  | .as =>
    { o with
      brq := true
      as := true
      dat := addrWord cap.isRead cap.bar cap.addr
      aef := decide (cap.w32Count = 1)
      burstClr := true }
  | .data =>
    let o := { o with brq := true, burstEn := true }
    let o :=
      if burst = cap.w32CountMinusTwo then
        if cap.w32Count ≠ 1 then { o with aef := true } else o
      else if burst = cap.w32CountMinusOne then { o with eof := true, burstEn := false }
      else o
    if cap.isRead then { o with repDataEn := true } else { o with dat := reqWord }
  | .reply => { o with repEn := true }
  | .ack => { o with reqAck := true }
  | .done => o

/-- The burst counter on a rising edge. -/
def burstClock (burst : BitVec 16) (clr en : Bool) : BitVec 16 :=
  if clr then 0 else if en then burst + 1 else burst

/-- The capture of the request on a rising edge. -/
def Captured.clock (c : Captured) (req : Req) : Captured :=
  if req.en then ⟨!req.wr, req.bar, req.addr, 1, 0, 0xffff⟩ else c

/-- `eb_busy`. -/
def busyOf (b : Bool × Bool) : Bool := b.1 || b.2

/-- `req_word`, for `DATA_WIDTH` 64. -/
def reqWordOf (d : BitVec 64 × BitVec 32) : BitVec 32 := d.1.setWidth 32

/-- `rep_word`. -/
def repWordOf (d : BitVec 64 × BitVec 32) : BitVec 64 := d.2.setWidth 64

/-! ### The processes -/

/-- What `eb_busy` is sensitive to. -/
def Sig.busyIn (s : Sig) : Bool × Bool := (s.bus.bmx, s.bus.bft)

/-- What the process of the words is sensitive to. -/
def Sig.wordIn (s : Sig) : BitVec 64 × BitVec 32 := (s.req.data, s.bus.dat)

/-- What the next state logic is sensitive to, from the signals it is made of. -/
def nextIn (m : Master) (reqEn : Bool) (bus : Bus) (busy : Bool) : NextIn :=
  ⟨m.state, reqEn, m.cap.isRead, busy, bus.bg, bus.err, bus.dk, m.burst⟩

def Sig.nextIn (s : Sig) : NextIn := Ebone.nextIn s.m s.req.en s.bus s.busy

/-- The processes of the master, and those that drive the request ports and the bus at each rising
edge. -/
def processes (driveReq : Sig → Req) (driveBus : Sig → Bus) : List (Process Sig) :=
  [clocked Sig.clk ⟨Sig.req, fun s v => { s with req := v }, fun _ => rfl⟩ driveReq,
    clocked Sig.clk ⟨Sig.bus, fun s v => { s with bus := v }, fun _ => rfl⟩ driveBus,
    -- the registers
    clocked Sig.clk ⟨fun s => s.m.state, fun s v => { s with m.state := v }, fun _ => rfl⟩
      fun s => s.m.nextState,
    clocked Sig.clk ⟨fun s => s.m.burst, fun s v => { s with m.burst := v }, fun _ => rfl⟩
      fun s => burstClock s.m.burst s.m.out.burstClr s.m.out.burstEn,
    clocked Sig.clk ⟨fun s => s.m.cap, fun s v => { s with m.cap := v }, fun _ => rfl⟩
      fun s => s.m.cap.clock s.req,
    clocked Sig.clk ⟨fun s => s.m.repData, fun s v => { s with m.repData := v }, fun _ => rfl⟩
      fun s => if s.m.out.repDataEn then s.repWord else s.m.repData,
    -- next state and output logic
    process Sig.nextIn
      ⟨fun s => s.m.nextState, fun s v => { s with m.nextState := v }, fun _ => rfl⟩
      fun s => nextStateLogic s.nextIn s.m.cap.w32CountMinusOne s.m.nextState,
    process (fun s => s.m.state)
      ⟨fun s => s.m.out, fun s v => { s with m.out := v }, fun _ => rfl⟩
      fun s => outputLogic s.m.state s.m.cap s.m.burst s.reqWord,
    -- `eb_busy` and the words
    process Sig.busyIn ⟨Sig.busy, fun s v => { s with busy := v }, fun _ => rfl⟩
      fun s => busyOf s.busyIn,
    process Sig.wordIn ⟨Sig.reqWord, fun s v => { s with reqWord := v }, fun _ => rfl⟩
      fun s => reqWordOf s.wordIn,
    process Sig.wordIn ⟨Sig.repWord, fun s v => { s with repWord := v }, fun _ => rfl⟩
      fun s => repWordOf s.wordIn]

/-- One delta cycle, signal by signal. -/
def Sig.next (driveReq : Sig → Req) (driveBus : Sig → Bus) (old cur : Sig) : Sig where
  clk := cur.clk
  req := onEdge old.clk cur.clk (driveReq cur) cur.req
  bus := onEdge old.clk cur.clk (driveBus cur) cur.bus
  m :=
    { state := onEdge old.clk cur.clk cur.m.nextState cur.m.state
      nextState := onEvent old.nextIn cur.nextIn
        (nextStateLogic cur.nextIn cur.m.cap.w32CountMinusOne cur.m.nextState) cur.m.nextState
      out := onEvent old.m.state cur.m.state
        (outputLogic cur.m.state cur.m.cap cur.m.burst cur.reqWord) cur.m.out
      burst := onEdge old.clk cur.clk
        (burstClock cur.m.burst cur.m.out.burstClr cur.m.out.burstEn) cur.m.burst
      cap := onEdge old.clk cur.clk (cur.m.cap.clock cur.req) cur.m.cap
      repData := onEdge old.clk cur.clk
        (if cur.m.out.repDataEn then cur.repWord else cur.m.repData) cur.m.repData }
  busy := onEvent old.busyIn cur.busyIn (busyOf cur.busyIn) cur.busy
  reqWord := onEvent old.wordIn cur.wordIn (reqWordOf cur.wordIn) cur.reqWord
  repWord := onEvent old.wordIn cur.wordIn (repWordOf cur.wordIn) cur.repWord

theorem delta_processes (driveReq : Sig → Req) (driveBus : Sig → Bus) (old cur : Sig) :
    delta (processes driveReq driveBus) old cur = Sig.next driveReq driveBus old cur := by
  simp only [delta, processes, List.foldl_cons, List.foldl_nil, process_apply, clocked_apply]
  rfl

/-! ### Between edges -/

/-- `eb_busy` once it has followed the bus. -/
def Bus.busy (b : Bus) : Bool := busyOf (b.bmx, b.bft)

/-- All signals once the combinational ones have followed the registers, the ports and the bus. -/
def Master.signals (m : Master) (req : Req) (bus : Bus) (clk : Bool) : Sig where
  clk := clk
  req := req
  bus := bus
  m := m
  busy := bus.busy
  reqWord := reqWordOf (req.data, bus.dat)
  repWord := repWordOf (req.data, bus.dat)

/-- The next state after its inputs have changed: the logic is executed with the new bus and the
old `eb_busy`, and again if that changes too. -/
def Master.follow (m : Master) (old : NextIn) (reqEn : Bool) (bus bus' : Bus) : Master :=
  let first := nextIn m reqEn bus' bus.busy
  let second := nextIn m reqEn bus' bus'.busy
  let nextState := onEvent old first
    (nextStateLogic first m.cap.w32CountMinusOne m.nextState) m.nextState
  let nextState := onEvent first second
    (nextStateLogic second m.cap.w32CountMinusOne nextState) nextState
  { m with nextState := nextState }

/-- The registers right after a rising edge, before the logic follows. -/
def Master.latch (m : Master) (req : Req) (bus : Bus) : Master where
  state := m.nextState
  nextState := m.nextState
  out := m.out
  burst := burstClock m.burst m.out.burstClr m.out.burstEn
  cap := m.cap.clock req
  repData := if m.out.repDataEn then repWordOf (req.data, bus.dat) else m.repData

/-- The outputs after a rising edge; `req_word` is from before the edge. -/
def Master.outputs (m : Master) (req : Req) (bus : Bus) : MasterOut :=
  onEvent m.state m.nextState (outputLogic (m.latch req bus).state (m.latch req bus).cap
    (m.latch req bus).burst (reqWordOf (req.data, bus.dat))) m.out

/-- What a rising edge leaves, when the ports and the bus change to `req'` and `bus'`. -/
def Master.edge (m : Master) (req req' : Req) (bus bus' : Bus) : Master :=
  Master.follow { m.latch req bus with out := m.outputs req bus } (nextIn m req.en bus bus.busy)
    req'.en bus bus'

/-- What a change of the bus between two edges leaves. -/
def Master.busChange (m : Master) (req : Req) (bus bus' : Bus) : Master :=
  m.follow (nextIn m req.en bus bus.busy) req.en bus bus'

section Settle

variable (driveReq : Sig → Req) (driveBus : Sig → Bus) (m : Master) (req req' : Req)
  (bus bus' : Bus)

/-- In the first delta cycle after an edge the registers, the ports and the bus have changed. -/
def Master.latched : Sig :=
  { m.signals req bus true with req := req', bus := bus', m := m.latch req bus }

/-- In the second the logic has followed, with the old `eb_busy`. -/
def Master.followed : Sig :=
  { m.signals req' bus' true with
    m :=
      { m.latch req bus with
        out := m.outputs req bus
        nextState := onEvent (nextIn m req.en bus bus.busy)
          (nextIn (m.latch req bus) req'.en bus' bus.busy)
          (nextStateLogic (nextIn (m.latch req bus) req'.en bus' bus.busy)
            (m.latch req bus).cap.w32CountMinusOne m.nextState) m.nextState } }

theorem next_rising :
    Sig.next driveReq driveBus (m.signals req bus false) (m.signals req bus true)
      = m.latched req (driveReq (m.signals req bus true)) bus
          (driveBus (m.signals req bus true)) := by
  simp only [Sig.next, Master.signals, onEdge_rising, onEvent_self, Sig.nextIn, Sig.busyIn,
    Sig.wordIn, Master.latched, Master.latch]
  rfl

theorem next_latched : Sig.next driveReq driveBus (m.signals req bus true)
    (m.latched req req' bus bus') = m.followed req req' bus bus' := by
  simp only [Sig.next, Master.signals, onEdge_self, Sig.nextIn, Sig.busyIn, Sig.wordIn,
    Master.latched, Master.followed, Bus.busy, onEvent_comb busyOf, onEvent_comb reqWordOf,
    onEvent_comb repWordOf]
  rfl

theorem next_followed : Sig.next driveReq driveBus (m.latched req req' bus bus')
    (m.followed req req' bus bus') = (m.edge req req' bus bus').signals req' bus' true := by
  simp only [Sig.next, Master.signals, onEdge_self, Sig.nextIn, Sig.busyIn, Sig.wordIn,
    Master.latched, Master.followed, onEvent_self]
  rfl

theorem next_settled : Sig.next driveReq driveBus (m.followed req req' bus bus')
    ((m.edge req req' bus bus').signals req' bus' true)
      = (m.edge req req' bus bus').signals req' bus' true := by
  simp only [Sig.next, Master.signals, onEdge_self, Sig.nextIn, Sig.busyIn, Sig.wordIn,
    Master.followed, onEvent_self, Master.edge, Master.follow, nextIn]

theorem processes_irrefl : ∀ p ∈ processes driveReq driveBus, ∀ s, p.event s s = false := by
  simp [processes, process, clocked]

/-- **What the delta cycles after a rising edge compute** is the step of the master. -/
theorem settle_edge (n : ℕ) : settle (processes driveReq driveBus) (n + 3)
    (m.signals req bus false) (m.signals req bus true)
      = (m.edge req (driveReq (m.signals req bus true)) bus
          (driveBus (m.signals req bus true))).signals (driveReq (m.signals req bus true))
          (driveBus (m.signals req bus true)) true := by
  simp only [settle_succ, delta_processes, next_rising, next_latched, next_followed]
  apply settle_of_quiet (processes_irrefl driveReq driveBus)
  rw [delta_processes, next_settled]

/-- Right after a change of the bus nothing has followed. -/
def Master.busChanged (clk : Bool) : Sig := { m.signals req bus clk with bus := bus' }

/-- In the next delta cycle the logic has, with the old `eb_busy`. -/
def Master.busFollowed (clk : Bool) : Sig :=
  { m.signals req bus' clk with
    m :=
      { m with
        nextState := onEvent (nextIn m req.en bus bus.busy) (nextIn m req.en bus' bus.busy)
          (nextStateLogic (nextIn m req.en bus' bus.busy) m.cap.w32CountMinusOne m.nextState)
          m.nextState } }

theorem next_busChanged (clk : Bool) : Sig.next driveReq driveBus (m.signals req bus clk)
    (m.busChanged req bus bus' clk) = m.busFollowed req bus bus' clk := by
  simp only [Sig.next, Master.signals, onEdge_self, Sig.nextIn, Sig.busyIn, Sig.wordIn,
    Master.busChanged, Master.busFollowed, Bus.busy, onEvent_self, onEvent_comb busyOf,
    onEvent_comb reqWordOf, onEvent_comb repWordOf]

theorem next_busFollowed (clk : Bool) : Sig.next driveReq driveBus
    (m.busChanged req bus bus' clk) (m.busFollowed req bus bus' clk)
      = (m.busChange req bus bus').signals req bus' clk := by
  simp only [Sig.next, Master.signals, onEdge_self, Sig.nextIn, Sig.busyIn, Sig.wordIn,
    Master.busChanged, Master.busFollowed, onEvent_self]
  rfl

theorem next_busSettled (clk : Bool) : Sig.next driveReq driveBus
    (m.busFollowed req bus bus' clk) ((m.busChange req bus bus').signals req bus' clk)
      = (m.busChange req bus bus').signals req bus' clk := by
  simp only [Sig.next, Master.signals, onEdge_self, Sig.nextIn, Sig.busyIn, Sig.wordIn,
    Master.busFollowed, onEvent_self, Master.busChange, Master.follow, nextIn]

/-- **What the delta cycles after a change of the bus compute.** -/
theorem settle_bus (clk : Bool) (n : ℕ) : settle (processes driveReq driveBus) (n + 2)
    (m.signals req bus clk) (m.busChanged req bus bus' clk)
      = (m.busChange req bus bus').signals req bus' clk := by
  simp only [settle_succ, delta_processes, next_busChanged, next_busFollowed]
  apply settle_of_quiet (processes_irrefl driveReq driveBus)
  rw [delta_processes, next_busSettled]

/-- A falling edge changes nothing else. -/
theorem settle_falling (n : ℕ) : settle (processes driveReq driveBus) n
    (m.signals req bus true) (m.signals req bus false) = m.signals req bus false := by
  apply settle_of_quiet (processes_irrefl driveReq driveBus)
  rw [delta_processes]
  simp only [Sig.next, Master.signals, onEdge_falling, Sig.nextIn, Sig.busyIn, Sig.wordIn,
    onEvent_self]

end Settle

end VPcie.Ebone
