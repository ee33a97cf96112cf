import VPcie.Lib.DeltaCycle

/-!
# The VHDL DMA device

The processes of `dma.vhdl`, each with its sensitivity list.  What an edge of the clock leaves in
the registers follows from them by simulation: the output process, sensitive to the state alone,
reads the pointer before the new counter has reached it.

Signals have two values; `'U'` is taken for `'0'`, which it is like in every test of the source.
The reset is over.

* `Dma` — the registers, `Sig` — all signals;
* `Dma.edge` — what a rising edge leaves;
* `settle_edge` — this is what the delta cycles compute.
-/

namespace VPcie.Vhdl

open VPcie.Lib

/-! ### Signals -/

/-- `DMA_BLOCK_SIZE`: `PAYLOAD_WIDTH / 8`. -/
def dmaBlockSize : ℕ := 128

/-- `GENERIC_BAR` of the instance. -/
def dmaBar : ℕ := 1

/-- `dma_state_t`. -/
inductive DmaState where
  | idle
  | writeStart
  | writeOne
  | writeNext
  | writeDone
deriving DecidableEq, Repr

/-- The request ports. -/
structure Req where
  en : Bool
  wr : Bool
  bar : BitVec 3
  addr : BitVec 64
  data : BitVec 64
deriving DecidableEq, Repr

/-- The clocked signals of a `reg_wo`. -/
structure RegWo where
  data : BitVec 64
  regData : BitVec 64
deriving DecidableEq, Repr

/-- The clocked signals of a `reg_ro`. -/
structure RegRo where
  data : BitVec 64
  repEn : Bool
  repData : BitVec 64
  regData : BitVec 64
deriving DecidableEq, Repr

/-- The signals the output process drives.  Where it makes no assignment a signal keeps its
value. -/
structure Moore where
  size : BitVec 16
  addr : BitVec 64
  dmaMsiEn : Bool
  counterClr : Bool
  counterEn : Bool
  staSetEn : Bool
  staSetData : BitVec 64
  ctlClrEn : Bool
  mwrEn : Bool
  mwrAddr : BitVec 64
  mwrSize : BitVec 16
  msiEn : Bool
  reqAck : Bool
deriving DecidableEq, Repr

/-- The signals that keep a value from one edge to the next. -/
structure Dma where
  state : DmaState
  nextState : DmaState
  counter : BitVec 16
  out : Moore
  ctl : RegWo
  sta : RegRo
  adl : RegWo
  adh : RegWo
  baz : RegWo
deriving DecidableEq, Repr

/-- `is_eq` and `is_en` of a register. -/
structure Sel where
  isEq : Bool
  isEn : Bool
deriving DecidableEq, Repr

/-- All signals. -/
structure Sig where
  clk : Bool
  req : Req
  dma : Dma
  off : BitVec 16
  ptr : BitVec 64
  mwrData : BitVec 1024
  ctlSel : Sel
  staSel : Sel
  adlSel : Sel
  adhSel : Sel
  bazSel : Sel

/-! ### The logic of the processes -/

/-- `bar_addr_cmp`. -/
def barAddrCmp (addr : ℕ) (req : BitVec 3 × BitVec 64) : Bool :=
  decide (req.1.toNat = dmaBar ∧ req.2.toNat = addr)

/-- `is_en` of a `reg_wo`. -/
def woEn (r : Bool × Bool × Bool) : Bool := r.1 && r.2.1 && r.2.2

/-- `is_en` of a `reg_ro`. -/
def roEn (r : Bool × Bool × Bool) : Bool := r.1 && r.2.1 && !r.2.2

/-- `mul_pow2`: the counter times the block size. -/
def mulPow2 (counter : BitVec 16) : BitVec 16 := counter <<< 7

/-- `dma_ptr`. -/
def dmaPtr (p : BitVec 64 × BitVec 16) : BitVec 64 := p.1 + p.2.setWidth 64

/-- `mwr_data`: every byte is the seed. -/
def mwrDataOf (baz : BitVec 64) : BitVec 1024 := (baz.setWidth 8).replicate 128

/-- `reg_wo` on a rising edge. -/
def RegWo.clock (r : RegWo) (clrEn isEn : Bool) (reqData : BitVec 64) : RegWo where
  data := if clrEn then 0 else if isEn then reqData else r.data
  regData := r.data

/-- `reg_ro` on a rising edge. -/
def RegRo.clock (r : RegRo) (setEn : Bool) (setData : BitVec 64) (isEn : Bool) : RegRo where
  data := if setEn then setData else r.data
  repEn := !setEn && isEn
  repData := if !setEn && isEn then r.data else r.repData
  regData := r.data

/-- The counter on a rising edge. -/
def counterClock (counter : BitVec 16) (clr en : Bool) : BitVec 16 :=
  if clr then 0 else if en then counter + 1 else counter

/-- The next state logic. -/
def nextStateLogic (state : DmaState) (ctlData : BitVec 64) (off size : BitVec 16) : DmaState :=
  match state with
  | .idle => if ctlData.getLsbD 31 then .writeStart else .idle
  | .writeStart => .writeOne
  | .writeOne => .writeNext
  | .writeNext => if off = size then .writeDone else .writeOne
  | .writeDone => .idle

/-- `sta_set_data(31 downto 0) <= x`. -/
def setLow (d : BitVec 64) (x : BitVec 32) : BitVec 64 :=
  d.extractLsb' 32 32 ++ x

/-- The output logic, from what it reads: the CTL, ADH and ADL outputs, the offset and the
pointer. -/
def Moore.output (m : Moore) (state : DmaState) (ctlData adhData adlData : BitVec 64)
    (off : BitVec 16) (ptr : BitVec 64) : Moore :=
  let m := { m with
    counterClr := false, counterEn := false, reqAck := false, mwrEn := false, msiEn := false
    staSetEn := false, ctlClrEn := false }
  match state with
  | .idle => m
  | .writeStart =>
    { m with
      size := ctlData.setWidth 16
      addr := adhData.setWidth 32 ++ adlData.setWidth 32
      counterClr := true
      staSetData := setLow m.staSetData 0
      staSetEn := true
      dmaMsiEn := ctlData.getLsbD 30
      ctlClrEn := true }
  | .writeOne => { m with mwrAddr := ptr, mwrSize := BitVec.ofNat 16 dmaBlockSize, mwrEn := true }
  | .writeNext => { m with counterEn := true }
  | .writeDone =>
    { m with
      staSetData := setLow m.staSetData (0x8000#16 ++ off)
      staSetEn := true
      msiEn := m.dmaMsiEn
      -- only here, whatever the request is for
      reqAck := true }

/-! ### The processes -/

/-- What `bar_addr_cmp` is sensitive to. -/
def Sig.barAddr (s : Sig) : BitVec 3 × BitVec 64 := (s.req.bar, s.req.addr)

/-- What `dma_ptr` is sensitive to. -/
def Sig.ptrIn (s : Sig) : BitVec 64 × BitVec 16 := (s.dma.out.addr, s.off)

/-- What `is_en` of the register with this `is_eq` is sensitive to. -/
def Sig.enOf (sel : Sel) (s : Sig) : Bool × Bool × Bool := (sel.isEq, s.req.en, s.req.wr)

/-- The processes of `dma.vhdl`, and one that drives the request ports at each rising edge. -/
def processes (drive : Sig → Req) : List (Process Sig) :=
  [clocked Sig.clk ⟨Sig.req, fun s v => { s with req := v }, fun _ => rfl⟩ drive,
    -- the state register, the counter and the registers
    clocked Sig.clk ⟨fun s => s.dma.state, fun s v => { s with dma.state := v }, fun _ => rfl⟩
      fun s => s.dma.nextState,
    clocked Sig.clk ⟨fun s => s.dma.counter, fun s v => { s with dma.counter := v }, fun _ => rfl⟩
      fun s => counterClock s.dma.counter s.dma.out.counterClr s.dma.out.counterEn,
    clocked Sig.clk ⟨fun s => s.dma.ctl, fun s v => { s with dma.ctl := v }, fun _ => rfl⟩
      fun s => s.dma.ctl.clock s.dma.out.ctlClrEn s.ctlSel.isEn s.req.data,
    clocked Sig.clk ⟨fun s => s.dma.sta, fun s v => { s with dma.sta := v }, fun _ => rfl⟩
      fun s => s.dma.sta.clock s.dma.out.staSetEn s.dma.out.staSetData s.staSel.isEn,
    clocked Sig.clk ⟨fun s => s.dma.adl, fun s v => { s with dma.adl := v }, fun _ => rfl⟩
      fun s => s.dma.adl.clock false s.adlSel.isEn s.req.data,
    clocked Sig.clk ⟨fun s => s.dma.adh, fun s v => { s with dma.adh := v }, fun _ => rfl⟩
      fun s => s.dma.adh.clock false s.adhSel.isEn s.req.data,
    clocked Sig.clk ⟨fun s => s.dma.baz, fun s v => { s with dma.baz := v }, fun _ => rfl⟩
      fun s => s.dma.baz.clock false s.bazSel.isEn s.req.data,
    -- next state and output logic; neither is sensitive to the offset
    process (fun s => (s.dma.state, s.dma.ctl.regData))
      ⟨fun s => s.dma.nextState, fun s v => { s with dma.nextState := v }, fun _ => rfl⟩
      fun s => nextStateLogic s.dma.state s.dma.ctl.regData s.off s.dma.out.size,
    process (fun s => s.dma.state)
      ⟨fun s => s.dma.out, fun s v => { s with dma.out := v }, fun _ => rfl⟩
      fun s => s.dma.out.output s.dma.state s.dma.ctl.regData s.dma.adh.regData s.dma.adl.regData
        s.off s.ptr,
    -- offset, pointer and data
    process (fun s => s.dma.counter) ⟨Sig.off, fun s v => { s with off := v }, fun _ => rfl⟩
      fun s => mulPow2 s.dma.counter,
    process Sig.ptrIn ⟨Sig.ptr, fun s v => { s with ptr := v }, fun _ => rfl⟩
      fun s => dmaPtr s.ptrIn,
    process (fun s => s.dma.baz.regData)
      ⟨Sig.mwrData, fun s v => { s with mwrData := v }, fun _ => rfl⟩
      fun s => mwrDataOf s.dma.baz.regData,
    -- the comparators
    process Sig.barAddr
      ⟨fun s => s.ctlSel.isEq, fun s v => { s with ctlSel.isEq := v }, fun _ => rfl⟩
      fun s => barAddrCmp 0x00 s.barAddr,
    process Sig.barAddr
      ⟨fun s => s.staSel.isEq, fun s v => { s with staSel.isEq := v }, fun _ => rfl⟩
      fun s => barAddrCmp 0x04 s.barAddr,
    process Sig.barAddr
      ⟨fun s => s.adlSel.isEq, fun s v => { s with adlSel.isEq := v }, fun _ => rfl⟩
      fun s => barAddrCmp 0x08 s.barAddr,
    process Sig.barAddr
      ⟨fun s => s.adhSel.isEq, fun s v => { s with adhSel.isEq := v }, fun _ => rfl⟩
      fun s => barAddrCmp 0x0c s.barAddr,
    process Sig.barAddr
      ⟨fun s => s.bazSel.isEq, fun s v => { s with bazSel.isEq := v }, fun _ => rfl⟩
      fun s => barAddrCmp 0x10 s.barAddr,
    -- the enables
    process (fun s => s.enOf s.ctlSel)
      ⟨fun s => s.ctlSel.isEn, fun s v => { s with ctlSel.isEn := v }, fun _ => rfl⟩
      fun s => woEn (s.enOf s.ctlSel),
    process (fun s => s.enOf s.staSel)
      ⟨fun s => s.staSel.isEn, fun s v => { s with staSel.isEn := v }, fun _ => rfl⟩
      fun s => roEn (s.enOf s.staSel),
    process (fun s => s.enOf s.adlSel)
      ⟨fun s => s.adlSel.isEn, fun s v => { s with adlSel.isEn := v }, fun _ => rfl⟩
      fun s => woEn (s.enOf s.adlSel),
    process (fun s => s.enOf s.adhSel)
      ⟨fun s => s.adhSel.isEn, fun s v => { s with adhSel.isEn := v }, fun _ => rfl⟩
      fun s => woEn (s.enOf s.adhSel),
    process (fun s => s.enOf s.bazSel)
      ⟨fun s => s.bazSel.isEn, fun s v => { s with bazSel.isEn := v }, fun _ => rfl⟩
      fun s => woEn (s.enOf s.bazSel)]

/-- The selection signals after a delta cycle. -/
def Sel.next (sel : Sel) (addr : ℕ) (en : Bool × Bool × Bool → Bool) (old cur : Sig)
    (oldSel : Sel) : Sel where
  isEq := onEvent old.barAddr cur.barAddr (barAddrCmp addr cur.barAddr) sel.isEq
  isEn := onEvent (old.enOf oldSel) (cur.enOf sel) (en (cur.enOf sel)) sel.isEn

/-- One delta cycle, signal by signal. -/
def Sig.next (drive : Sig → Req) (old cur : Sig) : Sig where
  clk := cur.clk
  req := onEdge old.clk cur.clk (drive cur) cur.req
  dma :=
    { state := onEdge old.clk cur.clk cur.dma.nextState cur.dma.state
      nextState := onEvent (old.dma.state, old.dma.ctl.regData) (cur.dma.state, cur.dma.ctl.regData)
        (nextStateLogic cur.dma.state cur.dma.ctl.regData cur.off cur.dma.out.size)
        cur.dma.nextState
      counter := onEdge old.clk cur.clk
        (counterClock cur.dma.counter cur.dma.out.counterClr cur.dma.out.counterEn) cur.dma.counter
      out := onEvent old.dma.state cur.dma.state
        (cur.dma.out.output cur.dma.state cur.dma.ctl.regData cur.dma.adh.regData
          cur.dma.adl.regData cur.off cur.ptr) cur.dma.out
      ctl := onEdge old.clk cur.clk
        (cur.dma.ctl.clock cur.dma.out.ctlClrEn cur.ctlSel.isEn cur.req.data) cur.dma.ctl
      sta := onEdge old.clk cur.clk
        (cur.dma.sta.clock cur.dma.out.staSetEn cur.dma.out.staSetData cur.staSel.isEn) cur.dma.sta
      adl := onEdge old.clk cur.clk
        (cur.dma.adl.clock false cur.adlSel.isEn cur.req.data) cur.dma.adl
      adh := onEdge old.clk cur.clk
        (cur.dma.adh.clock false cur.adhSel.isEn cur.req.data) cur.dma.adh
      baz := onEdge old.clk cur.clk
        (cur.dma.baz.clock false cur.bazSel.isEn cur.req.data) cur.dma.baz }
  off := onEvent old.dma.counter cur.dma.counter (mulPow2 cur.dma.counter) cur.off
  ptr := onEvent old.ptrIn cur.ptrIn (dmaPtr cur.ptrIn) cur.ptr
  mwrData := onEvent old.dma.baz.regData cur.dma.baz.regData (mwrDataOf cur.dma.baz.regData)
    cur.mwrData
  ctlSel := cur.ctlSel.next 0x00 woEn old cur old.ctlSel
  staSel := cur.staSel.next 0x04 roEn old cur old.staSel
  adlSel := cur.adlSel.next 0x08 woEn old cur old.adlSel
  adhSel := cur.adhSel.next 0x0c woEn old cur old.adhSel
  bazSel := cur.bazSel.next 0x10 woEn old cur old.bazSel

theorem delta_processes (drive : Sig → Req) (old cur : Sig) :
    delta (processes drive) old cur = Sig.next drive old cur := by
  simp only [delta, processes, List.foldl_cons, List.foldl_nil, process_apply, clocked_apply]
  rfl

/-! ### Between edges -/

/-- The request writes the register at this address. -/
def Req.writes (addr : ℕ) (r : Req) : Bool := woEn (barAddrCmp addr (r.bar, r.addr), r.en, r.wr)

/-- The request reads it. -/
def Req.reads (addr : ℕ) (r : Req) : Bool := roEn (barAddrCmp addr (r.bar, r.addr), r.en, r.wr)

def Dma.off (d : Dma) : BitVec 16 := mulPow2 d.counter

def Dma.ptr (d : Dma) : BitVec 64 := dmaPtr (d.out.addr, d.off)

/-- All signals once the combinational ones have followed the registers and the request ports. -/
def Dma.signals (d : Dma) (req : Req) (clk : Bool) : Sig where
  clk := clk
  req := req
  dma := d
  off := d.off
  ptr := d.ptr
  mwrData := mwrDataOf d.baz.regData
  ctlSel := ⟨barAddrCmp 0x00 (req.bar, req.addr), req.writes 0x00⟩
  staSel := ⟨barAddrCmp 0x04 (req.bar, req.addr), req.reads 0x04⟩
  adlSel := ⟨barAddrCmp 0x08 (req.bar, req.addr), req.writes 0x08⟩
  adhSel := ⟨barAddrCmp 0x0c (req.bar, req.addr), req.writes 0x0c⟩
  bazSel := ⟨barAddrCmp 0x10 (req.bar, req.addr), req.writes 0x10⟩

/-- What a rising edge leaves.  The next state and output logic, where they are executed, read the
new registers but the offset and the pointer from before the edge. -/
def Dma.edge (d : Dma) (req : Req) : Dma :=
  let ctl := d.ctl.clock d.out.ctlClrEn (req.writes 0x00) req.data
  let adl := d.adl.clock false (req.writes 0x08) req.data
  let adh := d.adh.clock false (req.writes 0x0c) req.data
  { state := d.nextState
    nextState := onEvent (d.state, d.ctl.regData) (d.nextState, ctl.regData)
      (nextStateLogic d.nextState ctl.regData d.off d.out.size) d.nextState
    counter := counterClock d.counter d.out.counterClr d.out.counterEn
    out := onEvent d.state d.nextState
      (d.out.output d.nextState ctl.regData adh.regData adl.regData d.off d.ptr) d.out
    ctl := ctl
    sta := d.sta.clock d.out.staSetEn d.out.staSetData (req.reads 0x04)
    adl := adl
    adh := adh
    baz := d.baz.clock false (req.writes 0x10) req.data }

section Settle

variable (drive : Sig → Req) (d : Dma) (req req' : Req)

/-- In the first delta cycle after an edge the registers and the request ports have changed. -/
def Dma.latched : Sig :=
  { d.signals req true with
    req := req'
    dma := { d.edge req with nextState := d.nextState, out := d.out } }

/-- The selection signals once `is_eq` has followed a new request and `is_en` not yet. -/
def Sel.glitch (addr : ℕ) (en : Bool × Bool × Bool → Bool) (req req' : Req) : Sel where
  isEq := barAddrCmp addr (req'.bar, req'.addr)
  isEn := en (barAddrCmp addr (req.bar, req.addr), req'.en, req'.wr)

/-- In the second the logic that reads these has followed, not yet the pointer and the enables. -/
def Dma.followed : Sig :=
  { (d.edge req).signals req' true with
    ptr := d.ptr
    ctlSel := Sel.glitch 0x00 woEn req req'
    staSel := Sel.glitch 0x04 roEn req req'
    adlSel := Sel.glitch 0x08 woEn req req'
    adhSel := Sel.glitch 0x0c woEn req req'
    bazSel := Sel.glitch 0x10 woEn req req' }

theorem next_rising : Sig.next drive (d.signals req false) (d.signals req true)
    = d.latched req (drive (d.signals req true)) := by
  simp only [Sig.next, Dma.signals, onEdge_rising, onEvent_self, Sel.next, Sig.barAddr, Sig.enOf,
    Sig.ptrIn, Dma.latched, Dma.edge]

theorem next_latched :
    Sig.next drive (d.signals req true) (d.latched req req') = d.followed req req' := by
  simp only [Sig.next, Dma.signals, onEdge_self, Sel.next, Sig.barAddr, Sig.enOf, Sig.ptrIn,
    Sel.glitch, Dma.latched, Dma.followed, Dma.off, onEvent_self, Req.writes, Req.reads,
    onEvent_comb mulPow2, onEvent_comb mwrDataOf, onEvent_comb (barAddrCmp _), onEvent_comb woEn,
    onEvent_comb roEn]
  rfl

theorem next_followed :
    Sig.next drive (d.latched req req') (d.followed req req') = (d.edge req).signals req' true := by
  simp only [Sig.next, Dma.signals, onEdge_self, Sel.next, Sig.barAddr, Sig.enOf, Sig.ptrIn,
    Sel.glitch, Dma.latched, Dma.followed, Dma.ptr, onEvent_self, Req.writes, Req.reads,
    onEvent_comb dmaPtr, onEvent_comb woEn, onEvent_comb roEn]

theorem next_settled : Sig.next drive (d.followed req req') ((d.edge req).signals req' true)
    = (d.edge req).signals req' true := by
  simp only [Sig.next, Dma.signals, onEdge_self, Sel.next, Sig.barAddr, Sig.enOf, Sig.ptrIn,
    Sel.glitch, Dma.followed, onEvent_self]

theorem processes_irrefl : ∀ p ∈ processes drive, ∀ s, p.event s s = false := by
  simp [processes, process, clocked]

/-- **What the delta cycles after a rising edge compute** is the step of the registers. -/
theorem settle_edge (n : ℕ) :
    settle (processes drive) (n + 3) (d.signals req false) (d.signals req true)
      = (d.edge req).signals (drive (d.signals req true)) true := by
  simp only [settle_succ, delta_processes, next_rising, next_latched, next_followed]
  apply settle_of_quiet (processes_irrefl drive)
  rw [delta_processes, next_settled]

/-- A falling edge changes nothing else. -/
theorem settle_falling (n : ℕ) :
    settle (processes drive) n (d.signals req true) (d.signals req false)
      = d.signals req false := by
  apply settle_of_quiet (processes_irrefl drive)
  rw [delta_processes]
  simp only [Sig.next, Dma.signals, onEdge_falling, Sel.next, Sig.barAddr, Sig.enOf, Sig.ptrIn,
    onEvent_self]

end Settle

end VPcie.Vhdl
