import VPcie.Glue.Threads
import VPcie.Vhdl.Transfer

/-!
# The PCIe endpoint and the VHDL DMA device

The clocked process of `pcie_endpoint.vhdl`, and its composition with the device as in `main.vhdl`.
The endpoint takes an access from the glue and keeps the request on the ports until `req_ack`.

What arrived in the glue until an edge is an input of that edge, so the runs below are over any
accesses in any order at any cycles.

* `System.clock` — an edge of the clock, for endpoint and device together;
* `clock_settles` — this is what the delta cycles compute;
* `System.Holds`, `System.Accepts`, `System.Rests` — what an edge does to the request;
* `clock_consistent` — the request is that of the access the endpoint waits for;
* `clock_ctl` — the request sets the bit S again on every edge but one.
-/

namespace VPcie.Vhdl

open VPcie.Lib VPcie.Glue

/-! ### The endpoint -/

/-- The variables of the process: the access of the last poll, and `var_req_wait_ack`. -/
structure Endpoint where
  access : AccessView
  waitAck : Bool
deriving DecidableEq, Repr

/-- The ports of the device that `endpoint` passes on to the glue. -/
structure EndpointIn where
  repEn : Bool
  repData : BitVec 64
  mwrEn : Bool
  mwrAddr : BitVec 64
  mwrData : BitVec 1024
  mwrSize : BitVec 16
  msiEn : Bool

/-- A call into the glue. -/
inductive GlueCall where
  | sendMsi
  | sendWrite (addr : BitVec 64) (data : BitVec 1024) (dataSize size : BitVec 16)
  | sendReply (data : BitVec 64)
deriving DecidableEq, Repr

/-- The calls of an edge, in their order. -/
def EndpointIn.calls (i : EndpointIn) : List GlueCall :=
  (if i.msiEn then [.sendMsi] else []) ++
  (if i.mwrEn then [.sendWrite i.mwrAddr i.mwrData (1024 / 8) i.mwrSize] else []) ++
  (if i.repEn then [.sendReply i.repData] else [])

/-- `glue_poll_rx_fifo`.  With nothing to pop all arguments but the address are zero. -/
def pollRxFifo (access : AccessView) : List AccessView → AccessView × List AccessView
  | [] => (⟨false, 0, access.addr, 0, some 0⟩, [])
  | a :: fifo => (a, fifo)

/-- The request ports between two requests. -/
def Req.none (data : BitVec 64) : Req := ⟨false, false, 0, 0, data⟩

/-- The request of an access.  A read leaves `req_data` alone. -/
def Req.ofAccess (a : AccessView) (data : BitVec 64) : Req where
  en := true
  wr := !a.isRead
  bar := a.bar.setWidth 3
  addr := a.addr
  data := if a.isRead then data else a.data.getD 0

/-- `endpoint` on a rising edge: its variables, the request ports, and the fifo of the glue. -/
def Endpoint.clock (e : Endpoint) (reqAck : Bool) (data : BitVec 64) (fifo : List AccessView) :
    Endpoint × Req × List AccessView :=
  let e := if reqAck then { e with waitAck := false } else e
  let (e, fifo) :=
    if e.waitAck then (e, fifo)
    else
      let (access, fifo) := pollRxFifo e.access fifo
      (if access.size = 0 then ⟨access, false⟩ else ⟨access, true⟩, fifo)
  (e, if e.waitAck then Req.ofAccess e.access data else Req.none data, fifo)

/-! ### The composition -/

/-- The endpoint, the request ports, the device, and the fifo of the glue. -/
structure System where
  ep : Endpoint
  req : Req
  dma : Dma
  fifo : List AccessView
deriving DecidableEq, Repr

/-- The state a reset leaves, with `'0'` for what it does not assign. -/
def System.reset : System where
  ep := ⟨⟨false, 0, 0, 0, none⟩, false⟩
  req := Req.none 0
  dma := Dma.reset
  fifo := []

/-- The endpoint of the system on an edge before which these accesses have arrived. -/
def System.endpoint (s : System) (arrivals : List AccessView) :
    Endpoint × Req × List AccessView :=
  s.ep.clock s.dma.out.reqAck s.req.data (s.fifo ++ arrivals)

/-- A rising edge. -/
def System.clock (s : System) (arrivals : List AccessView) : System where
  ep := (s.endpoint arrivals).1
  req := (s.endpoint arrivals).2.1
  dma := s.dma.edge s.req
  fifo := (s.endpoint arrivals).2.2

/-- The calls into the glue on that edge. -/
def System.calls (s : System) : List GlueCall :=
  EndpointIn.calls
    { repEn := s.dma.sta.repEn
      repData := s.dma.sta.repData
      mwrEn := s.dma.out.mwrEn
      mwrAddr := s.dma.out.mwrAddr
      mwrData := mwrDataOf s.dma.baz.regData
      mwrSize := s.dma.out.mwrSize
      msiEn := s.dma.out.msiEn }

/-- The system after `n` edges from a reset. -/
def System.after (arr : ℕ → List AccessView) (n : ℕ) : System :=
  drive System.clock System.reset arr n

theorem System.after_succ (arr : ℕ → List AccessView) (n : ℕ) :
    System.after arr (n + 1) = (System.after arr n).clock (arr n) := rfl

/-- All signals between edges. -/
def System.signals (s : System) (clk : Bool) : Sig := s.dma.signals s.req clk

/-- What the endpoint puts on the request ports, from the signals it reads. -/
def System.driveReq (s : System) (arrivals : List AccessView) (sig : Sig) : Req :=
  (s.ep.clock sig.dma.out.reqAck sig.req.data (s.fifo ++ arrivals)).2.1

/-- **The delta cycles after a rising edge** leave the signals of the new state. -/
theorem clock_settles (s : System) (arrivals : List AccessView) (n : ℕ) :
    settle (processes (s.driveReq arrivals)) (n + 3) (s.signals false) (s.signals true)
      = (s.clock arrivals).signals true :=
  settle_edge (s.driveReq arrivals) s.dma s.req n

/-! ### What an edge does to the request -/

/-- The access accepted on an edge: the one the endpoint pops, if that has a size. -/
def System.accepted (s : System) (arrivals : List AccessView) : Option AccessView :=
  if s.ep.waitAck && !s.dma.out.reqAck then none
  else (s.fifo ++ arrivals).head?.filter fun a => decide (a.size ≠ 0)

/-- The endpoint goes on waiting. -/
structure System.Holds (s : System) (arrivals : List AccessView) : Prop where
  wait : s.ep.waitAck = true
  noAck : s.dma.out.reqAck = false
  accepted : s.accepted arrivals = none
  ep : (s.clock arrivals).ep = s.ep
  req : (s.clock arrivals).req = Req.ofAccess s.ep.access s.req.data
  fifo : (s.clock arrivals).fifo = s.fifo ++ arrivals

/-- The endpoint, not waiting or no longer, accepts an access. -/
structure System.Accepts (s : System) (arrivals : List AccessView) (a : AccessView) : Prop where
  free : s.ep.waitAck = true → s.dma.out.reqAck = true
  accepted : s.accepted arrivals = some a
  ep : (s.clock arrivals).ep = ⟨a, true⟩
  req : (s.clock arrivals).req = Req.ofAccess a s.req.data
  fifo : s.fifo ++ arrivals = a :: (s.clock arrivals).fifo

/-- It finds none. -/
structure System.Rests (s : System) (arrivals : List AccessView) : Prop where
  free : s.ep.waitAck = true → s.dma.out.reqAck = true
  accepted : s.accepted arrivals = none
  wait : (s.clock arrivals).ep.waitAck = false
  req : (s.clock arrivals).req = Req.none s.req.data
  fifo : (s.clock arrivals).fifo.length ≤ (s.fifo ++ arrivals).length

/-- The endpoint that need not wait polls. -/
theorem Endpoint.clock_free {e : Endpoint} {reqAck : Bool} (h : e.waitAck = true → reqAck = true)
    (data : BitVec 64) (fifo : List AccessView) : e.clock reqAck data fifo
      = (⟨(pollRxFifo e.access fifo).1, decide ((pollRxFifo e.access fifo).1.size ≠ 0)⟩,
          if (pollRxFifo e.access fifo).1.size = 0 then Req.none data
          else Req.ofAccess (pollRxFifo e.access fifo).1 data,
          (pollRxFifo e.access fifo).2) := by
  obtain ⟨access, waitAck⟩ := e
  have hwait : (if reqAck then (⟨access, false⟩ : Endpoint) else ⟨access, waitAck⟩)
      = ⟨access, false⟩ := by
    cases reqAck with
    | true => rfl
    | false =>
      cases waitAck with
      | true => cases h rfl
      | false => rfl
  simp only [Endpoint.clock, hwait]
  by_cases hsize : (pollRxFifo access fifo).1.size = 0
  · have hpop : decide ((pollRxFifo access fifo).1.size ≠ 0) = false :=
      decide_eq_false (fun hne => hne hsize)
    simp only [if_pos hsize, hpop, Bool.false_eq_true, if_false]
  · have hpop : decide ((pollRxFifo access fifo).1.size ≠ 0) = true := decide_eq_true hsize
    simp only [Bool.false_eq_true, if_false, if_neg hsize, hpop, if_true]

/-- The one that must wait repeats the request. -/
theorem Endpoint.clock_wait {e : Endpoint} (h : e.waitAck = true) (data : BitVec 64)
    (fifo : List AccessView) :
    e.clock false data fifo = (e, Req.ofAccess e.access data, fifo) := by
  simp [Endpoint.clock, h]

/-- The access has a size. -/
def hasSize (a : AccessView) : Bool := decide (a.size ≠ 0)

/-- The access the endpoint accepts on an edge. -/
def Endpoint.accepted (e : Endpoint) (reqAck : Bool) (fifo : List AccessView) :
    Option AccessView :=
  if e.waitAck && !reqAck then none else fifo.head?.filter hasSize

/-- **What the endpoint does on an edge**: it goes on waiting, accepts an access, or finds none. -/
theorem Endpoint.clock_cases (e : Endpoint) (reqAck : Bool) (data : BitVec 64)
    (fifo : List AccessView) :
    (e.waitAck = true ∧ reqAck = false ∧ e.accepted reqAck fifo = none ∧
      e.clock reqAck data fifo = (e, Req.ofAccess e.access data, fifo)) ∨
    ((e.waitAck = true → reqAck = true) ∧ ∃ a rest, hasSize a = true ∧
      e.accepted reqAck fifo = some a ∧ fifo = a :: rest ∧
      e.clock reqAck data fifo = (⟨a, true⟩, Req.ofAccess a data, rest)) ∨
    ((e.waitAck = true → reqAck = true) ∧ e.accepted reqAck fifo = none ∧ ∃ access rest,
      rest.filter hasSize = fifo.filter hasSize ∧ rest.length ≤ fifo.length ∧
      e.clock reqAck data fifo = (⟨access, false⟩, Req.none data, rest)) := by
  by_cases hhold : e.waitAck = true ∧ reqAck = false
  · obtain ⟨hwait, rfl⟩ := hhold
    exact Or.inl ⟨hwait, rfl, by simp [Endpoint.accepted, hwait], Endpoint.clock_wait hwait ..⟩
  · right
    have hfree : e.waitAck = true → reqAck = true := by
      intro hwait
      by_contra hack
      exact hhold ⟨hwait, Bool.eq_false_iff.mpr hack⟩
    have haccepted : e.accepted reqAck fifo = fifo.head?.filter hasSize := by
      refine if_neg fun hpoll => ?_
      rw [Bool.and_eq_true, Bool.not_eq_true'] at hpoll
      exact hhold hpoll
    rw [haccepted, Endpoint.clock_free hfree]
    cases fifo with
    | nil => exact Or.inr ⟨hfree, rfl, _, [], rfl, le_refl 0, rfl⟩
    | cons a fifo =>
      by_cases hsize : a.size = 0
      · right
        have hpop : hasSize a = false := decide_eq_false fun hne => hne hsize
        refine ⟨hfree, by simp [hpop], a, fifo, by simp [hpop], Nat.le_succ _, ?_⟩
        simp [pollRxFifo, hsize]
      · left
        have hpop : hasSize a = true := decide_eq_true hsize
        refine ⟨hfree, a, fifo, hpop, Option.filter_some_pos hpop, rfl, ?_⟩
        show ((⟨a, hasSize a⟩ : Endpoint), _, _) = _
        rw [hpop]
        exact congrArg (fun r => (_, r, fifo)) (if_neg hsize)

/-- **Every edge is one of these.** -/
theorem System.clock_cases (s : System) (arrivals : List AccessView) :
    s.Holds arrivals ∨ (∃ a, s.Accepts arrivals a) ∨ s.Rests arrivals := by
  rcases s.ep.clock_cases s.dma.out.reqAck s.req.data (s.fifo ++ arrivals) with
    ⟨hwait, hack, haccepted, hclock⟩ | ⟨hfree, a, rest, -, haccepted, hfifo, hclock⟩ |
      ⟨hfree, haccepted, access, rest, -, hlength, hclock⟩
  · left
    exact ⟨hwait, hack, haccepted, congrArg Prod.fst hclock, congrArg (fun r => r.2.1) hclock,
      congrArg (fun r => r.2.2) hclock⟩
  · right; left
    have hrest : (s.clock arrivals).fifo = rest := congrArg (fun r => r.2.2) hclock
    exact ⟨a, hfree, haccepted, congrArg Prod.fst hclock, congrArg (fun r => r.2.1) hclock,
      hrest ▸ hfifo⟩
  · right; right
    have hrest : (s.clock arrivals).fifo = rest := congrArg (fun r => r.2.2) hclock
    exact ⟨hfree, haccepted, congrArg (fun r => r.1.waitAck) hclock,
      congrArg (fun r => r.2.1) hclock, hrest ▸ hlength⟩

/-! ### The start bit -/

/-- The access is a write of CTL with the bit S. -/
def startsTransfer (a : AccessView) : Bool :=
  !a.isRead && decide (a.bar.setWidth 3 = 1 ∧ a.addr = 0) && (a.data.getD 0).getLsbD 31

/-- The request is one. -/
def Req.setsS (r : Req) : Bool := r.writes 0x00 && r.data.getLsbD 31

theorem setsS_none (data : BitVec 64) : (Req.none data).setsS = false := rfl

theorem setsS_ofAccess (a : AccessView) (data : BitVec 64) :
    (Req.ofAccess a data).setsS = startsTransfer a := by
  have hcmp : barAddrCmp 0x00 (a.bar.setWidth 3, a.addr)
      = decide (a.bar.setWidth 3 = 1 ∧ a.addr = 0) := by
    rw [barAddrCmp]
    congr 1
    rw [← BitVec.toNat_inj, ← BitVec.toNat_inj]
    rfl
  rw [Req.setsS, Req.writes, Req.ofAccess, woEn, hcmp, startsTransfer]
  cases a.isRead with
  | true => simp
  | false => simp

/-- What holds between edges: the device is consistent, and the request is that of the access the
endpoint waits for. -/
structure System.Consistent (s : System) : Prop where
  dma : s.dma.Consistent
  req : s.req.setsS = (s.ep.waitAck && startsTransfer s.ep.access)

theorem System.reset_consistent : System.reset.Consistent := ⟨Vhdl.reset_consistent, rfl⟩

/-- **Step lemma.** -/
theorem System.clock_consistent {s : System} (h : s.Consistent) (arrivals : List AccessView) :
    (s.clock arrivals).Consistent := by
  refine ⟨edge_consistent h.dma s.req, ?_⟩
  rcases s.clock_cases arrivals with hhold | ⟨a, haccept⟩ | hrest
  · rw [hhold.req, hhold.ep, setsS_ofAccess, hhold.wait, Bool.true_and]
  · rw [haccept.req, haccept.ep, setsS_ofAccess, Bool.true_and]
  · rw [hrest.req, hrest.wait, setsS_none, Bool.false_and]

theorem System.after_consistent (arr : ℕ → List AccessView) (n : ℕ) :
    (System.after arr n).Consistent :=
  drive_invariant System.Consistent (fun _ a h => System.clock_consistent h a)
    System.reset_consistent arr n

section Edge

variable {s : System} {arrivals : List AccessView}

theorem System.clock_state (s : System) (arrivals : List AccessView) :
    (s.clock arrivals).dma.state = s.dma.nextState := rfl

theorem System.clock_regData (s : System) (arrivals : List AccessView) :
    (s.clock arrivals).dma.ctl.regData = s.dma.ctl.data := rfl

/-- The bit S of the register: cleared in `write_start`, and set by the request at any other edge
on which that is there. -/
theorem System.clock_ctl (h : s.Consistent) (arrivals : List AccessView)
    (hstate : s.dma.state ≠ .writeStart) (hS : s.req.setsS = true) :
    (s.clock arrivals).dma.ctl.data.getLsbD 31 = true := by
  rw [Req.setsS, Bool.and_eq_true] at hS
  show (if s.dma.out.ctlClrEn then 0 else if s.req.writes 0x00 then s.req.data
    else s.dma.ctl.data).getLsbD 31 = true
  rw [h.dma.ctlClrEn, decide_eq_false hstate, hS.1]
  exact hS.2

/-- Without a request it is not set. -/
theorem System.clock_ctl_clear (hS : s.req.setsS = false)
    (hctl : s.dma.ctl.data.getLsbD 31 = false) (arrivals : List AccessView) :
    (s.clock arrivals).dma.ctl.data.getLsbD 31 = false := by
  show (if s.dma.out.ctlClrEn then 0 else if s.req.writes 0x00 then s.req.data
    else s.dma.ctl.data).getLsbD 31 = false
  by_cases hclr : s.dma.out.ctlClrEn = true
  · rw [if_pos hclr]
    rfl
  · rw [if_neg hclr]
    by_cases hwrite : s.req.writes 0x00 = true
    · rw [Req.setsS, hwrite, Bool.true_and] at hS
      rw [if_pos hwrite, hS]
    · rw [if_neg hwrite, hctl]

/-- The engine is idle between edges with next state idle if the latched CTL has no bit S. -/
theorem System.Consistent.next_idle (h : s.Consistent) (hidle : s.dma.state = .idle) :
    s.dma.nextState = if s.dma.ctl.regData.getLsbD 31 then .writeStart else .idle := by
  rw [h.dma.next, hidle]
  rfl

/-- Only `write_done` goes back to idle. -/
theorem System.Consistent.done_of_next (h : s.Consistent) (hstate : s.dma.state ≠ .idle)
    (hnext : s.dma.nextState = .idle) : s.dma.state = .writeDone := by
  have hfollows := h.dma.follows
  rw [hnext] at hfollows
  generalize s.dma.state = state at hstate hfollows
  cases hfollows with
  | stays => exact absurd rfl hstate
  | done => rfl

/-- Only `write_done` has the acknowledge. -/
theorem System.Consistent.ack_iff (h : s.Consistent) :
    s.dma.out.reqAck = true ↔ s.dma.state = .writeDone := by
  rw [h.dma.reqAck, decide_eq_true_eq]

end Edge

end VPcie.Vhdl
