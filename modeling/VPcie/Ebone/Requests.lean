import VPcie.Ebone.Master

/-!
# The requests the E-bone master executes

The endpoint and the master together.  In a cycle there is an edge, on which the bus takes new
values, and then the bus changes any number of times.

* `System.clock` — one cycle;
* `Transaction.events` — a request from the pop to the acknowledge;
* `System.Consistent` — what holds between edges, and `Phase.Fits` — how far the request is;
* `requests_executed_once` — what is shown is one transaction after another.
-/

namespace VPcie.Ebone

open VPcie.Lib VPcie.Glue
open VPcie.Vhdl (Req Endpoint hasSize)

/-! ### The composition -/

/-- The endpoint, the request ports, the bus, the master, and the fifo of the glue. -/
structure System where
  ep : Endpoint
  req : Req
  bus : Bus
  m : Master
  fifo : List AccessView
deriving DecidableEq, Repr

/-- What a reset leaves of the master. -/
def Master.reset : Master where
  state := .idle
  nextState := .idle
  out := MasterOut.default
  burst := 0
  cap := ⟨false, 0, 0, 0, 0, 0⟩
  repData := 0

/-- The state a reset leaves, with `'0'` for what it does not assign. -/
def System.reset (bus : Bus) : System where
  ep := ⟨⟨false, 0, 0, 0, none⟩, false⟩
  req := Req.none 0
  bus := bus
  m := Master.reset
  fifo := []

/-- A cycle: what arrived in the glue before the edge, what the bus is from the edge on, and how it
changes before the next one. -/
structure Cycle where
  arrivals : List AccessView
  bus : Bus
  changes : List Bus
deriving DecidableEq, Repr

/-- Changes of the bus, one after another. -/
def Master.busChanges (m : Master) (req : Req) (bus : Bus) : List Bus → Master
  | [] => m
  | bus' :: changes => (m.busChange req bus bus').busChanges req bus' changes

/-- The endpoint of the system on an edge before which these accesses have arrived. -/
def System.endpoint (s : System) (arrivals : List AccessView) :
    Endpoint × Req × List AccessView :=
  s.ep.clock s.m.out.reqAck s.req.data (s.fifo ++ arrivals)

/-- A rising edge, and what follows before the next. -/
def System.clock (s : System) (c : Cycle) : System where
  ep := (s.endpoint c.arrivals).1
  req := (s.endpoint c.arrivals).2.1
  bus := c.changes.getLastD c.bus
  m := (s.m.edge s.req (s.endpoint c.arrivals).2.1 s.bus c.bus).busChanges
    (s.endpoint c.arrivals).2.1 c.bus c.changes
  fifo := (s.endpoint c.arrivals).2.2

/-- The system after `n` cycles from a reset. -/
def System.after (bus : Bus) (cs : ℕ → Cycle) (n : ℕ) : System :=
  drive System.clock (System.reset bus) cs n

/-- What the endpoint puts on the request ports, from the signals it reads. -/
def System.driveReq (s : System) (arrivals : List AccessView) (sig : Sig) : Req :=
  (s.ep.clock sig.m.out.reqAck sig.req.data (s.fifo ++ arrivals)).2.1

/-- The delta cycles after the edge compute the first part of `System.clock`, those after each
change of the bus the rest. -/
theorem clock_settles (s : System) (c : Cycle) (n : ℕ) :
    settle (processes (s.driveReq c.arrivals) fun _ => c.bus) (n + 3)
      (s.m.signals s.req s.bus false) (s.m.signals s.req s.bus true)
        = (s.clock ⟨c.arrivals, c.bus, []⟩).m.signals (s.clock c).req c.bus true :=
  settle_edge (s.driveReq c.arrivals) (fun _ => c.bus) s.m s.req s.bus n

/-! ### What is shown -/

/-- What is seen of a request.  The ports and the bus are sampled at the edge that ends a cycle. -/
inductive Event where
  /-- the endpoint pops the request -/
  | pop (a : AccessView)
  /-- a cycle of the addressing phase, with what the master drives -/
  | addr (out : BitVec 32)
  /-- the data phase, with what the master drives and what the bus does -/
  | data (out : BitVec 32) (sampled : BitVec 32)
  /-- a cycle with `pcie_rep_en` -/
  | rep (data : BitVec 64)
  /-- a cycle with `pcie_req_ack` -/
  | ack
deriving DecidableEq, Repr

/-- The access accepted on the edge. -/
def System.accepted (s : System) (c : Cycle) : Option AccessView :=
  s.ep.accepted s.m.out.reqAck (s.fifo ++ c.arrivals)

/-- What a cycle shows of the master. -/
def System.masterEvents (s : System) : List Event :=
  (if s.m.out.as then [.addr s.m.out.dat] else []) ++
  (if s.m.state = .data then [.data s.m.out.dat s.bus.dat] else []) ++
  (if s.m.out.repEn then [.rep s.m.repData] else []) ++
  if s.m.out.reqAck then [.ack] else []

/-- What a cycle shows. -/
def System.events (s : System) (c : Cycle) : List Event :=
  s.masterEvents ++ (s.accepted c).toList.map .pop

/-- What the first `n` cycles from a reset show. -/
def log (bus : Bus) (cs : ℕ → Cycle) (n : ℕ) : List Event :=
  shown System.clock System.events (System.reset bus) cs n

/-! ### Transactions -/

/-- A request that is executed: the access, the cycles it spent in addressing phases, and the word
the bus had in the data phase. -/
structure Transaction where
  access : AccessView
  tries : ℕ
  sampled : BitVec 32
deriving DecidableEq, Repr

/-- What the request of an access addresses on the bus. -/
def addrOf (a : AccessView) : BitVec 32 := addrWord a.isRead (a.bar.setWidth 3) a.addr

/-- What it puts on the bus in the data phase. -/
def dataOf (a : AccessView) : BitVec 32 := if a.isRead then 0 else (a.data.getD 0).setWidth 32

/-- What follows the addressing phases. -/
def Transaction.execution (t : Transaction) : List Event :=
  [.data (dataOf t.access) t.sampled] ++
    (if t.access.isRead then [.rep (t.sampled.setWidth 64)] else []) ++ [.ack]

/-- All that is shown of it. -/
def Transaction.events (t : Transaction) : List Event :=
  .pop t.access :: List.replicate t.tries (.addr (addrOf t.access)) ++ t.execution

/-- How far the request is. -/
inductive Phase where
  | free
  | waits (a : AccessView) (tries : ℕ)
  | executed (t : Transaction)
  | replied (t : Transaction)
deriving DecidableEq, Repr

/-- What has been shown of it. -/
def Phase.events : Phase → List Event
  | .free => []
  | .waits a tries => .pop a :: List.replicate tries (.addr (addrOf a))
  | .executed t => .pop t.access :: List.replicate t.tries (.addr (addrOf t.access)) ++
      [.data (dataOf t.access) t.sampled]
  | .replied t => .pop t.access :: List.replicate t.tries (.addr (addrOf t.access)) ++
      [.data (dataOf t.access) t.sampled, .rep (t.sampled.setWidth 64)]

/-! ### The master between edges -/

/-- What the latch of the next state can hold. -/
def MayFollow (reqEn isRead : Bool) : MasterState → MasterState → Prop
  | .idle, next => next = .idle ∨ next = .brq ∧ reqEn = true
  | .brq, next => next = .as ∨ next = .idle
  | .as, next => next = .as ∨ next = .data ∨ next = .done
  | .data, next => next = if isRead then .reply else .ack
  | .reply, next => next = .ack
  | .ack, next => next = .done
  | .done, next => next = .idle

/-- The states in which the logic may make no assignment. -/
def MasterState.keeps (state : MasterState) : Prop := state = .idle ∨ state = .as

theorem nextStateLogic_follows {i : NextIn} {minusOne : BitVec 16} {next : MasterState}
    (hburst : i.state = .data → i.burst = minusOne)
    (hkeep : i.state.keeps → MayFollow i.reqEn i.isRead i.state next) :
    MayFollow i.reqEn i.isRead i.state (nextStateLogic i minusOne next) := by
  unfold nextStateLogic
  cases hstate : i.state with
  | idle =>
    rw [hstate] at hkeep
    dsimp only
    split
    case isTrue hgo =>
      rw [Bool.and_eq_true] at hgo
      exact Or.inr ⟨rfl, hgo.1⟩
    case isFalse => exact hkeep (Or.inl rfl)
  | brq =>
    dsimp only
    split
    · exact Or.inl rfl
    · exact Or.inr rfl
  | as =>
    rw [hstate] at hkeep
    dsimp only
    split
    · exact Or.inr (Or.inr rfl)
    · split
      · exact Or.inr (Or.inr rfl)
      · split
        · exact Or.inr (Or.inl rfl)
        · exact hkeep (Or.inr rfl)
  | data => exact if_pos (hburst hstate)
  | reply => rfl
  | ack => rfl
  | done => rfl

/-- A process that was executed has followed; one that was not, had. -/
theorem onEvent_follows (old cur : NextIn) {minusOne : BitVec 16} {next : MasterState}
    (hburst : cur.state = .data → cur.burst = minusOne)
    (hkeep : cur.state.keeps ∨ old = cur → MayFollow cur.reqEn cur.isRead cur.state next) :
    MayFollow cur.reqEn cur.isRead cur.state
      (onEvent old cur (nextStateLogic cur minusOne next) next) := by
  by_cases hold : old = cur
  · rw [hold, onEvent_self]
    exact hkeep (Or.inr hold)
  · rw [onEvent, if_pos hold]
    exact nextStateLogic_follows hburst fun hs => hkeep (Or.inl hs)

theorem follow_follows (m : Master) (old : NextIn) {reqEn : Bool} (bus bus' : Bus)
    (hburst : m.state = .data → m.burst = m.cap.w32CountMinusOne)
    (hkeep : m.state.keeps ∨ old.state = m.state →
      MayFollow reqEn m.cap.isRead m.state m.nextState) :
    MayFollow reqEn m.cap.isRead m.state (m.follow old reqEn bus bus').nextState := by
  let first := nextIn m reqEn bus' bus.busy
  let second := nextIn m reqEn bus' bus'.busy
  have hfirst : MayFollow first.reqEn first.isRead first.state _ :=
    onEvent_follows old first hburst fun h =>
      hkeep (h.imp id fun heq => congrArg NextIn.state heq)
  exact onEvent_follows first second hburst fun _ => hfirst

@[simp] theorem follow_state (m : Master) (old : NextIn) (reqEn : Bool) (bus bus' : Bus) :
    (m.follow old reqEn bus bus').state = m.state := rfl

/-- Changes of the bus leave everything but the next state. -/
theorem busChanges_eq (m : Master) (req : Req) (bus : Bus) (changes : List Bus) :
    ∃ next, m.busChanges req bus changes = { m with nextState := next } := by
  induction changes generalizing m bus with
  | nil => exact ⟨m.nextState, rfl⟩
  | cons bus' changes ih => exact ih (m.busChange req bus bus') bus'

theorem busChanges_follows (m : Master) (req : Req) (bus : Bus) (changes : List Bus)
    (hburst : m.state = .data → m.burst = m.cap.w32CountMinusOne)
    (h : MayFollow req.en m.cap.isRead m.state m.nextState) :
    MayFollow req.en m.cap.isRead m.state (m.busChanges req bus changes).nextState := by
  induction changes generalizing m bus with
  | nil => exact h
  | cons bus' changes ih =>
    have hstep := follow_follows m (nextIn m req.en bus bus.busy) bus bus' hburst fun _ => h
    exact ih (m.busChange req bus bus') bus' hburst hstep

/-! ### The outputs -/

section Outputs

variable (state : MasterState) (cap : Captured) (burst : BitVec 16) (word : BitVec 32)

/-- The strobes tell the state. -/
theorem outputLogic_strobes : (outputLogic state cap burst word).as = decide (state = .as) ∧
    (outputLogic state cap burst word).burstClr = decide (state = .as) ∧
    (outputLogic state cap burst word).repEn = decide (state = .reply) ∧
    (outputLogic state cap burst word).reqAck = decide (state = .ack) ∧
    (outputLogic state cap burst word).repDataEn = (decide (state = .data) && cap.isRead) := by
  cases state with
  | data =>
    cases hread : cap.isRead with
    | true =>
      simp only [outputLogic, hread, if_true]
      split_ifs <;> exact ⟨rfl, rfl, rfl, rfl, rfl⟩
    | false =>
      simp only [outputLogic, hread, Bool.false_eq_true, if_false]
      split_ifs <;> exact ⟨rfl, rfl, rfl, rfl, rfl⟩
  | _ => exact ⟨rfl, rfl, rfl, rfl, rfl⟩

theorem outputLogic_dat_data : (outputLogic .data cap burst word).dat
    = if cap.isRead then 0 else word := by
  simp only [outputLogic]
  split_ifs <;> rfl

/-- A single word is the last one: the counter is not enabled. -/
theorem outputLogic_burstEn (hone : cap.w32CountMinusOne = 0) (htwo : cap.w32CountMinusTwo ≠ 0) :
    (outputLogic state cap 0 word).burstEn = false := by
  cases state with
  | data =>
    simp only [outputLogic, if_neg (Ne.symm htwo), if_pos hone.symm]
    split <;> rfl
  | _ => rfl

end Outputs

/-! ### What holds between edges -/

/-- The capture of the request of an access. -/
def Captured.ofAccess (a : AccessView) : Captured :=
  ⟨a.isRead, a.bar.setWidth 3, a.addr, 1, 0, 0xffff⟩

theorem clock_ofAccess (c : Captured) (a : AccessView) (data : BitVec 64) :
    c.clock (Req.ofAccess a data) = Captured.ofAccess a := by
  simp [Captured.clock, Req.ofAccess, Captured.ofAccess]

/-- The states in which the bus is asked for, or the request is being answered. -/
def MasterState.isBusy (state : MasterState) : Prop := state ≠ .idle ∧ state ≠ .done

/-- **Invariant.** -/
structure System.Consistent (s : System) : Prop where
  req : s.req = if s.ep.waitAck then Req.ofAccess s.ep.access s.req.data else Req.none s.req.data
  follows : MayFollow s.req.en s.m.cap.isRead s.m.state s.m.nextState
  busy : s.m.state.isBusy → s.ep.waitAck = true ∧ s.m.cap = Captured.ofAccess s.ep.access
  burst : s.m.burst = 0
  out : s.m.out = outputLogic s.m.state s.m.cap 0 (s.req.data.setWidth 32)

theorem reset_consistent (bus : Bus) : (System.reset bus).Consistent := by
  refine ⟨rfl, Or.inl rfl, ?_, rfl, rfl⟩
  intro h
  exact absurd rfl h.1

section Between

variable {s : System} (h : s.Consistent)
include h

theorem System.Consistent.reqEn : s.req.en = s.ep.waitAck := by
  have hreq := congrArg Req.en h.req
  cases hwait : s.ep.waitAck with
  | true =>
    rw [hwait] at hreq
    exact hreq
  | false =>
    rw [hwait] at hreq
    exact hreq

theorem System.Consistent.reqAck : s.m.out.reqAck = decide (s.m.state = .ack) := by
  rw [h.out]
  exact (outputLogic_strobes ..).2.2.2.1

/-- A next state that asks for the bus, or goes on, is that of a request on the ports. -/
theorem System.Consistent.waits (hnext : s.m.nextState.isBusy) : s.ep.waitAck = true := by
  have hfollows := h.follows
  cases hstate : s.m.state with
  | idle =>
    rw [hstate] at hfollows
    rcases hfollows with hidle | ⟨-, hen⟩
    · exact absurd hidle hnext.1
    · rw [← h.reqEn, hen]
  | done =>
    rw [hstate] at hfollows
    exact absurd hfollows hnext.1
  | _ => exact (h.busy (by rw [hstate]; exact ⟨nofun, nofun⟩)).1

/-- Nor is it the state of an acknowledge. -/
theorem System.Consistent.noAck (hnext : s.m.nextState.isBusy) : s.m.out.reqAck = false := by
  rw [h.reqAck, decide_eq_false_iff_not]
  intro hack
  have hfollows := h.follows
  rw [hack] at hfollows
  exact hnext.2 hfollows

/-- The counter stays at zero. -/
theorem System.Consistent.burstClock :
    Ebone.burstClock s.m.burst s.m.out.burstClr s.m.out.burstEn = 0 := by
  have hen : s.m.out.burstEn = false := by
    rw [h.out]
    by_cases hbusy : s.m.state.isBusy
    · have htwo : (Captured.ofAccess s.ep.access).w32CountMinusTwo ≠ 0 :=
        show 0xffff#16 ≠ 0 by decide
      rw [(h.busy hbusy).2]
      exact outputLogic_burstEn _ _ _ rfl htwo
    · cases hstate : s.m.state with
      | idle => rfl
      | done => rfl
      | _ => exact absurd (by rw [hstate]; exact ⟨nofun, nofun⟩) hbusy
  rw [h.burst, hen]
  cases s.m.out.burstClr with
  | true => rfl
  | false => rfl

/-- A busy state is entered, or kept, with the request held. -/
theorem System.Consistent.held (hnext : s.m.nextState.isBusy) (c : Cycle) :
    s.accepted c = none ∧ (s.clock c).ep = s.ep ∧ (s.clock c).req = s.req ∧
      s.m.cap.clock s.req = Captured.ofAccess s.ep.access := by
  have hwait := h.waits hnext
  have hack := h.noAck hnext
  have hreq := h.req
  rw [if_pos hwait] at hreq
  have hclock : s.endpoint c.arrivals = (s.ep, s.req, s.fifo ++ c.arrivals) := by
    rw [System.endpoint, hack, Endpoint.clock_wait hwait, ← hreq]
  refine ⟨?_, congrArg Prod.fst hclock, congrArg (fun r => r.2.1) hclock, ?_⟩
  · rw [System.accepted, Endpoint.accepted, hwait, hack]
    rfl
  · rw [hreq]
    exact clock_ofAccess ..

end Between

/-! ### One cycle -/

theorem ofAccess_data (a : AccessView) (data : BitVec 64) :
    Req.ofAccess a (Req.ofAccess a data).data = Req.ofAccess a data := by
  simp only [Req.ofAccess]
  split <;> rfl

theorem MayFollow.refl {reqEn isRead : Bool} {state : MasterState} (h : state.keeps) :
    MayFollow reqEn isRead state state := by
  rcases h with rfl | rfl
  · exact Or.inl rfl
  · exact Or.inl rfl

/-- A state that follows itself is one of those the logic may keep. -/
theorem MayFollow.keeps {reqEn isRead : Bool} {state : MasterState}
    (h : MayFollow reqEn isRead state state) : state.keeps := by
  cases state with
  | idle => exact Or.inl rfl
  | as => exact Or.inr rfl
  | brq => rcases h with h | h <;> cases h
  | data =>
    rw [MayFollow] at h
    split at h <;> cases h
  | reply => cases h
  | ack => cases h
  | done => cases h

/-- The registers after a cycle. -/
theorem clock_m (s : System) (c : Cycle) : ∃ next, (s.clock c).m
    = { s.m.latch s.req s.bus with out := s.m.outputs s.req s.bus, nextState := next } := by
  obtain ⟨next, hnext⟩ := busChanges_eq (s.m.edge s.req (s.clock c).req s.bus c.bus)
    (s.clock c).req c.bus c.changes
  exact ⟨next, hnext⟩

theorem System.clock_state (s : System) (c : Cycle) : (s.clock c).m.state = s.m.nextState := by
  obtain ⟨next, hm⟩ := clock_m s c
  rw [hm]
  rfl

theorem System.clock_req (s : System) (c : Cycle) : (s.clock c).req =
    if (s.clock c).ep.waitAck then Req.ofAccess (s.clock c).ep.access (s.clock c).req.data
    else Req.none (s.clock c).req.data := by
  have hep : (s.clock c).ep = (s.endpoint c.arrivals).1 := rfl
  have hreq : (s.clock c).req = (s.endpoint c.arrivals).2.1 := rfl
  rw [hep, hreq, System.endpoint]
  rcases s.ep.clock_cases s.m.out.reqAck s.req.data (s.fifo ++ c.arrivals) with
    ⟨hwait, -, -, hclock⟩ | ⟨-, a, rest, -, -, -, hclock⟩ | ⟨-, -, access, rest, -, -, hclock⟩
  · rw [hclock, if_pos hwait, ofAccess_data]
  · rw [hclock, if_pos rfl, ofAccess_data]
  · rw [hclock]
    rfl

section Step

variable {s : System} (h : s.Consistent) (c : Cycle)
include h

theorem System.Consistent.clock_cap (hnext : s.m.nextState.isBusy) :
    (s.clock c).m.cap = Captured.ofAccess s.ep.access := by
  obtain ⟨next, hm⟩ := clock_m s c
  rw [hm]
  exact (h.held hnext c).2.2.2

theorem System.Consistent.clock_burst : (s.clock c).m.burst = 0 := by
  obtain ⟨next, hm⟩ := clock_m s c
  rw [hm]
  exact h.burstClock

theorem System.Consistent.clock_follows : MayFollow (s.clock c).req.en (s.clock c).m.cap.isRead
    (s.clock c).m.state (s.clock c).m.nextState := by
  have hburst : s.m.nextState = .data →
      Ebone.burstClock s.m.burst s.m.out.burstClr s.m.out.burstEn
        = (s.m.cap.clock s.req).w32CountMinusOne := by
    intro hdata
    rw [h.burstClock, (h.held (by rw [hdata]; exact ⟨nofun, nofun⟩) c).2.2.2]
    rfl
  obtain ⟨next, hm⟩ := busChanges_eq (s.m.edge s.req (s.clock c).req s.bus c.bus)
    (s.clock c).req c.bus c.changes
  let latched : Master := { s.m.latch s.req s.bus with out := s.m.outputs s.req s.bus }
  have hfollows := busChanges_follows (s.m.edge s.req (s.clock c).req s.bus c.bus)
    (s.clock c).req c.bus c.changes hburst
    (follow_follows latched (nextIn s.m s.req.en s.bus s.bus.busy) s.bus c.bus hburst
      fun hkeep => MayFollow.refl ?_)
  · have hclock : (s.clock c).m = (s.m.edge s.req (s.clock c).req s.bus c.bus).busChanges
        (s.clock c).req c.bus c.changes := rfl
    rw [hclock, hm]
    rw [hm] at hfollows
    exact hfollows
  · rcases hkeep with hkeep | hsame
    · exact hkeep
    · have hself := h.follows
      rw [show s.m.state = s.m.nextState from hsame] at hself
      exact hself.keeps

theorem System.Consistent.clock_out : (s.clock c).m.out = outputLogic (s.clock c).m.state
    (s.clock c).m.cap 0 ((s.clock c).req.data.setWidth 32) := by
  obtain ⟨next, hm⟩ := clock_m s c
  have hout : (s.clock c).m.out = onEvent s.m.state s.m.nextState (outputLogic s.m.nextState
      (s.m.cap.clock s.req) (Ebone.burstClock s.m.burst s.m.out.burstClr s.m.out.burstEn)
      (s.req.data.setWidth 32)) s.m.out := by
    rw [hm]
    rfl
  rw [hout, s.clock_state, h.burstClock]
  by_cases hbusy : s.m.nextState.isBusy
  · rw [h.clock_cap c hbusy, (h.held hbusy c).2.2.1, (h.held hbusy c).2.2.2]
    by_cases hsame : s.m.state = s.m.nextState
    · rw [← hsame, onEvent_self, h.out]
      rw [← hsame] at hbusy
      rw [(h.busy hbusy).2]
    · exact if_pos hsame
  · have hdefault : ∀ cap word, outputLogic s.m.nextState cap 0 word = MasterOut.default := by
      intro cap word
      cases hstate : s.m.nextState with
      | idle => rfl
      | done => rfl
      | _ => exact absurd (by rw [hstate]; exact ⟨nofun, nofun⟩) hbusy
    rw [hdefault, hdefault]
    by_cases hsame : s.m.state = s.m.nextState
    · rw [hsame, onEvent_self, h.out, hsame]
      exact hdefault ..
    · exact if_pos hsame

/-- **Step lemma.** -/
theorem System.Consistent.clock : (s.clock c).Consistent := by
  refine ⟨s.clock_req c, h.clock_follows c, ?_, h.clock_burst c, h.clock_out c⟩
  intro hbusy
  rw [s.clock_state c] at hbusy
  obtain ⟨-, hep, -, -⟩ := h.held hbusy c
  rw [hep]
  exact ⟨h.waits hbusy, h.clock_cap c hbusy⟩

end Step

/-! ### One transaction after another -/

/-- What a state shows of the request it is in. -/
def stateEvents (state : MasterState) (a : AccessView) (dat : BitVec 32) (repData : BitVec 64) :
    List Event :=
  match state with
  | .as => [.addr (addrOf a)]
  | .data => [.data (dataOf a) dat]
  | .reply => [.rep repData]
  | .ack => [.ack]
  | _ => []

theorem System.Consistent.masterEvents {s : System} (h : s.Consistent) :
    s.masterEvents = stateEvents s.m.state s.ep.access s.bus.dat s.m.repData := by
  obtain ⟨has, -, hrep, hack, -⟩ :=
    outputLogic_strobes s.m.state s.m.cap 0 (s.req.data.setWidth 32)
  rw [← h.out] at has hrep hack
  rw [System.masterEvents, has, hrep, hack]
  have hreq := h.req
  cases hstate : s.m.state with
  | as =>
    obtain ⟨-, hcap⟩ := h.busy (by rw [hstate]; exact ⟨nofun, nofun⟩)
    have hdat : s.m.out.dat = addrOf s.ep.access := by
      rw [h.out, hstate, hcap]
      rfl
    rw [hdat]
    rfl
  | data =>
    obtain ⟨hwait, hcap⟩ := h.busy (by rw [hstate]; exact ⟨nofun, nofun⟩)
    have hdat : s.m.out.dat = dataOf s.ep.access := by
      rw [if_pos hwait] at hreq
      rw [h.out, hstate, hcap, outputLogic_dat_data, hreq]
      show (if s.ep.access.isRead then 0 else
        (if s.ep.access.isRead then s.req.data else s.ep.access.data.getD 0).setWidth 32) = _
      cases hread : s.ep.access.isRead with
      | true => simp [dataOf, hread]
      | false => simp [dataOf, hread]
    rw [hdat]
    rfl
  | _ => rfl

/-- How far the request is, in a state of the system. -/
def Phase.Fits (s : System) : Phase → Prop
  | .free => s.ep.waitAck = false
  | .waits a _ => s.ep.waitAck = true ∧ s.ep.access = a ∧ s.m.state ≠ .reply ∧ s.m.state ≠ .ack
  | .executed t => s.ep.waitAck = true ∧ s.ep.access = t.access ∧
      if t.access.isRead then s.m.state = .reply ∧ s.m.repData = t.sampled.setWidth 64
      else s.m.state = .ack
  | .replied t => s.ep.waitAck = true ∧ s.ep.access = t.access ∧ t.access.isRead = true ∧
      s.m.state = .ack

/-- What has been shown of a request is part of a transaction. -/
theorem Phase.Fits.part {s : System} {p : Phase} (h : p.Fits s) :
    ∃ t : Transaction, p.events <+: t.events := by
  cases p with
  | free => exact ⟨⟨⟨false, 0, 0, 0, none⟩, 0, 0⟩, List.nil_prefix⟩
  | waits a tries => exact ⟨⟨a, tries, 0⟩, List.prefix_append _ _⟩
  | executed t =>
    refine ⟨t, (List.prefix_append_right_inj _).mpr ?_⟩
    rw [Transaction.execution, List.append_assoc]
    exact List.prefix_append _ _
  | replied t =>
    obtain ⟨-, -, hread, -⟩ := h
    refine ⟨t, (List.prefix_append_right_inj _).mpr ?_⟩
    rw [Transaction.execution, if_pos hread]
    exact List.prefix_append _ _

/-- What has been shown is one transaction after another, and the part of one that fits. -/
def Transactions (log : List Event) (s : System) : Prop :=
  ∃ (ts : List Transaction) (p : Phase), log = ts.flatMap Transaction.events ++ p.events ∧ p.Fits s

/-- The request is held on an edge without an acknowledge. -/
theorem System.hold {s : System} (hwait : s.ep.waitAck = true)
    (hack : s.m.out.reqAck = false) (c : Cycle) :
    s.accepted c = none ∧ (s.clock c).ep = s.ep := by
  refine ⟨?_, ?_⟩
  · rw [System.accepted, Endpoint.accepted, hwait, hack]
    rfl
  · show (s.ep.clock s.m.out.reqAck s.req.data (s.fifo ++ c.arrivals)).1 = s.ep
    rw [hack, Endpoint.clock_wait hwait]

/-- **When the endpoint is free** a new request begins, or none. -/
theorem Transactions.begin {s : System} {c : Cycle} {ts : List Transaction}
    (hfree : s.ep.waitAck = true → s.m.out.reqAck = true)
    (hstate : (s.clock c).m.state ≠ .reply ∧ (s.clock c).m.state ≠ .ack) :
    Transactions (ts.flatMap Transaction.events ++ (s.accepted c).toList.map .pop)
      (s.clock c) := by
  have hep : (s.clock c).ep = (s.endpoint c.arrivals).1 := rfl
  rcases s.ep.clock_cases s.m.out.reqAck s.req.data (s.fifo ++ c.arrivals) with
    ⟨hwait, hack, -, -⟩ | ⟨-, a, rest, -, haccepted, -, hclock⟩ |
      ⟨-, haccepted, access, rest, -, -, hclock⟩
  · rw [hfree hwait] at hack
    cases hack
  · refine ⟨ts, .waits a 0, ?_, ?_⟩
    · rw [System.accepted, haccepted]
      rfl
    · rw [Phase.Fits, hep, System.endpoint, hclock]
      exact ⟨rfl, rfl, hstate⟩
  · refine ⟨ts, .free, ?_, ?_⟩
    · rw [System.accepted, haccepted]
      rfl
    · rw [Phase.Fits, hep, System.endpoint, hclock]

/-- A request is answered only after the data phase. -/
theorem MayFollow.not_answer {reqEn isRead : Bool} {state next : MasterState}
    (h : MayFollow reqEn isRead state next) (hstate : state ≠ .data ∧ state ≠ .reply) :
    next ≠ .reply ∧ next ≠ .ack := by
  cases state with
  | idle => rcases h with rfl | ⟨rfl, -⟩ <;> exact ⟨nofun, nofun⟩
  | brq => rcases h with rfl | rfl <;> exact ⟨nofun, nofun⟩
  | as => rcases h with rfl | rfl | rfl <;> exact ⟨nofun, nofun⟩
  | data => exact absurd rfl hstate.1
  | reply => exact absurd rfl hstate.2
  | ack =>
    rw [MayFollow] at h
    rw [h]
    exact ⟨nofun, nofun⟩
  | done =>
    rw [MayFollow] at h
    rw [h]
    exact ⟨nofun, nofun⟩

/-- The word of the data phase of a read is latched. -/
theorem System.Consistent.clock_repData {s : System} (h : s.Consistent)
    (hdata : s.m.state = .data) (hread : s.ep.access.isRead = true) (c : Cycle) :
    (s.clock c).m.repData = s.bus.dat.setWidth 64 := by
  obtain ⟨-, hcap⟩ := h.busy (by rw [hdata]; exact ⟨nofun, nofun⟩)
  have hen : s.m.out.repDataEn = true := by
    rw [h.out, (outputLogic_strobes ..).2.2.2.2, hdata, hcap]
    exact hread
  obtain ⟨next, hm⟩ := clock_m s c
  rw [hm]
  exact if_pos hen

/-- An acknowledge ends the transaction. -/
theorem Transactions.finish {s : System} (h : s.Consistent) {ts : List Transaction}
    (t : Transaction) (hack : s.m.state = .ack) (c : Cycle) {shown : List Event}
    (hshown : shown ++ [.ack] = t.events) :
    Transactions (ts.flatMap Transaction.events ++ shown ++ s.events c) (s.clock c) := by
  have hevents : s.masterEvents = [.ack] := by rw [h.masterEvents, hack]; rfl
  have hlog : ts.flatMap Transaction.events ++ shown ++ s.events c
      = (ts ++ [t]).flatMap Transaction.events ++ (s.accepted c).toList.map .pop := by
    rw [System.events, hevents, List.flatMap_append, List.flatMap_singleton, ← hshown]
    simp only [List.append_assoc]
  have hfollows := h.follows
  rw [hack] at hfollows
  rw [hlog]
  refine Transactions.begin (fun _ => ?_) ?_
  · rw [h.reqAck, hack]
    rfl
  · rw [s.clock_state, hfollows]
    exact ⟨nofun, nofun⟩

/-- Without an acknowledge a request that waits is held. -/
theorem System.Consistent.events_of_noAck {s : System} (h : s.Consistent)
    (hwait : s.ep.waitAck = true) (hstate : s.m.state ≠ .ack) (c : Cycle) :
    s.events c = s.masterEvents ∧ (s.clock c).ep = s.ep := by
  have hack : s.m.out.reqAck = false := by
    rw [h.reqAck]
    exact decide_eq_false hstate
  obtain ⟨hnone, hep⟩ := System.hold hwait hack c
  refine ⟨?_, hep⟩
  rw [System.events, hnone]
  exact List.append_nil _

/-- A new request begins, or none. -/
theorem Transactions.step_free {s : System} (h : s.Consistent) {ts : List Transaction}
    (hfits : Phase.free.Fits s) (c : Cycle) :
    Transactions (ts.flatMap Transaction.events ++ Phase.free.events ++ s.events c)
      (s.clock c) := by
  have hfree : ¬s.m.state.isBusy := by
    intro hbusy
    have hwait := (h.busy hbusy).1
    rw [hfits] at hwait
    cases hwait
  have hnone : s.masterEvents = [] := by
    rw [h.masterEvents]
    cases hstate : s.m.state with
    | idle => rfl
    | done => rfl
    | brq => rfl
    | _ => exact absurd (by rw [hstate]; exact ⟨nofun, nofun⟩) hfree
  rw [System.events, hnone, Phase.events, List.append_nil, List.nil_append]
  refine Transactions.begin (fun hwait => ?_) ?_
  · rw [hfits] at hwait
    cases hwait
  · rw [s.clock_state]
    refine h.follows.not_answer ⟨?_, ?_⟩
    · intro hstate
      exact hfree (by rw [hstate]; exact ⟨nofun, nofun⟩)
    · intro hstate
      exact hfree (by rw [hstate]; exact ⟨nofun, nofun⟩)

/-- The request that waits is shown on the bus, or is executed. -/
theorem Transactions.step_waits {s : System} (h : s.Consistent) {ts : List Transaction}
    {a : AccessView} {tries : ℕ} (hfits : (Phase.waits a tries).Fits s) (c : Cycle) :
    Transactions (ts.flatMap Transaction.events ++ (Phase.waits a tries).events ++ s.events c)
      (s.clock c) := by
  have hfollows := h.follows
  have hevents := h.masterEvents
  obtain ⟨hwait, rfl, hreply, hack⟩ := hfits
  obtain ⟨hsame, hep⟩ := h.events_of_noAck hwait hack c
  rw [hsame, hevents]
  have hstay : s.m.state ≠ .data →
      (s.clock c).m.state ≠ .reply ∧ (s.clock c).m.state ≠ .ack := by
    intro hdata
    rw [s.clock_state]
    exact hfollows.not_answer ⟨hdata, hreply⟩
  have hfits : s.m.state ≠ .data → ∀ k, (Phase.waits s.ep.access k).Fits (s.clock c) := by
    intro hdata k
    rw [Phase.Fits, hep]
    exact ⟨hwait, rfl, hstay hdata⟩
  cases hstate : s.m.state with
  | reply => exact absurd hstate hreply
  | ack => exact absurd hstate hack
  | as =>
    refine ⟨ts, .waits s.ep.access (tries + 1), ?_, hfits (by rw [hstate]; nofun) _⟩
    simp only [Phase.events, stateEvents, List.replicate_succ', List.append_assoc,
      List.cons_append]
  | data =>
    refine ⟨ts, .executed ⟨s.ep.access, tries, s.bus.dat⟩, ?_, ?_⟩
    · simp only [Phase.events, stateEvents, List.append_assoc, List.cons_append]
    · rw [Phase.Fits, hep, s.clock_state]
      refine ⟨hwait, rfl, ?_⟩
      obtain ⟨-, hcap⟩ := h.busy (by rw [hstate]; exact ⟨nofun, nofun⟩)
      rw [hstate, MayFollow, hcap] at hfollows
      show if s.ep.access.isRead = true then _ else _
      cases hread : s.ep.access.isRead with
      | true =>
        rw [show (Captured.ofAccess s.ep.access).isRead = true from hread] at hfollows
        exact ⟨hfollows, h.clock_repData hstate hread c⟩
      | false =>
        rw [show (Captured.ofAccess s.ep.access).isRead = false from hread] at hfollows
        exact hfollows
  | _ =>
    refine ⟨ts, .waits s.ep.access tries, ?_, hfits (by rw [hstate]; nofun) _⟩
    exact List.append_nil _

/-- The word of a read is latched, or the acknowledge of a write is seen. -/
theorem Transactions.step_executed {s : System} (h : s.Consistent) {ts : List Transaction}
    {t : Transaction} (hfits : (Phase.executed t).Fits s) (c : Cycle) :
    Transactions (ts.flatMap Transaction.events ++ (Phase.executed t).events ++ s.events c)
      (s.clock c) := by
  have hfollows := h.follows
  have hevents := h.masterEvents
  obtain ⟨hwait, haccess, hanswer⟩ := hfits
  cases hread : t.access.isRead with
  | true =>
    rw [if_pos hread] at hanswer
    obtain ⟨hstate, hrep⟩ := hanswer
    obtain ⟨hsame, hep⟩ := h.events_of_noAck hwait (by rw [hstate]; nofun) c
    refine ⟨ts, .replied t, ?_, ?_⟩
    · rw [hsame, hevents, hstate, hrep]
      simp only [Phase.events, stateEvents, List.append_assoc, List.cons_append, List.nil_append]
    · rw [Phase.Fits, hep, s.clock_state]
      rw [hstate] at hfollows
      exact ⟨hwait, haccess, hread, hfollows⟩
  | false =>
    rw [if_neg (by rw [hread]; decide)] at hanswer
    refine Transactions.finish h t hanswer c ?_
    simp only [Phase.events, Transaction.events, Transaction.execution, hread,
      Bool.false_eq_true, if_false, List.append_assoc, List.nil_append]

/-- **Step lemma.** -/
theorem Transactions.step {log : List Event} {s : System} (h : s.Consistent)
    (ht : Transactions log s) (c : Cycle) : Transactions (log ++ s.events c) (s.clock c) := by
  obtain ⟨ts, p, rfl, hfits⟩ := ht
  cases p with
  | free => exact Transactions.step_free h hfits c
  | waits a tries => exact Transactions.step_waits h hfits c
  | executed t => exact Transactions.step_executed h hfits c
  | replied t =>
    obtain ⟨hwait, haccess, hread, hack⟩ := hfits
    refine Transactions.finish h t hack c ?_
    simp only [Phase.events, Transaction.events, Transaction.execution, hread, if_true,
      List.append_assoc, List.cons_append, List.nil_append]

/-! ### Whole runs -/

/-- What is popped, in the order it is shown. -/
def popped (es : List Event) : List AccessView :=
  es.filterMap fun
    | .pop a => some a
    | _ => none

/-- What arrived in the first `n` cycles. -/
def arrived (cs : ℕ → Cycle) : ℕ → List AccessView
  | 0 => []
  | n + 1 => arrived cs n ++ (cs n).arrivals

section Run

variable (bus : Bus) (cs : ℕ → Cycle) (n : ℕ)

theorem after_consistent : (System.after bus cs n).Consistent :=
  drive_invariant System.Consistent (fun _ c h => h.clock c) (reset_consistent bus) cs n

theorem log_transactions : Transactions (log bus cs n) (System.after bus cs n) :=
  (drive_history (fun l s => s.Consistent ∧ Transactions l s)
    (fun _ _ c h => ⟨h.1.clock c, h.2.step h.1 c⟩)
    ⟨reset_consistent bus, [], .free, rfl, show (System.reset bus).ep.waitAck = false from rfl⟩
    cs n).2

theorem log_succ : log bus cs (n + 1)
    = log bus cs n ++ (System.after bus cs n).events (cs n) := rfl

theorem popped_events {s : System} (h : s.Consistent) (c : Cycle) :
    popped (s.events c) = (s.accepted c).toList := by
  have hnone : popped s.masterEvents = [] := by
    rw [h.masterEvents]
    cases s.m.state with
    | _ => rfl
  rw [popped, System.events, List.filterMap_append]
  rw [popped] at hnone
  rw [hnone]
  cases s.accepted c with
  | none => rfl
  | some a => rfl

/-- **No request is lost**: those popped and those that still wait are all that arrived. -/
theorem popped_arrived : popped (log bus cs n) ++ (System.after bus cs n).fifo.filter hasSize
    = (arrived cs n).filter hasSize := by
  induction n with
  | zero => rfl
  | succ n ih =>
    let s := System.after bus cs n
    have hfifo : (System.after bus cs (n + 1)).fifo = (s.endpoint (cs n).arrivals).2.2 := rfl
    have hedge : (s.accepted (cs n)).toList ++ (s.endpoint (cs n).arrivals).2.2.filter hasSize
        = (s.fifo ++ (cs n).arrivals).filter hasSize := by
      rw [System.accepted, System.endpoint]
      rcases s.ep.clock_cases s.m.out.reqAck s.req.data (s.fifo ++ (cs n).arrivals) with
        ⟨-, -, haccepted, hclock⟩ | ⟨-, a, rest, hsize, haccepted, hcons, hclock⟩ |
          ⟨-, haccepted, access, rest, hrest, -, hclock⟩
      · rw [haccepted, hclock]
        rfl
      · rw [haccepted, hclock, hcons, List.filter_cons_of_pos hsize]
        rfl
      · rw [haccepted, hclock, ← hrest]
        rfl
    have hpopped : popped (log bus cs (n + 1))
        = popped (log bus cs n) ++ (s.accepted (cs n)).toList := by
      rw [← popped_events (after_consistent bus cs n)]
      exact List.filterMap_append
    rw [hfifo, hpopped, arrived, List.filter_append, ← ih, List.append_assoc, hedge,
      List.filter_append, List.append_assoc]

/-- **A request is acknowledged once its data phase is over**, a read after its reply. -/
theorem executed_after_data (hdata : (System.after bus cs n).m.state = .data) :
    log bus cs n ++ Transaction.execution
      ⟨(System.after bus cs n).ep.access, 0, (System.after bus cs n).bus.dat⟩
        <+: log bus cs (n + 3) := by
  have h := after_consistent bus cs n
  have h1 := after_consistent bus cs (n + 1)
  have h2 := after_consistent bus cs (n + 2)
  obtain ⟨hwait, hcap⟩ := h.busy (by rw [hdata]; exact ⟨nofun, nofun⟩)
  obtain ⟨hsame, hep⟩ := h.events_of_noAck hwait (by rw [hdata]; nofun) (cs n)
  have hnext : (System.after bus cs (n + 1)).m.state = (System.after bus cs n).m.nextState :=
    System.clock_state ..
  have hfollows := h.follows
  rw [hdata, MayFollow, hcap] at hfollows
  have hanswer : (System.after bus cs (n + 1)).m.state
      = if (System.after bus cs n).ep.access.isRead then .reply else .ack := hnext.trans hfollows
  rw [log_succ, log_succ, log_succ, hsame, h.masterEvents, hdata]
  cases hread : (System.after bus cs n).ep.access.isRead with
  | false =>
    rw [if_neg (by rw [hread]; decide)] at hanswer
    have hack : (System.after bus cs (n + 1)).masterEvents = [.ack] := by
      rw [h1.masterEvents, hanswer]
      rfl
    rw [System.events, hack, Transaction.execution, if_neg (by rw [hread]; decide)]
    simp only [stateEvents, List.append_assoc, List.nil_append]
    exact (List.prefix_append_right_inj _).mpr
      ((List.prefix_append_right_inj _).mpr (List.prefix_append _ _))
  | true =>
    rw [if_pos hread] at hanswer
    have hwait1 : (System.after bus cs (n + 1)).ep.waitAck = true :=
      (congrArg Endpoint.waitAck hep).trans hwait
    obtain ⟨hsame1, -⟩ := h1.events_of_noAck hwait1 (by rw [hanswer]; nofun) (cs (n + 1))
    have hnext2 : (System.after bus cs (n + 2)).m.state
        = (System.after bus cs (n + 1)).m.nextState := System.clock_state ..
    have hfollows1 := h1.follows
    rw [hanswer, MayFollow] at hfollows1
    rw [hfollows1] at hnext2
    have hrep : (System.after bus cs (n + 1)).m.repData = _ := h.clock_repData hdata hread (cs n)
    have hack : (System.after bus cs (n + 2)).masterEvents = [.ack] := by
      rw [h2.masterEvents, hnext2]
      rfl
    rw [hsame1, h1.masterEvents, hanswer, hrep, System.events, hack, Transaction.execution,
      if_pos hread]
    simp only [stateEvents, List.append_assoc]
    exact (List.prefix_append_right_inj _).mpr ((List.prefix_append_right_inj _).mpr
      ((List.prefix_append_right_inj _).mpr (List.prefix_append _ _)))

/-- **The E-bone master executes each request once.**  What is shown is one transaction after
another, the last one perhaps not complete: a request is popped, it addresses the bus in some
cycles, it has one data phase, a read one reply with the word of that phase, and one acknowledge
ends it.  The data phase is followed by the acknowledge, and no request is lost. -/
theorem requests_executed_once :
    (∃ (ts : List Transaction) (t : Transaction) (rest : List Event),
      log bus cs n = ts.flatMap Transaction.events ++ rest ∧ rest <+: t.events) ∧
    ((System.after bus cs n).m.state = .data → log bus cs n ++ Transaction.execution
      ⟨(System.after bus cs n).ep.access, 0, (System.after bus cs n).bus.dat⟩
        <+: log bus cs (n + 3)) ∧
    popped (log bus cs n) ++ (System.after bus cs n).fifo.filter hasSize
      = (arrived cs n).filter hasSize := by
  refine ⟨?_, executed_after_data bus cs n, popped_arrived bus cs n⟩
  obtain ⟨ts, p, hlog, hfits⟩ := log_transactions bus cs n
  obtain ⟨t, ht⟩ := hfits.part
  exact ⟨ts, t, p.events, hlog, ht⟩

end Run

end VPcie.Ebone
