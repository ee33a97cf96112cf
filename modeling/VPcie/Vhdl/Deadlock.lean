import VPcie.Vhdl.Endpoint

/-!
# When the endpoint and the DMA device wedge

The device acknowledges a request in `write_done` only, whichever register it is for.  An access
that is accepted while the engine is idle, and that does not start it, is never acknowledged, and no
further access is popped.

* `alive_clock`, `alive_ne` — an engine that is to reach `write_done` stays so while the endpoint
  waits, and is no fixed point;
* `wedged_deadlock` — one that is not, with a request that does not change that, is a fixed point
  two edges later;
* `deadlock_free_iff` — so there is no deadlock exactly where each access that is accepted finds the
  engine about to run or starts it.
-/

namespace VPcie.Vhdl

open VPcie.Lib VPcie.Glue

/-- The endpoint waits, and without further accesses nothing changes. -/
def System.Deadlock (s : System) : Prop := s.ep.waitAck = true ∧ s.clock [] = s

instance (s : System) : Decidable s.Deadlock := inferInstanceAs (Decidable (_ ∧ _))

/-- The next edge does not leave the engine idle for good: it runs then, or the bit S is in the
register or in the request. -/
def System.WillRun (s : System) : Prop :=
  s.dma.nextState ≠ .idle ∨ s.dma.ctl.data.getLsbD 31 = true ∨ s.req.setsS = true

/-- The access accepted on an edge, if any, starts the engine or finds it about to run. -/
def System.AcceptsRunning (s : System) (arrivals : List AccessView) : Prop :=
  ∀ a, s.accepted arrivals = some a → startsTransfer a = true ∨ s.WillRun

/-! ### An engine that is to reach `write_done` -/

/-- The engine runs or will. -/
def System.Alive (s : System) : Prop := s.dma.state ≠ .idle ∨ s.WillRun

section Alive

variable {s : System} {arrivals : List AccessView}

theorem alive_of_willRun (h : s.Consistent) (hrun : s.WillRun) (arrivals : List AccessView) :
    (s.clock arrivals).Alive := by
  by_cases hnext : s.dma.nextState = .idle
  · right
    rcases hrun with hne | hctl | hS
    · exact absurd hnext hne
    · -- the bit S is latched, and seen in the idle state
      left
      rw [(System.clock_consistent h arrivals).next_idle hnext, System.clock_regData, if_pos hctl]
      decide
    · right
      left
      refine System.clock_ctl h arrivals ?_ hS
      intro hstate
      rw [h.dma.next, hstate] at hnext
      cases hnext
  · left
    exact hnext

/-- While the endpoint waits. -/
theorem alive_clock (h : s.Consistent) (hhold : s.Holds arrivals) (halive : s.Alive) :
    (s.clock arrivals).Alive := by
  rcases halive with hstate | hrun
  · by_cases hnext : s.dma.nextState = .idle
    · -- only `write_done` ends a run, and that acknowledges the request
      have hack := h.ack_iff.mpr (h.done_of_next hstate hnext)
      rw [hhold.noAck] at hack
      cases hack
    · exact alive_of_willRun h (Or.inl hnext) arrivals
  · exact alive_of_willRun h hrun arrivals

/-- **Progress.**  The next edge changes something. -/
theorem alive_ne (h : s.Consistent) (halive : s.Alive) : s.clock arrivals ≠ s := by
  intro hfix
  have hstate : s.dma.state = s.dma.nextState :=
    (congrArg (fun t => t.dma.state) hfix).symm.trans (s.clock_state arrivals)
  have hreg : s.dma.ctl.regData = s.dma.ctl.data :=
    (congrArg (fun t => t.dma.ctl.regData) hfix).symm.trans (s.clock_regData arrivals)
  have hidle := h.dma.stays hstate
  have hnext : s.dma.nextState = .idle := hstate.symm.trans hidle
  have hclear : s.dma.ctl.data.getLsbD 31 = false := by
    rw [h.next_idle hidle, hreg] at hnext
    by_contra hset
    rw [if_pos (Bool.not_eq_false _ ▸ hset)] at hnext
    cases hnext
  rcases halive with hne | hne | hset | hS
  · exact hne hidle
  · exact hne hnext
  · rw [hclear] at hset
    cases hset
  · have hset := System.clock_ctl h arrivals (by rw [hidle]; decide) hS
    rw [hfix, hclear] at hset
    cases hset

/-- The endpoint waits for an engine that is to reach `write_done`. -/
def System.WaitsAlive (s : System) : Prop := s.ep.waitAck = true → s.Alive

/-- **Step lemma.** -/
theorem waitsAlive_clock (h : s.Consistent) (hwaits : s.WaitsAlive)
    (haccepts : s.AcceptsRunning arrivals) : (s.clock arrivals).WaitsAlive := by
  intro hwait
  rcases s.clock_cases arrivals with hhold | ⟨a, haccept⟩ | hrest
  · exact alive_clock h hhold (hwaits hhold.wait)
  · rcases haccepts a haccept.accepted with hstart | hrun
    · right
      right
      right
      rw [haccept.req, setsS_ofAccess, hstart]
    · exact alive_of_willRun h hrun arrivals
  · rw [hrest.wait] at hwait
    cases hwait

end Alive

/-! ### An engine that is not -/

/-- The endpoint waits with a request that does not start the engine, and that is idle. -/
structure System.Wedged (s : System) (a : AccessView) (r : Req) : Prop where
  dma : s.dma.Consistent
  ep : s.ep = ⟨a, true⟩
  req : s.req = r
  held : Req.ofAccess a r.data = r
  noStart : r.setsS = false
  idle : s.dma.state = .idle
  next : s.dma.nextState = .idle
  ctl : s.dma.ctl.data.getLsbD 31 = false

/-- An edge on which the engine stays idle latches the request. -/
theorem edge_idle {d : Dma} (h : d.Consistent) (hidle : d.state = .idle)
    (hnext : d.nextState = .idle) (hctl : d.ctl.data.getLsbD 31 = false) (req : Req) :
    d.edge req = { d with
      ctl := d.ctl.clock false (req.writes 0x00) req.data
      sta := d.sta.clock false d.out.staSetData (req.reads 0x04)
      adl := d.adl.clock false (req.writes 0x08) req.data
      adh := d.adh.clock false (req.writes 0x0c) req.data
      baz := d.baz.clock false (req.writes 0x10) req.data } := by
  have hstays : d.state = d.nextState := hidle.trans hnext.symm
  have hclr : d.out.ctlClrEn = false := by rw [h.ctlClrEn, hidle]; rfl
  have hset : d.out.staSetEn = false := by rw [h.staSetEn, hidle]; rfl
  have hstate : (d.edge req).state = d.state := hstays.symm
  have hnext' : (d.edge req).nextState = d.nextState := by
    rw [(edge_consistent h req).next, hstate, hidle, hnext]
    exact if_neg (by rw [show (d.edge req).ctl.regData = d.ctl.data from rfl, hctl]; decide)
  have hcounter : (d.edge req).counter = d.counter := by
    rw [Dma.edge_counter h, hidle, if_neg (by decide), if_neg (by decide)]
  have hedge : d.edge req = Dma.mk (d.edge req).state (d.edge req).nextState (d.edge req).counter
      (d.edge req).out (d.ctl.clock d.out.ctlClrEn (req.writes 0x00) req.data)
      (d.sta.clock d.out.staSetEn d.out.staSetData (req.reads 0x04))
      (d.adl.clock false (req.writes 0x08) req.data) (d.adh.clock false (req.writes 0x0c) req.data)
      (d.baz.clock false (req.writes 0x10) req.data) := rfl
  rw [hedge, hstate, hnext', hcounter, d.edge_out_stays req hstays, hclr, hset]

/-- A register that takes the same value on each edge is settled after two. -/
theorem RegWo.clock_settled (r : RegWo) (en : Bool) (v : BitVec 64) :
    ((r.clock false en v).clock false en v).clock false en v
      = (r.clock false en v).clock false en v := by
  cases en <;> rfl

theorem RegRo.clock_settled (r : RegRo) (v : BitVec 64) (en : Bool) :
    ((r.clock false v en).clock false v en).clock false v en
      = (r.clock false v en).clock false v en := by
  cases en <;> rfl

section Wedged

variable {s : System} {arrivals : List AccessView} {a : AccessView} {r : Req}

theorem System.Wedged.holds (h : s.Wedged a r) (arrivals : List AccessView) :
    s.Holds arrivals := by
  have hwait : s.ep.waitAck = true := by rw [h.ep]
  have hack : s.dma.out.reqAck = false := by rw [h.dma.reqAck, h.idle]; rfl
  rcases s.clock_cases arrivals with hhold | ⟨b, haccept⟩ | hrest
  · exact hhold
  · rw [haccept.free hwait] at hack
    cases hack
  · rw [hrest.free hwait] at hack
    cases hack

theorem System.Wedged.edge (h : s.Wedged a r) (arrivals : List AccessView) :
    (s.clock arrivals).dma = { s.dma with
      ctl := s.dma.ctl.clock false (r.writes 0x00) r.data
      sta := s.dma.sta.clock false s.dma.out.staSetData (r.reads 0x04)
      adl := s.dma.adl.clock false (r.writes 0x08) r.data
      adh := s.dma.adh.clock false (r.writes 0x0c) r.data
      baz := s.dma.baz.clock false (r.writes 0x10) r.data } := by
  show s.dma.edge s.req = _
  rw [h.req, edge_idle h.dma h.idle h.next h.ctl]

theorem System.Wedged.clock (h : s.Wedged a r) (arrivals : List AccessView) :
    (s.clock arrivals).Wedged a r := by
  have hhold := h.holds arrivals
  have hedge := h.edge arrivals
  refine ⟨edge_consistent h.dma s.req, hhold.ep.trans h.ep, ?_, h.held, h.noStart, ?_, ?_, ?_⟩
  · rw [hhold.req, h.ep, h.req, h.held]
  · rw [hedge, h.idle]
  · rw [hedge, h.next]
  · exact System.clock_ctl_clear (h.req ▸ h.noStart) h.ctl arrivals

/-- **A wedged system is a fixed point** two edges later, whatever arrives. -/
theorem wedged_deadlock (h : s.Wedged a r) (arr₁ arr₂ : List AccessView) :
    ((s.clock arr₁).clock arr₂).Deadlock := by
  have h₁ := h.clock arr₁
  have h₂ := h₁.clock arr₂
  have hhold := h₂.holds []
  have hdma : (((s.clock arr₁).clock arr₂).clock []).dma = ((s.clock arr₁).clock arr₂).dma := by
    rw [h₂.edge, h₁.edge, h.edge]
    simp only [RegWo.clock_settled, RegRo.clock_settled]
  have hreq := (h₂.clock []).req.trans h₂.req.symm
  have hfifo := hhold.fifo.trans (List.append_nil _)
  refine ⟨hhold.wait, ?_⟩
  exact (System.mk.injEq ..).mpr ⟨hhold.ep, hreq, hdma, hfifo⟩

/-- An access accepted by an engine that is idle and will be, and that does not start it. -/
theorem wedged_of_accepts (h : s.Consistent) (haccept : s.Accepts arrivals a)
    (hstart : startsTransfer a = false) (hrun : ¬ s.WillRun) :
    (s.clock arrivals).Wedged a (Req.ofAccess a s.req.data) := by
  obtain ⟨hnext, hctl, hS⟩ : s.dma.nextState = .idle ∧ s.dma.ctl.data.getLsbD 31 = false ∧
      s.req.setsS = false := by
    simpa [System.WillRun] using hrun
  have h' := System.clock_consistent h arrivals
  refine ⟨h'.dma, haccept.ep, haccept.req, ?_, ?_, hnext, ?_, ?_⟩
  · cases hread : a.isRead <;> simp [Req.ofAccess, hread]
  · rw [setsS_ofAccess, hstart]
  · rw [h'.next_idle hnext, System.clock_regData, hctl]
    rfl
  · exact System.clock_ctl_clear hS hctl arrivals

end Wedged

/-! ### Whole runs -/

theorem waitsAlive_after {arr : ℕ → List AccessView}
    (h : ∀ n, (System.after arr n).AcceptsRunning (arr n)) (n : ℕ) :
    (System.after arr n).WaitsAlive := by
  induction n with
  | zero => exact fun hwait => by cases hwait
  | succ n ih => exact waitsAlive_clock (System.after_consistent arr n) ih (h n)

/-- **When the composition is free of deadlocks.**  Exactly when each access that is accepted starts
the engine, or finds it about to run. -/
theorem deadlock_free_iff (arr : ℕ → List AccessView) :
    (∀ n, ¬ (System.after arr n).Deadlock) ↔
      ∀ n, (System.after arr n).AcceptsRunning (arr n) := by
  constructor
  · intro hfree n a haccepted
    by_contra hnot
    obtain ⟨hstart, hrun⟩ := not_or.mp hnot
    have haccept : (System.after arr n).Accepts (arr n) a := by
      rcases (System.after arr n).clock_cases (arr n) with hhold | ⟨b, haccept⟩ | hrest
      · rw [hhold.accepted] at haccepted
        cases haccepted
      · rw [haccept.accepted, Option.some.injEq] at haccepted
        exact haccepted ▸ haccept
      · rw [hrest.accepted] at haccepted
        cases haccepted
    have hwedged := wedged_of_accepts (System.after_consistent arr n) haccept
      (Bool.eq_false_iff.mpr hstart) hrun
    exact hfree (n + 3) (wedged_deadlock hwedged (arr (n + 1)) (arr (n + 2)))
  · intro haccepts n hdead
    exact alive_ne (System.after_consistent arr n) (waitsAlive_after haccepts n hdead.1) hdead.2

/-- What `dma_start_read` writes for a buffer of 128 bytes at zero: BAZ, ADH, ADL, CTL. -/
def dmaStartRead (n : ℕ) : List AccessView :=
  if n = 0 then
    [⟨false, 1, 0x10, 4, some 0x2a⟩, ⟨false, 1, 0x0c, 4, some 0⟩, ⟨false, 1, 0x08, 4, some 0⟩,
      ⟨false, 1, 0x00, 4, some 0xc0000080⟩]
  else []

/-- The first write wedges the composition: the other three are never popped. -/
theorem dmaStartRead_deadlock :
    (∀ n, n ≠ 0 → dmaStartRead n = []) ∧ (System.after dmaStartRead 3).Deadlock ∧
      (System.after dmaStartRead 3).fifo.length = 3 := by
  refine ⟨fun n hn => if_neg hn, by decide, by decide⟩

end VPcie.Vhdl
