import VPcie.Ebone.RegsBus

/-!
# One access to the register slaves

An access is an addressing phase of two cycles, which the slave acknowledges in the second, and a
data phase of one.  One that nobody takes ends in an error, and the request begins again.

* `Top.Consistent` — the bus is what the registers make of it;
* `Core.Calm` — the watch dog stays quiet;
* `Top.Link` — how far the access is, with one lemma for each state of the master;
* `Top.Stuck` — nobody takes the access.
-/

namespace VPcie.Ebone

open VPcie.Lib VPcie.Glue
open VPcie.Vhdl (Req Endpoint hasSize)

variable {n : ℕ} {b : BusConfig n}

/-! ### What reaches the slaves -/

/-- What the master drives in each state. -/
def stateLines (state : MasterState) (a : AccessView) : Lines :=
  match state with
  | .brq => ⟨true, false, false, 0⟩
  | .as => ⟨true, true, false, addrOf a⟩
  | .data => ⟨true, false, true, dataOf a⟩
  | _ => ⟨false, false, false, 0⟩

theorem outputLogic_data (a : AccessView) (data : BitVec 64) :
    let o := outputLogic .data (Captured.ofAccess a) 0 ((Req.ofAccess a data).data.setWidth 32)
    o.brq = true ∧ o.as = false ∧ o.eof = true ∧ o.dat = dataOf a := by
  cases hread : a.isRead with
  | true => simp [outputLogic, Captured.ofAccess, MasterOut.default, dataOf, hread]
  | false => simp [outputLogic, Captured.ofAccess, MasterOut.default, dataOf, hread, Req.ofAccess]

theorem System.Consistent.lines {s : System} (h : s.Consistent) :
    linesOf s.m.out = stateLines s.m.state s.ep.access := by
  rw [linesOf_eq, h.out]
  cases hstate : s.m.state with
  | data =>
    obtain ⟨hwait, hcap⟩ := h.busy (by rw [hstate]; exact ⟨by decide, by decide⟩)
    have hreq := h.req
    rw [if_pos hwait] at hreq
    obtain ⟨hbrq, has, heof, hdat⟩ := outputLogic_data s.ep.access s.req.data
    rw [← hreq] at hbrq has heof hdat
    rw [hcap, hbrq, has, heof, hdat]
    rfl
  | as =>
    obtain ⟨-, hcap⟩ := h.busy (by rw [hstate]; exact ⟨by decide, by decide⟩)
    rw [hcap]
    rfl
  | _ => rfl

/-- The bus is asked for until the data phase is over. -/
theorem System.Consistent.brq {s : System} (h : s.Consistent) :
    s.m.out.brq = (stateLines s.m.state s.ep.access).bmx := by
  rw [← h.lines, linesOf_eq]
  cases s.m.out.brq with
  | _ => rfl

theorem Regs.reset_quiet {g : RegsGenerics} : (Regs.reset : Regs g).Quiet := ⟨rfl, rfl, rfl, rfl⟩

/-- What is between two edges. -/
structure Top.Consistent (s : Top b) : Prop where
  sys : s.sys.Consistent
  settled : s.sys.Settled
  bus : s.sys.bus = busOf s.sys.m.out s.core s.regs

theorem Top.reset_consistent : (Top.reset : Top b).Consistent := by
  refine ⟨Ebone.reset_consistent _, rfl, ?_⟩
  have hquiet : ∀ i, ((Top.reset : Top b).regs i).Quiet := fun _ => Regs.reset_quiet
  exact (busOf_quiet MasterOut.default (Top.reset : Top b).core hquiet).symm

theorem Top.clock_bus (s : Top b) (c : TopIn n) : (s.clock c).sys.bus = s.busNext c := by
  show ((s.cycle c).changes).getLastD (s.cycle c).bus = s.busNext c
  rw [Top.cycle, List.getLastD_concat]

/-- **Step lemma.** -/
theorem Top.Consistent.clock {s : Top b} (h : s.Consistent) (c : TopIn n) :
    (s.clock c).Consistent := by
  refine ⟨h.sys.clock _, h.settled.clock h.sys _, ?_⟩
  obtain ⟨next, hm⟩ := clock_m s.sys (s.cycle c)
  have hout : (s.clock c).sys.m.out = s.sys.m.outputs s.sys.req s.sys.bus := by
    show (s.sys.clock (s.cycle c)).m.out = _
    rw [hm]
  rw [s.clock_bus c, hout]
  rfl

/-! ### The next state -/

section Next

variable {s : Top b} (h : s.Consistent)
include h

theorem Top.Consistent.bg : s.sys.bus.bg = s.sys.m.out.brq ∧ s.sys.bus.busy = s.sys.m.out.brq := by
  rw [h.bus, busOf_eq]
  exact ⟨rfl, Bool.or_false _⟩

/-- A request asks for the bus at once. -/
theorem Top.Consistent.next_idle (hstate : s.sys.m.state = .idle)
    (hwait : s.sys.ep.waitAck = true) : s.sys.m.nextState = .brq := by
  have hsettled := h.settled
  have hbrq := h.sys.brq
  rw [hstate] at hbrq
  rw [System.Settled] at hsettled
  rw [hsettled]
  simp [nextStateLogic, nextIn, hstate, h.sys.reqEn, hwait, h.bg.2, hbrq, stateLines]

/-- The bus is granted at once. -/
theorem Top.Consistent.next_brq (hstate : s.sys.m.state = .brq) : s.sys.m.nextState = .as := by
  have hsettled := h.settled
  have hbrq := h.sys.brq
  rw [hstate] at hbrq
  rw [System.Settled] at hsettled
  rw [hsettled]
  simp [nextStateLogic, nextIn, hstate, h.bg.1, hbrq, stateLines]

/-- The acknowledge of a slave is seen. -/
theorem Top.Consistent.next_as (hstate : s.sys.m.state = .as) (herr : s.sys.bus.err = false)
    (hdk : s.sys.bus.dk = true) : s.sys.m.nextState = .data := by
  have hsettled := h.settled
  rw [System.Settled] at hsettled
  rw [hsettled]
  simp [nextStateLogic, nextIn, hstate, herr, hdk]

end Next

/-- The logic of the addressing phase. -/
def asLogic (err dk : Bool) (next : MasterState) : MasterState :=
  if err then .done else if dk then .data else next

theorem nextStateLogic_as {i : NextIn} (hstate : i.state = .as) (minusOne : BitVec 16)
    (next : MasterState) : nextStateLogic i minusOne next = asLogic i.err i.dk next := by
  rw [nextStateLogic, hstate, asLogic]
  cases i.err with
  | true => simp
  | false => simp

/-- In an addressing phase the next state keeps what the logic keeps on the bus before the edge
and on the one after it. -/
theorem Top.clock_keeps (Q : MasterState → Prop) (s : Top b) (c : TopIn n)
    (hstate : s.sys.m.nextState = .as)
    (hQ : ∀ err dk next, (err = s.sys.bus.err ∨ err = (s.busNext c).err) →
      (dk = s.sys.bus.dk ∨ dk = (s.busNext c).dk) → Q next → Q (asLogic err dk next))
    (h : Q .as) : Q (s.clock c).sys.m.nextState := by
  let req := (s.sys.clock (s.cycle c)).req
  let edge := s.sys.m.edge s.sys.req req s.sys.bus s.sys.bus
  have hedge : edge.state = .as := hstate
  refine @busChanges_keeps Q edge req _ (s.cycle c).changes ?_ ?_
  · intro bus hbus busy next hnext
    rw [nextStateLogic_as (i := nextIn edge req.en bus busy) hedge]
    rcases List.mem_append.mp hbus with hmix | hlast
    · obtain ⟨x, -, rfl⟩ := List.mem_map.mp hmix
      refine hQ _ _ next ?_ ?_ hnext
      · cases hx : x.err with
        | true => exact Or.inr (by simp [nextIn, Mix.bus, hx])
        | false => exact Or.inl (by simp [nextIn, Mix.bus, hx])
      · cases hx : x.dk with
        | true => exact Or.inr (by simp [nextIn, Mix.bus, hx])
        | false => exact Or.inl (by simp [nextIn, Mix.bus, hx])
    · rw [List.mem_singleton.mp hlast]
      exact hQ _ _ next (Or.inr rfl) (Or.inr rfl) hnext
  · let latched : Master :=
      { s.sys.m.latch s.sys.req s.sys.bus with out := s.sys.m.outputs s.sys.req s.sys.bus }
    have hkeeps : Q latched.nextState := by
      rw [show latched.nextState = .as from hstate]
      exact h
    refine follow_keeps Q (m := latched) ?_ hkeeps
    intro busy next hnext
    rw [nextStateLogic_as (i := nextIn latched req.en s.sys.bus busy) hstate]
    exact hQ _ _ next (Or.inl rfl) (Or.inl rfl) hnext

/-! ### The core and the slaves -/

/-- The watch dog has nothing to report, and will not before the bus is free again. -/
structure Core.Calm {tmoDk : ℕ} (c : Core tmoDk) : Prop where
  coreErr : c.coreErr = false
  brqErr : c.brqErr = false
  bustats : c.bustats = .iddle ∨ c.bustats = .m0
  cntDk : c.cntDk.toNat + c.ebBusy.toNat ≤ 1

theorem Top.Consistent.dk {s : Top b} (h : s.Consistent) :
    (coreIn s.sys.m.out (slaveLines s.regs (linesOf s.sys.m.out))).dk = s.sys.bus.dk :=
  (congrArg Bus.dk h.bus).symm

/-- The watch dog stays calm where the addressing phase has just begun, and where a slave
acknowledges. -/
theorem Core.Calm.clock {s : Top b} (hcore : s.core.Calm) (h : s.Consistent)
    (hquick : s.sys.m.out.brq = true →
      s.sys.bus.dk = true ∨ s.core.ebBusy = false ∨ s.core.ebBusy2 = false) :
    s.coreNext.Calm ∧ s.coreNext.ebBusy = s.sys.m.out.brq ∧
      s.coreNext.ebBusy2 = s.core.ebBusy := by
  have hbusy : s.coreNext.ebBusy = s.sys.m.out.brq := by
    rw [Top.coreNext, Core.clock, coreIn_busState]
    cases s.sys.m.out.brq with
    | true => rfl
    | false => rfl
  have hcnt : s.coreNext.cntDk = if s.sys.bus.dk || !s.core.ebBusy then 0
      else if s.core.ebBusy2 then s.core.cntDk + 1 else s.core.cntDk := by
    rw [← h.dk]
    rfl
  have hle := hcore.cntDk
  refine ⟨⟨?_, ?_, ?_, ?_⟩, hbusy, rfl⟩
  · have hmsb : s.core.cntDk.msb = false := by
      have hpow : 2 ^ 1 ≤ 2 ^ b.tmoDk :=
        Nat.pow_le_pow_right (by decide) (Nat.le_of_lt b.one_lt_tmoDk)
      rw [msb_ofst]
      exact decide_eq_false (by omega)
    show (s.core.cntDk.msb || s.core.brqErr) = false
    rw [hmsb, hcore.brqErr]
    rfl
  · show inconsistent s.core.bustats _ false false = false
    rcases hcore.bustats with hb | hb
    · rw [hb]
      rfl
    · rw [hb]
      rfl
  · show (coreIn s.sys.m.out _).busState = .iddle ∨ (coreIn s.sys.m.out _).busState = .m0
    rw [coreIn_busState]
    cases s.sys.m.out.brq with
    | true => exact Or.inr rfl
    | false => exact Or.inl rfl
  · rw [hbusy, hcnt]
    cases hbrq : s.sys.m.out.brq with
    | true =>
      rcases hquick hbrq with hdk | hfree | hfree
      · simp [hdk]
      · simp [hfree]
      · cases hbusy1 : s.core.ebBusy with
        | false => simp
        | true =>
          rw [hbusy1] at hle
          have hzero : s.core.cntDk = 0 := by
            apply BitVec.eq_of_toNat_eq
            simpa using hle
          simp [hfree, hzero]
    | false =>
      by_cases hclr : (s.sys.bus.dk || !s.core.ebBusy) = true
      · simp [hclr]
      · rw [if_neg hclr]
        have hbusy1 : s.core.ebBusy = true := by
          cases hb : s.core.ebBusy with
          | true => rfl
          | false => simp [hb] at hclr
        rw [hbusy1] at hle
        have hzero : s.core.cntDk = 0 := by
          apply BitVec.eq_of_toNat_eq
          simpa using hle
        rw [hzero]
        cases s.core.ebBusy2 with
        | true =>
          show (0 + 1#(b.tmoDk + 1)).toNat + 0 ≤ 1
          simp
        | false => simp

/-- Nobody has addressed a slave, and the registers are those of the files. -/
def Top.Calm (s : Top b) (f : Files n) : Prop :=
  ∀ i, (s.regs i).Quiet ∧ (s.regs i).ovfErr = false ∧ (s.regs i).rwRegs = f i

/-- A slave that is not for the access, or not addressed. -/
theorem Top.away {s : Top b} (c : TopIn n) {f : Files n} (hf : Masked b f) {i : Fin n}
    (hquiet : (s.regs i).Quiet) (hrw : (s.regs i).rwRegs = f i)
    (hl : ((linesOf s.sys.m.out).bmx && (linesOf s.sys.m.out).as) = false ∨
      (linesOf s.sys.m.out).eof = false ∧ (b.gens i).selects (linesOf s.sys.m.out).dat = false) :
    ((s.clock c).regs i).Quiet ∧ ((s.clock c).regs i).ovfErr = false ∧
      ((s.clock c).regs i).rwRegs = f i := by
  obtain ⟨hquiet', hovf, hstore⟩ := hquiet.away (i := s.regsIn c i) rfl hl
  refine ⟨hquiet', hovf, ?_⟩
  rw [← hf i, ← hrw]
  exact hstore

/-- While the bus is free the slaves keep the registers, but for the bits that clear themselves. -/
theorem Top.rests {s : Top b} (c : TopIn n) (hquiet : ∀ i, (s.regs i).Quiet)
    (hbmx : s.sys.m.out.brq = false) (i : Fin n) :
    ((s.clock c).regs i).Quiet ∧ ((s.clock c).regs i).ovfErr = false ∧
      ((s.clock c).regs i).rwRegs = (b.gens i).tick (b.sclr i) (s.regs i).rwRegs := by
  refine (hquiet i).away (i := s.regsIn c i) rfl (Or.inl ?_)
  show ((linesOf s.sys.m.out).bmx && (linesOf s.sys.m.out).as) = false
  rw [linesOf_eq, hbmx]
  rfl

/-! ### How far an access is -/

/-- The access the endpoint waits for. -/
def Top.access (s : Top b) : AccessView := s.sys.ep.access

/-- A slave takes the access. -/
structure Top.Takes (s : Top b) (f : Files n) (i : Fin n) : Prop where
  selects : (b.gens i).selects (addrOf s.access) = true
  ovfWr : (b.gens i).ovfWr (addrOf s.access) = false
  others : ∀ j, j ≠ i → (s.regs j).Quiet
  files : ∀ j, (s.regs j).rwRegs = f j

/-- How far the access is, where the files are those of the accesses before it. -/
def Top.Stage (s : Top b) (f : Files n) : Prop :=
  match s.sys.m.state with
  | .idle => s.Calm f
  | .brq => s.Calm f ∧ s.core.ebBusy = false
  | .as =>
    (s.sys.m.nextState = .as ∧ s.Calm f ∧ s.core.ebBusy = true ∧ s.core.ebBusy2 = false) ∨
      (s.sys.m.nextState = .data ∧ s.sys.bus.dk = true ∧
        ∃ i, s.Takes f i ∧ (s.regs i).Addressed (b.place i s.access))
  | .data =>
    s.sys.bus.dk = true ∧ ∃ i, s.Takes f i ∧
      if s.access.isRead then
        (s.regs i).ReadAt (b.regsI i (f i)) (b.place i s.access) ∧
          exec b f s.access = some (f, s.sys.bus.dat)
      else (s.regs i).WriteAt (b.place i s.access)
  | .reply =>
    (∀ i, (s.regs i).Quiet ∧ (s.regs i).rwRegs = f i) ∧ s.access.isRead = true ∧
      ∃ w, exec b f s.access = some (f, w) ∧ s.sys.m.repData = w.setWidth 64
  | .ack =>
    (∀ i, (s.regs i).Quiet) ∧ ∃ f' w, exec b f s.access = some (f', w) ∧
      (∀ i, (b.gens i).tick (b.sclr i) (s.regs i).rwRegs = f' i) ∧
      (s.access.isRead = true → s.sys.m.repData = w.setWidth 64)
  | .done => s.Calm f

/-- The access is served. -/
structure Top.Link (s : Top b) (f : Files n) : Prop where
  core : s.core.Calm
  stage : s.Stage f

section Edge

variable {s : Top b} {f : Files n} (h : s.Consistent) (hf : Masked b f) (c : TopIn n)
include h

/-- The bus where nobody is addressed. -/
theorem Top.Consistent.bus_quiet (hquiet : ∀ i, (s.regs i).Quiet) (hcore : s.core.Calm) :
    s.sys.bus.dk = false ∧ s.sys.bus.err = false := by
  rw [h.bus, busOf_quiet _ _ hquiet]
  exact ⟨rfl, hcore.coreErr⟩

/-- The bus where one slave has been addressed. -/
theorem Top.Consistent.bus_one {i : Fin n} (hothers : ∀ j, j ≠ i → (s.regs j).Quiet)
    (hcore : s.core.Calm) : s.sys.bus.dk = (s.regs i).dkO ∧
      s.sys.bus.err = (s.regs i).errO (linesOf s.sys.m.out) ∧ s.sys.bus.dat = (s.regs i).datO := by
  rw [h.bus, busOf_one _ _ i hothers, hcore.coreErr]
  exact ⟨rfl, Bool.or_false _, rfl⟩

/-- The access is held on an edge without an acknowledge. -/
theorem Top.held (hwait : s.sys.ep.waitAck = true) (hstate : s.sys.m.state ≠ .ack) :
    (s.clock c).access = s.access ∧ (s.clock c).sys.ep.waitAck = true := by
  obtain ⟨-, hep⟩ := h.sys.events_of_noAck hwait hstate (s.cycle c)
  refine ⟨congrArg Endpoint.access hep, ?_⟩
  rw [← hwait]
  exact congrArg Endpoint.waitAck hep

/-- The word that was sampled is kept while it is replied. -/
theorem Top.keeps_repData (hstate : s.sys.m.state = .reply) :
    (s.clock c).sys.m.repData = s.sys.m.repData := by
  obtain ⟨next, hm⟩ := clock_m s.sys (s.cycle c)
  have hoff : s.sys.m.out.repDataEn = false := by
    rw [h.sys.out, (outputLogic_strobes ..).2.2.2.2, hstate]
    rfl
  show (s.sys.clock (s.cycle c)).m.repData = _
  rw [hm]
  exact if_neg (by rw [hoff]; decide)

include hf

/-- While the master drives nothing, or only asks for the bus, the slaves are left alone. -/
theorem Top.Calm.clock (hcalm : s.Calm f)
    (hl : (stateLines s.sys.m.state s.access).as = false) : (s.clock c).Calm f := by
  intro i
  refine Top.away c hf (hcalm i).1 (hcalm i).2.2 (Or.inl ?_)
  rw [h.sys.lines, Top.access] at *
  rw [hl, Bool.and_false]

theorem Top.Stage.idle (hstate : s.sys.m.state = .idle) (hlink : s.Link f) :
    (s.clock c).Link f := by
  have hstage := hlink.stage
  simp only [Top.Stage, hstate] at hstage
  have hbrq := h.sys.brq
  rw [hstate] at hbrq
  obtain ⟨hcore, hbusy, -⟩ := hlink.core.clock h fun hasks => by rw [hbrq] at hasks; cases hasks
  have hcalm : (s.clock c).Calm f := Top.Calm.clock h hf c hstage (by rw [hstate]; rfl)
  refine ⟨hcore, ?_⟩
  have hnext : (s.clock c).sys.m.state = s.sys.m.nextState := System.clock_state ..
  have hfollows := h.sys.follows
  rw [hstate] at hfollows
  rcases hfollows with hidle | ⟨hgo, -⟩
  · rw [hidle] at hnext
    simp only [Top.Stage, hnext]
    exact hcalm
  · rw [hgo] at hnext
    simp only [Top.Stage, hnext]
    exact ⟨hcalm, hbusy.trans hbrq⟩

theorem Top.Stage.done (hstate : s.sys.m.state = .done) (hlink : s.Link f) :
    (s.clock c).Link f := by
  have hstage := hlink.stage
  simp only [Top.Stage, hstate] at hstage
  have hbrq := h.sys.brq
  rw [hstate] at hbrq
  obtain ⟨hcore, -, -⟩ := hlink.core.clock h fun hasks => by rw [hbrq] at hasks; cases hasks
  have hnext : (s.clock c).sys.m.state = s.sys.m.nextState := System.clock_state ..
  have hfollows := h.sys.follows
  rw [hstate] at hfollows
  rw [show s.sys.m.nextState = .idle from hfollows] at hnext
  refine ⟨hcore, ?_⟩
  simp only [Top.Stage, hnext]
  exact Top.Calm.clock h hf c hstage (by rw [hstate]; rfl)

theorem Top.Stage.brq (hstate : s.sys.m.state = .brq) (hlink : s.Link f) :
    (s.clock c).Link f := by
  have hstage := hlink.stage
  simp only [Top.Stage, hstate] at hstage
  obtain ⟨hcalm, hfree⟩ := hstage
  obtain ⟨hcore, hbusy, hbusy2⟩ := hlink.core.clock h fun _ => Or.inr (Or.inl hfree)
  have hbrq := h.sys.brq
  rw [hstate] at hbrq
  have hcalm' : (s.clock c).Calm f := Top.Calm.clock h hf c hcalm (by rw [hstate]; rfl)
  have hgo := h.next_brq hstate
  have hnext : (s.clock c).sys.m.state = .as := (System.clock_state ..).trans hgo
  obtain ⟨hdk, herr⟩ := h.bus_quiet (fun i => (hcalm i).1) hlink.core
  obtain ⟨hdk', herr'⟩ := (h.clock c).bus_quiet (fun i => (hcalm' i).1) hcore
  rw [s.clock_bus c] at hdk' herr'
  refine ⟨hcore, ?_⟩
  simp only [Top.Stage, hnext]
  refine Or.inl ⟨?_, hcalm', hbusy.trans hbrq, hbusy2.trans hfree⟩
  refine s.clock_keeps (fun next => next = .as) c hgo ?_ rfl
  intro err dk next he hd hkeep
  rw [herr, herr', or_self] at he
  rw [hdk, hdk', or_self] at hd
  rw [he, hd, hkeep]
  rfl

/-- The slaves the access is not for, while it is on the bus. -/
theorem Top.others (hstate : s.sys.m.state = .as) {i : Fin n}
    (hsel : (b.gens i).selects (addrOf s.access) = true)
    (hothers : ∀ j, j ≠ i → (s.regs j).Quiet) (hfiles : ∀ j, (s.regs j).rwRegs = f j) (j : Fin n)
    (hj : j ≠ i) : ((s.clock c).regs j).Quiet ∧ ((s.clock c).regs j).rwRegs = f j := by
  have hlines := h.sys.lines
  rw [hstate] at hlines
  have haway : (b.gens j).selects (addrOf s.access) = false := by
    rw [← Bool.not_eq_true]
    exact fun hselj => hj (b.apart j i _ hselj hsel)
  obtain ⟨hquiet, -, hrw⟩ := Top.away c hf (hothers j hj) (hfiles j) (Or.inr (by
    rw [hlines]
    exact ⟨rfl, haway⟩))
  exact ⟨hquiet, hrw⟩

/-- **The first cycle of the addressing phase**: the slave takes the address. -/
theorem Top.Stage.taken (hstate : s.sys.m.state = .as) (hcalm : s.Calm f) (hlink : s.Link f)
    (hnext : s.sys.m.nextState = .as) (hfree : s.core.ebBusy2 = false) {r : Files n × BitVec 32}
    (hgood : exec b f s.access = some r) : (s.clock c).Link f := by
  obtain ⟨i, hsel, hovf, -⟩ := exec_eq_some hgood
  obtain ⟨hcore, -, -⟩ := hlink.core.clock h fun _ => Or.inr (Or.inr hfree)
  have hlines := h.sys.lines
  rw [hstate] at hlines
  have hwait := (h.sys.busy (by rw [hstate]; exact ⟨by decide, by decide⟩)).1
  obtain ⟨haccess, -⟩ := Top.held h c hwait (by rw [hstate]; decide)
  have hothers := Top.others h hf c hstate hsel (fun j _ => (hcalm j).1) fun j => (hcalm j).2.2
  have hin : (s.regsIn c i).lines = ⟨true, true, false, addrOf s.access⟩ := hlines
  obtain ⟨haddressed, hstore⟩ := (hcalm i).1.addressed (i := s.regsIn c i) rfl (hcalm i).2.1
    (by rw [hin]) (by rw [hin]) (by rw [hin]) (by rw [hin]; exact hsel) (by rw [hin]; exact hovf)
  rw [hin] at haddressed
  have hplace : ((s.clock c).regs i).Addressed (b.place i s.access) := haddressed
  have hfiles : ∀ j, ((s.clock c).regs j).rwRegs = f j := by
    intro j
    by_cases hj : j = i
    · subst hj
      rw [← hf j, ← (hcalm j).2.2]
      exact hstore
    · exact (hothers j hj).2
  obtain ⟨hdk, herr, -⟩ := (h.clock c).bus_one (fun j hj => (hothers j hj).1) hcore
  have hdk' : (s.clock c).sys.bus.dk = true := by
    rw [hdk, Regs.dkO, hplace.myself, hplace.sDk]
    rfl
  have hnostate : ∀ l, (((s.clock c).regs i).ctl l).berr = false := by
    intro l
    simp only [Regs.ctl, hplace.state]
    split <;> rfl
  have herr' : (s.clock c).sys.bus.err = false := by
    rw [herr, Regs.errO, hnostate, Bool.and_false]
  have hnow : (s.clock c).sys.m.state = .as := (System.clock_state ..).trans hnext
  refine ⟨hcore, ?_⟩
  simp only [Top.Stage, hnow]
  refine Or.inr ⟨(h.clock c).next_as hnow herr' hdk', hdk', i, ⟨?_, ?_, ?_, hfiles⟩, ?_⟩
  · rw [haccess]
    exact hsel
  · rw [haccess]
    exact hovf
  · exact fun j hj => (hothers j hj).1
  · rw [haccess]
    exact hplace

/-- **The second cycle**: the acknowledge is seen, and the slave is ready for the data. -/
theorem Top.Stage.acked (hstate : s.sys.m.state = .as) (hlink : s.Link f)
    (hnext : s.sys.m.nextState = .data) (hdk : s.sys.bus.dk = true) {i : Fin n}
    (htakes : s.Takes f i) (hat : (s.regs i).Addressed (b.place i s.access)) :
    (s.clock c).Link f := by
  obtain ⟨hcore, -, -⟩ := hlink.core.clock h fun _ => Or.inl hdk
  have hlines := h.sys.lines
  rw [hstate] at hlines
  have hin : (s.regsIn c i).lines = ⟨true, true, false, addrOf s.access⟩ := hlines
  have hwait := (h.sys.busy (by rw [hstate]; exact ⟨by decide, by decide⟩)).1
  obtain ⟨haccess, -⟩ := Top.held h c hwait (by rw [hstate]; decide)
  have hothers := Top.others h hf c hstate htakes.selects htakes.others htakes.files
  have hmasked : (b.gens i).tick (b.sclr i) (s.regs i).rwRegs = (s.regs i).rwRegs := by
    rw [htakes.files i, hf i]
  have hnow : (s.clock c).sys.m.state = .data := (System.clock_state ..).trans hnext
  have htakes' : ((s.clock c).regs i).rwRegs = f i → (s.clock c).Takes f i := by
    intro hrw
    refine ⟨?_, ?_, fun j hj => (hothers j hj).1, fun j => ?_⟩
    · rw [haccess]
      exact htakes.selects
    · rw [haccess]
      exact htakes.ovfWr
    · by_cases hj : j = i
      · rw [hj, hrw]
      · exact (hothers j hj).2
  obtain ⟨hdk', -, hdat⟩ := (h.clock c).bus_one (fun j hj => (hothers j hj).1) hcore
  refine ⟨hcore, ?_⟩
  simp only [Top.Stage, hnow, haccess]
  cases hread : s.access.isRead with
  | true =>
    obtain ⟨hreads, hrw⟩ := hat.read (i := s.regsIn c i) rfl (place_lt i s.access)
      (by rw [hin, addrOf_dir, hread]) hmasked
    obtain ⟨hmyself, hsDk, -, hword⟩ := hreads.acks (place_lt i s.access)
    have hfile : ((s.clock c).regs i).rwRegs = f i := hrw.trans (htakes.files i)
    have hro : (s.regsIn c i).regsI = b.regsI i (f i) := by
      rw [Top.regsIn, htakes.files i]
    have hdkO : ((s.clock c).regs i).dkO = true := by
      rw [show ((s.clock c).regs i).dkO = (true && true) from congrArg₂ _ hmyself hsDk,
        Bool.and_self]
    have hdatO : ((s.clock c).regs i).datO = ((s.clock c).regs i).rmux := if_pos hmyself
    refine ⟨hdk'.trans hdkO, i, htakes' hfile, ?_⟩
    rw [hro] at hreads hword
    rw [hdat, hdatO]
    refine ⟨hreads, exec_read htakes.selects htakes.ovfWr hread ?_⟩
    rw [hrw, htakes.files i] at hword
    exact hword
  | false =>
    obtain ⟨hwrites, hrw⟩ := hat.write (i := s.regsIn c i) rfl (place_lt i s.access)
      (by rw [hin, addrOf_dir, hread])
    obtain ⟨hmyself, hsDk, -⟩ := hwrites.acks (Nat.le_of_lt (place_lt i s.access))
    have hfile : ((s.clock c).regs i).rwRegs = f i := by
      rw [← hf i, ← htakes.files i]
      exact hrw
    have hdkO : ((s.clock c).regs i).dkO = true := by
      rw [show ((s.clock c).regs i).dkO = (true && true) from congrArg₂ _ hmyself hsDk,
        Bool.and_self]
    exact ⟨hdk'.trans hdkO, i, htakes' hfile, hwrites⟩

/-- **The data phase**: the word is stored, or is sampled. -/
theorem Top.Stage.data (hstate : s.sys.m.state = .data) (hlink : s.Link f) :
    (s.clock c).Link f := by
  have hstage := hlink.stage
  simp only [Top.Stage, hstate] at hstage
  obtain ⟨hdk, i, htakes, hword⟩ := hstage
  obtain ⟨hcore, -, -⟩ := hlink.core.clock h fun _ => Or.inl hdk
  have hlines := h.sys.lines
  rw [hstate] at hlines
  have hin : (s.regsIn c i).lines = ⟨true, false, true, dataOf s.access⟩ := hlines
  obtain ⟨hwait, hcap⟩ := h.sys.busy (by rw [hstate]; exact ⟨by decide, by decide⟩)
  obtain ⟨haccess, -⟩ := Top.held h c hwait (by rw [hstate]; decide)
  have hothers : ∀ j, j ≠ i → ((s.clock c).regs j).Quiet ∧ ((s.clock c).regs j).rwRegs = f j := by
    intro j hj
    obtain ⟨hquiet, -, hrw⟩ := Top.away c hf (htakes.others j hj) (htakes.files j) (Or.inl (by
      rw [hlines]
      rfl))
    exact ⟨hquiet, hrw⟩
  have hmasked : (b.gens i).tick (b.sclr i) (s.regs i).rwRegs = (s.regs i).rwRegs := by
    rw [htakes.files i, hf i]
  have hfollows := h.sys.follows
  rw [hstate, hcap] at hfollows
  have hnext : (s.clock c).sys.m.state = if s.access.isRead then .reply else .ack :=
    (System.clock_state ..).trans hfollows
  refine ⟨hcore, ?_⟩
  cases hread : s.access.isRead with
  | true =>
    rw [hread, if_pos rfl] at hnext
    rw [if_pos hread] at hword
    obtain ⟨hreads, hexec⟩ := hword
    have hro : (s.regsIn c i).regsI = b.regsI i (f i) := by
      rw [Top.regsIn, htakes.files i]
    rw [← hro] at hreads
    obtain ⟨hrw, hquiet⟩ := hreads.word (i := s.regsIn c i) rfl (by rw [hin]) hmasked
    rw [hin, if_pos rfl] at hquiet
    have hrep : (s.clock c).sys.m.repData = s.sys.bus.dat.setWidth 64 :=
      h.sys.clock_repData hstate hread (s.cycle c)
    simp only [Top.Stage, hnext, haccess]
    refine ⟨fun j => ?_, hread, _, hexec, hrep⟩
    by_cases hj : j = i
    · subst hj
      exact ⟨hquiet, hrw.trans (htakes.files j)⟩
    · exact hothers j hj
  | false =>
    rw [hread, if_neg (by decide)] at hnext
    rw [if_neg (by rw [hread]; decide)] at hword
    obtain ⟨hstore, hquiet⟩ := hword.word (i := s.regsIn c i) rfl (by rw [hin]) (by rw [hin])
    rw [hin, if_pos rfl] at hquiet
    simp only [Top.Stage, hnext, haccess]
    refine ⟨fun j => ?_, _, _, exec_write htakes.selects htakes.ovfWr hread, fun j => ?_, ?_⟩
    · by_cases hj : j = i
      · subst hj
        exact hquiet
      · exact (hothers j hj).1
    · by_cases hj : j = i
      · subst hj
        rw [Function.update_self]
        have hput : ((s.clock c).regs j).rwRegs
            = (b.gens j).put (f j) (b.place j s.access) (dataOf s.access) := by
          rw [← htakes.files j, ← hmasked]
          rw [hin] at hstore
          exact hstore
        rw [hput]
      · rw [Function.update_of_ne hj, (hothers j hj).2, hf j]
    · intro htrue
      rw [hread] at htrue
      cases htrue

/-- **The reply.** -/
theorem Top.Stage.reply (hstate : s.sys.m.state = .reply) (hlink : s.Link f) :
    (s.clock c).Link f := by
  have hstage := hlink.stage
  simp only [Top.Stage, hstate] at hstage
  obtain ⟨hregs, hread, w, hexec, hrep⟩ := hstage
  have hbrq := h.sys.brq
  rw [hstate] at hbrq
  obtain ⟨hcore, -, -⟩ := hlink.core.clock h fun hasks => by rw [hbrq] at hasks; cases hasks
  obtain ⟨hwait, hcap⟩ := h.sys.busy (by rw [hstate]; exact ⟨by decide, by decide⟩)
  obtain ⟨haccess, -⟩ := Top.held h c hwait (by rw [hstate]; decide)
  have hfollows := h.sys.follows
  rw [hstate] at hfollows
  have hnext : (s.clock c).sys.m.state = .ack := (System.clock_state ..).trans hfollows
  have hrests := Top.rests c (fun i => (hregs i).1) hbrq
  refine ⟨hcore, ?_⟩
  simp only [Top.Stage, hnext, haccess]
  refine ⟨fun i => (hrests i).1, f, w, hexec, fun i => ?_, fun _ => ?_⟩
  · rw [(hrests i).2.2, (hregs i).2, tick_tick, hf i]
  · rw [Top.keeps_repData h c hstate, hrep]

/-- **One cycle** of an access that is taken, before the acknowledge. -/
theorem Top.Link.clock (hlink : s.Link f) (hstate : s.sys.m.state ≠ .ack)
    (hgood : s.sys.ep.waitAck = true → ∃ r, exec b f s.access = some r) : (s.clock c).Link f := by
  cases hm : s.sys.m.state with
  | idle => exact Top.Stage.idle h hf c hm hlink
  | brq => exact Top.Stage.brq h hf c hm hlink
  | as =>
    obtain ⟨r, hr⟩ := hgood (h.sys.busy (by rw [hm]; exact ⟨by decide, by decide⟩)).1
    have hstage := hlink.stage
    simp only [Top.Stage, hm] at hstage
    rcases hstage with ⟨hnext, hcalm, -, hfree⟩ | ⟨hnext, hdk, i, htakes, hat⟩
    · exact Top.Stage.taken h hf c hm hcalm hlink hnext hfree hr
    · exact Top.Stage.acked h hf c hm hlink hnext hdk htakes hat
  | data => exact Top.Stage.data h hf c hm hlink
  | reply => exact Top.Stage.reply h hf c hm hlink
  | ack => exact absurd hm hstate
  | done => exact Top.Stage.done h hf c hm hlink

omit hf in
/-- **The acknowledge**: the files are those after the access. -/
theorem Top.Stage.ack (hstate : s.sys.m.state = .ack) (hlink : s.Link f) :
    ∃ f' w, exec b f s.access = some (f', w) ∧ (s.clock c).Link f' ∧
      (s.clock c).sys.m.state = .done ∧
      (s.access.isRead = true → s.sys.m.repData = w.setWidth 64) := by
  have hstage := hlink.stage
  simp only [Top.Stage, hstate] at hstage
  obtain ⟨hquiet, f', w, hexec, hfiles, hrep⟩ := hstage
  have hbrq := h.sys.brq
  rw [hstate] at hbrq
  obtain ⟨hcore, -, -⟩ := hlink.core.clock h fun hasks => by rw [hbrq] at hasks; cases hasks
  have hfollows := h.sys.follows
  rw [hstate] at hfollows
  have hnext : (s.clock c).sys.m.state = .done := (System.clock_state ..).trans hfollows
  have hrests := Top.rests c hquiet hbrq
  refine ⟨f', w, hexec, ⟨hcore, ?_⟩, hnext, hrep⟩
  simp only [Top.Stage, hnext]
  exact fun i => ⟨(hrests i).1, (hrests i).2.1, (hrests i).2.2.trans (hfiles i)⟩

end Edge

/-! ### An access that nobody takes -/

/-- The request begins again and again. -/
structure Top.Stuck (s : Top b) (f : Files n) : Prop where
  wait : s.sys.ep.waitAck = true
  refused : exec b f s.access = none
  state : s.sys.m.state ≠ .data ∧ s.sys.m.state ≠ .reply ∧ s.sys.m.state ≠ .ack
  next : s.sys.m.nextState ≠ .data
  slaves : ∀ i, (s.regs i).rwRegs = f i ∧
    ((s.regs i).Quiet ∨ (s.regs i).Refused ∧ (b.gens i).selects (addrOf s.access) = true)
  quiet : s.sys.m.state = .idle ∨ s.sys.m.state = .brq → ∀ i, (s.regs i).Quiet

/-- Slaves that were not addressed, or refuse, do not acknowledge. -/
theorem Top.Consistent.dk_off {s : Top b} (h : s.Consistent)
    (hslaves : ∀ i, (s.regs i).Quiet ∨ (s.regs i).Refused) : s.sys.bus.dk = false := by
  have hoff : ∀ i, (s.regs i).dkO = false := by
    intro i
    rcases hslaves i with hquiet | hrefused
    · exact hquiet.dkO
    · rw [Regs.dkO, hrefused.sDk, Bool.and_false]
  rw [h.bus, busOf_eq]
  simp [hoff]

/-- A slave that refuses goes on, or is quiet again. -/
theorem Top.Stuck.slave {s : Top b} {f : Files n} (h : s.Consistent) (hf : Masked b f)
    (hstuck : s.Stuck f) (c : TopIn n) (i : Fin n) : ((s.clock c).regs i).rwRegs = f i ∧
      (((s.clock c).regs i).Quiet ∨
        ((s.clock c).regs i).Refused ∧ (b.gens i).selects (addrOf s.access) = true) := by
  obtain ⟨hrw, hslave⟩ := hstuck.slaves i
  have hin : (s.regsIn c i).lines = stateLines s.sys.m.state s.access := h.sys.lines
  have hkeep : (s.regs i).rwRegs = f i → (b.gens i).tick (b.sclr i) (s.regs i).rwRegs = f i := by
    intro hrw
    rw [hrw, hf i]
  rcases hslave with hquiet | ⟨hrefused, hsel⟩
  · by_cases hstate : s.sys.m.state = .as
    · rw [hstate] at hin
      cases hsel : (b.gens i).selects (addrOf s.access) with
      | true =>
        have hovf := exec_eq_none hstuck.refused i hsel
        obtain ⟨hrefused, hstore⟩ := hquiet.refuses (i := s.regsIn c i) rfl (by rw [hin]; rfl)
          (by rw [hin]; rfl) (by rw [hin]; rfl) (by rw [hin]; exact hsel) (by rw [hin]; exact hovf)
        exact ⟨hstore.trans (hkeep hrw), Or.inr ⟨hrefused, rfl⟩⟩
      | false =>
        obtain ⟨hquiet', -, hrw'⟩ := Top.away c hf hquiet hrw (Or.inr (by
          rw [h.sys.lines, hstate]
          exact ⟨rfl, hsel⟩))
        exact ⟨hrw', Or.inl hquiet'⟩
    · obtain ⟨hquiet', -, hrw'⟩ := Top.away c hf hquiet hrw (Or.inl (by
        rw [h.sys.lines]
        cases hm : s.sys.m.state with
        | as => exact absurd hm hstate
        | _ => rfl))
      exact ⟨hrw', Or.inl hquiet'⟩
  · cases hbmx : (s.regsIn c i).lines.bmx with
    | true =>
      obtain ⟨hrefused', hstore⟩ := hrefused.stays (i := s.regsIn c i) rfl hbmx
      exact ⟨hstore.trans (hkeep hrw), Or.inr ⟨hrefused', hsel⟩⟩
    | false =>
      obtain ⟨hquiet', -, hstore⟩ := hrefused.released (i := s.regsIn c i) hbmx
      exact ⟨hstore.trans (hkeep hrw), Or.inl hquiet'⟩

/-- Once the bus has been released no slave refuses any more. -/
theorem Top.Stuck.quiet_clock {s : Top b} {f : Files n} (h : s.Consistent) (hf : Masked b f)
    (hstuck : s.Stuck f) (c : TopIn n)
    (hstate : (s.clock c).sys.m.state = .idle ∨ (s.clock c).sys.m.state = .brq) (i : Fin n) :
    ((s.clock c).regs i).Quiet := by
  have hnext : (s.clock c).sys.m.state = s.sys.m.nextState := System.clock_state ..
  have hfollows := h.sys.follows
  have hlines := h.sys.lines
  obtain ⟨hrw, hslave⟩ := hstuck.slaves i
  have hoff : ((linesOf s.sys.m.out).bmx && (linesOf s.sys.m.out).as) = false →
      (s.regs i).Quiet → ((s.clock c).regs i).Quiet :=
    fun hl hquiet => (Top.away c hf hquiet hrw (Or.inl hl)).1
  cases hm : s.sys.m.state with
  | idle => exact hoff (by rw [hlines, hm]; rfl) (hstuck.quiet (Or.inl hm) i)
  | brq => exact hoff (by rw [hlines, hm]; rfl) (hstuck.quiet (Or.inr hm) i)
  | done =>
    rcases hslave with hquiet | ⟨hrefused, -⟩
    · exact hoff (by rw [hlines, hm]; rfl) hquiet
    · exact (hrefused.released (i := s.regsIn c i) (by
        show (linesOf s.sys.m.out).bmx = false
        rw [hlines, hm]
        rfl)).1
  | as =>
    rw [hm] at hfollows
    rw [hnext] at hstate
    rcases hfollows with hgo | hgo | hgo
    · rw [hgo] at hstate
      rcases hstate with hidle | hidle <;> cases hidle
    · exact absurd hgo hstuck.next
    · rw [hgo] at hstate
      rcases hstate with hidle | hidle <;> cases hidle
  | data => exact absurd hm hstuck.state.1
  | reply => exact absurd hm hstuck.state.2.1
  | ack => exact absurd hm hstuck.state.2.2

/-- **The access is never acknowledged**: there is no data phase. -/
theorem Top.Stuck.clock {s : Top b} {f : Files n} (h : s.Consistent) (hf : Masked b f)
    (hstuck : s.Stuck f) (c : TopIn n) : (s.clock c).Stuck f ∧ (s.clock c).access = s.access := by
  obtain ⟨haccess, hwait⟩ := Top.held h c hstuck.wait hstuck.state.2.2
  have hslaves := hstuck.slave h hf c
  have hnext : (s.clock c).sys.m.state = s.sys.m.nextState := System.clock_state ..
  have hnot := h.sys.follows.not_answer ⟨hstuck.state.1, hstuck.state.2.1⟩
  have hstuck' : (s.clock c).sys.m.nextState ≠ .data → (s.clock c).Stuck f := by
    intro hdata
    refine ⟨hwait, ?_, ?_, hdata, ?_, hstuck.quiet_clock h hf c⟩
    · rw [haccess]
      exact hstuck.refused
    · rw [hnext]
      exact ⟨hstuck.next, hnot⟩
    · rw [haccess]
      exact hslaves
  refine ⟨hstuck' ?_, haccess⟩
  by_cases hgo : s.sys.m.nextState = .as
  · have hdk := h.dk_off fun i => (hstuck.slaves i).2.imp id And.left
    have hdk' := (h.clock c).dk_off fun i => (hslaves i).2.imp id And.left
    rw [s.clock_bus c] at hdk'
    refine s.clock_keeps (fun next => next ≠ .data) c hgo ?_ (by decide)
    intro err dk next _ hd hkeep
    rw [hdk, hdk', or_self] at hd
    rw [hd, asLogic]
    split
    · decide
    · exact hkeep
  · intro hdata
    have hfollows := (h.clock c).sys.follows
    rw [hdata, hnext] at hfollows
    cases hm : s.sys.m.nextState with
    | as => exact hgo hm
    | data => exact hstuck.next hm
    | idle =>
      rw [hm] at hfollows
      rcases hfollows with hidle | ⟨hidle, -⟩
      · cases hidle
      · cases hidle
    | brq =>
      rw [hm] at hfollows
      rcases hfollows with hidle | hidle
      · cases hidle
      · cases hidle
    | reply => exact hnot.1 hm
    | ack => exact hnot.2 hm
    | done =>
      rw [hm] at hfollows
      cases hfollows

end VPcie.Ebone
