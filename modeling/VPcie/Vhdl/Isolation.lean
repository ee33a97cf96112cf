import VPcie.Vhdl.Transfer

/-!
# A transfer under way

What the host can and cannot do to a transfer once it has started, whatever it requests in whatever
cycle.  Address, size and the interrupt flag are captured in `write_start` and kept until the next;
the status register is set by the engine alone.

* `Dma.Reports` — the status and the interrupt are those of the state;
* `Dma.edge_captures`, `Dma.edge_keeps` — what an edge does to what is captured;
* `transfer_isolated` — the status bit, the captured values and the interrupt in every run.
-/

namespace VPcie.Vhdl

open VPcie.Lib

/-! ### One edge -/

/-- The bit D of a status. -/
def doneBit (sta : BitVec 64) : Bool := sta.getLsbD 31

/-- **Invariant.**  The interrupt and the status the engine is about to set are those of the
state. -/
structure Dma.Reports (d : Dma) : Prop where
  msiEn : d.out.msiEn = (decide (d.state = .writeDone) && d.out.dmaMsiEn)
  cleared : d.state = .writeStart → doneBit d.out.staSetData = false
  set : d.state = .writeDone → doneBit d.out.staSetData = true

theorem setLow_bit (d : BitVec 64) (x : BitVec 32) : doneBit (setLow d x) = x.getLsbD 31 := by
  rw [doneBit, setLow, BitVec.getLsbD_append]
  rfl

/-- What the output logic reports in a state. -/
theorem Moore.output_reports (m : Moore) (state : DmaState) (ctlData adhData adlData : BitVec 64)
    (off : BitVec 16) (ptr : BitVec 64) :
    let out := m.output state ctlData adhData adlData off ptr
    out.msiEn = (decide (state = .writeDone) && out.dmaMsiEn) ∧
      (state = .writeStart → doneBit out.staSetData = false) ∧
      (state = .writeDone → doneBit out.staSetData = true) := by
  cases state with
  | writeStart =>
    refine ⟨rfl, fun _ => ?_, nofun⟩
    exact (setLow_bit _ _).trans (BitVec.getLsbD_zero ..)
  | writeDone =>
    refine ⟨rfl, nofun, fun _ => ?_⟩
    show doneBit (setLow _ _) = true
    rw [setLow_bit, BitVec.getLsbD_append]
    rfl
  | _ => exact ⟨rfl, nofun, nofun⟩

section Edge

variable {d : Dma} (h : d.Consistent)
include h

/-- **Step lemma.** -/
theorem edge_reports (hreports : d.Reports) (req : Req) : (d.edge req).Reports := by
  by_cases heq : d.state = d.nextState
  · have hidle : (d.edge req).state = .idle := heq.symm.trans (h.stays heq)
    refine ⟨?_, ?_, ?_⟩
    · rw [d.edge_out_stays req heq, hidle, hreports.msiEn, h.stays heq]
    · rw [hidle]
      nofun
    · rw [hidle]
      nofun
  · obtain ⟨hmsi, hcleared, hset⟩ := d.out.output_reports d.nextState (d.edge req).ctl.regData
      (d.edge req).adh.regData (d.edge req).adl.regData d.off d.ptr
    rw [← d.edge_out req heq] at hmsi hcleared hset
    exact ⟨hmsi, hcleared, hset⟩

/-- **The bit D** changes on leaving `write_start` and `write_done` only. -/
theorem edge_doneBit (hreports : d.Reports) (req : Req) : doneBit (d.edge req).sta.data =
    match d.state with
    | .writeDone => true
    | .writeStart => false
    | _ => doneBit d.sta.data := by
  have hsta : (d.edge req).sta.data
      = if d.out.staSetEn then d.out.staSetData else d.sta.data := rfl
  rw [hsta, h.staSetEn]
  cases hstate : d.state with
  | writeStart => exact hreports.cleared hstate
  | writeDone => exact hreports.set hstate
  | _ => rfl

/-- What is captured is what the registers drive in `write_start`. -/
theorem Dma.edge_captures (hnext : d.nextState = .writeStart) (req : Req) :
    (d.edge req).out.size = (d.edge req).ctl.regData.setWidth 16 ∧
      (d.edge req).out.addr
        = (d.edge req).adh.regData.setWidth 32 ++ (d.edge req).adl.regData.setWidth 32 ∧
      (d.edge req).out.dmaMsiEn = (d.edge req).ctl.regData.getLsbD 30 := by
  have hne : d.state ≠ d.nextState := by
    rw [h.idle_of_start hnext, hnext]
    nofun
  rw [d.edge_out req hne, hnext]
  exact ⟨rfl, rfl, rfl⟩

omit h in
/-- Any other edge keeps it. -/
theorem Dma.edge_keeps (hnext : d.nextState ≠ .writeStart) (req : Req) :
    (d.edge req).out.size = d.out.size ∧ (d.edge req).out.addr = d.out.addr ∧
      (d.edge req).out.dmaMsiEn = d.out.dmaMsiEn := by
  by_cases heq : d.state = d.nextState
  · rw [d.edge_out_stays req heq]
    exact ⟨rfl, rfl, rfl⟩
  · rw [d.edge_out req heq]
    cases hstate : d.nextState with
    | writeStart => exact absurd hstate hnext
    | _ => exact ⟨rfl, rfl, rfl⟩

end Edge

/-! ### Transfers -/

/-- The states of a transfer that has started. -/
def DmaState.InTransfer (state : DmaState) : Prop :=
  state = .writeOne ∨ state = .writeNext ∨ state = .writeDone

instance (state : DmaState) : Decidable state.InTransfer :=
  inferInstanceAs (Decidable (_ ∨ _ ∨ _))

/-- Such a state follows `write_start` or another one, which is not the last. -/
theorem inTransfer_of_next {state : DmaState} {ctlData : BitVec 64} {off size : BitVec 16}
    (h : (nextStateLogic state ctlData off size).InTransfer) :
    state = .writeStart ∨ state.InTransfer ∧ state ≠ .writeDone := by
  have hfollows := nextStateLogic_follows state ctlData off size
  generalize nextStateLogic state ctlData off size = next at h hfollows
  cases hfollows with
  | started => exact Or.inl rfl
  | written => exact Or.inr ⟨Or.inl rfl, by decide⟩
  | goesOn => exact Or.inr ⟨Or.inr (Or.inl rfl), by decide⟩
  | ends => exact Or.inr ⟨Or.inr (Or.inl rfl), by decide⟩
  | stays | starts | done => exact absurd h (by decide)

/-- The transfer under way in cycle `n` has started in cycle `m`. -/
structure UnderWay (st : ℕ → Dma) (m n : ℕ) : Prop where
  lt : m < n
  start : (st m).state = .writeStart
  states : ∀ k, m < k → k ≤ n → (st k).state.InTransfer

/-- What the engine uses in cycle `n` are the values that the registers had on the edge that entered
`write_start`, which they drive in this cycle `m`. -/
structure CapturedAt (st : ℕ → Dma) (m n : ℕ) : Prop where
  size : (st n).out.size = (st m).ctl.regData.setWidth 16
  addr : (st n).out.addr = (st m).adh.regData.setWidth 32 ++ (st m).adl.regData.setWidth 32
  msiEn : (st n).out.dmaMsiEn = (st m).ctl.regData.getLsbD 30

section Run

variable (reqs : ℕ → Req) (n : ℕ)

theorem afterReset_reports : (afterReset reqs n).Reports := by
  induction n with
  | zero => exact ⟨rfl, nofun, nofun⟩
  | succ n ih => exact edge_reports (afterReset_consistent reqs n) ih (reqs n)

theorem captured_start (hstart : (afterReset reqs n).state = .writeStart) :
    CapturedAt (afterReset reqs) n n := by
  cases n with
  | zero => cases hstart
  | succ n =>
    obtain ⟨hsize, haddr, hmsi⟩ :=
      Dma.edge_captures (afterReset_consistent reqs n) hstart (reqs n)
    exact ⟨hsize, haddr, hmsi⟩

variable {n}

theorem CapturedAt.succ {m : ℕ} (h : CapturedAt (afterReset reqs) m n)
    (hnext : (afterReset reqs n).nextState ≠ .writeStart) :
    CapturedAt (afterReset reqs) m (n + 1) := by
  obtain ⟨hsize, haddr, hmsi⟩ := Dma.edge_keeps hnext (reqs n)
  exact ⟨hsize.trans h.size, haddr.trans h.addr, hmsi.trans h.msiEn⟩

/-- **Run lemma**: the transfer under way. -/
theorem underWay (hin : (afterReset reqs n).state.InTransfer) :
    doneBit (afterReset reqs n).sta.data = false ∧
      ∃ m, UnderWay (afterReset reqs) m n ∧ CapturedAt (afterReset reqs) m n := by
  induction n with
  | zero => rcases hin with h | h | h <;> cases h
  | succ n ih =>
    have hconsistent := afterReset_consistent reqs n
    have hbit := edge_doneBit hconsistent (afterReset_reports reqs n) (reqs n)
    have hnext : (afterReset reqs n).nextState ≠ .writeStart := by
      intro hstart
      rw [afterReset_succ, Dma.edge_state, hstart] at hin
      rcases hin with h | h | h <;> cases h
    have hprev : (nextStateLogic (afterReset reqs n).state (afterReset reqs n).ctl.regData
        (afterReset reqs n).off (afterReset reqs n).out.size).InTransfer := by
      rw [← hconsistent.next]
      exact hin
    rcases inTransfer_of_next hprev with hstart | ⟨hgoes, hlast⟩
    · refine ⟨?_, n, ⟨Nat.lt_succ_self n, hstart, ?_⟩,
        (captured_start reqs n hstart).succ reqs hnext⟩
      · rw [hstart] at hbit
        exact hbit
      · intro k hk hkn
        obtain rfl : k = n + 1 := by omega
        exact hin
    · obtain ⟨hclear, m, hunder, hcaptured⟩ := ih hgoes
      refine ⟨?_, m, ⟨Nat.lt_succ_of_lt hunder.lt, hunder.start, ?_⟩, hcaptured.succ reqs hnext⟩
      · show doneBit ((afterReset reqs n).edge (reqs n)).sta.data = false
        rw [hbit]
        rcases hgoes with hs | hs | hs
        · rw [hs]
          exact hclear
        · rw [hs]
          exact hclear
        · exact absurd hs hlast
      · intro k hk hkn
        rcases Nat.lt_or_ge n k with hlt | hge
        · obtain rfl : k = n + 1 := by omega
          exact hin
        · exact hunder.states k hk hge

/-- A cycle belongs to one transfer at most. -/
theorem UnderWay.unique {st : ℕ → Dma} {m m' : ℕ} (h : UnderWay st m n) (h' : UnderWay st m' n) :
    m = m' := by
  have hstart : ∀ k, (st k).state = .writeStart → ¬(st k).state.InTransfer := by
    intro k hk hin
    rw [hk] at hin
    rcases hin with hs | hs | hs <;> cases hs
  rcases Nat.lt_trichotomy m m' with hlt | heq | hlt
  · exact absurd (h.states m' hlt (Nat.le_of_lt h'.lt)) (hstart m' h'.start)
  · exact heq
  · exact absurd (h'.states m hlt (Nat.le_of_lt h.lt)) (hstart m h.start)

variable (n)

/-- **A transfer is isolated from the host**, for any requests in any cycles.  While it is under way
the bit D of the status is clear, and address, size and interrupt flag are as captured; the bit D is
set on leaving `write_done` and cleared on leaving `write_start`, and kept otherwise; the interrupt
is asserted in the one cycle of `write_done` if the flag was captured. -/
theorem transfer_isolated :
    ((afterReset reqs n).state.InTransfer → doneBit (afterReset reqs n).sta.data = false ∧
      ∃ m, UnderWay (afterReset reqs) m n ∧ CapturedAt (afterReset reqs) m n) ∧
    (doneBit (afterReset reqs (n + 1)).sta.data =
      match (afterReset reqs n).state with
      | .writeDone => true
      | .writeStart => false
      | _ => doneBit (afterReset reqs n).sta.data) ∧
    ((afterReset reqs n).out.msiEn = true ↔ (afterReset reqs n).state = .writeDone ∧
      ∃ m, UnderWay (afterReset reqs) m n ∧ (afterReset reqs m).ctl.regData.getLsbD 30 = true) ∧
    ((afterReset reqs n).state = .writeDone → (afterReset reqs (n + 1)).state = .idle) := by
  have hconsistent := afterReset_consistent reqs n
  have hreports := afterReset_reports reqs n
  refine ⟨underWay reqs, edge_doneBit hconsistent hreports (reqs n), ?_, ?_⟩
  · rw [hreports.msiEn, Bool.and_eq_true, decide_eq_true_eq]
    refine and_congr_right fun hdone => ?_
    obtain ⟨-, m, hunder, hcaptured⟩ := underWay reqs (Or.inr (Or.inr hdone))
    rw [hcaptured.msiEn]
    constructor
    · intro hflag
      exact ⟨m, hunder, hflag⟩
    · rintro ⟨m', hunder', hflag⟩
      rw [hunder.unique hunder']
      exact hflag
  · intro hdone
    rw [afterReset_succ, Dma.edge_state, hconsistent.next, hdone]
    rfl

end Run

end VPcie.Vhdl
