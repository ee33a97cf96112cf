import VPcie.Ebone.RegsServed

/-!
# The assertions on the slaves of the interconnect core

The eight properties of `ebs_core.psl` on the slaves, on the signals that the rising edges sample.
`rose` and `fell` compare two edges; an `abort` ends what is asked for.  The three on the fast
transmitter are left out: it is silent here, as is slave 0, which is reserved for it; the second
master is tied to zero.

* `Sampled` — the signals, `SlaveAssertions` — the properties, one field for each;
* `Top.Acks` — one slave acknowledges, and drives no error;
* `slaveAssertions_hold` — the properties hold in every run with register slaves.
-/

namespace VPcie.Ebone

open VPcie.Lib VPcie.Glue
open VPcie.Vhdl (Req Endpoint hasSize)

variable {n : ℕ} {b : BusConfig n}

/-! ### The properties -/

/-- The signals of the core that the properties are about; the slaves are those from 1 on. -/
structure Sampled (n : ℕ) where
  m0 : MasterLines
  m1 : MasterLines
  bmx : Bool
  dk : Fin n → Bool
  err : Fin n → Bool

/-- `eb_m0_as_i OR eb_m1_as_i`. -/
def Sampled.as (s : Sampled n) : Bool := s.m0.as || s.m1.as

/-- `countones`. -/
def countones (f : Fin n → Bool) : ℕ := (List.finRange n).countP f

/-- `rose` from one edge to the next. -/
def rose (x y : Bool) : Prop := x = false ∧ y = true

/-- `fell` from one edge to the next. -/
def fell (x y : Bool) : Prop := x = true ∧ y = false

/-- The properties, each `always`. -/
structure SlaveAssertions (t : ℕ → Sampled n) : Prop where
  slv_quiet_ctrl : ∀ k i, (t k).bmx = false → (t k).dk i = false ∧ (t k).err i = false
  slv_single : ∀ k, (t k).as = true → (t k).m0.eof = false ∧ (t k).m1.eof = false →
    countones (t k).dk < 2 ∨ countones (t k).err < 2
  as_to_ctrl : ∀ k i, rose (t k).m0.as (t (k + 1)).m0.as ∨ rose (t k).m1.as (t (k + 1)).m1.as →
    (t (k + 1)).dk i = false ∧ (t (k + 1)).err i = false
  dk_to_as : ∀ k i, (t k).as = true → (t (k + 1)).as = true → (t k).dk i = true →
    (t (k + 1)).dk i = true
  dk_to_err : ∀ k i, (t k).dk i = true → ¬rose ((t k).err i) ((t (k + 1)).err i)
  dk_to_dk : ∀ k i, fell ((t k).dk i) ((t (k + 1)).dk i) → ∀ j < 3,
    (∀ l ≤ j, (t (k + 1 + l)).bmx = true) → (t (k + 1 + j)).dk i = false
  err_to_as : ∀ k i, (t k).as = true → (t (k + 1)).as = true → (t k).err i = true →
    (t (k + 1)).err i = true
  err_to_dk : ∀ k i, (t k).err i = true → ¬rose ((t k).dk i) ((t (k + 1)).dk i)

/-- What an edge samples. -/
def Top.sampled (s : Top b) : Sampled n where
  m0 := ⟨s.sys.m.out.brq, s.sys.m.out.as, s.sys.m.out.eof, s.sys.m.out.aef, s.sys.m.out.dat⟩
  m1 := .silent
  bmx := s.sys.bus.bmx
  dk i := (s.regs i).dkO
  err i := (s.regs i).errO (linesOf s.sys.m.out)

/-! ### Who drives the bus -/

/-- One slave acknowledges. -/
structure Top.Acks (s : Top b) (i : Fin n) : Prop where
  state : s.sys.m.state = .as ∧ s.sys.m.nextState = .data ∨ s.sys.m.state = .data
  selects : (b.gens i).selects (addrOf s.access) = true
  dk : (s.regs i).dkO = true
  err : ∀ l, (s.regs i).errO l = false
  others : ∀ j, j ≠ i → (s.regs j).Quiet

/-- A slave that is served a burst raises no error. -/
theorem Regs.errO_of_state {g : RegsGenerics} {s : Regs g}
    (h : s.state = .adrs ∨ s.state = .wr1 ∨ s.state = .rd1) (l : Lines) : s.errO l = false := by
  rw [Regs.errO, Bool.and_eq_false_iff]
  right
  rcases h with h | h | h
  · simp only [Regs.ctl, h]
    split <;> rfl
  · simp only [Regs.ctl, h]
    split_ifs <;> rfl
  · simp only [Regs.ctl, h]
    split_ifs <;> rfl

/-- In the data phase a slave acknowledges. -/
theorem Top.Stage.acks_data {s : Top b} {f : Files n} (hstage : s.Stage f)
    (hm : s.sys.m.state = .data) : ∃ i, s.Acks i := by
  simp only [Top.Stage, hm] at hstage
  obtain ⟨-, i, htakes, hword⟩ := hstage
  have hplace := place_lt (b := b) i s.access
  by_cases hread : s.access.isRead = true
  · rw [if_pos hread] at hword
    obtain ⟨hreads, -⟩ := hword
    obtain ⟨hmyself, hsDk, -, -⟩ := hreads.acks hplace
    exact ⟨i, Or.inr hm, htakes.selects, by rw [Regs.dkO, hmyself, hsDk]; rfl,
      Regs.errO_of_state (Or.inr (Or.inr hreads.state)), htakes.others⟩
  · rw [if_neg hread] at hword
    obtain ⟨hmyself, hsDk, -⟩ := hword.acks (Nat.le_of_lt hplace)
    exact ⟨i, Or.inr hm, htakes.selects, by rw [Regs.dkO, hmyself, hsDk]; rfl,
      Regs.errO_of_state (Or.inr (Or.inl hword.state)), htakes.others⟩

/-- While an access is served nobody drives the bus, or one slave acknowledges. -/
theorem Top.Stage.drivers {s : Top b} {f : Files n} (hstage : s.Stage f) :
    (∀ i, (s.regs i).Quiet) ∨ ∃ i, s.Acks i := by
  cases hm : s.sys.m.state with
  | data => exact Or.inr (hstage.acks_data hm)
  | as =>
    simp only [Top.Stage, hm] at hstage
    rcases hstage with ⟨-, hcalm, -⟩ | ⟨hnext, -, i, htakes, hat⟩
    · exact Or.inl fun i => (hcalm i).1
    · exact Or.inr ⟨i, Or.inl ⟨hm, hnext⟩, htakes.selects,
        by rw [Regs.dkO, hat.myself, hat.sDk]; rfl, Regs.errO_of_state (Or.inl hat.state),
        htakes.others⟩
  | idle =>
    simp only [Top.Stage, hm] at hstage
    exact Or.inl fun i => (hstage i).1
  | done =>
    simp only [Top.Stage, hm] at hstage
    exact Or.inl fun i => (hstage i).1
  | brq =>
    simp only [Top.Stage, hm] at hstage
    exact Or.inl fun i => (hstage.1 i).1
  | reply =>
    simp only [Top.Stage, hm] at hstage
    exact Or.inl fun i => (hstage.1 i).1
  | ack =>
    simp only [Top.Stage, hm] at hstage
    exact Or.inl hstage.1

section Signals

variable {s : Top b}

theorem Top.Acks.only {i : Fin n} (h : s.Acks i) {j : Fin n} (hj : (s.regs j).dkO = true) :
    j = i := by
  by_contra hne
  rw [(h.others j hne).dkO] at hj
  cases hj

theorem Top.Acks.noErr {i : Fin n} (h : s.Acks i) (j : Fin n) (l : Lines) :
    (s.regs j).errO l = false := by
  by_cases hj : j = i
  · rw [hj]
    exact h.err l
  · exact (h.others j hj).errO l

/-- A slave that refuses raises its error while the bus is busy. -/
theorem Regs.Refused.errO_free {g : RegsGenerics} {r : Regs g} (h : r.Refused) {l : Lines}
    (hbmx : l.bmx = false) : r.errO l = false := by
  rw [Regs.errO, Bool.and_eq_false_iff]
  right
  simp only [Regs.ctl, h.state, hbmx, Bool.false_eq_true, if_false]
  rfl

theorem Top.Stuck.dkO {f : Files n} (h : s.Stuck f) (i : Fin n) : (s.regs i).dkO = false := by
  rcases (h.slaves i).2 with hquiet | ⟨hrefused, -⟩
  · exact hquiet.dkO
  · rw [Regs.dkO, hrefused.sDk, Bool.and_false]

variable (h : s.Consistent)
include h

theorem Top.Consistent.bmx : s.sys.bus.bmx = s.sys.m.out.brq := by
  rw [h.bus, busOf_eq]

theorem Top.Consistent.as : s.sys.m.out.as = decide (s.sys.m.state = .as) := by
  rw [h.sys.out]
  exact (outputLogic_strobes ..).1

/-- The bus is not free while a slave acknowledges. -/
theorem Top.Acks.bmx {i : Fin n} (hacks : s.Acks i) : s.sys.bus.bmx = true := by
  rw [h.bmx, h.sys.brq]
  rcases hacks.state with ⟨hm, -⟩ | hm
  · rw [hm]
    rfl
  · rw [hm]
    rfl

/-- A slave that drives an error ends the addressing phase. -/
theorem Top.Consistent.next_err {i : Fin n} (hstate : s.sys.m.state = .as)
    (herr : (s.regs i).errO (linesOf s.sys.m.out) = true) : s.sys.m.nextState = .done := by
  have hbus : s.sys.bus.err = true := by
    rw [h.bus, busOf_eq]
    have hany : ((List.finRange n).any fun j => (s.regs j).errO (linesOf s.sys.m.out)) = true :=
      List.any_eq_true.mpr ⟨i, List.mem_finRange i, herr⟩
    rw [hany]
    rfl
  have hsettled := h.settled
  rw [System.Settled] at hsettled
  rw [hsettled]
  simp [nextStateLogic, nextIn, hstate, hbus]

/-- The addressing phase begins with nobody driving the bus. -/
theorem Top.Goes.address_quiet {f : Files n} (hf : Masked b f) (hgoes : s.Goes f) (c : TopIn n)
    (hbefore : s.sys.m.state ≠ .as) (hafter : (s.clock c).sys.m.state = .as) (i : Fin n) :
    ((s.clock c).regs i).Quiet := by
  have hnext : (s.clock c).sys.m.state = s.sys.m.nextState := System.clock_state ..
  rw [hafter] at hnext
  have hfollows := h.sys.follows
  rw [← hnext] at hfollows
  have hm : s.sys.m.state = .brq := by
    cases hm : s.sys.m.state with
    | brq => rfl
    | as => exact absurd hm hbefore
    | idle =>
      rw [hm] at hfollows
      rcases hfollows with hidle | ⟨hidle, -⟩
      · cases hidle
      · cases hidle
    | data =>
      rw [hm, MayFollow] at hfollows
      split at hfollows
      · cases hfollows
      · cases hfollows
    | reply =>
      rw [hm] at hfollows
      cases hfollows
    | ack =>
      rw [hm] at hfollows
      cases hfollows
    | done =>
      rw [hm] at hfollows
      cases hfollows
  have hoff : ((linesOf s.sys.m.out).bmx && (linesOf s.sys.m.out).as) = false := by
    rw [h.sys.lines, hm]
    rfl
  rcases hgoes with ⟨hlink, -⟩ | hstuck
  · have hstage := hlink.stage
    simp only [Top.Stage, hm] at hstage
    exact (Top.away c hf (hstage.1 i).1 (hstage.1 i).2.2 (Or.inl hoff)).1
  · exact (Top.away c hf (hstuck.quiet (Or.inr hm) i) (hstuck.slaves i).1 (Or.inl hoff)).1

end Signals

/-- At most one line is up. -/
theorem countones_lt {f : Fin n → Bool} {k : Fin n} (h : ∀ i, f i = true → i = k) :
    countones f < 2 := by
  have hle : countones f ≤ (List.finRange n).count k :=
    List.countP_mono_left fun i _ hi => by simpa using h i hi
  have hone := List.nodup_iff_count_le_one.mp (List.nodup_finRange n) k
  omega

theorem countones_zero {f : Fin n → Bool} (h : ∀ i, f i = false) : countones f < 2 := by
  have hzero : countones f = 0 := List.countP_eq_zero.mpr fun i _ => by simp [h i]
  omega

/-! ### The properties hold -/

section Step

variable {s : Top b} {f : Files n}

theorem Top.Goes.slv_quiet_ctrl (hgoes : s.Goes f) (h : s.Consistent)
    (hfree : s.sys.bus.bmx = false) (i : Fin n) :
    (s.regs i).dkO = false ∧ (s.regs i).errO (linesOf s.sys.m.out) = false := by
  rcases hgoes with ⟨hlink, -⟩ | hstuck
  · rcases hlink.stage.drivers with hquiet | ⟨j, hacks⟩
    · exact ⟨(hquiet i).dkO, (hquiet i).errO _⟩
    · rw [hacks.bmx h] at hfree
      cases hfree
  · refine ⟨hstuck.dkO i, ?_⟩
    rcases (hstuck.slaves i).2 with hquiet | ⟨hrefused, -⟩
    · exact hquiet.errO _
    · refine hrefused.errO_free ?_
      rw [h.bmx] at hfree
      rw [linesOf_eq, hfree]
      rfl

theorem Top.Goes.slv_single (hgoes : s.Goes f) : countones (fun i => (s.regs i).dkO) < 2 := by
  rcases hgoes with ⟨hlink, -⟩ | hstuck
  · rcases hlink.stage.drivers with hquiet | ⟨j, hacks⟩
    · exact countones_zero fun i => (hquiet i).dkO
    · exact countones_lt fun i hi => hacks.only hi
  · exact countones_zero hstuck.dkO

/-- A slave that drives an error has refused the access. -/
theorem Top.Goes.stuck_of_err (hgoes : s.Goes f) {i : Fin n}
    (herr : (s.regs i).errO (linesOf s.sys.m.out) = true) : s.Stuck f := by
  rcases hgoes with ⟨hlink, -⟩ | hstuck
  · rcases hlink.stage.drivers with hquiet | ⟨j, hacks⟩
    · rw [(hquiet i).errO] at herr
      cases herr
    · rw [hacks.noErr i] at herr
      cases herr
  · exact hstuck

variable (h : s.Consistent) (hf : Masked b f) (hgoes : s.Goes f) (c : TopIn n)
include h hf hgoes

/-- A slave that acknowledges is serving the access. -/
theorem Top.Goes.acks_of_dk {i : Fin n} (hdk : (s.regs i).dkO = true) :
    s.Acks i ∧ (s.clock c).Link f := by
  rcases hgoes with ⟨hlink, hgood⟩ | hstuck
  · rcases hlink.stage.drivers with hquiet | ⟨j, hacks⟩
    · rw [(hquiet i).dkO] at hdk
      cases hdk
    · have hstate : s.sys.m.state ≠ .ack := by
        rcases hacks.state with ⟨hm, -⟩ | hm
        · rw [hm]
          decide
        · rw [hm]
          decide
      rw [hacks.only hdk]
      exact ⟨hacks, hlink.clock h hf c hstate hgood⟩
  · rw [hstuck.dkO i] at hdk
    cases hdk

/-- The acknowledge falls only when the bus is released. -/
theorem Top.Goes.dk_to_dk {i : Fin n} (hdk : (s.regs i).dkO = true)
    (hbmx : (s.clock c).sys.bus.bmx = true) : ((s.clock c).regs i).dkO = true := by
  obtain ⟨hacks, hlink'⟩ := Top.Goes.acks_of_dk h hf hgoes c hdk
  have hnext : (s.clock c).sys.m.state = s.sys.m.nextState := System.clock_state ..
  rcases hacks.state with ⟨hm, hgo⟩ | hm
  · obtain ⟨j, hacks'⟩ := hlink'.stage.acks_data (hnext.trans hgo)
    obtain ⟨hwait, -⟩ := h.sys.busy (by rw [hm]; exact ⟨by decide, by decide⟩)
    obtain ⟨haccess, -⟩ := Top.held h c hwait (by rw [hm]; decide)
    have hsel := hacks'.selects
    rw [haccess] at hsel
    rw [b.apart i j _ hacks.selects hsel]
    exact hacks'.dk
  · have hfollows := h.sys.follows
    rw [hm, MayFollow] at hfollows
    rw [(h.clock c).bmx, (h.clock c).sys.brq, hnext, hfollows] at hbmx
    split at hbmx
    · cases hbmx
    · cases hbmx

/-- It does not outlast the addressing phase by itself. -/
theorem Top.Goes.dk_to_as {i : Fin n} (hdk : (s.regs i).dkO = true)
    (has : s.sys.m.state = .as) : (s.clock c).sys.m.state ≠ .as := by
  obtain ⟨hacks, -⟩ := Top.Goes.acks_of_dk h hf hgoes c hdk
  have hnext : (s.clock c).sys.m.state = s.sys.m.nextState := System.clock_state ..
  rcases hacks.state with ⟨-, hgo⟩ | hm
  · rw [hnext, hgo]
    decide
  · rw [has] at hm
    cases hm

end Step

/-- **The assertions on the slaves hold** in every run with register slaves and a silent fast
transmitter, whatever arrives in whatever cycle. -/
theorem slaveAssertions_hold (b : BusConfig n) (ins : ℕ → TopIn n) :
    SlaveAssertions fun k => (Top.after b ins k).sampled := by
  have hgoes : ∀ k, ∃ f, (Top.after b ins k).Consistent ∧ Masked b f ∧
      (Top.after b ins k).Goes f := by
    intro k
    obtain ⟨served, f, ws, h⟩ := run_serves (b := b) ins k
    exact ⟨f, h.consistent, h.masked, h.goes⟩
  have hclock : ∀ k, Top.after b ins (k + 1) = (Top.after b ins k).clock (ins k) := fun _ => rfl
  have has : ∀ k,
      (Top.after b ins k).sampled.as = decide ((Top.after b ins k).sys.m.state = .as) := by
    intro k
    obtain ⟨f, h, -, -⟩ := hgoes k
    show ((Top.after b ins k).sys.m.out.as || false) = _
    rw [Bool.or_false, h.as]
  constructor
  case slv_quiet_ctrl =>
    intro k i hbmx
    obtain ⟨f, h, hf, hg⟩ := hgoes k
    exact hg.slv_quiet_ctrl h hbmx i
  case slv_single =>
    intro k _ _
    obtain ⟨f, h, hf, hg⟩ := hgoes k
    exact Or.inl hg.slv_single
  case as_to_ctrl =>
    intro k i hrose
    obtain ⟨f, h, hf, hg⟩ := hgoes k
    rcases hrose with ⟨hbefore, hafter⟩ | ⟨-, hafter⟩
    · have hquiet := Top.Goes.address_quiet h hf hg (ins k)
        (of_decide_eq_false (h.as.symm.trans hbefore))
        (of_decide_eq_true ((h.clock (ins k)).as.symm.trans hafter)) i
      exact ⟨hquiet.dkO, hquiet.errO _⟩
    · cases hafter
  case dk_to_as =>
    intro k i hnow hnext hdk
    obtain ⟨f, h, hf, hg⟩ := hgoes k
    rw [has] at hnow hnext
    exact absurd (of_decide_eq_true hnext)
      (Top.Goes.dk_to_as h hf hg (ins k) hdk (of_decide_eq_true hnow))
  case dk_to_err =>
    intro k i hdk hrose
    obtain ⟨f, h, hf, hg⟩ := hgoes k
    obtain ⟨-, hlink'⟩ := Top.Goes.acks_of_dk h hf hg (ins k) hdk
    have herr : ((Top.after b ins (k + 1)).regs i).errO
        (linesOf (Top.after b ins (k + 1)).sys.m.out) = false := by
      rcases hlink'.stage.drivers with hquiet | ⟨j, hacks⟩
      · exact (hquiet i).errO _
      · exact hacks.noErr i _
    exact absurd (herr.symm.trans hrose.2) (by decide)
  case dk_to_dk =>
    intro k i hfell j _ hbmx
    obtain ⟨f, h, hf, hg⟩ := hgoes k
    have hstays := Top.Goes.dk_to_dk h hf hg (ins k) hfell.1 (hbmx 0 (Nat.zero_le j))
    exact absurd (hstays.symm.trans hfell.2) (by decide)
  case err_to_as =>
    intro k i hnow hnext herr
    obtain ⟨f, h, hf, hg⟩ := hgoes k
    rw [has] at hnow hnext
    have hdone := h.next_err (of_decide_eq_true hnow) herr
    have hstate : (Top.after b ins (k + 1)).sys.m.state = .done :=
      (System.clock_state ..).trans hdone
    rw [hstate] at hnext
    cases hnext
  case err_to_dk =>
    intro k i herr hrose
    obtain ⟨f, h, hf, hg⟩ := hgoes k
    have hstuck := hg.stuck_of_err herr
    have hoff := (hstuck.clock h hf (ins k)).1.dkO i
    exact absurd (hoff.symm.trans hrose.2) (by decide)

end VPcie.Ebone
