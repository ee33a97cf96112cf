import VPcie.Ebone.RegsAccess

/-!
# The register slaves serve the accesses

* `Top.Serves` — what has been popped and replied, and the register files;
* `run_serves` — it holds in every run;
* `accesses_served` — the replies are those of the register files, in the order of the accesses;
* `Top.load` — the cycles that the accesses which have arrived take at most;
* `accesses_progress` — once they are over, all that has arrived has been served.
-/

namespace VPcie.Ebone

open VPcie.Lib VPcie.Glue
open VPcie.Vhdl (Req Endpoint hasSize)

variable {n : ℕ} {b : BusConfig n}

/-! ### The history -/

/-- What a cycle shows. -/
def Top.events (s : Top b) (c : TopIn n) : List Event := s.sys.events (s.cycle c)

/-- What is replied, in the order it is shown. -/
def replied (es : List Event) : List (BitVec 64) :=
  es.filterMap fun
    | .rep data => some data
    | _ => none

theorem replied_append (es fs : List Event) : replied (es ++ fs) = replied es ++ replied fs :=
  List.filterMap_append

theorem popped_append (es fs : List Event) : popped (es ++ fs) = popped es ++ popped fs :=
  List.filterMap_append

/-- The access the endpoint waits for, if it does. -/
def Top.current (s : Top b) : List AccessView := if s.sys.ep.waitAck then [s.access] else []

/-- The reply to an access that is to be acknowledged. -/
def Top.pending (s : Top b) : List (BitVec 64) :=
  if s.sys.m.state = .ack then if s.access.isRead then [s.sys.m.repData] else [] else []

/-- The access is served, or nobody takes it. -/
def Top.Goes (s : Top b) (f : Files n) : Prop :=
  (s.Link f ∧ (s.sys.ep.waitAck = true → ∃ r, exec b f s.access = some r)) ∨ s.Stuck f

/-- What has been popped and replied. -/
structure Top.Serves (f₀ : Files n) (log : List Event) (s : Top b) (served : List AccessView)
    (f : Files n) (ws : List (BitVec 64)) : Prop where
  consistent : s.Consistent
  masked : Masked b f
  done : execAll b f₀ served = some (f, ws)
  pops : popped log = served ++ s.current
  replies : replied log = ws ++ s.pending
  goes : s.Goes f

/-! ### One cycle -/

theorem replied_events {s : System} (h : s.Consistent) (c : Cycle) :
    replied (s.events c) = if s.m.state = .reply then [s.m.repData] else [] := by
  have hpops : ∀ as : List AccessView, replied (as.map Event.pop) = [] := by
    intro as
    simp [replied]
  rw [System.events, replied_append, hpops, List.append_nil, h.masterEvents]
  cases s.m.state with
  | _ => rfl

/-- The endpoint that is free accepts an access, or finds none. -/
theorem Top.polls {s : Top b} (c : TopIn n)
    (hfree : s.sys.ep.waitAck = true → s.sys.m.out.reqAck = true) :
    (s.sys.accepted (s.cycle c)).toList = (s.clock c).current := by
  rcases s.sys.ep.clock_cases s.sys.m.out.reqAck s.sys.req.data (s.sys.fifo ++ c.arrivals) with
    ⟨hwait, hack, -, -⟩ | ⟨-, a, rest, -, haccepted, -, hclock⟩ |
      ⟨-, haccepted, access, rest, -, -, hclock⟩
  · rw [hfree hwait] at hack
    cases hack
  · have hep : (s.clock c).sys.ep = ⟨a, true⟩ := congrArg Prod.fst hclock
    rw [Top.current, Top.access, hep]
    exact congrArg Option.toList haccepted
  · have hep : (s.clock c).sys.ep.waitAck = false := by
      show (s.sys.ep.clock s.sys.m.out.reqAck s.sys.req.data (s.sys.fifo ++ c.arrivals)).1.waitAck
        = false
      rw [hclock]
    rw [Top.current, hep]
    exact congrArg Option.toList haccepted

/-- The endpoint that waits accepts none. -/
theorem Top.waits {s : Top b} (h : s.Consistent) (c : TopIn n)
    (hwait : s.sys.ep.waitAck = true) (hstate : s.sys.m.state ≠ .ack) :
    s.sys.accepted (s.cycle c) = none ∧ (s.clock c).current = s.current := by
  have hack : s.sys.m.out.reqAck = false := by
    rw [h.sys.reqAck]
    exact decide_eq_false hstate
  obtain ⟨hnone, hep⟩ := System.hold hwait hack (s.cycle c)
  refine ⟨hnone, ?_⟩
  have hsame : (s.clock c).sys.ep = s.sys.ep := hep
  rw [Top.current, Top.current, Top.access, Top.access, hsame]

/-- An access that has just been popped is taken, or is not. -/
theorem Top.Link.goes {s : Top b} {f : Files n} (h : s.Consistent) (hlink : s.Link f)
    (hstate : s.sys.m.state = .idle ∨ s.sys.m.state = .done) : s.Goes f := by
  have hcalm : s.Calm f := by
    have hstage := hlink.stage
    rcases hstate with hm | hm
    · simp only [Top.Stage, hm] at hstage
      exact hstage
    · simp only [Top.Stage, hm] at hstage
      exact hstage
  have hnext : s.sys.m.nextState ≠ .data := by
    have hfollows := h.sys.follows
    intro hdata
    rw [hdata] at hfollows
    rcases hstate with hm | hm
    · rw [hm] at hfollows
      rcases hfollows with hidle | ⟨hidle, -⟩
      · cases hidle
      · cases hidle
    · rw [hm] at hfollows
      cases hfollows
  cases hexec : exec b f s.access with
  | some r => exact Or.inl ⟨hlink, fun _ => ⟨r, hexec⟩⟩
  | none =>
    cases hwait : s.sys.ep.waitAck with
    | false => exact Or.inl ⟨hlink, fun htrue => by rw [hwait] at htrue; cases htrue⟩
    | true =>
      refine Or.inr ⟨hwait, hexec, ?_, hnext, fun i => ⟨(hcalm i).2.2, Or.inl (hcalm i).1⟩,
        fun _ i => (hcalm i).1⟩
      rcases hstate with hm | hm
      · rw [hm]
        decide
      · rw [hm]
        decide

/-- Where nothing is asked for the master waits for a request, or will. -/
theorem System.Consistent.free_state {s : System} (h : s.Consistent)
    (hwait : s.ep.waitAck = false) : s.m.state = .idle ∨ s.m.state = .done := by
  by_contra hbusy
  rw [not_or] at hbusy
  have htrue := (h.busy hbusy).1
  rw [hwait] at htrue
  cases htrue

theorem Top.pending_of_ne {s : Top b} (hstate : s.sys.m.state ≠ .ack) : s.pending = [] :=
  if_neg hstate

section Step

variable {f₀ f : Files n} {log : List Event} {s : Top b} {served : List AccessView}
  {ws : List (BitVec 64)} (h : s.Serves f₀ log served f ws) (c : TopIn n)
include h

theorem Top.Serves.pops_step : popped (log ++ s.events c)
    = served ++ s.current ++ (s.sys.accepted (s.cycle c)).toList := by
  rw [popped_append, h.pops, Top.events, popped_events h.consistent.sys]

theorem Top.Serves.replies_step : replied (log ++ s.events c) = ws ++ s.pending ++
    (if s.sys.m.state = .reply then [s.sys.m.repData] else []) := by
  rw [replied_append, h.replies, Top.events, replied_events h.consistent.sys]

/-- Nothing happens to an access that nobody takes. -/
theorem Top.Serves.step_stuck (hstuck : s.Stuck f) :
    (s.clock c).Serves f₀ (log ++ s.events c) served f ws := by
  obtain ⟨hstuck', -⟩ := hstuck.clock h.consistent h.masked c
  obtain ⟨hnone, hcurrent⟩ := Top.waits h.consistent c hstuck.wait hstuck.state.2.2
  refine ⟨h.consistent.clock c, h.masked, h.done, ?_, ?_, Or.inr hstuck'⟩
  · rw [h.pops_step, hnone, hcurrent]
    exact List.append_nil _
  · rw [h.replies_step, if_neg hstuck.state.2.1, Top.pending_of_ne hstuck.state.2.2,
      Top.pending_of_ne hstuck'.state.2.2, List.append_nil, List.append_nil]

/-- With nothing to do the master goes back to where it waits for a request. -/
theorem Top.Serves.free_idle (hwait : s.sys.ep.waitAck = false) :
    (s.clock c).sys.m.state = .idle := by
  have hfollows := h.consistent.sys.follows
  have hnext : (s.clock c).sys.m.state = s.sys.m.nextState := System.clock_state ..
  rcases h.consistent.sys.free_state hwait with hm | hm
  · rw [hm] at hfollows
    rcases hfollows with hidle | ⟨-, hen⟩
    · exact hnext.trans hidle
    · rw [h.consistent.sys.reqEn, hwait] at hen
      cases hen
  · rw [hm] at hfollows
    exact hnext.trans hfollows

/-- Nothing is asked for: an access is popped, or none. -/
theorem Top.Serves.step_free (hlink : s.Link f) (hwait : s.sys.ep.waitAck = false) :
    (s.clock c).Serves f₀ (log ++ s.events c) served f ws := by
  have hnow := h.free_idle c hwait
  have hack : s.sys.m.state ≠ .ack ∧ s.sys.m.state ≠ .reply := by
    rcases h.consistent.sys.free_state hwait with hm | hm
    · rw [hm]
      decide
    · rw [hm]
      decide
  obtain ⟨hack, hreply⟩ := hack
  have hlink' : (s.clock c).Link f := hlink.clock h.consistent h.masked c hack fun htrue => by
    rw [hwait] at htrue
    cases htrue
  have hcurrent : s.current = [] := by
    rw [Top.current, hwait]
    rfl
  refine ⟨h.consistent.clock c, h.masked, h.done, ?_, ?_,
    hlink'.goes (h.consistent.clock c) (Or.inl hnow)⟩
  · rw [h.pops_step, hcurrent, List.append_nil, Top.polls c fun htrue => by
      rw [hwait] at htrue
      cases htrue]
  · rw [h.replies_step, if_neg hreply, Top.pending_of_ne hack, List.append_nil, List.append_nil,
      Top.pending_of_ne (by rw [hnow]; decide), List.append_nil]

/-- The access is acknowledged. -/
theorem Top.Serves.step_ack (hlink : s.Link f) (hstate : s.sys.m.state = .ack) :
    ∃ f' w, exec b f s.access = some (f', w) ∧ (s.clock c).Serves f₀ (log ++ s.events c)
      (served ++ [s.access]) f' (ws ++ replyOf s.access w) := by
  obtain ⟨f', w, hexec, hlink', hnow, hrep⟩ := Top.Stage.ack h.consistent c hstate hlink
  obtain ⟨hwait, -⟩ := h.consistent.sys.busy (by rw [hstate]; exact ⟨by decide, by decide⟩)
  have hcurrent : s.current = [s.access] := by
    rw [Top.current, hwait]
    rfl
  have hpending : s.pending = replyOf s.access w := by
    rw [Top.pending, if_pos hstate, replyOf]
    by_cases hread : s.access.isRead = true
    · rw [if_pos hread, if_pos hread, hrep hread]
    · rw [if_neg hread, if_neg hread]
  refine ⟨f', w, hexec, h.consistent.clock c, h.masked.exec hexec, execAll_snoc h.done hexec, ?_,
    ?_, hlink'.goes (h.consistent.clock c) (Or.inr hnow)⟩
  · rw [h.pops_step, hcurrent, Top.polls c fun _ => by
      rw [h.consistent.sys.reqAck, hstate]
      rfl]
  · rw [h.replies_step, hpending, hstate, if_neg (by decide), List.append_nil,
      Top.pending_of_ne (by rw [hnow]; decide), List.append_nil]

/-- The access goes on. -/
theorem Top.Serves.step_on (hlink : s.Link f) (hwait : s.sys.ep.waitAck = true)
    (hgood : ∃ r, exec b f s.access = some r) (hstate : s.sys.m.state ≠ .ack) :
    (s.clock c).Serves f₀ (log ++ s.events c) served f ws := by
  have hlink' := hlink.clock h.consistent h.masked c hstate fun _ => hgood
  obtain ⟨haccess, -⟩ := Top.held h.consistent c hwait hstate
  obtain ⟨hnone, hcurrent⟩ := Top.waits h.consistent c hwait hstate
  have hnext : (s.clock c).sys.m.state = s.sys.m.nextState := System.clock_state ..
  have hfollows := h.consistent.sys.follows
  refine ⟨h.consistent.clock c, h.masked, h.done, ?_, ?_, Or.inl ⟨hlink', fun _ => ?_⟩⟩
  · rw [h.pops_step, hnone, hcurrent]
    exact List.append_nil _
  · rw [h.replies_step, Top.pending_of_ne hstate, List.append_nil]
    congr 1
    cases hm : s.sys.m.state with
    | ack => exact absurd hm hstate
    | reply =>
      have hstage := hlink.stage
      simp only [Top.Stage, hm] at hstage
      rw [hm] at hfollows
      rw [if_pos rfl, Top.pending, if_pos (hnext.trans hfollows), haccess, if_pos hstage.2.1,
        Top.keeps_repData h.consistent c hm]
    | data =>
      rw [if_neg (by decide), Top.pending, haccess]
      obtain ⟨-, hcap⟩ := h.consistent.sys.busy (by rw [hm]; exact ⟨by decide, by decide⟩)
      rw [hm, hcap] at hfollows
      cases hread : s.access.isRead with
      | true =>
        rw [if_neg (by rw [hnext.trans (hfollows.trans (if_pos hread))]; decide)]
      | false => rw [if_neg (by decide : ¬false = true), ite_self]
    | _ =>
      rw [if_neg (by decide), Top.pending_of_ne]
      rw [hnext]
      exact (hfollows.not_answer (by rw [hm]; exact ⟨by decide, by decide⟩)).2
  · rw [haccess]
    exact hgood

/-- **Step lemma.** -/
theorem Top.Serves.step : ∃ served' f' ws',
    (s.clock c).Serves f₀ (log ++ s.events c) served' f' ws' := by
  rcases h.goes with ⟨hlink, hgood⟩ | hstuck
  · by_cases hstate : s.sys.m.state = .ack
    · obtain ⟨f', w, -, hserves⟩ := h.step_ack c hlink hstate
      exact ⟨_, _, _, hserves⟩
    · cases hwait : s.sys.ep.waitAck with
      | true => exact ⟨_, _, _, h.step_on c hlink hwait (hgood hwait) hstate⟩
      | false => exact ⟨_, _, _, h.step_free c hlink hwait⟩
  · exact ⟨_, _, _, h.step_stuck c hstuck⟩

end Step

/-! ### Whole runs -/

/-- The state after `n` cycles from a reset. -/
def Top.after (b : BusConfig n) (ins : ℕ → TopIn n) (k : ℕ) : Top b :=
  drive Top.clock Top.reset ins k

/-- What the first `k` cycles show. -/
def Top.log (b : BusConfig n) (ins : ℕ → TopIn n) (k : ℕ) : List Event :=
  shown Top.clock Top.events (Top.reset : Top b) ins k

/-- The registers after a reset. -/
def Files.zero (n : ℕ) : Files n := fun _ _ => 0

/-- The cycles as the endpoint and the master see them. -/
def cyclesOf (b : BusConfig n) (ins : ℕ → TopIn n) (k : ℕ) : Cycle :=
  (Top.after b ins k).cycle (ins k)

/-- What arrived in the first `k` cycles and has a size. -/
def arrivedOf (b : BusConfig n) (ins : ℕ → TopIn n) (k : ℕ) : List AccessView :=
  (arrived (cyclesOf b ins) k).filter hasSize

theorem masked_zero : Masked b (Files.zero n) := by
  intro i
  cases hsclr : b.sclr i with
  | false => rfl
  | true =>
    funext a
    simp [RegsGenerics.tick, Files.zero, selfClear, Function.update_apply]

theorem reset_serves :
    (Top.reset : Top b).Serves (Files.zero n) [] [] (Files.zero n) [] := by
  refine ⟨Top.reset_consistent, masked_zero, rfl, rfl, rfl, 
    Or.inl ⟨⟨?_, ?_⟩, fun hwait => by cases hwait⟩⟩
  · refine ⟨rfl, rfl, Or.inl rfl, ?_⟩
    show (0#(b.tmoDk + 1)).toNat + 0 ≤ 1
    simp
  · exact fun i => ⟨Regs.reset_quiet, rfl, rfl⟩

/-- **Run lemma.** -/
theorem run_serves (ins : ℕ → TopIn n) (k : ℕ) : ∃ served f ws,
    (Top.after b ins k).Serves (Files.zero n) (Top.log b ins k) served f ws := by
  refine drive_history
    (fun log s => ∃ served f ws, Top.Serves (Files.zero n) log s served f ws) ?_
    ⟨_, _, _, reset_serves⟩ ins k
  rintro log s c ⟨served, f, ws, h⟩
  exact h.step c

/-- The endpoint and the master run as they do on any bus. -/
theorem after_sys (ins : ℕ → TopIn n) (k : ℕ) :
    (Top.after b ins k).sys = System.after ⟨false, false, false, 0, false, false⟩
      (cyclesOf b ins) k ∧
    Top.log b ins k = log ⟨false, false, false, 0, false, false⟩ (cyclesOf b ins) k := by
  induction k with
  | zero => exact ⟨rfl, rfl⟩
  | succ k ih =>
    obtain ⟨hsys, hlog⟩ := ih
    refine ⟨?_, ?_⟩
    · show (Top.after b ins k).sys.clock (cyclesOf b ins k) = _
      rw [hsys]
      rfl
    · show Top.log b ins k ++ (Top.after b ins k).sys.events (cyclesOf b ins k) = _
      rw [hsys, hlog]
      rfl

/-- No access is lost. -/
theorem pops_arrived (ins : ℕ → TopIn n) (k : ℕ) :
    popped (Top.log b ins k) ++ (Top.after b ins k).sys.fifo.filter hasSize
      = arrivedOf b ins k := by
  obtain ⟨hsys, hlog⟩ := after_sys (b := b) ins k
  rw [hsys, hlog]
  exact popped_arrived ..

/-- The registers are those after the accesses acknowledged, or one more. -/
theorem Top.Serves.registers {f₀ f : Files n} {log : List Event} {s : Top b}
    {served : List AccessView} {ws : List (BitVec 64)} (h : s.Serves f₀ log served f ws) :
    ∃ as, served <+: as ∧ as <+: popped log ∧
      ∀ i, (b.gens i).tick (b.sclr i) (s.regs i).rwRegs = (serve b f₀ as).1 i := by
  have hserved : ∀ g : Files n, ∀ as ws', execAll b f₀ as = some (g, ws') →
      (serve b f₀ as).1 = g := by
    intro g as ws' hexec
    have happ := serve_append hexec []
    rw [List.append_nil] at happ
    rw [happ]
    rfl
  have hsame : (∀ i, (s.regs i).rwRegs = f i) → ∃ as, served <+: as ∧ as <+: popped log ∧
      ∀ i, (b.gens i).tick (b.sclr i) (s.regs i).rwRegs = (serve b f₀ as).1 i := by
    intro hrw
    refine ⟨served, List.prefix_refl _, ?_, fun i => ?_⟩
    · rw [h.pops]
      exact List.prefix_append _ _
    · rw [hserved f served ws h.done, hrw i, h.masked i]
  rcases h.goes with ⟨hlink, -⟩ | hstuck
  · have hstage := hlink.stage
    cases hm : s.sys.m.state with
    | ack =>
      simp only [Top.Stage, hm] at hstage
      obtain ⟨-, f', w, hexec, hfiles, -⟩ := hstage
      obtain ⟨hwait, -⟩ := h.consistent.sys.busy (by rw [hm]; exact ⟨by decide, by decide⟩)
      refine ⟨served ++ [s.access], List.prefix_append _ _, ?_, fun i => ?_⟩
      · rw [h.pops, Top.current, hwait]
        exact List.prefix_refl _
      · rw [hserved f' _ _ (execAll_snoc h.done hexec), hfiles i]
    | as =>
      simp only [Top.Stage, hm] at hstage
      rcases hstage with ⟨-, hcalm, -⟩ | ⟨-, -, i, htakes, -⟩
      · exact hsame fun i => (hcalm i).2.2
      · exact hsame htakes.files
    | data =>
      simp only [Top.Stage, hm] at hstage
      obtain ⟨-, i, htakes, -⟩ := hstage
      exact hsame htakes.files
    | reply =>
      simp only [Top.Stage, hm] at hstage
      exact hsame fun i => (hstage.1 i).2
    | brq =>
      simp only [Top.Stage, hm] at hstage
      exact hsame fun i => (hstage.1 i).2.2
    | idle =>
      simp only [Top.Stage, hm] at hstage
      exact hsame fun i => (hstage i).2.2
    | done =>
      simp only [Top.Stage, hm] at hstage
      exact hsame fun i => (hstage i).2.2
  · exact hsame fun i => (hstuck.slaves i).1

/-- The replies so far begin those of the register files. -/
theorem Top.Serves.replies_begin {f₀ f : Files n} {log : List Event} {s : Top b}
    {served : List AccessView} {ws : List (BitVec 64)} (h : s.Serves f₀ log served f ws)
    (rest : List AccessView) : replied log <+: (serve b f₀ (popped log ++ rest)).2 := by
  rw [h.replies, h.pops, List.append_assoc, serve_append h.done]
  refine (List.prefix_append_right_inj _).mpr ?_
  by_cases hstate : s.sys.m.state = .ack
  · rcases h.goes with ⟨hlink, -⟩ | hstuck
    · have hstage := hlink.stage
      simp only [Top.Stage, hstate] at hstage
      obtain ⟨-, f', w, hexec, -, hrep⟩ := hstage
      obtain ⟨hwait, -⟩ := h.consistent.sys.busy (by rw [hstate]; exact ⟨by decide, by decide⟩)
      rw [Top.current, hwait, if_pos rfl, List.singleton_append, serve_some hexec, Top.pending,
        if_pos hstate, replyOf]
      by_cases hread : s.access.isRead = true
      · rw [if_pos hread, if_pos hread, hrep hread]
        exact List.prefix_append _ _
      · rw [if_neg hread]
        exact List.nil_prefix
    · exact absurd hstate hstuck.state.2.2
  · rw [Top.pending_of_ne hstate]
    exact List.nil_prefix

/-- **The register slaves serve the accesses.**  Whatever arrives in whatever cycle, and in whatever
order the lines of the bus change: the replies are those of the register files to the accesses in
the order they came, and the registers, once register 0 has cleared itself, are those after the
accesses acknowledged so far.  An access without a size is passed over, and any other is one to a
word of 32 bits.  The fast transmitter is silent, and the read only registers are a function of the
others. -/
theorem accesses_served (b : BusConfig n) (ins : ℕ → TopIn n) (k : ℕ) :
    replied (Top.log b ins k) <+: (serve b (Files.zero n) (arrivedOf b ins k)).2 ∧
    ∃ as, as <+: arrivedOf b ins k ∧ (popped (Top.log b ins k)).length ≤ as.length + 1 ∧
      ∀ i, (b.gens i).tick (b.sclr i) ((Top.after b ins k).regs i).rwRegs
        = (serve b (Files.zero n) as).1 i := by
  obtain ⟨served, f, ws, h⟩ := run_serves (b := b) ins k
  have harrived := pops_arrived (b := b) ins k
  refine ⟨?_, ?_⟩
  · rw [← harrived]
    exact h.replies_begin _
  · obtain ⟨as, hserved, has, hregs⟩ := h.registers
    refine ⟨as, has.trans ⟨_, harrived⟩, ?_, hregs⟩
    have hcurrent : (Top.after b ins k).current.length ≤ 1 := by
      rw [Top.current]
      split
      · exact Nat.le_refl 1
      · exact Nat.zero_le 1
    have hle := hserved.length_le
    rw [h.pops, List.length_append]
    omega

/-! ### Progress -/

/-- The cycles an access still takes at most. -/
def Top.left (s : Top b) : ℕ :=
  if s.sys.ep.waitAck then
    match s.sys.m.state with
    | .done => 8
    | .idle => 7
    | .brq => 6
    | .as => if s.sys.m.nextState = .data then 4 else 5
    | .data => 3
    | .reply => 2
    | .ack => 1
  else 0

/-- The cycles that all which has arrived still takes. -/
def Top.load (s : Top b) : ℕ := s.left + 8 * s.sys.fifo.length

theorem Top.left_le (s : Top b) : s.left ≤ 8 := by
  rw [Top.left]
  split
  · split
    case h_4 =>
      split
      · decide
      · decide
    all_goals decide
  · exact Nat.zero_le 8

theorem Top.left_pos {s : Top b} (hwait : s.sys.ep.waitAck = true) : 0 < s.left := by
  rw [Top.left, if_pos hwait]
  split
  case h_4 =>
    split
    · decide
    · decide
  all_goals decide

theorem pollRxFifo_tail (access : AccessView) (fifo : List AccessView) :
    (Vhdl.pollRxFifo access fifo).2 = fifo.tail := by
  cases fifo with
  | nil => rfl
  | cons a fifo => rfl

/-- The endpoint that is free takes what has arrived first. -/
theorem Top.polls_fifo {s : Top b} (c : TopIn n)
    (hfree : s.sys.ep.waitAck = true → s.sys.m.out.reqAck = true) :
    (s.clock c).sys.fifo = (s.sys.fifo ++ c.arrivals).tail ∧
      (s.sys.fifo ++ c.arrivals = [] → (s.clock c).sys.ep.waitAck = false) := by
  have hclock := Vhdl.Endpoint.clock_free hfree s.sys.req.data (s.sys.fifo ++ c.arrivals)
  have hfifo : (s.clock c).sys.fifo = (s.sys.ep.clock s.sys.m.out.reqAck s.sys.req.data
      (s.sys.fifo ++ c.arrivals)).2.2 := rfl
  have hep : (s.clock c).sys.ep = (s.sys.ep.clock s.sys.m.out.reqAck s.sys.req.data
      (s.sys.fifo ++ c.arrivals)).1 := rfl
  refine ⟨?_, fun hnil => ?_⟩
  · rw [hfifo, hclock, pollRxFifo_tail]
  · rw [hep, hclock, hnil]
    rfl

/-- The endpoint that waits leaves what arrives. -/
theorem Top.waits_fifo {s : Top b} (h : s.Consistent) (c : TopIn n)
    (hwait : s.sys.ep.waitAck = true) (hstate : s.sys.m.state ≠ .ack) :
    (s.clock c).sys.fifo = s.sys.fifo ++ c.arrivals := by
  have hack : s.sys.m.out.reqAck = false := by
    rw [h.sys.reqAck]
    exact decide_eq_false hstate
  show (s.sys.ep.clock s.sys.m.out.reqAck s.sys.req.data (s.sys.fifo ++ c.arrivals)).2.2 = _
  rw [hack, Vhdl.Endpoint.clock_wait hwait]

/-- An access that goes on has a cycle less to go. -/
theorem Top.Link.left_clock {s : Top b} {f : Files n} (h : s.Consistent) (hf : Masked b f)
    (hlink : s.Link f) (c : TopIn n) (hwait : s.sys.ep.waitAck = true)
    (hgood : ∃ r, exec b f s.access = some r) (hstate : s.sys.m.state ≠ .ack) :
    (s.clock c).left + 1 ≤ s.left := by
  have hlink' := hlink.clock h hf c hstate fun _ => hgood
  obtain ⟨-, hwait'⟩ := Top.held h c hwait hstate
  have hnext : (s.clock c).sys.m.state = s.sys.m.nextState := System.clock_state ..
  have hfollows := h.sys.follows
  rw [Top.left, Top.left, if_pos hwait, if_pos hwait', hnext]
  cases hm : s.sys.m.state with
  | ack => exact absurd hm hstate
  | idle =>
    rw [h.next_idle hm hwait]
  | brq =>
    rw [h.next_brq hm]
    dsimp only
    split <;> omega
  | as =>
    have hstage := hlink.stage
    simp only [Top.Stage, hm] at hstage
    rcases hstage with ⟨has, -, hbusy, hfree⟩ | ⟨hdata, -, -⟩
    · have hbusy2 : (s.clock c).core.ebBusy2 = true := hbusy
      have hstage' := hlink'.stage
      simp only [Top.Stage, hnext.trans has] at hstage'
      rcases hstage' with ⟨-, -, -, hfree'⟩ | ⟨hdata', -, -⟩
      · rw [hbusy2] at hfree'
        cases hfree'
      · rw [has, hdata', if_pos rfl, if_neg (by decide)]
    · rw [hdata, if_pos rfl]
  | data =>
    rw [hm, MayFollow] at hfollows
    cases hread : s.sys.m.cap.isRead with
    | true =>
      rw [hread, if_pos rfl] at hfollows
      rw [hfollows]
    | false =>
      rw [hread, if_neg (by decide)] at hfollows
      rw [hfollows]
      exact Nat.le_of_ble_eq_true rfl
  | reply =>
    rw [hm, MayFollow] at hfollows
    rw [hfollows]
  | done =>
    rw [hm, MayFollow] at hfollows
    rw [hfollows]

/-- Where nothing is asked for the slaves are left alone. -/
theorem Top.Serves.rests {f₀ f : Files n} {log : List Event} {s : Top b}
    {served : List AccessView} {ws : List (BitVec 64)} (h : s.Serves f₀ log served f ws)
    (hwait : s.sys.ep.waitAck = false) : s.sys.m.state ≠ .ack ∧ s.Calm f := by
  rcases h.goes with ⟨hlink, -⟩ | hstuck
  · have hstage := hlink.stage
    rcases h.consistent.sys.free_state hwait with hm | hm
    · simp only [Top.Stage, hm] at hstage
      exact ⟨by rw [hm]; decide, hstage⟩
    · simp only [Top.Stage, hm] at hstage
      exact ⟨by rw [hm]; decide, hstage⟩
  · rw [hstuck.wait] at hwait
    cases hwait

/-- **The load falls in each cycle**, but for what arrives. -/
theorem Top.Serves.load_clock {f₀ f : Files n} {log : List Event} {s : Top b}
    {served : List AccessView} {ws : List (BitVec 64)} (h : s.Serves f₀ log served f ws)
    (c : TopIn n) (hlink : s.Link f)
    (hgood : s.sys.ep.waitAck = true → ∃ r, exec b f s.access = some r) :
    (s.clock c).load ≤ s.load + 8 * c.arrivals.length - 1 := by
  have hle := (s.clock c).left_le
  cases hwait : s.sys.ep.waitAck with
  | true =>
    by_cases hstate : s.sys.m.state = .ack
    · obtain ⟨hfifo, hnil⟩ := Top.polls_fifo (s := s) c fun _ => by
        rw [h.consistent.sys.reqAck, hstate]
        rfl
      have hone : s.left = 1 := by
        rw [Top.left, if_pos hwait, hstate]
      rw [Top.load, Top.load, hone, hfifo, List.length_tail, List.length_append]
      by_cases hempty : s.sys.fifo ++ c.arrivals = []
      · have hzero : (s.clock c).left = 0 := by
          rw [Top.left, hnil hempty]
          rfl
        rw [hzero]
        omega
      · have hlen := List.length_pos_of_ne_nil hempty
        rw [List.length_append] at hlen
        omega
    · have hfall := hlink.left_clock h.consistent h.masked c hwait (hgood hwait) hstate
      rw [Top.load, Top.load, Top.waits_fifo h.consistent c hwait hstate, List.length_append]
      omega
  | false =>
    obtain ⟨hfifo, hnil⟩ := Top.polls_fifo (s := s) c fun htrue => by
      rw [hwait] at htrue
      cases htrue
    have hzero : s.left = 0 := by
      rw [Top.left, hwait]
      rfl
    have hseven : (s.clock c).left ≤ 7 := by
      have hidle := h.free_idle c hwait
      rw [Top.left, hidle]
      split
      · exact Nat.le_refl 7
      · exact Nat.zero_le 7
    rw [Top.load, Top.load, hzero, hfifo, List.length_tail, List.length_append]
    by_cases hempty : s.sys.fifo ++ c.arrivals = []
    · have hzero' : (s.clock c).left = 0 := by
        rw [Top.left, hnil hempty]
        rfl
      rw [hzero', List.append_eq_nil_iff.mp hempty |>.1, List.append_eq_nil_iff.mp hempty |>.2]
      rfl
    · have hlen := List.length_pos_of_ne_nil hempty
      rw [List.length_append] at hlen
      omega

/-- What an edge adds to what has not been acknowledged is what arrives. -/
theorem Top.Consistent.waiting_clock {s : Top b} (h : s.Consistent) (c : TopIn n) :
    (s.clock c).current.length + (s.clock c).sys.fifo.length
      ≤ s.current.length + s.sys.fifo.length + c.arrivals.length := by
  have hle : (s.clock c).current.length ≤ 1 := by
    rw [Top.current]
    split
    · exact Nat.le_refl 1
    · exact Nat.zero_le 1
  by_cases hhold : s.sys.ep.waitAck = true ∧ s.sys.m.state ≠ .ack
  · obtain ⟨hwait, hstate⟩ := hhold
    rw [(Top.waits h c hwait hstate).2, Top.waits_fifo h c hwait hstate, List.length_append]
    omega
  · obtain ⟨hfifo, hnil⟩ := Top.polls_fifo (s := s) c fun hwait => by
      rw [h.sys.reqAck]
      by_contra hack
      exact hhold ⟨hwait, fun hm => hack (decide_eq_true hm)⟩
    rw [hfifo, List.length_tail, List.length_append]
    by_cases hempty : s.sys.fifo ++ c.arrivals = []
    · have hzero : (s.clock c).current = [] := by
        rw [Top.current, hnil hempty]
        rfl
      rw [hzero, List.append_eq_nil_iff.mp hempty |>.1, List.append_eq_nil_iff.mp hempty |>.2]
      exact Nat.zero_le _
    · have hlen := List.length_pos_of_ne_nil hempty
      rw [List.length_append] at hlen
      omega

/-- What has not been acknowledged has arrived. -/
theorem waiting_le (ins : ℕ → TopIn n) (k : ℕ) :
    (Top.after b ins k).current.length + (Top.after b ins k).sys.fifo.length
      ≤ (arrived (cyclesOf b ins) k).length := by
  induction k with
  | zero => exact Nat.le_refl 0
  | succ k ih =>
    obtain ⟨served, f, ws, h⟩ := run_serves (b := b) ins k
    have hstep := h.consistent.waiting_clock (ins k)
    have harrived : (arrived (cyclesOf b ins) (k + 1)).length
        = (arrived (cyclesOf b ins) k).length + (ins k).arrivals.length := List.length_append
    rw [harrived]
    exact Nat.le_trans hstep (Nat.add_le_add_right ih _)

/-- Nobody takes the access, or the load has fallen by the number of cycles. -/
theorem load_falls (ins : ℕ → TopIn n) (k m : ℕ)
    (hquiet : ∀ j, k ≤ j → j < k + m → (ins j).arrivals = []) :
    (∃ served f ws, (Top.after b ins (k + m)).Serves (Files.zero n) (Top.log b ins (k + m))
      served f ws ∧ (Top.after b ins (k + m)).Stuck f) ∨
    (Top.after b ins (k + m)).load ≤ (Top.after b ins k).load - m := by
  induction m with
  | zero => exact Or.inr (Nat.le_refl _)
  | succ m ih =>
    have hnone : (ins (k + m)).arrivals = [] := hquiet (k + m) (by omega) (by omega)
    rcases ih fun j hj hlt => hquiet j hj (by omega) with ⟨served, f, ws, h, hstuck⟩ | hle
    · exact Or.inl ⟨served, f, ws, h.step_stuck _ hstuck,
        (hstuck.clock h.consistent h.masked _).1⟩
    · obtain ⟨served, f, ws, h⟩ := run_serves (b := b) ins (k + m)
      rcases h.goes with ⟨hlink, hgood⟩ | hstuck
      · have hfall := h.load_clock (ins (k + m)) hlink hgood
        rw [hnone] at hfall
        right
        show ((Top.after b ins (k + m)).clock (ins (k + m))).load ≤ _
        simp only [List.length_nil] at hfall
        omega
      · exact Or.inl ⟨served, f, ws, h.step_stuck _ hstuck,
          (hstuck.clock h.consistent h.masked _).1⟩

theorem arrived_quiet (cs : ℕ → Cycle) (k m : ℕ)
    (hquiet : ∀ j, k ≤ j → j < k + m → (cs j).arrivals = []) :
    arrived cs (k + m) = arrived cs k := by
  induction m with
  | zero => rfl
  | succ m ih =>
    show arrived cs (k + m) ++ (cs (k + m)).arrivals = _
    rw [hquiet (k + m) (by omega) (by omega), List.append_nil]
    exact ih fun j hj hlt => hquiet j hj (by omega)

/-- **The accesses are served in time.**  When eight cycles for each access have gone by without
another one, everything is replied and stored that the register files give, up to the first access
that nobody takes.  Accesses count as in `accesses_served`, and the same is silent. -/
theorem accesses_progress (b : BusConfig n) (ins : ℕ → TopIn n) (k m : ℕ)
    (hquiet : ∀ j, k ≤ j → j < k + m → (ins j).arrivals = [])
    (hm : 8 * (arrived (cyclesOf b ins) k).length ≤ m) :
    replied (Top.log b ins (k + m)) = (serve b (Files.zero n) (arrivedOf b ins k)).2 ∧
    ∀ i, ((Top.after b ins (k + m)).regs i).rwRegs
      = (serve b (Files.zero n) (arrivedOf b ins k)).1 i := by
  have hsame : arrivedOf b ins k = arrivedOf b ins (k + m) := by
    rw [arrivedOf, arrivedOf, arrived_quiet (cyclesOf b ins) k m hquiet]
  rw [hsame, ← pops_arrived]
  rcases load_falls (b := b) ins k m hquiet with ⟨served, f, ws, h, hstuck⟩ | hle
  · have hserve : ∀ rest, serve b (Files.zero n) (popped (Top.log b ins (k + m)) ++ rest)
        = (f, ws) := by
      intro rest
      rw [h.pops, Top.current, hstuck.wait, if_pos rfl, List.append_assoc, serve_append h.done,
        List.singleton_append, serve_none hstuck.refused, List.append_nil]
    rw [hserve, h.replies, Top.pending_of_ne hstuck.state.2.2]
    exact ⟨List.append_nil _, fun i => (hstuck.slaves i).1⟩
  · have hwaiting := waiting_le (b := b) ins k
    have hload : (Top.after b ins (k + m)).load = 0 := by
      have hbound : (Top.after b ins k).load ≤ 8 * (arrived (cyclesOf b ins) k).length := by
        have hleft : (Top.after b ins k).left ≤ 8 * (Top.after b ins k).current.length := by
          cases hwait : (Top.after b ins k).sys.ep.waitAck with
          | true =>
            rw [Top.current, if_pos hwait]
            exact (Top.after b ins k).left_le
          | false =>
            rw [Top.left, hwait]
            exact Nat.zero_le _
        rw [Top.load]
        omega
      omega
    obtain ⟨served, f, ws, h⟩ := run_serves (b := b) ins (k + m)
    rw [Top.load] at hload
    have hfifo : (Top.after b ins (k + m)).sys.fifo = [] :=
      List.eq_nil_of_length_eq_zero (by omega)
    have hwait : (Top.after b ins (k + m)).sys.ep.waitAck = false := by
      by_contra hwait
      have hpos := Top.left_pos (Bool.not_eq_false _ ▸ hwait)
      omega
    have hserve : serve b (Files.zero n) (popped (Top.log b ins (k + m))) = (f, ws) := by
      have happ := serve_append h.done []
      rw [List.append_nil] at happ
      rw [h.pops, Top.current, hwait, if_neg (by decide), List.append_nil, happ]
      exact congrArg (Prod.mk f) (List.append_nil ws)
    obtain ⟨hstate, hcalm⟩ := h.rests hwait
    rw [hfifo, List.filter_nil, List.append_nil, hserve, h.replies, Top.pending_of_ne hstate]
    exact ⟨List.append_nil _, fun i => (hcalm i).2.2⟩

/-- A write to a register of `ebs1_regs` and a read of it arrive together. -/
def writeAndRead (k : ℕ) : TopIn 2 where
  arrivals := if k = 0 then
    [⟨false, 1, 0x208, 4, some 0x1122334455667788⟩, ⟨true, 1, 0x208, 4, none⟩] else []
  irqI := fun _ => false
  mixes := []

theorem accesses_progress_rashpa :
    replied (Top.log rashpa writeAndRead (1 + 16)) = [0x55667788] := by
  have hprogress := accesses_progress rashpa writeAndRead 1 16 (fun j hj _ => if_neg (by omega))
    (by decide)
  exact hprogress.1.trans (by decide +kernel)

end VPcie.Ebone
