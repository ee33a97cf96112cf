import VPcie.Ebone.Burst

/-!
# Aborted bursts

A burst is aborted when `eb_bft` falls before the edge that takes its last word.  The slave looks at
`eb_bft` in `state_idle` and in `state_not_bft`, and not while it takes words.

* `Unbroken` — the moves that do not abort a burst;
* `Begun`, `Tolerated` — what the moves so far say of the burst the slave is in;
* `aborts_tolerated` — in every run of unbroken moves nothing is written but whole bursts;
* `Aborted`, `Harmless` — a burst that has been aborted, and the moves it stays there for;
* `aborted_harmless_iff` — the aborted burst does harm with the first move that drives a word or
  `eb_eof`, and `aborted_stays` — not before.
-/

namespace VPcie.Ebone.Slave

open VPcie.Lib

variable {d : Dwidth}

/-- A move that does not abort a burst: from the moment the slave is about to leave `state_idle` for
it until the edge that takes the last word `eb_bft` stays. -/
def Unbroken (s : System d) : Move d → Prop
  | .edge b => s.r.nextState = .notEof → b.bft = true
  | .change b => s.r.state = .notEof ∨ s.r.nextState = .notEof → b.bft = true

instance (s : System d) : ∀ m, Decidable (Unbroken s m)
  | .edge _ => inferInstanceAs (Decidable (_ → _))
  | .change _ => inferInstanceAs (Decidable (_ → _))

/-- The last of these moves are those of a burst that has begun, and `eb_bft` was there all the
time. -/
def Begun (bus : Bus d) (moves mid : List (Move d)) : Prop :=
  ∃ pre u, moves = pre ++ mid ∧ run step (System.reset bus) pre = some u ∧ u.StartsBurst ∧
    ∀ m ∈ mid, m.bus.bft = true

/-- A burst with `eb_bft` from its addressing phase to its `eb_eof`, then an edge, and nothing but
changes of the bus since. -/
def WholeBurst (bus : Bus d) (moves : List (Move d)) : Prop :=
  ∃ (burst mid : List (Move d)) (b : Bus d) (changes : List (Bus d)),
    moves = burst ++ .edge b :: changes.map .change ∧
      Begun bus burst mid ∧ ∃ m ∈ mid, m.bus.eof = true

/-- What is asked of the slave after these moves: it asserts `mwr_en` only for a whole burst, a word
is about to be stored only with `eb_bft`, and the index is beyond the payload only in a burst that
is not aborted. -/
structure Tolerated (bus : Bus d) (moves : List (Move d)) (s : System d) : Prop where
  mwrEn : s.r.out.mwrEn = true → WholeBurst bus moves
  dataEn : s.r.out.dataEn = true → s.bus.bft = true
  index : s.r.out.dataEn = true → 1024 < burstIndexOf d s.r.burstReg + d.bits →
    ∃ mid, Begun bus moves mid

/-- The slave is in a burst, or about to enter one. -/
def System.InBurst (s : System d) : Prop :=
  s.r.state = .notEof ∨ s.r.state = .idle ∧ s.r.nextState = .notEof

/-- **Invariant.** -/
structure History (bus : Bus d) (moves : List (Move d)) (s : System d) : Prop where
  consistent : Consistent s
  bft : s.InBurst → s.bus.bft = true
  begun : s.InBurst → ∃ mid, Begun bus moves mid ∧
    (s.r.nextState = .write → ∃ m ∈ mid, m.bus.eof = true)
  write : s.r.state = .write → WholeBurst bus moves

/-- The next state after a move is the one latched before, or computed from it. -/
theorem step_nextState {s t : System d} {m : Move d} (h : step s m = some t) :
    t.bus = m.bus ∧ (t.r.nextState = s.r.nextState ∨
      t.r.nextState = nextStateLogic (nextIn t.r.state m.bus) s.r.nextState) := by
  cases m with
  | edge b =>
    rw [step] at h
    split at h
    · cases h
    · obtain rfl := Option.some.inj h
      refine ⟨rfl, ?_⟩
      show onEvent _ _ _ _ = _ ∨ onEvent _ _ _ _ = _
      rw [onEvent]
      split
      · exact Or.inr rfl
      · exact Or.inl rfl
  | change b =>
    obtain rfl := Option.some.inj h
    refine ⟨rfl, ?_⟩
    show onEvent _ _ _ _ = _ ∨ onEvent _ _ _ _ = _
    rw [onEvent]
    split
    · exact Or.inr rfl
    · exact Or.inl rfl

/-- The slave decides for a burst on an addressing phase. -/
theorem step_starts {s t : System d} {m : Move d} (h : step s m = some t)
    (hidle : t.r.state = .idle) (hnext : t.r.nextState = .notEof)
    (hnew : s.r.nextState ≠ .notEof) : t.StartsBurst := by
  obtain ⟨hbus, hkept | hlogic⟩ := step_nextState h
  · exact absurd (hkept.symm.trans hnext) hnew
  · rw [hnext, hidle, nextIn, nextStateLogic] at hlogic
    have hlogic : State.notEof = if m.bus.bft && m.bus.as then
      if m.bus.eof then State.bcast else State.notEof else s.r.nextState := hlogic
    split at hlogic
    case isTrue hgo =>
      rw [Bool.and_eq_true] at hgo
      split at hlogic
      · cases hlogic
      case isFalse heof =>
        exact ⟨hidle, hbus ▸ hgo.1, hbus ▸ hgo.2, hbus ▸ Bool.eq_false_iff.mpr heof⟩
    case isFalse => exact absurd hlogic.symm hnew

/-- It decides for the write on `eb_eof`. -/
theorem step_ends {s t : System d} {m : Move d} (h : step s m = some t)
    (hstate : t.r.state = .notEof) (hnext : t.r.nextState = .write)
    (hnew : s.r.nextState ≠ .write) : m.bus.eof = true := by
  obtain ⟨-, hkept | hlogic⟩ := step_nextState h
  · exact absurd (hkept.symm.trans hnext) hnew
  · rw [hnext, hstate, nextIn, nextStateLogic] at hlogic
    have hlogic : State.write = if m.bus.eof then State.write else s.r.nextState := hlogic
    split at hlogic
    case isTrue heof => exact heof
    case isFalse => exact absurd hlogic.symm hnew

theorem Begun.snoc {bus : Bus d} {moves mid : List (Move d)} (h : Begun bus moves mid) {m : Move d}
    (hm : m.bus.bft = true) : Begun bus (moves ++ [m]) (mid ++ [m]) := by
  obtain ⟨pre, u, rfl, hrun, hstart, hmid⟩ := h
  refine ⟨pre, u, List.append_assoc pre mid [m], hrun, hstart, ?_⟩
  intro m' hm'
  rcases List.mem_append.mp hm' with hm' | hm'
  · exact hmid m' hm'
  · rw [List.mem_singleton.mp hm']
    exact hm

theorem step_state {s t : System d} {m : Move d} (h : step s m = some t) : t.r.state =
    match m with
    | .edge _ => s.r.nextState
    | .change _ => s.r.state := by
  cases m with
  | edge b =>
    rw [step] at h
    split at h
    · cases h
    · obtain rfl := Option.some.inj h
      rfl
  | change b =>
    obtain rfl := Option.some.inj h
    rfl

/-- A burst the slave is in after a move has just begun, or goes on with `eb_bft`. -/
theorem step_inBurst {s t : System d} {m : Move d} (h : Consistent s) (hm : Unbroken s m)
    (hstep : step s m = some t) (ht : t.InBurst) :
    t.StartsBurst ∨ s.InBurst ∧ m.bus.bft = true := by
  have hstate := step_state hstep
  cases m with
  | edge b =>
    rcases ht with hnotEof | ⟨hidle, hnext⟩
    · right
      have hnext : s.r.nextState = .notEof := hstate.symm.trans hnotEof
      refine ⟨?_, hm hnext⟩
      have hfollows := h.follows
      rw [hnext] at hfollows
      cases hs : s.r.state with
      | idle => exact Or.inr ⟨hs, hnext⟩
      | notEof => exact Or.inl hs
      | bcast =>
        rw [hs] at hfollows
        cases hfollows
      | write =>
        rw [hs] at hfollows
        rcases hfollows with hf | hf <;> cases hf
      | notBft =>
        rw [hs] at hfollows
        rcases hfollows with hf | hf <;> cases hf
    · left
      refine step_starts hstep hidle hnext ?_
      rw [show s.r.nextState = .idle from hstate.symm.trans hidle]
      nofun
  | change b =>
    rcases ht with hnotEof | ⟨hidle, hnext⟩
    · have hs : s.r.state = .notEof := hstate.symm.trans hnotEof
      exact Or.inr ⟨Or.inl hs, hm (Or.inl hs)⟩
    · by_cases hlatched : s.r.nextState = .notEof
      · exact Or.inr ⟨Or.inr ⟨hstate.symm.trans hidle, hlatched⟩, hm (Or.inr hlatched)⟩
      · exact Or.inl (step_starts hstep hidle hnext hlatched)

/-- Only from the state that takes words does the slave go to the write. -/
theorem Consistent.notEof_of_write {s : System d} (h : Consistent s)
    (hnext : s.r.nextState = .write) : s.r.state = .notEof := by
  have hfollows := h.follows
  rw [hnext] at hfollows
  cases hs : s.r.state with
  | notEof => rfl
  | bcast =>
    rw [hs] at hfollows
    cases hfollows
  | idle =>
    rw [hs] at hfollows
    rcases hfollows with hf | hf | hf <;> cases hf
  | write =>
    rw [hs] at hfollows
    rcases hfollows with hf | hf <;> cases hf
  | notBft =>
    rw [hs] at hfollows
    rcases hfollows with hf | hf <;> cases hf

/-- **Step lemma.** -/
theorem History.step {bus : Bus d} {moves : List (Move d)} {s t : System d} {m : Move d}
    (hrun : run Slave.step (System.reset bus) moves = some s) (h : History bus moves s)
    (hm : Unbroken s m) (hstep : Slave.step s m = some t) : History bus (moves ++ [m]) t := by
  have hconsistent := h.consistent.step hstep
  have hbus := (step_nextState hstep).1
  refine ⟨hconsistent, ?_, ?_, ?_⟩
  · intro ht
    rcases step_inBurst h.consistent hm hstep ht with hstart | ⟨-, hbft⟩
    · exact hstart.bft
    · exact hbus ▸ hbft
  · intro ht
    rcases step_inBurst h.consistent hm hstep ht with hstart | ⟨hin, hbft⟩
    · refine ⟨[], ⟨moves ++ [m], t, (List.append_nil _).symm, ?_, hstart, nofun⟩, ?_⟩
      · exact run_append_eq_some.mpr ⟨s, hrun, run_cons_eq_some.mpr ⟨t, hstep, rfl⟩⟩
      · intro hnext
        have hnotEof := hconsistent.notEof_of_write hnext
        rw [hstart.state] at hnotEof
        cases hnotEof
    · obtain ⟨mid, hbegun, heof⟩ := h.begun hin
      refine ⟨mid ++ [m], hbegun.snoc hbft, ?_⟩
      intro hnext
      by_cases hlatched : s.r.nextState = .write
      · obtain ⟨e, he, heof⟩ := heof hlatched
        exact ⟨e, List.mem_append_left _ he, heof⟩
      · have hnotEof := hconsistent.notEof_of_write hnext
        exact ⟨m, List.mem_append_right _ (List.mem_singleton_self m),
          step_ends hstep hnotEof hnext hlatched⟩
  · intro hwrite
    have hstate := step_state hstep
    cases m with
    | edge b =>
      have hnext : s.r.nextState = .write := hstate.symm.trans hwrite
      obtain ⟨mid, hbegun, heof⟩ := h.begun (Or.inl (h.consistent.notEof_of_write hnext))
      exact ⟨moves, mid, b, [], rfl, hbegun, heof hnext⟩
    | change b =>
      obtain ⟨burst, mid, b', changes, rfl, hbegun, heof⟩ := h.write (hstate.symm.trans hwrite)
      exact ⟨burst, mid, b', changes ++ [b], by simp, hbegun, heof⟩

theorem reset_history (bus : Bus d) : History bus [] (System.reset bus) := by
  have hconsistent := reset_consistent bus
  have hstart : (System.reset bus).InBurst → (System.reset bus).StartsBurst := by
    rintro (hnotEof | ⟨-, hnext⟩)
    · cases hnotEof
    · have hnext : (if bus.bft && bus.as then if bus.eof then State.bcast else State.notEof
        else State.idle) = State.notEof := hnext
      split at hnext
      case isTrue hgo =>
        rw [Bool.and_eq_true] at hgo
        split at hnext
        · cases hnext
        case isFalse heof => exact ⟨rfl, hgo.1, hgo.2, Bool.eq_false_iff.mpr heof⟩
      case isFalse => cases hnext
  refine ⟨hconsistent, fun h => (hstart h).bft, ?_, nofun⟩
  intro h
  refine ⟨[], ⟨[], System.reset bus, rfl, rfl, hstart h, nofun⟩, ?_⟩
  intro hnext
  have hnotEof := hconsistent.notEof_of_write hnext
  cases hnotEof

/-- What the outputs say of the state. -/
theorem Consistent.strobes {s : System d} (h : Consistent s) :
    (s.r.out.mwrEn = true → s.r.state = .write) ∧
      (s.r.out.dataEn = true → s.r.state = .notEof) := by
  obtain ⟨addrReg, burstIndex, hout⟩ := h.out
  rw [hout]
  cases s.r.state with
  | write => exact ⟨fun _ => rfl, nofun⟩
  | notEof =>
    cases s.bus.as with
    | true => exact ⟨nofun, fun _ => rfl⟩
    | false => exact ⟨nofun, fun _ => rfl⟩
  | _ => exact ⟨nofun, nofun⟩

theorem History.tolerated {bus : Bus d} {moves : List (Move d)} {s : System d}
    (h : History bus moves s) : Tolerated bus moves s := by
  obtain ⟨hwrite, hdata⟩ := h.consistent.strobes
  refine ⟨fun hen => h.write (hwrite hen), fun hen => h.bft (Or.inl (hdata hen)), ?_⟩
  intro hen _
  obtain ⟨mid, hbegun, -⟩ := h.begun (Or.inl (hdata hen))
  exact ⟨mid, hbegun⟩

/-- **Without aborted bursts nothing goes wrong**: if no move of a run aborts a burst, then at its
end only a whole burst is written, a word is stored only with `eb_bft`, and only a burst that is not
aborted leads beyond the payload. -/
theorem aborts_tolerated {bus : Bus d} {moves : List (Move d)} {s : System d}
    (hunbroken : EachStep step Unbroken (System.reset bus) moves)
    (hrun : run step (System.reset bus) moves = some s) : Tolerated bus moves s :=
  (run_history_on (History bus) (fun _ _ _ _ hl hI hm hv => hI.step hl hm hv) (reset_history bus)
    hunbroken hrun).tolerated

/-- A burst of one word, as moves. -/
def oneWordMoves : List (Move .dwidth64) :=
  [.edge addrBus, .edge addrBus, .edge ⟨0x2a, true, false, true⟩, .edge quietBus]

theorem aborts_tolerated_oneWord : ∃ s, run step (System.reset quietBus) oneWordMoves = some s ∧
    Tolerated quietBus oneWordMoves s :=
  ⟨_, rfl, aborts_tolerated (by decide +kernel) rfl⟩

/-- A burst that is aborted after its first word. -/
def abortedMoves : List (Move .dwidth64) :=
  [.edge addrBus, .edge addrBus, .edge ⟨0x2a, true, false, false⟩, .edge quietBus]

/-- The slave goes on storing what is on the bus. -/
theorem aborted_stores : ¬∀ (bus : Bus .dwidth64) (moves : List (Move .dwidth64))
    (s : System .dwidth64), run step (System.reset bus) moves = some s → Tolerated bus moves s := by
  intro h
  have hstores : ∃ s, run step (System.reset quietBus) abortedMoves = some s ∧
      s.r.out.dataEn = true ∧ s.bus.bft = false := ⟨_, rfl, by decide +kernel, rfl⟩
  obtain ⟨s, hrun, hdata, hbft⟩ := hstores
  have hgranted := (h quietBus abortedMoves s hrun).dataEn hdata
  rw [hbft] at hgranted
  cases hgranted

/-! ### Aborts that do harm -/

/-- After these moves the burst the slave takes words of is aborted. -/
structure Aborted (bus : Bus d) (moves : List (Move d)) (s : System d) : Prop where
  run : run step (System.reset bus) moves = some s
  state : s.r.state = .notEof
  nextState : s.r.nextState = .notEof
  bft : s.bus.bft = false

/-- The move drives the bus as an addressing phase, without `eb_eof`. -/
def Harmless (m : Move d) : Prop := m.bus.as = true ∧ m.bus.eof = false

/-- In `state_not_eof` with `eb_as` a word is not stored, and nothing is written. -/
theorem Consistent.quiet {s : System d} (h : Consistent s) (hstate : s.r.state = .notEof)
    (has : s.bus.as = true) : s.r.out.mwrEn = false ∧ s.r.out.dataEn = false := by
  obtain ⟨addrReg, burstIndex, hout⟩ := h.out
  rw [hout, hstate, has]
  exact ⟨rfl, rfl⟩

/-- And without it the word on the bus is stored. -/
theorem Consistent.dataEn_of_notEof {s : System d} (h : Consistent s)
    (hstate : s.r.state = .notEof) (has : s.bus.as = false) : s.r.out.dataEn = true := by
  obtain ⟨addrReg, burstIndex, hout⟩ := h.out
  rw [hout, hstate, has]
  rfl

theorem Consistent.mwrEn_of_write {s : System d} (h : Consistent s)
    (hstate : s.r.state = .write) : s.r.out.mwrEn = true := by
  obtain ⟨addrReg, burstIndex, hout⟩ := h.out
  rw [hout, hstate]
  rfl

theorem tolerated_of_quiet {bus : Bus d} {moves : List (Move d)} {s : System d}
    (h : s.r.out.mwrEn = false ∧ s.r.out.dataEn = false) : Tolerated bus moves s := by
  obtain ⟨hwrite, hdata⟩ := h
  refine ⟨?_, ?_, ?_⟩
  · rw [hwrite]
    nofun
  · rw [hdata]
    nofun
  · rw [hdata]
    nofun

theorem Aborted.consistent {bus : Bus d} {moves : List (Move d)} {s : System d}
    (h : Aborted bus moves s) : Consistent s :=
  consistent_run h.run

/-- The slave stays in `state_not_eof`, whatever the move drives. -/
theorem Aborted.step_state {bus : Bus d} {moves : List (Move d)} {s t : System d} {m : Move d}
    (h : Aborted bus moves s) (hstep : step s m = some t) : t.r.state = .notEof := by
  have hstate := Slave.step_state hstep
  cases m with
  | edge b => exact hstate.trans h.nextState
  | change b => exact hstate.trans h.state

theorem Aborted.step_run {bus : Bus d} {moves : List (Move d)} {s t : System d} {m : Move d}
    (h : Aborted bus moves s) (hstep : step s m = some t) :
    Lib.run step (System.reset bus) (moves ++ [m]) = some t :=
  run_append_eq_some.mpr ⟨s, h.run, run_cons_eq_some.mpr ⟨t, hstep, rfl⟩⟩

/-- Without `eb_eof` it also stays there on the next edge. -/
theorem Aborted.step_nextState {bus : Bus d} {moves : List (Move d)} {s t : System d} {m : Move d}
    (h : Aborted bus moves s) (hstep : step s m = some t) (heof : m.bus.eof = false) :
    t.r.nextState = .notEof := by
  obtain ⟨-, hkept | hlogic⟩ := Slave.step_nextState hstep
  · exact hkept.trans h.nextState
  · rw [h.step_state hstep, h.nextState, nextIn, nextStateLogic] at hlogic
    have hlogic : t.r.nextState = if m.bus.eof then State.write else State.notEof := hlogic
    rw [hlogic, heof]
    rfl

/-- **Step lemma.**  A harmless move leaves an aborted burst. -/
theorem Aborted.step {bus : Bus d} {moves : List (Move d)} {s t : System d} {m : Move d}
    (h : Aborted bus moves s) (hstep : step s m = some t) (hm : Harmless m)
    (hbft : m.bus.bft = false) : Aborted bus (moves ++ [m]) t where
  run := h.step_run hstep
  state := h.step_state hstep
  nextState := h.step_nextState hstep hm.2
  bft := (Slave.step_nextState hstep).1 ▸ hbft

/-- As long as the moves are harmless, the burst stays there and nothing goes wrong. -/
theorem aborted_stays {bus : Bus d} {moves more : List (Move d)} {s t : System d}
    (h : Aborted bus moves s) (hmore : ∀ m ∈ more, Harmless m ∧ m.bus.bft = false)
    (hrun : run step s more = some t) :
    Aborted bus (moves ++ more) t ∧ (more ≠ [] → Tolerated bus (moves ++ more) t) := by
  induction more using List.reverseRecOn generalizing t with
  | nil =>
    obtain rfl := Option.some.inj hrun
    exact ⟨(List.append_nil moves).symm ▸ h, fun hne => absurd rfl hne⟩
  | append_singleton more m ih =>
    obtain ⟨u, hu, hlast⟩ := run_append_eq_some.mp hrun
    obtain ⟨v, hv, hnil⟩ := run_cons_eq_some.mp hlast
    obtain rfl := Option.some.inj hnil
    have hm := hmore m (List.mem_append_right _ (List.mem_singleton_self m))
    have hkept := (ih (fun x hx => hmore x (List.mem_append_left _ hx)) hu).1
    have hnext := hkept.step hv hm.1 hm.2
    rw [List.append_assoc] at hnext
    refine ⟨hnext, fun _ => tolerated_of_quiet (hnext.consistent.quiet hnext.state ?_)⟩
    exact (Slave.step_nextState hv).1 ▸ hm.1.1

/-- The write after an `eb_eof` that finds the burst aborted is for no whole burst. -/
theorem Aborted.not_whole {bus : Bus d} {moves : List (Move d)} {s t : System d} {m : Move d}
    (h : Aborted bus moves s) (hstep : Slave.step s m = some t) (hbft : m.bus.bft = false)
    (b : Bus d) : ¬WholeBurst bus (moves ++ [m] ++ [.edge b]) := by
  rintro ⟨burst, mid, b', changes, heq, ⟨pre, u, rfl, hpre, hstart, hmid⟩, -⟩
  -- the last move is the edge, so the burst ends with `m`
  have hchanges : changes = [] := by
    rcases List.eq_nil_or_concat changes with hnil | ⟨changes', c, rfl⟩
    · exact hnil
    · rw [List.concat_eq_append, List.map_append, ← List.cons_append, ← List.append_assoc] at heq
      have hlast := (List.append_inj' heq rfl).2
      cases hlast
  subst hchanges
  have hburst := (List.append_inj' heq rfl).1
  rcases List.eq_nil_or_concat mid with rfl | ⟨mid', m', rfl⟩
  · -- it would have to begin where the slave is in `state_not_eof`
    rw [List.append_nil] at hburst
    rw [← hburst, h.step_run hstep] at hpre
    obtain rfl := Option.some.inj hpre
    have hstate := (h.step_state hstep).symm.trans hstart.state
    cases hstate
  · rw [List.concat_eq_append, ← List.append_assoc] at hburst
    obtain rfl := List.singleton_inj.mp (List.append_inj' hburst rfl).2
    rw [hmid m (by simp)] at hbft
    cases hbft

/-- **Which aborts do harm**: an aborted burst that finds `eb_bft` low in the next move and the
address strobe on the edge after it does none exactly when the move drives neither a word nor
`eb_eof`. -/
theorem aborted_harmless_iff {bus b : Bus d} {moves : List (Move d)} {s t : System d} {m : Move d}
    (h : Aborted bus moves s) (hstep : step s m = some t) (hbft : m.bus.bft = false)
    (hb : b.as = true) :
    (Tolerated bus (moves ++ [m]) t ∧
      ∀ u, step t (.edge b) = some u → Tolerated bus (moves ++ [m] ++ [.edge b]) u) ↔
      Harmless m := by
  have hbus := (Slave.step_nextState hstep).1
  have hstate := h.step_state hstep
  have hconsistent := consistent_run (h.step_run hstep)
  constructor
  · rintro ⟨hnow, hafter⟩
    have has : m.bus.as = true := by
      by_contra has
      rw [Bool.not_eq_true, ← hbus] at has
      have hgranted := hnow.dataEn (hconsistent.dataEn_of_notEof hstate has)
      rw [hbus, hbft] at hgranted
      cases hgranted
    refine ⟨has, ?_⟩
    by_contra heof
    rw [Bool.not_eq_false, ← hbus] at heof
    have hquiet := hconsistent.quiet hstate (hbus ▸ has)
    have hedge : step t (.edge b) = some ⟨t.r.edge t.bus b, b⟩ := by
      rw [step, if_neg]
      rintro ⟨hdata, -⟩
      rw [hquiet.2] at hdata
      cases hdata
    have hwrite := (hconsistent.step hedge).mwrEn_of_write (hconsistent.notEof hstate heof)
    exact h.not_whole hstep hbft b ((hafter _ hedge).mwrEn hwrite)
  · rintro ⟨has, heof⟩
    have hnext := h.step_nextState hstep heof
    refine ⟨tolerated_of_quiet (hconsistent.quiet hstate (hbus ▸ has)), fun u hu => ?_⟩
    have hu' := (Slave.step_state hu).trans hnext
    refine tolerated_of_quiet ((hconsistent.step hu).quiet hu' ?_)
    exact (Slave.step_nextState hu).1 ▸ hb

/-- Aborted in its addressing phase with the strobe held, a burst has done no harm so far. -/
example : ∃ s, Aborted (d := .dwidth64) quietBus
    [.edge addrBus, .edge addrBus, .edge { quietBus with as := true }] s :=
  ⟨_, rfl, rfl, rfl, rfl⟩

end VPcie.Ebone.Slave
