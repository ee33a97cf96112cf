import VPcie.Ebone.Slave

/-!
# Bursts of the fast transmitter

What the slave makes of a burst: addressing cycles, then one word a cycle, the last with `eb_eof`.
In a cycle the bus takes new values on the edge and may change again before the next.

* `Consistent` — what holds between edges of the outputs and the next state;
* `AtAddr`, `AtWord` — how far a burst is, cycle by cycle;
* `write_iff` — the byte count is right exactly when `eb_as` changes within the cycle of the write.
-/

namespace VPcie.Ebone.Slave

open VPcie.Lib

variable {d : Dwidth}

/-! ### Between edges -/

/-- The states the latch of the next state can hold. -/
def Follows : State → State → Prop
  | .idle, next => next = .idle ∨ next = .bcast ∨ next = .notEof
  | .bcast, next => next = .notBft
  | .notEof, next => next = .notEof ∨ next = .write
  | .write, next => next = .notBft ∨ next = .idle
  | .notBft, next => next = .notBft ∨ next = .idle

/-- **Invariant.**  The outputs are those of the state, with some address and burst index. -/
structure Consistent (s : System d) : Prop where
  out : ∃ addrReg burstIndex, s.r.out = outputLogic (s.r.state, s.bus.as) addrReg burstIndex
  follows : Follows s.r.state s.r.nextState
  idle : s.r.state = .idle → s.bus.bft = true → s.bus.as = true →
    s.r.nextState = if s.bus.eof then .bcast else .notEof
  notEof : s.r.state = .notEof → s.bus.eof = true → s.r.nextState = .write

/-- The states in which the logic may make no assignment. -/
def State.keeps (state : State) : Prop := state = .idle ∨ state = .notEof ∨ state = .notBft

theorem Follows.refl {state : State} (h : state.keeps) : Follows state state := by
  rcases h with rfl | rfl | rfl <;> exact Or.inl rfl

theorem nextStateLogic_follows (state : State) (bus : Bus d) {next : State}
    (h : state.keeps → Follows state next) :
    Follows state (nextStateLogic (nextIn state bus) next) := by
  cases state with
  | idle =>
    show Follows .idle (if bus.bft && bus.as then if bus.eof then .bcast else .notEof else next)
    split
    · split
      · exact Or.inr (Or.inl rfl)
      · exact Or.inr (Or.inr rfl)
    · exact h (Or.inl rfl)
  | bcast => rfl
  | notEof =>
    show Follows .notEof (if bus.eof then .write else next)
    split
    · exact Or.inr rfl
    · exact h (Or.inr (Or.inl rfl))
  | write =>
    show Follows .write (if bus.bft then .notBft else .idle)
    split
    · exact Or.inl rfl
    · exact Or.inr rfl
  | notBft =>
    show Follows .notBft (if bus.bft then next else .idle)
    split
    · exact h (Or.inr (Or.inr rfl))
    · exact Or.inr rfl

/-- What both kinds of moves do: the logic follows a change from `state` and `bus` to `state'` and
`bus'`, if that is an event. -/
theorem Consistent.follow {s t : System d} (h : Consistent s) {addrReg : BitVec 64}
    {burstIndex : ℕ} {next : State}
    (hnext : t.r.nextState = onEvent (nextIn s.r.state s.bus) (nextIn t.r.state t.bus)
      (nextStateLogic (nextIn t.r.state t.bus) next) next)
    (hout : t.r.out = onEvent (s.r.state, s.bus.as) (t.r.state, t.bus.as)
      (outputLogic (t.r.state, t.bus.as) addrReg burstIndex) s.r.out)
    (hsame : s.r.state = t.r.state → next = s.r.nextState)
    (hkeep : t.r.state.keeps → Follows t.r.state next) : Consistent t := by
  by_cases hevent : nextIn s.r.state s.bus = nextIn t.r.state t.bus
  · have hstate : s.r.state = t.r.state := congrArg Prod.fst hevent
    have hbft : s.bus.bft = t.bus.bft := congrArg (fun i => i.2.1) hevent
    have has : s.bus.as = t.bus.as := congrArg (fun i => i.2.2.1) hevent
    have heof : s.bus.eof = t.bus.eof := congrArg (fun i => i.2.2.2) hevent
    rw [hevent, onEvent_self, hsame hstate] at hnext
    rw [hstate, has, onEvent_self] at hout
    refine ⟨?_, ?_, ?_, ?_⟩
    · rw [hout, ← hstate, ← has]
      exact h.out
    · rw [hnext, ← hstate]
      exact h.follows
    · rw [hnext, ← hstate, ← hbft, ← has, ← heof]
      exact h.idle
    · rw [hnext, ← hstate, ← heof]
      exact h.notEof
  · rw [onEvent, if_pos hevent] at hnext
    refine ⟨?_, ?_, ?_, ?_⟩
    · rw [hout]
      by_cases houtEvent : (s.r.state, s.bus.as) = (t.r.state, t.bus.as)
      · rw [houtEvent, onEvent_self, ← houtEvent]
        exact h.out
      · exact ⟨addrReg, burstIndex, if_pos houtEvent⟩
    · rw [hnext]
      exact nextStateLogic_follows t.r.state t.bus hkeep
    · intro hidle hbft has
      rw [hnext, hidle, nextIn, nextStateLogic, hbft, has]
      rfl
    · intro hnotEof heof
      rw [hnext, hnotEof, nextIn, nextStateLogic, heof]
      rfl

theorem reset_consistent (bus : Bus d) : Consistent (System.reset bus) := by
  refine ⟨⟨0, 0, rfl⟩, nextStateLogic_follows .idle bus fun h => Follows.refl h, ?_, nofun⟩
  intro _ hbft has
  show nextStateLogic (nextIn .idle bus) .idle = if bus.eof then State.bcast else State.notEof
  have hbft : bus.bft = true := hbft
  have has : bus.as = true := has
  rw [nextIn, nextStateLogic, hbft, has]
  rfl

/-- **Step lemma.** -/
theorem Consistent.step {s t : System d} {m : Move d} (h : Consistent s)
    (hstep : step s m = some t) : Consistent t := by
  cases m with
  | edge bus =>
    rw [Slave.step] at hstep
    split at hstep
    · cases hstep
    · rw [Option.some.injEq] at hstep
      subst hstep
      refine h.follow rfl rfl (fun hstate => rfl) ?_
      intro hkeep
      exact Follows.refl hkeep
  | change bus =>
    rw [Slave.step, Option.some.injEq] at hstep
    subst hstep
    exact h.follow rfl rfl (fun _ => rfl) fun _ => h.follows

theorem consistent_run {bus : Bus d} {moves : List (Move d)} {s : System d}
    (hrun : run Slave.step (System.reset bus) moves = some s) : Consistent s :=
  run_invariant Consistent (fun _ _ _ h hstep => h.step hstep) (reset_consistent bus) hrun

/-! ### Cycles -/

/-- A cycle: what the bus is from the edge on, and how it changes before the next one. -/
structure Cycle (d : Dwidth) where
  bus : Bus d
  changes : List (Bus d)
deriving DecidableEq, Repr

/-- The moves of a cycle. -/
def Cycle.moves (c : Cycle d) : List (Move d) := .edge c.bus :: c.changes.map .change

/-- The values the bus takes. -/
def Cycle.values (c : Cycle d) : List (Bus d) := c.bus :: c.changes

/-- The value sampled by the next edge. -/
def Cycle.last (c : Cycle d) : Bus d := c.changes.getLastD c.bus

/-- The address strobe changes after the edge. -/
def Cycle.AsChanges (c : Cycle d) : Prop := ∃ b ∈ c.changes, b.as ≠ c.bus.as

instance (c : Cycle d) : Decidable c.AsChanges := inferInstanceAs (Decidable (∃ _ ∈ _, _))

/-- What changes of the bus from `s` to `t` leave. -/
structure Changed (s t : System d) (bs : List (Bus d)) : Prop where
  bus : t.bus = bs.getLastD s.bus
  state : t.r.state = s.r.state
  addrReg : t.r.addrReg = s.r.addrReg
  burstReg : t.r.burstReg = s.r.burstReg
  mwrData : t.r.mwrData = s.r.mwrData
  nextState : s.r.state = .notEof → s.r.nextState = .notEof → (∀ b ∈ bs, b.eof = false) →
    t.r.nextState = .notEof
  outSame : (∀ b ∈ bs, b.as = s.bus.as) → t.r.out = s.r.out
  outNew : (∃ b ∈ bs, b.as ≠ s.bus.as) → t.r.out
    = outputLogic (t.r.state, t.bus.as) t.r.addrReg (burstIndexOf d t.r.burstReg)

/-- A change of the bus leaves the outputs, or computes them anew. -/
theorem change_out (s : System d) (b : Bus d) : (s.r.change s.bus b).out =
    if b.as = s.bus.as then s.r.out
    else outputLogic (s.r.state, b.as) s.r.addrReg (burstIndexOf d s.r.burstReg) := by
  show onEvent _ _ _ _ = _
  by_cases h : b.as = s.bus.as
  · rw [h, if_pos rfl, onEvent_self]
  · rw [if_neg h]
    exact if_pos fun heq => h (congrArg Prod.snd heq).symm

theorem change_nextState (s : System d) {b : Bus d} (hstate : s.r.state = .notEof)
    (hnext : s.r.nextState = .notEof) (heof : b.eof = false) :
    (s.r.change s.bus b).nextState = .notEof := by
  show onEvent _ _ (nextStateLogic (nextIn s.r.state b) s.r.nextState) s.r.nextState = _
  have hlogic : nextStateLogic (nextIn s.r.state b) s.r.nextState = .notEof := by
    rw [hstate, hnext, nextIn, nextStateLogic, heof]
    rfl
  rw [hlogic, hnext]
  exact ite_self _

theorem run_changes (s : System d) (bs : List (Bus d)) :
    ∃ t, run step s (bs.map .change) = some t ∧ Changed s t bs := by
  induction bs using List.reverseRecOn with
  | nil => exact ⟨s, rfl, rfl, rfl, rfl, rfl, rfl, fun _ h _ => h, fun _ => rfl, nofun⟩
  | append_singleton bs b ih =>
    obtain ⟨t, hrun, h⟩ := ih
    refine ⟨⟨t.r.change t.bus b, b⟩, ?_, ?_⟩
    · rw [List.map_append, run_append, hrun]
      rfl
    · have hlast : (bs ++ [b]).getLastD s.bus = b := List.getLastD_concat ..
      refine ⟨hlast.symm, h.state, h.addrReg, h.burstReg, h.mwrData, ?_, ?_, ?_⟩
      · intro hstate hnext heof
        refine change_nextState t (h.state.trans hstate) (h.nextState hstate hnext ?_) ?_
        · exact fun x hx => heof x (List.mem_append_left _ hx)
        · exact heof b (List.mem_append_right _ (List.mem_singleton_self b))
      · intro has
        have hbs : ∀ x ∈ bs, x.as = s.bus.as := fun x hx => has x (List.mem_append_left _ hx)
        have hb : b.as = t.bus.as := by
          rw [h.bus, has b (List.mem_append_right _ (List.mem_singleton_self b))]
          rcases List.eq_nil_or_concat bs with rfl | ⟨bs', x, rfl⟩
          · rfl
          · rw [List.concat_eq_append, List.getLastD_concat, hbs x (by simp)]
        show (t.r.change t.bus b).out = _
        rw [change_out, if_pos hb, h.outSame hbs]
      · rintro ⟨x, hx, hne⟩
        show (t.r.change t.bus b).out
          = outputLogic (t.r.state, b.as) t.r.addrReg (burstIndexOf d t.r.burstReg)
        rw [change_out]
        by_cases hb : b.as = t.bus.as
        · rw [if_pos hb, hb]
          refine h.outNew ?_
          rcases List.mem_append.mp hx with hx | hx
          · exact ⟨x, hx, hne⟩
          · obtain rfl := List.mem_singleton.mp hx
            -- the strobe had changed before
            rcases List.eq_nil_or_concat bs with rfl | ⟨bs', y, rfl⟩
            · rw [h.bus] at hb
              exact absurd hb hne
            · rw [h.bus, List.concat_eq_append, List.getLastD_concat] at hb
              exact ⟨y, by simp, hb ▸ hne⟩
        · exact if_neg hb

/-- What a cycle leaves that begins in `s`. -/
structure Cycled (s t : System d) (c : Cycle d) : Prop where
  bus : t.bus = c.last
  state : t.r.state = s.r.nextState
  addrReg : t.r.addrReg = addrClock s.r s.bus
  burstReg : t.r.burstReg = burstClock s.r
  mwrData : t.r.mwrData = dataClock s.r s.bus (burstIndexOf d s.r.burstReg)
  nextState : s.r.nextState = .notEof → (∀ b ∈ c.values, b.eof = false) →
    t.r.nextState = .notEof

theorem edge_nextState (s : System d) {b : Bus d} (hnext : s.r.nextState = .notEof)
    (heof : b.eof = false) : (s.r.edge s.bus b).nextState = .notEof := by
  show onEvent _ _ (nextStateLogic (nextIn s.r.nextState b) s.r.nextState) s.r.nextState = _
  have hlogic : nextStateLogic (nextIn s.r.nextState b) s.r.nextState = .notEof := by
    rw [hnext, nextIn, nextStateLogic, heof]
    rfl
  rw [hlogic, hnext]
  exact ite_self _

theorem step_edge {s : System d} (h : ¬s.beyond) (b : Bus d) :
    step s (.edge b) = some ⟨s.r.edge s.bus b, b⟩ := if_neg h

theorem run_cycle {s : System d} (h : ¬s.beyond) (c : Cycle d) :
    ∃ t, run step s c.moves = some t ∧ Cycled s t c := by
  obtain ⟨t, hrun, ht⟩ := run_changes ⟨s.r.edge s.bus c.bus, c.bus⟩ c.changes
  refine ⟨t, run_cons_eq_some.mpr ⟨_, step_edge h c.bus, hrun⟩, ht.bus, ht.state, ht.addrReg,
    ht.burstReg, ht.mwrData, ?_⟩
  intro hnext heof
  refine ht.nextState hnext (edge_nextState s hnext (heof c.bus List.mem_cons_self)) ?_
  exact fun b hb => heof b (List.mem_cons_of_mem _ hb)

/-- The outputs while words are taken. -/
theorem Consistent.out_notEof {s : System d} (h : Consistent s) (hstate : s.r.state = .notEof) :
    s.r.out = outputLogic (.notEof, s.bus.as) 0 0 := by
  obtain ⟨addrReg, burstIndex, hout⟩ := h.out
  rw [hout, hstate]
  cases s.bus.as with
  | true => rfl
  | false => rfl

/-! ### A burst, cycle by cycle -/

/-- A cycle of the addressing phase. -/
structure Cycle.IsAddr (addr : BitVec 64) (c : Cycle d) : Prop where
  bft : ∀ b ∈ c.values, b.bft = true
  eof : ∀ b ∈ c.values, b.eof = false
  as : c.last.as = true
  dxt : c.last.dxt.setWidth 64 = addr

/-- A cycle with a word that is not the last. -/
structure Cycle.IsWord (word : BitVec d.bits) (c : Cycle d) : Prop where
  bft : ∀ b ∈ c.values, b.bft = true
  eof : ∀ b ∈ c.values, b.eof = false
  as : c.last.as = false
  dxt : c.last.dxt = word

/-- The cycle with the last word. -/
structure Cycle.IsLastWord (word : BitVec d.bits) (c : Cycle d) : Prop where
  bft : ∀ b ∈ c.values, b.bft = true
  eof : c.last.eof = true
  as : c.last.as = false
  dxt : c.last.dxt = word

/-- The first cycle of the addressing phase, in `state_idle`. -/
structure System.StartsBurst (s : System d) : Prop where
  state : s.r.state = .idle
  bft : s.bus.bft = true
  as : s.bus.as = true
  eof : s.bus.eof = false

/-- The end of a cycle of the addressing phase. -/
structure AtAddr (s : System d) (addr : BitVec 64) : Prop where
  consistent : Consistent s
  state : s.r.state = .notEof
  nextState : s.r.nextState = .notEof
  as : s.bus.as = true
  dxt : s.bus.dxt.setWidth 64 = addr

/-- The end of a cycle with a word, when others are there. -/
structure AtWord (s : System d) (addr : BitVec 64) (words : List (BitVec d.bits))
    (word : BitVec d.bits) : Prop where
  consistent : Consistent s
  state : s.r.state = .notEof
  as : s.bus.as = false
  dxt : s.bus.dxt = word
  addrReg : s.r.addrReg = addr
  burstReg : s.r.burstReg = BitVec.ofNat 16 words.length
  words : HoldsWords s.r.mwrData words

theorem consistent_moves {s t : System d} {moves : List (Move d)} (h : Consistent s)
    (hrun : run step s moves = some t) : Consistent t :=
  run_invariant Consistent (fun _ _ _ h hstep => h.step hstep) h hrun

theorem burstIndex_eq {k : ℕ} (hk : k * d.bits ≤ 1024) :
    burstIndexOf d (BitVec.ofNat 16 k) = k * d.bits := by
  have hshift : k * 2 ^ d.shift = k * d.bits := by cases d <;> rfl
  have hle : k ≤ k * d.bits := Nat.le_mul_of_pos_right k (by cases d <;> decide)
  rw [burstIndexOf, BitVec.toNat_shiftLeft, BitVec.toNat_ofNat, Nat.shiftLeft_eq,
    Nat.mod_eq_of_lt (show k < 2 ^ 16 by omega), hshift, Nat.mod_eq_of_lt (by omega)]

section Cycles

variable {s : System d} {addr : BitVec 64} {words : List (BitVec d.bits)} {word : BitVec d.bits}

/-- Nothing is stored while the strobe is there. -/
theorem AtAddr.out (h : AtAddr s addr) : s.r.out = outputLogic (.notEof, true) 0 0 := by
  rw [h.consistent.out_notEof h.state, h.as]

theorem AtAddr.notBeyond (h : AtAddr s addr) : ¬s.beyond := by
  rintro ⟨hdata, -⟩
  rw [h.out] at hdata
  cases hdata

theorem AtWord.out (h : AtWord s addr words word) :
    s.r.out = outputLogic (.notEof, false) 0 0 := by
  rw [h.consistent.out_notEof h.state, h.as]

theorem AtWord.index (h : AtWord s addr words word)
    (hfits : words.length * d.bits + d.bits ≤ 1024) :
    burstIndexOf d s.r.burstReg = words.length * d.bits := by
  rw [h.burstReg]
  exact burstIndex_eq (by omega)

theorem AtWord.notBeyond (h : AtWord s addr words word)
    (hfits : words.length * d.bits + d.bits ≤ 1024) : ¬s.beyond := by
  rintro ⟨-, hbeyond⟩
  rw [h.index hfits] at hbeyond
  omega

/-- What the edge after a word stores. -/
theorem AtWord.stored (h : AtWord s addr words word)
    (hfits : words.length * d.bits + d.bits ≤ 1024) :
    HoldsWords (dataClock s.r s.bus (burstIndexOf d s.r.burstReg)) (words ++ [word]) := by
  have hen : s.r.out.dataEn = true := by rw [h.out]; rfl
  rw [dataClock, if_pos hen, h.index hfits, h.dxt]
  exact h.words.snoc word hfits

theorem AtWord.counted (h : AtWord s addr words word) :
    burstClock s.r = BitVec.ofNat 16 (words ++ [word]).length := by
  have hclr : s.r.out.burstClr = false := by rw [h.out]; rfl
  have hen : s.r.out.burstEn = true := by rw [h.out]; rfl
  rw [burstClock, hclr, hen, h.burstReg, List.length_append, List.length_singleton]
  apply BitVec.eq_of_toNat_eq
  simp [BitVec.toNat_add]

theorem AtWord.addressed (h : AtWord s addr words word) : addrClock s.r s.bus = addr := by
  have hen : s.r.out.addrEn = false := by rw [h.out]; rfl
  rw [addrClock, hen, ← h.addrReg]
  rfl

/-- **Step lemma**, the first addressing cycle after that in `state_idle`. -/
theorem AtAddr.start (h : Consistent s) (hstart : s.StartsBurst) {c : Cycle d}
    (hc : c.IsAddr addr) : ∃ t, run step s c.moves = some t ∧ AtAddr t addr := by
  have hnext : s.r.nextState = .notEof := by
    rw [h.idle hstart.state hstart.bft hstart.as, hstart.eof]
    rfl
  have hnot : ¬s.beyond := by
    rintro ⟨hdata, -⟩
    obtain ⟨addrReg, burstIndex, hout⟩ := h.out
    rw [hout, hstart.state] at hdata
    cases hdata
  obtain ⟨t, hrun, ht⟩ := run_cycle hnot c
  exact ⟨t, hrun, consistent_moves h hrun, ht.state.trans hnext, ht.nextState hnext hc.eof,
    ht.bus ▸ hc.as, ht.bus ▸ hc.dxt⟩

/-- **Step lemma**, a further addressing cycle. -/
theorem AtAddr.more (h : AtAddr s addr) {c : Cycle d} (hc : c.IsAddr addr) :
    ∃ t, run step s c.moves = some t ∧ AtAddr t addr := by
  obtain ⟨t, hrun, ht⟩ := run_cycle h.notBeyond c
  exact ⟨t, hrun, consistent_moves h.consistent hrun, ht.state.trans h.nextState,
    ht.nextState h.nextState hc.eof, ht.bus ▸ hc.as, ht.bus ▸ hc.dxt⟩

/-- **Step lemma**, the first word: the address is there, and the counter is cleared. -/
theorem AtAddr.first (h : AtAddr s addr) {c : Cycle d} (has : c.last.as = false)
    (hdxt : c.last.dxt = word) : ∃ t, run step s c.moves = some t ∧ AtWord t addr [] word ∧
      Cycled s t c := by
  obtain ⟨t, hrun, ht⟩ := run_cycle h.notBeyond c
  have hen : s.r.out.addrEn = true := by rw [h.out]; rfl
  have hclr : s.r.out.burstClr = true := by rw [h.out]; rfl
  refine ⟨t, hrun, ⟨consistent_moves h.consistent hrun, ht.state.trans h.nextState, ht.bus ▸ has,
    ht.bus ▸ hdxt, ?_, ?_, holdsWords_nil _⟩, ht⟩
  · rw [ht.addrReg, addrClock, if_pos hen, if_pos h.as, h.dxt]
  · rw [ht.burstReg, burstClock, if_pos hclr]
    rfl

/-- **Step lemma**, a further word: the one before is stored. -/
theorem AtWord.next (h : AtWord s addr words word) (hnext : s.r.nextState = .notEof)
    (hfits : words.length * d.bits + d.bits ≤ 1024) {c : Cycle d} {word' : BitVec d.bits}
    (has : c.last.as = false) (hdxt : c.last.dxt = word') :
    ∃ t, run step s c.moves = some t ∧ AtWord t addr (words ++ [word]) word' ∧
      Cycled s t c := by
  obtain ⟨t, hrun, ht⟩ := run_cycle (h.notBeyond hfits) c
  refine ⟨t, hrun, ⟨consistent_moves h.consistent hrun, ht.state.trans hnext, ht.bus ▸ has,
    ht.bus ▸ hdxt, ?_, ?_, ?_⟩, ht⟩
  · rw [ht.addrReg, h.addressed]
  · rw [ht.burstReg, h.counted]
  · rw [ht.mwrData]
    exact h.stored hfits

/-- The outputs in the cycle of the write.  They are computed with the burst index of the last word,
and again, with the one behind it, if the strobe changes. -/
theorem AtWord.write (h : AtWord s addr words word) (hnext : s.r.nextState = .write)
    (hfits : words.length * d.bits + d.bits ≤ 1024) (c : Cycle d) :
    ∃ t, run step s c.moves = some t ∧ t.r.state = .write ∧ t.r.nextState ≠ .write ∧
      HoldsWords t.r.mwrData (words ++ [word]) ∧
      t.r.out = outputLogic (.write, false) addr
        (if c.AsChanges then (words ++ [word]).length * d.bits else words.length * d.bits) := by
  let u : System d := ⟨s.r.edge s.bus c.bus, c.bus⟩
  have hout : u.r.out = outputLogic (.write, false) addr (words.length * d.bits) := by
    show onEvent (s.r.state, s.bus.as) (s.r.nextState, c.bus.as) (outputLogic
      (s.r.nextState, c.bus.as) (addrClock s.r s.bus) (burstIndexOf d s.r.burstReg)) s.r.out = _
    rw [h.state, hnext, onEvent, if_pos (by simp), h.addressed, h.index hfits]
    rfl
  obtain ⟨t, hchanges, ht⟩ := run_changes u c.changes
  have hrun : run step s c.moves = some t :=
    run_cons_eq_some.mpr ⟨u, step_edge (h.notBeyond hfits) c.bus, hchanges⟩
  have hstate : t.r.state = .write := ht.state.trans hnext
  have hfollows := (consistent_moves h.consistent hrun).follows
  rw [hstate] at hfollows
  refine ⟨t, hrun, hstate, ?_, ?_, ?_⟩
  · rcases hfollows with hfollows | hfollows
    · rw [hfollows]
      intro hwrite
      cases hwrite
    · rw [hfollows]
      intro hwrite
      cases hwrite
  · rw [ht.mwrData]
    exact h.stored hfits
  · by_cases has : c.AsChanges
    · have hindex : burstIndexOf d t.r.burstReg = (words ++ [word]).length * d.bits := by
        have hburst : t.r.burstReg = burstClock s.r := ht.burstReg
        rw [hburst, h.counted]
        apply burstIndex_eq
        rw [List.length_append, List.length_singleton, Nat.succ_mul]
        exact hfits
      have haddr : t.r.addrReg = addr := ht.addrReg.trans h.addressed
      rw [if_pos has, ht.outNew has, hstate, hindex, haddr]
      rfl
    · have hsame : ∀ b ∈ c.changes, b.as = c.bus.as := by
        intro b hb
        by_contra hne
        exact has ⟨b, hb, hne⟩
      rw [if_neg has, ht.outSame hsame, hout]

end Cycles

/-! ### Whole bursts -/

/-- One cycle. -/
def cycle (s : System d) (c : Cycle d) : Option (System d) := run step s c.moves

/-- A burst, from the second cycle of the addressing phase on.  Its words fit in the payload. -/
structure Burst (d : Dwidth) where
  addr : BitVec 64
  addrCycles : List (Cycle d)
  words : List (BitVec d.bits)
  wordCycles : List (Cycle d)
  lastWord : BitVec d.bits
  lastCycle : Cycle d
  addr_ne : addrCycles ≠ []
  isAddr : ∀ c ∈ addrCycles, c.IsAddr addr
  isWord : List.Forall₂ Cycle.IsWord words wordCycles
  isLast : lastCycle.IsLastWord lastWord
  fits : (words ++ [lastWord]).length * d.bits ≤ 1024

namespace Burst

/-- All words. -/
def allWords (b : Burst d) : List (BitVec d.bits) := b.words ++ [b.lastWord]

/-- All cycles. -/
def cycles (b : Burst d) : List (Cycle d) := b.addrCycles ++ (b.wordCycles ++ [b.lastCycle])

/-- The write that the outputs ask for is that of the burst. -/
structure Written (b : Burst d) (t : System d) : Prop where
  mwrEn : t.r.out.mwrEn = true
  mwrAddr : t.r.out.mwrAddr = b.addr
  mwrSize : t.r.out.mwrSize.toNat = b.allWords.length * d.bits / 8
  mwrData : HoldsWords t.r.mwrData b.allWords

/-- The burst that starts in `s` becomes the right write in the cycle `c` after it: the slave is in
`state_write` in this cycle, in none before, and it leaves it at once. -/
def Correct (b : Burst d) (s : System d) (c : Cycle d) : Prop :=
  EachStep cycle (fun u _ => u.r.state ≠ .write) s (b.cycles ++ [c]) ∧
    ∃ t, run cycle s (b.cycles ++ [c]) = some t ∧ t.r.state = .write ∧ t.r.nextState ≠ .write ∧
      b.Written t

end Burst

/-- A run of cycles before which the slave is not in `state_write`. -/
def Taken (s : System d) (cs : List (Cycle d)) (t : System d) : Prop :=
  run cycle s cs = some t ∧ EachStep cycle (fun u _ => u.r.state ≠ .write) s cs

theorem Taken.cons {s t u : System d} {c : Cycle d} {cs : List (Cycle d)}
    (hs : s.r.state ≠ .write) (hc : cycle s c = some t) (h : Taken t cs u) :
    Taken s (c :: cs) u :=
  ⟨run_cons_eq_some.mpr ⟨t, hc, h.1⟩, (eachStep_cons hc).mpr ⟨hs, h.2⟩⟩

theorem Taken.nil (s : System d) : Taken s [] s := ⟨rfl, trivial⟩

theorem Taken.append {s t u : System d} {cs cs' : List (Cycle d)} (h : Taken s cs t)
    (h' : Taken t cs' u) : Taken s (cs ++ cs') u :=
  ⟨run_append_eq_some.mpr ⟨t, h.1, h'.1⟩, (eachStep_append h.1).mpr ⟨h.2, h'.2⟩⟩

theorem AtAddr.run {s : System d} {addr : BitVec 64} (h : AtAddr s addr) {cs : List (Cycle d)}
    (hcs : ∀ c ∈ cs, c.IsAddr addr) : ∃ t, Taken s cs t ∧ AtAddr t addr := by
  induction cs generalizing s with
  | nil => exact ⟨s, Taken.nil s, h⟩
  | cons c cs ih =>
    obtain ⟨u, hu, hat⟩ := h.more (hcs c List.mem_cons_self)
    obtain ⟨t, ht, hat'⟩ := ih hat fun c' hc' => hcs c' (List.mem_cons_of_mem c hc')
    exact ⟨t, Taken.cons (by rw [h.state]; nofun) hu ht, hat'⟩

/-- The words so far are there, the last of them about to be stored. -/
def Received (s : System d) (addr : BitVec 64) (all : List (BitVec d.bits)) : Prop :=
  ∃ words word, all = words ++ [word] ∧ AtWord s addr words word

theorem received_next {s : System d} {addr : BitVec 64} {all : List (BitVec d.bits)}
    {word : BitVec d.bits} {c : Cycle d} (h : Received s addr all)
    (hnext : s.r.nextState = .notEof) (hfits : all.length * d.bits ≤ 1024)
    (has : c.last.as = false) (hdxt : c.last.dxt = word) :
    ∃ t, run step s c.moves = some t ∧ Received t addr (all ++ [word]) ∧ Cycled s t c := by
  obtain ⟨words, word₀, rfl, hat⟩ := h
  rw [List.length_append, List.length_singleton, Nat.succ_mul] at hfits
  obtain ⟨t, hrun, hat', ht⟩ := hat.next hnext hfits has hdxt
  exact ⟨t, hrun, ⟨_, _, rfl, hat'⟩, ht⟩

theorem Received.run {s : System d} {addr : BitVec 64} {all words : List (BitVec d.bits)}
    {cs : List (Cycle d)} (h : Received s addr all) (hnext : s.r.nextState = .notEof)
    (hcs : List.Forall₂ Cycle.IsWord words cs) (hfits : (all ++ words).length * d.bits ≤ 1024) :
    ∃ t, Taken s cs t ∧ Received t addr (all ++ words) ∧ t.r.nextState = .notEof := by
  induction hcs generalizing s all with
  | nil => exact ⟨s, Taken.nil s, (List.append_nil all).symm ▸ h, hnext⟩
  | @cons word c words cs hc _ ih =>
    have hle : all.length * d.bits ≤ 1024 := by
      refine le_trans (Nat.mul_le_mul_right _ ?_) hfits
      rw [List.length_append]
      exact Nat.le_add_right _ _
    obtain ⟨u, hu, hreceived, hcycled⟩ := received_next h hnext hle hc.as hc.dxt
    have hsplit : all ++ word :: words = all ++ [word] ++ words := by simp
    rw [hsplit] at hfits ⊢
    obtain ⟨t, ht, hreceived', hnext'⟩ := ih hreceived (hcycled.nextState hnext hc.eof) hfits
    have hstate : s.r.state ≠ .write := by
      obtain ⟨_, _, _, hat⟩ := h
      rw [hat.state]
      nofun
    exact ⟨t, Taken.cons hstate hu ht, hreceived', hnext'⟩

theorem Received.state {s : System d} {addr : BitVec 64} {all : List (BitVec d.bits)}
    (h : Received s addr all) : s.r.state = .notEof ∧ Consistent s := by
  obtain ⟨_, _, _, hat⟩ := h
  exact ⟨hat.state, hat.consistent⟩

/-- A word with `eb_eof` ends the burst. -/
theorem Received.next_write {s t : System d} {addr : BitVec 64} {all : List (BitVec d.bits)}
    {c : Cycle d} (h : Received t addr all) (hc : Cycled s t c) (heof : c.last.eof = true) :
    t.r.nextState = .write := by
  obtain ⟨hstate, hconsistent⟩ := h.state
  refine hconsistent.notEof hstate ?_
  rw [hc.bus]
  exact heof

/-- **A burst is taken**: all words are there, the last one about to be stored. -/
theorem Burst.taken (b : Burst d) {s : System d} (h : Consistent s) (hstart : s.StartsBurst) :
    ∃ t, Taken s b.cycles t ∧ Received t b.addr b.allWords ∧ t.r.nextState = .write := by
  obtain ⟨addr, addrCycles, words, wordCycles, lastWord, lastCycle, hne, haddr, hword, hlast,
    hfits⟩ := b
  obtain ⟨c, cs, rfl⟩ := List.exists_cons_of_ne_nil hne
  obtain ⟨s₁, hs₁, hat₁⟩ := AtAddr.start h hstart (haddr c List.mem_cons_self)
  obtain ⟨s₂, hs₂, hat₂⟩ := hat₁.run fun c' hc' => haddr c' (List.mem_cons_of_mem c hc')
  have haddressed : Taken s (c :: cs) s₂ := Taken.cons (by rw [hstart.state]; nofun) hs₁ hs₂
  have hstate₂ : s₂.r.state ≠ .write := by
    rw [hat₂.state]
    nofun
  cases hword with
  | nil =>
    obtain ⟨t, ht, hat, hcycled⟩ := hat₂.first hlast.as hlast.dxt
    have hreceived : Received t addr [lastWord] := ⟨[], lastWord, rfl, hat⟩
    exact ⟨t, haddressed.append (Taken.cons hstate₂ ht (Taken.nil t)), hreceived,
      hreceived.next_write hcycled hlast.eof⟩
  | @cons word c' words cs' hc' hcs' =>
    obtain ⟨s₃, hs₃, hat₃, hcycled₃⟩ := hat₂.first hc'.as hc'.dxt
    have hreceived₃ : Received s₃ addr [word] := ⟨[], word, rfl, hat₃⟩
    have hle : (word :: words).length * d.bits ≤ 1024 := by
      refine le_trans (Nat.mul_le_mul_right _ ?_) hfits
      rw [List.length_append]
      exact Nat.le_add_right _ _
    obtain ⟨s₄, hs₄, hreceived₄, hnext₄⟩ :=
      hreceived₃.run (hcycled₃.nextState hat₂.nextState hc'.eof) hcs' hle
    obtain ⟨t, ht, hreceived, hcycled⟩ := received_next hreceived₄ hnext₄ hle hlast.as hlast.dxt
    have hstate₄ : s₄.r.state ≠ .write := by
      rw [hreceived₄.state.1]
      nofun
    refine ⟨t, ?_, hreceived, hreceived.next_write hcycled hlast.eof⟩
    exact haddressed.append (Taken.cons hstate₂ hs₃
      (hs₄.append (Taken.cons hstate₄ ht (Taken.nil t))))

/-- The outputs in the cycle of the write. -/
theorem Received.write {s : System d} {addr : BitVec 64} {all : List (BitVec d.bits)}
    (h : Received s addr all) (hnext : s.r.nextState = .write) (hfits : all.length * d.bits ≤ 1024)
    (c : Cycle d) : ∃ t, cycle s c = some t ∧ t.r.state = .write ∧ t.r.nextState ≠ .write ∧
      HoldsWords t.r.mwrData all ∧ t.r.out = outputLogic (.write, false) addr
        (if c.AsChanges then all.length * d.bits else (all.length - 1) * d.bits) := by
  obtain ⟨words, word, rfl, hat⟩ := h
  rw [List.length_append, List.length_singleton, Nat.succ_mul] at hfits
  rw [List.length_append, List.length_singleton, Nat.add_sub_cancel]
  obtain ⟨t, ht, hstate, hleaves, hwords, hout⟩ := hat.write hnext hfits c
  rw [List.length_append, List.length_singleton] at hout
  exact ⟨t, ht, hstate, hleaves, hwords, hout⟩

theorem size_toNat {k : ℕ} (hk : k * d.bits ≤ 1024) :
    (BitVec.ofNat 16 (k * d.bits / 8)).toNat = k * d.bits / 8 := by
  rw [BitVec.toNat_ofNat, Nat.mod_eq_of_lt]
  omega

section Reachable

variable {bus : Bus d} {moves : List (Move d)} {s : System d}

/-- **A burst becomes the right write** exactly when the address strobe changes, after the edge, in
the cycle of the write: the address and the words are always those of the burst, and without the
change the byte count is short by one word. -/
theorem write_iff (hrun : run step (System.reset bus) moves = some s) (hstart : s.StartsBurst)
    (b : Burst d) (c : Cycle d) : b.Correct s c ↔ c.AsChanges := by
  obtain ⟨t, htaken, hreceived, hnext⟩ := b.taken (consistent_run hrun) hstart
  obtain ⟨u, hu, hstate, hleaves, hwords, hout⟩ := hreceived.write hnext b.fits c
  have hlast : Taken s (b.cycles ++ [c]) u :=
    htaken.append (Taken.cons (by rw [hreceived.state.1]; nofun) hu (Taken.nil u))
  have hpos : 0 < b.allWords.length := by
    rw [Burst.allWords, List.length_append, List.length_singleton]
    exact Nat.succ_pos _
  constructor
  · rintro ⟨-, v, hv, -, -, hwritten⟩
    obtain rfl : u = v := Option.some.inj (hlast.1.symm.trans hv)
    by_contra has
    have hsize := hwritten.mwrSize
    rw [hout, if_neg has] at hsize
    have hle : (b.allWords.length - 1) * d.bits ≤ 1024 :=
      le_trans (Nat.mul_le_mul_right _ (Nat.sub_le _ _)) b.fits
    have hshort : (BitVec.ofNat 16 ((b.allWords.length - 1) * d.bits / 8)).toNat
        = b.allWords.length * d.bits / 8 := hsize
    rw [size_toNat hle] at hshort
    obtain ⟨k, hk⟩ : ∃ k, b.allWords.length = k + 1 := ⟨b.allWords.length - 1, by omega⟩
    rw [hk, Nat.add_sub_cancel, Nat.succ_mul] at hshort
    have hbits : 64 ≤ d.bits := by cases d <;> decide
    omega
  · intro has
    rw [if_pos has] at hout
    refine ⟨hlast.2, u, hlast.1, hstate, hleaves, ?_, ?_, ?_, hwords⟩
    · rw [hout]
      rfl
    · rw [hout]
      rfl
    · rw [hout]
      exact size_toNat b.fits

end Reachable

/-- The bus before and after a burst. -/
def quietBus : Bus .dwidth64 := ⟨0, false, false, false⟩

/-- The bus in an addressing phase. -/
def addrBus : Bus .dwidth64 := ⟨0x1000, true, true, false⟩

/-- A burst of one word. -/
def oneWord : Burst .dwidth64 where
  addr := 0x1000
  addrCycles := [⟨addrBus, []⟩]
  words := []
  wordCycles := []
  lastWord := 0x2a
  lastCycle := ⟨⟨0x2a, true, false, true⟩, []⟩
  addr_ne := List.cons_ne_nil _ _
  isAddr := by
    intro c hc
    obtain rfl := List.mem_singleton.mp hc
    exact ⟨by decide, by decide, rfl, rfl⟩
  isWord := List.Forall₂.nil
  isLast := ⟨by decide, rfl, rfl, rfl⟩
  fits := by decide

/-- The slave in the first cycle of its addressing phase. -/
def oneWordStart : System .dwidth64 :=
  ⟨(System.reset quietBus).r.edge quietBus addrBus, addrBus⟩

theorem write_iff_oneWord :
    oneWord.Correct oneWordStart ⟨quietBus, []⟩ ↔ (⟨quietBus, []⟩ : Cycle .dwidth64).AsChanges :=
  write_iff (show run step (System.reset quietBus) [.edge addrBus] = some oneWordStart from rfl)
    ⟨rfl, rfl, rfl, rfl⟩ oneWord ⟨quietBus, []⟩

/-- It becomes a write of no bytes. -/
theorem oneWord_short : ¬∀ (bus : Bus .dwidth64) (moves : List (Move .dwidth64))
    (s : System .dwidth64), run step (System.reset bus) moves = some s → s.StartsBurst →
      ∀ (b : Burst .dwidth64) (c : Cycle .dwidth64), b.Correct s c := by
  intro h
  obtain ⟨-, t, ht, -, -, hwritten⟩ := h quietBus [.edge addrBus] oneWordStart rfl
    ⟨rfl, rfl, rfl, rfl⟩ oneWord ⟨quietBus, []⟩
  have hsize : (run cycle oneWordStart (oneWord.cycles ++ [⟨quietBus, []⟩])).map
      (fun t => t.r.out.mwrSize) = some 0 := by decide +kernel
  rw [ht, Option.map_some, Option.some.injEq] at hsize
  have hbytes := hwritten.mwrSize
  rw [hsize] at hbytes
  exact absurd hbytes (by decide)

end VPcie.Ebone.Slave
