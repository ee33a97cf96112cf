import VPcie.Ebone.Core
import VPcie.Ebone.Requests

/-!
# Register slaves on the E-bone

The endpoint, master 0, the core and any number of register slaves, as `rashpa_top` connects them;
master 1 is not there, and the fast transmitter does not ask for the bus.

Between two edges the bus changes from what it was to what the new registers make of it, line by
line in any order: `Mix` says which lines have changed already.

* `BusConfig` — the slaves, in windows apart, and what their read only registers are wired to;
* `Top.clock` — one cycle;
* `busOf_one` — the bus, where one slave at most has been addressed;
* `System.Settled` — the latch of the next state has followed the bus;
* `exec`, `serve` — the register files behind the bus, and what reads of them give.
-/

namespace VPcie.Ebone

open VPcie.Lib VPcie.Glue
open VPcie.Vhdl (Req Endpoint hasSize)

/-! ### The composition -/

/-- The slaves and the core: the generics, the read only registers as a function of the others,
`reg0_sclr_i`, and the time out. -/
structure BusConfig (n : ℕ) where
  gens : Fin n → RegsGenerics
  regsI : Fin n → (ℕ → BitVec 32) → ℕ → BitVec 32
  sclr : Fin n → Bool
  tmoDk : ℕ
  apart : ∀ i j dat, (gens i).selects dat = true → (gens j).selects dat = true → i = j
  one_lt_tmoDk : 1 < tmoDk

variable {n : ℕ} {b : BusConfig n}

/-- The endpoint with the master, the core, and the slaves. -/
structure Top (b : BusConfig n) where
  sys : System
  core : Core b.tmoDk
  regs : (i : Fin n) → Regs (b.gens i)

/-- Which lines of the bus have changed already. -/
structure Mix where
  bg : Bool
  dk : Bool
  err : Bool
  dat : Bool
  bft : Bool
  bmx : Bool

/-- The bus on the way from one value to another. -/
def Mix.bus (x : Mix) (old new : Bus) : Bus where
  bg := if x.bg then new.bg else old.bg
  dk := if x.dk then new.dk else old.dk
  err := if x.err then new.err else old.err
  dat := if x.dat then new.dat else old.dat
  bft := if x.bft then new.bft else old.bft
  bmx := if x.bmx then new.bmx else old.bmx

/-- What comes from outside in a cycle: accesses, interrupt requests, and in which order the lines
of the bus change. -/
structure TopIn (n : ℕ) where
  arrivals : List AccessView
  irqI : Fin n → Bool
  mixes : List Mix

/-- A master that does nothing. -/
def MasterLines.silent : MasterLines := ⟨false, false, false, false, 0⟩

/-- The inputs of the core. -/
def coreIn (out : MasterOut) (slaves : List SlaveLines) : CoreIn where
  m0 := ⟨out.brq, out.as, out.eof, out.aef, out.dat⟩
  m1 := .silent
  ft := .silent
  s0Dk := false
  s0Err := false
  slaves := slaves

/-- What reaches the slaves. -/
def linesOf (out : MasterOut) : Lines := (coreIn out []).linesTo.1

/-- What the slaves drive. -/
def slaveLines (regs : (i : Fin n) → Regs (b.gens i)) (lines : Lines) : List SlaveLines :=
  (List.finRange n).map fun i => ⟨(regs i).dkO, (regs i).errO lines, (regs i).datO⟩

/-- What reaches the master. -/
def busOf (out : MasterOut) (core : Core b.tmoDk) (regs : (i : Fin n) → Regs (b.gens i)) : Bus :=
  (coreIn out (slaveLines regs (linesOf out))).busTo core

/-- What an edge samples at a slave. -/
def Top.regsIn (s : Top b) (c : TopIn n) (i : Fin n) : RegsIn :=
  ⟨false, linesOf s.sys.m.out, b.regsI i (s.regs i).rwRegs, c.irqI i, b.sclr i⟩

/-- The slaves after the edge. -/
def Top.regsNext (s : Top b) (c : TopIn n) (i : Fin n) : Regs (b.gens i) :=
  (s.regs i).clock (s.regsIn c i)

/-- The core after it. -/
def Top.coreNext (s : Top b) : Core b.tmoDk :=
  s.core.clock (coreIn s.sys.m.out (slaveLines s.regs (linesOf s.sys.m.out)))

/-- The bus once all signals have followed. -/
def Top.busNext (s : Top b) (c : TopIn n) : Bus :=
  busOf (s.sys.m.outputs s.sys.req s.sys.bus) s.coreNext (s.regsNext c)

/-- The cycle as the endpoint and the master see it. -/
def Top.cycle (s : Top b) (c : TopIn n) : Cycle where
  arrivals := c.arrivals
  bus := s.sys.bus
  changes := c.mixes.map (fun x => x.bus s.sys.bus (s.busNext c)) ++ [s.busNext c]

/-- A rising edge, and what follows before the next. -/
def Top.clock (s : Top b) (c : TopIn n) : Top b where
  sys := s.sys.clock (s.cycle c)
  core := s.coreNext
  regs := s.regsNext c

/-- What a reset leaves of a slave, with `'0'` for what it does not assign. -/
def Regs.reset {g : RegsGenerics} : Regs g where
  state := .iddle
  myself := false
  irqBcall := false
  ofst := 0
  ovfErr := false
  rwRegs := fun _ => 0
  rmux := 0
  irqs := ⟨false, false, false, false, false, 0, false⟩
  sDk := false

/-- The state a reset leaves, once the bus is free. -/
def Top.reset : Top b where
  sys := System.reset ⟨false, false, false, 0, false, false⟩
  core := ⟨false, false, 0, false, false, .iddle⟩
  regs := fun _ => Regs.reset

/-! ### The lines -/

theorem linesOf_eq (out : MasterOut) :
    linesOf out
      = if out.brq then ⟨true, out.as, out.eof, out.dat⟩ else ⟨false, false, false, 0⟩ := by
  cases hbrq : out.brq with
  | true => simp [linesOf, CoreIn.linesTo, CoreIn.busState, coreIn, arbiter, hbrq]
  | false =>
    simp [linesOf, CoreIn.linesTo, CoreIn.busState, coreIn, arbiter, hbrq, MasterLines.silent]

theorem coreIn_busState (out : MasterOut) (slaves : List SlaveLines) :
    (coreIn out slaves).busState = if out.brq then .m0 else .iddle := by
  cases hbrq : out.brq with
  | true => simp [CoreIn.busState, coreIn, arbiter, hbrq]
  | false => simp [CoreIn.busState, coreIn, arbiter, hbrq, MasterLines.silent]

theorem foldl_or (xs : List SlaveLines) (f : SlaveLines → Bool) (acc : Bool) :
    xs.foldl (fun acc s => acc || f s) acc = (acc || xs.any f) := by
  induction xs generalizing acc with
  | nil => simp
  | cons x xs ih => rw [List.foldl_cons, ih, List.any_cons, Bool.or_assoc]

/-- The data of a bus that one slave drives at most. -/
theorem foldl_dat (xs : List (Fin n)) (f : Fin n → BitVec 32) (acc : BitVec 32) (k : Fin n)
    (hoff : ∀ i, i ≠ k → f i = 0) :
    xs.foldl (fun acc i => acc ||| f i) acc = if k ∈ xs then acc ||| f k else acc := by
  induction xs generalizing acc with
  | nil => simp
  | cons x xs ih =>
    rw [List.foldl_cons, ih]
    by_cases hx : x = k
    · subst hx
      by_cases hmem : x ∈ xs
      · simp [hmem, BitVec.or_assoc]
      · simp [hmem]
    · by_cases hmem : k ∈ xs
      · simp [hmem, hoff x hx]
      · simp [hmem, hoff x hx, Ne.symm hx]

section BusOf

variable (out : MasterOut) (core : Core b.tmoDk) {regs : (i : Fin n) → Regs (b.gens i)}

theorem busOf_eq (regs : (i : Fin n) → Regs (b.gens i)) : busOf out core regs
    = ⟨out.brq, (List.finRange n).any fun i => (regs i).dkO,
        ((List.finRange n).any fun i => (regs i).errO (linesOf out)) || core.coreErr,
        (List.finRange n).foldl (fun acc i => acc ||| (regs i).datO) 0, false, out.brq⟩ := by
  simp only [busOf, CoreIn.busTo, CoreIn.dk, coreIn_busState, foldl_or]
  cases hbrq : out.brq with
  | true =>
    simp [coreIn, slaveLines, List.any_map, Function.comp_def, List.foldl_map, BusState.bft,
      BusState.bmx]
  | false =>
    simp [coreIn, slaveLines, List.any_map, Function.comp_def, List.foldl_map, BusState.bft,
      BusState.bmx]

theorem any_finRange (f : Fin n → Bool) (k : Fin n) (hoff : ∀ i, i ≠ k → f i = false) :
    (List.finRange n).any f = f k := by
  rw [Bool.eq_iff_iff, List.any_eq_true]
  constructor
  · rintro ⟨i, -, hi⟩
    by_cases hik : i = k
    · rw [← hik, hi]
    · rw [hoff i hik] at hi
      cases hi
  · exact fun hk => ⟨k, List.mem_finRange k, hk⟩

/-- Nobody is addressed. -/
theorem busOf_quiet (hoff : ∀ i, (regs i).Quiet) :
    busOf out core regs = ⟨out.brq, false, core.coreErr, 0, false, out.brq⟩ := by
  have hdat : ∀ (xs : List (Fin n)) (acc : BitVec 32),
      xs.foldl (fun acc i => acc ||| (regs i).datO) acc = acc := by
    intro xs
    induction xs with
    | nil => exact fun _ => rfl
    | cons x xs ih =>
      intro acc
      rw [List.foldl_cons, ih, (hoff x).datO]
      exact BitVec.or_zero
  have hnone : ∀ f : Fin n → Bool, (∀ i, f i = false) → (List.finRange n).any f = false := by
    intro f hf
    simp [hf]
  rw [busOf_eq, hdat, hnone _ fun i => (hoff i).dkO, hnone _ fun i => (hoff i).errO _,
    Bool.false_or]

/-- One slave may be. -/
theorem busOf_one (k : Fin n) (hoff : ∀ i, i ≠ k → (regs i).Quiet) :
    busOf out core regs = ⟨out.brq, (regs k).dkO, (regs k).errO (linesOf out) || core.coreErr,
      (regs k).datO, false, out.brq⟩ := by
  have hdk := any_finRange (fun i => (regs i).dkO) k fun i hi => (hoff i hi).dkO
  have herr := any_finRange (fun i => (regs i).errO (linesOf out)) k fun i hi => (hoff i hi).errO _
  have hdat := foldl_dat (List.finRange n) (fun i => (regs i).datO) 0 k fun i hi => (hoff i hi).datO
  have hzero : (0 : BitVec 32) ||| (regs k).datO = (regs k).datO := BitVec.zero_or
  rw [if_pos (List.mem_finRange k), hzero] at hdat
  rw [busOf_eq, hdk, herr, hdat]

end BusOf

/-! ### The next state of the master -/

/-- The next state is what the logic makes of the bus. -/
def System.Settled (s : System) : Prop :=
  s.m.nextState = nextStateLogic (nextIn s.m s.req.en s.bus s.bus.busy) s.m.cap.w32CountMinusOne
    s.m.nextState

theorem nextStateLogic_idem (i : NextIn) (minusOne : BitVec 16) (next : MasterState) :
    nextStateLogic i minusOne (nextStateLogic i minusOne next)
      = nextStateLogic i minusOne next := by
  unfold nextStateLogic
  cases i.state with
  | idle => dsimp only; split <;> rfl
  | as => dsimp only; split_ifs <;> rfl
  | _ => rfl

theorem follow_settled {m : Master} {old : NextIn} {reqEn : Bool} {bus bus' : Bus}
    (h : old = nextIn m reqEn bus' bus'.busy → m.nextState
      = nextStateLogic old m.cap.w32CountMinusOne m.nextState) :
    (m.follow old reqEn bus bus').nextState
      = nextStateLogic (nextIn m reqEn bus' bus'.busy) m.cap.w32CountMinusOne
          (m.follow old reqEn bus bus').nextState := by
  let first := nextIn m reqEn bus' bus.busy
  let second := nextIn m reqEn bus' bus'.busy
  show onEvent first second (nextStateLogic second _ _) _
    = nextStateLogic second _ (onEvent first second (nextStateLogic second _ _) _)
  by_cases hsecond : first = second
  · rw [hsecond, onEvent_self]
    show onEvent old first (nextStateLogic first _ _) _
      = nextStateLogic second _ (onEvent old first (nextStateLogic first _ _) _)
    by_cases hfirst : old = first
    · rw [hfirst, onEvent_self, ← hsecond, ← hfirst]
      exact h (hfirst.trans hsecond)
    · rw [onEvent, if_pos hfirst, hsecond, nextStateLogic_idem]
  · rw [onEvent, if_pos hsecond, nextStateLogic_idem]

/-- What each execution of the logic keeps. -/
theorem follow_keeps (Q : MasterState → Prop) {m : Master} {old : NextIn} {reqEn : Bool}
    {bus bus' : Bus} (hQ : ∀ busy next, Q next →
      Q (nextStateLogic (nextIn m reqEn bus' busy) m.cap.w32CountMinusOne next))
    (h : Q m.nextState) : Q (m.follow old reqEn bus bus').nextState := by
  have hevent : ∀ (old : NextIn) busy next, Q next → Q (onEvent old (nextIn m reqEn bus' busy)
      (nextStateLogic (nextIn m reqEn bus' busy) m.cap.w32CountMinusOne next) next) := by
    intro old busy next hnext
    rw [onEvent]
    split
    · exact hQ busy next hnext
    · exact hnext
  exact hevent _ bus'.busy _ (hevent old bus.busy _ h)

theorem busChanges_settled {m : Master} {req : Req} {bus : Bus} (changes : List Bus)
    (h : m.nextState = nextStateLogic (nextIn m req.en bus bus.busy) m.cap.w32CountMinusOne
      m.nextState) :
    (m.busChanges req bus changes).nextState
      = nextStateLogic (nextIn m req.en (changes.getLastD bus) (changes.getLastD bus).busy)
          m.cap.w32CountMinusOne (m.busChanges req bus changes).nextState := by
  induction changes generalizing m bus with
  | nil => exact h
  | cons bus' changes ih =>
    rw [List.getLastD_cons]
    exact ih (m := m.busChange req bus bus') (follow_settled fun _ => h)

/-- Where the logic may make no assignment it does not read the length of the burst. -/
theorem nextStateLogic_minusOne {i : NextIn} (h : i.state.keeps) (c d : BitVec 16)
    (next : MasterState) : nextStateLogic i c next = nextStateLogic i d next := by
  rcases h with h | h
  · simp only [nextStateLogic, h]
  · simp only [nextStateLogic, h]

/-- **Step lemma.** -/
theorem System.Settled.clock {s : System} (hs : s.Settled) (h : s.Consistent) (c : Cycle) :
    (s.clock c).Settled := by
  let old := nextIn s.m s.req.en s.bus s.bus.busy
  let edge := s.m.edge s.req (s.clock c).req s.bus c.bus
  have hedge : edge.nextState = nextStateLogic (nextIn edge (s.clock c).req.en c.bus c.bus.busy)
      edge.cap.w32CountMinusOne edge.nextState := by
    refine follow_settled (fun hsame => ?_)
    have hstate : s.m.state = s.m.nextState := congrArg NextIn.state hsame
    have hself := h.follows
    rw [← hstate] at hself
    have hkeeps : old.state.keeps := hself.keeps
    exact hs.trans (nextStateLogic_minusOne hkeeps _ _ _)
  have hall := @busChanges_settled _ (s.clock c).req _ c.changes hedge
  obtain ⟨next, hm⟩ := busChanges_eq edge (s.clock c).req c.bus c.changes
  have hclock : (s.clock c).m = { edge with nextState := next } := hm
  rw [hm] at hall
  rw [System.Settled, hclock]
  exact hall

/-- What each execution of the logic keeps is kept by all that follow an edge. -/
theorem busChanges_keeps (Q : MasterState → Prop) {m : Master} {req : Req} {bus : Bus}
    (changes : List Bus) (hQ : ∀ bus' ∈ changes, ∀ busy next, Q next →
      Q (nextStateLogic (nextIn m req.en bus' busy) m.cap.w32CountMinusOne next))
    (h : Q m.nextState) : Q (m.busChanges req bus changes).nextState := by
  induction changes generalizing m bus with
  | nil => exact h
  | cons bus' changes ih =>
    refine ih (m := m.busChange req bus bus') (fun d hd => hQ d (List.mem_cons_of_mem _ hd)) ?_
    exact follow_keeps Q (hQ bus' List.mem_cons_self) h

/-! ### The register files -/

/-- The read and write registers of all slaves. -/
abbrev Files (n : ℕ) : Type := Fin n → ℕ → BitVec 32

/-- The slave that an access is for. -/
def BusConfig.decode (b : BusConfig n) (a : AccessView) : Option (Fin n) :=
  (List.finRange n).find? fun i => (b.gens i).selects (addrOf a)

/-- The register of it that an access is for. -/
def BusConfig.place (b : BusConfig n) (i : Fin n) (a : AccessView) : ℕ :=
  ((b.gens i).offset (addrOf a)).toNat

/-- What an access does to the registers, and what is read; `none` if nobody takes it. -/
def exec (b : BusConfig n) (f : Files n) (a : AccessView) : Option (Files n × BitVec 32) :=
  (b.decode a).bind fun i =>
    if (b.gens i).ovfWr (addrOf a) then none
    else if a.isRead then
      ((b.gens i).readAt (f i) (b.regsI i (f i)) (b.place i a)).map fun w => (f, w)
    else
      some (Function.update f i
        ((b.gens i).tick (b.sclr i) ((b.gens i).put (f i) (b.place i a) (dataOf a))), 0)

/-- What a read is answered with. -/
def replyOf (a : AccessView) (w : BitVec 32) : List (BitVec 64) :=
  if a.isRead then [w.setWidth 64] else []

/-- Accesses in a row, all of which are taken. -/
def execAll (b : BusConfig n) : Files n → List AccessView → Option (Files n × List (BitVec 64))
  | f, [] => some (f, [])
  | f, a :: as => (exec b f a).bind fun r =>
    (execAll b r.1 as).map fun t => (t.1, replyOf a r.2 ++ t.2)

/-- Accesses in a row, up to the first that nobody takes: the registers, and the replies. -/
def serve (b : BusConfig n) : Files n → List AccessView → Files n × List (BitVec 64)
  | f, [] => (f, [])
  | f, a :: as =>
    match exec b f a with
    | none => (f, [])
    | some (f', w) => ((serve b f' as).1, replyOf a w ++ (serve b f' as).2)

theorem execAll_snoc {f f' g : Files n} {as : List AccessView} {ws : List (BitVec 64)}
    {a : AccessView} {w : BitVec 32} (h : execAll b f as = some (f', ws))
    (ha : exec b f' a = some (g, w)) :
    execAll b f (as ++ [a]) = some (g, ws ++ replyOf a w) := by
  induction as generalizing f ws with
  | nil =>
    rw [execAll, Option.some.injEq, Prod.mk.injEq] at h
    obtain ⟨rfl, rfl⟩ := h
    simp [execAll, ha]
  | cons c as ih =>
    simp only [execAll, Option.bind_eq_some_iff, Option.map_eq_some_iff, Prod.mk.injEq] at h
    obtain ⟨r, hr, t, ht, rfl, rfl⟩ := h
    rw [List.cons_append, execAll, hr, Option.bind_some, ih ht]
    simp [List.append_assoc]

theorem serve_append {f f' : Files n} {as : List AccessView} {ws : List (BitVec 64)}
    (h : execAll b f as = some (f', ws)) (rest : List AccessView) :
    serve b f (as ++ rest) = ((serve b f' rest).1, ws ++ (serve b f' rest).2) := by
  induction as generalizing f ws with
  | nil =>
    rw [execAll, Option.some.injEq, Prod.mk.injEq] at h
    obtain ⟨rfl, rfl⟩ := h
    rfl
  | cons c as ih =>
    simp only [execAll, Option.bind_eq_some_iff, Option.map_eq_some_iff, Prod.mk.injEq] at h
    obtain ⟨r, hr, t, ht, rfl, rfl⟩ := h
    rw [List.cons_append, serve, hr]
    simp only [ih ht, List.append_assoc]

/-- What follows an access that nobody takes is not served. -/
theorem serve_none {f : Files n} {a : AccessView} (h : exec b f a = none)
    (rest : List AccessView) : serve b f (a :: rest) = (f, []) := by
  rw [serve, h]

theorem serve_some {f f' : Files n} {a : AccessView} {w : BitVec 32}
    (h : exec b f a = some (f', w)) (rest : List AccessView) :
    serve b f (a :: rest) = ((serve b f' rest).1, replyOf a w ++ (serve b f' rest).2) := by
  rw [serve, h]

/-- The bits that clear themselves are clear. -/
def Masked (b : BusConfig n) (f : Files n) : Prop :=
  ∀ i, (b.gens i).tick (b.sclr i) (f i) = f i

theorem place_lt (i : Fin n) (a : AccessView) : b.place i a < (b.gens i).adSize :=
  ((b.gens i).offset (addrOf a)).isLt

theorem decode_eq_some {i : Fin n} {a : AccessView} :
    b.decode a = some i ↔ (b.gens i).selects (addrOf a) = true := by
  let p : Fin n → Bool := fun j => (b.gens j).selects (addrOf a)
  have hfound : ∀ {j}, b.decode a = some j → p j = true := fun h => List.find?_some (p := p) h
  constructor
  · exact hfound
  · intro h
    obtain ⟨j, hj⟩ := Option.isSome_iff_exists.mp
      (List.find?_isSome (p := p).mpr ⟨i, List.mem_finRange i, h⟩)
    have hdecode : b.decode a = some j := hj
    rw [hdecode, b.apart j i (addrOf a) (hfound hdecode) h]

/-- An access that is taken is for one slave, and is no write to a read only register. -/
theorem exec_eq_some {f : Files n} {a : AccessView} {r : Files n × BitVec 32}
    (h : exec b f a = some r) : ∃ i, (b.gens i).selects (addrOf a) = true ∧
      (b.gens i).ovfWr (addrOf a) = false ∧
      if a.isRead then
        r.1 = f ∧ (b.gens i).readAt (f i) (b.regsI i (f i)) (b.place i a) = some r.2
      else r.1 = Function.update f i
        ((b.gens i).tick (b.sclr i) ((b.gens i).put (f i) (b.place i a) (dataOf a))) := by
  obtain ⟨i, hi, hexec⟩ := Option.bind_eq_some_iff.mp h
  refine ⟨i, decode_eq_some.mp hi, ?_⟩
  cases hovf : (b.gens i).ovfWr (addrOf a) with
  | true => simp [hovf] at hexec
  | false =>
    refine ⟨rfl, ?_⟩
    cases hread : a.isRead with
    | true =>
      simp only [hovf, hread, Bool.false_eq_true, if_false, if_true,
        Option.map_eq_some_iff] at hexec
      obtain ⟨w, hw, rfl⟩ := hexec
      exact ⟨rfl, hw⟩
    | false =>
      simp only [hovf, hread, Bool.false_eq_true, if_false, Option.some.injEq] at hexec
      rw [← hexec]
      rfl

/-- An access that nobody takes is for no slave, or a write to a read only register. -/
theorem exec_eq_none {f : Files n} {a : AccessView} (h : exec b f a = none) (i : Fin n)
    (hsel : (b.gens i).selects (addrOf a) = true) : (b.gens i).ovfWr (addrOf a) = true := by
  by_contra hovf
  rw [Bool.not_eq_true] at hovf
  rw [exec, decode_eq_some.mpr hsel, Option.bind_some, hovf] at h
  cases hread : a.isRead with
  | true =>
    obtain ⟨w, hw⟩ := readAt_of_lt (f i) (b.regsI i (f i)) (place_lt (b := b) i a)
    simp [hread, hw] at h
  | false => simp [hread] at h

theorem addrOf_dir (a : AccessView) : (addrOf a).getLsbD 31 = a.isRead := by
  rw [addrOf, addrWord, BitVec.getLsbD_append, BitVec.getLsbD_append, BitVec.getLsbD_append]
  cases a.isRead with
  | true => rfl
  | false => rfl

theorem exec_read {f : Files n} {a : AccessView} {i : Fin n} {w : BitVec 32}
    (hsel : (b.gens i).selects (addrOf a) = true) (hovf : (b.gens i).ovfWr (addrOf a) = false)
    (hread : a.isRead = true)
    (hw : (b.gens i).readAt (f i) (b.regsI i (f i)) (b.place i a) = some w) :
    exec b f a = some (f, w) := by
  simp [exec, decode_eq_some.mpr hsel, hovf, hread, hw]

theorem exec_write {f : Files n} {a : AccessView} {i : Fin n}
    (hsel : (b.gens i).selects (addrOf a) = true) (hovf : (b.gens i).ovfWr (addrOf a) = false)
    (hwrite : a.isRead = false) :
    exec b f a = some (Function.update f i
      ((b.gens i).tick (b.sclr i) ((b.gens i).put (f i) (b.place i a) (dataOf a))), 0) := by
  simp [exec, decode_eq_some.mpr hsel, hovf, hwrite]

theorem Masked.exec {f : Files n} (hf : Masked b f) {a : AccessView} {r : Files n × BitVec 32}
    (h : Ebone.exec b f a = some r) : Masked b r.1 := by
  obtain ⟨i, -, -, hr⟩ := exec_eq_some h
  cases hread : a.isRead with
  | true =>
    rw [if_pos hread] at hr
    rw [hr.1]
    exact hf
  | false =>
    rw [if_neg (by rw [hread]; decide)] at hr
    intro j
    rw [hr]
    by_cases hj : j = i
    · subst hj
      rw [Function.update_self, tick_tick]
    · rw [Function.update_of_ne hj, hf j]

/-! ### The register slaves of `rashpa_top` -/

/-- `ebs1_regs`. -/
def ebs1Regs : RegsGenerics where
  adRnge := 16
  adBase := 1
  adLog := 4
  adOfst := 0x80
  mirq := 0x0002
  roSize := 8
  woBits := 1
  two_le_adLog := by decide
  ofst_aligned := by decide
  roSize_le := by decide

/-- The registers of `ebs_btd_fifo`, a control word and the eight words of a descriptor. -/
def ebsBtdRegs : RegsGenerics where
  adRnge := 16
  adBase := 2
  adLog := 4
  adOfst := 0
  mirq := 0x0001
  roSize := 7
  woBits := 1
  two_le_adLog := by decide
  ofst_aligned := by decide
  roSize_le := by decide

/-- What the read only registers of `ebs1_regs` are wired to. -/
def regsRoDat (rw : ℕ → BitVec 32) : ℕ → BitVec 32
  | 8 => 0x2a2a2a2a
  | 9 => 0x2a2a2a2b
  | 10 => 0x2a2a2a2c
  | 11 => 0x2a2a2a2d
  | a => if 12 ≤ a ∧ a < 16 then rw (a - 8) else 0

/-- The register slaves. -/
def rashpaGens : Fin 2 → RegsGenerics
  | 0 => ebs1Regs
  | 1 => ebsBtdRegs

theorem rashpa_apart (i j : Fin 2) (dat : BitVec 32) (hi : (rashpaGens i).selects dat = true)
    (hj : (rashpaGens j).selects dat = true) : i = j := by
  have hone : ebs1Regs.selects dat = true → dat.extractLsb' 28 2 = 1 := fun h =>
    eq_of_beq (Bool.and_eq_true_iff.mp h).1
  have htwo : ebsBtdRegs.selects dat = true → dat.extractLsb' 28 2 = 2 := fun h =>
    eq_of_beq (Bool.and_eq_true_iff.mp h).1
  have hboth : ebs1Regs.selects dat = true → ebsBtdRegs.selects dat = true → False := by
    intro h1 h2
    rw [hone h1] at htwo
    exact absurd (htwo h2) (by decide)
  match i, j, hi, hj with
  | 0, 0, _, _ => rfl
  | 0, 1, h1, h2 => exact (hboth h1 h2).elim
  | 1, 0, h2, h1 => exact (hboth h1 h2).elim
  | 1, 1, _, _ => rfl

/-- The register slaves of `rashpa_top`; the descriptor fifo is not full. -/
def rashpa : BusConfig 2 where
  gens := rashpaGens
  regsI
    | 0 => regsRoDat
    | 1 => fun _ _ => 0
  sclr i := decide (i = 1)
  tmoDk := 2
  apart := rashpa_apart
  one_lt_tmoDk := by decide

end VPcie.Ebone
