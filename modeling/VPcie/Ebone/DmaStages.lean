import VPcie.Ebone.DmaSteps

/-!
# The stages of a transfer

Between two edges a transfer is in one of a few stages, told apart by the state of the fast
transmitter; each says where the source is, and which word comes out of the memory next.

* `Descriptor.burst`, `Descriptor.plan` — what a descriptor asks for;
* `Collected` — what a slave of the fast transmitter makes of what it sees;
* `Dma.Stage` — the stages;
* `Dma.Pipe.clock`, `Dma.Pipe.stop` — a word each cycle comes out of the memory, until the end of
  frame.
-/

namespace VPcie.Ebone

/-! ### What a descriptor asks for -/

namespace Descriptor

variable (D : Descriptor) (M : ℕ → BitVec 32)

/-- A word of the memory; the address wraps around, but not within the descriptor. -/
def fetched (a : ℕ) : BitVec 64 := pairAt M (2 * ((D.src + a) % 512))

/-- Where a word goes; the upper half of the address is fixed. -/
def addr (a : ℕ) : BitVec 64 :=
  D.dst.extractLsb' 32 32 ++ (D.dst.setWidth 32 + BitVec.ofNat 32 (8 * a))

/-- How many words a burst has. -/
def length (k : ℕ) : ℕ := min D.payload (D.count - k * D.payload)

/-- A burst. -/
def burst (k : ℕ) : BitVec 64 × List (BitVec 64) :=
  (D.addr (k * D.payload), (List.range (D.length k)).map fun j => D.fetched M (k * D.payload + j))

/-- The first bursts. -/
def first (k : ℕ) : List (BitVec 64 × List (BitVec 64)) := (List.range k).map (D.burst M)

/-- How many bursts there are. -/
def bursts : ℕ := (D.count + D.payload - 1) / D.payload

/-- All bursts. -/
def plan : List (BitVec 64 × List (BitVec 64)) := D.first M D.bursts

/-- What the destination counter counts: a burst of one word counts twice. -/
def moved : ℕ := if D.count % D.payload = 1 then D.count + 1 else D.count

theorem bursts_eq {k : ℕ} (hlast : k * D.payload < D.count)
    (hall : D.count ≤ (k + 1) * D.payload) : D.bursts = k + 1 := by
  have hpos := D.payload_pos
  rw [Nat.add_mul, Nat.one_mul] at hall
  rw [bursts, Nat.div_eq_iff hpos, Nat.add_mul, Nat.one_mul]
  omega

theorem lt_bursts {k : ℕ} (h : k * D.payload < D.count) : k < D.bursts := by
  have hpos := D.payload_pos
  rw [bursts, Nat.lt_iff_add_one_le, Nat.le_div_iff_mul_le hpos, Nat.add_mul, Nat.one_mul]
  omega

theorem first_succ (k : ℕ) : D.first M (k + 1) = D.first M k ++ [D.burst M k] := by
  rw [first, List.range_succ, List.map_append]
  rfl

theorem first_words (k : ℕ) :
    (D.first M k).flatMap Prod.snd
      = (List.range (min (k * D.payload) D.count)).map (D.fetched M) := by
  induction k with
  | zero => simp [first]
  | succ k ih =>
    rw [first_succ, List.flatMap_append, ih]
    have hsplit : min ((k + 1) * D.payload) D.count
        = min (k * D.payload) D.count + D.length k := by
      rw [length, Nat.add_mul, Nat.one_mul]
      omega
    rw [hsplit, List.range_add, List.map_append, List.map_map]
    congr 1
    rcases Nat.le_total (k * D.payload) D.count with hle | hge
    · rw [Nat.min_eq_left hle]
      simp [burst, Function.comp_def]
    · have hnone : D.length k = 0 := by
        rw [length]
        omega
      simp [burst, hnone]

/-- The bursts of a descriptor are all of its words, in order. -/
theorem plan_words : (D.plan M).flatMap Prod.snd = (List.range D.count).map (D.fetched M) := by
  have hpos := D.payload_pos
  have hall : D.count ≤ D.bursts * D.payload := by
    have hdiv := Nat.div_add_mod (D.count + D.payload - 1) D.payload
    have hmod := Nat.mod_lt (D.count + D.payload - 1) hpos
    rw [bursts, Nat.mul_comm]
    omega
  rw [plan, first_words, Nat.min_eq_right hall]

end Descriptor

/-! ### What a slave collects -/

/-- The bursts that have ended, and the one that is going on. -/
structure Collected where
  done : List (BitVec 64 × List (BitVec 64))
  cur : BitVec 64 × List (BitVec 64)
deriving DecidableEq, Repr

/-- A burst begins with its address, and ends with the end of frame. -/
def Collected.next (q : Collected) : FtEvent → Collected
  | .address a => ⟨q.done, (a, [])⟩
  | .word w last =>
    let cur := (q.cur.1, q.cur.2 ++ [w])
    if last then ⟨q.done ++ [cur], (cur.1, [])⟩ else ⟨q.done, cur⟩
  | .broadcast => q

/-- What is collected from all that was shown. -/
def collect (log : List FtEvent) : Collected := log.foldl Collected.next ⟨[], (0, [])⟩

/-! ### The stages -/

/-- The slave of the memory reads, and its address is one beyond word `a`, which is on its way. -/
structure Dma.Pipe (D : Descriptor) (a : ℕ) (s : Dma) : Prop where
  state : s.bram.state = .rd1
  myself : s.bram.myself = true
  sDk : s.bram.sDk = true
  ofst : s.bram.ofst.toNat = D.src + a + 1
  latched : s.mem.latchedRdAddr = 2 * ((D.src + a) % 512)

/-- The descriptor runs. -/
structure Dma.Active (D : Descriptor) (M : ℕ → BitVec 32) (c : ℕ) (s : Dma) : Prop where
  sound : s.Sound M
  regs : s.regs.Holds D true true false
  runs : s.ft.Runs D c
  err : s.ft.errors0.err = false

/-- The next burst is prepared. -/
structure Dma.Armed (D : Descriptor) (s : Dma) : Prop where
  bcnt : s.ft.bcnt = BitVec.ofNat 8 D.payload
  ebadrs : s.ft.flags.ebadrs = true
  pauscnt : s.ft.pauscnt = 0

/-- Both buses are granted to a burst. -/
structure Dma.Granted (D : Descriptor) (a : ℕ) (s : Dma) : Prop where
  armed : s.Armed D
  ebft : s.ft.flags.ebft = true
  m0Brq : s.m0Brq = false
  daburst : s.ft.daburst = D.dst.setWidth 32 + BitVec.ofNat 32 (8 * a)
  ebmx : s.mx.ebmx = true

/-- A word of a burst is on the bus. -/
structure Dma.Shows (w : BitVec 64) (s : Dma) : Prop where
  ebft : s.ft.flags.ebft = true
  m0Brq : s.m0Brq = false
  ebadrs : s.ft.flags.ebadrs = false
  dout : s.mx.dout = w

/-- A word that is not the last of its burst, with the next one right behind it. -/
structure Dma.Word (D : Descriptor) (M : ℕ → BitVec 32) (k j : ℕ) (s : Dma) : Prop where
  active : s.Active D M (k * D.payload + j + 1)
  near : s.ft.Near D (k * D.payload + j)
  shows : s.Shows (D.fetched M (k * D.payload + j))
  bcnt : s.ft.bcnt = BitVec.ofNat 8 (D.payload - 1 - j)
  more : j + 2 ≤ D.length k
  mx : s.mx.state = .rd1
  ebmx : s.mx.ebmx = true
  pipe : s.Pipe D (k * D.payload + j + 2)
  rdData : s.mem.rdData = D.fetched M (k * D.payload + j + 1)

/-- The source gives up: its master has seen the abort, and then waits. -/
def Dma.GivesUp (s : Dma) : Prop :=
  s.ft.pauscnt = 0 ∧ s.mx.state = .adr1 ∧ s.mx.ebmx = true ∨
    s.ft.pauscnt = 1 ∧ s.mx.state = .abrt1 ∧ s.mx.ebmx = false ∨
    s.mx.state = .iddle ∧ s.mx.ebmx = false ∧ 2 ≤ s.ft.pauscnt.toNat

/-- The source gets ready: its slave is addressed, then the memory is, then the first word comes. -/
def Dma.GetsReady (D : Descriptor) (M : ℕ → BitVec 32) (a : ℕ) (s : Dma) : Prop :=
  s.mx.state = .adr2 ∧ s.bram.state = .rd0 ∧ s.bram.myself = true ∧ s.bram.sDk = false ∧
      s.bram.ofst.toNat = D.src + a ∨
    s.mx.state = .adr2 ∧ s.Pipe D a ∨
    s.mx.state = .rd1 ∧ s.Pipe D (a + 1) ∧ s.mem.rdData = D.fetched M a

/-- The source stands still. -/
structure Dma.Calm (M : ℕ → BitVec 32) (s : Dma) : Prop where
  sound : s.Sound M
  mx : s.mx.state = .iddle
  ebmx : s.mx.ebmx = false
  bram : s.bram.state = .iddle

/-- The burst was aborted, and the source has not seen it yet. -/
def Dma.Cut (s : Dma) : Prop :=
  s.mx.ebmx = true ∧ (s.mx.state = .adr1 ∧ s.bram.state = .iddle ∨
    (s.mx.state = .adr2 ∨ s.mx.state = .rd1) ∧ s.bram.state = .rd1 ∧ s.bram.ofst.msb = false)

/-- The transfer was aborted, or it is complete. -/
def Dma.Ended (D : Descriptor) (k : ℕ) (s : Dma) : Prop :=
  s.ft.errors0.err = true ∧ k < D.bursts ∨
    s.ft.errors0.err = false ∧ k = D.bursts ∧ s.ft.dma0Sts = BitVec.ofNat 24 D.moved

/-- All bursts are over, and the descriptor still runs. -/
structure Dma.Complete (D : Descriptor) (k : ℕ) (s : Dma) : Prop where
  regs : s.regs.Holds D true true false
  runs : s.ft.Runs D D.moved
  err : s.ft.errors0.err = false
  all : k = D.bursts

/-- The transfer was aborted. -/
structure Dma.Aborted (D : Descriptor) (k : ℕ) (go rund done : Bool) (s : Dma) : Prop where
  regs : s.regs.Holds D go rund done
  run0 : s.ft.flags.run0 = false
  err : s.ft.errors0.err = true
  early : k < D.bursts

/-- The stages; `k` bursts are over, and `cur` is what was seen of the next one. -/
def Dma.Stage (D : Descriptor) (M : ℕ → BitVec 32) (k : ℕ) (cur : BitVec 64 × List (BitVec 64))
    (s : Dma) : Prop :=
  match s.ft.state with
  | .iddle => s.ft.flags.run0 = false ∧ s.ft.flags.ebft = false ∧
      (s.regs.Holds D true false false ∧ k = 0 ∧ s.Sound M ∧ s.Free ∨
        s.regs.Holds D false false false ∧ s.Ended D k ∧ s.Calm M)
  | .wait0 => s.ft.flags.run0 = false ∧ s.regs.Holds D true false false ∧ k = 0 ∧ s.Sound M ∧ s.Free
  | .wait2 => s.ft.flags.run0 = true ∧ s.regs.Holds D true false false ∧ k = 0 ∧ s.Sound M ∧ s.Free
  | .brq1 => s.Active D M (k * D.payload) ∧ k * D.payload < D.count ∧ s.Free
  | .brq2 => s.Active D M (k * D.payload) ∧ k * D.payload < D.count ∧ s.Free ∧ s.Armed D
  | .brq3 => s.Active D M (k * D.payload) ∧ k * D.payload < D.count ∧ s.Armed D ∧
      s.ft.flags.ebft = true ∧
      s.ft.daburst = D.dst.setWidth 32 + BitVec.ofNat 32 (8 * (k * D.payload)) ∧
      s.mx.state = .brq1 ∧ s.mx.ebmx = true ∧ s.bram.state = .iddle
  | .brq9 => s.Active D M (k * D.payload) ∧ k * D.payload < D.count ∧ s.ft.flags.ebft = false ∧
      s.bram.state = .iddle ∧ s.GivesUp
  | .adr1 => s.Active D M (k * D.payload) ∧ k * D.payload < D.count ∧ s.Granted D (k * D.payload) ∧
      s.mx.state = .adr1 ∧ s.bram.state = .iddle ∧ cur = (D.addr (k * D.payload), [])
  | .adr2 => s.Active D M (k * D.payload) ∧ k * D.payload < D.count ∧ s.ft.Near D (k * D.payload) ∧
      s.Granted D (k * D.payload) ∧ cur = (D.addr (k * D.payload), []) ∧
      s.GetsReady D M (k * D.payload)
  | .dat1 => ∃ j, s.Word D M k j ∧ cur = (D.addr (k * D.payload),
      (List.range j).map fun j => D.fetched M (k * D.payload + j))
  | .dat2 => ∃ j, D.length k = j + 2 ∧ s.Active D M (k * D.payload + j + 2) ∧
      s.Shows (D.fetched M (k * D.payload + j + 1)) ∧ cur = (D.addr (k * D.payload),
        (List.range (j + 1)).map fun j => D.fetched M (k * D.payload + j)) ∧
      s.mx.state = .iddle ∧ s.mx.ebmx = false ∧ s.bram.state = .iddle
  | .dat01 => D.count = k * D.payload + 1 ∧ s.Active D M (k * D.payload + 1) ∧
      s.Shows (D.fetched M (k * D.payload)) ∧ cur = (D.addr (k * D.payload), []) ∧
      s.mx.state = .iddle ∧ s.mx.ebmx = false ∧ s.bram.state = .iddle
  | .end1 => ∃ j, k = j + 1 ∧ 2 ≤ D.length j ∧ s.Active D M (j * D.payload + D.length j) ∧
      s.ft.Near D (j * D.payload + D.length j) ∧ s.Free
  | .end2 => s.ft.flags.ebft = false ∧ s.Complete D k ∧ s.Calm M
  | .bc1 => s.ft.flags.ebft = false ∧
      ((s.Complete D k ∨ s.Aborted D k false false false) ∧ s.Calm M ∨
        s.Aborted D k true false true ∧ s.Sound M ∧ s.mx.state = .iddle ∧ s.mx.ebmx = false ∧
          (s.bram.state = .iddle ∨ s.bram.state = .abort))
  | .bc2 => s.ft.flags.ebft = true ∧ (s.Complete D k ∨ s.Aborted D k false false false) ∧ s.Calm M
  | .bc3 => s.ft.flags.ebft = false ∧ (s.Complete D k ∨ s.Aborted D k false false false) ∧ s.Calm M
  | .bc4 => s.ft.flags.ebft = true ∧ s.m0Brq = false ∧
      (s.Complete D k ∨ s.Aborted D k false false false) ∧ s.Calm M
  | .bc5 => s.ft.flags.run0 = false ∧ s.ft.flags.ebft = false ∧ s.Ended D k ∧ s.Calm M ∧
      (s.regs.Holds D true true false ∨ s.regs.Holds D false false false)
  | .bc6 => s.ft.flags.run0 = false ∧ s.ft.flags.ebft = false ∧ s.Ended D k ∧ s.Calm M ∧
      (s.regs.Holds D true false true ∨ s.regs.Holds D false false false)
  | .abrt1 => s.ft.flags.run0 = true ∧ s.regs.Holds D true true false ∧ k < D.bursts ∧
      s.Sound M ∧ s.Cut
  | .abrt2 => s.ft.flags.ebft = false ∧ s.Aborted D k true true false ∧ s.Sound M ∧
      s.mx.state = .abrt1 ∧ s.mx.ebmx = false ∧ (s.bram.state = .iddle ∨ s.bram.state = .rd1)
  | _ => False

/-! ### An edge -/

section Edge

variable {D : Descriptor} {M : ℕ → BitVec 32} {s : Dma} {i : DmaIn} {a : ℕ}

theorem Dma.clock_state : (s.clock i).ft.state = (s.ftCtl i).nextate := rfl

theorem Dma.clock_ebft : (s.clock i).ft.flags.ebft
    = (((s.ftCtl i).ebrq || s.ft.flags.ebft) && !(s.ftCtl i).ebeof) := rfl

theorem Dma.clock_ebadrs : (s.clock i).ft.flags.ebadrs
    = (((s.ftCtl i).bcld || s.ft.flags.ebadrs) && !(s.ftCtl i).ebdat) := rfl

theorem Dma.clock_run0 : (s.clock i).ft.flags.run0
    = (((s.ftCtl i).init0 || s.ft.flags.run0) && !(s.ftCtl i).dmadone) := rfl

theorem Dma.clock_err : (s.clock i).ft.errors0.err
    = (((s.ftCtl i).errdone && s.ft.flags.run0 || s.ft.errors0.err) && !(s.ftCtl i).daclr) := rfl

theorem Dma.clock_pauscnt : (s.clock i).ft.pauscnt
    = if (s.ftCtl i).bcld then 0
      else if (s.ftCtl i).pausen then s.ft.pauscnt + 1 else s.ft.pauscnt := rfl

theorem Dma.clock_bcnt : (s.clock i).ft.bcnt
    = if (s.ftCtl i).bcld then (s.regs.regs 12).extractLsb' 3 8
      else if (s.ftCtl i).bcen then s.ft.bcnt - 1 else s.ft.bcnt := rfl

theorem Dma.clock_dma0Sts : (s.clock i).ft.dma0Sts
    = if s.ft.flags.run0 then s.ft.cnt.dacnt else s.ft.dma0Sts := rfl

theorem Dma.clock_mxState : (s.clock i).mx.state = (s.mxCtl i).nextate := rfl

theorem Dma.clock_ebmx : (s.clock i).mx.ebmx
    = (((s.mxCtl i).ebrq || s.mx.ebmx) && !(s.mxCtl i).ebeof) := rfl

theorem Dma.clock_bramState :
    (s.clock i).bram.state = (s.bram.ctl (s.lines2 i) false).nextate := rfl

theorem Dma.clock_m0Brq (hebft : s.ft.flags.ebft = true) (hm0 : s.m0Brq = false) :
    (s.clock i).m0Brq = false := by
  simp [Dma.clock, CoreIn.busState, arbiter, Dma.coreIn, hebft, hm0, BusState.bft]

/-- The address of the current burst. -/
theorem Ft.Runs.daburst (h : s.ft.Runs D a) {go : Bool} (hregs : D.Loaded go s.regs.regs)
    (hdbld : (s.ftCtl i).dbld = true) :
    (s.clock i).ft.daburst = D.dst.setWidth 32 + BitVec.ofNat 32 (8 * a) := by
  have hload : (s.clock i).ft.daburst = (s.ftIn i (s.answer i)).desc s.ft.flags.run0 3
      + (s.ft.cnt.dacnt.setWidth 32) * BitVec.ofNat 32 (4 * FtWidth.w64.dw32) := if_pos hdbld
  have hsmall := h.small
  have hcount := D.count_le
  have hcnt : (BitVec.ofNat 24 a).setWidth 32 = BitVec.ofNat 32 a := by
    apply BitVec.eq_of_toNat_eq
    rw [BitVec.toNat_setWidth, BitVec.toNat_ofNat, BitVec.toNat_ofNat,
      Nat.mod_eq_of_lt (show a < 2 ^ 24 by omega)]
  have hdesc : (s.ftIn i (s.answer i)).desc s.ft.flags.run0 3 = D.dst.setWidth 32 := by
    rw [h.run0]
    exact hregs.dstLow
  rw [hload, hdesc, h.dacnt, hcnt, Nat.mul_comm 8 a]
  exact congrArg _ (BitVec.ofNat_mul a 8).symm

/-! ### What is shown -/

theorem Dma.events_none (h : s.ft.flags.ebft = false ∨ s.m0Brq = true) : s.events i = [] := by
  rcases h with h | h
  · cases hm0 : s.m0Brq with
    | true => simp [Dma.events, CoreIn.busState, arbiter, Dma.coreIn, h, hm0, BusState.bft]
    | false => simp [Dma.events, CoreIn.busState, arbiter, Dma.coreIn, h, hm0, BusState.bft]
  · simp [Dma.events, CoreIn.busState, arbiter, Dma.coreIn, h, BusState.bft]

theorem Dma.events_one (hebft : s.ft.flags.ebft = true) (hm0 : s.m0Brq = false) :
    s.events i = [if (s.ftCtl i).as then
        if (s.ftCtl i).eof then .broadcast else .address (s.ft.dxtO (s.ftIn i (s.answer i)))
      else .word (s.ft.dxtO (s.ftIn i (s.answer i))) (s.ftCtl i).eof] := by
  simp [Dma.events, CoreIn.busState, CoreIn.linesTo, arbiter, Dma.coreIn, hebft, hm0,
    BusState.bft]

/-- The address is on the bus. -/
theorem Dma.dxtO_addr (hrun0 : s.ft.flags.run0 = true) {go : Bool}
    (hregs : D.Loaded go s.regs.regs) (hebadrs : s.ft.flags.ebadrs = true)
    (hburst : s.ft.daburst = D.dst.setWidth 32 + BitVec.ofNat 32 (8 * a)) :
    s.ft.dxtO (s.ftIn i (s.answer i)) = D.addr a := by
  have hhigh : (s.ftIn i (s.answer i)).desc s.ft.flags.run0 4 = D.dst.extractLsb' 32 32 := by
    rw [hrun0]
    exact hregs.dstHigh
  have hzero : ∀ x : BitVec 64, (x >>> 64) <<< 64 = 0 := by
    intro x
    rw [BitVec.ushiftRight_eq_zero (Nat.le_refl 64)]
    rfl
  rw [Ft.dxtO, if_neg (by decide), if_pos hebadrs, hhigh, hburst]
  show (s.mx.dout >>> 64) <<< 64 ||| (D.addr a).setWidth 64 = _
  rw [hzero, BitVec.setWidth_eq]
  exact BitVec.zero_or

/-- A word is on the bus. -/
theorem Dma.Shows.dxtO {w : BitVec 64} (h : s.Shows w) :
    s.ft.dxtO (s.ftIn i (s.answer i)) = w := by
  rw [Ft.dxtO, if_neg (by decide), if_neg (by rw [h.ebadrs]; decide)]
  exact h.dout

/-! ### The source -/

theorem Dma.answer_eq : s.answer i = (VPcie.Ebone.mxCtl s.mx.state s.ft.orders s.mxBus).answer :=
  (s.ft.ctl_orders _).answer ..

/-- Nobody asks the master of the second E-bone. -/
theorem Dma.Free.stays (h : s.Free) (hbrq : (s.ftCtl i).mx.brq = false)
    (hbwr : (s.ftCtl i).mx.bwr = false) (hebrq : (s.ftCtl i).ebrq = false) :
    (s.clock i).Free ∧ (s.bram.ctl (s.lines2 i) false).ofen = false := by
  have hmx : s.mxCtl i = { nextate := .iddle } := by
    simp [Dma.mxCtl, VPcie.Ebone.mxCtl, h.mx, hbrq, hbwr]
  have hbram : s.bram.ctl (s.lines2 i) false = { nextate := .iddle } := by
    simp [Bram.ctl, h.bram, Dma.lines2, h.ebmx]
  refine ⟨⟨?_, ?_, ?_, ?_⟩, ?_⟩
  · rw [Dma.clock_ebft, hebrq, h.ebft]
    rfl
  · rw [Dma.clock_mxState, hmx]
  · rw [Dma.clock_ebmx, hmx, h.ebmx]
    rfl
  · rw [Dma.clock_bramState, hbram]
  · rw [hbram]

/-- Nobody wakes the source. -/
theorem Dma.Calm.stays (h : s.Calm M) (hi : i.Away) (hbrq : (s.ftCtl i).mx.brq = false)
    (hbwr : (s.ftCtl i).mx.bwr = false) : (s.clock i).Calm M := by
  have hmx : s.mxCtl i = { nextate := .iddle } := by
    simp [Dma.mxCtl, VPcie.Ebone.mxCtl, h.mx, hbrq, hbwr]
  have hbram : s.bram.ctl (s.lines2 i) false = { nextate := .iddle } := by
    simp [Bram.ctl, h.bram, Dma.lines2, h.ebmx]
  refine ⟨h.sound.clock hi (Or.inl (by rw [hbram])), ?_, ?_, ?_⟩
  · rw [Dma.clock_mxState, hmx]
  · rw [Dma.clock_ebmx, hmx, h.ebmx]
    rfl
  · rw [Dma.clock_bramState, hbram]

/-- The slave of the memory is not addressed. -/
theorem Dma.bram_stays (hbram : s.bram.state = .iddle) (has : (s.mxCtl i).ebadrs = false) :
    s.bram.ctl (s.lines2 i) false = { nextate := .iddle } := by
  simp [Bram.ctl, hbram, Dma.lines2, has]

theorem Dma.Pipe.dk (h : s.Pipe D a) : s.mxBus.dk = true ∧ s.mxBus.err = false := by
  refine ⟨?_, ?_⟩
  · show s.bram.dk s.lines0 false = true
    rw [Bram.dk, h.myself, h.sDk]
    rfl
  · show s.bram.err s.lines0 false = false
    rw [Bram.err, Bram.fifErr_eq, h.state]
    simp

theorem Dma.Pipe.msb (h : s.Pipe D a) (ha : D.src + a + 1 < 1024) : s.bram.ofst.msb = false := by
  rw [BitVec.msb_eq_decide, h.ofst]
  show decide (1024 ≤ _) = false
  exact decide_eq_false (by omega)

theorem Dma.Pipe.cut (h : s.Pipe D a) (ha : D.src + a + 1 < 1024)
    (hebmx : s.mx.ebmx = true) (hmx : s.mx.state = .adr2 ∨ s.mx.state = .rd1) : s.Cut :=
  ⟨hebmx, Or.inr ⟨hmx, h.state, h.msb ha⟩⟩

/-- **Step lemma.**  A word each cycle comes out of the memory. -/
theorem Dma.Pipe.clock (h : s.Pipe D a) (hsound : s.Sound M) (ha : D.src + a + 2 < 1024)
    (hbmx : s.mx.ebmx = true) (heof : (s.mxCtl i).eof = false) :
    (s.clock i).Pipe D (a + 1) ∧ (s.clock i).mem.rdData = D.fetched M a ∧
      (s.clock i).mx.dout = s.mem.rdData ∧ s.bram.ofst.msb = false := by
  have hctl : s.bram.ctl (s.lines2 i) false
      = { nextate := .rd1, ofen := true, adk := true, memRd := !(s.mxCtl i).aef } := by
    simp [Bram.ctl, h.state, Dma.lines2, hbmx, heof, hsound.emti2]
  have hmsb := h.msb (by omega)
  refine ⟨⟨?_, ?_, ?_, ?_, ?_⟩, ?_, ?_, hmsb⟩
  · rw [Dma.clock_bramState, hctl]
  · simp [Dma.clock, Bram.clock, hctl, h.myself, hsound.ovf]
  · simp [Dma.clock, Bram.clock, hctl, hsound.ovf]
  · have hnext : (s.clock i).bram.ofst = s.bram.ofst + 1 := by
      simp [Dma.clock, Bram.clock, hctl, hmsb]
    rw [hnext, BitVec.toNat_add, h.ofst]
    show (_ + 1) % 2048 = _
    omega
  · show ((s.bram.ofst.setWidth 32).setWidth 9).toNat * 2 = _
    rw [BitVec.toNat_setWidth, BitVec.toNat_setWidth, h.ofst]
    omega
  · show pairAt s.mem.bramArray s.mem.latchedRdAddr = _
    rw [hsound.mem, h.latched]
    rfl
  · show s.bram.dat s.mem.rdData = _
    rw [Bram.dat, if_pos h.myself]

/-- **Step lemma.**  The end of frame. -/
theorem Dma.Pipe.stop (h : s.Pipe D a) (ha : D.src + a + 2 < 1024) (hbmx : s.mx.ebmx = true)
    (heof : (s.mxCtl i).eof = true) :
    (s.clock i).bram.state = .iddle ∧ (s.clock i).mx.dout = s.mem.rdData ∧
      s.bram.ofst.msb = false := by
  have hctl : s.bram.ctl (s.lines2 i) false = { nextate := .iddle, ofen := true, eof := true } := by
    simp [Bram.ctl, h.state, Dma.lines2, hbmx, heof]
  refine ⟨?_, ?_, h.msb (by omega)⟩
  · rw [Dma.clock_bramState, hctl]
  · show s.bram.dat s.mem.rdData = _
    rw [Bram.dat, if_pos h.myself]

end Edge

end VPcie.Ebone
