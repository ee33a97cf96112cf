import VPcie.Lib.RingBuffer
import VPcie.Lib.Runs

/-!
# The synchronous fifo

`fifo_s`, which holds the descriptors of RASHPA.  The pointers have one bit more than an address,
and the read pointer is one behind the word it will return.  The flags are registers of their own,
updated beside the pointers.

* `ResetGen` — the reset generator;
* `FifoS.clock` — a rising edge;
* `FifoS.Holds` — the fifo holds the words of a queue;
* `fifoS_queue` — over every sequence of inputs it is a queue with room for `2 ^ AWIDTH` words.
-/

namespace VPcie.Ebone

open VPcie.Lib

/-! ### Reset -/

/-- The registers of the synchronous reset generator. -/
structure ResetGen where
  rst1 : Bool
  rst2 : Bool
  rst : Bool
deriving DecidableEq, Repr

/-- A rising edge, at the end of a cycle in which `arst` has this value; `rst1` is set at once. -/
def ResetGen.clock (g : ResetGen) (arst : Bool) : ResetGen where
  rst1 := arst
  rst2 := g.rst1 || arst
  rst := g.rst2 && (g.rst1 || arst)

/-- The values the signals are declared with. -/
def ResetGen.powerUp : ResetGen := ⟨true, true, true⟩

/-! ### The fifo -/

/-- What the user of the fifo drives in a cycle. -/
structure FifoIn (α : Type) where
  arst : Bool
  wrEn : Bool
  wrDat : α
  rdEn : Bool
deriving DecidableEq, Repr

/-- The registers; `α` are the words of `DWIDTH` bits and `aw` is `AWIDTH`. -/
structure FifoS (α : Type) (aw : ℕ) where
  gen : ResetGen
  dpram : BitVec aw → α
  rdDat : α
  wrPtr : BitVec (aw + 1)
  rdPtr : BitVec (aw + 1)
  wrFulli : Bool
  rdEmpti : Bool
  wrPtrS : BitVec (aw + 1)
  rdPtrS : BitVec (aw + 1)

namespace FifoS

variable {α : Type} {aw : ℕ}

/-- `wr_afulli`. -/
def wrAfulli (s : FifoS α aw) : Bool :=
  decide (s.wrPtr.setWidth aw = s.rdPtr.setWidth aw ∧ s.rdPtr.msb ≠ s.wrPtr.msb)

/-- `rd_aempti`. -/
def rdAempti (s : FifoS α aw) : Bool := decide (s.rdPtr = s.wrPtr - 2)

/-- `wr_en_s`. -/
def wrEnS (s : FifoS α aw) (i : FifoIn α) : Bool := i.wrEn && !(s.wrFulli || s.gen.rst)

/-- `rd_en_s`. -/
def rdEnS (s : FifoS α aw) (i : FifoIn α) : Bool := i.rdEn && !s.rdEmpti

/-- `wr_cnt`. -/
def wrCnt (s : FifoS α aw) : BitVec (aw + 1) := s.wrPtrS - s.rdPtrS

/-- A rising edge.  `rst` resets the pointers at once and the flags on the next edge. -/
def clock (s : FifoS α aw) (i : FifoIn α) : FifoS α aw :=
  let gen := s.gen.clock i.arst
  let held := s.gen.rst || gen.rst
  { gen := gen
    dpram :=
      if s.wrEnS i then Function.update s.dpram (s.wrPtr.setWidth aw) i.wrDat else s.dpram
    rdDat := s.dpram (s.rdPtr.setWidth aw)
    wrPtr := if held then 0 else if s.wrEnS i then s.wrPtr + 1 else s.wrPtr
    rdPtr := if held then BitVec.allOnes _ else if s.rdEnS i then s.rdPtr + 1 else s.rdPtr
    wrFulli :=
      if s.gen.rst || i.rdEn then false else (s.wrAfulli && i.wrEn) || s.wrFulli
    rdEmpti :=
      if i.wrEn then false else (s.rdAempti && i.rdEn) || s.gen.rst || s.rdEmpti
    wrPtrS := s.wrPtr - 1
    rdPtrS := s.rdPtr }

/-- When the power comes the reset is on; the memory and the flags have any values. -/
structure PoweredUp (s : FifoS α aw) : Prop where
  gen : s.gen = .powerUp
  wrPtr : s.wrPtr = 0
  rdPtr : s.rdPtr = BitVec.allOnes _

end FifoS

/-! ### The queue -/

/-- A queue with the reset generator of the fifo. -/
structure ResetQueue (α : Type) (n : ℕ) where
  gen : ResetGen
  queue : BoundedQueue α n

namespace ResetQueue

variable {α : Type} {n : ℕ}

/-- The reset is on before or after an edge that ends a cycle with this `arst`. -/
def held (q : ResetQueue α n) (arst : Bool) : Bool := q.gen.rst || (q.gen.clock arst).rst

def clock (q : ResetQueue α n) (i : FifoIn α) : ResetQueue α n where
  gen := q.gen.clock i.arst
  queue :=
    if q.held i.arst then .empty n
    else q.queue.clock (if i.wrEn then some i.wrDat else none) i.rdEn

/-- The word that an edge takes out. -/
def popped (q : ResetQueue α n) (i : FifoIn α) : Option α :=
  if q.held i.arst then none else q.queue.popped i.rdEn

def powerUp (n : ℕ) : ResetQueue α n := ⟨.powerUp, .empty n⟩

end ResetQueue

/-! ### The fifo holds the words of the queue -/

namespace FifoS

variable {α : Type} {aw : ℕ}

/-- The pointers and the memory hold these words; the next to be read is at `p + 1`. -/
structure HoldsAt (s : FifoS α aw) (p : ℕ) (ws : List α) : Prop where
  rdPtr : s.rdPtr = BitVec.ofNat (aw + 1) p
  wrPtr : s.wrPtr = BitVec.ofNat (aw + 1) (p + (ws.length + 1))
  stored : Stored (BitVec.ofNat aw) s.dpram (p + 1) ws

/-- **The fifo holds the words of the queue**, and outside of a reset the flags say how many. -/
structure Holds (s : FifoS α aw) (q : ResetQueue α (2 ^ aw)) : Prop where
  gen : s.gen = q.gen
  place : ∃ p, s.HoldsAt p q.queue.words
  full : s.gen.rst = false → s.wrFulli = decide (q.queue.words.length = 2 ^ aw)
  empty : s.gen.rst = false → s.rdEmpti = decide (q.queue.words.length = 0)

theorem two_pow_succ (aw : ℕ) : 2 ^ (aw + 1) = 2 ^ aw + 2 ^ aw := by
  rw [Nat.pow_succ]
  omega

/-- The memory has at least two slots. -/
theorem two_le_slots (haw : 0 < aw) : 2 ≤ 2 ^ aw := Nat.le_self_pow (Nat.pos_iff_ne_zero.mp haw) 2

section Flags

variable {s : FifoS α aw} {p : ℕ} {ws : List α}

/-- `wr_afulli`: one more word fills the memory. -/
theorem HoldsAt.afull (h : s.HoldsAt p ws) (haw : 0 < aw) (hle : ws.length ≤ 2 ^ aw) :
    s.wrAfulli = decide (ws.length + 1 = 2 ^ aw) := by
  have hpow := two_pow_succ aw
  have hslots := two_le_slots haw
  have hlap := lapped_iff (k := aw) (i := p) (j := ws.length + 1) (by omega)
  rw [wrAfulli, h.rdPtr, h.wrPtr]
  refine decide_eq_decide.mpr (Iff.trans ?_ hlap)
  exact and_congr_right fun _ => ne_comm

/-- `rd_aempti`: there is one word. -/
theorem HoldsAt.aempty (h : s.HoldsAt p ws) (hle : ws.length ≤ 2 ^ aw) :
    s.rdAempti = decide (ws.length = 1) := by
  have hpow := two_pow_succ aw
  have hpos := Nat.two_pow_pos aw
  have hback : BitVec.ofNat (aw + 1) p = BitVec.ofNat (aw + 1) (p + (ws.length + 1)) - 2 ↔
      BitVec.ofNat (aw + 1) (p + (ws.length + 1)) = BitVec.ofNat (aw + 1) (p + 2) := by
    rw [BitVec.eq_sub_iff_add_eq, BitVec.ofNat_add p 2, eq_comm]
    rfl
  rw [rdAempti, h.rdPtr, h.wrPtr]
  refine decide_eq_decide.mpr (hback.trans ?_)
  rcases Nat.eq_zero_or_pos ws.length with hzero | hone
  · rw [hzero]
    refine iff_of_false ?_ (by decide)
    intro heq
    exact absurd ((ofNat_add_eq_iff (w := aw + 1) (i := p + 1) (j := 1) (by omega)).mp heq.symm)
      (by decide)
  · have hplace : p + (ws.length + 1) = p + 2 + (ws.length - 1) := by omega
    rw [hplace, ofNat_add_eq_iff (by omega)]
    omega

/-- `wr_cnt` after the next edge. -/
theorem HoldsAt.cnt (h : s.HoldsAt p ws) (i : FifoIn α) :
    (s.clock i).wrCnt = BitVec.ofNat (aw + 1) ws.length := by
  show s.wrPtr - 1 - s.rdPtr = _
  have hplace : BitVec.ofNat (aw + 1) (p + (ws.length + 1))
      = BitVec.ofNat (aw + 1) ws.length + BitVec.ofNat (aw + 1) p + 1 := by
    rw [← BitVec.ofNat_add, ← Nat.add_assoc, Nat.add_comm p]
    exact BitVec.ofNat_add _ 1
  rw [h.wrPtr, h.rdPtr, hplace, BitVec.add_sub_cancel, BitVec.add_sub_cancel]

end Flags

/-! ### A rising edge -/

section Clock

variable {s : FifoS α aw} {q : ResetQueue α (2 ^ aw)} {i : FifoIn α}

/-- A reset empties the fifo; a write on its last edge would leave `rd_empty` low. -/
theorem Holds.reset (h : s.Holds q) (hquiet : s.gen.rst = true → i.wrEn = false)
    (hheld : q.held i.arst = true) : (s.clock i).Holds (q.clock i) := by
  have hgen : (s.clock i).gen = (q.clock i).gen := congrArg (·.clock i.arst) h.gen
  have hpos := Nat.two_pow_pos aw
  have hptr : (s.gen.rst || (s.gen.clock i.arst).rst) = true := by
    rw [h.gen]
    exact hheld
  have hwords : (q.clock i).queue.words = [] := by
    show (if q.held i.arst then BoundedQueue.empty _ else _).words = []
    rw [if_pos hheld]
    rfl
  -- with the reset over now it was on before the edge
  have hwas : (s.clock i).gen.rst = false → s.gen.rst = true := by
    intro hoff
    change (s.gen.clock i.arst).rst = false at hoff
    simpa [hoff] using hptr
  refine ⟨hgen, ⟨2 ^ (aw + 1) - 1, ?_, ?_, ?_⟩, ?_, ?_⟩
  · show (if s.gen.rst || (s.gen.clock i.arst).rst then BitVec.allOnes _ else _) = _
    rw [if_pos hptr]
    apply BitVec.eq_of_toNat_eq
    rw [BitVec.toNat_allOnes, BitVec.toNat_ofNat, Nat.mod_eq_of_lt]
    exact Nat.sub_one_lt (Nat.two_pow_pos _).ne'
  · show (if s.gen.rst || (s.gen.clock i.arst).rst then 0 else _) = _
    rw [if_pos hptr, hwords]
    apply BitVec.eq_of_toNat_eq
    have hpow := Nat.two_pow_pos (aw + 1)
    rw [BitVec.toNat_ofNat, List.length_nil, Nat.zero_add, Nat.sub_add_cancel hpow, Nat.mod_self]
    rfl
  · rw [hwords]
    exact stored_nil _ _ _
  · intro hoff
    rw [hwords]
    show (if s.gen.rst || i.rdEn then false else _) = decide (0 = 2 ^ aw)
    rw [hwas hoff, Bool.true_or, if_pos rfl, decide_eq_false hpos.ne]
  · intro hoff
    have hrst := hwas hoff
    rw [hwords]
    show (if i.wrEn then false else (s.rdAempti && i.rdEn) || s.gen.rst || s.rdEmpti) = true
    rw [hquiet hrst, hrst]
    simp

/-- Outside of a reset the requests are valid as the queue says. -/
theorem Holds.requests (h : s.Holds q) (hoff : s.gen.rst = false) :
    s.wrEnS i = (i.wrEn && decide (q.queue.words.length < 2 ^ aw)) ∧
      s.rdEnS i = (i.rdEn && decide (0 < q.queue.words.length)) := by
  have hle := q.queue.length_le
  constructor
  · rw [wrEnS, h.full hoff, hoff, Bool.or_false, ← decide_not]
    exact congrArg (i.wrEn && ·) (decide_eq_decide.mpr (by omega))
  · rw [rdEnS, h.empty hoff, ← decide_not]
    exact congrArg (i.rdEn && ·) (decide_eq_decide.mpr (by omega))

/-- **A word is written** to the slot behind the last one. -/
theorem HoldsAt.write {p : ℕ} {ws : List α} (h : s.HoldsAt p ws)
    (hreq : s.wrEnS i = (i.wrEn && decide (ws.length < 2 ^ aw))) :
    Stored (BitVec.ofNat aw) (s.clock i).dpram (p + 1)
      (ws ++
        if ws.length < 2 ^ aw then (if i.wrEn then some i.wrDat else none).toList else []) := by
  show Stored _ (if s.wrEnS i then Function.update s.dpram (s.wrPtr.setWidth aw) i.wrDat
    else s.dpram) _ _
  by_cases hroom : ws.length < 2 ^ aw
  · cases hen : i.wrEn with
    | false =>
      rw [hreq, hen, Bool.false_and, if_neg (by decide), if_pos hroom]
      simpa using h.stored
    | true =>
      have hslot : s.wrPtr.setWidth aw = BitVec.ofNat aw (p + 1 + ws.length) := by
        rw [h.wrPtr, BitVec.setWidth_ofNat_of_le (Nat.le_succ aw)]
        congr 1
        omega
      rw [hreq, hen, decide_eq_true hroom, Bool.true_and, if_pos rfl, if_pos hroom, hslot]
      exact h.stored.push (slotsApart_ofNat aw) hroom i.wrDat
  · rw [hreq, decide_eq_false hroom, Bool.and_false, if_neg (by decide), if_neg hroom,
      List.append_nil]
    exact h.stored

/-- The pointers move as the queue does. -/
theorem Holds.place_clock (h : s.Holds q) (hoff : s.gen.rst = false)
    (hheld : q.held i.arst = false) :
    ∃ p, (s.clock i).HoldsAt p (q.clock i).queue.words := by
  obtain ⟨p, hp⟩ := h.place
  obtain ⟨hwr, hrd⟩ := h.requests (i := i) hoff
  have hptr : (s.gen.rst || (s.gen.clock i.arst).rst) = false := by
    rw [h.gen]
    exact hheld
  have hstored := hp.write hwr
  have hwords : (q.clock i).queue
      = q.queue.clock (if i.wrEn then some i.wrDat else none) i.rdEn := by
    show (if q.held i.arst then _ else _) = _
    rw [hheld]
    rfl
  have hrdPtr : (s.clock i).rdPtr = if s.rdEnS i then s.rdPtr + 1 else s.rdPtr := by
    show (if s.gen.rst || (s.gen.clock i.arst).rst then _ else _) = _
    rw [hptr]
    rfl
  have hwrPtr : (s.clock i).wrPtr = BitVec.ofNat (aw + 1) (p + (q.queue.words.length + 1)
      + (q.queue.pushed (if i.wrEn then some i.wrDat else none)).length) := by
    show (if s.gen.rst || (s.gen.clock i.arst).rst then _ else if s.wrEnS i then _ else _) = _
    rw [hptr, hwr, hp.wrPtr, BoundedQueue.pushed]
    by_cases hroom : q.queue.words.length < 2 ^ aw <;> cases i.wrEn <;>
      simp [hroom, BitVec.ofNat_add]
  rw [hwords]
  by_cases hpop : s.rdEnS i = true
  · have hpop' := hpop
    rw [hrd, Bool.and_eq_true, decide_eq_true_eq] at hpop'
    obtain ⟨w, rest, hws⟩ := List.exists_cons_of_length_pos hpop'.2
    have hnext : (q.queue.clock (if i.wrEn then some i.wrDat else none) i.rdEn).words
        = rest ++ q.queue.pushed (if i.wrEn then some i.wrDat else none) := by
      show (if i.rdEn then q.queue.words.tail else _) ++ _ = _
      rw [hpop'.1, if_pos rfl, hws]
      rfl
    refine ⟨p + 1, ?_, ?_, ?_⟩
    · rw [hrdPtr, if_pos hpop, hp.rdPtr, BitVec.ofNat_add]
      rfl
    · rw [hwrPtr, hnext, hws, List.length_append, List.length_cons]
      congr 1
      omega
    · rw [hnext]
      rw [hws] at hstored
      rw [BoundedQueue.pushed, hws]
      exact hstored.pop.2
  · have hstay : (q.queue.clock (if i.wrEn then some i.wrDat else none) i.rdEn).words
        = q.queue.words ++ q.queue.pushed (if i.wrEn then some i.wrDat else none) := by
      show (if i.rdEn then q.queue.words.tail else q.queue.words) ++ _ = _
      rw [hrd, Bool.and_eq_true, decide_eq_true_eq] at hpop
      by_cases hen : i.rdEn = true
      · have hnil : q.queue.words = [] := by
          rw [← List.length_eq_zero_iff]
          by_contra hne
          exact hpop ⟨hen, Nat.pos_of_ne_zero hne⟩
        rw [hnil, List.tail_nil, ite_self]
      · rw [if_neg hen]
    refine ⟨p, ?_, ?_, ?_⟩
    · rw [hrdPtr, if_neg hpop, hp.rdPtr]
    · rw [hwrPtr, hstay, List.length_append]
      congr 1
      omega
    · rw [hstay]
      exact hstored

/-- The flags after an edge, where `n` words were in `d` slots. -/
theorem flags_next {n d : ℕ} (hd : 2 ≤ d) (hle : n ≤ d) (rd wr : Bool) :
    (if rd then false else (decide (n + 1 = d) && wr) || decide (n = d))
        = decide ((n - if rd then 1 else 0) + (if n < d ∧ wr = true then 1 else 0) = d) ∧
      (if wr then false else (decide (n = 1) && rd) || decide (n = 0))
        = decide ((n - if rd then 1 else 0) + (if n < d ∧ wr = true then 1 else 0) = 0) := by
  rw [Bool.eq_iff_iff, Bool.eq_iff_iff]
  cases rd <;> cases wr <;> grind

/-- **An edge outside of a reset.** -/
theorem Holds.move (h : s.Holds q) (haw : 0 < aw) (hheld : q.held i.arst = false) :
    (s.clock i).Holds (q.clock i) := by
  have hoff : s.gen.rst = false := by
    rw [h.gen]
    exact (Bool.or_eq_false_iff.mp hheld).1
  obtain ⟨p, hp⟩ := h.place
  have hslots := two_le_slots haw
  have hle := q.queue.length_le
  have hlen : (q.clock i).queue.words.length = (q.queue.words.length - if i.rdEn then 1 else 0)
      + if q.queue.words.length < 2 ^ aw ∧ i.wrEn = true then 1 else 0 := by
    show (if q.held i.arst then _ else _ : BoundedQueue α (2 ^ aw)).words.length = _
    rw [hheld]
    show ((if i.rdEn then q.queue.words.tail else q.queue.words) ++ q.queue.pushed _).length = _
    rw [List.length_append, BoundedQueue.pushed]
    cases i.rdEn <;> cases i.wrEn <;>
      by_cases hroom : q.queue.words.length < 2 ^ aw <;> simp [hroom]
  refine ⟨congrArg (·.clock i.arst) h.gen, h.place_clock hoff hheld, fun _ => ?_, fun _ => ?_⟩
  · show (if s.gen.rst || i.rdEn then false else (s.wrAfulli && i.wrEn) || s.wrFulli) = _
    rw [hoff, hp.afull haw hle, h.full hoff, hlen, Bool.false_or]
    exact (flags_next hslots hle i.rdEn i.wrEn).1
  · show (if i.wrEn then false else (s.rdAempti && i.rdEn) || s.gen.rst || s.rdEmpti) = _
    rw [hoff, hp.aempty hle, h.empty hoff, hlen, Bool.or_false]
    exact (flags_next hslots hle i.rdEn i.wrEn).2

/-- **Step lemma.** -/
theorem Holds.clock (h : s.Holds q) (haw : 0 < aw)
    (hquiet : s.gen.rst = true → i.wrEn = false) : (s.clock i).Holds (q.clock i) := by
  by_cases hheld : q.held i.arst = true
  · exact h.reset hquiet hheld
  · exact h.move haw (by simpa using hheld)

/-- **A word that was taken out** is at the read pointer. -/
theorem Holds.fetched (h : s.Holds q) {v : α} (hpop : q.popped i = some v) :
    (s.clock i).dpram ((s.clock i).rdPtr.setWidth aw) = v := by
  obtain ⟨p, hp⟩ := h.place
  rw [ResetQueue.popped] at hpop
  split at hpop
  · exact absurd hpop (by simp)
  · rename_i hheld
    have hheld' : q.held i.arst = false := by simpa using hheld
    have hoff : s.gen.rst = false := by
      rw [h.gen]
      exact (Bool.or_eq_false_iff.mp hheld').1
    obtain ⟨hwr, hrd⟩ := h.requests (i := i) hoff
    rw [BoundedQueue.popped] at hpop
    split at hpop
    · rename_i hen
      obtain ⟨rest, hws⟩ := List.head?_eq_some_iff.mp hpop
      have hptr : (s.clock i).rdPtr = BitVec.ofNat (aw + 1) (p + 1) := by
        have hvalid : s.rdEnS i = true := by
          rw [hrd, hen, hws]
          rfl
        have hnone : (s.gen.rst || (s.gen.clock i.arst).rst) = false := by
          rw [h.gen]
          exact hheld'
        show (if s.gen.rst || (s.gen.clock i.arst).rst then _ else if s.rdEnS i then _ else _) = _
        rw [hnone, if_neg (by decide), if_pos hvalid, hp.rdPtr, BitVec.ofNat_add]
        rfl
      have hstored := hp.write hwr
      rw [hws] at hstored
      rw [hptr, BitVec.setWidth_ofNat_of_le (Nat.le_succ aw)]
      exact hstored.pop.1
    · exact absurd hpop (by simp)

end Clock

/-! ### Over every sequence of inputs -/

theorem PoweredUp.holds {s : FifoS α aw} (h : s.PoweredUp) : s.Holds (.powerUp (2 ^ aw)) := by
  refine ⟨h.gen, ⟨2 ^ (aw + 1) - 1, ?_, ?_, stored_nil _ _ _⟩, ?_, ?_⟩
  · rw [h.rdPtr]
    apply BitVec.eq_of_toNat_eq
    rw [BitVec.toNat_allOnes, BitVec.toNat_ofNat, Nat.mod_eq_of_lt]
    exact Nat.sub_one_lt (Nat.two_pow_pos _).ne'
  · rw [h.wrPtr]
    apply BitVec.eq_of_toNat_eq
    show 0 = (BitVec.ofNat (aw + 1) (2 ^ (aw + 1) - 1 + 1)).toNat
    rw [BitVec.toNat_ofNat, Nat.sub_add_cancel (Nat.two_pow_pos _), Nat.mod_self]
  · rw [h.gen]
    exact fun hoff => by cases hoff
  · rw [h.gen]
    exact fun hoff => by cases hoff

/-- **Run lemma.** -/
theorem PoweredUp.drive_holds {s : FifoS α aw} (h : s.PoweredUp) (haw : 0 < aw)
    {ins : ℕ → FifoIn α}
    (hquiet : ∀ k, (drive clock s ins k).gen.rst = true → (ins k).wrEn = false) (n : ℕ) :
    (drive clock s ins n).Holds (drive ResetQueue.clock (.powerUp (2 ^ aw)) ins n) := by
  induction n with
  | zero => exact h.holds
  | succ n ih => exact ih.clock haw (hquiet n)

end FifoS

/-- **`fifo_s` is a queue of `2 ^ AWIDTH` words.**  For every sequence of inputs after power-up,
with resets at any time, if the user does not write while the reset is on: outside of a reset
`wr_full` and `rd_empty` say whether the queue is full and empty, `wr_afull` and `rd_aempty` whether
it is one word from being so, `wr_cnt` is its length one edge before, and a word taken out on an
edge is on `rd_dat` after the next one. -/
theorem fifoS_queue {α : Type} {aw : ℕ} (haw : 0 < aw) (s : FifoS α aw) (hs : s.PoweredUp)
    (ins : ℕ → FifoIn α)
    (hquiet : ∀ k, (drive FifoS.clock s ins k).gen.rst = true → (ins k).wrEn = false) (n : ℕ) :
    let f := drive FifoS.clock s ins
    let q := drive ResetQueue.clock (.powerUp (2 ^ aw)) ins
    ((f n).gen.rst = false →
      (f n).wrFulli = decide ((q n).queue.words.length = 2 ^ aw) ∧
        (f n).rdEmpti = decide ((q n).queue.words.length = 0)) ∧
    (f n).wrAfulli = decide ((q n).queue.words.length + 1 = 2 ^ aw) ∧
    (f n).rdAempti = decide ((q n).queue.words.length = 1) ∧
    (f (n + 1)).wrCnt.toNat = (q n).queue.words.length ∧
    ∀ v, (q n).popped (ins n) = some v → (f (n + 2)).rdDat = v := by
  intro f q
  have hholds : (f n).Holds (q n) := hs.drive_holds haw hquiet n
  obtain ⟨p, hp⟩ := hholds.place
  have hle := (q n).queue.length_le
  have hpow := FifoS.two_pow_succ aw
  have hpos := Nat.two_pow_pos aw
  refine ⟨fun hoff => ⟨hholds.full hoff, hholds.empty hoff⟩, hp.afull haw hle, hp.aempty hle, ?_,
    fun v hv => hholds.fetched hv⟩
  show ((f n).clock (ins n)).wrCnt.toNat = _
  rw [hp.cnt, BitVec.toNat_ofNat, Nat.mod_eq_of_lt (by omega)]

/-- After the reset three words are written to the fifo of RASHPA and one is read. -/
def descriptorIns (k : ℕ) : FifoIn (BitVec 256) :=
  ⟨false, decide (2 ≤ k ∧ k < 5), BitVec.ofNat 256 k, decide (k = 5)⟩

/-- The fifo of RASHPA, `btd_fifo`, when the power comes. -/
def btdFifo : FifoS (BitVec 256) 4 :=
  ⟨.powerUp, fun _ => 0, 0, 0, BitVec.allOnes _, false, true, 0, 0⟩

theorem fifoS_queue_descriptor :
    (drive FifoS.clock btdFifo descriptorIns 7).rdDat = 2 ∧
      (drive FifoS.clock btdFifo descriptorIns 6).wrCnt.toNat = 3 := by
  have hquiet : ∀ k, (drive FifoS.clock btdFifo descriptorIns k).gen.rst = true →
      (descriptorIns k).wrEn = false := by
    intro k hk
    by_contra hen
    have hlt : 2 ≤ k ∧ k < 5 := by simpa [descriptorIns] using hen
    have hk' : k = 2 ∨ k = 3 ∨ k = 4 := by omega
    rcases hk' with rfl | rfl | rfl <;> exact absurd hk (by decide)
  have hqueue := fifoS_queue (by decide) btdFifo ⟨rfl, rfl, rfl⟩ descriptorIns hquiet 5
  exact ⟨hqueue.2.2.2.2 2 (by decide), hqueue.2.2.2.1.trans (by decide)⟩

end VPcie.Ebone
