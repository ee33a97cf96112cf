import Mathlib.Data.Nat.Count
import Mathlib.Order.Lattice.Nat
import VPcie.Vhdl.Endpoint

/-!
# How often a write of CTL starts the engine

The request that starts a transfer stays on the ports until `write_done`.  `write_start` clears the
bit S of the register for one edge, and the request sets it again: when the endpoint releases the
request the register has the bit S, and the engine starts once more.

* `pending_clock`, `starts_soon` — a start that is to come stays so until it comes;
* `served_clock` — while each write that is released is followed at once by another, the restart of
  the one serves the other;
* `release_pending` — without that the restart is one too many;
* `startsOnce_iff` — so each write starts the engine once exactly where every release is of that
  kind.
-/

namespace VPcie.Vhdl

open VPcie.Lib VPcie.Glue

/-! ### The counts -/

/-- The edge enters `write_start`. -/
def System.enters (s : System) (arrivals : List AccessView) : Bool :=
  decide (s.dma.state ≠ .writeStart ∧ (s.clock arrivals).dma.state = .writeStart)

/-- On the edge a write of CTL with the bit S is accepted. -/
def System.acceptsStart (s : System) (arrivals : List AccessView) : Bool :=
  (s.accepted arrivals).any startsTransfer

/-- The transfers started in the first `n` cycles. -/
def starts (arr : ℕ → List AccessView) (n : ℕ) : ℕ :=
  Nat.count (fun k => (System.after arr k).enters (arr k) = true) n

/-- The writes of CTL with the bit S accepted in them. -/
def startWrites (arr : ℕ → List AccessView) (n : ℕ) : ℕ :=
  Nat.count (fun k => (System.after arr k).acceptsStart (arr k) = true) n

/-- A start is to come: the engine is idle, and the bit S is in CTL or in the request. -/
def System.pending (s : System) : Bool :=
  decide (s.dma.state = .idle) &&
    (s.dma.ctl.regData.getLsbD 31 || s.dma.ctl.data.getLsbD 31 || s.req.setsS)

/-- Each write starts the engine once: at any time the starts, with the one that is to come, are as
many as the writes; and where the host stops the starts are in the end. -/
structure StartsOnce (arr : ℕ → List AccessView) : Prop where
  balanced : ∀ n, starts arr n + (System.after arr n).pending.toNat = startWrites arr n
  settled : ∀ K, (∀ k, K ≤ k → arr k = []) →
    ∃ n₀, ∀ n, n₀ ≤ n → starts arr n = startWrites arr n

/-- A write that is released on the edge is followed at once by another. -/
def System.Chained (s : System) (arrivals : List AccessView) : Prop :=
  s.dma.out.reqAck = true → s.req.setsS = true → s.acceptsStart arrivals = true

theorem starts_succ (arr : ℕ → List AccessView) (n : ℕ) : starts arr (n + 1)
    = starts arr n + ((System.after arr n).enters (arr n)).toNat := by
  rw [starts, Nat.count_succ, ← starts]
  cases (System.after arr n).enters (arr n) <;> rfl

theorem startWrites_succ (arr : ℕ → List AccessView) (n : ℕ) : startWrites arr (n + 1)
    = startWrites arr n + ((System.after arr n).acceptsStart (arr n)).toNat := by
  rw [startWrites, Nat.count_succ, ← startWrites]
  cases (System.after arr n).acceptsStart (arr n) <;> rfl

/-! ### One edge -/

section Step

variable {s : System} {arrivals : List AccessView}

theorem pending_eq_true : s.pending = true ↔ s.dma.state = .idle ∧
    (s.dma.ctl.regData.getLsbD 31 = true ∨ s.dma.ctl.data.getLsbD 31 = true ∨
      s.req.setsS = true) := by
  simp only [System.pending, Bool.and_eq_true, decide_eq_true_eq, Bool.or_eq_true, or_assoc]

theorem pending_of_state (h : s.dma.state ≠ .idle) : s.pending = false := by
  rw [System.pending, decide_eq_false h, Bool.false_and]

/-- Only the idle engine starts, and with the bit S latched. -/
theorem enters_iff (h : s.Consistent) (arrivals : List AccessView) :
    s.enters arrivals = true ↔ s.dma.state = .idle ∧ s.dma.ctl.regData.getLsbD 31 = true := by
  rw [System.enters, decide_eq_true_eq, s.clock_state]
  constructor
  · rintro ⟨-, hnext⟩
    have hidle := h.dma.idle_of_start hnext
    refine ⟨hidle, ?_⟩
    by_contra hclear
    rw [h.next_idle hidle, if_neg hclear] at hnext
    cases hnext
  · rintro ⟨hidle, hset⟩
    refine ⟨?_, ?_⟩
    · rw [hidle]
      decide
    · rw [h.next_idle hidle, if_pos hset]

theorem enters_state (h : s.enters arrivals = true) :
    (s.clock arrivals).dma.state = .writeStart := by
  rw [System.enters, decide_eq_true_eq] at h
  exact h.2

/-- Without the bit S latched the idle engine stays idle. -/
theorem idle_clock (h : s.Consistent) (hidle : s.dma.state = .idle)
    (hreg : s.dma.ctl.regData.getLsbD 31 = false) (arrivals : List AccessView) :
    (s.clock arrivals).dma.state = .idle := by
  rw [s.clock_state, h.next_idle hidle, hreg]
  rfl

/-- **A start that is to come** comes, or is still to come. -/
theorem pending_clock (h : s.Consistent) (hpending : s.pending = true)
    (arrivals : List AccessView) :
    s.enters arrivals = true ∨
      s.enters arrivals = false ∧ (s.clock arrivals).pending = true := by
  obtain ⟨hidle, hS⟩ := pending_eq_true.mp hpending
  by_cases hreg : s.dma.ctl.regData.getLsbD 31 = true
  · left
    exact (enters_iff h arrivals).mpr ⟨hidle, hreg⟩
  · right
    have hno : s.enters arrivals = false :=
      Bool.eq_false_iff.mpr fun henters => hreg ((enters_iff h arrivals).mp henters).2
    refine ⟨hno, pending_eq_true.mpr ⟨idle_clock h hidle (Bool.eq_false_iff.mpr hreg) _, ?_⟩⟩
    rcases hS with hset | hset | hset
    · exact absurd hset hreg
    · left
      exact hset
    · right
      left
      exact System.clock_ctl h arrivals (by rw [hidle]; decide) hset

/-- An access that is accepted is on the ports. -/
theorem acceptsStart_req (h : s.acceptsStart arrivals = true) :
    (s.clock arrivals).req.setsS = true := by
  rcases s.clock_cases arrivals with hhold | ⟨a, haccept⟩ | hrest
  · rw [System.acceptsStart, hhold.accepted] at h
    cases h
  · rw [System.acceptsStart, haccept.accepted] at h
    rw [haccept.req, setsS_ofAccess]
    exact h
  · rw [System.acceptsStart, hrest.accepted] at h
    cases h

/-- A request that the endpoint does not hold is that of an access it accepts. -/
theorem setsS_clock (hfree : s.ep.waitAck = true → s.dma.out.reqAck = true)
    (h : s.acceptsStart arrivals = false) : (s.clock arrivals).req.setsS = false := by
  rcases s.clock_cases arrivals with hhold | ⟨a, haccept⟩ | hrest
  · have hack := hfree hhold.wait
    rw [hhold.noAck] at hack
    cases hack
  · rw [System.acceptsStart, haccept.accepted] at h
    rw [haccept.req, setsS_ofAccess]
    exact h
  · rw [hrest.req, setsS_none]

/-- The endpoint holds the request until `write_done`. -/
theorem held_clock (h : s.Consistent) (hS : s.req.setsS = true) (hstate : s.dma.state ≠ .writeDone)
    (arrivals : List AccessView) :
    (s.clock arrivals).req.setsS = true ∧ s.acceptsStart arrivals = false := by
  have hwait := hS
  rw [h.req, Bool.and_eq_true] at hwait
  have hack : s.dma.out.reqAck ≠ true := fun hack => hstate (h.ack_iff.mp hack)
  rcases s.clock_cases arrivals with hhold | ⟨a, haccept⟩ | hrest
  · refine ⟨?_, ?_⟩
    · rw [hhold.req, setsS_ofAccess, hwait.2]
    · rw [System.acceptsStart, hhold.accepted]
      rfl
  · exact absurd (haccept.free hwait.1) hack
  · exact absurd (hrest.free hwait.1) hack

/-- **The restart.**  When a write is released the register has its bit S. -/
theorem release_pending (h : s.Consistent) (hS : s.req.setsS = true)
    (hstate : s.dma.state = .writeDone) (arrivals : List AccessView) :
    s.pending = false ∧ s.enters arrivals = false ∧ (s.clock arrivals).pending = true := by
  refine ⟨pending_of_state (by rw [hstate]; decide), ?_, pending_eq_true.mpr ⟨?_, Or.inr ?_⟩⟩
  · refine Bool.eq_false_iff.mpr ?_
    intro henters
    have hidle := ((enters_iff h arrivals).mp henters).1
    rw [hstate] at hidle
    cases hidle
  · rw [s.clock_state, h.dma.next, hstate]
    rfl
  · left
    exact System.clock_ctl h arrivals (by rw [hstate]; decide) hS

/-! ### The balance -/

/-- No write was accepted so far, and the engine has nothing to do. -/
structure System.Quiet (s : System) : Prop where
  idle : s.dma.state = .idle
  pending : s.pending = false

/-- What holds while each release is followed at once by another write: the engine has never
started, or a write is held, and it was started as often as it should. -/
inductive Served (s : System) (starts writes : ℕ) : Prop where
  | quiet (h : s.Quiet) (hstarts : starts = 0) (hwrites : writes = 0)
  | held (h : s.req.setsS = true) (hcount : starts + s.pending.toNat = writes)

theorem System.Quiet.clock (h : s.Consistent) (hquiet : s.Quiet) (arrivals : List AccessView) :
    s.enters arrivals = false ∧
      (s.acceptsStart arrivals = true → (s.clock arrivals).pending = true) ∧
      (s.acceptsStart arrivals = false → (s.clock arrivals).Quiet) := by
  obtain ⟨hidle, hpending⟩ := hquiet
  have hS : s.req.setsS = false := by
    refine Bool.eq_false_iff.mpr fun hset => ?_
    rw [pending_eq_true.mpr ⟨hidle, Or.inr (Or.inr hset)⟩] at hpending
    cases hpending
  have hctl : s.dma.ctl.data.getLsbD 31 = false := by
    refine Bool.eq_false_iff.mpr fun hset => ?_
    rw [pending_eq_true.mpr ⟨hidle, Or.inr (Or.inl hset)⟩] at hpending
    cases hpending
  have hreg : s.dma.ctl.regData.getLsbD 31 = false := by
    refine Bool.eq_false_iff.mpr fun hset => ?_
    rw [pending_eq_true.mpr ⟨hidle, Or.inl hset⟩] at hpending
    cases hpending
  have hidle' := idle_clock h hidle hreg arrivals
  refine ⟨?_, ?_, ?_⟩
  · refine Bool.eq_false_iff.mpr fun henters => ?_
    rw [((enters_iff h arrivals).mp henters).2] at hreg
    cases hreg
  · intro haccepts
    exact pending_eq_true.mpr ⟨hidle', Or.inr (Or.inr (acceptsStart_req haccepts))⟩
  · intro haccepts
    refine ⟨hidle', Bool.eq_false_iff.mpr fun hpending' => ?_⟩
    have hS' : (s.clock arrivals).req.setsS = false := by
      rcases s.clock_cases arrivals with hhold | ⟨a, haccept⟩ | hrest
      · rw [h.req, hhold.wait, Bool.true_and] at hS
        rw [hhold.req, setsS_ofAccess, hS]
      · exact setsS_clock haccept.free haccepts
      · exact setsS_clock hrest.free haccepts
    rcases (pending_eq_true.mp hpending').2 with hset | hset | hset
    · rw [s.clock_regData, hctl] at hset
      cases hset
    · rw [System.clock_ctl_clear hS hctl] at hset
      cases hset
    · rw [hS'] at hset
      cases hset

/-- **Step lemma.** -/
theorem served_clock {m n : ℕ} (h : s.Consistent) (hserved : Served s m n)
    (hchained : s.Chained arrivals) :
    Served (s.clock arrivals) (m + (s.enters arrivals).toNat)
      (n + (s.acceptsStart arrivals).toNat) := by
  cases hserved with
  | quiet hquiet hstarts hwrites =>
    obtain ⟨henters, hyes, hno⟩ := hquiet.clock h arrivals
    rw [henters, hstarts, hwrites]
    by_cases haccepts : s.acceptsStart arrivals = true
    · refine .held (acceptsStart_req haccepts) ?_
      rw [haccepts, hyes haccepts]
      rfl
    · have haccepts := Bool.eq_false_iff.mpr haccepts
      rw [haccepts]
      exact .quiet (hno haccepts) rfl rfl
  | held hS hcount =>
    by_cases hstate : s.dma.state = .writeDone
    · -- released: the next write takes its place, and its restart
      have haccepts := hchained (h.ack_iff.mpr hstate) hS
      obtain ⟨hpending, henters, hpending'⟩ := release_pending h hS hstate arrivals
      refine .held (acceptsStart_req haccepts) ?_
      rw [hpending] at hcount
      rw [henters, haccepts, hpending', ← hcount]
    · obtain ⟨hS', haccepts⟩ := held_clock h hS hstate arrivals
      refine .held hS' ?_
      rw [haccepts, ← hcount]
      by_cases hidle : s.dma.state = .idle
      · have hpending := pending_eq_true.mpr ⟨hidle, Or.inr (Or.inr hS)⟩
        rw [hpending]
        rcases pending_clock h hpending arrivals with henters | ⟨henters, hpending'⟩
        · rw [henters, pending_of_state (by rw [enters_state henters]; decide)]
        · rw [henters, hpending']
          rfl
      · have henters : s.enters arrivals = false :=
          Bool.eq_false_iff.mpr fun henters => hidle ((enters_iff h arrivals).mp henters).1
        have hnext : (s.clock arrivals).dma.state ≠ .idle :=
          fun hnext => hstate (h.done_of_next hidle hnext)
        rw [henters, pending_of_state hidle, pending_of_state hnext]

end Step

/-! ### Whole runs -/

section Whole

variable {arr : ℕ → List AccessView}

theorem reset_quiet : System.reset.Quiet := ⟨rfl, by decide⟩

theorem served_after (h : ∀ n, (System.after arr n).Chained (arr n)) (n : ℕ) :
    Served (System.after arr n) (starts arr n) (startWrites arr n) := by
  induction n with
  | zero => exact .quiet reset_quiet (Nat.count_zero _) (Nat.count_zero _)
  | succ n ih =>
    rw [starts_succ, startWrites_succ]
    exact served_clock (System.after_consistent arr n) ih (h n)

theorem balanced_of_chained (h : ∀ n, (System.after arr n).Chained (arr n)) (n : ℕ) :
    starts arr n + (System.after arr n).pending.toNat = startWrites arr n := by
  cases served_after h n with
  | quiet hquiet hstarts hwrites => rw [hquiet.pending, hstarts, hwrites]; rfl
  | held _ hcount => exact hcount

/-- A start that is to come does come: the bit S moves from the request to the register, from there
to its output, and is seen there. -/
theorem starts_soon {n : ℕ} (hpending : (System.after arr n).pending = true) :
    ∃ k, n ≤ k ∧ (System.after arr k).enters (arr k) = true := by
  have hcons := System.after_consistent arr
  have hlatched : ∀ k, n ≤ k → (System.after arr k).dma.state = .idle →
      (System.after arr k).dma.ctl.regData.getLsbD 31 = true →
      ∃ k, n ≤ k ∧ (System.after arr k).enters (arr k) = true := by
    intro k hk hidle hset
    exact ⟨k, hk, (enters_iff (hcons k) _).mpr ⟨hidle, hset⟩⟩
  have hdata : ∀ k, n ≤ k → (System.after arr k).dma.state = .idle →
      (System.after arr k).dma.ctl.data.getLsbD 31 = true →
      ∃ k, n ≤ k ∧ (System.after arr k).enters (arr k) = true := by
    intro k hk hidle hset
    by_cases hreg : (System.after arr k).dma.ctl.regData.getLsbD 31 = true
    · exact hlatched k hk hidle hreg
    · exact hlatched (k + 1) (Nat.le_succ_of_le hk)
        (idle_clock (hcons k) hidle (Bool.eq_false_iff.mpr hreg) _) hset
  obtain ⟨hidle, hset | hset | hset⟩ := pending_eq_true.mp hpending
  · exact hlatched n n.le_refl hidle hset
  · exact hdata n n.le_refl hidle hset
  · by_cases hreg : (System.after arr n).dma.ctl.regData.getLsbD 31 = true
    · exact hlatched n n.le_refl hidle hreg
    · exact hdata (n + 1) n.le_succ
        (idle_clock (hcons n) hidle (Bool.eq_false_iff.mpr hreg) _)
        (System.clock_ctl (hcons n) _ (by rw [hidle]; decide) hset)

/-- The accesses that have arrived in the first `n` cycles. -/
def arrived (arr : ℕ → List AccessView) : ℕ → ℕ
  | 0 => 0
  | n + 1 => arrived arr n + (arr n).length

/-- Only what has arrived is accepted. -/
theorem startWrites_le (arr : ℕ → List AccessView) (n : ℕ) :
    startWrites arr n + (System.after arr n).fifo.length ≤ arrived arr n := by
  induction n with
  | zero => exact Nat.le_refl 0
  | succ n ih =>
    rw [startWrites_succ, System.after_succ, arrived]
    have hlength : ((System.after arr n).fifo ++ arr n).length
        = (System.after arr n).fifo.length + (arr n).length := List.length_append
    rcases (System.after arr n).clock_cases (arr n) with hhold | ⟨a, haccept⟩ | hrest
    · rw [System.acceptsStart, hhold.accepted, hhold.fifo, hlength]
      show _ + 0 + _ ≤ _
      omega
    · have hpop := congrArg List.length haccept.fifo
      rw [hlength, List.length_cons] at hpop
      have hone := Bool.toNat_le ((System.after arr n).acceptsStart (arr n))
      omega
    · have hpop := hrest.fifo
      rw [System.acceptsStart, hrest.accepted]
      show _ + 0 + _ ≤ _
      omega

theorem arrived_eq {K : ℕ} (h : ∀ k, K ≤ k → arr k = []) (n : ℕ) :
    arrived arr (K + n) = arrived arr K := by
  induction n with
  | zero => rfl
  | succ n ih =>
    show arrived arr (K + n) + (arr (K + n)).length = _
    rw [ih, h (K + n) (Nat.le_add_right K n)]
    rfl

/-- **Where the host stops**, the starts are in the end as many as the writes. -/
theorem settled_of_balanced
    (h : ∀ n, starts arr n + (System.after arr n).pending.toNat = startWrites arr n) {K : ℕ}
    (hK : ∀ k, K ≤ k → arr k = []) : ∃ n₀, ∀ n, n₀ ≤ n → starts arr n = startWrites arr n := by
  have hmono : Monotone (starts arr) := Nat.count_monotone _
  have hwrites : Monotone (startWrites arr) := Nat.count_monotone _
  have hbound : BddAbove (Set.range (starts arr)) := by
    refine ⟨arrived arr K, ?_⟩
    rintro _ ⟨n, rfl⟩
    have hle : starts arr n ≤ starts arr (K + n) := hmono (Nat.le_add_left n K)
    have hlast := startWrites_le arr (K + n)
    rw [arrived_eq hK] at hlast
    have hcount := h (K + n)
    omega
  obtain ⟨n₀, hn₀⟩ := Nat.sSup_mem (Set.range_nonempty (starts arr)) hbound
  refine ⟨n₀, ?_⟩
  intro n hn
  have hcount := h n
  by_cases hpending : (System.after arr n).pending = true
  · -- the start to come would be one more than there ever are
    obtain ⟨k, hk, henters⟩ := starts_soon hpending
    have hle : starts arr (k + 1) ≤ starts arr n₀ :=
      (le_csSup hbound ⟨k + 1, rfl⟩).trans (Nat.le_of_eq hn₀.symm)
    have hge : starts arr n₀ ≤ starts arr k := hmono (hn.trans hk)
    rw [starts_succ, henters] at hle
    exact absurd (hle.trans hge) (Nat.not_succ_le_self _)
  · rw [Bool.eq_false_iff.mpr hpending] at hcount
    exact hcount

/-- **When each write starts the engine once.**  Exactly when every write that is released is
followed at once by another. -/
theorem startsOnce_iff (arr : ℕ → List AccessView) :
    StartsOnce arr ↔ ∀ n, (System.after arr n).Chained (arr n) := by
  constructor
  · intro honce n hack hS
    by_contra haccepts
    have hcons := System.after_consistent arr n
    obtain ⟨hpending, henters, hpending'⟩ :=
      release_pending hcons hS (hcons.ack_iff.mp hack) (arr n)
    have hbefore := honce.balanced n
    have hafter := honce.balanced (n + 1)
    rw [starts_succ, startWrites_succ, henters, Bool.eq_false_iff.mpr haccepts,
      System.after_succ, hpending'] at hafter
    rw [hpending] at hbefore
    simp only [Bool.toNat_false, Bool.toNat_true] at hbefore hafter
    omega
  · intro hchained
    have hbalanced := balanced_of_chained hchained
    exact ⟨hbalanced, fun K hK => settled_of_balanced hbalanced hK⟩

end Whole

/-! ### One write -/

/-- A single write of CTL, to transfer 128 bytes. -/
def oneStart (n : ℕ) : List AccessView :=
  if n = 0 then [⟨false, 1, 0x00, 4, some 0x80000080⟩] else []

theorem oneStart_after (n : ℕ) : (System.after oneStart (20 + n)) = System.after oneStart 20 := by
  induction n with
  | zero => rfl
  | succ n ih =>
    rw [← Nat.add_assoc, System.after_succ, ih, oneStart, if_neg (by omega)]
    decide +kernel

/-- A single write starts the engine twice. -/
theorem oneStart_twice : (∀ k, 1 ≤ k → oneStart k = []) ∧
    ∀ n, 20 ≤ n → starts oneStart n = 2 ∧ startWrites oneStart n = 1 := by
  refine ⟨fun k hk => if_neg (by omega), ?_⟩
  intro n hn
  obtain ⟨m, rfl⟩ := Nat.exists_eq_add_of_le hn
  induction m with
  | zero => decide +kernel
  | succ m ih =>
    obtain ⟨hstarts, hwrites⟩ := ih (Nat.le_add_right _ _)
    rw [← Nat.add_assoc, starts_succ, startWrites_succ, hstarts, hwrites, oneStart_after, oneStart,
      if_neg (by omega)]
    decide +kernel

end VPcie.Vhdl
