import Mathlib.Data.BitVec
import Mathlib.Data.List.Infix
import Mathlib.Logic.Function.Basic
import Mathlib.Tactic.Common
import VPcie.Lib.Runs

/-!
# The interrupt count of the sbone driver

`irq_handler` adds one to `irq_count`, `SBONE_IOCTL_GET_IRQCOUNT` fetches it and leaves zero, and
`sbone_file_poll` reads it.  Each of these is one atomic operation, so a run is a list of steps of
any number of handler runs and ioctl calls.

The word has 32 bits.  It counts the handler runs since the last fetch, modulo `2 ^ 32`.

* `irqCount_eq` — what the word holds, over every run;
* `fetched_mod` — the fetched counts and the word are the number of handler runs, modulo `2 ^ 32`;
* `irqs_conserved` — they are that number where fewer than `2 ^ 32` interrupts come between two
  fetches, and a poll then reports exactly the interrupts that are not fetched.
-/

namespace VPcie.Sbone.IrqCount

open VPcie.Lib

/-! ### The driver -/

/-- `atomic32_inc`: the previous value, and the new one. -/
def atomic32Inc (x : BitVec 32) : BitVec 32 × BitVec 32 := (x, x + 1)

/-- `atomic32_and`. -/
def atomic32And (x val : BitVec 32) : BitVec 32 × BitVec 32 := (x, x &&& val)

/-- `atomic32_read`. -/
def atomic32Read (x : BitVec 32) : BitVec 32 := x

/-- Where a call of `SBONE_IOCTL_GET_IRQCOUNT` is; `count` is a `size_t`. -/
inductive Call where
  | start
  | fetched (count : BitVec 64)
  | done (err : Int)
deriving DecidableEq, Repr

/-- A run of the handler, or a step of a call: its fetch, and its `copy_to_user`, which may fail. -/
inductive Step where
  | irqHandler
  | getFetch (call : ℕ)
  | getCopy (call : ℕ) (ok : Bool)
deriving DecidableEq, Repr

def Step.isIrq : Step → Bool
  | .irqHandler => true
  | _ => false

/-- `irq_count`, the calls, and what was fetched, last first. -/
structure Dev where
  irqCount : BitVec 32
  call : ℕ → Call
  fetched : List (BitVec 64)

/-- `sbone_dev_init`. -/
def sboneDevInit : Dev := ⟨0, fun _ => .start, []⟩

/-- `EINVAL`. -/
def einval : Int := 22

/-- One step; a call makes its steps in their order. -/
def step (s : Dev) : Step → Option Dev
  | .irqHandler => some { s with irqCount := (atomic32Inc s.irqCount).2 }
  | .getFetch c =>
    match s.call c with
    | .start =>
      let count := (atomic32And s.irqCount 0).1.setWidth 64
      some { s with
        irqCount := (atomic32And s.irqCount 0).2
        call := Function.update s.call c (.fetched count)
        fetched := count :: s.fetched }
    | _ => none
  | .getCopy c ok =>
    match s.call c with
    | .fetched _ =>
      some { s with call := Function.update s.call c (.done (if ok then 0 else -einval)) }
    | _ => none

/-- `POLLIN` and `POLLRDNORM`. -/
def pollin : BitVec 32 := 0x1
def pollrdnorm : BitVec 32 := 0x40

/-- `sbone_file_poll`. -/
def sboneFilePoll (s : Dev) : BitVec 32 :=
  if atomic32Read s.irqCount ≠ 0 then 0 ||| (pollin ||| pollrdnorm) else 0

/-! ### What the steps of a run say -/

/-- The sum of the fetched counts. -/
def Dev.sumFetched (s : Dev) : ℕ := (s.fetched.map BitVec.toNat).sum

/-- The number of runs of the handler. -/
def irqs (steps : List Step) : ℕ := steps.countP Step.isIrq

/-- Some handled interrupt has not been fetched: no fetch comes after it. -/
def Unfetched (steps : List Step) : Prop :=
  ∃ pre post, steps = pre ++ .irqHandler :: post ∧ ∀ c, .getFetch c ∉ post

/-- Fewer than `2 ^ 32` interrupts come between two fetches. -/
def FewBetween (steps : List Step) : Prop :=
  ∀ mid, mid <:+: steps → (∀ c, .getFetch c ∉ mid) → irqs mid < 2 ^ 32

/-- The number of runs of the handler since the last fetch. -/
def sinceFetch (steps : List Step) : ℕ :=
  steps.foldl (fun n a =>
    match a with
    | .irqHandler => n + 1
    | .getFetch _ => 0
    | .getCopy _ _ => n) 0

section Steps

variable (steps : List Step)

@[simp] theorem irqs_snoc (a : Step) :
    irqs (steps ++ [a]) = irqs steps + if a.isIrq then 1 else 0 := by
  rw [irqs, List.countP_append, List.countP_singleton]
  rfl

@[simp] theorem sinceFetch_irqHandler :
    sinceFetch (steps ++ [.irqHandler]) = sinceFetch steps + 1 := by
  rw [sinceFetch, List.foldl_append]
  rfl

@[simp] theorem sinceFetch_getFetch (c : ℕ) : sinceFetch (steps ++ [.getFetch c]) = 0 := by
  rw [sinceFetch, List.foldl_append]
  rfl

@[simp] theorem sinceFetch_getCopy (c : ℕ) (ok : Bool) :
    sinceFetch (steps ++ [.getCopy c ok]) = sinceFetch steps := by
  rw [sinceFetch, List.foldl_append]
  rfl

/-- The runs since the last fetch are those of the steps behind it. -/
theorem sinceFetch_eq :
    ∃ mid, mid <:+ steps ∧ (∀ c, .getFetch c ∉ mid) ∧ irqs mid = sinceFetch steps := by
  induction steps using List.reverseRecOn with
  | nil => exact ⟨[], List.suffix_rfl, fun _ => List.not_mem_nil, rfl⟩
  | append_singleton steps a ih =>
    obtain ⟨mid, ⟨pre, hpre⟩, hmid, hirqs⟩ := ih
    have hsuffix : mid ++ [a] <:+ steps ++ [a] := ⟨pre, by rw [← List.append_assoc, hpre]⟩
    cases a with
    | irqHandler =>
      refine ⟨mid ++ [.irqHandler], hsuffix, ?_, ?_⟩
      · intro c hc
        exact hmid c (by simpa using hc)
      · rw [irqs_snoc, hirqs, sinceFetch_irqHandler]
        rfl
    | getFetch c =>
      refine ⟨[], List.nil_suffix, fun _ => List.not_mem_nil, ?_⟩
      rw [sinceFetch_getFetch]
      rfl
    | getCopy c ok =>
      refine ⟨mid ++ [.getCopy c ok], hsuffix, ?_, ?_⟩
      · intro d hd
        exact hmid d (by simpa using hd)
      · rw [irqs_snoc, hirqs, sinceFetch_getCopy]
        rfl

/-- An interrupt is not fetched exactly when the handler has run since the last fetch. -/
theorem unfetched_iff : Unfetched steps ↔ sinceFetch steps ≠ 0 := by
  constructor
  · rintro ⟨pre, post, rfl, hpost⟩
    -- the steps after the interrupt only count up
    have hgrow : ∀ post, (∀ c, .getFetch c ∉ post) →
        sinceFetch (pre ++ .irqHandler :: post) ≠ 0 := by
      intro post
      induction post using List.reverseRecOn with
      | nil =>
        intro _
        rw [sinceFetch_irqHandler]
        exact Nat.succ_ne_zero _
      | append_singleton post a ih =>
        intro hnot
        have hih := ih fun c hc => hnot c (List.mem_append_left _ hc)
        rw [← List.cons_append, ← List.append_assoc]
        cases a with
        | irqHandler =>
          rw [sinceFetch_irqHandler]
          exact Nat.succ_ne_zero _
        | getFetch c => exact absurd (List.mem_append_right _ List.mem_cons_self) (hnot c)
        | getCopy c ok =>
          rw [sinceFetch_getCopy]
          exact hih
    exact hgrow post hpost
  · intro hne
    obtain ⟨mid, ⟨pre, rfl⟩, hmid, hirqs⟩ := sinceFetch_eq steps
    rw [← hirqs] at hne
    have hpos : 0 < mid.countP Step.isIrq := Nat.pos_of_ne_zero hne
    obtain ⟨a, ha, hirq⟩ := List.countP_pos_iff.mp hpos
    obtain ⟨left, right, rfl⟩ := List.append_of_mem ha
    cases a with
    | irqHandler =>
      refine ⟨pre ++ left, right, (List.append_assoc _ _ _).symm, ?_⟩
      intro c hc
      exact hmid c (List.mem_append_right _ (List.mem_cons_of_mem _ hc))
    | getFetch c => exact absurd hirq Bool.false_ne_true
    | getCopy c ok => exact absurd hirq Bool.false_ne_true

variable {steps}

theorem FewBetween.sinceFetch_lt (h : FewBetween steps) : sinceFetch steps < 2 ^ 32 := by
  obtain ⟨mid, hsuffix, hmid, hirqs⟩ := sinceFetch_eq steps
  exact hirqs ▸ h mid hsuffix.isInfix hmid

theorem FewBetween.of_snoc {a : Step} (h : FewBetween (steps ++ [a])) : FewBetween steps := by
  intro mid hmid
  exact h mid (hmid.trans (List.prefix_append _ _).isInfix)

/-- Few interrupts altogether are few between two fetches. -/
theorem fewBetween_of_lt (h : irqs steps < 2 ^ 32) : FewBetween steps := by
  intro mid hmid _
  exact lt_of_le_of_lt hmid.sublist.countP_le h

end Steps

/-! ### Each step -/

/-- **All a step can do** to the word and to what was fetched. -/
theorem step_cases {s t : Dev} {a : Step} (h : step s a = some t) :
    (a = .irqHandler ∧ t.irqCount = s.irqCount + 1 ∧ t.sumFetched = s.sumFetched) ∨
      (∃ c, a = .getFetch c ∧ t.irqCount = 0 ∧
        t.sumFetched = s.sumFetched + s.irqCount.toNat) ∨
      (∃ c ok, a = .getCopy c ok ∧ t.irqCount = s.irqCount ∧ t.sumFetched = s.sumFetched) := by
  cases a with
  | irqHandler =>
    simp only [step, Option.some.injEq] at h
    subst h
    exact Or.inl ⟨rfl, rfl, rfl⟩
  | getFetch c =>
    simp only [step] at h
    split at h
    · rw [Option.some.injEq] at h
      subst h
      refine Or.inr (Or.inl ⟨c, rfl, BitVec.and_zero, ?_⟩)
      have hwidth : (s.irqCount.setWidth 64).toNat = s.irqCount.toNat :=
        BitVec.toNat_setWidth_of_le (by decide)
      simp only [Dev.sumFetched, List.map_cons, List.sum_cons, atomic32And, hwidth]
      exact Nat.add_comm _ _
    · exact nomatch h
  | getCopy c ok =>
    simp only [step] at h
    split at h
    · rw [Option.some.injEq] at h
      subst h
      exact Or.inr (Or.inr ⟨c, ok, rfl, rfl, rfl⟩)
    · exact nomatch h

/-! ### Every run -/

section Run

variable {steps : List Step} {s : Dev}

/-- **The word counts the runs of the handler since the last fetch**, modulo `2 ^ 32`. -/
theorem irqCount_eq (hrun : run step sboneDevInit steps = some s) :
    s.irqCount = BitVec.ofNat 32 (sinceFetch steps) := by
  refine run_history (fun l s => s.irqCount = BitVec.ofNat 32 (sinceFetch l)) ?_ rfl hrun
  intro l s a t _ hs hstep
  rcases step_cases hstep with ⟨rfl, hcount, -⟩ | ⟨c, rfl, hcount, -⟩ | ⟨c, ok, rfl, hcount, -⟩
  · rw [hcount, hs, sinceFetch_irqHandler, BitVec.ofNat_add]
    rfl
  · rw [hcount, sinceFetch_getFetch]
    rfl
  · rw [hcount, hs, sinceFetch_getCopy]

theorem poll_iff (s : Dev) : sboneFilePoll s &&& pollin ≠ 0 ↔ s.irqCount ≠ 0 := by
  rw [sboneFilePoll, atomic32Read]
  by_cases hzero : s.irqCount ≠ 0
  · rw [if_pos hzero]
    exact iff_of_true (by decide) hzero
  · rw [if_neg hzero]
    exact iff_of_false (by decide) hzero

/-- What a poll reports, however many interrupts there are between two fetches. -/
theorem poll_iff_dvd (hrun : run step sboneDevInit steps = some s) :
    sboneFilePoll s &&& pollin ≠ 0 ↔ ¬ 2 ^ 32 ∣ sinceFetch steps := by
  rw [poll_iff, irqCount_eq hrun, Nat.dvd_iff_mod_eq_zero, ← BitVec.toNat_ofNat, ne_eq,
    BitVec.toNat_eq]
  rfl

/-- **What is fetched and what is not add up to the runs of the handler**, modulo `2 ^ 32`. -/
theorem fetched_mod (hrun : run step sboneDevInit steps = some s) :
    s.sumFetched + s.irqCount.toNat ≡ irqs steps [MOD 2 ^ 32] := by
  have hinit : sboneDevInit.sumFetched + sboneDevInit.irqCount.toNat ≡ irqs [] [MOD 2 ^ 32] := rfl
  refine run_history (fun l s => s.sumFetched + s.irqCount.toNat ≡ irqs l [MOD 2 ^ 32]) ?_ hinit
    hrun
  intro l s a t _ hs hstep
  rw [irqs_snoc]
  rcases step_cases hstep with ⟨rfl, hcount, hsum⟩ | ⟨c, rfl, hcount, hsum⟩ |
    ⟨c, ok, rfl, hcount, hsum⟩
  · rw [hcount, hsum, BitVec.toNat_add]
    have hmod : (s.irqCount.toNat + (1#32).toNat) % 2 ^ 32 ≡ s.irqCount.toNat + 1 [MOD 2 ^ 32] :=
      Nat.mod_modEq _ _
    exact (hmod.add_left _).trans (hs.add_right 1)
  · rw [hcount, hsum]
    exact hs
  · rw [hcount, hsum]
    exact hs

/-- With few interrupts between two fetches the word does not wrap. -/
theorem irqCount_toNat (hrun : run step sboneDevInit steps = some s) (hfew : FewBetween steps) :
    s.irqCount.toNat = sinceFetch steps := by
  rw [irqCount_eq hrun, BitVec.toNat_ofNat, Nat.mod_eq_of_lt hfew.sinceFetch_lt]

/-- What is fetched is what was handled before the last fetch. -/
theorem sumFetched_add (hrun : run step sboneDevInit steps = some s) (hfew : FewBetween steps) :
    s.sumFetched + sinceFetch steps = irqs steps := by
  refine run_history (fun l s => FewBetween l → s.sumFetched + sinceFetch l = irqs l) ?_
    (fun _ => rfl) hrun hfew
  intro l s a t hrun hs hstep hfew
  have hbefore := hs hfew.of_snoc
  rw [irqs_snoc, ← hbefore]
  rcases step_cases hstep with ⟨rfl, -, hsum⟩ | ⟨c, rfl, -, hsum⟩ | ⟨c, ok, rfl, -, hsum⟩
  · rw [hsum, sinceFetch_irqHandler]
    rfl
  · rw [hsum, sinceFetch_getFetch, irqCount_toNat hrun hfew.of_snoc]
    rfl
  · rw [hsum, sinceFetch_getCopy]
    rfl

/-- **Interrupts are conserved**, and a poll reports those that are not fetched. -/
theorem irqs_conserved (hrun : run step sboneDevInit steps = some s) (hfew : FewBetween steps) :
    s.sumFetched + s.irqCount.toNat = irqs steps ∧
      (sboneFilePoll s &&& pollin ≠ 0 ↔ Unfetched steps) := by
  have hcount := irqCount_toNat hrun hfew
  constructor
  · rw [hcount]
    exact sumFetched_add hrun hfew
  · rw [poll_iff, unfetched_iff, ← hcount, ne_eq, ne_eq, BitVec.toNat_eq]
    rfl

/-- Two readers and three interrupts, of which one is left. -/
theorem irqs_conserved_two : ∃ s,
    run step sboneDevInit [.irqHandler, .irqHandler, .getFetch 0, .getFetch 1, .irqHandler,
      .getCopy 1 true, .getCopy 0 false] = some s ∧ s.sumFetched + s.irqCount.toNat = 3 ∧
      (sboneFilePoll s &&& pollin ≠ 0 ↔ Unfetched [.irqHandler, .irqHandler, .getFetch 0,
        .getFetch 1, .irqHandler, .getCopy 1 true, .getCopy 0 false]) := by
  have hfew : FewBetween [.irqHandler, .irqHandler, .getFetch 0, .getFetch 1, .irqHandler,
      .getCopy 1 true, .getCopy 0 false] := fewBetween_of_lt (by decide)
  exact ⟨_, rfl, irqs_conserved rfl hfew⟩

end Run

end VPcie.Sbone.IrqCount
