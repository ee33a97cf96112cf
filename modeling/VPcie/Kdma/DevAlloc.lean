import VPcie.Kdma.Probe
import VPcie.Lib.Bitmap
import VPcie.Lib.Runs

/-!
# The device slots of the drivers

`kdma_dev_alloc` captures the bitmap of the driver, scans the captured value for a free bit, and
commits with a fetch-and-or; `kdma_dev_free` is a fetch-and-and.  The sbone driver has the same two
functions.  A run is a list of steps of any number of calls, each up to its next access to the
bitmap, so the captured value may be stale.

A call that won a bit owns the slot until it frees it; the bitmap knows nothing else.

* `step_cases` — all a step can do;
* `Inv`, `reachable_inv` — the set bits are the owned slots, and each slot has one owner;
* `alone_null` — a call that is not interfered with fails only if no slot is free;
* `alone_kdmaDevAlloc` — such a call does what the sequential `kdmaDevAlloc` does;
* `slots_safe` — the contract of the allocator, over every interleaving.
-/

namespace VPcie.Kdma.DevAlloc

open VPcie.Lib

/-! ### The driver -/

/-- `atomic32_or`: the previous value, and the new one. -/
def atomic32Or (x val : BitVec 32) : BitVec 32 × BitVec 32 := (x, x ||| val)

/-- `atomic32_and`. -/
def atomic32And (x val : BitVec 32) : BitVec 32 × BitVec 32 := (x, x &&& val)

/-- `atomic32_read`. -/
def atomic32Read (x : BitVec 32) : BitVec 32 := x

/-- Where a call of `kdma_dev_alloc` is: `x` and `i` are its locals, the captured value shifted and
the slot it looks at.  A call that returned a device owns the slot until it is freed. -/
inductive Call where
  | start
  | scan (x : BitVec 32) (i : ℕ)
  | commit (x : BitVec 32) (i : ℕ)
  | owner (i : ℕ)
  | null
  | freed
deriving DecidableEq, Repr

/-- The steps of a call: the read of the bitmap, one turn of the loop, the fetch-and-or in it, and
`kdma_dev_free` by the owner. -/
inductive Step where
  | read (call : ℕ)
  | turn (call : ℕ)
  | or (call : ℕ)
  | free (call : ℕ)
deriving DecidableEq, Repr

/-- The call that makes a step. -/
def Step.call : Step → ℕ
  | .read c | .turn c | .or c | .free c => c

/-- `kdma_driver.bits`, and the calls. -/
structure Driver where
  bits : BitVec 32
  call : ℕ → Call

/-- `kdma_driver_init`. -/
def kdmaDriverInit : Driver := ⟨0, fun _ => .start⟩

/-- The call `c` goes on at `pc`. -/
def Driver.goto (s : Driver) (c : ℕ) (pc : Call) : Driver :=
  { s with call := Function.update s.call c pc }

/-- One turn of the loop of `kdma_dev_alloc`, up to its fetch-and-or; `ndev` is `KDMA_DEV_COUNT`. -/
def loopTurn (ndev : ℕ) (x : BitVec 32) (i : ℕ) : Call :=
  if i < ndev then
    -- no more bit avail
    if x &&& lowMask 32 (ndev - i) = lowMask 32 (ndev - i) then .null
    -- current bit avail
    else if x &&& 1#32 = 0#32 then .commit x i
    else .scan (x >>> 1) (i + 1)
  else .null

/-- One step of a call. -/
def step (ndev : ℕ) (s : Driver) : Step → Option Driver
  | .read c =>
    match s.call c with
    | .start => some (s.goto c (.scan (atomic32Read s.bits) 0))
    | _ => none
  | .turn c =>
    match s.call c with
    | .scan x i => some (s.goto c (loopTurn ndev x i))
    | _ => none
  | .or c =>
    match s.call c with
    | .commit x i =>
      -- set and check for lost race
      let mask := bit 32 i
      let prev := (atomic32Or s.bits mask).1
      let s := { s with bits := (atomic32Or s.bits mask).2 }
      if prev &&& mask = 0#32 then some (s.goto c (.owner i))
      -- otherwise someone took it in between
      else some (s.goto c (.scan (x >>> 1) (i + 1)))
    | _ => none
  | .free c =>
    match s.call c with
    | .owner i =>
      let s := { s with bits := (atomic32And s.bits (~~~(bit 32 i))).2 }
      some (s.goto c .freed)
    | _ => none

section Goto

variable (s : Driver) (c : ℕ) (pc : Call)

@[simp] theorem goto_bits : (s.goto c pc).bits = s.bits := rfl

@[simp] theorem goto_self : (s.goto c pc).call c = pc := by
  show Function.update s.call c pc c = pc
  rw [Function.update_self]

theorem goto_of_ne {d : ℕ} (h : d ≠ c) : (s.goto c pc).call d = s.call d := by
  show Function.update s.call c pc d = s.call d
  rw [Function.update_of_ne h]

/-- The owners after a step that makes none. -/
theorem owner_of_goto {d i : ℕ} (hpc : ∀ j, pc ≠ .owner j) (h : (s.goto c pc).call d = .owner i) :
    d ≠ c ∧ s.call d = .owner i := by
  by_cases hd : d = c
  · rw [hd, goto_self] at h
    exact absurd h (hpc i)
  · rw [goto_of_ne s c pc hd] at h
    exact ⟨hd, h⟩

end Goto

/-! ### All a step can do -/

/-- A step, as far as the slots go. -/
inductive Moves (ndev : ℕ) (s t : Driver) : Step → Prop where
  | read (c : ℕ) (hpc : s.call c = .start) (ht : t = s.goto c (.scan s.bits 0)) :
      Moves ndev s t (.read c)
  | turn (c : ℕ) (x : BitVec 32) (i : ℕ) (hpc : s.call c = .scan x i)
      (ht : t = s.goto c (loopTurn ndev x i)) : Moves ndev s t (.turn c)
  | win (c : ℕ) (x : BitVec 32) (i : ℕ) (hpc : s.call c = .commit x i)
      (hbit : s.bits &&& bit 32 i = 0#32)
      (ht : t = Driver.goto { s with bits := s.bits ||| bit 32 i } c (.owner i)) :
      Moves ndev s t (.or c)
  | lose (c : ℕ) (x : BitVec 32) (i : ℕ) (hpc : s.call c = .commit x i)
      (hbit : s.bits &&& bit 32 i ≠ 0#32)
      (ht : t = Driver.goto { s with bits := s.bits ||| bit 32 i } c (.scan (x >>> 1) (i + 1))) :
      Moves ndev s t (.or c)
  | free (c i : ℕ) (hpc : s.call c = .owner i)
      (ht : t = Driver.goto { s with bits := s.bits &&& ~~~(bit 32 i) } c .freed) :
      Moves ndev s t (.free c)

theorem step_cases {ndev : ℕ} {s t : Driver} {a : Step} (h : step ndev s a = some t) :
    Moves ndev s t a := by
  cases a with
  | read c =>
    simp only [step] at h
    split at h
    · exact .read c ‹_› (Option.some.inj h).symm
    · exact nomatch h
  | turn c =>
    simp only [step] at h
    split at h
    · exact .turn c _ _ ‹_› (Option.some.inj h).symm
    · exact nomatch h
  | or c =>
    simp only [step] at h
    split at h
    · next x i hpc =>
      by_cases hbit : (atomic32Or s.bits (bit 32 i)).1 &&& bit 32 i = 0#32
      · rw [if_pos hbit] at h
        exact .win c x i hpc hbit (Option.some.inj h).symm
      · rw [if_neg hbit] at h
        exact .lose c x i hpc hbit (Option.some.inj h).symm
    · exact nomatch h
  | free c =>
    simp only [step] at h
    split at h
    · exact .free c _ ‹_› (Option.some.inj h).symm
    · exact nomatch h

/-- Where a turn of the loop goes on. -/
theorem loopTurn_cases (ndev : ℕ) (x : BitVec 32) (i : ℕ) :
    loopTurn ndev x i = .null ∨
      (i < ndev ∧ (loopTurn ndev x i = .commit x i ∨
        loopTurn ndev x i = .scan (x >>> 1) (i + 1))) := by
  unfold loopTurn
  split_ifs with hi hmask hbit
  · exact Or.inl rfl
  · exact Or.inr ⟨hi, Or.inl rfl⟩
  · exact Or.inr ⟨hi, Or.inr rfl⟩
  · exact Or.inl rfl

theorem loopTurn_ne_owner (ndev : ℕ) (x : BitVec 32) (i j : ℕ) :
    loopTurn ndev x i ≠ .owner j := by
  rcases loopTurn_cases ndev x i with h | ⟨_, h | h⟩
  · rw [h]; exact nofun
  · rw [h]; exact nofun
  · rw [h]; exact nofun

/-- A call in its fetch-and-or looks at a slot of the driver. -/
theorem loopTurn_commit {ndev : ℕ} {x y : BitVec 32} {i j : ℕ}
    (h : loopTurn ndev x i = .commit y j) : j < ndev := by
  rcases loopTurn_cases ndev x i with hnull | ⟨hi, hcommit | hscan⟩
  · rw [hnull] at h
    exact nomatch h
  · rw [hcommit, Call.commit.injEq] at h
    exact h.2 ▸ hi
  · rw [hscan] at h
    exact nomatch h

/-! ### The invariant -/

/-- The slots of a reachable state. -/
structure Inv (ndev : ℕ) (s : Driver) : Prop where
  bit : ∀ i, s.bits.getLsbD i = true ↔ ∃ c, s.call c = .owner i
  unique : ∀ c d i, s.call c = .owner i → s.call d = .owner i → c = d
  owner_lt : ∀ c i, s.call c = .owner i → i < ndev
  commit_lt : ∀ c x i, s.call c = .commit x i → i < ndev

section Invariant

variable {ndev : ℕ} {s t : Driver} {a : Step}

theorem inv_init (ndev : ℕ) : Inv ndev kdmaDriverInit where
  bit i := by
    refine iff_of_false ?_ ?_
    · show ¬ (0#32).getLsbD i = true
      rw [BitVec.getLsbD_zero]
      exact Bool.false_ne_true
    · rintro ⟨c, hc⟩
      exact nomatch hc
  unique _ _ _ hc := nomatch hc
  owner_lt _ _ hc := nomatch hc
  commit_lt _ _ _ hc := nomatch hc

/-- A step of one that is no owner and becomes none: the slots are what they were. -/
theorem Inv.goto (h : Inv ndev s) {c : ℕ} {pc : Call} (hold : ∀ i, s.call c ≠ .owner i)
    (hnew : ∀ i, pc ≠ .owner i) (hcommit : ∀ x i, pc = .commit x i → i < ndev) :
    Inv ndev (s.goto c pc) where
  bit i := by
    rw [goto_bits, h.bit i]
    constructor
    · rintro ⟨d, hd⟩
      have hne : d ≠ c := fun heq => hold i (heq ▸ hd)
      exact ⟨d, (goto_of_ne s c pc hne).trans hd⟩
    · rintro ⟨d, hd⟩
      exact ⟨d, (owner_of_goto s c pc hnew hd).2⟩
  unique d e i hd he :=
    h.unique d e i (owner_of_goto s c pc hnew hd).2 (owner_of_goto s c pc hnew he).2
  owner_lt d i hd := h.owner_lt d i (owner_of_goto s c pc hnew hd).2
  commit_lt d x i hd := by
    by_cases heq : d = c
    · rw [heq, goto_self] at hd
      exact hcommit x i hd
    · rw [goto_of_ne s c pc heq] at hd
      exact h.commit_lt d x i hd

/-- A bit that is clear is no one's: the call that sets it is the only owner. -/
theorem Inv.win (h : Inv ndev s) (hdev : ndev < 32) {c i : ℕ} {x : BitVec 32}
    (hpc : s.call c = .commit x i) (hbit : s.bits &&& Lib.bit 32 i = 0#32) :
    Inv ndev (Driver.goto { s with bits := s.bits ||| Lib.bit 32 i } c (.owner i)) := by
  have hi := h.commit_lt c x i hpc
  have hfree : ∀ d, s.call d ≠ .owner i := by
    intro d hd
    have hset := (h.bit i).mpr ⟨d, hd⟩
    rw [(and_bit_eq_zero (hi.trans hdev)).mp hbit] at hset
    exact Bool.false_ne_true hset
  -- who owns what after the step
  have howner : ∀ d j, (Driver.goto { s with bits := s.bits ||| Lib.bit 32 i } c (.owner i)).call d
      = .owner j ↔ d = c ∧ j = i ∨ s.call d = .owner j := by
    intro d j
    by_cases hd : d = c
    · rw [hd, goto_self, hpc, Call.owner.injEq]
      constructor
      · intro heq
        exact Or.inl ⟨rfl, heq.symm⟩
      · rintro (⟨_, heq⟩ | hnone)
        · exact heq.symm
        · exact nomatch hnone
    · rw [goto_of_ne _ c _ hd]
      constructor
      · exact Or.inr
      · rintro (⟨heq, _⟩ | hsame)
        · exact absurd heq hd
        · exact hsame
  refine ⟨?_, ?_, ?_, ?_⟩
  · intro j
    rw [goto_bits, or_bit_getLsbD s.bits (hi.trans hdev), Bool.or_eq_true, h.bit j,
      decide_eq_true_eq]
    constructor
    · rintro (⟨d, hd⟩ | rfl)
      · exact ⟨d, (howner d j).mpr (Or.inr hd)⟩
      · exact ⟨c, (howner c j).mpr (Or.inl ⟨rfl, rfl⟩)⟩
    · rintro ⟨d, hd⟩
      rcases (howner d j).mp hd with ⟨_, heq⟩ | hsame
      · exact Or.inr heq
      · exact Or.inl ⟨d, hsame⟩
  · intro d e j hd he
    rcases (howner d j).mp hd with ⟨hdc, hj⟩ | hd'
    · rcases (howner e j).mp he with ⟨hec, _⟩ | he'
      · exact hdc.trans hec.symm
      · exact absurd (hj ▸ he') (hfree e)
    · rcases (howner e j).mp he with ⟨_, hj⟩ | he'
      · exact absurd (hj ▸ hd') (hfree d)
      · exact h.unique d e j hd' he'
  · intro d j hd
    rcases (howner d j).mp hd with ⟨_, rfl⟩ | hd
    · exact hi
    · exact h.owner_lt d j hd
  · intro d y j hd
    by_cases heq : d = c
    · rw [heq, goto_self] at hd
      exact nomatch hd
    · rw [goto_of_ne _ c _ heq] at hd
      exact h.commit_lt d y j hd

/-- The owner gives up its bit, and no one else's. -/
theorem Inv.free (h : Inv ndev s) (hdev : ndev < 32) {c i : ℕ} (hpc : s.call c = .owner i) :
    Inv ndev (Driver.goto { s with bits := s.bits &&& ~~~(Lib.bit 32 i) } c .freed) := by
  have hi := h.owner_lt c i hpc
  have howner : ∀ d j, (Driver.goto { s with bits := s.bits &&& ~~~(Lib.bit 32 i) } c .freed).call d
      = .owner j ↔ d ≠ c ∧ s.call d = .owner j := by
    intro d j
    constructor
    · intro hd
      exact owner_of_goto _ c .freed (fun _ => nofun) hd
    · rintro ⟨hne, hd⟩
      rw [goto_of_ne _ c _ hne]
      exact hd
  refine ⟨?_, ?_, ?_, ?_⟩
  · intro j
    rw [goto_bits, and_not_bit_getLsbD s.bits (hi.trans hdev), Bool.and_eq_true, h.bit j,
      Bool.not_eq_true', decide_eq_false_iff_not]
    constructor
    · rintro ⟨⟨d, hd⟩, hne⟩
      refine ⟨d, (howner d j).mpr ⟨?_, hd⟩⟩
      rintro rfl
      rw [hpc, Call.owner.injEq] at hd
      exact hne hd.symm
    · rintro ⟨d, hd⟩
      obtain ⟨hne, hd'⟩ := (howner d j).mp hd
      refine ⟨⟨d, hd'⟩, ?_⟩
      rintro rfl
      exact hne (h.unique d c j hd' hpc)
  · intro d e j hd he
    exact h.unique d e j ((howner d j).mp hd).2 ((howner e j).mp he).2
  · intro d j hd
    exact h.owner_lt d j ((howner d j).mp hd).2
  · intro d y j hd
    by_cases heq : d = c
    · rw [heq, goto_self] at hd
      exact nomatch hd
    · rw [goto_of_ne _ c _ heq] at hd
      exact h.commit_lt d y j hd

/-- A lost race leaves the bitmap as it is. -/
theorem lose_bits {c i : ℕ} {x : BitVec 32} (h : Inv ndev s) (hdev : ndev < 32)
    (hpc : s.call c = .commit x i) (hbit : s.bits &&& Lib.bit 32 i ≠ 0#32) :
    s.bits ||| Lib.bit 32 i = s.bits := by
  have hi := (h.commit_lt c x i hpc).trans hdev
  refine or_bit_eq_self hi ?_
  rwa [ne_eq, and_bit_eq_zero hi, Bool.not_eq_false] at hbit

/-- **Every step keeps the invariant.** -/
theorem step_inv (hdev : ndev < 32) (h : Inv ndev s) (hstep : step ndev s a = some t) :
    Inv ndev t := by
  cases step_cases hstep with
  | read c hpc ht =>
    subst ht
    exact h.goto (fun i hi => nomatch hpc.symm.trans hi) (fun _ => nofun) fun _ _ => nofun
  | turn c x i hpc ht =>
    subst ht
    exact h.goto (fun i hi => nomatch hpc.symm.trans hi) (loopTurn_ne_owner ndev x i)
      fun _ _ => loopTurn_commit
  | win c x i hpc hbit ht =>
    subst ht
    exact h.win hdev hpc hbit
  | lose c x i hpc hbit ht =>
    subst ht
    rw [lose_bits h hdev hpc hbit]
    exact h.goto (fun i hi => nomatch hpc.symm.trans hi) (fun _ => nofun) fun _ _ => nofun
  | free c i hpc ht =>
    subst ht
    exact h.free hdev hpc

/-- **Every reachable state has it.** -/
theorem reachable_inv (hdev : ndev < 32) {steps : List Step}
    (hrun : run (step ndev) kdmaDriverInit steps = some s) : Inv ndev s :=
  run_invariant (Inv ndev) (fun _ _ _ h hstep => step_inv hdev h hstep) (inv_init ndev) hrun

end Invariant

/-! ### A call that fails -/

/-- A call that has won a slot. -/
def Call.Held : Call → Prop
  | .owner _ | .freed => True
  | _ => False

section Held

variable {ndev : ℕ} {s t : Driver} {a : Step}

/-- A call that has won a slot does not fail any more. -/
theorem step_held (hstep : step ndev s a = some t) {c : ℕ} (hheld : (s.call c).Held) :
    (t.call c).Held := by
  by_cases hc : c = a.call
  · subst hc
    cases step_cases hstep with
    | read c hpc ht => exact absurd hheld (by rw [Step.call, hpc]; exact not_false)
    | turn c x i hpc ht => exact absurd hheld (by rw [Step.call, hpc]; exact not_false)
    | win c x i hpc hbit ht => exact absurd hheld (by rw [Step.call, hpc]; exact not_false)
    | lose c x i hpc hbit ht => exact absurd hheld (by rw [Step.call, hpc]; exact not_false)
    | free c i hpc ht =>
      subst ht
      rw [Step.call, goto_self]
      trivial
  · have hsame : t.call c = s.call c := by
      cases step_cases hstep with
      | read d hpc ht => exact ht ▸ goto_of_ne _ _ _ hc
      | turn d x i hpc ht => exact ht ▸ goto_of_ne _ _ _ hc
      | win d x i hpc hbit ht => exact ht ▸ goto_of_ne _ _ _ hc
      | lose d x i hpc hbit ht => exact ht ▸ goto_of_ne _ _ _ hc
      | free d i hpc ht => exact ht ▸ goto_of_ne _ _ _ hc
    rw [hsame]
    exact hheld

/-- A step changes the bitmap only if its call has won a slot by then. -/
theorem step_bits (hdev : ndev < 32) (h : Inv ndev s) (hstep : step ndev s a = some t) :
    t.bits = s.bits ∨ (t.call a.call).Held := by
  cases step_cases hstep with
  | read c hpc ht => exact Or.inl (ht ▸ rfl)
  | turn c x i hpc ht => exact Or.inl (ht ▸ rfl)
  | win c x i hpc hbit ht =>
    subst ht
    refine Or.inr ?_
    rw [Step.call, goto_self]
    trivial
  | lose c x i hpc hbit ht =>
    subst ht
    exact Or.inl (lose_bits h hdev hpc hbit)
  | free c i hpc ht =>
    subst ht
    refine Or.inr ?_
    rw [Step.call, goto_self]
    trivial

/-- The steps of the call `c` leave the bitmap as it is. -/
def Harmless (ndev c : ℕ) (s : Driver) (a : Step) : Prop :=
  a.call = c → ∀ t, step ndev s a = some t → t.bits = s.bits

/-- **A call that returned `NULL` has not changed the bitmap.** -/
theorem null_harmless (hdev : ndev < 32) (h : Inv ndev s) {c : ℕ} {steps : List Step}
    (hrun : run (step ndev) s steps = some t) (hnull : t.call c = .null) :
    EachStep (step ndev) (Harmless ndev c) s steps := by
  induction steps generalizing s with
  | nil => trivial
  | cons a steps ih =>
    obtain ⟨u, hu, hrest⟩ := run_cons_eq_some.mp hrun
    refine (eachStep_cons hu).mpr ⟨?_, ih (step_inv hdev h hu) hrest⟩
    intro hc v hv
    obtain rfl := Option.some.inj (hu.symm.trans hv)
    refine (step_bits hdev h hu).resolve_right ?_
    intro hheld
    -- it would still hold its slot at the end
    have hend : (t.call c).Held := by
      refine run_invariant (fun s => (s.call c).Held) ?_ (hc ▸ hheld) hrest
      intro s a t hs hstep
      exact step_held hstep hs
    rw [hnull] at hend
    exact hend

end Held

/-! ### A call alone -/

/-- Where a call is that began with the bitmap `b` and was not interfered with. -/
def Alone (ndev : ℕ) (b : BitVec 32) (s : Driver) : Call → Prop
  | .start => s.bits = b
  | .scan x i => s.bits = b ∧ i ≤ ndev ∧ (∀ j, x.getLsbD j = b.getLsbD (i + j)) ∧
      ∀ j < i, b.getLsbD j = true
  | .commit _ i => s.bits = b ∧ i < ndev ∧ b.getLsbD i = false
  | .null => s.bits = b ∧ ∀ j < ndev, b.getLsbD j = true
  | .owner _ | .freed => True

section Alone

variable {ndev : ℕ} {b : BitVec 32} {s t : Driver}

/-- A turn of the loop: the mask tests the slots that are left. -/
theorem Alone.turn (hdev : ndev < 32) {c i : ℕ} {x : BitVec 32}
    (h : Alone ndev b s (.scan x i)) :
    Alone ndev b (s.goto c (loopTurn ndev x i)) (loopTurn ndev x i) := by
  obtain ⟨hbits, hle, hx, hbefore⟩ := h
  unfold loopTurn
  split_ifs with hi hmask hbit
  · have hleft := (and_mask_eq (by omega)).mp hmask
    refine ⟨hbits, ?_⟩
    intro j hj
    by_cases hji : j < i
    · exact hbefore j hji
    · have hset := hleft (j - i) (by omega)
      rwa [hx, Nat.add_sub_of_le (by omega)] at hset
  · have hclear := (and_bit_eq_zero (Nat.zero_lt_succ 31)).mp hbit
    rw [hx, Nat.add_zero] at hclear
    exact ⟨hbits, hi, hclear⟩
  · have hset : x.getLsbD 0 = true := by
      rw [← Bool.not_eq_false]
      intro hclear
      exact hbit ((and_bit_eq_zero (Nat.zero_lt_succ 31)).mpr hclear)
    rw [hx, Nat.add_zero] at hset
    refine ⟨hbits, hi, ?_, ?_⟩
    · intro j
      rw [BitVec.getLsbD_ushiftRight, hx, ← Nat.add_assoc]
    · intro j hj
      rcases Nat.lt_succ_iff_lt_or_eq.mp hj with hlt | rfl
      · exact hbefore j hlt
      · exact hset
  · refine ⟨hbits, ?_⟩
    intro j hj
    exact hbefore j (by omega)

/-- A step of the call itself. -/
theorem Alone.step (hdev : ndev < 32) {a : Step} (h : Alone ndev b s (s.call a.call))
    (hstep : DevAlloc.step ndev s a = some t) : Alone ndev b t (t.call a.call) := by
  cases step_cases hstep with
  | read c hpc ht =>
    rw [Step.call, hpc] at h
    subst ht
    rw [Step.call, goto_self]
    refine ⟨h, Nat.zero_le ndev, ?_, fun j hj => absurd hj (Nat.not_lt_zero j)⟩
    intro j
    rw [Nat.zero_add, ← h]
  | turn c x i hpc ht =>
    rw [Step.call, hpc] at h
    subst ht
    rw [Step.call, goto_self]
    exact h.turn hdev
  | win c x i hpc hbit ht =>
    subst ht
    rw [Step.call, goto_self]
    trivial
  | lose c x i hpc hbit ht =>
    -- the bit was clear when the call began, and no one else has set it
    rw [Step.call, hpc] at h
    obtain ⟨hbits, hi, hclear⟩ := h
    rw [hbits] at hbit
    exact absurd ((and_bit_eq_zero (hi.trans hdev)).mpr hclear) hbit
  | free c i hpc ht =>
    subst ht
    rw [Step.call, goto_self]
    trivial

/-- **A call that is not interfered with fails only if no slot is free.** -/
theorem alone_null (hdev : ndev < 32) (h : Inv ndev s) {c : ℕ} (hstart : s.call c = .start)
    {own : List Step} (hown : ∀ a ∈ own, a.call = c)
    (hrun : run (DevAlloc.step ndev) s own = some t) (hnull : t.call c = .null) :
    ∀ i < ndev, ∃ d, t.call d = .owner i := by
  have halone : Alone ndev s.bits t (t.call c) := by
    refine run_invariant_on (fun t => Alone ndev s.bits t (t.call c)) (fun a => a.call = c) ?_ hown
      ?_ hrun
    · rintro u a v rfl hu hstep
      exact hu.step hdev hstep
    · show Alone ndev s.bits s (s.call c)
      rw [hstart]
      rfl
  rw [hnull] at halone
  obtain ⟨hbits, hall⟩ := halone
  have hinv : Inv ndev t :=
    run_invariant (Inv ndev) (fun _ _ _ h hstep => step_inv hdev h hstep) h hrun
  intro i hi
  rw [← hinv.bit i, hbits]
  exact hall i hi

/-- One turn of `kdmaDevAllocLoop`. -/
theorem kdmaDevAllocLoop_succ (bits x : BitVec 32) (n i : ℕ) :
    kdmaDevAllocLoop bits (n + 1) i x =
      if x &&& lowMask 32 (n + 1) = lowMask 32 (n + 1) then none
      else if x &&& 1#32 = 0#32 then
        if bits &&& bit 32 i = 0#32 then some (i, bits ||| bit 32 i)
        else kdmaDevAllocLoop bits n (i + 1) (x >>> 1)
      else kdmaDevAllocLoop bits n (i + 1) (x >>> 1) := by
  rw [kdmaDevAllocLoop]
  rfl

/-- How `kdmaDevAlloc` says that a call ends. -/
def Ends (s t : Driver) (c : ℕ) : Option (ℕ × BitVec 32) → Prop
  | none => t.call c = .null ∧ t.bits = s.bits
  | some (dev, bits) => t.call c = .owner dev ∧ t.bits = bits

/-- **A call alone goes as `kdmaDevAlloc`**, from any turn of the loop on. -/
theorem alone_loop {n i : ℕ} (hn : i + n = ndev) (hdev : ndev < 32) {c : ℕ} {x : BitVec 32}
    (hpc : s.call c = .scan x i) : ∃ own t, (∀ a ∈ own, a.call = c) ∧
      run (DevAlloc.step ndev) s own = some t ∧
      Ends s t c (kdmaDevAllocLoop s.bits n i x) := by
  have hturn : DevAlloc.step ndev s (.turn c) = some (s.goto c (loopTurn ndev x i)) := by
    simp only [DevAlloc.step, hpc]
  induction n generalizing s i x with
  | zero =>
    have hnull : loopTurn ndev x i = .null := if_neg (by omega)
    rw [hnull] at hturn
    refine ⟨[.turn c], s.goto c .null, by simp [Step.call], ?_, goto_self s c .null, rfl⟩
    exact run_cons_eq_some.mpr ⟨_, hturn, rfl⟩
  | succ n ih =>
    have hi : i < ndev := by omega
    have hleft : ndev - i = n + 1 := by omega
    rw [kdmaDevAllocLoop_succ]
    unfold loopTurn at hturn
    rw [if_pos hi, hleft] at hturn
    -- the turns that are left, from a state with the same bitmap
    have hrest : ∀ u, u.bits = s.bits → u.call c = .scan (x >>> 1) (i + 1) →
        ∃ own t, (∀ a ∈ own, a.call = c) ∧ run (DevAlloc.step ndev) u own = some t ∧
          Ends s t c (kdmaDevAllocLoop s.bits n (i + 1) (x >>> 1)) := by
      intro u hbits hscan
      obtain ⟨own, t, hown, hrun, hends⟩ := ih (s := u) (by omega) hscan
        (by simp only [DevAlloc.step, hscan])
      rw [hbits] at hends
      refine ⟨own, t, hown, hrun, ?_⟩
      unfold Ends at hends ⊢
      rwa [hbits] at hends
    by_cases hmask : x &&& lowMask 32 (n + 1) = lowMask 32 (n + 1)
    · rw [if_pos hmask] at hturn ⊢
      refine ⟨[.turn c], s.goto c .null, by simp [Step.call], ?_, goto_self s c .null, rfl⟩
      exact run_cons_eq_some.mpr ⟨_, hturn, rfl⟩
    rw [if_neg hmask] at hturn ⊢
    by_cases hbit : x &&& 1#32 = 0#32
    · rw [if_pos hbit] at hturn ⊢
      have hcommit : (s.goto c (.commit x i)).call c = .commit x i := goto_self _ _ _
      by_cases hfree : s.bits &&& bit 32 i = 0#32
      · rw [if_pos hfree]
        have hor : DevAlloc.step ndev (s.goto c (.commit x i)) (.or c) = some (Driver.goto
            { s.goto c (.commit x i) with bits := s.bits ||| bit 32 i } c (.owner i)) := by
          simp only [DevAlloc.step, hcommit]
          exact if_pos hfree
        refine ⟨[.turn c, .or c], _, by simp [Step.call],
          run_cons_eq_some.mpr ⟨_, hturn, run_cons_eq_some.mpr ⟨_, hor, rfl⟩⟩,
          goto_self _ c (.owner i), rfl⟩
      · rw [if_neg hfree]
        have hor : DevAlloc.step ndev (s.goto c (.commit x i)) (.or c) = some (Driver.goto
            { s.goto c (.commit x i) with bits := s.bits ||| bit 32 i } c
              (.scan (x >>> 1) (i + 1))) := by
          simp only [DevAlloc.step, hcommit]
          exact if_neg hfree
        have hset : s.bits.getLsbD i = true := by
          rwa [and_bit_eq_zero (hi.trans hdev), Bool.not_eq_false] at hfree
        obtain ⟨own, t, hown, hrun, hends⟩ := hrest (Driver.goto
          { s.goto c (.commit x i) with bits := s.bits ||| bit 32 i } c (.scan (x >>> 1) (i + 1)))
          (or_bit_eq_self (hi.trans hdev) hset) (goto_self _ _ _)
        refine ⟨.turn c :: .or c :: own, t, by simpa [Step.call] using hown, ?_, hends⟩
        exact run_cons_eq_some.mpr ⟨_, hturn, run_cons_eq_some.mpr ⟨_, hor, hrun⟩⟩
    · rw [if_neg hbit] at hturn ⊢
      obtain ⟨own, t, hown, hrun, hends⟩ := hrest (s.goto c (.scan (x >>> 1) (i + 1))) rfl
        (goto_self _ _ _)
      refine ⟨.turn c :: own, t, by simpa [Step.call] using hown, ?_, hends⟩
      exact run_cons_eq_some.mpr ⟨_, hturn, hrun⟩

/-- **A call of `kdma_dev_alloc` alone does what `kdmaDevAlloc` says.** -/
theorem alone_kdmaDevAlloc {c : ℕ} (hstart : s.call c = .start) :
    ∃ own t, (∀ a ∈ own, a.call = c) ∧ run (DevAlloc.step kdmaDevCount) s own = some t ∧
      Ends s t c (kdmaDevAlloc s.bits) := by
  have hread : DevAlloc.step kdmaDevCount s (.read c) = some (s.goto c (.scan s.bits 0)) := by
    simp only [DevAlloc.step, hstart]
    rfl
  obtain ⟨own, t, hown, hrun, hends⟩ :=
    alone_loop (Nat.zero_add kdmaDevCount) (by decide) (goto_self s c (.scan s.bits 0))
  refine ⟨.read c :: own, t, by simpa [Step.call] using hown, ?_, hends⟩
  exact run_cons_eq_some.mpr ⟨_, hread, hrun⟩

end Alone

/-! ### The contract -/

/-- **Device slots are never handed out twice**, and a call that is not interfered with fails only
if no slot is free. -/
theorem slots_safe {ndev : ℕ} (_ : 0 < ndev) (hdev : ndev < 32) {steps : List Step} {s : Driver}
    (hrun : run (step ndev) kdmaDriverInit steps = some s) :
    (∀ c d i, s.call c = .owner i → s.call d = .owner i → c = d) ∧
      (∀ c i, s.call c = .owner i → s.bits.getLsbD i = true ∧ i < ndev) ∧
      (∀ c t, step ndev s (.or c) = some t → (∀ i, t.call c ≠ .owner i) → t.bits = s.bits) ∧
      (∀ c, s.call c = .null → EachStep (step ndev) (Harmless ndev c) kdmaDriverInit steps) ∧
      (∀ c own t, s.call c = .start → (∀ a ∈ own, a.call = c) →
        run (step ndev) s own = some t → t.call c = .null →
        ∀ i < ndev, ∃ d, t.call d = .owner i) := by
  have hinv := reachable_inv hdev hrun
  refine ⟨hinv.unique, ?_, ?_, ?_, ?_⟩
  · intro c i hc
    exact ⟨(hinv.bit i).mpr ⟨c, hc⟩, hinv.owner_lt c i hc⟩
  · intro c t hstep hlost
    cases step_cases hstep with
    | win c x i hpc hbit ht =>
      subst ht
      exact absurd (goto_self _ c (.owner i)) (hlost i)
    | lose c x i hpc hbit ht =>
      subst ht
      exact lose_bits hinv hdev hpc hbit
  · intro c hnull
    exact null_harmless hdev (inv_init ndev) hrun hnull
  · intro c own t hstart hown hrun' hnull
    exact alone_null hdev hinv hstart hown hrun' hnull

/-- Two calls that have captured the same bitmap: one loses the race for the first slot. -/
theorem slots_safe_race : ∃ s, run (step 2) kdmaDriverInit
      [.read 0, .read 1, .turn 0, .turn 1, .or 0, .or 1, .turn 1, .or 1, .free 0] = some s ∧
    s.call 1 = .owner 1 ∧ ∀ c d i, s.call c = .owner i → s.call d = .owner i → c = d := by
  have hsafe := fun s => @slots_safe 2 (by decide) (by decide)
    [.read 0, .read 1, .turn 0, .turn 1, .or 0, .or 1, .turn 1, .or 1, .free 0] s
  exact ⟨_, rfl, rfl, (hsafe _ rfl).1⟩

end VPcie.Kdma.DevAlloc
