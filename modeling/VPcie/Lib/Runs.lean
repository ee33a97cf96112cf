import Mathlib.Logic.Basic
import Mathlib.Data.List.Induction

/-!
# Runs of a labelled step function

A system is given by `step : σ → α → Option σ`: the label says who moves and with what, and `none`
says that the move is not possible in that state.  A run is a list of labels, so a theorem about
every run is a theorem about every interleaving the labels can express.

* `run_invariant`, `run_invariant_on` — what every step keeps, every run keeps;
* `run_history` — the same for a state together with the moves so far;
* `Reaches` — the end of a run whose moves are of one kind;
* `trace_invariant` — the same for a state together with the events shown so far, and `AtEach` for
  what holds whenever an event is shown;
* `eachStep_congr`, `run_iff_eachStep` — what holds at the end of a run exactly when each step is of
  a kind;
* `run_refinement` — a step-by-step refinement carries a run of the concrete system to a run of the
  abstract one with the same trace;
* `drive` — the same for a clocked system, which is total and reads one input a cycle, and `shown`
  for what it shows.
-/

namespace VPcie.Lib

variable {σ τ α β : Type*}

/-- The state after a list of moves, if each of them is possible. -/
def run (step : σ → α → Option σ) : σ → List α → Option σ
  | s, [] => some s
  | s, a :: as => (step s a).bind fun t => run step t as

section Run

variable {step : σ → α → Option σ}

@[simp] theorem run_nil (s : σ) : run step s [] = some s := rfl

theorem run_cons (s : σ) (a : α) (as : List α) :
    run step s (a :: as) = (step s a).bind fun t => run step t as := rfl

theorem run_cons_eq_some {s u : σ} {a : α} {as : List α} :
    run step s (a :: as) = some u ↔ ∃ t, step s a = some t ∧ run step t as = some u := by
  rw [run_cons, Option.bind_eq_some_iff]

theorem run_append (s : σ) (as bs : List α) :
    run step s (as ++ bs) = (run step s as).bind fun t => run step t bs := by
  induction as generalizing s with
  | nil => rfl
  | cons a as ih =>
    rw [List.cons_append, run_cons, run_cons, Option.bind_assoc]
    congr 1
    funext t
    exact ih t

theorem run_append_eq_some {s u : σ} {as bs : List α} :
    run step s (as ++ bs) = some u ↔ ∃ t, run step s as = some t ∧ run step t bs = some u := by
  rw [run_append, Option.bind_eq_some_iff]

/-- **Invariant rule.**  A property every step keeps holds at the end of every run from a state
that has it. -/
theorem run_invariant (I : σ → Prop) (hstep : ∀ s a t, I s → step s a = some t → I t) {s t : σ}
    {as : List α} (hs : I s) (hrun : run step s as = some t) : I t := by
  induction as generalizing s with
  | nil =>
    rw [run_nil, Option.some.injEq] at hrun
    exact hrun ▸ hs
  | cons a as ih =>
    obtain ⟨u, hu, hrun⟩ := run_cons_eq_some.mp hrun
    exact ih (hstep s a u hs hu) hrun

/-- The rule for the runs whose moves are of one kind. -/
theorem run_invariant_on (I : σ → Prop) (P : α → Prop)
    (hstep : ∀ s a t, P a → I s → step s a = some t → I t) {s t : σ} {as : List α}
    (has : ∀ a ∈ as, P a) (hs : I s) (hrun : run step s as = some t) : I t := by
  induction as generalizing s with
  | nil =>
    rw [run_nil, Option.some.injEq] at hrun
    exact hrun ▸ hs
  | cons a as ih =>
    obtain ⟨u, hu, hrun⟩ := run_cons_eq_some.mp hrun
    have hkept := hstep s a u (has a List.mem_cons_self) hs hu
    exact ih (fun b hb => has b (List.mem_cons_of_mem a hb)) hkept hrun

/-- **Invariant rule with the moves so far.**  The moves are in the order they are made. -/
theorem run_history (I : List α → σ → Prop) {s t : σ} {as : List α}
    (hstep : ∀ l u a v, run step s l = some u → I l u → step u a = some v → I (l ++ [a]) v)
    (hs : I [] s) (hrun : run step s as = some t) : I as t := by
  induction as using List.reverseRecOn generalizing t with
  | nil =>
    rw [run_nil, Option.some.injEq] at hrun
    exact hrun ▸ hs
  | append_singleton as a ih =>
    obtain ⟨u, hu, hlast⟩ := run_append_eq_some.mp hrun
    obtain ⟨v, hv, hnil⟩ := run_cons_eq_some.mp hlast
    rw [run_nil, Option.some.injEq] at hnil
    exact hnil ▸ hstep as u a v hu (ih hu) hv

/-- The state `t` is the end of a run from `s` whose moves are of one kind. -/
def Reaches (step : σ → α → Option σ) (P : α → Prop) (s t : σ) : Prop :=
  ∃ as, (∀ a ∈ as, P a) ∧ run step s as = some t

theorem Reaches.refl (P : α → Prop) (s : σ) : Reaches step P s s :=
  ⟨[], fun _ ha => absurd ha List.not_mem_nil, rfl⟩

theorem Reaches.head {P : α → Prop} {s t u : σ} {a : α} (ha : P a) (hst : step s a = some t)
    (h : Reaches step P t u) : Reaches step P s u := by
  obtain ⟨as, has, hrun⟩ := h
  exact ⟨a :: as, List.forall_mem_cons.mpr ⟨ha, has⟩, run_cons_eq_some.mpr ⟨t, hst, hrun⟩⟩

theorem Reaches.trans {P : α → Prop} {s t u : σ} (h : Reaches step P s t)
    (h' : Reaches step P t u) : Reaches step P s u := by
  obtain ⟨as, has, hrun⟩ := h
  obtain ⟨bs, hbs, hrun'⟩ := h'
  exact ⟨as ++ bs, List.forall_mem_append.mpr ⟨has, hbs⟩, run_append_eq_some.mpr ⟨t, hrun, hrun'⟩⟩

theorem Reaches.mono {P Q : α → Prop} (hPQ : ∀ a, P a → Q a) {s t : σ} (h : Reaches step P s t) :
    Reaches step Q s t := by
  obtain ⟨as, has, hrun⟩ := h
  exact ⟨as, fun a ha => hPQ a (has a ha), hrun⟩

end Run

/-! ### What a run shows -/

/-- The events a run shows: `event s a` is what the move `a` shows from state `s`. -/
def trace (step : σ → α → Option σ) (event : σ → α → Option β) : σ → List α → List β
  | _, [] => []
  | s, a :: as =>
    (event s a).toList ++ match step s a with
      | some t => trace step event t as
      | none => []

/-- **Invariant rule with a history.**  What every step keeps of the state and of the events shown
so far holds at the end of every run of the events of that run. -/
theorem trace_invariant {step : σ → α → Option σ} {event : σ → α → Option β}
    (I : List β → σ → Prop)
    (hstep : ∀ l s a t, I l s → step s a = some t → I (l ++ (event s a).toList) t) {s t : σ}
    {as : List α} (hs : I [] s) (hrun : run step s as = some t) : I (trace step event s as) t := by
  have hgen : ∀ (as : List α) (l : List β) (s : σ), I l s → run step s as = some t →
      I (l ++ trace step event s as) t := by
    intro as
    induction as with
    | nil =>
      intro l s hs hrun
      rw [run_nil, Option.some.injEq] at hrun
      rw [trace, List.append_nil]
      exact hrun ▸ hs
    | cons a as ih =>
      intro l s hs hrun
      obtain ⟨u, hu, hrun⟩ := run_cons_eq_some.mp hrun
      simp only [trace, hu]
      rw [← List.append_assoc]
      exact ih _ u (hstep l s a u hs hu) hrun
  exact hgen as [] s hs hrun

/-- `P` holds of each event of a trace and the events before it. -/
def AtEach (P : List β → β → Prop) (log : List β) : Prop :=
  ∀ pre e post, log = pre ++ e :: post → P pre e

theorem atEach_nil (P : List β → β → Prop) : AtEach P [] := by
  intro pre e post heq
  exact absurd heq (by simp)

/-- A trace that grows by one event has the events it had, and the last one. -/
theorem AtEach.snoc {P : List β → β → Prop} {log : List β} (h : AtEach P log) {e : β}
    (he : P log e) : AtEach P (log ++ [e]) := by
  intro pre e' post heq
  rcases List.eq_nil_or_concat post with rfl | ⟨post', a, rfl⟩
  · obtain ⟨rfl, hlast⟩ := List.append_inj' heq rfl
    rw [← List.singleton_inj.mp hlast]
    exact he
  · rw [List.concat_eq_append, ← List.cons_append, ← List.append_assoc] at heq
    exact h pre e' post' (List.append_inj' heq rfl).1

/-- **Refinement rule.**  If each concrete step from related states is matched by an abstract step
of the same move that shows the same event, then every concrete run is matched by the abstract run
of the same moves, with the same trace. -/
theorem run_refinement {step : σ → α → Option σ} {event : σ → α → Option β}
    {astep : τ → α → Option τ} {aevent : τ → α → Option β} (R : σ → τ → Prop)
    (hstep : ∀ s a s' t, R s t → step s a = some s' →
      ∃ t', astep t a = some t' ∧ R s' t' ∧ event s a = aevent t a)
    {s s' : σ} {t : τ} {as : List α} (hR : R s t) (hrun : run step s as = some s') :
    ∃ t', run astep t as = some t' ∧ R s' t' ∧ trace step event s as = trace astep aevent t as := by
  induction as generalizing s t with
  | nil =>
    rw [run_nil, Option.some.injEq] at hrun
    exact ⟨t, rfl, hrun ▸ hR, rfl⟩
  | cons a as ih =>
    obtain ⟨u, hu, hrun⟩ := run_cons_eq_some.mp hrun
    obtain ⟨t₁, ht₁, hR₁, hevent⟩ := hstep s a u t hR hu
    obtain ⟨t₂, ht₂, hR₂, htrace⟩ := ih hR₁ hrun
    refine ⟨t₂, run_cons_eq_some.mpr ⟨t₁, ht₁, ht₂⟩, hR₂, ?_⟩
    simp only [trace, hu, ht₁, hevent, htrace]

/-! ### Each step of a run -/

/-- `P` holds of each move of a run, in the state it is made in. -/
def EachStep (step : σ → α → Option σ) (P : σ → α → Prop) : σ → List α → Prop
  | _, [] => True
  | s, a :: as => P s a ∧ ∀ t, step s a = some t → EachStep step P t as

section EachStep

variable {step : σ → α → Option σ} {P Q : σ → α → Prop}

theorem eachStep_cons {s t : σ} {a : α} {as : List α} (ht : step s a = some t) :
    EachStep step P s (a :: as) ↔ P s a ∧ EachStep step P t as := by
  refine and_congr_right fun _ => ?_
  constructor
  · intro h
    exact h t ht
  · intro h u hu
    rw [ht, Option.some.injEq] at hu
    exact hu ▸ h

theorem eachStep_append {s t : σ} {as bs : List α} (hrun : run step s as = some t) :
    EachStep step P s (as ++ bs) ↔ EachStep step P s as ∧ EachStep step P t bs := by
  induction as generalizing s with
  | nil =>
    rw [run_nil, Option.some.injEq] at hrun
    rw [hrun]
    exact (and_iff_right trivial).symm
  | cons a as ih =>
    obtain ⟨u, hu, hrun⟩ := run_cons_eq_some.mp hrun
    rw [List.cons_append, eachStep_cons hu, eachStep_cons hu, ih hrun, and_assoc]

/-- The rule with the moves so far, for runs each step of which is of a kind. -/
theorem run_history_on (I : List α → σ → Prop) {s t : σ} {as : List α}
    (hstep : ∀ l u a v, run step s l = some u → I l u → P u a → step u a = some v → I (l ++ [a]) v)
    (hs : I [] s) (has : EachStep step P s as) (hrun : run step s as = some t) : I as t := by
  refine run_history (fun l u => EachStep step P s l → I l u) ?_ (fun _ => hs) hrun has
  intro l u a v hl hI hv hla
  obtain ⟨hl', ha⟩ := (eachStep_append hl).mp hla
  exact hstep l u a v hl (hI hl') ha.1 hv

/-- What holds of every move holds of each of a run. -/
theorem eachStep_of_forall (h : ∀ s a, P s a) (s : σ) (as : List α) : EachStep step P s as := by
  induction as generalizing s with
  | nil => trivial
  | cons a as ih => exact ⟨h s a, fun t _ => ih t⟩

/-- Whether each move of a run is of a kind can be computed where this can be for one. -/
instance EachStep.decidable [∀ s a, Decidable (P s a)] :
    ∀ (s : σ) (as : List α), Decidable (EachStep step P s as)
  | _, [] => inferInstanceAs (Decidable True)
  | s, a :: as =>
    match h : step s a with
    | none => decidable_of_iff (P s a) (and_iff_left fun t ht => by rw [h] at ht; cases ht).symm
    | some t =>
      have : Decidable (EachStep step P t as) := EachStep.decidable t as
      decidable_of_iff (P s a ∧ EachStep step P t as) (eachStep_cons h).symm

/-- Two properties of moves that agree wherever an invariant holds agree on every run. -/
theorem eachStep_congr (I : σ → Prop) (hstep : ∀ s a t, I s → step s a = some t → I t)
    (hPQ : ∀ s a, I s → (P s a ↔ Q s a)) {s : σ} {as : List α} (hs : I s) :
    EachStep step P s as ↔ EachStep step Q s as := by
  induction as generalizing s with
  | nil => exact Iff.rfl
  | cons a as ih =>
    show _ ∧ _ ↔ _ ∧ _
    rw [hPQ s a hs]
    refine and_congr_right fun _ => forall_congr' fun t => forall_congr' fun ht => ?_
    exact ih (hstep s a t hs ht)

/-- **Exact rule.**  If a step keeps `R` if and only if it is `P`, then `R` holds at the end of a
run if and only if it held at the start and each step was `P`; `A` is what the environment
promises. -/
theorem run_iff_eachStep (I R : σ → Prop) {A : σ → α → Prop}
    (hstep : ∀ s a t, I s → step s a = some t → I t)
    (hR : ∀ s a t, I s → A s a → step s a = some t → (R t ↔ R s ∧ P s a)) {s t : σ} {as : List α}
    (hs : I s) (hA : EachStep step A s as) (hrun : run step s as = some t) :
    R t ↔ R s ∧ EachStep step P s as := by
  induction as generalizing s with
  | nil =>
    rw [run_nil, Option.some.injEq] at hrun
    rw [hrun]
    exact (and_iff_left trivial).symm
  | cons a as ih =>
    obtain ⟨u, hu, hrun⟩ := run_cons_eq_some.mp hrun
    obtain ⟨hAs, hA⟩ := (eachStep_cons hu).mp hA
    rw [ih (hstep s a u hs hu) hA hrun, hR s a u hs hAs hu, eachStep_cons hu, and_assoc]

end EachStep

/-! ### Clocked systems -/

/-- The state of a clocked system after `n` cycles, fed the input `ins k` in cycle `k`. -/
def drive (step : σ → α → σ) (s : σ) (ins : ℕ → α) : ℕ → σ
  | 0 => s
  | n + 1 => step (drive step s ins n) (ins n)

section Drive

variable {step : σ → α → σ}

/-- **Invariant rule** for a clocked system. -/
theorem drive_invariant (I : σ → Prop) (hstep : ∀ s a, I s → I (step s a)) {s : σ} (hs : I s)
    (ins : ℕ → α) (n : ℕ) : I (drive step s ins n) := by
  induction n with
  | zero => exact hs
  | succ n ih => exact hstep _ _ ih

/-- What a clocked system shows in its first `n` cycles. -/
def shown (step : σ → α → σ) (event : σ → α → List β) (s : σ) (ins : ℕ → α) : ℕ → List β
  | 0 => []
  | n + 1 => shown step event s ins n ++ event (drive step s ins n) (ins n)

/-- **Invariant rule with a history** for a clocked system. -/
theorem drive_history {event : σ → α → List β} (I : List β → σ → Prop)
    (hstep : ∀ l s a, I l s → I (l ++ event s a) (step s a)) {s : σ} (hs : I [] s) (ins : ℕ → α)
    (n : ℕ) : I (shown step event s ins n) (drive step s ins n) := by
  induction n with
  | zero => exact hs
  | succ n ih => exact hstep _ _ _ ih

/-- The same when each input goes with the state it meets. -/
theorem drive_history_on {event : σ → α → List β} (I : List β → σ → Prop) (P : σ → α → Prop)
    (hstep : ∀ l s a, P s a → I l s → I (l ++ event s a) (step s a)) {s : σ} (hs : I [] s)
    {ins : ℕ → α} (n : ℕ) (hins : ∀ c, c < n → P (drive step s ins c) (ins c)) :
    I (shown step event s ins n) (drive step s ins n) := by
  induction n with
  | zero => exact hs
  | succ n ih =>
    exact hstep _ _ _ (hins n (Nat.lt_succ_self n)) (ih fun c hc => hins c (Nat.lt_succ_of_lt hc))

theorem drive_add (s : σ) (ins : ℕ → α) (m n : ℕ) :
    drive step s ins (m + n) = drive step (drive step s ins m) (fun c => ins (m + c)) n := by
  induction n with
  | zero => rfl
  | succ n ih =>
    show step (drive step s ins (m + n)) (ins (m + n)) = _
    rw [ih]
    rfl

/-- **Variant rule** for a clocked system.  Cycles in which it waits do not count. -/
theorem drive_falls (I : σ → Prop) (rank : σ → ℕ) (P : σ → α → Prop) (waits : σ → α → Bool)
    (hstep : ∀ s a, P s a → I s →
      I (step s a) ∧ rank (step s a) ≤ rank s - if waits s a then 0 else 1)
    {s : σ} (hs : I s) {ins : ℕ → α} (n : ℕ)
    (hins : ∀ c, c < n → P (drive step s ins c) (ins c)) :
    I (drive step s ins n) ∧ rank (drive step s ins n)
      ≤ rank s - (List.range n).countP fun c => !waits (drive step s ins c) (ins c) := by
  induction n with
  | zero => exact ⟨hs, Nat.le_refl _⟩
  | succ n ih =>
    obtain ⟨hI, hrank⟩ := ih fun c hc => hins c (Nat.lt_succ_of_lt hc)
    obtain ⟨hI', hrank'⟩ := hstep _ _ (hins n (Nat.lt_succ_self n)) hI
    refine ⟨hI', ?_⟩
    rw [List.range_succ, List.countP_append, List.countP_singleton]
    show rank (step (drive step s ins n) (ins n)) ≤ _
    cases hwaits : waits (drive step s ins n) (ins n) with
    | true =>
      rw [hwaits, if_pos rfl] at hrank'
      simp only [Bool.not_true, Bool.false_eq_true, if_false]
      omega
    | false =>
      rw [hwaits, if_neg Bool.false_ne_true] at hrank'
      simp only [Bool.not_false, if_true]
      omega

end Drive

end VPcie.Lib
