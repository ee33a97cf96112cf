import Mathlib.Data.BitVec
import Mathlib.Logic.Function.Basic
import Mathlib.Tactic.Common
import VPcie.Lib.Runs

/-!
# The completion interrupts of the kdma driver

`irq_handler`, `KDMA_IOCTL_GET_IRQCONTEXT` and `kdma_file_poll`, which share the word
`irq_context.sta` without a lock.  The ioctl is three steps, its read, its clear and its copy to the
user, and any number of calls may be between them.

A word carries the number of the handler run that stored it, 0 after a clear.  `Order` looks only at
the order of the steps.

* `step_inv` — how the word and the words of the calls follow from the order of the steps;
* `reports_iff` — when a poll reports what it should, in a reachable state;
* `reports_runs_iff` — in which runs no completion is lost.
-/

namespace VPcie.Kdma.Irq

open VPcie.Lib

/-! ### The driver -/

/-- A status, and the run of the handler that stored it. -/
structure Word where
  sta : BitVec 32
  run : ℕ
deriving DecidableEq, Repr

/-- `sta & (1 << 31)`: the transfer is done. -/
def Done (sta : BitVec 32) : Prop := sta &&& 0x80000000 ≠ 0

instance (sta : BitVec 32) : Decidable (Done sta) :=
  inferInstanceAs (Decidable (sta &&& 0x80000000 ≠ 0))

/-- Where a call of `KDMA_IOCTL_GET_IRQCONTEXT` is, and its `arg`. -/
inductive Call where
  | start
  | read (arg : Word)
  | cleared (arg : Word)
  | done
deriving DecidableEq, Repr

/-- What a call has read and has not copied yet. -/
def Call.arg : Call → Option Word
  | .read arg | .cleared arg => some arg
  | .start | .done => none

/-- The steps of the driver: a run of the handler that reads `sta` from the device, the steps of the
ioctl calls, and the polls. -/
inductive Step where
  | irqHandler (sta : BitVec 32)
  | getRead (call : ℕ)
  | getClear (call : ℕ)
  | getCopy (call : ℕ) (ok : Bool)
  | poll

/-- What the order of the steps has been since the last store of a status: whether a call has
cleared the word, which calls have read it before that, and whether one of these has been copied to
the user. -/
structure Order where
  cleared : Bool
  readers : List ℕ
  copied : Bool
deriving DecidableEq, Repr

def Order.next (o : Order) : Step → Order
  | .irqHandler sta => if Done sta then ⟨false, [], false⟩ else o
  | .getRead call => if o.cleared then o else { o with readers := call :: o.readers }
  | .getClear _ => { o with cleared := true }
  | .getCopy call ok => if ok ∧ call ∈ o.readers then { o with copied := true } else o
  | .poll => o

@[simp] theorem Order.getRead_cleared (o : Order) (c : ℕ) :
    (o.next (.getRead c)).cleared = o.cleared := by
  simp only [Order.next]
  split
  · rfl
  · rfl

@[simp] theorem Order.getRead_copied (o : Order) (c : ℕ) :
    (o.next (.getRead c)).copied = o.copied := by
  simp only [Order.next]
  split
  · rfl
  · rfl

@[simp] theorem Order.getCopy_cleared (o : Order) (c : ℕ) (ok : Bool) :
    (o.next (.getCopy c ok)).cleared = o.cleared := by
  simp only [Order.next]
  split
  · rfl
  · rfl

@[simp] theorem Order.getCopy_readers (o : Order) (c : ℕ) (ok : Bool) :
    (o.next (.getCopy c ok)).readers = o.readers := by
  simp only [Order.next]
  split
  · rfl
  · rfl

/-- `irq_context.sta`, the number of stores of the handler, the calls, the words copied to the
users, and the order of the steps so far. -/
structure Context where
  sta : Word
  stores : ℕ
  call : ℕ → Call
  returned : List Word
  order : Order

/-- The store of `irq_handler`. -/
def irqHandler (sta : BitVec 32) (s : Context) : Context :=
  if Done sta then { s with sta := ⟨sta, s.stores + 1⟩, stores := s.stores + 1 } else s

/-- A step of a call; it makes its steps in their order. -/
def getStep (s : Context) : Step → Option Context
  | .irqHandler sta => some (irqHandler sta s)
  | .getRead c =>
    match s.call c with
    | .start => some { s with call := Function.update s.call c (.read s.sta) }
    | _ => none
  | .getClear c =>
    match s.call c with
    | .read arg =>
      some { s with sta := ⟨0, 0⟩, call := Function.update s.call c (.cleared arg) }
    | _ => none
  | .getCopy c ok =>
    match s.call c with
    | .cleared arg =>
      some { s with
        call := Function.update s.call c .done
        returned := if ok then arg :: s.returned else s.returned }
    | _ => none
  | .poll => some s

/-- A step of the driver, recorded in the order of the steps. -/
def step (s : Context) (a : Step) : Option Context :=
  (getStep s a).map fun t => { t with order := s.order.next a }

/-- The driver after `kdma_dev_init`. -/
def start : Context := ⟨⟨0, 0⟩, 0, fun _ => .start, [], ⟨false, [], false⟩⟩

/-- `kdma_file_poll`: `POLLIN | POLLRDNORM`, or nothing. -/
def kdmaFilePoll (s : Context) : BitVec 32 := if Done s.sta.sta then 0x41 else 0

/-! ### What a poll should report -/

/-- A poll reports `POLLIN` for each store of the handler of which neither the status nor a later
one has been returned to a user. -/
def Reports (s : Context) : Prop :=
  ∀ n, n ≠ 0 → n ≤ s.stores → (∀ w ∈ s.returned, Done w.sta → w.run < n) →
    kdmaFilePoll s &&& 1 ≠ 0

/-- Since the last store, no call has cleared the word, or one that read it before that has been
copied to its user. -/
def Kept (s : Context) : Prop := s.stores = 0 ∨ s.order.cleared = false ∨ s.order.copied = true

/-! ### The order of the steps and the words -/

/-- A word is a status of a run so far, or a cleared one. -/
structure Word.Ok (n : ℕ) (w : Word) : Prop where
  done : Done w.sta ↔ w.run ≠ 0
  le : w.run ≤ n

/-- The words in the state are those that the order of the steps says. -/
structure Inv (s : Context) : Prop where
  sta : s.sta.Ok s.stores
  last : s.sta.run = 0 ∨ s.sta.run = s.stores
  cleared : s.stores ≠ 0 → (s.order.cleared = true ↔ s.sta.run = 0)
  read : ∀ c w, (s.call c).arg = some w → w.Ok s.stores
  readers : s.stores ≠ 0 → ∀ c w, (s.call c).arg = some w →
    (c ∈ s.order.readers ↔ w.run = s.stores)
  fresh : ∀ c, s.call c = .start → c ∉ s.order.readers
  returned : ∀ w ∈ s.returned, w.Ok s.stores
  copied : s.stores ≠ 0 → (s.order.copied = true ↔ ∃ w ∈ s.returned, w.run = s.stores)

theorem Word.ok_cleared (n : ℕ) : Word.Ok n ⟨0, 0⟩ := ⟨by decide, Nat.zero_le n⟩

theorem Word.Ok.mono {m n : ℕ} {w : Word} (h : w.Ok m) (hmn : m ≤ n) : w.Ok n :=
  ⟨h.done, h.le.trans hmn⟩

theorem inv_start : Inv start where
  sta := Word.ok_cleared 0
  last := Or.inl rfl
  cleared h := absurd rfl h
  read _ _ h := nomatch h
  readers h := absurd rfl h
  fresh _ _ := List.not_mem_nil
  returned _ h := absurd h List.not_mem_nil
  copied h := absurd rfl h

/-- What the order of the steps says of a poll is what the poll should report. -/
theorem reports_iff {s : Context} (h : Inv s) : Reports s ↔ Kept s := by
  have hpoll : kdmaFilePoll s &&& 1 ≠ 0 ↔ Done s.sta.sta := by
    unfold kdmaFilePoll
    by_cases hdone : Done s.sta.sta
    · rw [if_pos hdone]
      exact iff_of_true (by decide) hdone
    · rw [if_neg hdone]
      exact iff_of_false (by decide) hdone
  by_cases hstores : s.stores = 0
  · refine iff_of_true ?_ (Or.inl hstores)
    intro n hn hle
    omega
  have hcleared : s.order.cleared = false ↔ Done s.sta.sta := by
    rw [h.sta.done, ne_eq, ← h.cleared hstores, Bool.not_eq_true]
  have hcopied := h.copied hstores
  constructor
  · intro hreports
    by_cases hret : ∃ w ∈ s.returned, w.run = s.stores
    · exact Or.inr (Or.inr (hcopied.mpr hret))
    · refine Or.inr (Or.inl (hcleared.mpr (hpoll.mp ?_)))
      refine hreports s.stores hstores (le_refl _) ?_
      intro w hw _
      have hne : w.run ≠ s.stores := fun heq => hret ⟨w, hw, heq⟩
      exact lt_of_le_of_ne (h.returned w hw).le hne
  · rintro (hzero | hkept | hdone) n hn hle hall
    · exact absurd hzero hstores
    · exact hpoll.mpr (hcleared.mp hkept)
    · obtain ⟨w, hw, hrun⟩ := hcopied.mp hdone
      have hlt := hall w hw ((h.returned w hw).done.mpr (by omega))
      omega

/-! ### Each step -/

/-- A call that is not the one that moves is where it was. -/
theorem call_of_ne {f : ℕ → Call} {c d : ℕ} {pc : Call} (h : d ≠ c) :
    Function.update f c pc d = f d := Function.update_of_ne h pc f

/-- What a call has after one of them moves. -/
theorem arg_update {f : ℕ → Call} {c d : ℕ} {pc : Call} {w : Word}
    (h : (Function.update f c pc d).arg = some w) :
    d = c ∧ pc.arg = some w ∨ d ≠ c ∧ (f d).arg = some w := by
  by_cases hd : d = c
  · rw [hd, Function.update_self] at h
    exact Or.inl ⟨hd, h⟩
  · rw [call_of_ne hd] at h
    exact Or.inr ⟨hd, h⟩

/-- A call that goes on with what it has, or ends, leaves no call with anything new. -/
theorem arg_of_update {f : ℕ → Call} {c d : ℕ} {pc : Call} {w : Word}
    (hpc : ∀ w, pc.arg = some w → (f c).arg = some w)
    (h : (Function.update f c pc d).arg = some w) : (f d).arg = some w := by
  rcases arg_update h with ⟨rfl, hw⟩ | ⟨-, hw⟩
  · exact hpc w hw
  · exact hw

/-- A call that has not started is not the one that moves. -/
theorem start_of_update {f : ℕ → Call} {c d : ℕ} {pc : Call} (hpc : pc ≠ .start)
    (h : Function.update f c pc d = .start) : d ≠ c ∧ f d = .start := by
  by_cases hd : d = c
  · rw [hd, Function.update_self] at h
    exact absurd h hpc
  · rw [call_of_ne hd] at h
    exact ⟨hd, h⟩

/-- **A run of the handler**: what the calls have is of an earlier run. -/
theorem inv_irqHandler {s : Context} (h : Inv s) (sta : BitVec 32) :
    Inv { irqHandler sta s with order := s.order.next (.irqHandler sta) } := by
  unfold irqHandler
  simp only [Order.next]
  by_cases hdone : Done sta
  · simp only [if_pos hdone]
    have hle : s.stores ≤ s.stores + 1 := Nat.le_succ _
    constructor
    case sta => exact ⟨iff_of_true hdone (Nat.succ_ne_zero _), le_refl _⟩
    case last => exact Or.inr rfl
    case cleared => simp
    case read => exact fun c w hw => (h.read c w hw).mono hle
    case readers =>
      intro _ c w hw
      have hold := (h.read c w hw).le
      refine iff_of_false List.not_mem_nil ?_
      show w.run ≠ s.stores + 1
      omega
    case fresh => exact fun c _ => List.not_mem_nil
    case returned => exact fun w hw => (h.returned w hw).mono hle
    case copied =>
      intro _
      refine iff_of_false Bool.false_ne_true ?_
      rintro ⟨w, hw, heq⟩
      have hold := (h.returned w hw).le
      have hnew : w.run = s.stores + 1 := heq
      omega
  · simp only [if_neg hdone]
    exact h

/-- **The read of a call**: it has the last status exactly if the word is not cleared. -/
theorem inv_getRead {s : Context} (h : Inv s) {c : ℕ} (hc : s.call c = .start) :
    Inv { s with
      call := Function.update s.call c (.read s.sta)
      order := s.order.next (.getRead c) } := by
  have hold : ∀ d, d ≠ c → (d ∈ (s.order.next (.getRead c)).readers ↔ d ∈ s.order.readers) := by
    intro d hd
    simp only [Order.next]
    by_cases hcleared : s.order.cleared = true
    · rw [if_pos hcleared]
    · rw [if_neg hcleared]
      exact List.mem_cons.trans (or_iff_right hd)
  -- the call is one of the readers, unless the word is cleared
  have hnew : s.stores ≠ 0 →
      (c ∈ (s.order.next (.getRead c)).readers ↔ s.sta.run = s.stores) := by
    intro hn
    have hcleared := h.cleared hn
    simp only [Order.next]
    by_cases hclr : s.order.cleared = true
    · rw [if_pos hclr]
      refine iff_of_false (h.fresh c hc) ?_
      rw [hcleared.mp hclr]
      exact hn.symm
    · rw [if_neg hclr]
      have hlast := h.last.resolve_left fun hzero => hclr (hcleared.mpr hzero)
      exact iff_of_true List.mem_cons_self hlast
  constructor
  case sta => exact h.sta
  case last => exact h.last
  case cleared => simpa using h.cleared
  case read =>
    intro d w hw
    rcases arg_update hw with ⟨-, hnow⟩ | ⟨-, hthen⟩
    · exact Option.some.inj hnow ▸ h.sta
    · exact h.read d w hthen
  case readers =>
    intro hn d w hw
    rcases arg_update hw with ⟨rfl, hnow⟩ | ⟨hd, hthen⟩
    · exact Option.some.inj hnow ▸ hnew hn
    · exact (hold d hd).trans (h.readers hn d w hthen)
  case fresh =>
    intro d hd hmem
    obtain ⟨hne, hstart⟩ := start_of_update Call.noConfusion hd
    exact h.fresh d hstart ((hold d hne).mp hmem)
  case returned => exact h.returned
  case copied => simpa using h.copied

/-- **The clear of a call.** -/
theorem inv_getClear {s : Context} (h : Inv s) {c : ℕ} {arg : Word} (hc : s.call c = .read arg) :
    Inv { s with
      sta := ⟨0, 0⟩
      call := Function.update s.call c (.cleared arg)
      order := s.order.next (.getClear c) } := by
  have hsame : ∀ d w, (Function.update s.call c (.cleared arg) d).arg = some w →
      (s.call d).arg = some w := by
    intro d w hw
    exact arg_of_update (fun w hw => hc ▸ hw) hw
  constructor
  case sta => exact Word.ok_cleared s.stores
  case last => exact Or.inl rfl
  case cleared => exact fun _ => iff_of_true rfl rfl
  case read => exact fun d w hw => h.read d w (hsame d w hw)
  case readers => exact fun hn d w hw => h.readers hn d w (hsame d w hw)
  case fresh =>
    intro d hd
    exact h.fresh d (start_of_update Call.noConfusion hd).2
  case returned => exact h.returned
  case copied => exact h.copied

/-- **The copy of a call**: it returns the last status exactly if the call is one of the readers. -/
theorem inv_getCopy {s : Context} (h : Inv s) {c : ℕ} {arg : Word} (hc : s.call c = .cleared arg)
    (ok : Bool) :
    Inv { s with
      call := Function.update s.call c .done
      returned := if ok then arg :: s.returned else s.returned
      order := s.order.next (.getCopy c ok) } := by
  have harg : (s.call c).arg = some arg := by
    rw [hc]
    rfl
  have hsame : ∀ d w, (Function.update s.call c .done d).arg = some w →
      (s.call d).arg = some w := by
    intro d w hw
    have hnone : ∀ w, Call.done.arg = some w → (s.call c).arg = some w :=
      fun w hdone => absurd hdone.symm (Option.some_ne_none w)
    exact arg_of_update hnone hw
  constructor
  case sta => exact h.sta
  case last => exact h.last
  case cleared => simpa using h.cleared
  case read => exact fun d w hw => h.read d w (hsame d w hw)
  case readers =>
    intro hn d w hw
    simpa using h.readers hn d w (hsame d w hw)
  case fresh =>
    intro d hd
    simpa using h.fresh d (start_of_update Call.noConfusion hd).2
  case returned =>
    intro w hw
    cases ok with
    | false => exact h.returned w hw
    | true =>
      rcases List.mem_cons.mp hw with rfl | hw
      · exact h.read c w harg
      · exact h.returned w hw
  case copied =>
    intro hn
    have hreader := h.readers hn c arg harg
    have hcopied := h.copied hn
    simp only [Order.next]
    cases ok with
    | false =>
      rw [if_neg (fun hok => Bool.false_ne_true hok.1)]
      exact hcopied
    | true =>
      by_cases hmem : c ∈ s.order.readers
      · rw [if_pos ⟨rfl, hmem⟩]
        exact iff_of_true rfl ⟨arg, List.mem_cons_self, hreader.mp hmem⟩
      · rw [if_neg (fun hok => hmem hok.2), hcopied]
        have hother : arg.run ≠ s.stores := fun heq => hmem (hreader.mpr heq)
        simp [hother]

/-- **One step keeps the words as the order of the steps says.** -/
theorem step_inv {s t : Context} {a : Step} (h : Inv s) (hstep : step s a = some t) : Inv t := by
  cases a with
  | irqHandler sta =>
    obtain rfl := Option.some.inj hstep
    exact inv_irqHandler h sta
  | getRead c =>
    cases hc : s.call c with
    | start =>
      simp only [step, getStep, hc, Option.map_some] at hstep
      exact Option.some.inj hstep ▸ inv_getRead h hc
    | _ => simp [step, getStep, hc] at hstep
  | getClear c =>
    cases hc : s.call c with
    | read arg =>
      simp only [step, getStep, hc, Option.map_some] at hstep
      exact Option.some.inj hstep ▸ inv_getClear h hc
    | _ => simp [step, getStep, hc] at hstep
  | getCopy c ok =>
    cases hc : s.call c with
    | cleared arg =>
      simp only [step, getStep, hc, Option.map_some] at hstep
      exact Option.some.inj hstep ▸ inv_getCopy h hc ok
    | _ => simp [step, getStep, hc] at hstep
  | poll =>
    obtain rfl := Option.some.inj hstep
    exact h

/-- **In which runs no completion is lost**: those in which, at every poll, no call has cleared the
word since the last store, or one that read it before that has been copied to its user. -/
theorem reports_runs_iff (steps : List Step) :
    EachStep step (fun s a => a = .poll → Reports s) start steps ↔
      EachStep step (fun s a => a = .poll → Kept s) start steps := by
  refine eachStep_congr Inv (fun _ _ _ h hstep => step_inv h hstep) ?_ inv_start
  intro s a h
  exact imp_congr_right fun _ => reports_iff h

/-- **A completion is lost**: the handler stores the second one between the read and the clear of a
call. -/
theorem secondCompletion_lost :
    ¬ EachStep step (fun s a => a = .poll → Reports s) start
      [.irqHandler 0x80000001, .getRead 0, .irqHandler 0x80000002, .getClear 0, .getCopy 0 true,
        .poll] := by
  intro h
  obtain ⟨-, h⟩ := (eachStep_cons rfl).mp h
  obtain ⟨-, h⟩ := (eachStep_cons rfl).mp h
  obtain ⟨-, h⟩ := (eachStep_cons rfl).mp h
  obtain ⟨-, h⟩ := (eachStep_cons rfl).mp h
  obtain ⟨-, h⟩ := (eachStep_cons rfl).mp h
  have hreports := h.1 rfl 2 (by decide) (by decide)
  revert hreports
  decide

end VPcie.Kdma.Irq
