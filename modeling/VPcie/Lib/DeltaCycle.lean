import Mathlib.Logic.Basic
import Mathlib.Data.List.Basic

/-!
# Delta cycles

A design is a list of processes over its signals `σ`.  In a delta cycle every process with an event
on its sensitivity list, that is a signal on it that has just changed, is executed: it reads the
current values and assigns the signals it drives, and all assignments take effect together, in the
next cycle.  A signal has one driver, so the order of the processes does not matter.

* `delta`, `settle` — one delta cycle, and several;
* `settle_of_quiet` — once nothing changes, nothing changes any more;
* `process_apply`, `clocked_apply` — what a process leaves in the signal it drives;
* `onEvent_comb` — a process sensitive to all it reads computes a function of what it reads.
-/

namespace VPcie.Lib

variable {σ ι α : Type*}

/-- A signal, or several with one driver: how to read and how to assign it. -/
structure Signal (σ α : Type*) where
  get : σ → α
  set : σ → α → σ
  set_get : ∀ s, set s (get s) = s

/-- A process: whether the change from one set of values to another is an event for it, and the
assignments it makes, reading the current values, to the next ones. -/
structure Process (σ : Type*) where
  event : σ → σ → Bool
  exec : σ → σ → σ

/-- The process with sensitivity list `f` that drives `out` with `val`. -/
def process [DecidableEq ι] (f : σ → ι) (out : Signal σ α) (val : σ → α) : Process σ where
  event old cur := decide (f old ≠ f cur)
  exec cur next := out.set next (val cur)

/-- The clocked process that drives `out` with `val` at each rising edge of `clk`. -/
def clocked (clk : σ → Bool) (out : Signal σ α) (val : σ → α) : Process σ where
  event old cur := decide (clk old ≠ clk cur)
  exec cur next := if clk cur then out.set next (val cur) else next

/-- What a process contributes to the next values. -/
def Process.apply (old cur : σ) (next : σ) (p : Process σ) : σ :=
  if p.event old cur then p.exec cur next else next

/-- One delta cycle, after the signals have changed from `old` to `cur`. -/
def delta (ps : List (Process σ)) (old cur : σ) : σ := ps.foldl (Process.apply old cur) cur

/-- `n` delta cycles. -/
def settle (ps : List (Process σ)) : ℕ → σ → σ → σ
  | 0, _, cur => cur
  | n + 1, old, cur => settle ps n cur (delta ps old cur)

section Settle

variable {ps : List (Process σ)}

theorem settle_succ (n : ℕ) (old cur : σ) :
    settle ps (n + 1) old cur = settle ps n cur (delta ps old cur) := rfl

/-- Without an event no process is executed. -/
theorem delta_of_no_event {old cur : σ} (h : ∀ p ∈ ps, p.event old cur = false) :
    delta ps old cur = cur := by
  unfold delta
  induction ps with
  | nil => rfl
  | cons p ps ih =>
    rw [List.foldl_cons, Process.apply, h p List.mem_cons_self]
    exact ih fun q hq => h q (List.mem_cons_of_mem p hq)

/-- **Once nothing changes, nothing changes any more**, for processes with sensitivity lists. -/
theorem settle_of_quiet (hps : ∀ p ∈ ps, ∀ s, p.event s s = false) {old cur : σ}
    (h : delta ps old cur = cur) (n : ℕ) : settle ps n old cur = cur := by
  induction n generalizing old with
  | zero => rfl
  | succ n ih =>
    rw [settle_succ, h]
    exact ih (delta_of_no_event fun p hp => hps p hp cur)

end Settle

/-! ### What a process leaves -/

/-- The value of a signal after a process sensitive to what changed from `old` to `cur`. -/
def onEvent [DecidableEq ι] (old cur : ι) (new out : α) : α := if old ≠ cur then new else out

/-- The value of a signal after a clocked process. -/
def onEdge (old cur : Bool) (new out : α) : α := if old ≠ cur ∧ cur = true then new else out

theorem process_apply [DecidableEq ι] (f : σ → ι) (out : Signal σ α) (val : σ → α)
    (old cur next : σ) : Process.apply old cur next (process f out val)
      = out.set next (onEvent (f old) (f cur) (val cur) (out.get next)) := by
  by_cases h : f old = f cur
  · simp [Process.apply, process, onEvent, h, out.set_get]
  · simp [Process.apply, process, onEvent, h]

theorem clocked_apply (clk : σ → Bool) (out : Signal σ α) (val : σ → α) (old cur next : σ) :
    Process.apply old cur next (clocked clk out val)
      = out.set next (onEdge (clk old) (clk cur) (val cur) (out.get next)) := by
  by_cases h : clk old = clk cur
  · have hevent : (clocked clk out val).event old cur = false := by simp [clocked, h]
    rw [Process.apply, hevent, if_neg (by decide), onEdge, if_neg (fun hc => hc.1 h), out.set_get]
  · have hevent : (clocked clk out val).event old cur = true := by simp [clocked, h]
    rw [Process.apply, hevent, if_pos rfl]
    by_cases hcur : clk cur = true
    · rw [onEdge, if_pos ⟨h, hcur⟩]
      exact if_pos hcur
    · rw [onEdge, if_neg (fun hc => hcur hc.2), out.set_get]
      exact if_neg hcur

@[simp] theorem onEvent_self [DecidableEq ι] (i : ι) (new out : α) : onEvent i i new out = out :=
  if_neg (by simp)

@[simp] theorem onEdge_self (clk : Bool) (new out : α) : onEdge clk clk new out = out :=
  if_neg (by simp)

@[simp] theorem onEdge_rising (new out : α) : onEdge false true new out = new := rfl

@[simp] theorem onEdge_falling (new out : α) : onEdge true false new out = out := rfl

/-- **Combinational processes.**  A process that is sensitive to all it reads, executed or not,
leaves the value of the function at what is there to read. -/
theorem onEvent_comb [DecidableEq ι] (f : ι → α) (old cur : ι) :
    onEvent old cur (f cur) (f old) = f cur := by
  by_cases h : old = cur
  · rw [h, onEvent_self]
  · exact if_pos h

end VPcie.Lib
