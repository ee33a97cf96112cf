import Mathlib.Data.List.Basic
import Mathlib.Tactic.Common
import VPcie.Kdma.Pmem

/-!
# Closing a file of the kdma driver

`kdma_file_close` gives back what is left of the memory list, which is one for all files of all
devices.

* `ioctlPmemAlloc_blocks`, `fileStep_filesOpen` — every block is of an open file;
* `releasesOwn_iff` — one close gives back the blocks of its file and no others exactly when there
  are no others;
* `releasesOwn_runs_iff` — in which runs every close does.
-/

namespace VPcie.Kdma

open VPcie.Lib

/-! ### What a close should do -/

/-- The calls of `free_pages` that the close of a file makes. -/
def closeCalls (k : Kernel) (file : ℕ) (s : Driver) : List FreeCall :=
  (kdmaFileClose k file s).pmem.calls.drop s.pmem.calls.length

/-- **The close of a file releases its own blocks**: it frees these, each once, and the blocks of
every other open file stay allocated and listed. -/
structure ReleasesOwn (k : Kernel) (file : ℕ) (s : Driver) : Prop where
  own : ((closeCalls k file s).map FreeCall.key).Perm
    ((s.pmem.blocks.filter fun b => b.file = file).map Block.key)
  others : ∀ b ∈ s.pmem.blocks, b.file ≠ file → (s.privateData b.file).isSome →
    b ∈ (kdmaFileClose k file s).pmem.blocks ∧
      b.key ∈ (kdmaFileClose k file s).pmem.head.map k.nodeKey

/-- The operation is a close that releases its own blocks, or no close. -/
def FileOp.ReleasesOwn (k : Kernel) (s : Driver) : FileOp → Prop
  | .close file => VPcie.Kdma.ReleasesOwn k file s
  | .open _ _ | .pmemAlloc _ _ _ | .pmemFree _ _ => True

/-- The operation is a close while there are no blocks but those of its file, or no close. -/
def FileOp.Alone (s : Driver) : FileOp → Prop
  | .close file => ∀ b ∈ s.pmem.blocks, b.file = file
  | .open _ _ | .pmemAlloc _ _ _ | .pmemFree _ _ => True

/-! ### The owners of the blocks -/

/-- Every block was allocated through a file that is still open. -/
def FilesOpen (s : Driver) : Prop := ∀ b ∈ s.pmem.blocks, (s.privateData b.file).isSome

theorem pmemFree_blocks {k : Kernel} {paddr size : BitVec 64} {m : Pmem} {b : Block}
    (hb : b ∈ (pmemFree k paddr size m).blocks) : b ∈ m.blocks := List.mem_of_mem_eraseP hb

/-- The blocks after an allocation: those before, and one of the file. -/
theorem ioctlPmemAlloc_blocks {k : Kernel} {env : PageEnv} {file : ℕ} {arg : Option PmemArg}
    {m : Pmem} {b : Block} (hb : b ∈ (ioctlPmemAlloc k env file arg m).2.2.blocks) :
    b ∈ m.blocks ∨ b.file = file := by
  have hlisted : ∀ vaddr size, b ∈ (m.listed k vaddr size file).blocks →
      b ∈ m.blocks ∨ b.file = file := by
    intro vaddr size hb
    rcases List.mem_cons.mp hb with rfl | hb
    · exact Or.inr rfl
    · exact Or.inl hb
  rcases ioctlPmemAlloc_cases k env file arg m with ⟨heq, -⟩ | ⟨a, vaddr, -, -, -, heq⟩ |
    ⟨a, vaddr, -, -, heq | heq⟩
  · rw [heq] at hb
    exact Or.inl hb
  · rw [heq] at hb
    exact Or.inl hb
  · rw [heq] at hb
    exact hlisted vaddr a.size hb
  · rw [heq] at hb
    exact hlisted vaddr a.size (pmemFree_blocks hb)

/-- An open only adds to the open files. -/
theorem kdmaFileOpen_isSome {file dev f : ℕ} {s : Driver} (h : (s.privateData f).isSome) :
    ((kdmaFileOpen file dev s).2.privateData f).isSome := by
  unfold kdmaFileOpen
  split
  · show (Function.update s.privateData file (some dev) f).isSome = true
    by_cases hf : f = file
    · rw [hf, Function.update_self]
      rfl
    · rw [Function.update_of_ne hf]
      exact h
  · exact h

/-- **Every block stays one of an open file**: a close leaves no block. -/
theorem fileStep_filesOpen {k : Kernel} {s t : Driver} {a : FileOp} (hmatched : Matched k s.pmem)
    (h : FilesOpen s) (hstep : fileStep k s a = some t) : FilesOpen t := by
  rcases fileStep_cases hstep with ⟨file, dev, -, rfl⟩ | ⟨file, arg, env, -, hfile, rfl⟩ |
    ⟨file, arg, -, -, rfl⟩ | ⟨file, -, -, rfl⟩
  · intro b hb
    rw [kdmaFileOpen_pmem] at hb
    exact kdmaFileOpen_isSome (h b hb)
  · intro b hb
    rcases ioctlPmemAlloc_blocks hb with hb | rfl
    · exact h b hb
    · exact hfile
  · intro b hb
    cases arg with
    | none => exact h b hb
    | some arg => exact h b (pmemFree_blocks hb)
  · obtain ⟨cs, heq, -⟩ := freePmemNodes_eq hmatched
    intro b hb
    have hnil : (kdmaFileClose k file s).pmem.blocks = [] := congrArg Pmem.blocks heq
    rw [hnil] at hb
    exact absurd hb List.not_mem_nil

/-! ### One close, and runs -/

/-- **A close releases its own blocks exactly when there are no others.** -/
theorem releasesOwn_iff {k : Kernel} {file : ℕ} {s : Driver} (hmatched : Matched k s.pmem)
    (hopen : FilesOpen s) :
    ReleasesOwn k file s ↔ ∀ b ∈ s.pmem.blocks, b.file = file := by
  obtain ⟨cs, heq, hkeys, -⟩ := freePmemNodes_eq hmatched
  have hafter : (kdmaFileClose k file s).pmem = ⟨[], [], s.pmem.calls ++ cs⟩ := heq
  constructor
  · intro h b hb
    by_contra hother
    have hstays := (h.others b hb hother (hopen b hb)).1
    rw [hafter] at hstays
    exact absurd hstays List.not_mem_nil
  · intro h
    refine ⟨?_, fun b hb hother _ => absurd (h b hb) hother⟩
    have hall : s.pmem.blocks.filter (fun b => b.file = file) = s.pmem.blocks :=
      List.filter_eq_self.mpr fun b hb => decide_eq_true (h b hb)
    rw [closeCalls, hafter, List.drop_left, hkeys, hall]

/-- **In which runs every close releases its own blocks**: those in which no block of another file
is left when a file is closed. -/
theorem releasesOwn_runs_iff (k : Kernel) (bits : BitVec 32) (ops : List FileOp) :
    EachStep (fileStep k) (fun s a => a.ReleasesOwn k s) (Driver.start bits) ops ↔
      EachStep (fileStep k) (fun s a => a.Alone s) (Driver.start bits) ops := by
  refine eachStep_congr (fun s => Matched k s.pmem ∧ FilesOpen s) ?_ ?_
    ⟨matched_start k bits, fun b hb => nomatch hb⟩
  · intro s a t h hstep
    exact ⟨fileStep_matched h.1 hstep, fileStep_filesOpen h.1 h.2 hstep⟩
  · intro s a h
    cases a with
    | close file => exact releasesOwn_iff h.1 h.2
    | «open» file dev => exact Iff.rfl
    | pmemAlloc file arg env => exact Iff.rfl
    | pmemFree file arg => exact Iff.rfl

/-- **The close of one file frees the memory of another**: the second of two files is closed while
the first one has a page. -/
theorem otherFile_freed :
    ¬ EachStep (fileStep linux) (fun s a => a.ReleasesOwn linux s) (Driver.start 3)
      [.open 0 0, .open 1 1, .pmemAlloc 0 (some ⟨0, 1024, -1⟩) onePage, .close 1] := by
  intro h
  obtain ⟨-, h⟩ := (eachStep_cons rfl).mp h
  obtain ⟨-, h⟩ := (eachStep_cons rfl).mp h
  obtain ⟨-, hclose, -⟩ := (eachStep_cons rfl).mp h
  obtain ⟨hstays, -⟩ := hclose.others ⟨0xffff880000100000, 0, 0⟩ (by decide +kernel)
    (by decide) rfl
  revert hstays
  decide +kernel

end VPcie.Kdma
