import Mathlib.Data.List.Basic
import Mathlib.Data.BitVec
import Mathlib.Tactic.Common
import VPcie.Lib.Runs

/-!
# The physical memory of the kdma driver

The on demand allocator of `kdma.c`: one list of nodes for all files of all devices, and the ioctls
and the close that use it.  The page allocator is the kernel's: what it returns is an argument of a
call.

A **block** is what the page allocator has given and has not been given back: `free_pages` gives
back the block at its address.  Each call of `free_pages` is recorded with the list and the blocks
as they are when it is made.

* `Matched` — the list and the blocks are the same memory, in the same order: every operation keeps
  it;
* `ioctlPmemFree_spec`, `ioctlPmemAlloc_spec`, `freePmemNodes_eq` — the calls of `free_pages` of
  each function;
* `freePmemNodes_ends` — the loop of `free_pmem_nodes` ends, for any list;
* `exact_iff` — in which runs every call is for a listed block of that order.
-/

namespace VPcie.Kdma

open VPcie.Lib

/-! ### The allocator -/

/-- What the kernel gives the driver: the linear map of the physical memory, and `get_order`. -/
structure Kernel where
  pageOffset : BitVec 64
  getOrder : BitVec 64 → ℕ

def Kernel.virtToPhys (k : Kernel) (vaddr : BitVec 64) : BitVec 64 := vaddr - k.pageOffset

def Kernel.physToVirt (k : Kernel) (paddr : BitVec 64) : BitVec 64 := paddr + k.pageOffset

@[simp] theorem Kernel.physToVirt_virtToPhys (k : Kernel) (vaddr : BitVec 64) :
    k.physToVirt (k.virtToPhys vaddr) = vaddr := BitVec.sub_add_cancel vaddr k.pageOffset

theorem Kernel.physToVirt_inj (k : Kernel) {p q : BitVec 64} :
    k.physToVirt p = k.physToVirt q ↔ p = q := BitVec.add_left_inj k.pageOffset

/-- `struct pmem_node`, without the link to the next node of the list. -/
structure PmemNode where
  paddr : BitVec 64
  size : BitVec 64
deriving DecidableEq, Repr

/-- A block of pages that the page allocator gave to the driver, for a file. -/
structure Block where
  vaddr : BitVec 64
  order : ℕ
  file : ℕ
deriving DecidableEq, Repr

/-- A call of `free_pages`, and the list and the blocks when it is made. -/
structure FreeCall where
  vaddr : BitVec 64
  order : ℕ
  head : List PmemNode
  blocks : List Block
deriving DecidableEq, Repr

/-- `pmem_head`, the blocks not given back, and the calls of `free_pages` so far. -/
structure Pmem where
  head : List PmemNode
  blocks : List Block
  calls : List FreeCall
deriving DecidableEq, Repr

/-- `free_pages`. -/
def freePages (vaddr : BitVec 64) (order : ℕ) (m : Pmem) : Pmem where
  head := m.head
  blocks := m.blocks.eraseP fun b => b.vaddr = vaddr
  calls := m.calls ++ [⟨vaddr, order, m.head, m.blocks⟩]

/-- The loop of `del_pmem_node` from `pos` on: the result, and the list without the node. -/
def delPmemNode (paddr : BitVec 64) : List PmemNode → Int × List PmemNode
  -- not found
  | [] => (-1, [])
  | pos :: next =>
    if pos.paddr = paddr then (0, next)
    else
      let rest := delPmemNode paddr next
      (rest.1, pos :: rest.2)

/-- `add_pmem_node`; `kmalloc` says whether there is memory for the node. -/
def addPmemNode (kmalloc : Bool) (paddr size : BitVec 64) (m : Pmem) : Int × Pmem :=
  if kmalloc then (0, { m with head := ⟨paddr, size⟩ :: m.head }) else (-1, m)

/-- `pmem_free`. -/
def pmemFree (k : Kernel) (paddr size : BitVec 64) (m : Pmem) : Pmem :=
  let freed := freePages (k.physToVirt paddr) (k.getOrder size) m
  { freed with head := (delPmemNode paddr freed.head).2 }

/-- What the kernel calls of an allocation return: the pages of `__get_free_pages` (0 if there are
none) and of `alloc_pages_exact_node`, whether `kmalloc` returns memory, and whether the copy to the
user succeeds. -/
structure PageEnv where
  getFreePages : ℕ → BitVec 64
  allocPagesExactNode : Int → ℕ → Option (BitVec 64)
  kmalloc : Bool
  toUser : Bool

/-- The address of the pages, if there are any. -/
def PageEnv.pages (env : PageEnv) (nid : Int) (order : ℕ) : Option (BitVec 64) :=
  -- node does not matter
  if nid < 0 then
    if env.getFreePages order = 0 then none else some (env.getFreePages order)
  else env.allocPagesExactNode nid order

/-- `pmem_alloc` for a file: the result, `paddr`, and the memory after it. -/
def pmemAlloc (k : Kernel) (env : PageEnv) (file : ℕ) (size : BitVec 64) (nid : Int) (m : Pmem) :
    Int × BitVec 64 × Pmem :=
  let order := k.getOrder size
  match env.pages nid order with
  | none => (-12, 0, m)
  | some vaddr =>
    let paddr := k.virtToPhys vaddr
    let got := { m with blocks := ⟨vaddr, order, file⟩ :: m.blocks }
    let added := addPmemNode env.kmalloc paddr size got
    if added.1 ≠ 0 then (-12, 0, freePages vaddr order added.2)
    else (0, paddr, added.2)

/-- The loop of `free_pmem_nodes`, at most `fuel` times. -/
def freePmemNodes (k : Kernel) : ℕ → Pmem → Pmem
  | 0, m => m
  | fuel + 1, m =>
    match m.head with
    | [] => m
    | n :: _ => freePmemNodes k fuel (pmemFree k n.paddr n.size m)

/-! ### The ioctls -/

/-- `kdma_ioctl_pmem_t` without the address in the user's memory, which the driver does not read. -/
structure PmemArg where
  paddr : BitVec 64
  word32Count : BitVec 32
  nid : Int
deriving DecidableEq, Repr

/-- `arg.word32_count * sizeof(uint32_t)`. -/
def PmemArg.size (arg : PmemArg) : BitVec 64 := arg.word32Count.setWidth 64 * 4

/-- The count is not checked by the 32 bits of a size. -/
def PmemArg.TooLarge (arg : PmemArg) : Prop := 0xffffffff / 4 < arg.word32Count.toNat

instance (arg : PmemArg) : Decidable arg.TooLarge :=
  inferInstanceAs (Decidable (0xffffffff / 4 < arg.word32Count.toNat))

/-- `KDMA_IOCTL_PMEM_ALLOC`: the result, what is copied to the user, and the memory after it; no
`arg` if the copy from the user fails. -/
def ioctlPmemAlloc (k : Kernel) (env : PageEnv) (file : ℕ) (arg : Option PmemArg) (m : Pmem) :
    Int × Option PmemArg × Pmem :=
  match arg with
  | none => (-14, none, m)
  | some arg =>
    if arg.TooLarge then (-22, none, m)
    else
      let got := pmemAlloc k env file arg.size arg.nid m
      if got.1 ≠ 0 then (got.1, none, got.2.2)
      else if env.toUser then (0, some { arg with paddr := got.2.1 }, got.2.2)
      else (-14, none, pmemFree k got.2.1 arg.size got.2.2)

/-- `KDMA_IOCTL_PMEM_FREE`: the result and the memory after it. -/
def ioctlPmemFree (k : Kernel) (arg : Option PmemArg) (m : Pmem) : Int × Pmem :=
  match arg with
  | none => (-14, m)
  -- assume size is valid
  | some arg => (0, pmemFree k arg.paddr arg.size m)

/-! ### The files -/

/-- `KDMA_DEV_COUNT`. -/
abbrev kdmaDevCount : ℕ := 2

/-- `kdma_driver.bits`, `private_data` of each open file, and the memory. -/
structure Driver where
  bits : BitVec 32
  privateData : ℕ → Option ℕ
  pmem : Pmem

/-- `kdma_is_dev_valid`, of the device at an index. -/
def kdmaIsDevValid (dev : ℕ) : Bool := decide (dev < kdmaDevCount)

/-- `kdma_is_dev_allocated`. -/
def kdmaIsDevAllocated (s : Driver) (dev : ℕ) : Bool := s.bits &&& (1 <<< dev) != 0

/-- `kdma_file_open`: the result, and the state after it. -/
def kdmaFileOpen (file dev : ℕ) (s : Driver) : Int × Driver :=
  if kdmaIsDevValid dev && kdmaIsDevAllocated s dev then
    (0, { s with privateData := Function.update s.privateData file (some dev) })
  else (-14, s)

/-- `kdma_file_close`; each turn of the loop of `free_pmem_nodes` deletes a node. -/
def kdmaFileClose (k : Kernel) (file : ℕ) (s : Driver) : Driver where
  bits := s.bits
  privateData := Function.update s.privateData file none
  pmem := freePmemNodes k s.pmem.head.length s.pmem

/-- What the users do, each with a file. -/
inductive FileOp where
  | open (file dev : ℕ)
  | pmemAlloc (file : ℕ) (arg : Option PmemArg) (env : PageEnv)
  | pmemFree (file : ℕ) (arg : Option PmemArg)
  | close (file : ℕ)

/-- One operation: an open gives a new file, all others are on an open one. -/
def fileStep (k : Kernel) (s : Driver) : FileOp → Option Driver
  | .open file dev => if (s.privateData file).isSome then none else some (kdmaFileOpen file dev s).2
  | .pmemAlloc file arg env =>
    if (s.privateData file).isSome then
      some { s with pmem := (ioctlPmemAlloc k env file arg s.pmem).2.2 }
    else none
  | .pmemFree file arg =>
    if (s.privateData file).isSome then some { s with pmem := (ioctlPmemFree k arg s.pmem).2 }
    else none
  | .close file => if (s.privateData file).isSome then some (kdmaFileClose k file s) else none

/-- The driver with the devices of `bits`, before the first open. -/
def Driver.start (bits : BitVec 32) : Driver := ⟨bits, fun _ => none, ⟨[], [], []⟩⟩

/-! ### The list and the blocks -/

/-- The address and the order that a node stands for. -/
def Kernel.nodeKey (k : Kernel) (n : PmemNode) : BitVec 64 × ℕ :=
  (k.physToVirt n.paddr, k.getOrder n.size)

/-- The address and the order of a block. -/
def Block.key (b : Block) : BitVec 64 × ℕ := (b.vaddr, b.order)

/-- The address and the order of a call of `free_pages`. -/
def FreeCall.key (c : FreeCall) : BitVec 64 × ℕ := (c.vaddr, c.order)

/-- The call is for a listed block, of the order it was allocated with. -/
def FreeCall.Proper (k : Kernel) (c : FreeCall) : Prop :=
  c.key ∈ c.head.map k.nodeKey ∧ c.key ∈ c.blocks.map Block.key

/-- **The bookkeeping is exact**: the list has the blocks, and the calls were for listed blocks. -/
structure Exact (k : Kernel) (m : Pmem) : Prop where
  listed : (m.head.map k.nodeKey).Perm (m.blocks.map Block.key)
  calls : ∀ c ∈ m.calls, c.Proper k

/-- The list and the blocks are the same memory, the last one first. -/
def Matched (k : Kernel) (m : Pmem) : Prop := m.head.map k.nodeKey = m.blocks.map Block.key

/-- The loop unlinks the first node of that address. -/
theorem delPmemNode_eq (paddr : BitVec 64) (head : List PmemNode) :
    (delPmemNode paddr head).2 = head.eraseP fun n => n.paddr = paddr := by
  induction head with
  | nil => rfl
  | cons pos next ih =>
    by_cases h : pos.paddr = paddr
    · simp [delPmemNode, h]
    · simp [delPmemNode, h, ih]

theorem pmemFree_head (k : Kernel) (paddr size : BitVec 64) (m : Pmem) :
    (pmemFree k paddr size m).head = m.head.eraseP fun n => n.paddr = paddr :=
  delPmemNode_eq paddr m.head

/-- The one call of `pmem_free`. -/
theorem pmemFree_calls (k : Kernel) (paddr size : BitVec 64) (m : Pmem) :
    (pmemFree k paddr size m).calls
      = m.calls ++ [⟨k.physToVirt paddr, k.getOrder size, m.head, m.blocks⟩] := rfl

/-- `pmem_free` unlinks a node and gives back a block of the same address, or neither. -/
theorem matched_pmemFree {k : Kernel} {m : Pmem} (h : Matched k m) (paddr size : BitVec 64) :
    Matched k (pmemFree k paddr size m) := by
  have hhead : (m.head.eraseP fun n => n.paddr = paddr).map k.nodeKey
      = (m.head.map k.nodeKey).eraseP fun a => a.1 = k.physToVirt paddr := by
    rw [List.eraseP_map]
    congr 2
    funext n
    exact decide_eq_decide.mpr k.physToVirt_inj.symm
  have hblocks : (m.blocks.eraseP fun b => b.vaddr = k.physToVirt paddr).map Block.key
      = (m.blocks.map Block.key).eraseP fun a => a.1 = k.physToVirt paddr := by
    rw [List.eraseP_map]
    rfl
  unfold Matched
  rw [pmemFree_head, hhead, h]
  exact hblocks.symm

/-- A call for the address and the size of a node is proper exactly if a listed node has them. -/
theorem proper_iff {k : Kernel} {m : Pmem} (h : Matched k m) (paddr size : BitVec 64) :
    FreeCall.Proper k ⟨k.physToVirt paddr, k.getOrder size, m.head, m.blocks⟩ ↔
      ∃ n ∈ m.head, n.paddr = paddr ∧ k.getOrder n.size = k.getOrder size := by
  have hmatched : m.head.map k.nodeKey = m.blocks.map Block.key := h
  show _ ∈ _ ∧ _ ∈ _ ↔ _
  rw [← hmatched, and_self, List.mem_map]
  refine exists_congr fun n => and_congr_right fun _ => ?_
  show (_, _) = (_, _) ↔ _
  rw [Prod.mk.injEq, k.physToVirt_inj]

/-- The memory with a block that is allocated and listed. -/
def Pmem.listed (k : Kernel) (vaddr size : BitVec 64) (file : ℕ) (m : Pmem) : Pmem where
  head := ⟨k.virtToPhys vaddr, size⟩ :: m.head
  blocks := ⟨vaddr, k.getOrder size, file⟩ :: m.blocks
  calls := m.calls

/-- The memory after a block was allocated and given back at once: there is no trace but the
call. -/
def Pmem.refused (vaddr : BitVec 64) (order file : ℕ) (m : Pmem) : Pmem :=
  { m with calls := m.calls ++ [⟨vaddr, order, m.head, ⟨vaddr, order, file⟩ :: m.blocks⟩] }

/-- What is allocated is listed. -/
theorem matched_listed {k : Kernel} {m : Pmem} (h : Matched k m) (vaddr size : BitVec 64)
    (file : ℕ) : Matched k (m.listed k vaddr size file) := by
  show k.nodeKey ⟨k.virtToPhys vaddr, size⟩ :: m.head.map k.nodeKey
    = (vaddr, k.getOrder size) :: m.blocks.map Block.key
  rw [Kernel.nodeKey, k.physToVirt_virtToPhys, h]

section Alloc

variable {k : Kernel} {env : PageEnv} {file : ℕ} {size : BitVec 64} {nid : Int} {m : Pmem}
  {vaddr : BitVec 64}

theorem pmemAlloc_noPages (hpages : env.pages nid (k.getOrder size) = none) :
    pmemAlloc k env file size nid m = (-12, 0, m) := by
  simp only [pmemAlloc, hpages]

/-- Without memory for the node, the pages are given back. -/
theorem pmemAlloc_noNode (hpages : env.pages nid (k.getOrder size) = some vaddr)
    (hkmalloc : env.kmalloc = false) :
    pmemAlloc k env file size nid m = (-12, 0, m.refused vaddr (k.getOrder size) file) := by
  simp [pmemAlloc, hpages, hkmalloc, addPmemNode, freePages, Pmem.refused]

theorem pmemAlloc_listed (hpages : env.pages nid (k.getOrder size) = some vaddr)
    (hkmalloc : env.kmalloc = true) :
    pmemAlloc k env file size nid m = (0, k.virtToPhys vaddr, m.listed k vaddr size file) := by
  simp only [pmemAlloc, hpages, hkmalloc]
  rfl

end Alloc

/-! ### The calls of each operation -/

/-- The calls so far were for listed blocks. -/
def CallsProper (k : Kernel) (m : Pmem) : Prop := ∀ c ∈ m.calls, c.Proper k

theorem callsProper_append {k : Kernel} {m r : Pmem} {cs : List FreeCall}
    (h : r.calls = m.calls ++ cs) : CallsProper k r ↔ CallsProper k m ∧ ∀ c ∈ cs, c.Proper k := by
  unfold CallsProper
  simp only [h, List.mem_append, or_imp, forall_and]

/-- A free names a listed node, with a size of its order. -/
def FreesListed (k : Kernel) (m : Pmem) : Option PmemArg → Prop
  | none => True
  | some arg => ∃ n ∈ m.head, n.paddr = arg.paddr ∧ k.getOrder n.size = k.getOrder arg.size

/-- Where there are pages for an allocation, there is memory for the node. -/
def NodeAllocated (k : Kernel) (env : PageEnv) : Option PmemArg → Prop
  | none => True
  | some arg =>
    ¬ arg.TooLarge → env.pages arg.nid (k.getOrder arg.size) ≠ none → env.kmalloc = true

/-- The page allocator gives no pages that it has not got back. -/
def PagesFresh (k : Kernel) (m : Pmem) (env : PageEnv) : Option PmemArg → Prop
  | none => True
  | some arg => ∀ b ∈ m.blocks, env.pages arg.nid (k.getOrder arg.size) ≠ some b.vaddr

instance (k : Kernel) (m : Pmem) : ∀ arg, Decidable (FreesListed k m arg)
  | none => inferInstanceAs (Decidable True)
  | some arg => inferInstanceAs (Decidable (∃ n ∈ m.head, n.paddr = arg.paddr ∧ _ = _))

instance (k : Kernel) (env : PageEnv) : ∀ arg, Decidable (NodeAllocated k env arg)
  | none => inferInstanceAs (Decidable True)
  | some arg => inferInstanceAs (Decidable (¬ arg.TooLarge → _ ≠ none → _ = true))

instance (k : Kernel) (m : Pmem) (env : PageEnv) : ∀ arg, Decidable (PagesFresh k m env arg)
  | none => inferInstanceAs (Decidable True)
  | some arg => inferInstanceAs
      (Decidable (∀ b ∈ m.blocks, env.pages arg.nid (k.getOrder arg.size) ≠ some b.vaddr))

section Calls

variable {k : Kernel} {m : Pmem}

theorem callsProper_pmemFree (h : Matched k m) (paddr size : BitVec 64) :
    CallsProper k (pmemFree k paddr size m) ↔
      CallsProper k m ∧ ∃ n ∈ m.head, n.paddr = paddr ∧ k.getOrder n.size = k.getOrder size := by
  rw [callsProper_append (pmemFree_calls k paddr size m), List.forall_mem_singleton, proper_iff h]

/-- **A free is proper exactly if it names a listed block.** -/
theorem ioctlPmemFree_spec (h : Matched k m) (arg : Option PmemArg) :
    Matched k (ioctlPmemFree k arg m).2 ∧
      (CallsProper k (ioctlPmemFree k arg m).2 ↔ CallsProper k m ∧ FreesListed k m arg) := by
  cases arg with
  | none => exact ⟨h, (and_iff_left trivial).symm⟩
  | some arg => exact ⟨matched_pmemFree h _ _, callsProper_pmemFree h _ _⟩

/-- **What an allocation can do**: nothing; give the pages back, without memory for the node; or
list the block, and free it again if the copy to the user fails. -/
theorem ioctlPmemAlloc_cases (k : Kernel) (env : PageEnv) (file : ℕ) (arg : Option PmemArg)
    (m : Pmem) :
    let t := (ioctlPmemAlloc k env file arg m).2.2
    t = m ∧ NodeAllocated k env arg ∨
    (∃ a vaddr, arg = some a ∧ env.pages a.nid (k.getOrder a.size) = some vaddr ∧
      ¬ NodeAllocated k env arg ∧ t = m.refused vaddr (k.getOrder a.size) file) ∨
    ∃ a vaddr, arg = some a ∧ NodeAllocated k env arg ∧ (t = m.listed k vaddr a.size file ∨
      t = pmemFree k (k.virtToPhys vaddr) a.size (m.listed k vaddr a.size file)) := by
  intro t
  cases arg with
  | none => exact Or.inl ⟨rfl, trivial⟩
  | some a =>
    by_cases hlarge : a.TooLarge
    · refine Or.inl ⟨?_, fun hsmall => absurd hlarge hsmall⟩
      simp only [t, ioctlPmemAlloc, if_pos hlarge]
    cases hpages : env.pages a.nid (k.getOrder a.size) with
    | none =>
      refine Or.inl ⟨?_, fun _ hsome => absurd hpages hsome⟩
      simp only [t, ioctlPmemAlloc, if_neg hlarge, pmemAlloc_noPages hpages]
      rfl
    | some vaddr =>
      cases hkmalloc : env.kmalloc with
      | false =>
        refine Or.inr (Or.inl ⟨a, vaddr, rfl, hpages, ?_, ?_⟩)
        · intro hnode
          have hnever := hnode hlarge (by rw [hpages]; exact Option.some_ne_none vaddr)
          exact Bool.false_ne_true (hkmalloc.symm.trans hnever)
        · simp only [t, ioctlPmemAlloc, if_neg hlarge, pmemAlloc_noNode hpages hkmalloc]
          rfl
      | true =>
        refine Or.inr (Or.inr ⟨a, vaddr, rfl, fun _ _ => hkmalloc, ?_⟩)
        simp only [t, ioctlPmemAlloc, if_neg hlarge, pmemAlloc_listed hpages hkmalloc]
        cases env.toUser with
        | true => exact Or.inl rfl
        | false => exact Or.inr rfl

/-- Pages that are given back at once are not listed. -/
theorem not_proper_got {vaddr : BitVec 64} {order file : ℕ} (h : Matched k m)
    (hfresh : ∀ b ∈ m.blocks, b.vaddr ≠ vaddr) :
    ¬ FreeCall.Proper k ⟨vaddr, order, m.head, ⟨vaddr, order, file⟩ :: m.blocks⟩ := by
  rintro ⟨hlisted, -⟩
  have hmatched : m.head.map k.nodeKey = m.blocks.map Block.key := h
  rw [hmatched, List.mem_map] at hlisted
  obtain ⟨b, hb, hkey⟩ := hlisted
  exact hfresh b hb (congrArg Prod.fst hkey)

/-- **An allocation is proper exactly if its node has memory**: then it makes no call, or one for
the block it has just listed. -/
theorem ioctlPmemAlloc_spec (h : Matched k m) (env : PageEnv) (file : ℕ) (arg : Option PmemArg) :
    Matched k (ioctlPmemAlloc k env file arg m).2.2 ∧ (PagesFresh k m env arg →
      (CallsProper k (ioctlPmemAlloc k env file arg m).2.2 ↔
        CallsProper k m ∧ NodeAllocated k env arg)) := by
  rcases ioctlPmemAlloc_cases k env file arg m with ⟨heq, hnode⟩ |
    ⟨a, vaddr, rfl, hpages, hnode, heq⟩ | ⟨a, vaddr, rfl, hnode, heq | heq⟩
  · rw [heq]
    exact ⟨h, fun _ => (and_iff_left hnode).symm⟩
  · rw [heq]
    refine ⟨h, ?_⟩
    intro hfresh
    have hother : ∀ b ∈ m.blocks, b.vaddr ≠ vaddr := by
      intro b hb hvaddr
      exact hfresh b hb (hvaddr ▸ hpages)
    rw [Pmem.refused, callsProper_append rfl, List.forall_mem_singleton]
    exact and_congr_right fun _ => iff_of_false (not_proper_got h hother) hnode
  · rw [heq]
    exact ⟨matched_listed h _ _ _, fun _ => (and_iff_left hnode).symm⟩
  · rw [heq]
    have hlisted := matched_listed h vaddr a.size file
    refine ⟨matched_pmemFree hlisted _ _, ?_⟩
    intro _
    rw [callsProper_pmemFree hlisted]
    exact and_congr_right fun _ => iff_of_true ⟨_, List.mem_cons_self, rfl, rfl⟩ hnode

/-- Freeing the first node frees the first block. -/
theorem pmemFree_first {n : PmemNode} {rest : List PmemNode} {b : Block} {bs : List Block}
    (calls : List FreeCall) (hkey : k.nodeKey n = b.key) :
    pmemFree k n.paddr n.size ⟨n :: rest, b :: bs, calls⟩
      = ⟨rest, bs, calls ++ [⟨b.vaddr, b.order, n :: rest, b :: bs⟩]⟩ := by
  have hvaddr : k.physToVirt n.paddr = b.vaddr := congrArg Prod.fst hkey
  have horder : k.getOrder n.size = b.order := congrArg Prod.snd hkey
  simp [pmemFree, freePages, delPmemNode, hvaddr, horder]

/-- Freeing the first node frees its pages and unlinks it, whatever the others are: the search by
address stops at the first node it looks at. -/
theorem pmemFree_firstNode {n : PmemNode} {rest : List PmemNode} (hhead : m.head = n :: rest) :
    (pmemFree k n.paddr n.size m).head = rest ∧
      ∃ c, (pmemFree k n.paddr n.size m).calls = m.calls ++ [c] ∧ c.key = k.nodeKey n := by
  constructor
  · rw [pmemFree_head, hhead]
    exact List.eraseP_cons_of_pos (decide_eq_true rfl)
  · exact ⟨_, pmemFree_calls k n.paddr n.size m, rfl⟩

/-- The loop is over with an empty list. -/
theorem freePmemNodes_nil (fuel : ℕ) (hhead : m.head = []) : freePmemNodes k fuel m = m := by
  cases fuel with
  | zero => rfl
  | succ fuel => simp only [freePmemNodes, hhead]

theorem freePmemNodes_cons {n : PmemNode} {rest : List PmemNode} (fuel : ℕ)
    (hhead : m.head = n :: rest) :
    freePmemNodes k (fuel + 1) m = freePmemNodes k fuel (pmemFree k n.paddr n.size m) := by
  simp only [freePmemNodes, hhead]

/-- **`free_pmem_nodes` ends**, whatever the list is: after a turn for each node it stands at the
empty list, and it has given back the pages of each node once, with the address and the order of
that node. -/
theorem freePmemNodes_ends (k : Kernel) (m : Pmem) :
    ∃ (t : Pmem) (cs : List FreeCall),
      (∀ extra, freePmemNodes k (m.head.length + extra) m = t) ∧ t.head = [] ∧
        t.calls = m.calls ++ cs ∧ cs.map FreeCall.key = m.head.map k.nodeKey := by
  -- on the list; the calls and the blocks change with each turn
  generalize hhead : m.head = head
  induction head generalizing m with
  | nil =>
    refine ⟨m, [], ?_, hhead, (List.append_nil _).symm, rfl⟩
    intro extra
    exact freePmemNodes_nil _ hhead
  | cons n rest ih =>
    obtain ⟨hrest, c, hcall, hkey⟩ := pmemFree_firstNode (k := k) hhead
    obtain ⟨t, cs, hends, hnil, hcalls, hkeys⟩ := ih (pmemFree k n.paddr n.size m) hrest
    refine ⟨t, c :: cs, ?_, hnil, ?_, ?_⟩
    · intro extra
      have hfuel : (n :: rest).length + extra = rest.length + extra + 1 := Nat.succ_add _ _
      rw [hfuel, freePmemNodes_cons _ hhead, hends extra]
    · rw [hcalls, hcall, List.append_assoc]
      rfl
    · rw [List.map_cons, List.map_cons, hkey, hkeys]

/-- **`free_pmem_nodes` gives back every block**, in proper calls, and leaves the list empty: the
loop ends by its condition. -/
theorem freePmemNodes_eq (h : Matched k m) :
    ∃ cs, freePmemNodes k m.head.length m = ⟨[], [], m.calls ++ cs⟩ ∧
      cs.map FreeCall.key = m.blocks.map Block.key ∧ ∀ c ∈ cs, c.Proper k := by
  obtain ⟨head, blocks, calls⟩ := m
  -- the blocks and the calls change with each node that is freed
  induction head generalizing blocks calls with
  | nil =>
    have hnil : blocks = [] := List.map_eq_nil_iff.mp h.symm
    exact ⟨[], by rw [hnil, List.append_nil]; rfl, by rw [hnil]; rfl, fun c hc => nomatch hc⟩
  | cons n rest ih =>
    cases blocks with
    | nil => exact absurd h (List.cons_ne_nil _ _)
    | cons b bs =>
      obtain ⟨hkey, hrest⟩ := List.cons.inj h
      obtain ⟨cs, heq, hkeys, hproper⟩ :=
        ih bs (calls ++ [⟨b.vaddr, b.order, n :: rest, b :: bs⟩]) hrest
      refine ⟨⟨b.vaddr, b.order, n :: rest, b :: bs⟩ :: cs, ?_, ?_, ?_⟩
      · show freePmemNodes k rest.length (pmemFree k n.paddr n.size _) = _
        rw [pmemFree_first calls hkey, heq, List.append_assoc]
        rfl
      · show b.key :: cs.map FreeCall.key = b.key :: bs.map Block.key
        rw [hkeys]
      · intro c hc
        rcases List.mem_cons.mp hc with rfl | hc
        · exact ⟨List.mem_map.mpr ⟨n, List.mem_cons_self, hkey⟩,
            List.mem_map.mpr ⟨b, List.mem_cons_self, rfl⟩⟩
        · exact hproper c hc

end Calls

/-! ### Runs -/

/-- The operation is a free of a listed block, an allocation with memory for its node, or
another. -/
def FileOp.Proper (k : Kernel) (s : Driver) : FileOp → Prop
  | .pmemFree _ arg => FreesListed k s.pmem arg
  | .pmemAlloc _ arg env => NodeAllocated k env arg
  | .open _ _ | .close _ => True

/-- What the page allocator promises of each operation. -/
def FileOp.Fresh (k : Kernel) (s : Driver) : FileOp → Prop
  | .pmemAlloc _ arg env => PagesFresh k s.pmem env arg
  | .pmemFree _ _ | .open _ _ | .close _ => True

instance (k : Kernel) (s : Driver) : ∀ a : FileOp, Decidable (a.Proper k s)
  | .pmemFree _ arg => inferInstanceAs (Decidable (FreesListed k s.pmem arg))
  | .pmemAlloc _ arg env => inferInstanceAs (Decidable (NodeAllocated k env arg))
  | .open _ _ | .close _ => inferInstanceAs (Decidable True)

instance (k : Kernel) (s : Driver) : ∀ a : FileOp, Decidable (a.Fresh k s)
  | .pmemAlloc _ arg env => inferInstanceAs (Decidable (PagesFresh k s.pmem env arg))
  | .pmemFree _ _ | .open _ _ | .close _ => inferInstanceAs (Decidable True)

/-- An open leaves the memory alone. -/
theorem kdmaFileOpen_pmem (file dev : ℕ) (s : Driver) :
    (kdmaFileOpen file dev s).2.pmem = s.pmem := by
  unfold kdmaFileOpen
  split
  · rfl
  · rfl

/-- **What one operation does** to an open file, or that its file is new. -/
theorem fileStep_cases {k : Kernel} {s t : Driver} {a : FileOp} (h : fileStep k s a = some t) :
    (∃ file dev, a = .open file dev ∧ t = (kdmaFileOpen file dev s).2) ∨
    (∃ file arg env, a = .pmemAlloc file arg env ∧ (s.privateData file).isSome ∧
      t = { s with pmem := (ioctlPmemAlloc k env file arg s.pmem).2.2 }) ∨
    (∃ file arg, a = .pmemFree file arg ∧ (s.privateData file).isSome ∧
      t = { s with pmem := (ioctlPmemFree k arg s.pmem).2 }) ∨
    ∃ file, a = .close file ∧ (s.privateData file).isSome ∧ t = kdmaFileClose k file s := by
  cases a with
  | «open» file dev =>
    simp only [fileStep] at h
    split at h
    · cases h
    · exact Or.inl ⟨file, dev, rfl, (Option.some.inj h).symm⟩
  | pmemAlloc file arg env =>
    simp only [fileStep] at h
    split at h
    · exact Or.inr (Or.inl ⟨file, arg, env, rfl, ‹_›, (Option.some.inj h).symm⟩)
    · cases h
  | pmemFree file arg =>
    simp only [fileStep] at h
    split at h
    · exact Or.inr (Or.inr (Or.inl ⟨file, arg, rfl, ‹_›, (Option.some.inj h).symm⟩))
    · cases h
  | close file =>
    simp only [fileStep] at h
    split at h
    · exact Or.inr (Or.inr (Or.inr ⟨file, rfl, ‹_›, (Option.some.inj h).symm⟩))
    · cases h

/-- **One operation keeps the list and the blocks together.** -/
theorem fileStep_matched {k : Kernel} {s t : Driver} {a : FileOp} (h : Matched k s.pmem)
    (hstep : fileStep k s a = some t) : Matched k t.pmem := by
  rcases fileStep_cases hstep with ⟨file, dev, -, rfl⟩ | ⟨file, arg, env, -, -, rfl⟩ |
    ⟨file, arg, -, -, rfl⟩ | ⟨file, -, -, rfl⟩
  · rw [kdmaFileOpen_pmem]
    exact h
  · exact (ioctlPmemAlloc_spec h env file arg).1
  · exact (ioctlPmemFree_spec h arg).1
  · obtain ⟨cs, heq, -⟩ := freePmemNodes_eq h
    show Matched k (freePmemNodes k s.pmem.head.length s.pmem)
    rw [heq]
    rfl

/-- **One operation keeps the calls proper exactly if it is proper.** -/
theorem fileStep_callsProper {k : Kernel} {s t : Driver} {a : FileOp} (h : Matched k s.pmem)
    (hfresh : a.Fresh k s) (hstep : fileStep k s a = some t) :
    CallsProper k t.pmem ↔ CallsProper k s.pmem ∧ a.Proper k s := by
  rcases fileStep_cases hstep with ⟨file, dev, rfl, rfl⟩ | ⟨file, arg, env, rfl, -, rfl⟩ |
    ⟨file, arg, rfl, -, rfl⟩ | ⟨file, rfl, -, rfl⟩
  · rw [kdmaFileOpen_pmem]
    exact (and_iff_left trivial).symm
  · exact (ioctlPmemAlloc_spec h env file arg).2 hfresh
  · exact (ioctlPmemFree_spec h arg).2
  · obtain ⟨cs, heq, -, hproper⟩ := freePmemNodes_eq h
    have hcalls : (kdmaFileClose k file s).pmem.calls = s.pmem.calls ++ cs :=
      congrArg Pmem.calls heq
    rw [callsProper_append hcalls]
    exact and_congr_right fun _ => iff_of_true hproper trivial

theorem matched_start (k : Kernel) (bits : BitVec 32) : Matched k (Driver.start bits).pmem := rfl

/-- **In which runs the bookkeeping is exact**: those whose frees all name listed blocks, and whose
allocations have memory for the node wherever there are pages. -/
theorem exact_iff {k : Kernel} {bits : BitVec 32} {ops : List FileOp} {s : Driver}
    (hfresh : EachStep (fileStep k) (fun s a => a.Fresh k s) (Driver.start bits) ops)
    (hrun : run (fileStep k) (Driver.start bits) ops = some s) :
    Exact k s.pmem ↔ EachStep (fileStep k) (fun s a => a.Proper k s) (Driver.start bits) ops := by
  have hmatched : Matched k s.pmem :=
    run_invariant (fun s => Matched k s.pmem) (fun _ _ _ h hstep => fileStep_matched h hstep)
      (matched_start k bits) hrun
  have hcalls : CallsProper k s.pmem ↔
      CallsProper k (Driver.start bits).pmem ∧ EachStep (fileStep k) _ (Driver.start bits) ops :=
    run_iff_eachStep (fun s => Matched k s.pmem) (fun s => CallsProper k s.pmem)
      (fun _ _ _ h hstep => fileStep_matched h hstep)
      (fun _ _ _ h hA hstep => fileStep_callsProper h hA hstep) (matched_start k bits) hfresh hrun
  have hnone : CallsProper k (Driver.start bits).pmem := fun c hc => nomatch hc
  rw [← (and_iff_right hnone : _ ↔ EachStep _ _ _ _), ← hcalls]
  constructor
  · intro h
    exact h.calls
  · intro h
    have heq : s.pmem.head.map k.nodeKey = s.pmem.blocks.map Block.key := hmatched
    exact ⟨heq ▸ List.Perm.refl _, h⟩

/-- The linear map of a 64-bit kernel, with pages of 4096 bytes. -/
def linux : Kernel where
  pageOffset := 0xffff880000000000
  getOrder size :=
    let pages := (size - 1).toNat / 4096
    if pages = 0 then 0 else pages.log2 + 1

/-- Pages at one address, and success of all else. -/
def onePage : PageEnv where
  getFreePages _ := 0xffff880000100000
  allocPagesExactNode _ _ := some 0xffff880000100000
  kmalloc := true
  toUser := true

/-- Two pages allocated, given back, allocated again and left to the close. -/
def twoPages : List FileOp :=
  [.open 0 0, .pmemAlloc 0 (some ⟨0, 2048, -1⟩) onePage, .pmemFree 0 (some ⟨0x100000, 2048, -1⟩),
    .pmemAlloc 0 (some ⟨0, 1024, 0⟩) onePage, .close 0]

theorem exact_iff_twoPages :
    ∃ s, run (fileStep linux) (Driver.start 1) twoPages = some s ∧ Exact linux s.pmem := by
  have hsome : (run (fileStep linux) (Driver.start 1) twoPages).isSome = true := by decide +kernel
  obtain ⟨s, hs⟩ := Option.isSome_iff_exists.mp hsome
  exact ⟨s, hs, (exact_iff (by decide +kernel) hs).mpr (by decide +kernel)⟩

/-- **A free of what was never allocated** goes to the page allocator before the list is
searched. -/
theorem neverAllocated_freed :
    ∃ s, run (fileStep linux) (Driver.start 1)
        [.open 0 0, .pmemFree 0 (some ⟨0x1000, 1024, 0⟩)] = some s ∧ ¬ Exact linux s.pmem := by
  refine ⟨_, rfl, ?_⟩
  intro h
  have hcall := h.calls ⟨0xffff880000001000, 0, [], []⟩ (by decide +kernel)
  exact absurd hcall.1 List.not_mem_nil

end VPcie.Kdma
