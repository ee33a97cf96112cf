import Mathlib.Data.Nat.Bitwise
import Mathlib.Tactic.Common

/-!
# BAR accesses of the kdma driver

`check_bar_access` of `kdma.c` and the two ioctls that use it.  The kernel calls around them may
fail: their results are arguments.

* `checkBarAccess_mapped` — what the check accepts in a mapped BAR;
* `wordAddrs_between`, `ioctl_inside` — the loops over the words stay in the range that was checked;
* `staysInside_iff` — when the check is the inequality of integers, and the accesses stay in the
  BAR.
-/

namespace VPcie.Kdma

/-! ### The driver -/

/-- `nbar`. -/
abbrev nbar : ℕ := 6

/-- `kdma_dev_t`: the mapped base addresses and sizes; 0 where a BAR is not mapped. -/
structure KdmaDev where
  vadr : Fin nbar → BitVec 64
  len : Fin nbar → BitVec 64

/-- `kdma_ioctl_readwrite_t` without the host address, which only the copies use. -/
structure ReadWrite where
  bar : BitVec 32
  off : BitVec 64
  word32Count : BitVec 32

/-- `check_bar_access`. -/
def checkBarAccess (dev : KdmaDev) (bar : BitVec 32) (off : BitVec 64) (word32Count : BitVec 32) :
    Int :=
  if h : bar.toNat < nbar then
    let vadr := dev.vadr ⟨bar.toNat, h⟩
    if vadr = 0 then 0
    -- size in bytes, checks for overflow
    else if 0xffffffff / 4 < word32Count.toNat then -1
    else
      let size : BitVec 64 := word32Count.setWidth 64 * 4
      -- arithmetic overflows
      let barAddr := vadr + off
      if barAddr < vadr then -1
      else if barAddr + size < barAddr then -1
      -- bar range overflow
      else if off + size > dev.len ⟨bar.toNat, h⟩ then -1
      -- off alignment
      else if off &&& 3 ≠ 0 then -1
      else 0
  else -1

/-- An access to the memory of a BAR. -/
inductive Mmio where
  | readl (addr : BitVec 64)
  | writel (data : BitVec 32) (addr : BitVec 64)
deriving DecidableEq, Repr

/-- The address of an access. -/
def Mmio.addr : Mmio → BitVec 64
  | .readl addr => addr
  | .writel _ addr => addr

/-- `dev->vadr[bar]`, where there is one. -/
def KdmaDev.base (dev : KdmaDev) (bar : BitVec 32) : BitVec 64 :=
  if h : bar.toNat < nbar then dev.vadr ⟨bar.toNat, h⟩ else 0

/-- The loop of `read_bar_safe`: the accesses, and the words at `addr`. -/
def readLoop (readl : BitVec 64 → BitVec 32) : ℕ → BitVec 64 → List Mmio × List (BitVec 32)
  | 0, _ => ([], [])
  | n + 1, p =>
    let rest := readLoop readl n (p + 4)
    (.readl p :: rest.1, readl p :: rest.2)

/-- `read_bar_safe`. -/
def readBarSafe (readl : BitVec 64 → BitVec 32) (dev : KdmaDev) (arg : ReadWrite) :
    List Mmio × List (BitVec 32) :=
  readLoop readl arg.word32Count.toNat (dev.base arg.bar + arg.off)

/-- The loop of `write_bar_safe` over the words at `addr`. -/
def writeLoop : List (BitVec 32) → BitVec 64 → List Mmio
  | [], _ => []
  | w :: ws, p => .writel w p :: writeLoop ws (p + 4)

/-- `write_bar_safe`; the buffer holds that many words. -/
def writeBarSafe (dev : KdmaDev) (arg : ReadWrite) (buf : ℕ → BitVec 32) : List Mmio :=
  writeLoop ((List.range arg.word32Count.toNat).map buf) (dev.base arg.bar + arg.off)

def efault : Int := -14
def enomem : Int := -12

/-- The kernel calls of the two ioctls: whether `kmalloc` returns memory, what `readl` reads, what
the copy of the words leaves in the buffer unless it fails, and whether the copy to the user
succeeds. -/
structure IoEnv where
  kmalloc : Bool
  readl : BitVec 64 → BitVec 32
  fromUser : Option (ℕ → BitVec 32)
  toUser : Bool

/-- The buffer of the words: `kmalloc`ed if one word does not hold them. -/
def IoEnv.buffer (env : IoEnv) (arg : ReadWrite) : Bool :=
  decide (arg.word32Count.toNat * 4 ≤ 4) || env.kmalloc

/-- `KDMA_IOCTL_READ_BAR`: the result, the accesses, and the words copied to the user. -/
def ioctlReadBar (dev : KdmaDev) (arg : Option ReadWrite) (env : IoEnv) :
    Int × List Mmio × List (BitVec 32) :=
  match arg with
  | none => (efault, [], [])
  | some arg =>
    if checkBarAccess dev arg.bar arg.off arg.word32Count = -1 then (efault, [], [])
    else if env.buffer arg then
      let words := readBarSafe env.readl dev arg
      if env.toUser then (0, words) else (efault, words.1, [])
    else (enomem, [], [])

/-- `KDMA_IOCTL_WRITE_BAR`: the result and the accesses. -/
def ioctlWriteBar (dev : KdmaDev) (arg : Option ReadWrite) (env : IoEnv) : Int × List Mmio :=
  match arg with
  | none => (efault, [])
  | some arg =>
    if checkBarAccess dev arg.bar arg.off arg.word32Count = -1 then (efault, [])
    else if env.buffer arg then
      match env.fromUser with
      | some buf => (0, writeBarSafe dev arg buf)
      | none => (efault, [])
    else (enomem, [])

/-! ### What an access may do -/

/-- The driver's BARs end within the address space. -/
def KdmaDev.Fits (dev : KdmaDev) : Prop := ∀ b, (dev.vadr b).toNat + (dev.len b).toNat ≤ 2 ^ 64

/-- The access is to a mapped BAR, aligned, and inside it. -/
def Allowed (dev : KdmaDev) (arg : ReadWrite) : Prop :=
  ∃ h : arg.bar.toNat < nbar, dev.vadr ⟨arg.bar.toNat, h⟩ ≠ 0 ∧ arg.off.toNat % 4 = 0 ∧
    arg.off.toNat + 4 * arg.word32Count.toNat ≤ (dev.len ⟨arg.bar.toNat, h⟩).toNat

/-- The four bytes of each access are in the BAR. -/
def InBar (dev : KdmaDev) (arg : ReadWrite) (io : List Mmio) : Prop :=
  ∀ a ∈ io, ∃ h : arg.bar.toNat < nbar,
    (dev.vadr ⟨arg.bar.toNat, h⟩).toNat ≤ a.addr.toNat ∧
    a.addr.toNat + 4 ≤ (dev.vadr ⟨arg.bar.toNat, h⟩).toNat + (dev.len ⟨arg.bar.toNat, h⟩).toNat

/-- The check tells the allowed accesses, and both ioctls stay in the BAR. -/
structure StaysInside (dev : KdmaDev) (arg : ReadWrite) : Prop where
  check : checkBarAccess dev arg.bar arg.off arg.word32Count = 0 ↔ Allowed dev arg
  read : ∀ env, InBar dev arg (ioctlReadBar dev (some arg) env).2.1
  write : ∀ env, InBar dev arg (ioctlWriteBar dev (some arg) env).2

/-! ### The check -/

theorem low_bits (off : BitVec 64) : off &&& 3 = 0 ↔ off.toNat % 4 = 0 := by
  rw [← BitVec.toNat_inj, BitVec.toNat_and]
  show off.toNat &&& 2 ^ 2 - 1 = 0 ↔ _
  rw [Nat.and_two_pow_sub_one_eq_mod]

/-- The bytes of the words, without overflow. -/
theorem size_toNat (count : BitVec 32) :
    (count.setWidth 64 * 4 : BitVec 64).toNat = count.toNat * 4 := by
  have hcount := count.isLt
  rw [BitVec.toNat_mul, BitVec.toNat_setWidth]
  show count.toNat % 2 ^ 64 * 4 % 2 ^ 64 = _
  omega

/-- **What the check accepts in a mapped BAR**: the words in it, but not more than the 32-bit size
allows, and not up to the end of the address space. -/
theorem checkBarAccess_mapped {dev : KdmaDev} {arg : ReadWrite} (h : arg.bar.toNat < nbar)
    (hvadr : dev.vadr ⟨arg.bar.toNat, h⟩ ≠ 0) :
    checkBarAccess dev arg.bar arg.off arg.word32Count = 0 ↔
      arg.off.toNat % 4 = 0 ∧
      arg.off.toNat + 4 * arg.word32Count.toNat ≤ (dev.len ⟨arg.bar.toNat, h⟩).toNat ∧
      arg.word32Count.toNat ≤ 0x3fffffff ∧
      (dev.vadr ⟨arg.bar.toNat, h⟩).toNat + arg.off.toNat + 4 * arg.word32Count.toNat < 2 ^ 64 := by
  have hpos : (dev.vadr ⟨arg.bar.toNat, h⟩).toNat ≠ 0 := by
    intro hzero
    exact hvadr (BitVec.eq_of_toNat_eq hzero)
  have hv := (dev.vadr ⟨arg.bar.toNat, h⟩).isLt
  have hoff := arg.off.isLt
  have hcount := arg.word32Count.isLt
  have hlen := (dev.len ⟨arg.bar.toNat, h⟩).isLt
  rw [checkBarAccess, dif_pos h]
  simp only [if_neg hvadr, BitVec.lt_def, gt_iff_lt, BitVec.toNat_add, size_toNat, ne_eq, low_bits]
  split_ifs <;> simp only [false_iff, true_iff] <;> omega

/-- An unmapped BAR is not checked. -/
theorem checkBarAccess_unmapped {dev : KdmaDev} {arg : ReadWrite} (h : arg.bar.toNat < nbar)
    (hvadr : dev.vadr ⟨arg.bar.toNat, h⟩ = 0) :
    checkBarAccess dev arg.bar arg.off arg.word32Count = 0 := by
  rw [checkBarAccess, dif_pos h]
  exact if_pos hvadr

/-- There is no other BAR. -/
theorem checkBarAccess_invalid {dev : KdmaDev} {arg : ReadWrite} (h : ¬ arg.bar.toNat < nbar) :
    checkBarAccess dev arg.bar arg.off arg.word32Count = -1 := dif_neg h

/-- The result is one or the other. -/
theorem checkBarAccess_cases (dev : KdmaDev) (bar : BitVec 32) (off : BitVec 64)
    (count : BitVec 32) :
    checkBarAccess dev bar off count = 0 ∨ checkBarAccess dev bar off count = -1 := by
  unfold checkBarAccess
  by_cases h : bar.toNat < nbar
  · rw [dif_pos h]
    dsimp only
    split_ifs <;> decide
  · rw [dif_neg h]
    exact Or.inr rfl

/-! ### The loops -/

/-- The addresses of a loop over `n` words from `p` on, one after the other. -/
def wordAddrs : ℕ → BitVec 64 → List (BitVec 64)
  | 0, _ => []
  | n + 1, p => p :: wordAddrs n (p + 4)

theorem readLoop_addrs (readl : BitVec 64 → BitVec 32) (n : ℕ) (p : BitVec 64) :
    (readLoop readl n p).1.map Mmio.addr = wordAddrs n p := by
  induction n generalizing p with
  | zero => rfl
  | succ n ih => exact congrArg (List.cons p) (ih (p + 4))

theorem writeLoop_addrs (ws : List (BitVec 32)) (p : BitVec 64) :
    (writeLoop ws p).map Mmio.addr = wordAddrs ws.length p := by
  induction ws generalizing p with
  | nil => rfl
  | cons w ws ih => exact congrArg (List.cons p) (ih (p + 4))

/-- **A loop over words stays between its ends**, if these are in the address space. -/
theorem wordAddrs_between (n : ℕ) (p : BitVec 64) (hfit : p.toNat + 4 * n ≤ 2 ^ 64) :
    ∀ a ∈ wordAddrs n p, p.toNat ≤ a.toNat ∧ a.toNat + 4 ≤ p.toNat + 4 * n := by
  induction n generalizing p with
  | zero =>
    intro a ha
    exact absurd ha List.not_mem_nil
  | succ n ih =>
    intro a ha
    rcases List.mem_cons.mp ha with rfl | ha
    · omega
    · rcases Nat.eq_zero_or_pos n with rfl | hn
      · exact absurd ha List.not_mem_nil
      · have hnext : (p + 4).toNat = p.toNat + 4 := by
          rw [BitVec.toNat_add]
          show (p.toNat + 4) % 2 ^ 64 = _
          omega
        have hbetween := ih (p + 4) (by omega) a ha
        omega

/-- The accesses of a loop over an allowed range are in the BAR. -/
theorem inBar_of_addrs {dev : KdmaDev} (hdev : dev.Fits) {arg : ReadWrite} (h : Allowed dev arg)
    {io : List Mmio}
    (hio : io.map Mmio.addr = wordAddrs arg.word32Count.toNat (dev.base arg.bar + arg.off)) :
    InBar dev arg io := by
  obtain ⟨hbar, -, -, hrange⟩ := h
  have hfits := hdev ⟨arg.bar.toNat, hbar⟩
  have hbase : dev.base arg.bar = dev.vadr ⟨arg.bar.toNat, hbar⟩ := dif_pos hbar
  intro a ha
  have hmem := hio ▸ List.mem_map_of_mem ha
  refine ⟨hbar, ?_⟩
  -- an access at all, so the base and the offset do not wrap
  have hcount : 0 < arg.word32Count.toNat := by
    rcases Nat.eq_zero_or_pos arg.word32Count.toNat with hzero | hpos
    · rw [hzero] at hmem
      exact absurd hmem List.not_mem_nil
    · exact hpos
  have hstart : (dev.base arg.bar + arg.off).toNat
      = (dev.vadr ⟨arg.bar.toNat, hbar⟩).toNat + arg.off.toNat := by
    rw [hbase, BitVec.toNat_add]
    omega
  have hbetween := wordAddrs_between _ _ (by omega) _ hmem
  omega

/-- **The accesses of an ioctl are allowed, or there are none.** -/
theorem ioctl_inside {dev : KdmaDev} (hdev : dev.Fits) {arg : ReadWrite}
    (h : checkBarAccess dev arg.bar arg.off arg.word32Count = 0 → Allowed dev arg) :
    (∀ env, InBar dev arg (ioctlReadBar dev (some arg) env).2.1) ∧
      ∀ env, InBar dev arg (ioctlWriteBar dev (some arg) env).2 := by
  have hnone : InBar dev arg [] := fun a ha => absurd ha List.not_mem_nil
  rcases checkBarAccess_cases dev arg.bar arg.off arg.word32Count with hcheck | hcheck
  · have hallowed := h hcheck
    have hne : checkBarAccess dev arg.bar arg.off arg.word32Count ≠ -1 := by omega
    refine ⟨?_, ?_⟩
    · intro env
      have hread : InBar dev arg (readBarSafe env.readl dev arg).1 :=
        inBar_of_addrs hdev hallowed (readLoop_addrs _ _ _)
      simp only [ioctlReadBar, if_neg hne]
      split
      · split
        · exact hread
        · exact hread
      · exact hnone
    · intro env
      simp only [ioctlWriteBar, if_neg hne]
      split
      · split
        · rename_i buf _
          refine inBar_of_addrs hdev hallowed ?_
          rw [writeBarSafe, writeLoop_addrs, List.length_map, List.length_range]
        · exact hnone
      · exact hnone
  · refine ⟨?_, ?_⟩
    · intro env
      simp only [ioctlReadBar, if_pos hcheck]
      exact hnone
    · intro env
      simp only [ioctlWriteBar, if_pos hcheck]
      exact hnone

/-- **When an ioctl access stays inside a mapped BAR**: the BAR is mapped, and an allowed access has
a 32-bit size and ends before the address space does. -/
theorem staysInside_iff {dev : KdmaDev} (hdev : dev.Fits) (arg : ReadWrite) :
    StaysInside dev arg ↔
      (∀ h : arg.bar.toNat < nbar, dev.vadr ⟨arg.bar.toNat, h⟩ ≠ 0) ∧
      (Allowed dev arg → arg.word32Count.toNat ≤ 0x3fffffff ∧
        (dev.base arg.bar).toNat + arg.off.toNat + 4 * arg.word32Count.toNat < 2 ^ 64) := by
  constructor
  · intro h
    refine ⟨?_, ?_⟩
    · intro hbar hzero
      obtain ⟨_, hmapped, _⟩ := h.check.mp (checkBarAccess_unmapped hbar hzero)
      exact hmapped hzero
    · intro hallowed
      have hbar := hallowed.choose
      have hmapped := hallowed.choose_spec.1
      have hcheck := (checkBarAccess_mapped hbar hmapped).mp (h.check.mpr hallowed)
      rw [KdmaDev.base, dif_pos hbar]
      exact hcheck.2.2
  · rintro ⟨hmapped, hcorner⟩
    have hiff : checkBarAccess dev arg.bar arg.off arg.word32Count = 0 ↔ Allowed dev arg := by
      by_cases hbar : arg.bar.toNat < nbar
      · rw [checkBarAccess_mapped hbar (hmapped hbar)]
        constructor
        · rintro ⟨halign, hrange, -, -⟩
          exact ⟨hbar, hmapped hbar, halign, hrange⟩
        · intro hallowed
          obtain ⟨hcount, hend⟩ := hcorner hallowed
          obtain ⟨_, _, halign, hrange⟩ := hallowed
          rw [KdmaDev.base, dif_pos hbar] at hend
          exact ⟨halign, hrange, hcount, hend⟩
      · rw [checkBarAccess_invalid hbar]
        exact ⟨fun hc => absurd hc (by decide), fun hallowed => absurd hallowed.choose hbar⟩
    obtain ⟨hread, hwrite⟩ := ioctl_inside hdev hiff.mp
    exact ⟨hiff, hread, hwrite⟩

/-- A driver with BAR 1 of 0x100 bytes mapped. -/
def oneBar : KdmaDev where
  vadr b := if b = 1 then 0xffffc90000000000 else 0
  len b := if b = 1 then 0x100 else 0

theorem staysInside_oneBar : StaysInside oneBar ⟨1, 0x10, 4⟩ := by
  have hfits : oneBar.Fits := by
    unfold KdmaDev.Fits
    decide
  refine (staysInside_iff hfits _).mpr ⟨?_, ?_⟩
  · intro _
    show (0xffffc90000000000 : BitVec 64) ≠ 0
    decide
  · intro _
    decide +kernel

/-- **An unmapped BAR gives access to any address**: the check passes, the offset is the address. -/
theorem unmappedBar_escapes : ¬ StaysInside oneBar ⟨0, 0xffffffff81000000, 1⟩ := by
  intro h
  obtain ⟨_, hmapped, _⟩ := h.check.mp (by decide +kernel)
  exact hmapped rfl

end VPcie.Kdma
