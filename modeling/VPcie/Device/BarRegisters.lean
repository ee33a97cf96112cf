import VPcie.Device.ConfigSpace

/-!
# What the BAR registers can hold

The comment of `on_write_config` promises that the non decoded (low) bits of a BAR register are
cleared.  Only the all-ones probe is masked, so an ordinary write can set them.  This file says
exactly when it does: the registers hold decoded bits only, in every state of a run, if and only if
no default write of the run carries a set bit at a position the BAR does not decode.

* `onWriteConfig_barsDecoded` — the step lemma;
* `barsDecoded_iff` — the run theorem, and `barsDecoded_fails` a run that leaves the invariant.
-/

namespace VPcie.Device

open VPcie.Lib VPcie.Net

variable {κ : Type}

/-- The 32-bit word of BAR register `i`. -/
def barWord (dev : PcieDev κ) (i : Fin barCount) : BitVec 32 :=
  BitVec.ofNat 32 (leNat (load dev.config (0x10 + 4 * i.val) 4))

/-- A size a BAR can have: none, or a power of two of at least 16. -/
def ValidBarSize (size : BitVec 64) : Prop := size = 0 ∨ ∃ k, 4 ≤ k ∧ k < 64 ∧ size.toNat = 2 ^ k

/-- Every BAR register has its low `log2(bar_size)` bits zero, and is zero where there is no BAR. -/
def BarsDecoded (dev : PcieDev κ) : Prop :=
  ∀ i, (dev.barSize i ≠ 0 → ∀ j < Nat.log2 (dev.barSize i).toNat, (barWord dev i).getLsbD j = false)
    ∧ (dev.barSize i = 0 → barWord dev i = 0)

/-- Bit `j` of a BAR of this size is not decoded. -/
def Undecoded (size : BitVec 64) (j : ℕ) : Prop :=
  j < 32 ∧ (size = 0 ∨ j < Nat.log2 size.toNat)

/-- If the message takes the default write, its payload is zero at every undecoded bit of every BAR
byte it covers. -/
def KeepsUndecoded (size : Fin barCount → BitVec 64) (msg : PcieNetMsg) : Prop :=
  StandardWrite msg → ∀ i j, Undecoded (size i) j →
    msg.addr.toNat ≤ 0x10 + 4 * i.val + j / 8 →
    0x10 + 4 * i.val + j / 8 < msg.addr.toNat + msg.width.toNat →
    (msg.data (0x10 + 4 * i.val + j / 8 - msg.addr.toNat)).getLsbD (j % 8) = false

/-! ### Bits of a register -/

theorem barWord_bit (dev : PcieDev κ) (i : Fin barCount) (j : ℕ) (hj : j < 32) :
    (barWord dev i).getLsbD j = (dev.config (0x10 + 4 * i.val + j / 8)).getLsbD (j % 8) := by
  rw [barWord, BitVec.getLsbD_ofNat, leNat_testBit, load_getD _ _ _ _ (by omega)]
  simp [hj]

theorem barsDecoded_iff_bits (dev : PcieDev κ) :
    BarsDecoded dev ↔ ∀ i j, Undecoded (dev.barSize i) j →
      (dev.config (0x10 + 4 * i.val + j / 8)).getLsbD (j % 8) = false := by
  constructor
  · intro h i j hj
    rw [← barWord_bit dev i j hj.1]
    rcases hj.2 with h0 | hlog
    · rw [(h i).2 h0]
      simp
    · by_cases h0 : dev.barSize i = 0
      · rw [(h i).2 h0]
        simp
      · exact (h i).1 h0 j hlog
  · intro h i
    have hbit : ∀ j, Undecoded (dev.barSize i) j → (barWord dev i).getLsbD j = false := by
      intro j hj
      rw [barWord_bit dev i j hj.1]
      exact h i j hj
    constructor
    · intro _ j hj
      by_cases h32 : j < 32
      · exact hbit j ⟨h32, Or.inr hj⟩
      · exact BitVec.getLsbD_of_ge _ j (by omega)
    · intro h0
      apply BitVec.eq_of_getLsbD_eq
      intro j hj
      rw [hbit j ⟨hj, Or.inl h0⟩]
      simp

/-- The probe value is clear at every undecoded bit. -/
theorem probeValue_undecoded {size : BitVec 64} (hvalid : ValidBarSize size) (h0 : size ≠ 0) {j : ℕ}
    (hj : Undecoded size j) : (probeValue size).getLsbD j = false := by
  obtain ⟨k, _, hk, hpow⟩ := hvalid.resolve_left h0
  have hlog : j < k := by
    have h := hj.2.resolve_left h0
    rwa [hpow, Nat.log2_two_pow] at h
  have hones : (size.setWidth 32 - 1).getLsbD j = true := by
    by_cases h32 : k < 32
    · have hval : size.setWidth 32 - 1 = BitVec.ofNat 32 (2 ^ k - 1) := by
        apply BitVec.eq_of_toNat_eq
        have hlt : 2 ^ k < 2 ^ 32 := Nat.pow_lt_pow_right (by omega) h32
        have hpos : 0 < 2 ^ k := Nat.two_pow_pos k
        rw [BitVec.toNat_sub, BitVec.toNat_setWidth, hpow, BitVec.toNat_ofNat]
        simp only [BitVec.reduceToNat]
        omega
      rw [hval, BitVec.getLsbD_ofNat, Nat.testBit_two_pow_sub_one]
      simp [hj.1, hlog]
    · have hzero : size.setWidth 32 = 0 := by
        apply BitVec.eq_of_toNat_eq
        have hdvd : 2 ^ 32 ∣ 2 ^ k := Nat.pow_dvd_pow 2 (by omega)
        rw [BitVec.toNat_setWidth, hpow, Nat.mod_eq_zero_of_dvd hdvd]
        rfl
      have hall : (0 : BitVec 32) - 1 = BitVec.allOnes 32 := by decide
      rw [hzero, hall, BitVec.getLsbD_allOnes]
      simp [hj.1]
  rw [probeValue, BitVec.getLsbD_and, BitVec.getLsbD_not, hones]
  simp

/-! ### One message -/

/-- The bits of a BAR after bytes have been copied into the configuration space. -/
theorem config_store_bit (dev : PcieDev κ) (addr : BitVec 64) (bs : List Byte) (a : ℕ) :
    (pcieWriteConfigSafe dev addr bs).config a
      = if addr.toNat ≤ a ∧ a < addr.toNat + bs.length then bs.getD (a - addr.toNat) 0
        else dev.config a := rfl

/-- **Step lemma.**  From a state with decoded bits only, one config write leads to such a state if
and only if it keeps the undecoded bits. -/
theorem onWriteConfig_barsDecoded {dev : PcieDev κ} (hsize : ∀ i, ValidBarSize (dev.barSize i))
    (hdec : BarsDecoded dev) (msg : PcieNetMsg) :
    BarsDecoded (onWriteConfig dev msg) ↔ KeepsUndecoded dev.barSize msg := by
  rcases onWriteConfig_cases dev msg with ⟨hns, h⟩ | ⟨hns, i, haddr, h0, h⟩ | ⟨hs, h⟩
  · rw [h]
    exact ⟨fun _ hs => absurd hs hns, fun _ => hdec⟩
  · refine ⟨fun _ hs => absurd hs hns, fun _ => ?_⟩
    rw [h, barsDecoded_iff_bits]
    intro i' j hj
    rw [config_store_bit, leBytes_length]
    split
    · rename_i hin
      -- the probe covers one whole register, so this is a bit of the probed BAR
      have hi : i' = i := by
        have hlt : j / 8 < 4 := by have := hj.1; omega
        ext
        omega
      subst hi
      have hbit := leNat_testBit (leBytes 4 (probeValue (dev.barSize i')).toNat) j
      rw [leNat_leBytes] at hbit
      rw [haddr, Nat.add_sub_cancel_left, ← hbit,
        Nat.mod_eq_of_lt (show _ < 256 ^ 4 from (probeValue (dev.barSize i')).isLt)]
      exact probeValue_undecoded (hsize i') h0 hj
    · exact (barsDecoded_iff_bits dev).mp hdec i' j hj
  · rw [h, barsDecoded_iff_bits]
    constructor
    · intro hbits _ i j hj hlo hhi
      have hb := hbits i j hj
      rw [config_store_bit, load_length, if_pos ⟨hlo, hhi⟩, load_getD _ _ _ _ (by omega),
        Nat.zero_add] at hb
      exact hb
    · intro hkeep i j hj
      rw [config_store_bit, load_length]
      split
      · rename_i hin
        rw [load_getD _ _ _ _ (by omega), Nat.zero_add]
        exact hkeep hs i j hj hin.1 hin.2
      · exact (barsDecoded_iff_bits dev).mp hdec i j hj

/-! ### Runs -/

/-- A config write beside the BAR registers leaves them as they are. -/
theorem pcieWriteConfig_beside (dev : PcieDev κ) {addr : BitVec 64} {data : List Byte} {a : ℕ}
    (h : a < addr.toNat ∨ addr.toNat + data.length ≤ a) :
    (pcieWriteConfig dev addr data).config a = dev.config a := by
  unfold pcieWriteConfig
  split
  · rw [config_store_bit, if_neg (by omega)]
  · rfl

theorem initCommon_bar (mem : PcieDev κ) (a : ℕ) (hlo : 0x10 ≤ a) (hhi : a < 0x28) :
    (initCommon mem).config a = 0 := by
  simp only [initCommon, pcieWriteConfigByte, pcieWriteConfigWord, pcieWriteConfigLong]
  repeat rw [pcieWriteConfig_beside _ (by
    simp only [leBytes_length, pciHeaderType, pciClassRevision, pciStatus, pciCapabilityList,
      msiCapOff, BitVec.reduceToNat, BitVec.reduceMul, BitVec.reduceAdd]
    omega)]
  exact if_pos (by omega)

section Init

variable (mem : PcieDev κ) (vendorId deviceId : BitVec 16) (size : Fin barCount → BitVec 64)
  (onRead onWrite : Fin barCount → Option κ)

theorem deviceInit_barSize :
    (deviceInit mem vendorId deviceId size onRead onWrite).barSize = size := by
  funext i
  have h := (pcieSetBar_fold (pcieSetDeviceid (pcieSetVendorid (initCommon mem) vendorId) deviceId)
    size onRead onWrite (List.finRange barCount)).2 i
  rw [if_pos (List.mem_finRange i)] at h
  exact h.1

theorem deviceInit_config (a : ℕ) (hlo : 0x10 ≤ a) (hhi : a < 0x28) :
    (deviceInit mem vendorId deviceId size onRead onWrite).config a = 0 := by
  rw [deviceInit]
  simp only [(pcieSetBar_fold _ size onRead onWrite _).1]
  rw [pcieSetDeviceid, config_store_bit, if_neg, pcieSetVendorid, config_store_bit, if_neg,
    initCommon_bar mem a hlo hhi]
  · simp only [pciVendorId, leBytes_length, BitVec.reduceToNat]
    omega
  · simp only [pciDeviceId, leBytes_length, BitVec.reduceToNat]
    omega

theorem deviceInit_barsDecoded :
    BarsDecoded (deviceInit mem vendorId deviceId size onRead onWrite) := by
  rw [barsDecoded_iff_bits]
  intro i j hj
  have hlt : j / 8 < 4 := by have := hj.1; omega
  have hi : i.val < 6 := i.isLt
  rw [deviceInit_config mem vendorId deviceId size onRead onWrite _ (by omega) (by omega)]
  simp

end Init

/-- **Run theorem.**  The BAR registers hold decoded bits only in every state of a run of config
writes from the initial configuration space, if and only if every message keeps the undecoded
bits. -/
theorem barsDecoded_iff (mem : PcieDev κ) (vendorId deviceId : BitVec 16)
    (size : Fin barCount → BitVec 64) (onRead onWrite : Fin barCount → Option κ)
    (hsize : ∀ i, ValidBarSize (size i)) (msgs : List PcieNetMsg) :
    (∀ k, BarsDecoded ((msgs.take k).foldl onWriteConfig
        (deviceInit mem vendorId deviceId size onRead onWrite))) ↔
      ∀ m ∈ msgs, KeepsUndecoded size m := by
  have hdev := deviceInit_barSize mem vendorId deviceId size onRead onWrite
  have hdec := deviceInit_barsDecoded mem vendorId deviceId size onRead onWrite
  generalize deviceInit mem vendorId deviceId size onRead onWrite = dev at hdev hdec
  subst hdev
  induction msgs generalizing dev with
  | nil => simpa using hdec
  | cons m ms ih =>
    have hstep := onWriteConfig_barsDecoded hsize hdec m
    have hsize' : ∀ i, ValidBarSize ((onWriteConfig dev m).barSize i) := by
      rw [onWriteConfig_barSize]
      exact hsize
    constructor
    · intro h
      have hm := h 1
      rw [List.take_succ_cons, List.take_zero] at hm
      have hrest := (ih (onWriteConfig dev m) hm hsize').mp fun k => h (k + 1)
      rw [onWriteConfig_barSize] at hrest
      exact List.forall_mem_cons.mpr ⟨hstep.mp hm, hrest⟩
    · intro h k
      obtain ⟨hm, hms⟩ := List.forall_mem_cons.mp h
      rw [← onWriteConfig_barSize dev m] at hms
      cases k with
      | zero => exact hdec
      | succ k => exact (ih (onWriteConfig dev m) (hstep.mpr hm) hsize').mpr hms k

/-! ### The C DMA device -/

/-- The BARs `main_dma.c` sets: `0x100` bytes at BAR 1. -/
def dmaBars : Fin barCount → BitVec 64 := fun i => if i = 1 then 0x100 else 0

/-- The C DMA device before its loop; memory around it is taken to be zero. -/
def dmaDev : PcieDev Unit :=
  deviceInit ⟨fun _ => 0, fun _ => none, fun _ => none, fun _ => 0⟩ 0x2a2a 0x2b2b dmaBars
    (fun i => if i = 1 then some () else none) (fun i => if i = 1 then some () else none)

/-- An ordinary 4-byte write of `0x12345678` to BAR 1. -/
def bar1Write : PcieNetMsg where
  op := opWriteConfig
  bar := 0
  width := 4
  addr := 0x14
  size := 4
  data := fun j => [0x78#8, 0x56#8, 0x34#8, 0x12#8].getD j 0

theorem dmaBars_valid (i : Fin barCount) : ValidBarSize (dmaBars i) := by
  by_cases hi : i = 1
  · subst hi
    exact Or.inr ⟨8, by omega, by omega, by decide⟩
  · exact Or.inl (if_neg hi)

theorem barsDecoded_iff_dma :
    (∀ i, ValidBarSize (dmaBars i)) ∧
      ((∀ k, BarsDecoded (([bar1Write].take k).foldl onWriteConfig dmaDev)) ↔
        ∀ m ∈ [bar1Write], KeepsUndecoded dmaBars m) :=
  ⟨dmaBars_valid, barsDecoded_iff _ _ _ _ _ _ dmaBars_valid [bar1Write]⟩

/-- The register keeps bit 3 of the value, which a BAR of `0x100` bytes does not decode. -/
theorem barsDecoded_fails :
    (∀ i, ValidBarSize (dmaBars i)) ∧
      ¬∀ msgs : List PcieNetMsg, BarsDecoded (msgs.foldl onWriteConfig dmaDev) := by
  refine ⟨dmaBars_valid, fun h => ?_⟩
  have hbit : (barWord (onWriteConfig dmaDev bar1Write) 1).getLsbD 3 = true := by decide
  have hzero := ((h [bar1Write]) 1).1 (by decide) 3 (by decide)
  exact absurd (hbit.symm.trans hzero) (by decide)

end VPcie.Device
