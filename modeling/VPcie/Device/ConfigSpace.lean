import Mathlib.Order.Fin.Basic
import VPcie.Net.Message

/-!
# The configuration space of a device

`pcie_dev_t` (`pcie.h`, `pcie.c`): the BAR sizes and handlers, the 4 KiB extended configuration
space, the checked accessors, and the two config handlers of `on_msg_recv`.  `config` is the memory
around `dev->config`, addressed by the offset from it, so that an access the check lets through is
an access at that offset whether or not it lies below `0x1000`.

* `pcieCheckConfig_iff` — what the address check accepts;
* `onWriteConfig_cases` — all that a config write can do to the memory.
-/

namespace VPcie.Device

open VPcie.Lib VPcie.Net

/-- `PCIE_BAR_COUNT`. -/
abbrev barCount : ℕ := 6

instance : NeZero barCount := ⟨by decide⟩

/-- `pcie_dev_t` without its transport.  A handler pointer is `none` for `NULL`; `κ` is the type of
the handlers a particular device installs. -/
structure PcieDev (κ : Type) where
  barSize : Fin barCount → BitVec 64
  barReadfn : Fin barCount → Option κ
  barWritefn : Fin barCount → Option κ
  config : Mem

variable {κ : Type}

/-! ### Register offsets -/

def pciVendorId : BitVec 64 := 0x00
def pciDeviceId : BitVec 64 := 0x02
def pciStatus : BitVec 64 := 0x06
def pciClassRevision : BitVec 64 := 0x08
def pciHeaderType : BitVec 64 := 0x0e
def pciBaseAddress0 : BitVec 64 := 0x10
def pciBaseAddress5 : BitVec 64 := 0x24
def pciRomAddress : BitVec 64 := 0x30
def pciCapabilityList : BitVec 64 := 0x34
def msiCapOff : BitVec 64 := 16 * 4

/-! ### Accessors -/

/-- `pcie_check_config`, true where the source returns 0: the sum wraps at 64 bits. -/
def pcieCheckConfig (addr size : BitVec 64) : Bool :=
  addr &&& (size - 1) == 0 && decide ((addr + size).toNat ≤ 0x1000)

/-- `pcie_write_config_safe`: a `memcpy` to `dev->config + addr`. -/
def pcieWriteConfigSafe (dev : PcieDev κ) (addr : BitVec 64) (data : List Byte) : PcieDev κ :=
  { dev with config := store dev.config addr.toNat data }

/-- `pcie_write_config`, its return value dropped as every caller does. -/
def pcieWriteConfig (dev : PcieDev κ) (addr : BitVec 64) (data : List Byte) : PcieDev κ :=
  if pcieCheckConfig addr (BitVec.ofNat 64 data.length) then pcieWriteConfigSafe dev addr data
  else dev

def pcieWriteConfigByte (dev : PcieDev κ) (addr : BitVec 64) (data : BitVec 8) : PcieDev κ :=
  pcieWriteConfig dev addr (leBytes 1 data.toNat)

def pcieWriteConfigWord (dev : PcieDev κ) (addr : BitVec 64) (data : BitVec 16) : PcieDev κ :=
  pcieWriteConfig dev addr (leBytes 2 data.toNat)

def pcieWriteConfigLong (dev : PcieDev κ) (addr : BitVec 64) (data : BitVec 32) : PcieDev κ :=
  pcieWriteConfig dev addr (leBytes 4 data.toNat)

/-- `pcie_read_config_byte`, `_word` and `_long` for `k` of 1, 2 and 4: all ones when the check
fails. -/
def pcieReadConfig (dev : PcieDev κ) (addr : BitVec 64) (k : ℕ) : BitVec (8 * k) :=
  if pcieCheckConfig addr (BitVec.ofNat 64 k) then
    BitVec.ofNat (8 * k) (leNat (load dev.config addr.toNat k))
  else BitVec.allOnes (8 * k)

def pcieReadConfigByte (dev : PcieDev κ) (addr : BitVec 64) : BitVec 8 := pcieReadConfig dev addr 1

def pcieReadConfigWord (dev : PcieDev κ) (addr : BitVec 64) : BitVec 16 := pcieReadConfig dev addr 2

def pcieReadConfigLong (dev : PcieDev κ) (addr : BitVec 64) : BitVec 32 := pcieReadConfig dev addr 4

/-! ### Initialisation -/

/-- `init_common`.  The handlers and sizes are cleared, the configuration space is zeroed, and the
header, class, status and MSI capability are written. -/
def initCommon (dev : PcieDev κ) : PcieDev κ :=
  let dev : PcieDev κ :=
    { barSize := fun _ => 0
      barReadfn := fun _ => none
      barWritefn := fun _ => none
      config := fun a => if a < 0x1000 then 0 else dev.config a }
  let dev := pcieWriteConfigByte dev pciHeaderType 0
  let dev := pcieWriteConfigLong dev pciClassRevision (0x1180 <<< 16)
  let dev := pcieWriteConfigWord dev pciStatus 0x10
  let dev := pcieWriteConfigByte dev pciCapabilityList 0x40
  let dev := pcieWriteConfigByte dev (msiCapOff + 0) 0x05
  let dev := pcieWriteConfigByte dev (msiCapOff + 1) 0x00
  pcieWriteConfigWord dev (msiCapOff + 2) 0x01

def pcieSetVendorid (dev : PcieDev κ) (id : BitVec 16) : PcieDev κ :=
  pcieWriteConfigSafe dev pciVendorId (leBytes 2 id.toNat)

def pcieSetDeviceid (dev : PcieDev κ) (id : BitVec 16) : PcieDev κ :=
  pcieWriteConfigSafe dev pciDeviceId (leBytes 2 id.toNat)

/-- `pcie_set_bar`. -/
def pcieSetBar (dev : PcieDev κ) (ibar : Fin barCount) (size : BitVec 64)
    (onRead onWrite : Option κ) : PcieDev κ :=
  { dev with
    barSize := Function.update dev.barSize ibar size
    barReadfn := Function.update dev.barReadfn ibar onRead
    barWritefn := Function.update dev.barWritefn ibar onWrite }

/-- What `thread_entry` and the C device's `main` do before the loop: initialise, set the ids, set
the BARs. -/
def deviceInit (mem : PcieDev κ) (vendorId deviceId : BitVec 16) (size : Fin barCount → BitVec 64)
    (onRead onWrite : Fin barCount → Option κ) : PcieDev κ :=
  let dev := pcieSetDeviceid (pcieSetVendorid (initCommon mem) vendorId) deviceId
  (List.finRange barCount).foldl (fun dev i => pcieSetBar dev i (size i) (onRead i) (onWrite i)) dev

/-- Setting BARs one after the other leaves the configuration space alone. -/
theorem pcieSetBar_fold (dev : PcieDev κ) (size : Fin barCount → BitVec 64)
    (onRead onWrite : Fin barCount → Option κ) (l : List (Fin barCount)) :
    let dev' := l.foldl (fun dev i => pcieSetBar dev i (size i) (onRead i) (onWrite i)) dev
    dev'.config = dev.config ∧
      ∀ i, dev'.barSize i = (if i ∈ l then size i else dev.barSize i) ∧
        dev'.barReadfn i = (if i ∈ l then onRead i else dev.barReadfn i) ∧
        dev'.barWritefn i = (if i ∈ l then onWrite i else dev.barWritefn i) := by
  induction l generalizing dev with
  | nil => exact ⟨rfl, fun i => by simp⟩
  | cons a l ih =>
    obtain ⟨hc, hs⟩ := ih (pcieSetBar dev a (size a) (onRead a) (onWrite a))
    refine ⟨hc, ?_⟩
    intro i
    simp only [List.foldl_cons]
    rw [(hs i).1, (hs i).2.1, (hs i).2.2]
    by_cases hl : i ∈ l
    · simp [hl]
    · by_cases ha : i = a
      · subst ha
        simp [hl, pcieSetBar]
      · simp [hl, ha, pcieSetBar]

/-- Every BAR gets the handlers it was set up with. -/
theorem deviceInit_handlers (mem : PcieDev κ) (vendorId deviceId : BitVec 16)
    (size : Fin barCount → BitVec 64) (onRead onWrite : Fin barCount → Option κ)
    (i : Fin barCount) :
    (deviceInit mem vendorId deviceId size onRead onWrite).barReadfn i = onRead i ∧
      (deviceInit mem vendorId deviceId size onRead onWrite).barWritefn i = onWrite i := by
  have h := ((pcieSetBar_fold (pcieSetDeviceid (pcieSetVendorid (initCommon mem) vendorId) deviceId)
    size onRead onWrite (List.finRange barCount)).2 i).2
  rw [if_pos (List.mem_finRange i), if_pos (List.mem_finRange i)] at h
  exact h

/-! ### The config handlers -/

/-- The `switch` at the end of `on_write_config`. -/
def defaultWriteConfig (dev : PcieDev κ) (msg : PcieNetMsg) : PcieDev κ :=
  if msg.width = 1 then pcieWriteConfigByte dev msg.addr (msg.dataWord 8 1)
  else if msg.width = 2 then pcieWriteConfigWord dev msg.addr (msg.dataWord 16 2)
  else if msg.width = 4 then pcieWriteConfigLong dev msg.addr (msg.dataWord 32 4)
  else dev

/-- The register index `on_write_config` computes for an address in the BAR range. -/
def barIndex (addr : BitVec 64) (h : pciBaseAddress0 ≤ addr ∧ addr ≤ pciBaseAddress5) :
    Fin barCount :=
  ⟨(addr - pciBaseAddress0).toNat / 4, by
    have h0 : pciBaseAddress0.toNat ≤ addr.toNat := h.1
    have h5 : addr.toNat ≤ pciBaseAddress5.toNat := h.2
    rw [BitVec.toNat_sub_of_le h.1]
    simp only [pciBaseAddress0, pciBaseAddress5, BitVec.reduceToNat, barCount] at *
    omega⟩

/-- `on_write_config`.  The 32-bit word is read from `msg->data` whatever the width is. -/
def onWriteConfig (dev : PcieDev κ) (msg : PcieNetMsg) : PcieDev κ :=
  if h : pciBaseAddress0 ≤ msg.addr ∧ msg.addr ≤ pciBaseAddress5 then
    let ibar := barIndex msg.addr h
    let data : BitVec 32 := msg.dataWord 32 4
    let size : BitVec 32 := (dev.barSize ibar).setWidth 32
    if data = BitVec.allOnes 32 then
      -- probe the bar size
      if dev.barSize ibar ≠ 0 then pcieWriteConfigLong dev msg.addr (data &&& ~~~(size - 1))
      else dev
    else defaultWriteConfig dev msg
  else if msg.addr = pciRomAddress then dev
  else defaultWriteConfig dev msg

/-- `on_read_config`. -/
def onReadConfig (dev : PcieDev κ) (msg : PcieNetMsg) : PcieNetReply where
  status := 0
  data :=
    if msg.width = 1 then (pcieReadConfigByte dev msg.addr).setWidth 64
    else if msg.width = 2 then (pcieReadConfigWord dev msg.addr).setWidth 64
    else if msg.width = 4 then (pcieReadConfigLong dev msg.addr).setWidth 64
    else BitVec.allOnes 64

/-! ### What the accessors do -/

/-- The mask test of the check is the alignment to a power of two. -/
theorem and_mask_eq_zero_iff (addr : BitVec 64) {j : ℕ} (hj : j < 64) :
    addr &&& (BitVec.ofNat 64 (2 ^ j) - 1) = 0 ↔ 2 ^ j ∣ addr.toNat := by
  have hlt : 2 ^ j < 2 ^ 64 := Nat.pow_lt_pow_right (by omega) hj
  have hpos : 0 < 2 ^ j := Nat.two_pow_pos j
  have hmask : (BitVec.ofNat 64 (2 ^ j) - 1).toNat = 2 ^ j - 1 := by
    rw [BitVec.toNat_sub_of_le]
    · rw [BitVec.toNat_ofNat, Nat.mod_eq_of_lt hlt]
      rfl
    · rw [BitVec.le_def, BitVec.toNat_ofNat, Nat.mod_eq_of_lt hlt]
      exact hpos
  rw [← BitVec.toNat_inj, BitVec.toNat_and, hmask, Nat.and_two_pow_sub_one_eq_mod]
  exact (Nat.dvd_iff_mod_eq_zero).symm

/-- The check accepts an aligned address whose wrapped end is inside the space. -/
theorem pcieCheckConfig_iff (addr size : BitVec 64) :
    pcieCheckConfig addr size = true ↔
      addr &&& (size - 1) = 0 ∧ (addr + size).toNat ≤ 0x1000 := by
  simp [pcieCheckConfig]

theorem pcieWriteConfig_of_check (dev : PcieDev κ) {addr : BitVec 64} {data : List Byte}
    (h : pcieCheckConfig addr (BitVec.ofNat 64 data.length) = true) :
    pcieWriteConfig dev addr data = pcieWriteConfigSafe dev addr data := by
  rw [pcieWriteConfig, if_pos h]

theorem pcieWriteConfig_of_not_check (dev : PcieDev κ) {addr : BitVec 64} {data : List Byte}
    (h : ¬pcieCheckConfig addr (BitVec.ofNat 64 data.length) = true) :
    pcieWriteConfig dev addr data = dev := by
  rw [pcieWriteConfig, if_neg h]

/-- The accesses a config write makes by width: the low bytes of the payload. -/
theorem dataWord_bytes (msg : PcieNetMsg) (k : ℕ) :
    leBytes k (msg.dataWord (8 * k) k).toNat = load msg.data 0 k := by
  have hlt : leNat (load msg.data 0 k) < 2 ^ (8 * k) := by
    have h := leNat_lt (load msg.data 0 k)
    rw [load_length] at h
    rwa [pow_mul]
  have hround := leBytes_leNat (load msg.data 0 k)
  rw [load_length] at hround
  rw [PcieNetMsg.dataWord, BitVec.toNat_ofNat, Nat.mod_eq_of_lt hlt, hround]

/-! ### The widths -/

/-- The widths that the accessors have. -/
def IsWidth (k : ℕ) : Prop := k = 1 ∨ k = 2 ∨ k = 4

instance (k : ℕ) : Decidable (IsWidth k) := inferInstanceAs (Decidable (_ ∨ _ ∨ _))

theorem isWidth_toNat (w : Byte) : IsWidth w.toNat ↔ w = 1 ∨ w = 2 ∨ w = 4 := by
  have hnat : ∀ k : ℕ, k < 256 → (w.toNat = k ↔ w = BitVec.ofNat 8 k) := by
    intro k hk
    rw [← BitVec.toNat_inj, BitVec.toNat_ofNat, Nat.mod_eq_of_lt hk]
  exact or_congr (hnat 1 (by decide)) (or_congr (hnat 2 (by decide)) (hnat 4 (by decide)))

/-- A `switch` with a case for each width takes the one of the message's width, or the default. -/
theorem switch_width {α : Type} (w : Byte) (case : ℕ → α) (default : α) :
    (if w = 1 then case 1 else if w = 2 then case 2 else if w = 4 then case 4 else default)
      = if IsWidth w.toNat then case w.toNat else default := by
  by_cases hk : IsWidth w.toNat
  · rw [if_pos hk]
    rcases (isWidth_toNat w).mp hk with rfl | rfl | rfl
    · rfl
    · rfl
    · rfl
  · rw [if_neg hk]
    rw [isWidth_toNat, not_or, not_or] at hk
    rw [if_neg hk.1, if_neg hk.2.1, if_neg hk.2.2]

/-- The `switch` of `on_write_config` writes the low bytes of the payload, or nothing. -/
theorem defaultWriteConfig_eq (dev : PcieDev κ) (msg : PcieNetMsg) :
    defaultWriteConfig dev msg
      = if IsWidth msg.width.toNat then
          pcieWriteConfig dev msg.addr (load msg.data 0 msg.width.toNat)
        else dev := by
  rw [← dataWord_bytes]
  exact switch_width msg.width
    (fun k => pcieWriteConfig dev msg.addr (leBytes k (msg.dataWord (8 * k) k).toNat)) dev

/-- The `switch` of `on_read_config` reads a value of the width, or is all ones. -/
theorem onReadConfig_data (dev : PcieDev κ) (msg : PcieNetMsg) :
    (onReadConfig dev msg).data
      = if IsWidth msg.width.toNat then
          (pcieReadConfig dev msg.addr msg.width.toNat).setWidth 64
        else BitVec.allOnes 64 :=
  switch_width msg.width (fun k => (pcieReadConfig dev msg.addr k).setWidth 64) _

/-- The message takes the default write and the check lets it through. -/
def StandardWrite (msg : PcieNetMsg) : Prop :=
  ¬(pciBaseAddress0 ≤ msg.addr ∧ msg.addr ≤ pciBaseAddress5 ∧
      msg.dataWord 32 4 = BitVec.allOnes 32) ∧
    msg.addr ≠ pciRomAddress ∧ (msg.width = 1 ∨ msg.width = 2 ∨ msg.width = 4) ∧
    pcieCheckConfig msg.addr (msg.width.setWidth 64) = true

instance (msg : PcieNetMsg) : Decidable (StandardWrite msg) :=
  inferInstanceAs (Decidable (_ ∧ _ ∧ _ ∧ _))

theorem defaultWriteConfig_cases (dev : PcieDev κ) (msg : PcieNetMsg) :
    ((msg.width = 1 ∨ msg.width = 2 ∨ msg.width = 4) ∧
        pcieCheckConfig msg.addr (msg.width.setWidth 64) = true ∧
        defaultWriteConfig dev msg
          = pcieWriteConfigSafe dev msg.addr (load msg.data 0 msg.width.toNat)) ∨
      (¬((msg.width = 1 ∨ msg.width = 2 ∨ msg.width = 4) ∧
          pcieCheckConfig msg.addr (msg.width.setWidth 64) = true) ∧
        defaultWriteConfig dev msg = dev) := by
  have hwide : msg.width.setWidth 64
      = BitVec.ofNat 64 (load msg.data 0 msg.width.toNat).length := by
    rw [load_length, BitVec.ofNat_toNat]
  rw [← isWidth_toNat, defaultWriteConfig_eq, hwide]
  by_cases hk : IsWidth msg.width.toNat
  · rw [if_pos hk]
    by_cases hcheck : pcieCheckConfig msg.addr
        (BitVec.ofNat 64 (load msg.data 0 msg.width.toNat).length) = true
    · exact Or.inl ⟨hk, hcheck, pcieWriteConfig_of_check dev hcheck⟩
    · exact Or.inr ⟨fun h => hcheck h.2, pcieWriteConfig_of_not_check dev hcheck⟩
  · rw [if_neg hk]
    exact Or.inr ⟨fun h => hk h.1, rfl⟩

/-- The value a size probe leaves in a BAR. -/
def probeValue (size : BitVec 64) : BitVec 32 :=
  BitVec.allOnes 32 &&& ~~~(size.setWidth 32 - 1)

/-- **All that a config write can do**: nothing, store the probe value in one BAR, or store the
first `width` payload bytes at the address. -/
theorem onWriteConfig_cases (dev : PcieDev κ) (msg : PcieNetMsg) :
    (¬StandardWrite msg ∧ onWriteConfig dev msg = dev) ∨
      (¬StandardWrite msg ∧ ∃ i : Fin barCount, msg.addr.toNat = 0x10 + 4 * i.val ∧
        dev.barSize i ≠ 0 ∧
        onWriteConfig dev msg
          = pcieWriteConfigSafe dev msg.addr (leBytes 4 (probeValue (dev.barSize i)).toNat)) ∨
      (StandardWrite msg ∧ onWriteConfig dev msg
        = pcieWriteConfigSafe dev msg.addr (load msg.data 0 msg.width.toNat)) := by
  unfold onWriteConfig
  split
  · rename_i h
    simp only
    split
    · rename_i hdata
      have hns : ¬StandardWrite msg := fun hs => hs.1 ⟨h.1, h.2, hdata⟩
      split
      · rename_i hsize
        by_cases hcheck : pcieCheckConfig msg.addr (BitVec.ofNat 64
            (leBytes 4 (probeValue (dev.barSize (barIndex msg.addr h))).toNat).length) = true
        · refine Or.inr (Or.inl ⟨hns, barIndex msg.addr h, ?_, hsize, ?_⟩)
          · -- the check has rejected the addresses between two registers
            have halign := ((pcieCheckConfig_iff _ _).mp hcheck).1
            have h0 : pciBaseAddress0.toNat ≤ msg.addr.toNat := h.1
            rw [leBytes_length] at halign
            have hdvd : 2 ^ 2 ∣ msg.addr.toNat :=
              (and_mask_eq_zero_iff msg.addr (by decide)).mp halign
            show msg.addr.toNat = 0x10 + 4 * ((msg.addr - pciBaseAddress0).toNat / 4)
            rw [BitVec.toNat_sub_of_le h.1]
            simp only [pciBaseAddress0, BitVec.reduceToNat] at h0 ⊢
            omega
          · rw [hdata]
            exact pcieWriteConfig_of_check dev hcheck
        · refine Or.inl ⟨hns, ?_⟩
          rw [hdata]
          exact pcieWriteConfig_of_not_check dev hcheck
      · exact Or.inl ⟨hns, rfl⟩
    · rename_i hdata
      have hrom : msg.addr ≠ pciRomAddress := by
        rintro e
        rw [e] at h
        exact absurd h.2 (by decide)
      rcases defaultWriteConfig_cases dev msg with ⟨hw, hc, hd⟩ | ⟨hn, hd⟩
      · exact Or.inr (Or.inr ⟨⟨fun hp => hdata hp.2.2, hrom, hw, hc⟩, hd⟩)
      · exact Or.inl ⟨fun hs => hn hs.2.2, hd⟩
  · rename_i h
    split
    · rename_i hrom
      exact Or.inl ⟨fun hs => hs.2.1 hrom, rfl⟩
    · rename_i hrom
      rcases defaultWriteConfig_cases dev msg with ⟨hw, hc, hd⟩ | ⟨hn, hd⟩
      · exact Or.inr (Or.inr ⟨⟨fun hp => h ⟨hp.1, hp.2.1⟩, hrom, hw, hc⟩, hd⟩)
      · exact Or.inl ⟨fun hs => hn hs.2.2, hd⟩

@[simp] theorem onWriteConfig_barSize (dev : PcieDev κ) (msg : PcieNetMsg) :
    (onWriteConfig dev msg).barSize = dev.barSize := by
  rcases onWriteConfig_cases dev msg with ⟨_, h⟩ | ⟨_, _, _, _, h⟩ | ⟨_, h⟩ <;> rw [h] <;> rfl

end VPcie.Device
