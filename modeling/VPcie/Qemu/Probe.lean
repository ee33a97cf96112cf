import VPcie.Device.BarRegisters
import VPcie.Device.OnMsgRecv
import VPcie.Qemu.Pciefw

/-!
# Probing the BARs of a device

`pciefw_probe_device` writes all ones to each base address register of the remote device, reads the
register back, restores it from `pci_conf`, and registers a memory region of the size it recovers.
Here it runs against a device whose requests are served from its configuration space, request by
request over the wire format.

The loop runs over `PCI_NUM_REGIONS` = 7 regions while the device has 6 BARs.  The register at
index 6 (offset `0x28`) is a plain word of the configuration space, so it reads back as written and
the probe takes it for a BAR of 16 bytes.

* `pciefwProbeDevice_bars` — the six BARs agree on both sides;
* `pciefwProbeDevice_extra_region` — on every device a seventh region appears.
-/

namespace VPcie.Qemu

open VPcie.Lib VPcie.Net VPcie.Device

/-- `PCI_NUM_REGIONS`. -/
abbrev numRegions : ℕ := 7

/-! ### QEMU's side -/

/-- The PCI core of QEMU, as far as the probe calls it: what its routines do to `dev.config`. -/
structure QemuPci where
  pciRegisterBar : Fin numRegions → BitVec 64 → Mem → Mem
  msiInit : Mem → Mem
  msiUninit : Mem → Mem

/-- `PCIIORegion`: the size, and whether `addr` differs from `PCI_BAR_UNMAPPED`. -/
structure PciIoRegion where
  size : BitVec 64
  mapped : Bool
deriving DecidableEq, Repr

/-- The calls on memory regions, in the order they are made. -/
inductive RegionCall where
  | delSubregion (i : Fin numRegions)
  | destroy (i : Fin numRegions)
  | initIo (i : Fin numRegions) (size : BitVec 64)
  | registerBar (i : Fin numRegions)
deriving DecidableEq, Repr

/-- `pciefw_state_t`, the fields of probing and messaging.  `calls` is the history of calls on
memory regions. -/
structure PciefwState where
  hasProbed : Bool
  barSize : Fin numRegions → BitVec 64
  ioRegions : Fin numRegions → PciIoRegion
  pciConf : Mem
  msg : Mem
  calls : List RegionCall

/-- The base address register at index `i`, a 32-bit word of a configuration space. -/
def cfgWord (m : Mem) (i : ℕ) : BitVec 32 := BitVec.ofNat 32 (leNat (load m (0x10 + 4 * i) 4))

/-- `PCI_BASE_ADDRESS_0 + i * 4`. -/
def configAddr (i : Fin numRegions) : BitVec 64 := pciBaseAddress0 + BitVec.ofNat 64 (4 * i.val)

/-- QEMU connected to a device. -/
structure Link (κ : Type) where
  qemu : PciefwState
  peer : NetLoop κ

variable {κ : Type}

/-- `pciefw_send_write_config` to a device that serves the request; true on success. -/
def Link.writeConfig (l : Link κ) (addr : BitVec 64) (width : ℕ) (data : BitVec 64) :
    Link κ × Bool :=
  let (msg, bytes) := pciefwSendWriteConfig l.qemu.msg addr width data
  match serve l.peer bytes with
  | some (peer, _) => (⟨{ l.qemu with msg := msg }, peer⟩, true)
  | none => (⟨{ l.qemu with msg := msg }, l.peer⟩, false)

/-- `pciefw_send_read_config` to a device that serves the request; `none` on failure. -/
def Link.readConfig (l : Link κ) (addr : BitVec 64) (width : ℕ) : Link κ × Option (List Byte) :=
  let (msg, bytes) := pciefwSendReadConfig l.qemu.msg addr width
  match serve l.peer bytes with
  | some (peer, back) =>
    match pciefwRecvStep ⟨back, .open⟩ msg with
    | .reply msg _ => (⟨{ l.qemu with msg := msg }, peer⟩, some (replyData msg width))
    | _ => (⟨{ l.qemu with msg := msg }, peer⟩, none)
  | none => (⟨{ l.qemu with msg := msg }, l.peer⟩, none)

/-- One turn of the loop of `pciefw_unprobe_device`. -/
def unprobeRegion (s : PciefwState) (i : Fin numRegions) : PciefwState :=
  let r := s.ioRegions i
  let s := if r.size ≠ 0 ∧ r.mapped then { s with calls := s.calls ++ [.delSubregion i] } else s
  if s.barSize i ≠ 0 then { s with calls := s.calls ++ [.destroy i] } else s

/-- `pciefw_unprobe_device`. -/
def pciefwUnprobeDevice (q : QemuPci) (s : PciefwState) : PciefwState :=
  if s.hasProbed then
    let s := { s with pciConf := q.msiUninit s.pciConf }
    let s := (List.finRange numRegions).foldl unprobeRegion s
    { s with hasProbed := false }
  else s

/-- The arithmetic of the probe on the word read back: `PCI_ADDR_FLAG_MASK` off, then two's
complement. -/
def recoverSize (word : BitVec 32) : BitVec 32 := ~~~(word &&& ~~~0xf) + 1

/-- `memory_region_init_io` and `pci_register_bar` for region `i`. -/
def registerRegion (q : QemuPci) (s : PciefwState) (i : Fin numRegions) (size : BitVec 64) :
    PciefwState :=
  { s with
    barSize := Function.update s.barSize i size
    ioRegions := Function.update s.ioRegions i ⟨size, false⟩
    pciConf := q.pciRegisterBar i size s.pciConf
    calls := s.calls ++ [.initIo i size, .registerBar i] }

/-- One turn of the loop of `pciefw_probe_device`; the early returns are its `continue`s. -/
def probeRegion (q : QemuPci) (l : Link κ) (i : Fin numRegions) : Link κ :=
  let l : Link κ := ⟨{ l.qemu with barSize := Function.update l.qemu.barSize i 0 }, l.peer⟩
  let (l, ok) := l.writeConfig (configAddr i) 4 (BitVec.allOnes 64)
  if !ok then l
  else
    let (l, word) := l.readConfig (configAddr i) 4
    match word with
    | none => l
    | some bs =>
      -- restore the bar address
      let barAddr := cfgWord l.qemu.pciConf i
      let (l, _) := l.writeConfig (configAddr i) 4 (barAddr.setWidth 64)
      let barSize := recoverSize (BitVec.ofNat 32 (leNat bs))
      if barSize = 0 then l
      else
        let l : Link κ := ⟨registerRegion q l.qemu i (barSize.setWidth 64), l.peer⟩
        -- pci_register changes the address
        let barAddr := cfgWord l.qemu.pciConf i
        (l.writeConfig (configAddr i) 4 (barAddr.setWidth 64)).1

/-- What comes before the loop: undo a previous allocation, and
`PCI_COMMAND = PCI_COMMAND_IO | PCI_COMMAND_MEMORY`. -/
def probeStart (q : QemuPci) (l : Link κ) : Link κ :=
  let s := pciefwUnprobeDevice q l.qemu
  ⟨{ s with pciConf := store s.pciConf 4 [3] }, l.peer⟩

/-- What comes after the loop. -/
def probeFinish (q : QemuPci) (l : Link κ) : Link κ :=
  ⟨{ l.qemu with pciConf := q.msiInit l.qemu.pciConf, hasProbed := true }, l.peer⟩

/-- `pciefw_probe_device`. -/
def pciefwProbeDevice (q : QemuPci) (l : Link κ) : Link κ :=
  probeFinish q ((List.finRange numRegions).foldl (probeRegion q) (probeStart q l))

@[simp] theorem probeFinish_peer (q : QemuPci) (l : Link κ) :
    (probeFinish q l).peer = l.peer := rfl

@[simp] theorem probeFinish_barSize (q : QemuPci) (l : Link κ) :
    (probeFinish q l).qemu.barSize = l.qemu.barSize := rfl

@[simp] theorem probeFinish_pciConf (q : QemuPci) (l : Link κ) :
    (probeFinish q l).qemu.pciConf = q.msiInit l.qemu.pciConf := rfl

/-- What BAR probing is for: the sizes agree on both sides, no region is registered for anything
but a BAR, and the device's registers hold the values QEMU keeps. -/
def ProbeAgrees (l : Link κ) : Prop :=
  (∀ i : Fin barCount, l.qemu.barSize (i.castLE (by decide)) = l.peer.dev.barSize i) ∧
    (∀ i : Fin numRegions, barCount ≤ i.val → l.qemu.barSize i = 0) ∧
    (∀ i : Fin barCount, barWord l.peer.dev i = cfgWord l.qemu.pciConf i)

/-! ### Words of the configuration space -/

theorem cfgWord_store_self (m : Mem) (i : ℕ) (v : BitVec 32) :
    cfgWord (store m (0x10 + 4 * i) (leBytes 4 v.toNat)) i = v := by
  rw [cfgWord, load_store_eq _ _ _ _ (leBytes_length _ _)]
  exact ofNat_leNat_leBytes 4 v

theorem cfgWord_store_ne (m : Mem) {i j : ℕ} (v : BitVec 32) (h : j ≠ i) :
    cfgWord (store m (0x10 + 4 * i) (leBytes 4 v.toNat)) j = cfgWord m j := by
  rw [cfgWord, load_store_disjoint _ _ _ _ _ (by rw [leBytes_length]; omega), cfgWord]

theorem configAddr_toNat (i : Fin numRegions) : (configAddr i).toNat = 0x10 + 4 * i.val := by
  revert i
  decide

theorem configAddr_check (i : Fin numRegions) : pcieCheckConfig (configAddr i) 4 = true := by
  revert i
  decide

theorem configAddr_ne_rom (i : Fin numRegions) : configAddr i ≠ pciRomAddress := by
  revert i
  decide

theorem configAddr_range (i : Fin numRegions) :
    (pciBaseAddress0 ≤ configAddr i ∧ configAddr i ≤ pciBaseAddress5) ↔ i.val < barCount := by
  revert i
  decide

theorem configAddr_barIndex (i : Fin numRegions)
    (h : pciBaseAddress0 ≤ configAddr i ∧ configAddr i ≤ pciBaseAddress5) :
    barIndex (configAddr i) h = ⟨i.val, (configAddr_range i).mp h⟩ := by
  revert i
  decide

/-! ### One config access -/

/-- What the device's word at index `i` becomes when `v` is written to it. -/
def writtenWord (dev : PcieDev κ) (i : Fin numRegions) (v : BitVec 32) : BitVec 32 :=
  if h : i.val < barCount ∧ v = BitVec.allOnes 32 then
    if dev.barSize ⟨i.val, h.1⟩ ≠ 0 then probeValue (dev.barSize ⟨i.val, h.1⟩)
    else cfgWord dev.config i
  else v

/-- A 4-byte config write to index `i` changes the word there and nothing else. -/
theorem onWriteConfig_word (dev : PcieDev κ) (msg : PcieNetMsg) (i : Fin numRegions)
    (haddr : msg.addr = configAddr i) (hwidth : msg.width = 4) (j : ℕ) :
    cfgWord (onWriteConfig dev msg).config j
      = if j = i.val then writtenWord dev i (msg.dataWord 32 4) else cfgWord dev.config j := by
  have hstore : ∀ v : BitVec 32, cfgWord (pcieWriteConfigLong dev msg.addr v).config j
      = if j = i.val then v else cfgWord dev.config j := by
    intro v
    have hcheck : pcieCheckConfig msg.addr
        (BitVec.ofNat 64 (leBytes 4 v.toNat).length) = true := by
      rw [leBytes_length, haddr]
      exact configAddr_check i
    rw [pcieWriteConfigLong, pcieWriteConfig_of_check dev hcheck]
    simp only [pcieWriteConfigSafe, haddr, configAddr_toNat]
    by_cases hj : j = i.val
    · rw [hj, if_pos rfl, cfgWord_store_self]
    · rw [if_neg hj, cfgWord_store_ne _ _ hj]
  have hdefault : cfgWord (defaultWriteConfig dev msg).config j
      = if j = i.val then msg.dataWord 32 4 else cfgWord dev.config j := by
    rw [defaultWriteConfig, hwidth, if_neg (by decide), if_neg (by decide), if_pos rfl]
    exact hstore _
  unfold onWriteConfig
  by_cases hrange : pciBaseAddress0 ≤ msg.addr ∧ msg.addr ≤ pciBaseAddress5
  · rw [dif_pos hrange]
    have hi : i.val < barCount := by
      rw [haddr] at hrange
      exact (configAddr_range i).mp hrange
    have hindex : barIndex msg.addr hrange = ⟨i.val, hi⟩ := by
      simp only [haddr]
      exact configAddr_barIndex i (haddr ▸ hrange)
    simp only [hindex]
    by_cases hdata : msg.dataWord 32 4 = BitVec.allOnes 32
    · rw [if_pos hdata, writtenWord, dif_pos ⟨hi, hdata⟩]
      by_cases h0 : dev.barSize ⟨i.val, hi⟩ ≠ 0
      · rw [if_pos h0, if_pos h0, hstore]
        simp only [hdata, probeValue]
      · rw [if_neg h0, if_neg h0]
        by_cases hj : j = i.val
        · rw [if_pos hj, hj]
        · rw [if_neg hj]
    · rw [if_neg hdata, hdefault, writtenWord, dif_neg fun h => hdata h.2]
  · have hi : ¬i.val < barCount := by
      rw [haddr] at hrange
      exact fun h => hrange ((configAddr_range i).mpr h)
    rw [dif_neg hrange, if_neg (haddr ▸ configAddr_ne_rom i), hdefault, writtenWord,
      dif_neg fun h => hi h.1]

/-- The device as the probe sees it: its BAR sizes and the seven words. -/
theorem Link.writeConfig_spec (l : Link κ) (i : Fin numRegions) (data : BitVec 64) :
    ∃ msg peer, l.writeConfig (configAddr i) 4 data
        = (⟨{ l.qemu with msg := msg }, peer⟩, true) ∧
      peer.dev.barSize = l.peer.dev.barSize ∧
      ∀ j, cfgWord peer.dev.config j
        = if j = i.val then writtenWord l.peer.dev i (data.setWidth 32)
          else cfgWord l.peer.dev.config j := by
  obtain ⟨buf, hholds, hserve⟩ := serve_writeConfig l.peer
    (requestMsg opWriteConfig (l.qemu.msg 3) (configAddr i) 4 (leBytes 4 data.toNat)
      (leBytes_page 4 data (by omega))) rfl
  obtain ⟨_, _, hwidth, haddr, _⟩ := ofBuf_encode hholds
  have hword : (PcieNetMsg.ofBuf buf).dataWord 32 4 = data.setWidth 32 := by
    have hload := hholds.load_data 4 (by simp [requestMsg])
    rw [PcieNetMsg.dataWord, hload]
    simp only [requestMsg]
    rw [List.take_of_length_le (by simp), leNat_leBytes]
    apply BitVec.eq_of_toNat_eq
    rw [BitVec.toNat_ofNat, BitVec.toNat_setWidth]
    omega
  refine ⟨(pciefwSendWriteConfig l.qemu.msg (configAddr i) 4 data).1,
    ⟨onWriteConfig l.peer.dev (PcieNetMsg.ofBuf buf), buf⟩, ?_,
    onWriteConfig_barSize l.peer.dev (PcieNetMsg.ofBuf buf), ?_⟩
  · rw [Link.writeConfig]
    simp only [pciefwSendWriteConfig_bytes l.qemu.msg (configAddr i) 4 data (by omega), hserve]
  · intro j
    rw [onWriteConfig_word _ _ i haddr hwidth, hword]

theorem Link.readConfig_spec (l : Link κ) (i : Fin numRegions) :
    ∃ msg buf, l.readConfig (configAddr i) 4
        = (⟨{ l.qemu with msg := msg }, ⟨l.peer.dev, buf⟩⟩,
            some (leBytes 4 (cfgWord l.peer.dev.config i).toNat)) := by
  obtain ⟨buf, hholds, hserve⟩ := serve_readConfig l.peer
    (requestMsg opReadConfig (l.qemu.msg 3) (configAddr i) 4 [] (Nat.zero_le _)) rfl
  obtain ⟨_, _, hwidth, haddr, _⟩ := ofBuf_encode hholds
  have hreply : (onReadConfig l.peer.dev (PcieNetMsg.ofBuf buf)).data
      = (cfgWord l.peer.dev.config i).setWidth 64 := by
    have hlong : pcieReadConfigLong l.peer.dev (configAddr i) = cfgWord l.peer.dev.config i := by
      rw [pcieReadConfigLong, pcieReadConfig,
        if_pos (show pcieCheckConfig (configAddr i) (BitVec.ofNat 64 4) = true from
          configAddr_check i), configAddr_toNat]
      rfl
    have hw4 : (PcieNetMsg.ofBuf buf).width = 4 := hwidth
    have haddr' : (PcieNetMsg.ofBuf buf).addr = configAddr i := haddr
    rw [onReadConfig, hw4, haddr', if_neg (by decide), if_neg (by decide), if_pos rfl, hlong]
  obtain ⟨msg, hrecv, hdata⟩ := pciefwRecvStep_reply
    (onReadConfig l.peer.dev (PcieNetMsg.ofBuf buf)) [] .open
    (pciefwSendReadConfig l.qemu.msg (configAddr i) 4).1
  rw [List.append_nil] at hrecv
  rw [hreply] at hdata
  refine ⟨msg, buf, ?_⟩
  have hnat : ((cfgWord l.peer.dev.config i).setWidth 64).toNat
      = (cfgWord l.peer.dev.config i).toNat := by
    rw [BitVec.toNat_setWidth]
    have := (cfgWord l.peer.dev.config i).isLt
    omega
  rw [Link.readConfig]
  simp only [pciefwSendReadConfig_bytes, hserve, hrecv,
    replyData_eq msg 4 _ (by omega) hdata, hnat]

/-! ### One region -/

theorem ofNat_leNat_leBytes_word (v : BitVec 32) :
    BitVec.ofNat 32 (leNat (leBytes 4 v.toNat)) = v :=
  ofNat_leNat_leBytes 4 v

/-- The all-ones word every probe starts with. -/
theorem allOnes_setWidth : (BitVec.allOnes 64).setWidth 32 = BitVec.allOnes 32 := by decide

/-- **Step lemma.**  What one turn of the loop does: it recovers the size from the word the probe
left, and the word ends as what QEMU keeps for the register was written back. -/
theorem probeRegion_spec (q : QemuPci) (l : Link κ) (i : Fin numRegions) :
    let size := recoverSize (writtenWord l.peer.dev i (BitVec.allOnes 32))
    let l' := probeRegion q l i
    l'.peer.dev.barSize = l.peer.dev.barSize ∧
      l'.qemu.barSize = Function.update l.qemu.barSize i (size.setWidth 64) ∧
      l'.qemu.pciConf
        = (if size = 0 then l.qemu.pciConf
          else q.pciRegisterBar i (size.setWidth 64) l.qemu.pciConf) ∧
      (∀ j, j ≠ i.val → cfgWord l'.peer.dev.config j = cfgWord l.peer.dev.config j) ∧
      (cfgWord l'.qemu.pciConf i ≠ BitVec.allOnes 32 →
        cfgWord l'.peer.dev.config i = cfgWord l'.qemu.pciConf i) := by
  have hzext : ∀ v : BitVec 32, (v.setWidth 64).setWidth 32 = v := fun v => by simp
  have hwrite : ∀ (dev : PcieDev κ) (v : BitVec 32), v ≠ BitVec.allOnes 32 →
      writtenWord dev i v = v := fun dev v hv => by rw [writtenWord, dif_neg fun h => hv h.2]
  intro size l'
  obtain ⟨msg₁, peer₁, hw₁, hsize₁, hword₁⟩ := Link.writeConfig_spec
    ⟨{ l.qemu with barSize := Function.update l.qemu.barSize i 0 }, l.peer⟩ i (BitVec.allOnes 64)
  obtain ⟨msg₂, buf₂, hr₂⟩ := Link.readConfig_spec
    ⟨{ l.qemu with barSize := Function.update l.qemu.barSize i 0, msg := msg₁ }, peer₁⟩ i
  obtain ⟨msg₃, peer₃, hw₃, hsize₃, hword₃⟩ := Link.writeConfig_spec
    ⟨{ l.qemu with barSize := Function.update l.qemu.barSize i 0, msg := msg₂ },
      ⟨peer₁.dev, buf₂⟩⟩ i ((cfgWord l.qemu.pciConf i).setWidth 64)
  have hback : recoverSize (BitVec.ofNat 32
      (leNat (leBytes 4 (cfgWord peer₁.dev.config i).toNat))) = size := by
    rw [ofNat_leNat_leBytes_word, hword₁, if_pos rfl, allOnes_setWidth]
  by_cases h0 : size = 0
  · have hl' : l' = ⟨{ l.qemu with
        barSize := Function.update l.qemu.barSize i 0, msg := msg₃ }, peer₃⟩ := by
      show probeRegion q l i = _
      simp only [probeRegion, hw₁, hr₂, hw₃, hback, h0, Bool.not_true, Bool.false_eq_true,
        if_false, if_true]
    rw [hl', h0]
    refine ⟨hsize₃.trans hsize₁, rfl, rfl, fun j hj => ?_, fun hv => ?_⟩
    · rw [hword₃, if_neg hj, hword₁, if_neg hj]
    · simp only at hv ⊢
      rw [hword₃, if_pos rfl, hzext, hwrite _ _ hv]
  · obtain ⟨msg₄, peer₄, hw₄, hsize₄, hword₄⟩ := Link.writeConfig_spec
      ⟨registerRegion q { l.qemu with
          barSize := Function.update l.qemu.barSize i 0, msg := msg₃ } i (size.setWidth 64), peer₃⟩
      i ((cfgWord (q.pciRegisterBar i (size.setWidth 64) l.qemu.pciConf) i).setWidth 64)
    have hl' : l' = ⟨{ registerRegion q { l.qemu with
          barSize := Function.update l.qemu.barSize i 0, msg := msg₃ } i (size.setWidth 64) with
        msg := msg₄ }, peer₄⟩ := by
      show probeRegion q l i = _
      simp only [probeRegion, hw₁, hr₂, hw₃, hback, h0, Bool.not_true, Bool.false_eq_true,
        if_false]
      exact congrArg Prod.fst hw₄
    rw [hl', if_neg h0]
    refine ⟨hsize₄.trans (hsize₃.trans hsize₁), ?_, rfl, fun j hj => ?_, fun hv => ?_⟩
    · simp only [registerRegion, Function.update_idem]
    · rw [hword₄, if_neg hj, hword₃, if_neg hj, hword₁, if_neg hj]
    · simp only [registerRegion] at hv ⊢
      rw [hword₄, if_pos rfl, hzext, hwrite _ _ hv]

/-! ### The loop -/

/-- A run of the loop over distinct indices: each size is recovered from the device the loop started
with, and the words of the other indices stay. -/
theorem probeRegions_spec (q : QemuPci) (is : List (Fin numRegions)) :
    ∀ l : Link κ, is.Nodup →
      let l' := is.foldl (probeRegion q) l
      l'.peer.dev.barSize = l.peer.dev.barSize ∧
        (∀ i ∉ is, l'.qemu.barSize i = l.qemu.barSize i ∧
          cfgWord l'.peer.dev.config i = cfgWord l.peer.dev.config i) ∧
        ∀ i ∈ is, l'.qemu.barSize i
          = (recoverSize (writtenWord l.peer.dev i (BitVec.allOnes 32))).setWidth 64 := by
  induction is with
  | nil => exact fun l _ => ⟨rfl, fun i _ => ⟨rfl, rfl⟩, fun i hi => absurd hi (by simp)⟩
  | cons k is ih =>
    intro l hnodup l'
    obtain ⟨hk, hnodup⟩ := List.nodup_cons.mp hnodup
    obtain ⟨hsize, hqemu, _, hothers, _⟩ := probeRegion_spec q l k
    obtain ⟨hsize', hout, hin⟩ := ih (probeRegion q l k) hnodup
    have hword : ∀ i : Fin numRegions, i ≠ k →
        cfgWord (probeRegion q l k).peer.dev.config i = cfgWord l.peer.dev.config i :=
      fun i hi => hothers i fun h => hi (Fin.ext h)
    refine ⟨hsize'.trans hsize, fun i hi => ?_, fun i hi => ?_⟩
    · have hik : i ≠ k := fun h => hi (h ▸ List.mem_cons_self)
      have hi : i ∉ is := fun h => hi (List.mem_cons_of_mem k h)
      rw [show l' = is.foldl (probeRegion q) (probeRegion q l k) from rfl, (hout i hi).1,
        (hout i hi).2, hqemu, Function.update_of_ne hik]
      exact ⟨rfl, hword i hik⟩
    · rw [show l' = is.foldl (probeRegion q) (probeRegion q l k) from rfl]
      by_cases hik : i = k
      · subst hik
        rw [(hout i hk).1, hqemu, Function.update_self]
      · -- the turn for `k` changed neither the size nor the word at `i`
        rw [hin i ((List.mem_cons.mp hi).resolve_left hik)]
        simp only [writtenWord, hsize, hword i hik]

theorem pciefwProbeDevice_sizes (q : QemuPci) (l : Link κ) (i : Fin numRegions) :
    (pciefwProbeDevice q l).peer.dev.barSize = l.peer.dev.barSize ∧
      (pciefwProbeDevice q l).qemu.barSize i
        = (recoverSize (writtenWord l.peer.dev i (BitVec.allOnes 32))).setWidth 64 := by
  obtain ⟨hdev, _, hin⟩ := probeRegions_spec q (List.finRange numRegions) (probeStart q l)
    (List.nodup_finRange _)
  rw [pciefwProbeDevice, probeFinish_peer, probeFinish_barSize]
  exact ⟨hdev, hin i (List.mem_finRange i)⟩

/-- The word at index 6 is not a BAR: it reads back as all ones, so the probe finds 16 bytes. -/
theorem pciefwProbeDevice_extra_region (q : QemuPci) (l : Link κ) :
    (pciefwProbeDevice q l).qemu.barSize 6 = 16 := by
  rw [(pciefwProbeDevice_sizes q l 6).2, writtenWord, dif_neg fun h => absurd h.1 (by decide)]
  decide

/-! ### The six BARs -/

/-- A size the probe can be asked to recover. -/
def ProbeBarSize (size : BitVec 64) : Prop :=
  size = 0 ∨ ∃ k, 4 ≤ k ∧ k ≤ 31 ∧ size = BitVec.ofNat 64 (2 ^ k)

theorem recoverSize_probeValue {size : BitVec 64} (h : ProbeBarSize size) (h0 : size ≠ 0) :
    (recoverSize (probeValue size)).setWidth 64 = size := by
  obtain ⟨k, hk, hk', rfl⟩ := h.resolve_left h0
  have hall : ∀ k : Fin 32, 4 ≤ k.val →
      (recoverSize (probeValue (BitVec.ofNat 64 (2 ^ k.val)))).setWidth 64
        = BitVec.ofNat 64 (2 ^ k.val) := by decide
  exact hall ⟨k, by omega⟩ hk

/-- What the probe relies on from the PCI core: registering a memory BAR zeroes its own register,
and nothing else touches the six registers in `pci_conf`. -/
structure QemuPci.KeepsBars (q : QemuPci) : Prop where
  registerBar : ∀ j size m (i : Fin barCount),
    cfgWord (q.pciRegisterBar j size m) i = if i.val = j.val then 0 else cfgWord m i
  msiInit : ∀ m (i : Fin barCount), cfgWord (q.msiInit m) i = cfgWord m i
  msiUninit : ∀ m (i : Fin barCount), cfgWord (q.msiUninit m) i = cfgWord m i

/-- The invariant of the loop on the copies of the registers: QEMU's is never all ones, and the
device holds it once its turn has passed. -/
theorem probeRegions_words (q : QemuPci) (hq : q.KeepsBars) (is : List (Fin numRegions)) :
    ∀ l : Link κ, is.Nodup →
      (∀ i : Fin barCount, cfgWord l.qemu.pciConf i ≠ BitVec.allOnes 32) →
      let l' := is.foldl (probeRegion q) l
      ∀ i : Fin barCount, i.castLE (by decide) ∈ is ∨
          cfgWord l.peer.dev.config i = cfgWord l.qemu.pciConf i →
        cfgWord l'.peer.dev.config i = cfgWord l'.qemu.pciConf i := by
  induction is with
  | nil =>
    intro l _ _ l' i hi
    exact hi.resolve_left (by simp)
  | cons k is ih =>
    intro l hnodup hones l' i hi
    obtain ⟨hk, hnodup⟩ := List.nodup_cons.mp hnodup
    obtain ⟨_, _, hconf, hothers, hself⟩ := probeRegion_spec q l k
    have hconf' : ∀ i : Fin barCount, cfgWord (probeRegion q l k).qemu.pciConf i
        = cfgWord l.qemu.pciConf i ∨ i.val = k.val ∧
          cfgWord (probeRegion q l k).qemu.pciConf i = 0 := by
      intro i
      rw [hconf]
      split_ifs with h0
      · exact Or.inl rfl
      · rw [hq.registerBar]
        by_cases hik : i.val = k.val
        · exact Or.inr ⟨hik, if_pos hik⟩
        · exact Or.inl (if_neg hik)
    have hones' : ∀ i : Fin barCount,
        cfgWord (probeRegion q l k).qemu.pciConf i ≠ BitVec.allOnes 32 := by
      intro i
      rcases hconf' i with h | h
      · rw [h]
        exact hones i
      · rw [h.2]
        decide
    refine ih (probeRegion q l k) hnodup hones' i ?_
    by_cases hik : i.val = k.val
    · right
      have := hself (by rw [← hik]; exact hones' i)
      rwa [← hik] at this
    · rcases hi with hi | hi
      · refine Or.inl ((List.mem_cons.mp hi).resolve_left fun h => hik ?_)
        exact congrArg Fin.val h
      · refine Or.inr ?_
        rw [hothers i hik, (hconf' i).resolve_right fun h => hik h.1, hi]

theorem unprobeRegion_pciConf (is : List (Fin numRegions)) :
    ∀ s : PciefwState, (is.foldl unprobeRegion s).pciConf = s.pciConf := by
  induction is with
  | nil => exact fun s => rfl
  | cons k is ih =>
    intro s
    rw [List.foldl_cons, ih]
    simp only [unprobeRegion]
    split_ifs <;> rfl

theorem pciefwUnprobeDevice_pciConf (q : QemuPci) (hq : q.KeepsBars) (s : PciefwState)
    (i : Fin barCount) :
    cfgWord (pciefwUnprobeDevice q s).pciConf i = cfgWord s.pciConf i := by
  unfold pciefwUnprobeDevice
  split_ifs
  · simp only [unprobeRegion_pciConf, hq.msiUninit]
  · rfl

/-- **The six BARs agree.**  For a device whose registers start at zero, QEMU recovers every BAR
size, and the registers end at the values QEMU keeps. -/
theorem pciefwProbeDevice_bars (q : QemuPci) (hq : q.KeepsBars) (l : Link κ)
    (hsize : ∀ i, ProbeBarSize (l.peer.dev.barSize i)) (hfresh : ∀ i, barWord l.peer.dev i = 0)
    (hones : ∀ i : Fin barCount, cfgWord l.qemu.pciConf i ≠ BitVec.allOnes 32)
    (i : Fin barCount) :
    (pciefwProbeDevice q l).qemu.barSize (i.castLE (by decide))
        = (pciefwProbeDevice q l).peer.dev.barSize i ∧
      barWord (pciefwProbeDevice q l).peer.dev i
        = cfgWord (pciefwProbeDevice q l).qemu.pciConf i := by
  obtain ⟨hdev, hqemu⟩ := pciefwProbeDevice_sizes q l (i.castLE (by decide))
  have hword : writtenWord l.peer.dev (i.castLE (by decide)) (BitVec.allOnes 32)
      = if l.peer.dev.barSize i ≠ 0 then probeValue (l.peer.dev.barSize i) else 0 := by
    rw [← hfresh i, writtenWord, dif_pos ⟨i.isLt, rfl⟩]
    rfl
  constructor
  · rw [hqemu, hdev, hword]
    by_cases h0 : l.peer.dev.barSize i = 0
    · rw [if_neg (not_not.mpr h0), h0]
      decide
    · rw [if_pos h0]
      exact recoverSize_probeValue (hsize i) h0
  · -- the command register lies below the BARs
    have hcommand : ∀ i : Fin barCount,
        cfgWord (probeStart q l).qemu.pciConf i = cfgWord l.qemu.pciConf i := by
      intro i
      rw [probeStart, cfgWord, load_store_disjoint _ _ _ _ _ (by simp; omega), ← cfgWord,
        pciefwUnprobeDevice_pciConf q hq]
    have hrun := probeRegions_words q hq (List.finRange numRegions) (probeStart q l)
      (List.nodup_finRange _) (fun i => by rw [hcommand]; exact hones i) i
      (Or.inl (List.mem_finRange _))
    rw [pciefwProbeDevice, barWord, probeFinish_peer, probeFinish_pciConf, hq.msiInit]
    exact hrun

/-! ### Agreement -/

/-- **Probing never agrees.**  Whatever the device and its sizes, a memory region of 16 bytes is
registered at the index past the BARs. -/
theorem pciefwProbeDevice_not_agrees (q : QemuPci) (l : Link κ) :
    ¬ProbeAgrees (pciefwProbeDevice q l) := by
  intro h
  have h6 := h.2.1 6 (by decide)
  rw [pciefwProbeDevice_extra_region] at h6
  exact absurd h6 (by decide)

/-- A PCI core that zeroes the register of a memory BAR (the ROM register for index 6). -/
def memoryBarPci : QemuPci where
  pciRegisterBar i _ m := store m (if i.val = 6 then 0x30 else 0x10 + 4 * i.val) (leBytes 4 0)
  msiInit m := m
  msiUninit m := m

/-- QEMU as `pciefw_init_common` leaves it, connected to the C DMA device. -/
def dmaLink : Link Unit where
  qemu := ⟨false, fun _ => 0, fun _ => ⟨0, false⟩, fun _ => 0, fun _ => 0, []⟩
  peer := ⟨dmaDev, fun _ => 0⟩

/-- The C DMA device has one BAR, of `0x100` bytes at index 1, and the probe registers two
regions. -/
theorem pciefwProbeDevice_dma_fails :
    (∀ i, ProbeBarSize (dmaLink.peer.dev.barSize i)) ∧ (∀ i, barWord dmaLink.peer.dev i = 0) ∧
      ¬ProbeAgrees (pciefwProbeDevice memoryBarPci dmaLink) := by
  refine ⟨fun i => ?_, fun i => ?_, fun h => ?_⟩
  · by_cases hi : i = 1
    · subst hi
      exact Or.inr ⟨8, by omega, by omega, by decide⟩
    · left
      revert i
      decide
  · revert i
    decide
  · have h6 := h.2.1 6 (by decide)
    rw [pciefwProbeDevice_extra_region] at h6
    exact absurd h6 (by decide)

end VPcie.Qemu
