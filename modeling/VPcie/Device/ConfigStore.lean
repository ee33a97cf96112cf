import VPcie.Device.ConfigAccess

/-!
# The configuration space as a byte store

Away from the BAR registers and the ROM register, a config write is a store of the low bytes of its
payload, or nothing, and a config read is a load.  The abstract side is `lastBytes`: the memory of
the bytes written last, which knows of no widths and no checks.

* `foldl_afterMsg_config` — the writes of a run are the stores of those that are accepted;
* `config_byteStore` — what a read returns after any run of writes.
-/

namespace VPcie.Device

open VPcie.Lib VPcie.Net

variable {κ : Type}

/-- The addresses of the byte store: no BAR register, no ROM register, and not the top of the
address space. -/
def PlainAddr (addr : BitVec 64) : Prop :=
  addr.toNat < 2 ^ 64 - 4 ∧ ¬ (0x10 ≤ addr.toNat ∧ addr.toNat ≤ 0x24) ∧ addr.toNat ≠ 0x30

instance (addr : BitVec 64) : Decidable (PlainAddr addr) := inferInstanceAs (Decidable (_ ∧ _ ∧ _))

/-- The access has a width of the accessors, is aligned, and lies inside. -/
def Accepted (msg : PcieNetMsg) : Prop :=
  IsWidth msg.width.toNat ∧ InConfig msg.addr msg.width.toNat

instance (msg : PcieNetMsg) : Decidable (Accepted msg) := inferInstanceAs (Decidable (_ ∧ _))

/-- What a write message writes, and where. -/
def acceptedWrite (msg : PcieNetMsg) : Option (ℕ × List Byte) :=
  if Accepted msg then some (msg.addr.toNat, load msg.data 0 msg.width.toNat) else none

/-! ### One message -/

/-- Below the top, the check is the alignment and the bound. -/
theorem pcieCheckConfig_plain {addr : BitVec 64} (hplain : PlainAddr addr) {k : ℕ}
    (hk : IsWidth k) : pcieCheckConfig addr (BitVec.ofNat 64 k) = true ↔ InConfig addr k := by
  rw [pcieCheckConfig_iff_inConfig addr hk]
  refine or_iff_left ?_
  intro htop
  have hbelow := hplain.1
  have hwidth := hk.bounds.2
  omega

/-- A plain write is a standard write exactly if it is accepted. -/
theorem standardWrite_plain {msg : PcieNetMsg} (hplain : PlainAddr msg.addr) :
    StandardWrite msg ↔ Accepted msg := by
  have hbar : ¬ (pciBaseAddress0 ≤ msg.addr ∧ msg.addr ≤ pciBaseAddress5 ∧
      msg.dataWord 32 4 = BitVec.allOnes 32) := fun h => hplain.2.1 ⟨h.1, h.2.1⟩
  have hrom : msg.addr ≠ pciRomAddress := fun h => hplain.2.2 (congrArg BitVec.toNat h)
  rw [StandardWrite, Accepted, and_iff_right hbar, and_iff_right hrom, ← isWidth_toNat,
    ← BitVec.ofNat_toNat]
  exact and_congr_right fun hk => pcieCheckConfig_plain hplain hk

/-- **A plain write is a store, or nothing.** -/
theorem onWriteConfig_plain (dev : PcieDev κ) {msg : PcieNetMsg} (hplain : PlainAddr msg.addr) :
    (onWriteConfig dev msg).config
      = (acceptedWrite msg).toList.foldl (fun m w => store m w.1 w.2) dev.config := by
  have hstandard := standardWrite_plain hplain
  rcases onWriteConfig_cases dev msg with ⟨hns, h⟩ | ⟨-, i, haddr, -⟩ | ⟨hs, h⟩
  · rw [h, acceptedWrite, if_neg (fun ha => hns (hstandard.mpr ha))]
    rfl
  · -- a probe is at a BAR register
    have hi : i.val < 6 := i.isLt
    exact absurd ⟨by omega, by omega⟩ hplain.2.1
  · rw [h, acceptedWrite, if_pos (hstandard.mp hs)]
    rfl

theorem afterMsg_writeConfig (dev : PcieDev κ) {msg : PcieNetMsg} (hop : msg.op = opWriteConfig) :
    afterMsg dev msg = onWriteConfig dev msg := by
  have hread : msg.op ≠ opReadConfig := by
    rw [hop]
    decide
  have hdisp : onMsgRecv dev msg = .done (onWriteConfig dev msg) := by
    rw [onMsgRecv, if_neg hread, if_pos hop]
  rw [afterMsg, hdisp]

/-- **What a plain read returns.** -/
theorem onReadConfig_plain (dev : PcieDev κ) {msg : PcieNetMsg} (hplain : PlainAddr msg.addr)
    (hk : IsWidth msg.width.toNat) :
    (onReadConfig dev msg).data.toNat
      = if InConfig msg.addr msg.width.toNat then
          leNat (load dev.config msg.addr.toNat msg.width.toNat)
        else 2 ^ (8 * msg.width.toNat) - 1 := by
  have hwide : 8 * msg.width.toNat ≤ 64 := by
    have hwidth := hk.bounds.2
    omega
  rw [onReadConfig_data, if_pos hk, BitVec.toNat_setWidth_of_le hwide]
  unfold pcieReadConfig
  by_cases hin : InConfig msg.addr msg.width.toNat
  · rw [if_pos hin, if_pos ((pcieCheckConfig_plain hplain hk).mpr hin), BitVec.toNat_ofNat]
    apply Nat.mod_eq_of_lt
    have hlt := leNat_lt (load dev.config msg.addr.toNat msg.width.toNat)
    rw [load_length] at hlt
    rwa [pow_mul]
  · rw [if_neg hin, if_neg (fun h => hin ((pcieCheckConfig_plain hplain hk).mp h))]
    exact BitVec.toNat_allOnes

/-! ### Runs -/

/-- **The writes of a run are stores**, one after the other. -/
theorem foldl_afterMsg_config (dev : PcieDev κ) (msgs : List PcieNetMsg)
    (hwrites : ∀ m ∈ msgs, m.op = opWriteConfig ∧ PlainAddr m.addr) :
    (msgs.foldl afterMsg dev).config
      = (msgs.filterMap acceptedWrite).foldl (fun m w => store m w.1 w.2) dev.config := by
  induction msgs generalizing dev with
  | nil => rfl
  | cons msg msgs ih =>
    obtain ⟨hop, hplain⟩ := hwrites msg List.mem_cons_self
    have hstep : (afterMsg dev msg).config
        = (acceptedWrite msg).toList.foldl (fun m w => store m w.1 w.2) dev.config := by
      rw [afterMsg_writeConfig dev hop]
      exact onWriteConfig_plain dev hplain
    rw [List.foldl_cons, ih _ fun m hm => hwrites m (List.mem_cons_of_mem msg hm), hstep]
    cases hacc : acceptedWrite msg with
    | none => rw [List.filterMap_cons_none hacc]; rfl
    | some w => rw [List.filterMap_cons_some hacc]; rfl

/-- **The configuration space is a byte store**: after any run of plain writes, a plain read of a
width of the accessors returns the bytes written last, zero-extended, or all ones if it is
misaligned or does not end inside, and one more write that is not accepted changes no byte. -/
theorem config_byteStore (dev : PcieDev κ) (msgs : List PcieNetMsg)
    (hwrites : ∀ m ∈ msgs, m.op = opWriteConfig ∧ PlainAddr m.addr) :
    let after := msgs.foldl afterMsg dev
    (∀ msg : PcieNetMsg, msg.op = opReadConfig → PlainAddr msg.addr → IsWidth msg.width.toNat →
      ∃ r, onMsgRecv after msg = .reply after r ∧
        r.data.toNat = if InConfig msg.addr msg.width.toNat then
            leNat (load (lastBytes dev.config (msgs.filterMap acceptedWrite)) msg.addr.toNat
              msg.width.toNat)
          else 2 ^ (8 * msg.width.toNat) - 1) ∧
    (∀ msg : PcieNetMsg, msg.op = opWriteConfig → PlainAddr msg.addr → ¬ Accepted msg →
      ∀ a, (afterMsg after msg).config a = after.config a) := by
  intro after
  constructor
  · intro msg hop hplain hk
    refine ⟨onReadConfig after msg, ?_, ?_⟩
    · rw [onMsgRecv, if_pos hop]
    · rw [onReadConfig_plain after hplain hk, ← foldl_store,
        ← foldl_afterMsg_config dev msgs hwrites]
  · intro msg hop hplain hrejected a
    rw [afterMsg_writeConfig after hop, onWriteConfig_plain after hplain, acceptedWrite,
      if_neg hrejected]
    rfl

/-- A word, and a byte inside it. -/
def wordThenByte : List PcieNetMsg :=
  [⟨opWriteConfig, 0, 4, 0x40, 4, fun _ => 0x11⟩, ⟨opWriteConfig, 0, 1, 0x42, 1, fun _ => 0xaa⟩]

theorem config_byteStore_wordThenByte :
    let after := wordThenByte.foldl afterMsg blankDev
    ∃ r, onMsgRecv after (configLong opReadConfig 0x40) = .reply after r ∧
      r.data.toNat = 0x11aa1111 := by
  obtain ⟨r, hreply, hdata⟩ := (config_byteStore blankDev wordThenByte (by decide)).1
    (configLong opReadConfig 0x40) (by decide) (by decide) (by decide)
  exact ⟨r, hreply, hdata.trans (by decide)⟩

end VPcie.Device
