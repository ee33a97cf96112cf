import VPcie.Device.OnMsgRecv

/-!
# What config accesses touch

`pcie_check_config` compares `addr + size`, a 64-bit sum, with the size of the configuration space.
The lists here are the indices into `dev->config` of the bytes that the `memcpy` of an access
copies, for each of the functions that make one.

* `pcieCheckConfig_iff_inConfig` — the check accepts the accesses inside the space, and those that
  end at the top of the address space, where the sum is 0;
* `onWriteConfig_beside`, `onReadConfig_congr` — a handler changes and reads the listed bytes only;
* `configAccesses_inside_iff` — in which runs of config messages all indices are inside.
-/

namespace VPcie.Device

open VPcie.Lib VPcie.Net

variable {κ : Type}

/-! ### The check -/

/-- The access is aligned, and ends inside the configuration space. -/
def InConfig (addr : BitVec 64) (k : ℕ) : Prop := k ∣ addr.toNat ∧ addr.toNat + k ≤ 0x1000

instance (addr : BitVec 64) (k : ℕ) : Decidable (InConfig addr k) :=
  inferInstanceAs (Decidable (_ ∧ _))

theorem IsWidth.bounds {k : ℕ} (hk : IsWidth k) : 0 < k ∧ k ≤ 4 := by
  rcases hk with rfl | rfl | rfl
  · exact ⟨by decide, by decide⟩
  · exact ⟨by decide, by decide⟩
  · exact ⟨by decide, by decide⟩

/-- **What the check accepts**, for the widths of the accessors. -/
theorem pcieCheckConfig_iff_inConfig (addr : BitVec 64) {k : ℕ} (hk : IsWidth k) :
    pcieCheckConfig addr (BitVec.ofNat 64 k) = true ↔
      InConfig addr k ∨ addr.toNat + k = 2 ^ 64 := by
  obtain ⟨j, hj, rfl⟩ : ∃ j, j < 64 ∧ k = 2 ^ j := by
    rcases hk with rfl | rfl | rfl
    · exact ⟨0, by decide, rfl⟩
    · exact ⟨1, by decide, rfl⟩
    · exact ⟨2, by decide, rfl⟩
  have hlt : 2 ^ j < 2 ^ 64 := Nat.pow_lt_pow_right (by omega) hj
  have hpos : 0 < 2 ^ j := Nat.two_pow_pos j
  have haddr := addr.isLt
  rw [pcieCheckConfig_iff, and_mask_eq_zero_iff addr hj, BitVec.toNat_add, BitVec.toNat_ofNat,
    Nat.mod_eq_of_lt hlt]
  -- an aligned access does not go beyond the top of the address space
  have htop : 2 ^ j ∣ addr.toNat → addr.toNat + 2 ^ j ≤ 2 ^ 64 := by
    intro hdvd
    have hdvd64 : 2 ^ j ∣ 2 ^ 64 := Nat.pow_dvd_pow 2 hj.le
    have hle := Nat.le_of_dvd (by omega) (Nat.dvd_sub hdvd64 hdvd)
    omega
  constructor
  · rintro ⟨hdvd, hsum⟩
    have hend := htop hdvd
    by_cases htop : addr.toNat + 2 ^ j = 2 ^ 64
    · exact Or.inr htop
    · rw [Nat.mod_eq_of_lt (by omega)] at hsum
      exact Or.inl ⟨hdvd, hsum⟩
  · rintro (⟨hdvd, hsum⟩ | hend)
    · rw [Nat.mod_eq_of_lt (by omega)]
      exact ⟨hdvd, hsum⟩
    · rw [hend, Nat.mod_self]
      have hdvd64 : 2 ^ j ∣ addr.toNat + 2 ^ j := hend ▸ Nat.pow_dvd_pow 2 hj.le
      exact ⟨(Nat.dvd_add_left (dvd_refl _)).mp hdvd64, Nat.zero_le _⟩

/-! ### The copied bytes -/

/-- The indices of `pcie_write_config` and `pcie_read_config`. -/
def pcieConfigCopied (addr : BitVec 64) (k : ℕ) : List ℕ :=
  if pcieCheckConfig addr (BitVec.ofNat 64 k) then (List.range k).map (addr.toNat + ·) else []

/-- The indices of the `switch` on the width, in either handler. -/
def switchCopied (msg : PcieNetMsg) : List ℕ :=
  if msg.width = 1 then pcieConfigCopied msg.addr 1
  else if msg.width = 2 then pcieConfigCopied msg.addr 2
  else if msg.width = 4 then pcieConfigCopied msg.addr 4
  else []

/-- The indices of `on_write_config`. -/
def onWriteConfigCopied (dev : PcieDev κ) (msg : PcieNetMsg) : List ℕ :=
  if h : pciBaseAddress0 ≤ msg.addr ∧ msg.addr ≤ pciBaseAddress5 then
    if (msg.dataWord 32 4 : BitVec 32) = BitVec.allOnes 32 then
      if dev.barSize (barIndex msg.addr h) ≠ 0 then pcieConfigCopied msg.addr 4 else []
    else switchCopied msg
  else if msg.addr = pciRomAddress then []
  else switchCopied msg

/-- The indices of `on_msg_recv`, the handler of a BAR left out. -/
def onMsgRecvCopied (dev : PcieDev κ) (msg : PcieNetMsg) : List ℕ :=
  if msg.op = opReadConfig then switchCopied msg
  else if msg.op = opWriteConfig then onWriteConfigCopied dev msg
  else []

/-- The device after `on_msg_recv`, the handler of a BAR left out. -/
def afterMsg (dev : PcieDev κ) (msg : PcieNetMsg) : PcieDev κ :=
  match onMsgRecv dev msg with
  | .done dev => dev
  | .reply dev _ => dev
  | .barRead _ => dev
  | .barWrite _ => dev

/-- The indices of the messages received one after the other. -/
def configAccesses : PcieDev κ → List PcieNetMsg → List ℕ
  | _, [] => []
  | dev, msg :: msgs => onMsgRecvCopied dev msg ++ configAccesses (afterMsg dev msg) msgs

section Copied

variable {addr : BitVec 64} {msg : PcieNetMsg}

theorem mem_pcieConfigCopied {k i : ℕ} :
    i ∈ pcieConfigCopied addr k ↔
      pcieCheckConfig addr (BitVec.ofNat 64 k) = true ∧ addr.toNat ≤ i ∧ i < addr.toNat + k := by
  unfold pcieConfigCopied
  split
  · rename_i hcheck
    rw [List.mem_map]
    constructor
    · rintro ⟨j, hj, rfl⟩
      have hjk := List.mem_range.mp hj
      exact ⟨hcheck, by omega, by omega⟩
    · rintro ⟨-, hlo, hhi⟩
      exact ⟨i - addr.toNat, List.mem_range.mpr (by omega), by omega⟩
  · rename_i hcheck
    exact iff_of_false List.not_mem_nil fun h => hcheck h.1

/-- The switch makes the access of the message's width, or none. -/
theorem mem_switchCopied {i : ℕ} :
    i ∈ switchCopied msg ↔
      IsWidth msg.width.toNat ∧ i ∈ pcieConfigCopied msg.addr msg.width.toNat := by
  have hswitch : switchCopied msg
      = if IsWidth msg.width.toNat then pcieConfigCopied msg.addr msg.width.toNat else [] :=
    switch_width msg.width (pcieConfigCopied msg.addr) []
  rw [hswitch]
  by_cases hk : IsWidth msg.width.toNat
  · rw [if_pos hk]
    exact (and_iff_right hk).symm
  · rw [if_neg hk]
    exact iff_of_false List.not_mem_nil fun h => hk h.1

end Copied

/-! ### The lists are what the handlers touch -/

section Frame

variable {dev dev' : PcieDev κ} {msg : PcieNetMsg}

theorem pcieWriteConfig_beside_copied {addr : BitVec 64} {data : List Byte} {i : ℕ}
    (h : i ∉ pcieConfigCopied addr data.length) :
    (pcieWriteConfig dev addr data).config i = dev.config i := by
  unfold pcieWriteConfig
  split
  · rename_i hcheck
    refine if_neg ?_
    rintro ⟨hlo, hhi⟩
    exact h (mem_pcieConfigCopied.mpr ⟨hcheck, hlo, hhi⟩)
  · rfl

theorem pcieReadConfig_congr {addr : BitVec 64} {k : ℕ}
    (h : ∀ i ∈ pcieConfigCopied addr k, dev.config i = dev'.config i) :
    pcieReadConfig dev addr k = pcieReadConfig dev' addr k := by
  unfold pcieReadConfig
  split
  · rename_i hcheck
    have hload : load dev.config addr.toNat k = load dev'.config addr.toNat k := by
      apply load_congr
      intro j hj
      exact h _ (mem_pcieConfigCopied.mpr ⟨hcheck, by omega, by omega⟩)
    rw [hload]
  · rfl

theorem defaultWriteConfig_beside {i : ℕ} (h : i ∉ switchCopied msg) :
    (defaultWriteConfig dev msg).config i = dev.config i := by
  rw [defaultWriteConfig_eq]
  split
  · rename_i hk
    have hout : i ∉ pcieConfigCopied msg.addr (load msg.data 0 msg.width.toNat).length := by
      rw [load_length]
      exact fun hi => h (mem_switchCopied.mpr ⟨hk, hi⟩)
    exact pcieWriteConfig_beside_copied hout
  · rfl

/-- **A config write changes the listed bytes only.** -/
theorem onWriteConfig_beside {i : ℕ} (h : i ∉ onWriteConfigCopied dev msg) :
    (onWriteConfig dev msg).config i = dev.config i := by
  unfold onWriteConfigCopied at h
  unfold onWriteConfig
  split
  · rename_i hbar
    rw [dif_pos hbar] at h
    simp only
    split
    · rename_i hones
      rw [if_pos hones] at h
      split
      · rename_i hsize
        rw [if_pos hsize] at h
        exact pcieWriteConfig_beside_copied h
      · rfl
    · rename_i hones
      rw [if_neg hones] at h
      exact defaultWriteConfig_beside h
  · rename_i hbar
    rw [dif_neg hbar] at h
    split
    · rfl
    · rename_i hrom
      rw [if_neg hrom] at h
      exact defaultWriteConfig_beside h

/-- **A config read depends on the listed bytes only.** -/
theorem onReadConfig_congr (h : ∀ i ∈ switchCopied msg, dev.config i = dev'.config i) :
    onReadConfig dev msg = onReadConfig dev' msg := by
  have hdata : (onReadConfig dev msg).data = (onReadConfig dev' msg).data := by
    rw [onReadConfig_data, onReadConfig_data]
    split
    · rename_i hk
      rw [pcieReadConfig_congr fun i hi => h i (mem_switchCopied.mpr ⟨hk, hi⟩)]
    · rfl
  exact congrArg (PcieNetReply.mk 0) hdata

end Frame

/-! ### In which runs the indices are inside -/

/-- The access of the message ends at the top of the address space. -/
def EndsAtTop (msg : PcieNetMsg) : Prop :=
  IsWidth msg.width.toNat ∧ msg.addr.toNat + msg.width.toNat = 2 ^ 64

instance (msg : PcieNetMsg) : Decidable (EndsAtTop msg) := inferInstanceAs (Decidable (_ ∧ _))

theorem pcieConfigCopied_inside_iff {addr : BitVec 64} {k : ℕ} (hk : IsWidth k) :
    (∀ i ∈ pcieConfigCopied addr k, i < 0x1000) ↔ addr.toNat + k ≠ 2 ^ 64 := by
  have hpos := hk.bounds
  constructor
  · intro hinside htop
    have hcheck := (pcieCheckConfig_iff_inConfig addr hk).mpr (Or.inr htop)
    have hfirst := hinside addr.toNat (mem_pcieConfigCopied.mpr ⟨hcheck, le_rfl, by omega⟩)
    omega
  · intro htop i hi
    obtain ⟨hcheck, -, hhi⟩ := mem_pcieConfigCopied.mp hi
    rcases (pcieCheckConfig_iff_inConfig addr hk).mp hcheck with hin | hend
    · exact lt_of_lt_of_le hhi hin.2
    · exact absurd hend htop

theorem switchCopied_inside_iff (msg : PcieNetMsg) :
    (∀ i ∈ switchCopied msg, i < 0x1000) ↔ ¬ EndsAtTop msg := by
  by_cases hk : IsWidth msg.width.toNat
  · have hsame : ∀ i, i ∈ switchCopied msg ↔ i ∈ pcieConfigCopied msg.addr msg.width.toNat :=
      fun i => mem_switchCopied.trans (and_iff_right hk)
    simp only [hsame, pcieConfigCopied_inside_iff hk, EndsAtTop, hk, true_and, ne_eq]
  · refine iff_of_true ?_ fun h => hk h.1
    intro i hi
    exact absurd (mem_switchCopied.mp hi).1 hk

/-- The registers that are handled apart are far from the top. -/
theorem not_endsAtTop_of_le {msg : PcieNetMsg} (h : msg.addr ≤ pciRomAddress) :
    ¬ EndsAtTop msg := by
  rintro ⟨hk, htop⟩
  have hnat : msg.addr.toNat ≤ 0x30 := h
  have hwidth := hk.bounds.2
  omega

/-- **Step lemma.**  A config message stays inside exactly if it does not end at the top. -/
theorem onMsgRecvCopied_inside_iff (dev : PcieDev κ) {msg : PcieNetMsg}
    (hop : msg.op = opReadConfig ∨ msg.op = opWriteConfig) :
    (∀ i ∈ onMsgRecvCopied dev msg, i < 0x1000) ↔ ¬ EndsAtTop msg := by
  rcases hop with hop | hop
  · rw [onMsgRecvCopied, if_pos hop]
    exact switchCopied_inside_iff msg
  have hread : msg.op ≠ opReadConfig := by
    rw [hop]
    decide
  rw [onMsgRecvCopied, if_neg hread, if_pos hop]
  unfold onWriteConfigCopied
  split
  · rename_i hbar
    have hle : msg.addr ≤ pciRomAddress := by
      have hnat : msg.addr.toNat ≤ 0x24 := hbar.2
      show msg.addr.toNat ≤ 0x30
      omega
    have hlow := not_endsAtTop_of_le hle
    split
    · -- a probe writes the whole register
      have hnat : msg.addr.toNat ≤ 0x30 := hle
      have h4 : ∀ i ∈ pcieConfigCopied msg.addr 4, i < 0x1000 :=
        (pcieConfigCopied_inside_iff (Or.inr (Or.inr rfl))).mpr (by omega)
      split
      · exact iff_of_true h4 hlow
      · exact iff_of_true (fun i hi => absurd hi List.not_mem_nil) hlow
    · exact switchCopied_inside_iff msg
  · split
    · rename_i hrom
      exact iff_of_true (fun i hi => absurd hi List.not_mem_nil)
        (not_endsAtTop_of_le (hrom ▸ BitVec.le_refl _))
    · exact switchCopied_inside_iff msg

/-- **The check against its bound, and the accesses of a run.**  The check accepts what is aligned
and inside for all addresses but the one whose access ends at the top of the address space, and the
config messages of a run stay inside exactly if none makes such an access. -/
theorem configAccesses_inside_iff (dev : PcieDev κ) (msgs : List PcieNetMsg)
    (hops : ∀ m ∈ msgs, m.op = opReadConfig ∨ m.op = opWriteConfig) :
    (∀ (addr : BitVec 64) (k : ℕ), IsWidth k →
      ((pcieCheckConfig addr (BitVec.ofNat 64 k) = true ↔ InConfig addr k) ↔
        addr.toNat + k ≠ 2 ^ 64)) ∧
    ((∀ i ∈ configAccesses dev msgs, i < 0x1000) ↔ ∀ m ∈ msgs, ¬ EndsAtTop m) := by
  constructor
  · intro addr k hk
    rw [pcieCheckConfig_iff_inConfig addr hk]
    constructor
    · intro hiff htop
      have hin := hiff.mp (Or.inr htop)
      have hend := hin.2
      omega
    · intro htop
      exact or_iff_left htop
  · induction msgs generalizing dev with
    | nil =>
      exact iff_of_true (fun i hi => absurd hi List.not_mem_nil)
        (fun m hm => absurd hm List.not_mem_nil)
    | cons msg msgs ih =>
      have hmsg := onMsgRecvCopied_inside_iff dev (hops msg List.mem_cons_self)
      have hrest := ih (afterMsg dev msg) fun m hm => hops m (List.mem_cons_of_mem msg hm)
      simp only [configAccesses, List.mem_append, or_imp, forall_and]
      rw [hmsg, hrest, List.forall_mem_cons]

/-- A config message for the word at an address. -/
def configLong (op : Byte) (addr : BitVec 64) : PcieNetMsg := ⟨op, 0, 4, addr, 4, fun _ => 0⟩

/-- A device without BARs, with a configuration space of zeros. -/
def blankDev : PcieDev Unit := ⟨fun _ => 0, fun _ => none, fun _ => none, fun _ => 0⟩

theorem configAccesses_inside_ends :
    ((configAccesses blankDev [configLong opReadConfig 0xffc,
      configLong opWriteConfig 0x1000]).all (· < 0x1000)) = true := by
  have hinside := (configAccesses_inside_iff blankDev
    [configLong opReadConfig 0xffc, configLong opWriteConfig 0x1000] (by decide)).2.mpr (by decide)
  rw [List.all_eq_true]
  intro i hi
  exact decide_eq_true (hinside i hi)

/-- The last word of the address space passes the check, and the four bytes before the configuration
space are read. -/
theorem topWord_accepted :
    pcieCheckConfig 0xfffffffffffffffc 4 = true ∧ ¬ InConfig 0xfffffffffffffffc 4 ∧
      configAccesses blankDev [configLong opReadConfig 0xfffffffffffffffc]
        = [2 ^ 64 - 4, 2 ^ 64 - 3, 2 ^ 64 - 2, 2 ^ 64 - 1] := by
  decide

end VPcie.Device
