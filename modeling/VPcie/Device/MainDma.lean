import VPcie.Device.OnMsgRecv
import VPcie.Lib.Runs
import VPcie.Lib.Words

/-!
# The DMA device in C

`main_dma.c`: the device `dma_t`, its two BAR handlers and the task that finalizes a transfer.
`mem` is the memory from `dma->regs` on, addressed by the offset from it: five registers, the bram,
the saved context, and what lies behind the structure.  The handlers are given any address and do
not check it.

* `onRead`, `onWrite`, `finalizeTransfer` — the handlers and the task;
* `Dma.step` — one turn of `pcie_net_loop`: a message, or the timeout of the task;
* `recv_access` — all a 32-bit access to the BAR can do.
-/

namespace VPcie.Device

open VPcie.Lib VPcie.Net

/-! ### The structure -/

/-- The registers of `bar[1]`. -/
inductive DmaReg where
  | ctl
  | sta
  | adl
  | adh
  | baz
deriving DecidableEq, Repr

/-- `DMA_REG_CTL` and the others. -/
def DmaReg.index : DmaReg → ℕ
  | .ctl => 0
  | .sta => 1
  | .adl => 2
  | .adh => 3
  | .baz => 4

/-- `DMA_REG_ADDR`. -/
def DmaReg.addr (r : DmaReg) : BitVec 64 := BitVec.ofNat 64 (r.index * 4)

/-- Where `bram` starts. -/
def bramOff : ℕ := 20

/-- `sizeof(dma->bram)`. -/
def bramSize : ℕ := 8 * 0x1000

/-- The words of the saved context, behind the bram. -/
def savedCtl : ℕ := 8197
def savedAdh : ℕ := 8198
def savedAdl : ℕ := 8199
def savedBaz : ℕ := 8200

/-- The saved context begins where the bram ends. -/
theorem savedCtl_off : 4 * savedCtl = bramOff + bramSize := rfl

/-- `dma_t`.  `task` tells whether `net.task_fn` is set: `finalize_transfer` is the only task. -/
structure Dma where
  dev : PcieDev Unit
  mem : Mem
  task : Bool

/-- `dma->regs[r]`. -/
def Dma.reg (d : Dma) (r : DmaReg) : BitVec 32 := word d.mem r.index

/-- The bytes of the bram. -/
def Dma.bram (d : Dma) (i : ℕ) : Byte := d.mem (bramOff + i)

/-- The loop of `main` over the bram. -/
def initBram (mem : Mem) : ℕ → Mem
  | 0 => mem
  | i + 1 => store (initBram mem i) (bramOff + i) [BitVec.ofNat 8 i]

/-- `main` up to `pcie_loop`; `mem` and `dev` are what the stack held. -/
def mainDma (dev : PcieDev Unit) (mem : Mem) : Dma where
  dev := pcieSetBar (pcieSetDeviceid (pcieSetVendorid (initCommon dev) 0x2a2a) 0x2b2b) 1 0x100
    (some ()) (some ())
  mem := initBram mem bramSize
  task := false

/-! ### What the device shows -/

/-- In the order of the program: a message sent, the reply to a read, a value the device gives to
its status register. -/
inductive Effect where
  | send (c : Content)
  | reply (r : PcieNetReply)
  | status (v : BitVec 32)
deriving DecidableEq, Repr

/-! ### The BAR handlers -/

/-- The `case` labels of `on_read`. -/
def IsDmaReg (addr : BitVec 64) : Prop :=
  addr = DmaReg.ctl.addr ∨ addr = DmaReg.sta.addr ∨ addr = DmaReg.adl.addr ∨
    addr = DmaReg.adh.addr ∨ addr = DmaReg.baz.addr

instance (addr : BitVec 64) : Decidable (IsDmaReg addr) :=
  inferInstanceAs (Decidable (_ ∨ _ ∨ _ ∨ _ ∨ _))

/-- `on_read`: the bytes at `data`. -/
def onRead (d : Dma) (addr : BitVec 64) (size : ℕ) : List Byte :=
  if IsDmaReg addr then load d.mem addr.toNat size else List.replicate size 0xff

/-- The bits of `DMA_REG_CTL`. -/
def ctlStart : BitVec 32 := 1 <<< 31
def ctlMsi : BitVec 32 := 1 <<< 30

/-- The context of the completion, captured from the registers. -/
def capture (mem : Mem) (r : BitVec 32) : Mem :=
  let mem := setWord mem savedCtl r
  let mem := setWord mem savedAdl (word mem DmaReg.adl.index)
  let mem := setWord mem savedAdh (word mem DmaReg.adh.index)
  setWord mem savedBaz (word mem DmaReg.baz.index)

/-- `on_write`: the bytes are copied wherever the address says; a write of CTL may start a
transfer. -/
def onWrite (d : Dma) (addr : BitVec 64) (data : List Byte) : Dma × List Effect :=
  let d := { d with mem := store d.mem addr.toNat data }
  if addr = DmaReg.ctl.addr then
    let r := d.reg .ctl
    if r &&& ctlStart ≠ 0 then
      ({ d with mem := setWord (capture d.mem r) DmaReg.sta.index 0, task := true }, [.status 0])
    else (d, [])
  else (d, [])

/-! ### The task -/

/-- The memory `finalize_transfer` finds: the message from `malloc`, unless it fails, and the buffer
of `pcie_send_msi`. -/
structure Fresh where
  msg : Option PcieNetMsg
  msi : PcieNetMsg

/-- `m->data[j] += (uint8_t)dma->saved_baz` for all `j` below the count. -/
def addBaz (baz : BitVec 32) (data : Mem) : ℕ → Mem
  | 0 => data
  | j + 1 => store (addBaz baz data j) j [addBaz baz data j j + baz.setWidth 8]

/-- `m->size` bytes from `p` on, with the seed added. -/
def fill (mem : Mem) (m : PcieNetMsg) (p : ℕ) : PcieNetMsg :=
  { m with
    data := addBaz (word mem savedBaz) (store m.data 0 (load mem p m.size.toNat)) m.size.toNat }

/-- `size_per_m`. -/
def sizePerM : ℕ := 0x1000

/-- The loop over the pages: what is sent, and `m` and `p` after it. -/
def sendPages (mem : Mem) : ℕ → PcieNetMsg → ℕ → List Content × PcieNetMsg × ℕ
  | 0, m, p => ([], m, p)
  | n + 1, m, p =>
    let m := fill mem m p
    let rest := sendPages mem n { m with addr := m.addr + BitVec.ofNat 64 sizePerM } (p + sizePerM)
    (m.content :: rest.1, rest.2)

/-- `pcie_send_msi`. -/
def pcieSendMsi (buf : PcieNetMsg) : Content :=
  PcieNetMsg.content
    { buf with op := opMsi, size := 8, data := store buf.data 0 (List.replicate 8 0) }

/-- The destination, from the saved context. -/
def savedAddr (mem : Mem) : BitVec 64 :=
  (word mem savedAdh).setWidth 64 <<< 32 ||| (word mem savedAdl).setWidth 64

/-- The status at the end of a transfer. -/
def doneStatus (ctl : BitVec 32) : BitVec 32 := 1 <<< 31 ||| ctl &&& 0xffff

/-- `finalize_transfer`. -/
def finalizeTransfer (d : Dma) (fresh : Fresh) : Dma × List Effect :=
  match fresh.msg with
  | none => (d, [])
  | some m =>
    let m := { m with op := opWriteMem, addr := savedAddr d.mem, size := BitVec.ofNat 16 sizePerM }
    let pages := sendPages d.mem (bramSize / sizePerM) m bramOff
    let m := { pages.2.1 with size := BitVec.ofNat 16 (bramSize % sizePerM) }
    let rest := if m.size ≠ 0 then [(fill d.mem m pages.2.2).content] else []
    let ctl := word d.mem savedCtl
    let msi := if ctl &&& ctlMsi ≠ 0 then [pcieSendMsi fresh.msi] else []
    ({ d with mem := setWord d.mem DmaReg.sta.index (doneStatus ctl) },
      (pages.1 ++ rest).map .send ++ .status (doneStatus ctl) :: msi.map .send)

/-! ### The loop -/

/-- What `select` returns for: a message has been received, or the time of the task is over. -/
inductive Event where
  | recv (m : PcieNetMsg)
  | timeout (fresh : Fresh)

/-- `on_msg_recv` with the handlers of the device, and the reply. -/
def Dma.recv (d : Dma) (m : PcieNetMsg) : Dma × List Effect :=
  match onMsgRecv d.dev m with
  | .done dev => ({ d with dev }, [])
  | .reply dev r => ({ d with dev }, [.reply r])
  | .barRead _ => (d, [.reply (barReply (onRead d m.addr m.width.toNat))])
  | .barWrite _ => onWrite d m.addr (load m.data 0 m.width.toNat)

/-- One turn of `pcie_net_loop`.  There is a timeout only while a task is set; it is cleared before
it runs. -/
def Dma.turn (d : Dma) : Event → Option (Dma × List Effect)
  | .recv m => some (d.recv m)
  | .timeout fresh =>
    if d.task then some (finalizeTransfer { d with task := false } fresh) else none

/-- The same with all effects so far. -/
def Dma.step (s : Dma × List Effect) (e : Event) : Option (Dma × List Effect) :=
  (s.1.turn e).map fun out => (out.1, s.2 ++ out.2)

/-! ### Accesses -/

/-- A 32-bit access to the BAR, at an aligned address. -/
structure IsAccess (m : PcieNetMsg) : Prop where
  op : m.op = opReadMem ∨ m.op = opWriteMem
  bar : m.bar = 1
  width : m.width = 4
  inside : m.addr.toNat < 0x100
  aligned : m.addr.toNat % 4 = 0

/-- The value it writes. -/
abbrev written (m : PcieNetMsg) : BitVec 32 := word m.data 0

/-- The word it is for. -/
abbrev wordIndex (m : PcieNetMsg) : ℕ := m.addr.toNat / 4

/-- A write of CTL with the bit S. -/
def IsStart (m : PcieNetMsg) : Prop :=
  m.op = opWriteMem ∧ m.addr = DmaReg.ctl.addr ∧ written m &&& ctlStart ≠ 0

instance (m : PcieNetMsg) : Decidable (IsStart m) := inferInstanceAs (Decidable (_ ∧ _ ∧ _))

/-- The handlers of the device are installed. -/
def Dma.Ready (d : Dma) : Prop := d.dev.barReadfn 1 = some () ∧ d.dev.barWritefn 1 = some ()

theorem mainDma_ready (dev : PcieDev Unit) (mem : Mem) : (mainDma dev mem).Ready := ⟨rfl, rfl⟩

/-- The device after the start of a transfer with `v` written to CTL. -/
def Dma.started (d : Dma) (v : BitVec 32) : Dma :=
  { d with
    mem := setWord (capture (setWord d.mem DmaReg.ctl.index v) v) DmaReg.sta.index 0
    task := true }

section Access

variable {d : Dma} {m : PcieNetMsg}

theorem IsAccess.addr_eq (h : IsAccess m) : m.addr.toNat = 4 * wordIndex m := by
  have haligned := h.aligned
  rw [wordIndex]
  omega

/-- The word of a register is the register's. -/
theorem IsAccess.addr_eq_iff (h : IsAccess m) (r : DmaReg) :
    m.addr = r.addr ↔ wordIndex m = r.index := by
  have haddr := h.addr_eq
  have hr : r.addr.toNat = 4 * r.index := by cases r <;> rfl
  constructor
  · intro heq
    rw [heq, hr] at haddr
    omega
  · intro heq
    apply BitVec.eq_of_toNat_eq
    rw [haddr, hr, heq]

/-- The registers are the first five words. -/
theorem IsAccess.isDmaReg_iff (h : IsAccess m) : IsDmaReg m.addr ↔ wordIndex m < 5 := by
  unfold IsDmaReg
  rw [h.addr_eq_iff .ctl, h.addr_eq_iff .sta, h.addr_eq_iff .adl, h.addr_eq_iff .adh,
    h.addr_eq_iff .baz]
  show wordIndex m = 0 ∨ wordIndex m = 1 ∨ wordIndex m = 2 ∨ wordIndex m = 3 ∨ wordIndex m = 4 ↔ _
  omega

/-- The store of a 32-bit write is that of a word. -/
theorem IsAccess.store_eq (h : IsAccess m) (mem : Mem) :
    store mem m.addr.toNat (load m.data 0 m.width.toNat)
      = setWord mem (wordIndex m) (written m) := by
  rw [setWord, leBytes_word, h.addr_eq, h.width]
  rfl

theorem recv_read (hready : d.Ready) (h : IsAccess m) (hop : m.op = opReadMem) :
    d.recv m = (d, [.reply (barReply (onRead d m.addr 4))]) := by
  have hdispatch : onMsgRecv d.dev m = .barRead () := by
    rw [onMsgRecv, hop, if_neg (by decide), if_neg (by decide), if_pos rfl, h.bar,
      dif_pos (by decide)]
    simp only [show (⟨(1 : Byte).toNat, by decide⟩ : Fin barCount) = 1 from rfl, hready.1]
  rw [Dma.recv, hdispatch, h.width]
  rfl

theorem recv_write (hready : d.Ready) (h : IsAccess m) (hop : m.op = opWriteMem) :
    d.recv m = onWrite d m.addr (load m.data 0 m.width.toNat) := by
  have hdispatch : onMsgRecv d.dev m = .barWrite () := by
    rw [onMsgRecv, hop, if_neg (by decide), if_neg (by decide), if_neg (by decide), if_pos rfl,
      h.bar,
      dif_pos (by decide)]
    simp only [show (⟨(1 : Byte).toNat, by decide⟩ : Fin barCount) = 1 from rfl, hready.2]
  rw [Dma.recv, hdispatch]

theorem onWrite_start (h : IsAccess m) (hstart : IsStart m) :
    onWrite d m.addr (load m.data 0 m.width.toNat) = (d.started (written m), [.status 0]) := by
  have hindex := (h.addr_eq_iff .ctl).mp hstart.2.1
  have hreg : word (setWord d.mem (wordIndex m) (written m)) DmaReg.ctl.index = written m := by
    rw [hindex, word_setWord_self]
  simp only [onWrite, h.store_eq, if_pos hstart.2.1, Dma.reg, hreg, if_pos hstart.2.2]
  rw [hindex]
  rfl

theorem onWrite_plain (h : IsAccess m) (hop : m.op = opWriteMem) (hstart : ¬ IsStart m) :
    onWrite d m.addr (load m.data 0 m.width.toNat)
      = ({ d with mem := setWord d.mem (wordIndex m) (written m) }, []) := by
  by_cases hctl : m.addr = DmaReg.ctl.addr
  · have hindex := (h.addr_eq_iff .ctl).mp hctl
    have hreg : word (setWord d.mem (wordIndex m) (written m)) DmaReg.ctl.index = written m := by
      rw [hindex, word_setWord_self]
    have hbit : ¬ written m &&& ctlStart ≠ 0 := fun hbit => hstart ⟨hop, hctl, hbit⟩
    simp only [onWrite, h.store_eq, if_pos hctl, Dma.reg, hreg, if_neg hbit]
  · simp only [onWrite, h.store_eq, if_neg hctl]

/-- **All a 32-bit access can do**: reply, set a word, or start a transfer. -/
theorem recv_access (hready : d.Ready) (h : IsAccess m) :
    (m.op = opReadMem ∧ d.recv m = (d, [.reply (barReply (onRead d m.addr 4))])) ∨
      (m.op = opWriteMem ∧ ¬ IsStart m ∧
        d.recv m = ({ d with mem := setWord d.mem (wordIndex m) (written m) }, [])) ∨
      (IsStart m ∧ d.recv m = (d.started (written m), [.status 0])) := by
  rcases h.op with hop | hop
  · exact Or.inl ⟨hop, recv_read hready h hop⟩
  · have hwrite := recv_write hready h hop
    by_cases hstart : IsStart m
    · exact Or.inr (Or.inr ⟨hstart, hwrite.trans (onWrite_start h hstart)⟩)
    · exact Or.inr (Or.inl ⟨hop, hstart, hwrite.trans (onWrite_plain h hop hstart)⟩)

/-- A turn of the loop that is an access. -/
theorem step_recv (d : Dma) (log : List Effect) (m : PcieNetMsg) :
    Dma.step (d, log) (.recv m) = some ((d.recv m).1, log ++ (d.recv m).2) := rfl

/-- A turn of the loop that runs the task. -/
theorem step_timeout (d : Dma) (log : List Effect) (fresh : Fresh) :
    Dma.step (d, log) (.timeout fresh) = if d.task then
      some ((finalizeTransfer { d with task := false } fresh).1,
        log ++ (finalizeTransfer { d with task := false } fresh).2) else none := by
  cases htask : d.task with
  | false => simp only [Dma.step, Dma.turn, htask, Bool.false_eq_true, if_false, Option.map_none]
  | true => simp only [Dma.step, Dma.turn, htask, if_true, Option.map_some]

end Access

end VPcie.Device
