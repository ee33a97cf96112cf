import VPcie.Net.Socket

/-!
# Sending and receiving in QEMU

The message routines of `pciefw.c`.  All of them work in place on one buffer, `state->msg`: a
request is laid out in it field by field and sent from it, and whatever arrives is received over
it.  A config request does not set the `bar` field, so that byte is left from the previous message.

* `pciefwSendWriteMem_bytes`, `pciefwSendWriteConfig_bytes`, `pciefwSendReadMem_bytes`,
  `pciefwSendReadConfig_bytes` — what each routine puts on the socket;
* `pciefwRecvStep_stream_reply`, `pciefwRecvStep_stream_msg` — one turn of the loop of
  `pciefw_recv_reply` on a reply and on a message.
-/

namespace VPcie.Qemu

open VPcie.Lib VPcie.Net

/-! ### Writing the fields of `state->msg` -/

def setHeader (b : Mem) (n : ℕ) : Mem := store b 0 (leBytes 2 n)
def setOp (b : Mem) (op : Byte) : Mem := store b 2 [op]
def setBar (b : Mem) (bar : Byte) : Mem := store b 3 [bar]
def setWidth (b : Mem) (width : Byte) : Mem := store b 4 [width]
def setAddr (b : Mem) (addr : BitVec 64) : Mem := store b 5 (leBytes 8 addr.toNat)
def setSize (b : Mem) (size : BitVec 16) : Mem := store b 13 (leBytes 2 size.toNat)
def setData64 (b : Mem) (data : BitVec 64) : Mem := store b dataOffset (leBytes 8 data.toNat)

/-- `pciefw_send_msg`: the buffer with its header set, and the bytes sent from it. -/
def pciefwSendMsg (b : Mem) : Mem × List Byte :=
  let size := dataOffset + (PcieNetMsg.ofBuf b).size.toNat
  let b := setHeader b size
  (b, load b 0 size)

/-- `pciefw_send_write_mem`. -/
def pciefwSendWriteMem (b : Mem) (bar : Byte) (addr : BitVec 64) (width : ℕ) (data : BitVec 64) :
    Mem × List Byte :=
  let b := setOp b opWriteMem
  let b := setBar b bar
  let b := setWidth b (BitVec.ofNat 8 width)
  let b := setAddr b addr
  let b := setSize b (BitVec.ofNat 16 width)
  let b := setData64 b data
  pciefwSendMsg b

/-- `pciefw_send_write_config`. -/
def pciefwSendWriteConfig (b : Mem) (addr : BitVec 64) (width : ℕ) (data : BitVec 64) :
    Mem × List Byte :=
  let b := setOp b opWriteConfig
  let b := setWidth b (BitVec.ofNat 8 width)
  let b := setAddr b addr
  let b := setSize b (BitVec.ofNat 16 width)
  let b := setData64 b data
  pciefwSendMsg b

/-- The sending half of `pciefw_send_read_common`. -/
def pciefwSendReadCommon (b : Mem) (addr : BitVec 64) (width : ℕ) : Mem × List Byte :=
  let b := setAddr b addr
  let b := setWidth b (BitVec.ofNat 8 width)
  let b := setSize b 0
  pciefwSendMsg b

/-- `pciefw_send_read_config`, up to the wait for the reply. -/
def pciefwSendReadConfig (b : Mem) (addr : BitVec 64) (width : ℕ) : Mem × List Byte :=
  pciefwSendReadCommon (setOp b opReadConfig) addr width

/-- `pciefw_send_read_mem`, up to the wait for the reply. -/
def pciefwSendReadMem (b : Mem) (bar : Byte) (addr : BitVec 64) (width : ℕ) : Mem × List Byte :=
  pciefwSendReadCommon (setBar (setOp b opReadMem) bar) addr width

/-- The width of a guest access. -/
inductive AccessWidth where
  | one
  | two
  | four
  | eight
deriving DecidableEq, Repr

def AccessWidth.bytes : AccessWidth → ℕ
  | one => 1
  | two => 2
  | four => 4
  | eight => 8

/-! ### Receiving -/

/-- The `switch` of `pciefw_send_read_common`: the bytes copied to the caller from `reply.data`. -/
def replyData (b : Mem) (width : ℕ) : List Byte :=
  if width = 1 ∨ width = 2 ∨ width = 4 ∨ width = 8 then load b 3 width else []

/-- What one turn of the loop of `pciefw_recv_reply` does: block, fail, take the frame as the reply,
or hand it to `process_msg`. -/
inductive RecvStep where
  | wait
  | error (rest : Rx)
  | reply (buf : Mem) (rest : Rx)
  | message (buf : Mem) (rest : Rx)

/-- One turn of the loop of `pciefw_recv_reply`: a frame of at most `sizeof(pciefw_reply_t)` bytes
is the reply. -/
def pciefwRecvStep (s : Rx) (buf : Mem) : RecvStep :=
  match pciefwRecvMsg s buf with
  | .wait => .wait
  | .error rest => .error rest
  | .ok _ buf rest =>
    if leNat (load buf 0 headerSize) ≤ replySize then .reply buf rest else .message buf rest

theorem pciefwRecvStep_reply (r : PcieNetReply) (cs : List Byte) (peer : Peer) (buf : Mem) :
    ∃ buf', pciefwRecvStep ⟨r.encode ++ cs, peer⟩ buf = .reply buf' ⟨cs, peer⟩ ∧
      load buf' 3 8 = leBytes 8 r.data.toNat := by
  obtain ⟨n, buf', hrecv, hhdr, hdata⟩ := pciefwRecvMsg_reply r cs peer buf
  refine ⟨buf', ?_, hdata⟩
  rw [pciefwRecvStep, hrecv]
  simp only [hhdr, le_refl, if_true]

theorem pciefwRecvStep_msg (m : WireMsg) (cs : List Byte) (peer : Peer) (buf : Mem) :
    ∃ buf', pciefwRecvStep ⟨m.encode ++ cs, peer⟩ buf = .message buf' ⟨cs, peer⟩ := by
  obtain ⟨n, buf', hrecv, _, hhdr⟩ := pciefwRecvMsg_encode m cs peer buf
  refine ⟨buf', ?_⟩
  rw [pciefwRecvStep, hrecv]
  simp only [hhdr]
  rw [if_neg]
  simp only [dataOffset, replySize]
  omega

theorem pciefwRecvStep_nil {s : Stream} (hs : s.bytes = []) (buf : Mem) :
    pciefwRecvStep s.rx buf = .wait := by
  rw [pciefwRecvStep, pciefwRecvMsg_nil hs]

/-- **A reply frame is taken as the reply**, as soon as it has arrived. -/
theorem pciefwRecvStep_stream_reply {s : Stream} {r : PcieNetReply} {cs : List Byte}
    (hs : s.bytes = r.encode ++ cs) (buf : Mem) :
    pciefwRecvStep s.rx buf = .wait ∨
      ∃ buf' rest, pciefwRecvStep s.rx buf = .reply buf' rest ∧ (s.consume rest).bytes = cs ∧
        load buf' 3 8 = leBytes 8 r.data.toNat := by
  rcases pciefwRecvMsg_stream_reply hs buf with hwait | ⟨n, buf', rest, hrecv, hrest, hhdr, hdata⟩
  · left
    rw [pciefwRecvStep, hwait]
  · refine Or.inr ⟨buf', rest, ?_, hrest, hdata⟩
    rw [pciefwRecvStep, hrecv]
    simp only [hhdr, le_refl, if_true]

/-- **A message frame never is**: it is longer than a reply, whatever it carries. -/
theorem pciefwRecvStep_stream_msg {s : Stream} {m : WireMsg} {cs : List Byte}
    (hs : s.bytes = m.encode ++ cs) (buf : Mem) :
    pciefwRecvStep s.rx buf = .wait ∨
      ∃ buf' rest, pciefwRecvStep s.rx buf = .message buf' rest ∧ (s.consume rest).bytes = cs ∧
        Holds buf' m := by
  rcases pciefwRecvMsg_stream hs buf with hwait | ⟨n, buf', rest, hrecv, hrest, hholds, hhdr⟩
  · left
    rw [pciefwRecvStep, hwait]
  · refine Or.inr ⟨buf', rest, ?_, hrest, hholds⟩
    rw [pciefwRecvStep, hrecv]
    simp only [hhdr]
    rw [if_neg]
    simp only [dataOffset, replySize]
    omega

/-- A reply read at some width. -/
theorem replyData_eq (b : Mem) (width : ℕ) (data : BitVec 64)
    (hw : width = 1 ∨ width = 2 ∨ width = 4 ∨ width = 8)
    (hdata : load b 3 8 = leBytes 8 data.toNat) :
    replyData b width = leBytes width data.toNat := by
  have hle : width ≤ 8 := by omega
  rw [replyData, if_pos hw, ← load_take b 3 8 width hle, hdata, leBytes_take _ _ _ hle]

/-! ### What is sent -/

/-- The bytes sent from a buffer whose fields hold the message `m`. -/
theorem pciefwSendMsg_bytes (b : Mem) (m : WireMsg) (hop : load b 2 1 = [m.op])
    (hbar : load b 3 1 = [m.bar]) (hwidth : load b 4 1 = [m.width])
    (haddr : load b 5 8 = leBytes 8 m.addr.toNat)
    (hsize : load b 13 2 = leBytes 2 m.data.length)
    (hdata : load b dataOffset m.data.length = m.data) :
    (pciefwSendMsg b).2 = m.encode := by
  have hle := m.data_le
  have hlen : (PcieNetMsg.ofBuf b).size.toNat = m.data.length := by
    show (BitVec.ofNat 16 (leNat (load b 13 2))).toNat = _
    rw [hsize, leNat_leBytes, BitVec.toNat_ofNat]
    omega
  have hkeep : ∀ off n, 2 ≤ off →
      load (setHeader b (dataOffset + m.data.length)) off n = load b off n := by
    intro off n hoff
    exact load_store_disjoint _ _ _ _ _ (Or.inr (by rw [leBytes_length]; omega))
  have hhdr : load (setHeader b (dataOffset + m.data.length)) 0 2
      = leBytes 2 (dataOffset + m.data.length) :=
    load_store_eq _ _ _ _ (leBytes_length _ _)
  have hsplit : dataOffset + m.data.length
      = 2 + (1 + (1 + (1 + (8 + (2 + m.data.length))))) := by
    simp only [dataOffset]
    omega
  simp only [pciefwSendMsg, hlen]
  generalize setHeader b (dataOffset + m.data.length) = b' at hkeep hhdr
  rw [hsplit]
  simp only [load_append, Nat.zero_add, Nat.reduceAdd]
  rw [hhdr, hkeep 2 1 (by omega), hkeep 3 1 (by omega), hkeep 4 1 (by omega),
    hkeep 5 8 (by omega), hkeep 13 2 (by omega), hkeep 15 _ (by omega), hop, hbar, hwidth, haddr,
    hsize, show 15 = dataOffset from rfl, hdata]
  simp only [WireMsg.encode, WireMsg.body, fields, List.append_assoc, List.cons_append,
    List.nil_append]

/-- After a send the buffer holds the message that was sent. -/
theorem pciefwSendMsg_holds {b : Mem} {m : WireMsg} (h : (pciefwSendMsg b).2 = m.encode) :
    Holds (pciefwSendMsg b).1 m := by
  apply holds_of_load_encode
  have hlen := congrArg List.length h
  simp only [pciefwSendMsg, load_length] at hlen
  rw [← hlen]
  exact h

/-- A request frame as the device should see it. -/
def requestMsg (op bar : Byte) (addr : BitVec 64) (width : ℕ) (data : List Byte)
    (h : data.length ≤ 0x1000) : WireMsg :=
  ⟨op, bar, BitVec.ofNat 8 width, addr, data, h⟩

section Bytes

variable (b : Mem) (bar : Byte) (addr : BitVec 64) (width : ℕ) (data : BitVec 64)

theorem leBytes_page (hw : width ≤ 8) : (leBytes width data.toNat).length ≤ 0x1000 := by
  rw [leBytes_length]
  omega

/-- The first `width` bytes of the 64-bit store into `msg->data`. -/
theorem load_setData64 (hw : width ≤ 8) :
    load (setData64 b data) dataOffset width = leBytes width data.toNat := by
  rw [← load_take _ dataOffset 8 width hw, ← leBytes_take width 8 _ hw, setData64,
    load_store_eq _ _ _ _ (leBytes_length _ _)]

/-- **A memory write** carries the low `width` bytes of the value. -/
theorem pciefwSendWriteMem_bytes (hw : width ≤ 8) :
    (pciefwSendWriteMem b bar addr width data).2
      = (requestMsg opWriteMem bar addr width (leBytes width data.toNat)
          (leBytes_page width data hw)).encode := by
  have hmod : width % 65536 = width := Nat.mod_eq_of_lt (by omega)
  apply pciefwSendMsg_bytes <;> simp only [requestMsg, leBytes_length]
  case hdata => exact load_setData64 _ width data hw
  all_goals
    simp (disch := simp [dataOffset]) [setData64, setSize, setAddr, setWidth, setBar, setOp,
      load_store_disjoint, load_store_eq, hmod]

/-- **A config write** does the same, with whatever the buffer held for a BAR number. -/
theorem pciefwSendWriteConfig_bytes (hw : width ≤ 8) :
    (pciefwSendWriteConfig b addr width data).2
      = (requestMsg opWriteConfig (b 3) addr width (leBytes width data.toNat)
          (leBytes_page width data hw)).encode := by
  have hmod : width % 65536 = width := Nat.mod_eq_of_lt (by omega)
  apply pciefwSendMsg_bytes <;> simp only [requestMsg, leBytes_length]
  case hdata => exact load_setData64 _ width data hw
  case hbar =>
    simp (disch := simp [dataOffset]) [setData64, setSize, setAddr, setWidth, setOp,
      load_store_disjoint]
    simp [load]
  all_goals
    simp (disch := simp [dataOffset]) [setData64, setSize, setAddr, setWidth, setOp,
      load_store_disjoint, load_store_eq, hmod]

/-- **A memory read** carries no data. -/
theorem pciefwSendReadMem_bytes :
    (pciefwSendReadMem b bar addr width).2
      = (requestMsg opReadMem bar addr width [] (Nat.zero_le _)).encode := by
  apply pciefwSendMsg_bytes <;> simp only [requestMsg]
  case hdata => rfl
  all_goals
    simp (disch := simp) [setSize, setAddr, setWidth, setBar, setOp, load_store_disjoint,
      load_store_eq]

/-- **A config read** carries no data either. -/
theorem pciefwSendReadConfig_bytes :
    (pciefwSendReadConfig b addr width).2
      = (requestMsg opReadConfig (b 3) addr width [] (Nat.zero_le _)).encode := by
  apply pciefwSendMsg_bytes <;> simp only [requestMsg]
  case hdata => rfl
  case hbar =>
    simp (disch := simp) [setSize, setAddr, setWidth, setOp, load_store_disjoint]
    simp [load]
  all_goals
    simp (disch := simp) [setSize, setAddr, setWidth, setOp, load_store_disjoint, load_store_eq]

end Bytes

end VPcie.Qemu
