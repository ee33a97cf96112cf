import VPcie.Lib.Bytes

/-!
# Messages and replies on the wire

`pcie_net_msg_t` and `pcie_net_reply_t` (`pcie_net.h`) are packed structures that both ends overlay
on byte buffers; `pciefw_msg_t` and `pciefw_reply_t` of the QEMU side repeat them field by field.
`PcieNetMsg.ofBuf` is the overlay, `WireMsg` a message with exactly the data bytes it carries, and
`WireMsg.encode` the bytes `pcie_net_send_msg` and `pciefw_send_msg` put on the socket.

* `WireMsg.encode_length`, `PcieNetReply.encode_length` — a reply is shorter than every message,
  which is all that tells them apart;
* `ofBuf_encode` — overlaying the structure on received bytes gives the fields that were sent.
-/

namespace VPcie.Net

open VPcie.Lib

/-! ### Layout -/

/-- `sizeof(pcie_net_header_t)`. -/
def headerSize : ℕ := 2

/-- `offsetof(pcie_net_msg_t, data)`: header 2, op 1, bar 1, width 1, addr 8, size 2. -/
def dataOffset : ℕ := 15

/-- `PCIE_NET_MSG_MAX_SIZE`: room for a page of data. -/
def msgMaxSize : ℕ := 4111

theorem msgMaxSize_eq : msgMaxSize = dataOffset + 0x1000 := rfl

/-- `sizeof(pcie_net_reply_t)`: header 2, status 1, data 8. -/
def replySize : ℕ := 11

/-! ### Operations -/

def opReadConfig : Byte := 0
def opWriteConfig : Byte := 1
def opReadMem : Byte := 2
def opWriteMem : Byte := 3
def opReadIo : Byte := 4
def opWriteIo : Byte := 5
def opMsi : Byte := 7

/-- A message as its receiver sees it: the fields, and the memory `msg->data` points to.  Bytes of
`data` past the received frame are whatever the buffer held before. -/
structure PcieNetMsg where
  op : Byte
  bar : Byte
  width : Byte
  addr : BitVec 64
  size : BitVec 16
  data : Mem

/-- The structure overlaid on a buffer. -/
def PcieNetMsg.ofBuf (b : Mem) : PcieNetMsg where
  op := b 2
  bar := b 3
  width := b 4
  addr := BitVec.ofNat 64 (leNat (load b 5 8))
  size := BitVec.ofNat 16 (leNat (load b 13 2))
  data := fun j => b (dataOffset + j)

/-- A `uint8_t`, `uint16_t`, `uint32_t` or `uint64_t` read through a pointer into `msg->data`. -/
def PcieNetMsg.dataWord (m : PcieNetMsg) (w k : ℕ) : BitVec w :=
  BitVec.ofNat w (leNat (load m.data 0 k))

/-- A message with exactly the data it carries; at most a page of it. -/
structure WireMsg where
  op : Byte
  bar : Byte
  width : Byte
  addr : BitVec 64
  data : List Byte
  data_le : data.length ≤ 0x1000
deriving DecidableEq

/-- A message may carry no data. -/
theorem nil_page : ([] : List Byte).length ≤ 0x1000 := Nat.zero_le _

/-- The fixed fields behind the header. -/
def fields (op bar width : Byte) (addr : BitVec 64) (size : ℕ) : List Byte :=
  [op, bar, width] ++ (leBytes 8 addr.toNat ++ leBytes 2 size)

@[simp] theorem fields_length (op bar width : Byte) (addr : BitVec 64) (size : ℕ) :
    (fields op bar width addr size).length = 13 := by
  simp [fields]

/-- What follows the header of a frame. -/
def WireMsg.body (m : WireMsg) : List Byte :=
  fields m.op m.bar m.width m.addr m.data.length ++ m.data

/-- The frame: a header with the total size, then the body. -/
def WireMsg.encode (m : WireMsg) : List Byte :=
  leBytes 2 (dataOffset + m.data.length) ++ m.body

@[simp] theorem WireMsg.body_length (m : WireMsg) : m.body.length = 13 + m.data.length := by
  simp [body]

theorem WireMsg.encode_length (m : WireMsg) : m.encode.length = dataOffset + m.data.length := by
  simp only [encode, List.length_append, leBytes_length, body_length, dataOffset]
  omega

/-! ### Replies -/

/-- `pcie_net_reply_t` past its header; `data` is the 8 byte array read as a little-endian word. -/
structure PcieNetReply where
  status : Byte
  data : BitVec 64
deriving DecidableEq, Repr

/-- What follows the header of a reply frame. -/
def PcieNetReply.body (r : PcieNetReply) : List Byte := r.status :: leBytes 8 r.data.toNat

/-- `pcie_net_send_reply`: the header is set to `sizeof(*r)`. -/
def PcieNetReply.encode (r : PcieNetReply) : List Byte := leBytes 2 replySize ++ r.body

@[simp] theorem PcieNetReply.body_length (r : PcieNetReply) : r.body.length = 9 := by
  simp [body]

theorem PcieNetReply.encode_length (r : PcieNetReply) : r.encode.length = replySize := by
  simp [encode, replySize]

/-! ### Overlaying the structure on a received frame -/

/-- A buffer whose bytes from offset 2 on are the body of `m`. -/
def Holds (b : Mem) (m : WireMsg) : Prop := load b headerSize m.body.length = m.body

theorem holds_store (b : Mem) (m : WireMsg) : Holds (store b headerSize m.body) m :=
  load_store_self b headerSize m.body

/-- A sublist of the body, read from the buffer. -/
theorem Holds.load_field {b : Mem} {m : WireMsg} (h : Holds b m) (i n : ℕ)
    (hn : i + n ≤ 13 + m.data.length) :
    load b (headerSize + i) n = (m.body.drop i).take n := by
  have hsplit : m.body.length = i + (n + (13 + m.data.length - i - n)) := by
    rw [WireMsg.body_length]
    omega
  rw [Holds, hsplit, load_append, load_append] at h
  rw [← h, List.drop_left' (load_length _ _ _), List.take_left' (load_length _ _ _)]

theorem Holds.byte {b : Mem} {m : WireMsg} (h : Holds b m) (i : ℕ)
    (hi : i < 13 + m.data.length) : b (headerSize + i) = m.body.getD i 0 := by
  have hload := h.load_field i 1 (by omega)
  have hlen : i < m.body.length := by
    rw [WireMsg.body_length]
    omega
  rw [List.drop_eq_getElem_cons hlen, List.take_succ_cons, List.take_zero] at hload
  rw [List.getD_eq_getElem _ _ hlen]
  simpa [load] using hload

theorem Holds.load_data {b : Mem} {m : WireMsg} (h : Holds b m) (n : ℕ) (hn : n ≤ m.data.length) :
    load (PcieNetMsg.ofBuf b).data 0 n = m.data.take n := by
  have hdrop : m.body.drop 13 = m.data := List.drop_left' (fields_length _ _ _ _ _)
  have hload := h.load_field 13 n (by omega)
  rw [hdrop] at hload
  rw [← hload]
  exact load_shift b dataOffset 0 n

/-- **The overlay reads back the fields that were sent.** -/
theorem ofBuf_encode {b : Mem} {m : WireMsg} (h : Holds b m) :
    (PcieNetMsg.ofBuf b).op = m.op ∧ (PcieNetMsg.ofBuf b).bar = m.bar ∧
      (PcieNetMsg.ofBuf b).width = m.width ∧ (PcieNetMsg.ofBuf b).addr = m.addr ∧
      (PcieNetMsg.ofBuf b).size.toNat = m.data.length := by
  have haddr : load b 5 8 = leBytes 8 m.addr.toNat := by
    rw [show 5 = headerSize + 3 from rfl, h.load_field 3 8 (by omega)]
    simp [WireMsg.body, fields, leBytes]
  have hsize : load b 13 2 = leBytes 2 m.data.length := by
    rw [show 13 = headerSize + 11 from rfl, h.load_field 11 2 (by omega)]
    simp [WireMsg.body, fields, leBytes]
  refine ⟨h.byte 0 (by omega), h.byte 1 (by omega), h.byte 2 (by omega), ?_, ?_⟩
  · show BitVec.ofNat 64 (leNat (load b 5 8)) = m.addr
    rw [haddr]
    exact ofNat_leNat_leBytes 8 m.addr
  · show (BitVec.ofNat 16 (leNat (load b 13 2))).toNat = m.data.length
    have hle := m.data_le
    rw [hsize, leNat_leBytes, BitVec.toNat_ofNat]
    omega

/-! ### What a message says -/

/-- The fields of a message and exactly the data bytes it counts. -/
structure Content where
  op : Byte
  bar : Byte
  width : Byte
  addr : BitVec 64
  data : List Byte
deriving DecidableEq, Repr

def WireMsg.content (m : WireMsg) : Content := ⟨m.op, m.bar, m.width, m.addr, m.data⟩

def PcieNetMsg.content (m : PcieNetMsg) : Content :=
  ⟨m.op, m.bar, m.width, m.addr, load m.data 0 m.size.toNat⟩

theorem content_ofBuf {b : Mem} {m : WireMsg} (h : Holds b m) :
    (PcieNetMsg.ofBuf b).content = m.content := by
  obtain ⟨hop, hbar, hwidth, haddr, hsize⟩ := ofBuf_encode h
  rw [PcieNetMsg.content, hop, hbar, hwidth, haddr, hsize, h.load_data _ le_rfl, List.take_length]
  rfl

/-- A buffer that starts with the frame of `m` holds `m`. -/
theorem holds_of_load_encode {b : Mem} {m : WireMsg}
    (h : load b 0 m.encode.length = m.encode) : Holds b m := by
  have hlen : m.encode.length = headerSize + m.body.length := by
    rw [WireMsg.encode, List.length_append, leBytes_length, headerSize]
  rw [hlen, load_append, WireMsg.encode, Nat.zero_add] at h
  exact (List.append_inj h (by rw [load_length, leBytes_length, headerSize])).2

end VPcie.Net
