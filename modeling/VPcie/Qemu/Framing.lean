import VPcie.Qemu.Pciefw

/-!
# Frames through a connection

What `pcie_net_send_msg`, `pcie_net_send_reply` and `pciefw_send_msg` put on a connection, one frame
after the other, and what repeated calls of the receive routines of the other end make of it.  The
two ends have their own copies of the layout; a message and a reply differ in their length only.

* `pciefwSendMsg_lay`, `pcieNetSendReplyBytes_lay` — what is sent from a structure in memory;
* `recvFrames_append` — a receive routine that takes one frame takes a list of them;
* `frames_round_trip` — both directions.
-/

namespace VPcie.Qemu

open VPcie.Lib VPcie.Net

/-! ### Sending -/

/-- `pcie_net_send_msg`: the buffer with its header set, and the bytes sent from it. -/
def pcieNetSendMsgBytes (b : Mem) : Mem × List Byte :=
  let size := dataOffset + (PcieNetMsg.ofBuf b).size.toNat
  let b := setHeader b size
  (b, load b 0 size)

/-- `pcie_net_send_reply`. -/
def pcieNetSendReplyBytes (b : Mem) : Mem × List Byte :=
  let b := setHeader b replySize
  (b, load b 0 replySize)

/-- The fields of a message laid out in a buffer. -/
def layFields (b : Mem) (m : WireMsg) : Mem :=
  let b := setOp b m.op
  let b := setBar b m.bar
  let b := setWidth b m.width
  let b := setAddr b m.addr
  setSize b (BitVec.ofNat 16 m.data.length)

/-- The structure of a message: its fields, then the data. -/
def layMsg (b : Mem) (m : WireMsg) : Mem := store (layFields b m) dataOffset m.data

/-- The structure of a reply. -/
def layReply (b : Mem) (r : PcieNetReply) : Mem := store b headerSize r.body

/-- Both ends send in the same way. -/
theorem pcieNetSendMsgBytes_eq (b : Mem) : pcieNetSendMsgBytes b = pciefwSendMsg b := rfl

/-- **The bytes of a message**, whatever was in the buffer before. -/
theorem pciefwSendMsg_lay (b : Mem) (m : WireMsg) : (pciefwSendMsg (layMsg b m)).2 = m.encode := by
  have hle := m.data_le
  have hmod : m.data.length % 65536 = m.data.length := Nat.mod_eq_of_lt (by omega)
  have hfields : ∀ off n, off + n ≤ dataOffset →
      load (layMsg b m) off n = load (layFields b m) off n := by
    intro off n hoff
    exact load_store_disjoint _ _ _ _ _ (Or.inl hoff)
  apply pciefwSendMsg_bytes
  case hdata => exact load_store_self _ _ _
  all_goals
    rw [hfields _ _ (by decide)]
    simp (disch := simp) [layFields, setSize, setAddr, setWidth, setBar, setOp,
      load_store_disjoint, load_store_eq, hmod]

/-- The bytes of a reply. -/
theorem pcieNetSendReplyBytes_lay (b : Mem) (r : PcieNetReply) :
    (pcieNetSendReplyBytes (layReply b r)).2 = r.encode := by
  show load (setHeader (layReply b r) replySize) 0 (2 + 9) = r.encode
  have hhdr : load (setHeader (layReply b r) replySize) 0 2 = leBytes 2 replySize :=
    load_store_eq _ _ _ _ (leBytes_length _ _)
  have hbody : load (setHeader (layReply b r) replySize) 2 9 = r.body := by
    rw [setHeader, load_store_disjoint _ _ _ _ _ (Or.inr (by rw [leBytes_length]))]
    exact load_store_eq b headerSize 9 r.body r.body_length
  rw [load_append, hhdr, Nat.zero_add, hbody]
  rfl

/-! ### Receiving a list of frames -/

/-- `n` calls of a receive routine on the same buffer, each of which must return a frame; `read` is
what the caller takes from the buffer.  A routine that returns 0 has received nothing. -/
def recvFrames {β : Type} (recv : Rx → Mem → Recv) (read : Mem → β) :
    ℕ → Rx → Mem → Option (List β × Rx)
  | 0, s, _ => some ([], s)
  | n + 1, s, buf =>
    match recv s buf with
    | .wait => none
    | .error _ => none
    | .ok size buf rest =>
      if size = 0 then none
      else (recvFrames recv read n rest buf).map fun p => (read buf :: p.1, p.2)

/-- A routine that takes one frame off the front of the stream takes a list of them. -/
theorem recvFrames_append {α β : Type} {recv : Rx → Mem → Recv} {read : Mem → β}
    (encode : α → List Byte) (view : α → β)
    (hrecv : ∀ x cs peer buf, ∃ n buf', recv ⟨encode x ++ cs, peer⟩ buf = .ok n buf' ⟨cs, peer⟩ ∧
      n ≠ 0 ∧ read buf' = view x) (xs : List α) (cs : List Byte) (peer : Peer) (buf : Mem) :
    recvFrames recv read xs.length ⟨xs.flatMap encode ++ cs, peer⟩ buf
      = some (xs.map view, ⟨cs, peer⟩) := by
  induction xs generalizing buf with
  | nil => rfl
  | cons x xs ih =>
    obtain ⟨n, buf', hone, hn, hread⟩ := hrecv x (xs.flatMap encode ++ cs) peer buf
    rw [List.flatMap_cons, List.append_assoc, List.length_cons, recvFrames, hone]
    simp only [if_neg hn, ih, hread]
    rfl

/-! ### Both directions -/

/-- A frame the device sends. -/
inductive SentFrame where
  | msg (m : WireMsg)
  | reply (r : PcieNetReply)
deriving DecidableEq

/-- The bytes sent for it, from a structure laid out in some buffer. -/
def SentFrame.send (b : Mem) : SentFrame → List Byte
  | msg m => (pcieNetSendMsgBytes (layMsg b m)).2
  | reply r => (pcieNetSendReplyBytes (layReply b r)).2

/-- What a receiver makes of a frame. -/
inductive FrameView where
  | msg (c : Content)
  | reply (r : PcieNetReply)
deriving DecidableEq, Repr

/-- What was sent. -/
def SentFrame.view : SentFrame → FrameView
  | msg m => .msg m.content
  | reply r => .reply r

/-- How `pciefw_recv_reply` reads `state->msg`: a frame that is not longer than a reply is one. -/
def readFrame (b : Mem) : FrameView :=
  if leNat (load b 0 headerSize) ≤ replySize then
    .reply ⟨b headerSize, BitVec.ofNat 64 (leNat (load b 3 8))⟩
  else .msg (PcieNetMsg.ofBuf b).content

theorem pciefwRecvMsg_send (b : Mem) (f : SentFrame) (cs : List Byte) (peer : Peer) (buf : Mem) :
    ∃ n buf', pciefwRecvMsg ⟨f.send b ++ cs, peer⟩ buf = .ok n buf' ⟨cs, peer⟩ ∧ n ≠ 0 ∧
      readFrame buf' = f.view := by
  cases f with
  | msg m =>
    refine ⟨m.body.length + headerSize,
      store (store buf 0 (leBytes 2 (m.body.length + headerSize))) headerSize m.body, ?_,
      Nat.succ_ne_zero _, ?_⟩
    · rw [SentFrame.send, pcieNetSendMsgBytes_eq, pciefwSendMsg_lay, m.encode_eq]
      exact pciefwRecvMsg_frame m.body_ne_nil cs peer buf m.body_le
    · have hlong : ¬ m.body.length + headerSize ≤ replySize := by
        rw [m.body_length]
        simp only [headerSize, replySize]
        omega
      rw [readFrame, load_header, (recvHeader_append m.body cs peer m.body_le).2, if_neg hlong,
        content_ofBuf (holds_store _ m)]
      rfl
  | reply r =>
    have hle : r.body.length + headerSize ≤ msgMaxSize := by
      rw [r.body_length]
      decide
    refine ⟨r.body.length + headerSize,
      store (store buf 0 (leBytes 2 (r.body.length + headerSize))) headerSize r.body, ?_,
      Nat.succ_ne_zero _, ?_⟩
    · show pciefwRecvMsg ⟨(pcieNetSendReplyBytes (layReply b r)).2 ++ cs, peer⟩ buf = _
      have henc : r.encode = leBytes 2 (r.body.length + headerSize) ++ r.body := by
        rw [PcieNetReply.encode, r.body_length, replySize, headerSize]
      rw [pcieNetSendReplyBytes_lay, henc]
      exact pciefwRecvMsg_frame r.body_ne_nil cs peer buf hle
    · have hshort : r.body.length + headerSize ≤ replySize := by
        rw [r.body_length]
        decide
      have hload : ∀ b' : Mem, load (store b' headerSize r.body) 2 9 = r.body :=
        fun b' => load_store_eq b' headerSize 9 r.body r.body_length
      have hsplit : ∀ b' : Mem, load b' 2 9 = b' 2 :: load b' 3 8 := by
        intro b'
        rw [show 9 = 1 + 8 from rfl, load_append]
        rfl
      obtain ⟨hstatus, hdata⟩ := List.cons.inj ((hsplit _).symm.trans (hload
        (store buf 0 (leBytes 2 (r.body.length + headerSize)))))
      rw [readFrame, load_header, (recvHeader_append r.body cs peer hle).2, if_pos hshort, hdata]
      show FrameView.reply ⟨_, BitVec.ofNat 64 (leNat (leBytes 8 r.data.toNat))⟩ = .reply r
      rw [ofNat_leNat_leBytes 8 r.data]
      exact congrArg (fun status => FrameView.reply ⟨status, r.data⟩) hstatus

/-- **Frames round-trip** in both directions: repeated calls of the other end's receive routine, on
a buffer that may hold anything, return the frames that were sent and leave what came after them. -/
theorem frames_round_trip (cs : List Byte) (peer : Peer) (buf : Mem) :
    (∀ frames : List (Mem × SentFrame),
      recvFrames pciefwRecvMsg readFrame frames.length
          ⟨(frames.flatMap fun p => p.2.send p.1) ++ cs, peer⟩ buf
        = some (frames.map fun p => p.2.view, ⟨cs, peer⟩)) ∧
    ∀ msgs : List (Mem × WireMsg),
      recvFrames pcieNetRecvMsg (fun b => (PcieNetMsg.ofBuf b).content) msgs.length
          ⟨(msgs.flatMap fun p => (pciefwSendMsg (layMsg p.1 p.2)).2) ++ cs, peer⟩ buf
        = some (msgs.map fun p => p.2.content, ⟨cs, peer⟩) := by
  constructor
  · intro frames
    exact recvFrames_append _ _ (fun p cs peer buf => pciefwRecvMsg_send p.1 p.2 cs peer buf)
      frames cs peer buf
  · intro msgs
    refine recvFrames_append _ _ (fun p cs peer buf => ?_) msgs cs peer buf
    refine ⟨p.2.body.length + headerSize, store buf headerSize p.2.body, ?_, Nat.succ_ne_zero _,
      content_ofBuf (holds_store buf p.2)⟩
    rw [pciefwSendMsg_lay, p.2.encode_eq]
    exact pcieNetRecvMsg_frame p.2.body_ne_nil cs peer buf p.2.body_le

end VPcie.Qemu
