import VPcie.Lib.Runs
import VPcie.Net.RecvBounds
import VPcie.Qemu.Pciefw

/-!
# What QEMU writes to the memory of the guest

QEMU alone, and a peer that sends any bytes.  `process_msg` takes `msg->size` for the length of the
data, while the length of the frame is `header.size`, and whatever the frame does not bring is left
in `state->msg` from the frames and the requests before.

* `processMsg_carries_iff` — when the data of one write are bytes of its own frame;
* `processMsg_independent` — such a frame is processed alike whatever was in the buffer;
* `dmaWrites_carried_iff` — the runs in which all writes are.
-/

namespace VPcie.Qemu.GuestMemory

open VPcie.Lib VPcie.Net

/-! ### The handlers -/

/-- A frame: `header.size`, and the bytes behind the header. -/
structure Frame where
  size : ℕ
  body : List Byte
deriving DecidableEq, Repr

/-- What `process_msg` does: `pci_dma_write`, `msi_notify`, or a line on the console. -/
inductive Handled where
  | dmaWrite (addr : BitVec 64) (data : List Byte)
  | msiNotify
  | unimplemented (op : Byte)
deriving DecidableEq, Repr

/-- `process_msg`. -/
def processMsg (b : Mem) : Handled :=
  let msg := PcieNetMsg.ofBuf b
  if msg.op = opWriteMem then .dmaWrite msg.addr (load msg.data 0 msg.size.toNat)
  else if msg.op = opMsi then .msiNotify
  else .unimplemented msg.op

/-- `rem_size`, of the header of a stream. -/
def bodySize (s : Rx) : ℕ := remSize (leNat s.header)

/-- The frame at the front of a stream, or what has come of it. -/
def frontFrame (s : Rx) : Frame := ⟨leNat s.header, s.behindHeader.bytes.take (bodySize s)⟩

/-- The buffer with the front of a stream received in it. -/
def receivedBuf (s : Rx) (buf : Mem) : Mem :=
  store (store buf 0 s.header) headerSize (frontFrame s).body

/-- The buffer after a receive that failed: with the header, and with what has come of a body that
passes the check. -/
def failedBuf (s : Rx) (buf : Mem) : Mem :=
  if s.header.length ≠ headerSize ∨ leNat s.header > msgMaxSize then store buf 0 s.header
  else receivedBuf s buf

/-- `state->msg`, whether there is a connection, whether a read waits in `pciefw_recv_reply`, what
the peer sends, and what comes behind that.  What was handled is kept with the frame it came in. -/
structure State where
  msg : Mem
  sock : Bool
  waiting : Bool
  down : Stream
  ended : Peer
  handled : List (Frame × Handled)

/-- What QEMU can receive from. -/
def State.rx (s : State) : Rx := ⟨s.down.arrived, if s.down.flight = [] then s.ended else .open⟩

/-- Who moves.  `sent` says whether the request of a read could be sent; a `send` may also report
the error of the connection. -/
inductive Move where
  | connect (bytes : List Byte) (ended : Peer)
  | sendReports
  | deliver (k : ℕ)
  | writeConfig (addr : BitVec 64) (width : ℕ) (data : BitVec 64)
  | writeMem (bar : Byte) (addr : BitVec 64) (width : ℕ) (data : BitVec 64)
  | readConfig (addr : BitVec 64) (width : ℕ) (sent : Bool)
  | readMem (bar : Byte) (addr : BitVec 64) (width : ℕ) (sent : Bool)
  | recvReply
  | onRead

/-- A request of the guest, laid out in the buffer. -/
def State.request (s : State) (buf : Mem) (waiting : Bool) : Option State :=
  if s.sock = true ∧ s.waiting = false then some { s with msg := buf, waiting := waiting } else none

/-- What a receive has left. -/
def State.consume (s : State) (rest : Rx) : State :=
  { s with
    down := s.down.consume rest
    ended := if s.down.flight = [] then rest.peer else s.ended }

/-- The frame at the front is received and given to `process_msg`. -/
def State.process (s : State) (buf : Mem) (rest : Rx) : State :=
  { s.consume rest with
    msg := buf
    handled := s.handled ++ [(frontFrame s.rx, processMsg buf)] }

/-- One turn of the loop of `pciefw_recv_reply`. -/
def State.recvReply (s : State) : Option State :=
  if s.waiting then
    match pciefwRecvMsg s.rx s.msg with
    | .wait => none
    | .error rest =>
      some { s.consume rest with msg := failedBuf s.rx s.msg, waiting := false }
    | .ok n buf rest =>
      -- neither a message, nor an error
      if n = 0 then some { s.consume rest with msg := buf }
      else if leNat (load buf 0 headerSize) ≤ replySize then
        some { s.consume rest with msg := buf, waiting := false }
      else some (s.process buf rest)
  else none

/-- `pciefw_on_read`; an error closes the socket. -/
def State.onRead (s : State) : Option State :=
  if s.sock = true ∧ s.waiting = false then
    match pciefwRecvMsg s.rx s.msg with
    | .wait => none
    | .error _ => some { s with msg := failedBuf s.rx s.msg, sock := false, down := Stream.empty }
    | .ok n buf rest =>
      if n = 0 then some { s with msg := buf, sock := false, down := Stream.empty }
      else some (s.process buf rest)
  else none

/-- One move. -/
def step (s : State) : Move → Option State
  | .connect bytes ended =>
    if s.sock then none else some { s with sock := true, down := ⟨[], bytes⟩, ended := ended }
  | .sendReports => some { s with ended := s.ended.reported }
  | .deliver k => some { s with down := s.down.deliver k }
  | .writeConfig addr width data =>
    s.request (pciefwSendWriteConfig s.msg addr width data).1 false
  | .writeMem bar addr width data =>
    s.request (pciefwSendWriteMem s.msg bar addr width data).1 false
  | .readConfig addr width sent => s.request (pciefwSendReadConfig s.msg addr width).1 sent
  | .readMem bar addr width sent => s.request (pciefwSendReadMem s.msg bar addr width).1 sent
  | .recvReply => s.recvReply
  | .onRead => s.onRead

/-- QEMU with a buffer from `g_malloc`, before it connects. -/
def State.init (msg : Mem) : State := ⟨msg, false, false, Stream.empty, .open, []⟩

/-! ### What is received -/

/-- A receive accepts the front of the stream: the header passes the check, and the body comes. -/
def Accepted (s : Rx) : Prop :=
  headerSize ≤ s.bytes.length ∧ leNat s.header ≤ msgMaxSize ∧
    s.behindHeader.Comes (bodySize s)

instance (s : Rx) : Decidable (Accepted s) := inferInstanceAs (Decidable (_ ∧ _ ∧ _))

section Receive

variable {s rest : Rx} {buf buf' : Mem} {n : ℕ}

/-- **What a receive accepts, and leaves in the buffer.** -/
theorem pciefwRecvMsg_ok (h : pciefwRecvMsg s buf = .ok n buf' rest) :
    Accepted s ∧ n = (frontFrame s).size ∧ buf' = receivedBuf s buf := by
  by_cases hlen : headerSize ≤ s.bytes.length
  · rw [pciefwRecvMsg, pciefwRecvBuf_header (by decide) hlen] at h
    obtain ⟨rfl, hmax, hbody, rfl⟩ := recvBody_ok h
    exact ⟨⟨hlen, hmax, hbody⟩, rfl, rfl⟩
  · have hmax : headerSize ≤ msgMaxSize := by decide
    rcases pciefwRecvBuf_noHeader hmax (Nat.not_le.mp hlen) buf with hrecv | ⟨rest', hrecv, -⟩
    · rw [pciefwRecvMsg, hrecv] at h
      cases h
    · rw [pciefwRecvMsg, hrecv] at h
      cases h

theorem pciefwRecvMsg_error (h : pciefwRecvMsg s buf = .error rest) : ¬ Accepted s := by
  rintro ⟨hlen, hmax, hbody⟩
  rw [pciefwRecvMsg, pciefwRecvBuf_header (by decide) hlen, recvBody_comes _ hmax hbody] at h
  cases h

/-- The header is in the buffer. -/
theorem receivedBuf_header (h : Accepted s) :
    leNat (load (receivedBuf s buf) 0 headerSize) = (frontFrame s).size := by
  have hhdr := load_store_eq buf 0 headerSize s.header (s.header_length h.1)
  rw [receivedBuf, load_store_disjoint _ _ _ _ _ (Or.inl (le_of_eq (Nat.zero_add headerSize))),
    hhdr]
  rfl

/-- The operation of a message is the first byte behind the header, or what was there before. -/
theorem receivedBuf_op (h : headerSize ≤ s.bytes.length) (buf : Mem) :
    (PcieNetMsg.ofBuf (receivedBuf s buf)).op = (frontFrame s).body.headD (buf 2) := by
  show receivedBuf s buf 2 = _
  rw [receivedBuf]
  cases hbody : (frontFrame s).body with
  | nil =>
    rw [store_apply_of_ge _ _ _ _ (le_of_eq (by rfl)), store_apply_of_ge]
    · rfl
    · rw [s.header_length h]
      rfl
  | cons b bs =>
    have hfirst := store_apply_add (store buf 0 s.header) headerSize (b :: bs) 0
      (by rw [List.length_cons]; omega)
    exact hfirst

/-- The body of a frame with a whole message header. -/
theorem frontFrame_body_length (h : Accepted s) (hsize : dataOffset ≤ (frontFrame s).size) :
    (frontFrame s).body.length + headerSize = (frontFrame s).size := by
  have hlt := s.header_lt h.1
  have hle : dataOffset ≤ leNat s.header := hsize
  have hrem : bodySize s = leNat s.header - headerSize := by
    have hback : leNat s.header = leNat s.header - headerSize + headerSize := by
      simp only [dataOffset, headerSize] at hle ⊢
      omega
    rw [bodySize, hback, remSize_add _ (by simp only [headerSize]; omega), Nat.add_sub_cancel]
  -- so many bytes come only as bytes
  have hcome : bodySize s ≤ s.behindHeader.bytes.length := by
    simp only [dataOffset, headerSize] at hle hrem
    rcases h.2.2 with hbytes | ⟨-, ⟨hzero, -⟩ | ⟨hmax, -⟩⟩
    · exact le_trans (le_max_left _ _) hbytes
    · omega
    · omega
  show (s.behindHeader.bytes.take (bodySize s)).length + headerSize = leNat s.header
  rw [List.length_take, Nat.min_eq_left hcome, hrem]
  simp only [dataOffset, headerSize] at hle ⊢
  omega

/-- Bytes of the buffer that are bytes of the body. -/
theorem load_receivedBuf (h : Accepted s) (hsize : dataOffset ≤ (frontFrame s).size) {i k : ℕ}
    (hik : headerSize + i + k ≤ (frontFrame s).size) :
    load (receivedBuf s buf) (headerSize + i) k = ((frontFrame s).body.drop i).take k := by
  have hlen := frontFrame_body_length h hsize
  exact load_store _ _ _ _ _ (by omega)

end Receive

/-! ### One frame -/

/-- The data are bytes that the frame brings as data. -/
structure Frame.Carries (f : Frame) (data : List Byte) : Prop where
  size : dataOffset + data.length ≤ f.size
  data : data = (f.body.drop 13).take data.length

/-- The frame is no `WRITE_MEM`, or its length covers the size it gives for the data; the operation
of a frame without a body is the one that is left in the buffer. -/
def Frame.Covered (f : Frame) (left : Byte) : Prop :=
  f.body.headD left = opWriteMem → dataOffset + leNat ((f.body.drop 11).take 2) ≤ f.size

instance (f : Frame) (left : Byte) : Decidable (f.Covered left) :=
  inferInstanceAs (Decidable (_ → _))

section Process

variable {s : Rx} {buf : Mem}

theorem processMsg_writeMem {b : Mem} (hop : (PcieNetMsg.ofBuf b).op = opWriteMem) :
    processMsg b = .dmaWrite (PcieNetMsg.ofBuf b).addr
      (load b dataOffset (PcieNetMsg.ofBuf b).size.toNat) := by
  rw [processMsg, if_pos hop]
  exact congrArg _ (load_shift b dataOffset 0 _)

theorem processMsg_dmaWrite {b : Mem} {addr : BitVec 64} {data : List Byte}
    (h : processMsg b = .dmaWrite addr data) : (PcieNetMsg.ofBuf b).op = opWriteMem := by
  by_contra hop
  rw [processMsg, if_neg hop] at h
  split_ifs at h

/-- The size of a message whose header is in its frame. -/
theorem receivedBuf_size (h : Accepted s) (hsize : dataOffset ≤ (frontFrame s).size) (buf : Mem) :
    (PcieNetMsg.ofBuf (receivedBuf s buf)).size.toNat
      = leNat (((frontFrame s).body.drop 11).take 2) := by
  have hload : load (receivedBuf s buf) 13 2 = ((frontFrame s).body.drop 11).take 2 :=
    load_receivedBuf h hsize (i := 11) hsize
  have hlt : leNat (load (receivedBuf s buf) 13 2) < 2 ^ 16 := by
    have hlt := leNat_lt (load (receivedBuf s buf) 13 2)
    rw [load_length] at hlt
    exact hlt
  show (BitVec.ofNat 16 (leNat (load (receivedBuf s buf) 13 2))).toNat = _
  rw [BitVec.toNat_ofNat, Nat.mod_eq_of_lt hlt, hload]

/-- **When the data of a write are those of its frame**: when the frame covers them. -/
theorem processMsg_carries_iff (h : Accepted s) (buf : Mem) :
    (∀ addr data, processMsg (receivedBuf s buf) = .dmaWrite addr data →
      (frontFrame s).Carries data) ↔ (frontFrame s).Covered (buf 2) := by
  have hop := receivedBuf_op h.1 buf
  constructor
  · intro hcarries hwrite
    have hdata := hcarries _ _ (processMsg_writeMem (hop.trans hwrite))
    have hsize := hdata.size
    rw [load_length] at hsize
    rw [← receivedBuf_size h (by omega) buf]
    exact hsize
  · intro hcovered addr data hwrite
    have hopw := processMsg_dmaWrite hwrite
    have hle := hcovered (hop.symm.trans hopw)
    have hsize : dataOffset ≤ (frontFrame s).size := by omega
    rw [processMsg_writeMem hopw, receivedBuf_size h hsize buf] at hwrite
    obtain ⟨-, rfl⟩ := Handled.dmaWrite.inj hwrite
    have hload : load (receivedBuf s buf) dataOffset (leNat (((frontFrame s).body.drop 11).take 2))
        = ((frontFrame s).body.drop 13).take (leNat (((frontFrame s).body.drop 11).take 2)) :=
      load_receivedBuf h hsize (i := 13) hle
    refine ⟨?_, ?_⟩
    · rw [load_length]
      exact hle
    · rw [load_length]
      exact hload

/-- **A frame with a body that covers its data is processed alike over any buffer.** -/
theorem processMsg_independent (h : Accepted s) (hbody : (frontFrame s).body ≠ [])
    (hcovered : (frontFrame s).Covered 0) (buf buf' : Mem) :
    processMsg (receivedBuf s buf) = processMsg (receivedBuf s buf') := by
  have hhead : ∀ left, (frontFrame s).body.headD left = (frontFrame s).body.headD 0 := by
    intro left
    cases hcons : (frontFrame s).body with
    | nil => exact absurd hcons hbody
    | cons b bs => rfl
  have hop : ∀ b, (PcieNetMsg.ofBuf (receivedBuf s b)).op = (frontFrame s).body.headD 0 :=
    fun b => (receivedBuf_op h.1 b).trans (hhead _)
  by_cases hwrite : (frontFrame s).body.headD 0 = opWriteMem
  · have hle := hcovered hwrite
    have hsize : dataOffset ≤ (frontFrame s).size := by omega
    have haddr : ∀ b, load (receivedBuf s b) 5 8 = ((frontFrame s).body.drop 3).take 8 := by
      intro b
      refine load_receivedBuf h hsize (i := 3) (le_trans ?_ hsize)
      decide
    have hdata : ∀ b, load (receivedBuf s b) dataOffset
        (leNat (((frontFrame s).body.drop 11).take 2))
        = ((frontFrame s).body.drop 13).take (leNat (((frontFrame s).body.drop 11).take 2)) :=
      fun b => load_receivedBuf h hsize (i := 13) hle
    rw [processMsg_writeMem ((hop buf).trans hwrite), processMsg_writeMem ((hop buf').trans hwrite),
      receivedBuf_size h hsize buf, receivedBuf_size h hsize buf', hdata, hdata]
    simp only [PcieNetMsg.ofBuf, haddr]
  · simp only [processMsg, hop, hwrite, if_false]

end Process

/-! ### Runs -/

/-- The move receives the frame at the front and gives it to `process_msg`. -/
def Processes (s : State) : Move → Prop
  | .recvReply => Accepted s.rx ∧ replySize < (frontFrame s.rx).size
  | .onRead => Accepted s.rx ∧ 0 < (frontFrame s.rx).size
  | _ => False

instance (s : State) : ∀ a : Move, Decidable (Processes s a)
  | .recvReply => inferInstanceAs (Decidable (_ ∧ _))
  | .onRead => inferInstanceAs (Decidable (_ ∧ _))
  | .connect _ _ | .sendReports | .deliver _ | .writeConfig _ _ _ | .writeMem _ _ _ _
  | .readConfig _ _ _ | .readMem _ _ _ _ => inferInstanceAs (Decidable False)

/-- A frame that is processed is covered. -/
def CoveredStep (s : State) (a : Move) : Prop :=
  Processes s a → (frontFrame s.rx).Covered (s.msg 2)

instance (s : State) (a : Move) : Decidable (CoveredStep s a) := inferInstanceAs (Decidable (_ → _))

/-- Every write to the memory of the guest has its data from the frame it came in. -/
def DmaWritesCarried (s : State) : Prop :=
  ∀ f addr data, (f, Handled.dmaWrite addr data) ∈ s.handled → f.Carries data

section Step

variable {s t : State} {a : Move}

theorem State.request_handled {buf : Mem} {waiting : Bool} (h : s.request buf waiting = some t) :
    t.handled = s.handled := by
  unfold State.request at h
  split_ifs at h
  cases h
  rfl

theorem State.recvReply_cases (h : s.recvReply = some t) :
    (Processes s .recvReply ∧
        t.handled = s.handled ++ [(frontFrame s.rx, processMsg (receivedBuf s.rx s.msg))]) ∨
      (¬ Processes s .recvReply ∧ t.handled = s.handled) := by
  unfold State.recvReply at h
  split_ifs at h
  cases hrecv : pciefwRecvMsg s.rx s.msg with
  | wait =>
    rw [hrecv] at h
    cases h
  | error rest =>
    rw [hrecv] at h
    cases h
    exact Or.inr ⟨fun hp => pciefwRecvMsg_error hrecv hp.1, rfl⟩
  | ok n buf rest =>
    obtain ⟨hacc, rfl, rfl⟩ := pciefwRecvMsg_ok hrecv
    rw [hrecv] at h
    simp only [receivedBuf_header hacc] at h
    split_ifs at h with hzero hreply
    · cases h
      exact Or.inr ⟨fun hp => absurd hp.2 (by omega), rfl⟩
    · cases h
      exact Or.inr ⟨fun hp => absurd hp.2 (by omega), rfl⟩
    · cases h
      exact Or.inl ⟨⟨hacc, by omega⟩, rfl⟩

theorem State.onRead_cases (h : s.onRead = some t) :
    (Processes s .onRead ∧
        t.handled = s.handled ++ [(frontFrame s.rx, processMsg (receivedBuf s.rx s.msg))]) ∨
      (¬ Processes s .onRead ∧ t.handled = s.handled) := by
  unfold State.onRead at h
  split_ifs at h
  cases hrecv : pciefwRecvMsg s.rx s.msg with
  | wait =>
    rw [hrecv] at h
    cases h
  | error rest =>
    rw [hrecv] at h
    cases h
    exact Or.inr ⟨fun hp => pciefwRecvMsg_error hrecv hp.1, rfl⟩
  | ok n buf rest =>
    obtain ⟨hacc, rfl, rfl⟩ := pciefwRecvMsg_ok hrecv
    rw [hrecv] at h
    simp only at h
    split_ifs at h with hzero
    · cases h
      exact Or.inr ⟨fun hp => absurd hp.2 (by omega), rfl⟩
    · cases h
      exact Or.inl ⟨⟨hacc, by omega⟩, rfl⟩

/-- **What one move processes**: the frame at the front, or nothing. -/
theorem step_cases (h : step s a = some t) :
    (Processes s a ∧
        t.handled = s.handled ++ [(frontFrame s.rx, processMsg (receivedBuf s.rx s.msg))]) ∨
      (¬ Processes s a ∧ t.handled = s.handled) := by
  cases a with
  | connect bytes ended =>
    simp only [step] at h
    split_ifs at h
    cases h
    exact Or.inr ⟨id, rfl⟩
  | sendReports =>
    cases h
    exact Or.inr ⟨id, rfl⟩
  | deliver k =>
    cases h
    exact Or.inr ⟨id, rfl⟩
  | writeConfig addr width data => exact Or.inr ⟨id, State.request_handled h⟩
  | writeMem bar addr width data => exact Or.inr ⟨id, State.request_handled h⟩
  | readConfig addr width sent => exact Or.inr ⟨id, State.request_handled h⟩
  | readMem bar addr width sent => exact Or.inr ⟨id, State.request_handled h⟩
  | recvReply => exact State.recvReply_cases h
  | onRead => exact State.onRead_cases h

/-- A processed frame is accepted. -/
theorem Processes.accepted (h : Processes s a) : Accepted s.rx := by
  cases a with
  | recvReply => exact h.1
  | onRead => exact h.1
  | connect | sendReports | deliver | writeConfig | writeMem | readConfig | readMem => exact h.elim

/-- **Step lemma.**  A move keeps the writes carried exactly if the frame it processes is
covered. -/
theorem step_carried (h : step s a = some t) :
    DmaWritesCarried t ↔ DmaWritesCarried s ∧ CoveredStep s a := by
  rcases step_cases h with ⟨hp, hhandled⟩ | ⟨hp, hhandled⟩
  · have hlast : (∀ f addr data, (f, Handled.dmaWrite addr data)
        = (frontFrame s.rx, processMsg (receivedBuf s.rx s.msg)) → f.Carries data) ↔
        (frontFrame s.rx).Covered (s.msg 2) := by
      rw [← processMsg_carries_iff hp.accepted s.msg]
      constructor
      · intro hall addr data hwrite
        exact hall _ addr data (by rw [hwrite])
      · intro hall f addr data heq
        obtain ⟨rfl, hwrite⟩ := Prod.mk.inj heq
        exact hall addr data hwrite.symm
    simp only [DmaWritesCarried, hhandled, List.mem_append, List.mem_singleton, or_imp, forall_and,
      hlast, CoveredStep, hp, forall_true_left]
  · rw [DmaWritesCarried, hhandled]
    exact (and_iff_left fun hp' => absurd hp' hp).symm

end Step

/-- **The runs in which QEMU writes received bytes only**: those in which each frame that is
processed is no `WRITE_MEM`, or covers the size it gives. -/
theorem dmaWrites_carried_iff {msg : Mem} {moves : List Move} {s : State}
    (hrun : run step (State.init msg) moves = some s) :
    DmaWritesCarried s ↔ EachStep step CoveredStep (State.init msg) moves := by
  have hstart : DmaWritesCarried (State.init msg) :=
    fun f addr data h => absurd h List.not_mem_nil
  have hiff := run_iff_eachStep (fun _ => True) DmaWritesCarried (A := fun _ _ => True)
    (fun _ _ _ _ _ => trivial) (fun _ _ _ _ _ h => step_carried h) trivial
    (eachStep_of_forall (fun _ _ => trivial) _ _) hrun
  rw [hiff, and_iff_right hstart]

/-- A write of the device to the memory of the guest, by its frame. -/
def dmaFrame : List Byte := (WireMsg.mk opWriteMem 0 0 0x1000 [1, 2, 3, 4] (by decide)).encode

theorem dmaWrites_carried_whole :
    ∃ s, run step (State.init fun _ => 0xaa)
        [.connect dmaFrame .open, .writeMem 1 0x10 4 0x55, .deliver dmaFrame.length, .onRead]
          = some s ∧ s.handled.length = 1 ∧ DmaWritesCarried s := by
  have hsome : (run step (State.init fun _ => 0xaa) [.connect dmaFrame .open,
      .writeMem 1 0x10 4 0x55, .deliver dmaFrame.length, .onRead]).isSome = true := by
    decide +kernel
  obtain ⟨s, hs⟩ := Option.isSome_iff_exists.mp hsome
  have hcount : (run step (State.init fun _ => 0xaa) [.connect dmaFrame .open,
      .writeMem 1 0x10 4 0x55, .deliver dmaFrame.length, .onRead]).map (·.handled.length)
        = some 1 := by
    decide +kernel
  rw [hs] at hcount
  exact ⟨s, hs, Option.some.inj hcount, (dmaWrites_carried_iff hs).mpr (by decide +kernel)⟩

/-- **A frame that ends with its size field** has the data of the last write of the guest written to
the memory of the guest. -/
theorem dmaWrites_stale :
    ∃ s, run step (State.init fun _ => 0)
        [.connect (leBytes 2 15 ++ fields opWriteMem 0 0 0x1000 4) .open,
          .writeMem 1 0x10 4 0x11223344, .deliver 15, .onRead] = some s ∧
      s.handled = [(⟨15, fields opWriteMem 0 0 0x1000 4⟩,
        .dmaWrite 0x1000 [0x44, 0x33, 0x22, 0x11])] ∧ ¬ DmaWritesCarried s := by
  have hsome : (run step (State.init fun _ => 0)
      [.connect (leBytes 2 15 ++ fields opWriteMem 0 0 0x1000 4) .open,
        .writeMem 1 0x10 4 0x11223344, .deliver 15, .onRead]).map (·.handled)
      = some [(⟨15, fields opWriteMem 0 0 0x1000 4⟩,
        .dmaWrite 0x1000 [0x44, 0x33, 0x22, 0x11])] := by
    decide +kernel
  obtain ⟨s, hs, hhandled⟩ := Option.map_eq_some_iff.mp hsome
  refine ⟨s, hs, hhandled, ?_⟩
  intro hcarried
  have hsize := (hcarried _ _ _ (hhandled ▸ List.mem_cons_self)).size
  exact absurd hsize (by decide)

end VPcie.Qemu.GuestMemory
