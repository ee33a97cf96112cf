import VPcie.Device.BarRegisters
import VPcie.Device.OnMsgRecv
import VPcie.Lib.Runs
import VPcie.Qemu.Pciefw

/-!
# Replies and device messages on one stream

QEMU and a device over a TCP connection.  QEMU sends requests and, for a read, loops in
`pciefw_recv_reply`; at other times `pciefw_on_read` receives.  The device answers requests in order
and sends `WRITE_MEM` and `MSI` messages of its own whenever it likes.  A frame carries no tag: a
reply is what is no longer than a reply.

The system is a step function whose labels say who moves.  Its histories record what each read call
returned, what the device answered, what it sent, and what was handed to `process_msg`.

* `Inv` — the frames in flight in both directions, and where the read QEMU waits for is;
* `step_inv` — every move keeps it;
* `replies_matched` — over every run, reads return what was computed for them and messages are
  handed over once and in order, and what is in flight can always be finished.
-/

namespace VPcie.Qemu

open VPcie.Lib VPcie.Net VPcie.Device

/-- A read request, as the fields either side has in its buffer. -/
structure Request where
  op : Byte
  bar : Byte
  width : Byte
  addr : BitVec 64
deriving DecidableEq, Repr

def Request.ofMsg (m : PcieNetMsg) : Request := ⟨m.op, m.bar, m.width, m.addr⟩

/-- A read call in progress: what was sent, and the `width` the caller gave. -/
structure ReadCall where
  request : Request
  width : AccessWidth
deriving DecidableEq, Repr

/-- QEMU: `state->msg`, the call that waits in `pciefw_recv_reply`, and whether a receive failed. -/
structure QemuSide where
  msg : Mem
  waiting : Option ReadCall
  failed : Bool

/-- The device: its loop, whether it is inside a BAR read handler, and whether a receive failed. -/
structure DeviceSide (κ : Type) where
  loop : NetLoop κ
  inRead : Bool
  failed : Bool

/-- Both sides, the two directions of the connection, and the histories. -/
structure System (κ : Type) where
  qemu : QemuSide
  device : DeviceSide κ
  up : Stream
  down : Stream
  /-- what the device computed for each read request it received -/
  answered : List (Request × BitVec 64)
  /-- what each call of `pciefw_send_read_common` returned; `none` is the error return -/
  returned : List (Request × Option (List Byte))
  /-- what the device sent on its own -/
  devSent : List Content
  /-- what was handed to `process_msg` -/
  processed : List Content

/-- Who moves. -/
inductive Move where
  | writeConfig (addr : BitVec 64) (width : AccessWidth) (data : BitVec 64)
  | writeMem (bar : Byte) (addr : BitVec 64) (width : AccessWidth) (data : BitVec 64)
  | readConfig (addr : BitVec 64) (width : AccessWidth)
  | readMem (bar : Byte) (addr : BitVec 64) (width : AccessWidth)
  | recvReply
  | onRead
  | deliverUp (k : ℕ)
  | deliverDown (k : ℕ)
  | devRecv
  | devReadDone (bs : List Byte)
  | devSend (m : WireMsg)

variable {κ : Type}

/-! ### The moves -/

/-- A request that waits for nothing. -/
def System.sendWrite (s : System κ) (out : Mem × List Byte) : Option (System κ) :=
  if s.qemu.waiting.isNone ∧ s.qemu.failed = false then
    some { s with qemu := { s.qemu with msg := out.1 }, up := s.up.send out.2 }
  else none

/-- The sending half of a read; the call then waits. -/
def System.sendRead (s : System κ) (width : AccessWidth) (out : Mem × List Byte) :
    Option (System κ) :=
  if s.qemu.waiting.isNone ∧ s.qemu.failed = false then
    some { s with
      qemu := { s.qemu with
        msg := out.1
        waiting := some ⟨Request.ofMsg (PcieNetMsg.ofBuf out.1), width⟩ }
      up := s.up.send out.2 }
  else none

/-- One turn of the loop of `pciefw_recv_reply`, and the end of the call when it is the last. -/
def System.recvReply (s : System κ) : Option (System κ) :=
  match s.qemu.waiting with
  | none => none
  | some call =>
    match pciefwRecvStep s.down.rx s.qemu.msg with
    | .wait => none
    | .error rest =>
      some { s with
        qemu := { s.qemu with waiting := none, failed := true }
        down := s.down.consume rest
        returned := s.returned ++ [(call.request, none)] }
    | .reply buf rest =>
      some { s with
        qemu := { s.qemu with msg := buf, waiting := none }
        down := s.down.consume rest
        returned := s.returned ++ [(call.request, some (replyData buf call.width.bytes))] }
    | .message buf rest =>
      some { s with
        qemu := { s.qemu with msg := buf }
        down := s.down.consume rest
        processed := s.processed ++ [(PcieNetMsg.ofBuf buf).content] }

/-- `pciefw_on_read`, called by the event loop of QEMU. -/
def System.onRead (s : System κ) : Option (System κ) :=
  if s.qemu.waiting.isNone ∧ s.qemu.failed = false then
    match pciefwRecvMsg s.down.rx s.qemu.msg with
    | .wait => none
    | .error rest =>
      some { s with qemu := { s.qemu with failed := true }, down := s.down.consume rest }
    | .ok _ buf rest =>
      some { s with
        qemu := { s.qemu with msg := buf }
        down := s.down.consume rest
        processed := s.processed ++ [(PcieNetMsg.ofBuf buf).content] }
  else none

/-- `pcie_net_send_reply` for the request in the buffer of the loop. -/
def System.answer (s : System κ) (loop : NetLoop κ) (r : PcieNetReply) : System κ :=
  { s with
    device := { s.device with loop := loop, inRead := false }
    down := s.down.send r.encode
    answered := s.answered ++ [(Request.ofMsg (PcieNetMsg.ofBuf loop.msg), r.data)] }

/-- The device receives a message and dispatches it. -/
def System.devRecv (s : System κ) : Option (System κ) :=
  if s.device.inRead = false ∧ s.device.failed = false then
    match pcieNetRecvMsg s.up.rx s.device.loop.msg with
    | .wait => none
    | .error rest =>
      some { s with device := { s.device with failed := true }, up := s.up.consume rest }
    | .ok _ buf rest =>
      let s := { s with up := s.up.consume rest }
      match onMsgRecv s.device.loop.dev (PcieNetMsg.ofBuf buf) with
      | .done dev => some { s with device := { s.device with loop := ⟨dev, buf⟩ } }
      | .reply dev r => some (s.answer ⟨dev, buf⟩ r)
      | .barRead _ =>
        some { s with device := { s.device with loop.msg := buf, inRead := true } }
      | .barWrite _ => some { s with device := { s.device with loop.msg := buf } }
  else none

/-- One move, if it is possible. -/
def step (s : System κ) : Move → Option (System κ)
  | .writeConfig addr width data =>
    s.sendWrite (pciefwSendWriteConfig s.qemu.msg addr width.bytes data)
  | .writeMem bar addr width data =>
    s.sendWrite (pciefwSendWriteMem s.qemu.msg bar addr width.bytes data)
  | .readConfig addr width =>
    s.sendRead width (pciefwSendReadConfig s.qemu.msg addr width.bytes)
  | .readMem bar addr width =>
    s.sendRead width (pciefwSendReadMem s.qemu.msg bar addr width.bytes)
  | .recvReply => s.recvReply
  | .onRead => s.onRead
  | .deliverUp k => some { s with up := s.up.deliver k }
  | .deliverDown k => some { s with down := s.down.deliver k }
  | .devRecv => s.devRecv
  | .devReadDone bs =>
    if s.device.inRead then some (s.answer s.device.loop (barReply bs)) else none
  | .devSend m =>
    -- the device sends nothing else of its own
    if m.op = opWriteMem ∨ m.op = opMsi then
      some { s with down := s.down.send m.encode, devSent := s.devSent ++ [m.content] }
    else none

/-- Both sides before the first request, whatever the buffers hold. -/
def System.init (dev : PcieDev κ) (qemuMsg devMsg : Mem) : System κ where
  qemu := ⟨qemuMsg, none, false⟩
  device := ⟨⟨dev, devMsg⟩, false, false⟩
  up := .empty
  down := .empty
  answered := []
  returned := []
  devSent := []
  processed := []

/-! ### The invariant -/

/-- A frame on its way to QEMU. -/
inductive Frame where
  | msg (m : WireMsg)
  | reply (r : PcieNetReply)

def Frame.encode : Frame → List Byte
  | msg m => m.encode
  | reply r => r.encode

/-- What the device messages among some frames say. -/
def messages : List Frame → List Content
  | [] => []
  | .msg m :: fs => m.content :: messages fs
  | .reply _ :: fs => messages fs

/-- No frame is a reply. -/
def NoReply (fs : List Frame) : Prop := ∀ r, Frame.reply r ∉ fs

/-- What a read call is to return for an answer. -/
def returnOf (a : Request × BitVec 64) : Request × Option (List Byte) :=
  (a.1, some (leBytes a.1.width.toNat a.2.toNat))

/-- A call whose request carries its width. -/
def ReadCall.Valid (c : ReadCall) : Prop := c.request.width = BitVec.ofNat 8 c.width.bytes

/-- Where the read of QEMU is.  A device message can be anywhere in `downs`. -/
inductive Phase (s : System κ) (ups : List WireMsg) (downs : List Frame) : Prop where
  | idle (hwait : s.qemu.waiting = none) (hups : ∀ m ∈ ups, ¬IsRead m.op)
      (hdev : s.device.inRead = false) (hdowns : NoReply downs)
      (hret : s.returned = s.answered.map returnOf)
  | sent (call : ReadCall) (hwait : s.qemu.waiting = some call) (hcall : call.Valid)
      (us : List WireMsg) (m : WireMsg) (hsplit : ups = us ++ [m])
      (hups : ∀ m ∈ us, ¬IsRead m.op) (hread : IsRead m.op)
      (hreq : call.request = ⟨m.op, m.bar, m.width, m.addr⟩)
      (hdev : s.device.inRead = false) (hdowns : NoReply downs)
      (hret : s.returned = s.answered.map returnOf)
  | handling (call : ReadCall) (hwait : s.qemu.waiting = some call) (hcall : call.Valid)
      (hups : ups = []) (hdev : s.device.inRead = true)
      (hreq : call.request = Request.ofMsg (PcieNetMsg.ofBuf s.device.loop.msg))
      (hdowns : NoReply downs) (hret : s.returned = s.answered.map returnOf)
  | answered (call : ReadCall) (hwait : s.qemu.waiting = some call) (hcall : call.Valid)
      (hups : ups = []) (hdev : s.device.inRead = false)
      (before after : List Frame) (r : PcieNetReply)
      (hsplit : downs = before ++ .reply r :: after) (hbefore : NoReply before)
      (hafter : NoReply after) (prev : List (Request × BitVec 64))
      (hans : s.answered = prev ++ [(call.request, r.data)])
      (hret : s.returned = prev.map returnOf)

/-- The invariant, with the frames in flight upwards and downwards. -/
structure Inv (s : System κ) (ups : List WireMsg) (downs : List Frame) : Prop where
  up : s.up.bytes = ups.flatMap WireMsg.encode
  down : s.down.bytes = downs.flatMap Frame.encode
  sent : s.devSent = s.processed ++ messages downs
  qemuAlive : s.qemu.failed = false
  deviceAlive : s.device.failed = false
  phase : Phase s ups downs

/-! ### Frames -/

@[simp] theorem messages_append (fs gs : List Frame) :
    messages (fs ++ gs) = messages fs ++ messages gs := by
  induction fs with
  | nil => rfl
  | cons f fs ih =>
    cases f with
    | msg m => simp only [List.cons_append, messages, ih]
    | reply r => simp only [List.cons_append, messages, ih]

theorem NoReply.append {fs gs : List Frame} (hf : NoReply fs) (hg : NoReply gs) :
    NoReply (fs ++ gs) :=
  fun r h => (List.mem_append.mp h).elim (hf r) (hg r)

theorem noReply_msg (m : WireMsg) : NoReply [.msg m] := fun r h => by simp at h

theorem noReply_nil : NoReply [] := fun _ h => by simp at h

theorem NoReply.tail {f : Frame} {fs : List Frame} (h : NoReply (f :: fs)) : NoReply fs :=
  fun r hr => h r (List.mem_cons_of_mem f hr)

/-! ### Phases -/

section Phase

variable {s t : System κ} {ups : List WireMsg} {downs : List Frame} {m : WireMsg}

/-- The phase reads no more of the state than this; the buffer of the device matters only while a
handler runs. -/
theorem Phase.congr (h : Phase s ups downs) (hw : t.qemu.waiting = s.qemu.waiting)
    (hd : t.device.inRead = s.device.inRead)
    (hm : s.device.inRead = true → t.device.loop.msg = s.device.loop.msg)
    (ha : t.answered = s.answered) (hr : t.returned = s.returned) : Phase t ups downs := by
  cases h with
  | idle hwait hups hdev hdowns hret =>
    exact .idle (hw.trans hwait) hups (hd.trans hdev) hdowns (by rw [hr, ha, hret])
  | sent call hwait hcall us m hsplit hups hread hreq hdev hdowns hret =>
    exact .sent call (hw.trans hwait) hcall us m hsplit hups hread hreq (hd.trans hdev) hdowns
      (by rw [hr, ha, hret])
  | handling call hwait hcall hups hdev hreq hdowns hret =>
    exact .handling call (hw.trans hwait) hcall hups (hd.trans hdev) (by rw [hm hdev, hreq]) hdowns
      (by rw [hr, ha, hret])
  | answered call hwait hcall hups hdev before after r hsplit hbefore hafter prev hans hret =>
    exact .answered call (hw.trans hwait) hcall hups (hd.trans hdev) before after r hsplit hbefore
      hafter prev (ha.trans hans) (hr.trans hret)

/-- A device message joins behind the frames in flight. -/
theorem Phase.snocMsg (h : Phase s ups downs) (m : WireMsg) : Phase s ups (downs ++ [.msg m]) := by
  cases h with
  | idle hwait hups hdev hdowns hret =>
    exact .idle hwait hups hdev (hdowns.append (noReply_msg m)) hret
  | sent call hwait hcall us m' hsplit hups hread hreq hdev hdowns hret =>
    exact .sent call hwait hcall us m' hsplit hups hread hreq hdev
      (hdowns.append (noReply_msg m)) hret
  | handling call hwait hcall hups hdev hreq hdowns hret =>
    exact .handling call hwait hcall hups hdev hreq (hdowns.append (noReply_msg m)) hret
  | answered call hwait hcall hups hdev before after r hsplit hbefore hafter prev hans hret =>
    refine .answered call hwait hcall hups hdev before (after ++ [.msg m]) r ?_ hbefore
      (hafter.append (noReply_msg m)) prev hans hret
    rw [hsplit, List.append_assoc, List.cons_append]

/-- A device message leaves at the front of the frames in flight. -/
theorem Phase.dropMsg (h : Phase s ups (.msg m :: downs)) : Phase s ups downs := by
  cases h with
  | idle hwait hups hdev hdowns hret => exact .idle hwait hups hdev hdowns.tail hret
  | sent call hwait hcall us m' hsplit hups hread hreq hdev hdowns hret =>
    exact .sent call hwait hcall us m' hsplit hups hread hreq hdev hdowns.tail hret
  | handling call hwait hcall hups hdev hreq hdowns hret =>
    exact .handling call hwait hcall hups hdev hreq hdowns.tail hret
  | answered call hwait hcall hups hdev before after r hsplit hbefore hafter prev hans hret =>
    cases before with
    | nil => exact absurd hsplit (by simp)
    | cons f before =>
      rw [List.cons_append, List.cons.injEq] at hsplit
      exact .answered call hwait hcall hups hdev before after r hsplit.2 hbefore.tail hafter prev
        hans hret

/-- A request that is not a read leaves at the front of the requests in flight. -/
theorem Phase.dropWrite (h : Phase s (m :: ups) downs) (hm : ¬IsRead m.op) :
    Phase s ups downs := by
  cases h with
  | idle hwait hups hdev hdowns hret =>
    exact .idle hwait (fun m' hm' => hups m' (List.mem_cons_of_mem m hm')) hdev hdowns hret
  | sent call hwait hcall us m' hsplit hups hread hreq hdev hdowns hret =>
    cases us with
    | nil =>
      rw [List.nil_append, List.cons.injEq] at hsplit
      exact absurd (hsplit.1 ▸ hread) hm
    | cons u us =>
      rw [List.cons_append, List.cons.injEq] at hsplit
      exact .sent call hwait hcall us m' hsplit.2
        (fun m'' hm'' => hups m'' (List.mem_cons_of_mem u hm'')) hread hreq hdev hdowns hret
  | handling call hwait hcall hups hdev hreq hdowns hret =>
    exact absurd hups (List.cons_ne_nil m ups)
  | answered call hwait hcall hups hdev before after r hsplit hbefore hafter prev hans hret =>
    exact absurd hups (List.cons_ne_nil m ups)

/-- A read at the front of the requests in flight is the one QEMU waits for, and the last. -/
theorem Phase.takeRead (h : Phase s (m :: ups) downs) (hm : IsRead m.op) :
    ups = [] ∧ NoReply downs ∧ s.returned = s.answered.map returnOf ∧ s.device.inRead = false ∧
      ∃ call : ReadCall, s.qemu.waiting = some call ∧ call.Valid ∧
        call.request = ⟨m.op, m.bar, m.width, m.addr⟩ := by
  cases h with
  | idle hwait hups hdev hdowns hret => exact absurd hm (hups m List.mem_cons_self)
  | sent call hwait hcall us m' hsplit hups hread hreq hdev hdowns hret =>
    cases us with
    | nil =>
      rw [List.nil_append, List.cons.injEq] at hsplit
      obtain ⟨rfl, hnil⟩ := hsplit
      exact ⟨hnil, hdowns, hret, hdev, call, hwait, hcall, hreq⟩
    | cons u us =>
      rw [List.cons_append, List.cons.injEq] at hsplit
      exact absurd (hsplit.1 ▸ hm) (hups u List.mem_cons_self)
  | handling call hwait hcall hups hdev hreq hdowns hret =>
    exact absurd hups (List.cons_ne_nil m ups)
  | answered call hwait hcall hups hdev before after r hsplit hbefore hafter prev hans hret =>
    exact absurd hups (List.cons_ne_nil m ups)

/-- A reply at the front of the frames in flight answers the call QEMU waits for. -/
theorem Phase.takeReply {r : PcieNetReply} (h : Phase s ups (.reply r :: downs)) :
    ups = [] ∧ NoReply downs ∧ s.device.inRead = false ∧
      ∃ call prev, s.qemu.waiting = some call ∧ call.Valid ∧
        s.answered = prev ++ [(call.request, r.data)] ∧ s.returned = prev.map returnOf := by
  cases h with
  | idle hwait hups hdev hdowns hret => exact absurd List.mem_cons_self (hdowns r)
  | sent call hwait hcall us m' hsplit hups hread hreq hdev hdowns hret =>
    exact absurd List.mem_cons_self (hdowns r)
  | handling call hwait hcall hups hdev hreq hdowns hret =>
    exact absurd List.mem_cons_self (hdowns r)
  | answered call hwait hcall hups hdev before after r' hsplit hbefore hafter prev hans hret =>
    cases before with
    | nil =>
      rw [List.nil_append, List.cons.injEq, Frame.reply.injEq] at hsplit
      obtain ⟨rfl, rfl⟩ := hsplit
      exact ⟨hups, hafter, hdev, call, prev, hwait, hcall, hans, hret⟩
    | cons f before =>
      rw [List.cons_append, List.cons.injEq] at hsplit
      exact absurd (hsplit.1 ▸ List.mem_cons_self) (hbefore r)

/-- QEMU sends only when no read is anywhere. -/
theorem Phase.of_idle (h : Phase s ups downs) (hw : s.qemu.waiting.isNone = true) :
    (∀ m ∈ ups, ¬IsRead m.op) ∧ s.device.inRead = false ∧ NoReply downs ∧
      s.returned = s.answered.map returnOf := by
  rw [Option.isNone_iff_eq_none] at hw
  cases h with
  | idle hwait hups hdev hdowns hret => exact ⟨hups, hdev, hdowns, hret⟩
  | sent call hwait => exact absurd (hw.symm.trans hwait) (by simp)
  | handling call hwait => exact absurd (hw.symm.trans hwait) (by simp)
  | answered call hwait => exact absurd (hw.symm.trans hwait) (by simp)

/-- The device is in a read handler only for the call QEMU waits for. -/
theorem Phase.of_inRead (h : Phase s ups downs) (hd : s.device.inRead = true) :
    ups = [] ∧ NoReply downs ∧ s.returned = s.answered.map returnOf ∧
      ∃ call : ReadCall, s.qemu.waiting = some call ∧ call.Valid ∧
        call.request = Request.ofMsg (PcieNetMsg.ofBuf s.device.loop.msg) := by
  cases h with
  | idle hwait hups hdev hdowns hret => exact absurd (hd.symm.trans hdev) (by simp)
  | sent call hwait hcall us m' hsplit hups hread hreq hdev hdowns hret =>
    exact absurd (hd.symm.trans hdev) (by simp)
  | handling call hwait hcall hups hdev hreq hdowns hret =>
    exact ⟨hups, hdowns, hret, call, hwait, hcall, hreq⟩
  | answered call hwait hcall hups hdev before after r' hsplit hbefore hafter prev hans hret =>
    exact absurd (hd.symm.trans hdev) (by simp)

end Phase

/-! ### Step lemmas -/

/-- The read calls made so far. -/
def System.calls (s : System κ) : ℕ :=
  s.returned.length + if s.qemu.waiting.isSome then 1 else 0

/-- What is left to do for the frames in flight. -/
def weight (s : System κ) (ups : List WireMsg) (downs : List Frame) : ℕ :=
  3 * ups.length + downs.length + if s.device.inRead then 2 else 0

/-- The move from `s` to `t` works off a frame in flight and starts nothing new. -/
structure WorksOff (s t : System κ) (ups ups' : List WireMsg) (downs downs' : List Frame) :
    Prop where
  inv : Inv t ups' downs'
  devSent : t.devSent = s.devSent
  calls : t.calls = s.calls
  weight : weight t ups' downs' < weight s ups downs

section Steps

variable {s t : System κ} {ups : List WireMsg} {downs : List Frame} {m : WireMsg}

theorem Inv.sendWrite (h : Inv s ups downs) {out : Mem × List Byte} (hout : out.2 = m.encode)
    (hm : ¬IsRead m.op) (hst : s.sendWrite out = some t) : Inv t (ups ++ [m]) downs := by
  unfold System.sendWrite at hst
  split_ifs at hst with hidle
  cases hst
  obtain ⟨hups, hdev, hdowns, hret⟩ := h.phase.of_idle hidle.1
  refine ⟨?_, h.down, h.sent, h.qemuAlive, h.deviceAlive, ?_⟩
  · show (s.up.send out.2).bytes = _
    rw [Stream.bytes_send, h.up, hout, List.flatMap_append, List.flatMap_singleton]
  · refine .idle (Option.isNone_iff_eq_none.mp hidle.1) (fun m' hm' => ?_) hdev hdowns hret
    rcases List.mem_append.mp hm' with h' | h'
    · exact hups m' h'
    · rw [List.mem_singleton.mp h']
      exact hm

theorem Inv.sendRead (h : Inv s ups downs) {width : AccessWidth} {out : Mem × List Byte}
    (hout : out.2 = m.encode) (hholds : Holds out.1 m) (hm : IsRead m.op)
    (hwidth : m.width = BitVec.ofNat 8 width.bytes) (hst : s.sendRead width out = some t) :
    Inv t (ups ++ [m]) downs := by
  unfold System.sendRead at hst
  split_ifs at hst with hidle
  cases hst
  obtain ⟨hups, hdev, hdowns, hret⟩ := h.phase.of_idle hidle.1
  obtain ⟨hop, hbar, hw, haddr, _⟩ := ofBuf_encode hholds
  refine ⟨?_, h.down, h.sent, h.qemuAlive, h.deviceAlive, ?_⟩
  · show (s.up.send out.2).bytes = _
    rw [Stream.bytes_send, h.up, hout, List.flatMap_append, List.flatMap_singleton]
  · refine .sent _ rfl (hw.trans hwidth) ups m rfl hups hm ?_ hdev hdowns hret
    simp only [Request.ofMsg, hop, hbar, hw, haddr]

/-- A call that gets its answer returns it. -/
theorem replyData_of_valid {call : ReadCall} (hcall : call.Valid) {buf : Mem} {data : BitVec 64}
    (hdata : load buf 3 8 = leBytes 8 data.toNat) :
    (call.request, some (replyData buf call.width.bytes)) = returnOf (call.request, data) := by
  have hw : call.width.bytes = 1 ∨ call.width.bytes = 2 ∨ call.width.bytes = 4 ∨
      call.width.bytes = 8 := by
    cases call.width <;> decide
  have hnat : call.request.width.toNat = call.width.bytes := by
    rw [hcall, BitVec.toNat_ofNat]
    omega
  rw [returnOf, replyData_eq buf _ data hw hdata, hnat]

theorem Inv.recvReply (h : Inv s ups downs) (hst : s.recvReply = some t) :
    ∃ downs', WorksOff s t ups ups downs downs' := by
  unfold System.recvReply at hst
  cases hwait : s.qemu.waiting with
  | none => simp [hwait] at hst
  | some call =>
    simp only [hwait] at hst
    cases downs with
    | nil =>
      -- nothing is in flight, so the call blocks
      rw [pciefwRecvStep_nil h.down] at hst
      exact absurd hst (by simp)
    | cons f downs =>
      refine ⟨downs, ?_⟩
      have hsplit := h.down
      rw [List.flatMap_cons] at hsplit
      cases f with
      | msg m =>
        rcases pciefwRecvStep_stream_msg hsplit s.qemu.msg with hw | ⟨buf, rest, hrecv, hrest, hb⟩
        · rw [hw] at hst
          exact absurd hst (by simp)
        · rw [hrecv] at hst
          cases hst
          refine ⟨⟨h.up, hrest, ?_, h.qemuAlive, h.deviceAlive,
            h.phase.dropMsg.congr hwait.symm rfl (fun _ => rfl) rfl rfl⟩, rfl, ?_, ?_⟩
          · show s.devSent = s.processed ++ [(PcieNetMsg.ofBuf buf).content] ++ messages downs
            rw [h.sent, content_ofBuf hb, List.append_assoc]
            rfl
          · simp only [System.calls, hwait]
          · simp only [weight, List.length_cons]
            omega
      | reply r =>
        rcases pciefwRecvStep_stream_reply hsplit s.qemu.msg with
          hw | ⟨buf, rest, hrecv, hrest, hdata⟩
        · rw [hw] at hst
          exact absurd hst (by simp)
        · rw [hrecv] at hst
          cases hst
          obtain ⟨rfl, hdowns, hdev, call', prev, hwait', hcall, hans, hret⟩ := h.phase.takeReply
          obtain rfl : call = call' := Option.some.inj (hwait.symm.trans hwait')
          refine ⟨⟨h.up, hrest, h.sent, h.qemuAlive, h.deviceAlive, ?_⟩, rfl, ?_, ?_⟩
          · refine .idle rfl (fun m hm => absurd hm List.not_mem_nil) hdev hdowns ?_
            show s.returned ++ [_] = s.answered.map returnOf
            rw [replyData_of_valid hcall hdata, hret, hans, List.map_append]
            rfl
          · simp [System.calls, hwait]
          · simp only [weight, List.length_cons]
            omega

theorem Inv.onRead (h : Inv s ups downs) (hst : s.onRead = some t) :
    ∃ downs', WorksOff s t ups ups downs downs' := by
  unfold System.onRead at hst
  split_ifs at hst with hidle
  obtain ⟨hups, hdev, hdowns, hret⟩ := h.phase.of_idle hidle.1
  cases downs with
  | nil =>
    rw [pciefwRecvMsg_nil h.down] at hst
    exact absurd hst (by simp)
  | cons f downs =>
    refine ⟨downs, ?_⟩
    have hsplit := h.down
    rw [List.flatMap_cons] at hsplit
    cases f with
    | reply r => exact absurd List.mem_cons_self (hdowns r)
    | msg m =>
      rcases pciefwRecvMsg_stream hsplit s.qemu.msg with hw | ⟨n, buf, rest, hrecv, hrest, hb, _⟩
      · rw [hw] at hst
        exact absurd hst (by simp)
      · rw [hrecv] at hst
        cases hst
        refine ⟨⟨h.up, hrest, ?_, h.qemuAlive, h.deviceAlive,
          h.phase.dropMsg.congr rfl rfl (fun _ => rfl) rfl rfl⟩, rfl, rfl, ?_⟩
        · show s.devSent = s.processed ++ [(PcieNetMsg.ofBuf buf).content] ++ messages downs
          rw [h.sent, content_ofBuf hb, List.append_assoc]
          rfl
        · simp only [weight, List.length_cons]
          omega

/-- The device answers the call QEMU waits for. -/
theorem Inv.answer (loop : NetLoop κ) (r : PcieNetReply) {up : Stream} (hup : up.bytes = [])
    (hdown : s.down.bytes = downs.flatMap Frame.encode)
    (hsent : s.devSent = s.processed ++ messages downs) (hqemu : s.qemu.failed = false)
    (hdevice : s.device.failed = false) (hdowns : NoReply downs)
    (hret : s.returned = s.answered.map returnOf) {call : ReadCall}
    (hwait : s.qemu.waiting = some call) (hcall : call.Valid)
    (hreq : call.request = Request.ofMsg (PcieNetMsg.ofBuf loop.msg)) :
    Inv ({ s with up := up }.answer loop r) [] (downs ++ [.reply r]) := by
  refine ⟨hup, ?_, ?_, hqemu, hdevice, ?_⟩
  · show (s.down.send r.encode).bytes = _
    rw [Stream.bytes_send, hdown, List.flatMap_append, List.flatMap_singleton]
    rfl
  · show s.devSent = _
    rw [hsent, messages_append]
    simp only [messages, List.append_nil]
    rfl
  · refine .answered call hwait hcall rfl rfl downs [] r rfl hdowns noReply_nil s.answered ?_ hret
    rw [hreq]
    rfl

theorem Inv.devRecv (h : Inv s ups downs) (hst : s.devRecv = some t) :
    ∃ ups' downs', WorksOff s t ups ups' downs downs' := by
  unfold System.devRecv at hst
  split_ifs at hst with hfree
  cases ups with
  | nil =>
    rw [pcieNetRecvMsg_nil h.up] at hst
    exact absurd hst (by simp)
  | cons m ups =>
    have hsplit := h.up
    rw [List.flatMap_cons] at hsplit
    rcases pcieNetRecvMsg_stream hsplit s.device.loop.msg with
      hw | ⟨n, buf, rest, hrecv, hrest, hb⟩
    · rw [hw] at hst
      exact absurd hst (by simp)
    · simp only [hrecv] at hst
      have hmust := onMsgRecv_mustReply s.device.loop.dev (PcieNetMsg.ofBuf buf)
      obtain ⟨hop, hbar, hwidth, haddr, _⟩ := ofBuf_encode hb
      rw [hop] at hmust
      have hreq : Request.ofMsg (PcieNetMsg.ofBuf buf) = ⟨m.op, m.bar, m.width, m.addr⟩ := by
        rw [Request.ofMsg, hop, hbar, hwidth, haddr]
      -- a message that is not answered only leaves the stream
      have hwrite : ∀ dev : PcieDev κ, ¬IsRead m.op →
          WorksOff s
            { s with up := s.up.consume rest, device := { s.device with loop := ⟨dev, buf⟩ } }
            (m :: ups) ups downs downs := by
        intro dev hm
        refine ⟨⟨hrest, h.down, h.sent, h.qemuAlive, h.deviceAlive,
          (h.phase.dropWrite hm).congr rfl rfl (fun hd => ?_) rfl rfl⟩, rfl, rfl, ?_⟩
        · exact absurd (hd.symm.trans hfree.1) (by simp)
        · simp only [weight, List.length_cons]
          omega
      cases hdisp : onMsgRecv s.device.loop.dev (PcieNetMsg.ofBuf buf) with
      | done dev =>
        rw [hdisp] at hmust
        simp only [hdisp] at hst
        cases hst
        exact ⟨ups, downs, hwrite dev (by simpa [Dispatch.mustReply] using hmust.symm)⟩
      | barWrite fn =>
        rw [hdisp] at hmust
        simp only [hdisp] at hst
        cases hst
        exact ⟨ups, downs, hwrite _ (by simpa [Dispatch.mustReply] using hmust.symm)⟩
      | reply dev r =>
        rw [hdisp] at hmust
        simp only [hdisp] at hst
        cases hst
        have hm : IsRead m.op := by simpa [Dispatch.mustReply] using hmust.symm
        obtain ⟨rfl, hdowns, hret, hdev, call, hwait, hcall, hcallreq⟩ := h.phase.takeRead hm
        refine ⟨[], downs ++ [.reply r], Inv.answer ⟨dev, buf⟩ r hrest h.down h.sent h.qemuAlive
          h.deviceAlive hdowns hret hwait hcall (hcallreq.trans hreq.symm), rfl, rfl, ?_⟩
        simp only [weight, System.answer, List.length_append, List.length_cons, List.length_nil,
          hdev]
        simp only [Bool.false_eq_true, if_false]
        omega
      | barRead fn =>
        rw [hdisp] at hmust
        simp only [hdisp] at hst
        cases hst
        have hm : IsRead m.op := by simpa [Dispatch.mustReply] using hmust.symm
        obtain ⟨rfl, hdowns, hret, hdev, call, hwait, hcall, hcallreq⟩ := h.phase.takeRead hm
        refine ⟨[], downs, ⟨hrest, h.down, h.sent, h.qemuAlive, h.deviceAlive,
          .handling call hwait hcall rfl rfl (hcallreq.trans hreq.symm) hdowns hret⟩, rfl, rfl, ?_⟩
        simp only [weight, List.length_cons, List.length_nil, hdev]
        simp only [Bool.false_eq_true, if_false, if_true]
        omega

theorem Inv.devReadDone (h : Inv s ups downs) (hdev : s.device.inRead = true) (bs : List Byte) :
    WorksOff s (s.answer s.device.loop (barReply bs)) ups ups downs
      (downs ++ [.reply (barReply bs)]) := by
  obtain ⟨rfl, hdowns, hret, call, hwait, hcall, hreq⟩ := h.phase.of_inRead hdev
  refine ⟨Inv.answer s.device.loop (barReply bs) h.up h.down h.sent h.qemuAlive h.deviceAlive
    hdowns hret hwait hcall hreq, rfl, rfl, ?_⟩
  simp only [weight, System.answer, List.length_append, List.length_cons, List.length_nil, hdev]
  simp only [Bool.false_eq_true, if_false, if_true]
  omega

theorem Inv.devSend (h : Inv s ups downs) (m : WireMsg) :
    Inv { s with down := s.down.send m.encode, devSent := s.devSent ++ [m.content] } ups
      (downs ++ [.msg m]) := by
  refine ⟨h.up, ?_, ?_, h.qemuAlive, h.deviceAlive,
    (h.phase.snocMsg m).congr rfl rfl (fun _ => rfl) rfl rfl⟩
  · show (s.down.send m.encode).bytes = _
    rw [Stream.bytes_send, h.down, List.flatMap_append, List.flatMap_singleton]
    rfl
  · show s.devSent ++ [m.content] = _
    rw [h.sent, messages_append, List.append_assoc]
    rfl

theorem Inv.deliverUp (h : Inv s ups downs) (k : ℕ) :
    Inv { s with up := s.up.deliver k } ups downs :=
  ⟨(Stream.bytes_deliver s.up k).trans h.up, h.down, h.sent, h.qemuAlive, h.deviceAlive,
    h.phase.congr rfl rfl (fun _ => rfl) rfl rfl⟩

theorem Inv.deliverDown (h : Inv s ups downs) (k : ℕ) :
    Inv { s with down := s.down.deliver k } ups downs :=
  ⟨h.up, (Stream.bytes_deliver s.down k).trans h.down, h.sent, h.qemuAlive, h.deviceAlive,
    h.phase.congr rfl rfl (fun _ => rfl) rfl rfl⟩

end Steps

/-- **Every move keeps the invariant.** -/
theorem step_inv {s t : System κ} {ups : List WireMsg} {downs : List Frame} (h : Inv s ups downs)
    (a : Move) (hst : step s a = some t) : ∃ ups' downs', Inv t ups' downs' := by
  have hwidth : ∀ w : AccessWidth, w.bytes ≤ 8 := fun w => by cases w <;> decide
  cases a with
  | writeConfig addr width data =>
    exact ⟨_, downs, h.sendWrite
      (pciefwSendWriteConfig_bytes s.qemu.msg addr width.bytes data (hwidth width))
      (show ¬IsRead opWriteConfig by decide) hst⟩
  | writeMem bar addr width data =>
    exact ⟨_, downs, h.sendWrite
      (pciefwSendWriteMem_bytes s.qemu.msg bar addr width.bytes data
        (hwidth width)) (show ¬IsRead opWriteMem by decide) hst⟩
  | readConfig addr width =>
    have hout := pciefwSendReadConfig_bytes s.qemu.msg addr width.bytes
    exact ⟨_, downs, h.sendRead hout (pciefwSendMsg_holds hout)
      (show IsRead opReadConfig by decide) rfl hst⟩
  | readMem bar addr width =>
    have hout := pciefwSendReadMem_bytes s.qemu.msg bar addr width.bytes
    exact ⟨_, downs, h.sendRead hout (pciefwSendMsg_holds hout)
      (show IsRead opReadMem by decide) rfl hst⟩
  | recvReply =>
    obtain ⟨downs', hwork⟩ := h.recvReply hst
    exact ⟨ups, downs', hwork.inv⟩
  | onRead =>
    obtain ⟨downs', hwork⟩ := h.onRead hst
    exact ⟨ups, downs', hwork.inv⟩
  | deliverUp k =>
    cases hst
    exact ⟨ups, downs, h.deliverUp k⟩
  | deliverDown k =>
    cases hst
    exact ⟨ups, downs, h.deliverDown k⟩
  | devRecv =>
    obtain ⟨ups', downs', hwork⟩ := h.devRecv hst
    exact ⟨ups', downs', hwork.inv⟩
  | devReadDone bs =>
    simp only [step] at hst
    split_ifs at hst with hdev
    cases hst
    exact ⟨ups, _, (h.devReadDone hdev bs).inv⟩
  | devSend m =>
    simp only [step] at hst
    split_ifs at hst
    cases hst
    exact ⟨ups, downs ++ [.msg m], h.devSend m⟩

theorem inv_init (dev : PcieDev κ) (qemuMsg devMsg : Mem) :
    Inv (System.init dev qemuMsg devMsg) [] [] :=
  ⟨rfl, rfl, rfl, rfl, rfl,
    .idle rfl (fun _ hm => absurd hm List.not_mem_nil) rfl noReply_nil rfl⟩

/-- The invariant in every state of a run. -/
theorem run_inv {dev : PcieDev κ} {qemuMsg devMsg : Mem} {moves : List Move} {s : System κ}
    (hrun : run step (System.init dev qemuMsg devMsg) moves = some s) :
    ∃ ups downs, Inv s ups downs := by
  refine run_invariant (fun s => ∃ ups downs, Inv s ups downs) (fun s a t h hst => ?_)
    ⟨[], [], inv_init dev qemuMsg devMsg⟩ hrun
  obtain ⟨ups, downs, h⟩ := h
  exact step_inv h a hst

/-! ### What is in flight can be finished -/

/-- Moves that start nothing: the network, the loop of the device, and QEMU receiving. -/
def Move.Internal : Move → Prop
  | .recvReply => True
  | .onRead => True
  | .deliverUp _ => True
  | .deliverDown _ => True
  | .devRecv => True
  | .devReadDone _ => True
  | _ => False

section Progress

variable {s : System κ} {ups : List WireMsg} {downs : List Frame}

/-- Once everything has arrived, `pciefw_on_read` receives a frame. -/
theorem onRead_ready (h : Inv s ups downs) (hwait : s.qemu.waiting = none) (hne : downs ≠ []) :
    ∃ t, step { s with down := s.down.deliver s.down.flight.length } .onRead = some t := by
  have hidle : s.qemu.waiting.isNone = true ∧ s.qemu.failed = false :=
    ⟨Option.isNone_iff_eq_none.mpr hwait, h.qemuAlive⟩
  obtain ⟨_, _, hdowns, _⟩ := h.phase.of_idle hidle.1
  cases downs with
  | nil => exact absurd rfl hne
  | cons f downs =>
    cases f with
    | reply r => exact absurd List.mem_cons_self (hdowns r)
    | msg m =>
      obtain ⟨n, buf, hrecv, _⟩ :=
        pciefwRecvMsg_encode m (downs.flatMap Frame.encode) .open s.qemu.msg
      simp only [step, System.onRead, Stream.rx_deliver_all, h.down, List.flatMap_cons,
        Frame.encode]
      rw [if_pos hidle, hrecv]
      exact ⟨_, rfl⟩

/-- Once everything has arrived, a waiting call receives a frame. -/
theorem recvReply_ready (h : Inv s ups downs) {call : ReadCall} (hwait : s.qemu.waiting = some call)
    (hne : downs ≠ []) :
    ∃ t, step { s with down := s.down.deliver s.down.flight.length } .recvReply = some t := by
  cases downs with
  | nil => exact absurd rfl hne
  | cons f downs =>
    simp only [step, System.recvReply, hwait, Stream.rx_deliver_all, h.down, List.flatMap_cons]
    cases f with
    | reply r =>
      obtain ⟨buf, hrecv, _⟩ :=
        pciefwRecvStep_reply r (downs.flatMap Frame.encode) .open s.qemu.msg
      rw [Frame.encode, hrecv]
      exact ⟨_, rfl⟩
    | msg m =>
      obtain ⟨buf, hrecv⟩ := pciefwRecvStep_msg m (downs.flatMap Frame.encode) .open s.qemu.msg
      rw [Frame.encode, hrecv]
      exact ⟨_, rfl⟩

/-- Once everything has arrived, a free device receives a request. -/
theorem devRecv_ready (h : Inv s ups downs) (hdev : s.device.inRead = false) (hne : ups ≠ []) :
    ∃ t, step { s with up := s.up.deliver s.up.flight.length } .devRecv = some t := by
  cases ups with
  | nil => exact absurd rfl hne
  | cons m ups =>
    obtain ⟨n, buf, hrecv, _⟩ :=
      pcieNetRecvMsg_encode m (ups.flatMap WireMsg.encode) .open s.device.loop.msg
    simp only [step, System.devRecv, Stream.rx_deliver_all, h.up, List.flatMap_cons]
    rw [if_pos ⟨hdev, h.deviceAlive⟩, hrecv]
    cases hdisp : onMsgRecv s.device.loop.dev (PcieNetMsg.ofBuf buf) <;>
      simp only [hdisp, Option.some.injEq, exists_eq']

theorem run_two {s t u : System κ} {a b : Move} (hst : step s a = some t)
    (htu : step t b = some u) : run step s [a, b] = some u := by
  rw [run_cons, hst, Option.bind_some, run_cons, htu]
  rfl

/-- **While a frame is on its way to QEMU, or QEMU waits, internal moves can work off a frame.** -/
theorem Inv.progress (h : Inv s ups downs) :
    (s.qemu.waiting = none ∧ downs = []) ∨
      ∃ moves t ups' downs', (∀ a ∈ moves, a.Internal) ∧ run step s moves = some t ∧
        WorksOff s t ups ups' downs downs' := by
  cases h.phase with
  | idle hwait hups hdev hdowns hret =>
    by_cases hne : downs = []
    · exact Or.inl ⟨hwait, hne⟩
    · obtain ⟨t, ht⟩ := onRead_ready h hwait hne
      obtain ⟨downs', hwork⟩ := (h.deliverDown s.down.flight.length).onRead ht
      exact Or.inr ⟨[.deliverDown s.down.flight.length, .onRead], t, ups, downs',
        by simp [Move.Internal], run_two rfl ht,
        ⟨hwork.inv, hwork.devSent, hwork.calls, hwork.weight⟩⟩
  | sent call hwait hcall us m hsplit hups hread hreq hdev hdowns hret =>
    obtain ⟨t, ht⟩ := devRecv_ready h hdev (by simp [hsplit])
    obtain ⟨ups', downs', hwork⟩ := (h.deliverUp s.up.flight.length).devRecv ht
    exact Or.inr ⟨[.deliverUp s.up.flight.length, .devRecv], t, ups', downs',
      by simp [Move.Internal], run_two rfl ht,
      ⟨hwork.inv, hwork.devSent, hwork.calls, hwork.weight⟩⟩
  | handling call hwait hcall hups hdev hreq hdowns hret =>
    have ht : step s (.devReadDone []) = some (s.answer s.device.loop (barReply [])) := if_pos hdev
    refine Or.inr ⟨[.devReadDone []], _, ups, _, by simp [Move.Internal], ?_,
      h.devReadDone hdev []⟩
    rw [run_cons, ht]
    rfl
  | answered call hwait hcall hups hdev before after r hsplit hbefore hafter prev hans hret =>
    obtain ⟨t, ht⟩ := recvReply_ready h hwait (by simp [hsplit])
    obtain ⟨downs', hwork⟩ := (h.deliverDown s.down.flight.length).recvReply ht
    exact Or.inr ⟨[.deliverDown s.down.flight.length, .recvReply], t, ups, downs',
      by simp [Move.Internal], run_two rfl ht,
      ⟨hwork.inv, hwork.devSent, hwork.calls, hwork.weight⟩⟩

end Progress

/-- Working off frame after frame ends with QEMU free and nothing on its way to it. -/
theorem Inv.settle (n : ℕ) : ∀ (s : System κ) (ups : List WireMsg) (downs : List Frame),
    Inv s ups downs → weight s ups downs ≤ n →
    ∃ moves t, (∀ a ∈ moves, a.Internal) ∧ run step s moves = some t ∧
      t.qemu.waiting = none ∧ t.devSent = s.devSent ∧ t.calls = s.calls ∧
      ∃ ups', Inv t ups' [] := by
  induction n with
  | zero =>
    intro s ups downs h hn
    rcases h.progress with ⟨hwait, rfl⟩ | ⟨_, t, ups', downs', _, _, hwork⟩
    · exact ⟨[], s, by simp, rfl, hwait, rfl, rfl, ups, h⟩
    · have := hwork.weight
      omega
  | succ n ih =>
    intro s ups downs h hn
    rcases h.progress with ⟨hwait, rfl⟩ | ⟨moves, t, ups', downs', hint, hrun, hwork⟩
    · exact ⟨[], s, by simp, rfl, hwait, rfl, rfl, ups, h⟩
    · have hlt := hwork.weight
      obtain ⟨moves', u, hint', hrun', hwait, hsent, hcalls, hinv⟩ :=
        ih t ups' downs' hwork.inv (by omega)
      refine ⟨moves ++ moves', u, fun a ha => ?_, run_append_eq_some.mpr ⟨t, hrun, hrun'⟩, hwait,
        hsent.trans hwork.devSent, hcalls.trans hwork.calls, hinv⟩
      exact (List.mem_append.mp ha).elim (hint a) (hint' a)

/-! ### Replies are never confused with messages -/

/-- What each read call returned is what the device computed for the same request, call by call. -/
def RepliesMatch (s : System κ) : Prop :=
  s.returned = (s.answered.take s.returned.length).map returnOf

theorem Inv.repliesMatch {s : System κ} {ups : List WireMsg} {downs : List Frame}
    (h : Inv s ups downs) : RepliesMatch s := by
  have hall : s.returned = s.answered.map returnOf → RepliesMatch s := by
    intro hret
    have hlen : s.returned.length = s.answered.length := by rw [hret, List.length_map]
    rw [RepliesMatch, hlen, List.take_length, hret]
  cases h.phase with
  | idle _ _ _ _ hret => exact hall hret
  | sent _ _ _ _ _ _ _ _ _ _ _ hret => exact hall hret
  | handling _ _ _ _ _ _ _ hret => exact hall hret
  | answered call _ _ _ _ _ _ r _ _ _ prev hans hret =>
    have hlen : s.returned.length = prev.length := by rw [hret, List.length_map]
    rw [RepliesMatch, hlen, hans, List.take_left' rfl, hret]

/-- **Replies are never confused with device messages.**  In every state of every run: no receive
has failed; the read calls that returned got, one for one and in order, what the device computed for
the same request; what was handed to `process_msg` is a prefix of what the device sent; and the
moves already under way can finish every call and hand over every message. -/
theorem replies_matched (dev : PcieDev κ) (qemuMsg devMsg : Mem) (moves : List Move) (s : System κ)
    (hrun : run step (System.init dev qemuMsg devMsg) moves = some s) :
    s.qemu.failed = false ∧ s.device.failed = false ∧ RepliesMatch s ∧ s.processed <+: s.devSent ∧
      ∃ more t, (∀ a ∈ more, a.Internal) ∧ run step s more = some t ∧
        t.qemu.waiting = none ∧ t.returned.length = s.calls ∧ RepliesMatch t ∧
        t.processed = s.devSent := by
  obtain ⟨ups, downs, h⟩ := run_inv hrun
  obtain ⟨more, t, hint, hmore, hwait, hsent, hcalls, ups', ht⟩ :=
    Inv.settle (weight s ups downs) s ups downs h le_rfl
  refine ⟨h.qemuAlive, h.deviceAlive, h.repliesMatch, ⟨messages downs, h.sent.symm⟩, more, t, hint,
    hmore, hwait, ?_, ht.repliesMatch, ?_⟩
  · rw [← hcalls, System.calls, hwait]
    rfl
  · have hnone := ht.sent
    rw [messages, List.append_nil] at hnone
    rw [← hnone, hsent]

/-- The guest reads the vendor id of the C DMA device while the device writes three bytes to the
host. -/
def vendorIdMoves : List Move :=
  [.readConfig 0 .two, .devSend ⟨opWriteMem, 0, 0, 0x1000, [1, 2, 3], by decide⟩, .deliverUp 15,
    .devRecv, .deliverDown 29, .recvReply, .recvReply]

theorem replies_matched_vendorId :
    ∃ s, run step (System.init dmaDev (fun _ => 0) fun _ => 0) vendorIdMoves = some s ∧
      s.returned = [(⟨opReadConfig, 0, 2, 0⟩, some [0x2a, 0x2a])] ∧ RepliesMatch s ∧
      s.processed <+: s.devSent := by
  have hsome : (run step (System.init dmaDev (fun _ => 0) fun _ => 0) vendorIdMoves).isSome := by
    decide
  have hret : (run step (System.init dmaDev (fun _ => 0) fun _ => 0) vendorIdMoves).map
      System.returned = some [(⟨opReadConfig, 0, 2, 0⟩, some [0x2a, 0x2a])] := by
    decide
  obtain ⟨s, hrun⟩ := Option.isSome_iff_exists.mp hsome
  rw [hrun, Option.map_some, Option.some.injEq] at hret
  have h := replies_matched dmaDev (fun _ => 0) (fun _ => 0) vendorIdMoves s hrun
  exact ⟨s, hrun, hret, h.2.2.1, h.2.2.2.1⟩

end VPcie.Qemu
