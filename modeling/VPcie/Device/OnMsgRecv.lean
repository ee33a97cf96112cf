import VPcie.Device.ConfigSpace
import VPcie.Net.Socket

/-!
# Dispatching a received message

`on_msg_recv` (`pcie.c`) answers configuration requests itself and hands memory requests to the
handler of the BAR.  What a handler does is the business of the device, so the dispatch stops at the
call: `Dispatch.barRead` and `Dispatch.barWrite` name the handler, and `barReply` is the reply once
a read handler has returned.

* `onMsgRecv_mustReply` — exactly the read operations are answered;
* `serve_encode` — a whole request frame is received and dispatched.
-/

namespace VPcie.Device

open VPcie.Lib VPcie.Net

/-- What `on_msg_recv` does with a message: finish, finish with a reply, or call a BAR handler. -/
inductive Dispatch (κ : Type) where
  | done (dev : PcieDev κ)
  | reply (dev : PcieDev κ) (r : PcieNetReply)
  | barRead (fn : κ)
  | barWrite (fn : κ)

variable {κ : Type}

/-- The reply `on_msg_recv` prepares where nothing can be read. -/
def allOnesReply : PcieNetReply := ⟨0, BitVec.allOnes 64⟩

/-- The reply after a read handler copied `bs` to `reply->data`, which was zeroed before. -/
def barReply (bs : List Byte) : PcieNetReply := ⟨0, BitVec.ofNat 64 (leNat (bs.take 8))⟩

/-- `on_msg_recv`. -/
def onMsgRecv (dev : PcieDev κ) (msg : PcieNetMsg) : Dispatch κ :=
  if msg.op = opReadConfig then .reply dev (onReadConfig dev msg)
  else if msg.op = opWriteConfig then .done (onWriteConfig dev msg)
  else if msg.op = opReadMem then
    if h : msg.bar.toNat < barCount then
      match dev.barReadfn ⟨msg.bar.toNat, h⟩ with
      | none => .reply dev allOnesReply
      | some fn => .barRead fn
    else .reply dev allOnesReply
  else if msg.op = opWriteMem then
    if h : msg.bar.toNat < barCount then
      match dev.barWritefn ⟨msg.bar.toNat, h⟩ with
      | none => .done dev
      | some fn => .barWrite fn
    else .done dev
  else if msg.op = opReadIo then .reply dev allOnesReply
  else .done dev

/-- The requests `on_msg_recv` answers. -/
def IsRead (op : Byte) : Prop := op = opReadConfig ∨ op = opReadMem ∨ op = opReadIo

instance (op : Byte) : Decidable (IsRead op) := inferInstanceAs (Decidable (_ ∨ _ ∨ _))

/-- `must_reply`, for a handler that returns. -/
def Dispatch.mustReply : Dispatch κ → Bool
  | .done _ => false
  | .reply _ _ => true
  | .barRead _ => true
  | .barWrite _ => false

/-- **Exactly the reads are answered**, at once or through a handler. -/
theorem onMsgRecv_mustReply (dev : PcieDev κ) (msg : PcieNetMsg) :
    (onMsgRecv dev msg).mustReply = decide (IsRead msg.op) := by
  unfold onMsgRecv
  by_cases h0 : msg.op = opReadConfig
  · rw [if_pos h0, h0]
    rfl
  rw [if_neg h0]
  by_cases h1 : msg.op = opWriteConfig
  · rw [if_pos h1, h1]
    rfl
  rw [if_neg h1]
  by_cases h2 : msg.op = opReadMem
  · rw [if_pos h2, h2]
    split
    · split <;> rfl
    · rfl
  rw [if_neg h2]
  by_cases h3 : msg.op = opWriteMem
  · rw [if_pos h3, h3]
    split
    · split <;> rfl
    · rfl
  rw [if_neg h3]
  by_cases h4 : msg.op = opReadIo
  · rw [if_pos h4, h4]
    rfl
  · rw [if_neg h4]
    have hread : ¬IsRead msg.op := by
      rintro (h | h | h)
      · exact h0 h
      · exact h2 h
      · exact h4 h
    exact (decide_eq_false hread).symm

/-- The locals of `pcie_net_loop` that outlive a message: the device, and the buffer messages are
received into. -/
structure NetLoop (κ : Type) where
  dev : PcieDev κ
  msg : Mem

/-- One message of `pcie_net_loop`, with a device that answers from its configuration space: the
bytes sent back, or `none` where the call blocks, fails or enters a handler. -/
def serve (l : NetLoop κ) (bytes : List Byte) : Option (NetLoop κ × List Byte) :=
  match pcieNetRecvMsg ⟨bytes, .open⟩ l.msg with
  | .ok _ buf _ =>
    match onMsgRecv l.dev (PcieNetMsg.ofBuf buf) with
    | .done dev => some (⟨dev, buf⟩, [])
    | .reply dev r => some (⟨dev, buf⟩, r.encode)
    | .barRead _ => none
    | .barWrite _ => none
  | .wait => none
  | .error _ => none

/-- A whole request frame is received, and the buffer then holds it. -/
theorem serve_encode (l : NetLoop κ) (m : WireMsg) :
    ∃ buf, Holds buf m ∧ serve l m.encode =
      match onMsgRecv l.dev (PcieNetMsg.ofBuf buf) with
      | .done dev => some (⟨dev, buf⟩, [])
      | .reply dev r => some (⟨dev, buf⟩, r.encode)
      | .barRead _ => none
      | .barWrite _ => none := by
  obtain ⟨n, buf, hrecv, hholds⟩ := pcieNetRecvMsg_encode m [] .open l.msg
  rw [List.append_nil] at hrecv
  refine ⟨buf, hholds, ?_⟩
  rw [serve, hrecv]

theorem serve_writeConfig (l : NetLoop κ) (m : WireMsg) (hop : m.op = opWriteConfig) :
    ∃ buf, Holds buf m ∧
      serve l m.encode = some (⟨onWriteConfig l.dev (PcieNetMsg.ofBuf buf), buf⟩, []) := by
  obtain ⟨buf, hholds, hserve⟩ := serve_encode l m
  have hdisp : onMsgRecv l.dev (PcieNetMsg.ofBuf buf)
      = .done (onWriteConfig l.dev (PcieNetMsg.ofBuf buf)) := by
    rw [onMsgRecv, (ofBuf_encode hholds).1, hop, if_neg (by decide), if_pos rfl]
  refine ⟨buf, hholds, ?_⟩
  rw [hserve, hdisp]

theorem serve_readConfig (l : NetLoop κ) (m : WireMsg) (hop : m.op = opReadConfig) :
    ∃ buf, Holds buf m ∧ serve l m.encode
      = some (⟨l.dev, buf⟩, (onReadConfig l.dev (PcieNetMsg.ofBuf buf)).encode) := by
  obtain ⟨buf, hholds, hserve⟩ := serve_encode l m
  have hdisp : onMsgRecv l.dev (PcieNetMsg.ofBuf buf)
      = .reply l.dev (onReadConfig l.dev (PcieNetMsg.ofBuf buf)) := by
    rw [onMsgRecv, (ofBuf_encode hholds).1, hop, if_pos rfl]
  refine ⟨buf, hholds, ?_⟩
  rw [hserve, hdisp]

end VPcie.Device
