import VPcie.Glue.Reads
import VPcie.Qemu.Pciefw

/-!
# From the guest to the VHDL side

The accesses of a guest, on their way through the frames of `pciefw_send_read_mem` and
`pciefw_send_write_mem`, the callbacks of the device, the nodes of `rx_fifo` and the logic vectors
of a poll.  At any time an access is in exactly one of these places, and the places are in order.

* `decode_result` — the vectors of a poll say which access it returns;
* `Delivery` — the accesses are those polled, then those queued, then the one the io thread holds,
  then those in the stream.
-/

namespace VPcie.Glue

open VPcie.Lib VPcie.Net VPcie.Device VPcie.Qemu

/-! ### The accesses of the guest -/

/-- An access of the guest to the memory behind a BAR. -/
inductive GuestAccess where
  | read (bar : Fin barCount) (addr : BitVec 64) (width : AccessWidth)
  | write (bar : Fin barCount) (addr : BitVec 64) (width : AccessWidth) (data : BitVec 64)

/-- The frame it is sent in, whatever the message buffer of the guest held before. -/
def GuestAccess.send (b : Mem) : GuestAccess → Mem × List Byte
  | read bar addr width => pciefwSendReadMem b (BitVec.ofNat 8 bar) addr width.bytes
  | write bar addr width data => pciefwSendWriteMem b (BitVec.ofNat 8 bar) addr width.bytes data

/-- What the VHDL side should be given: of the data of a write the low `8 * w` bits. -/
def GuestAccess.view : GuestAccess → AccessView
  | read bar addr width => ⟨true, BitVec.ofNat 8 bar, addr, BitVec.ofNat 16 width.bytes, none⟩
  | write bar addr width data =>
    ⟨false, BitVec.ofNat 8 bar, addr, BitVec.ofNat 16 width.bytes,
      some ((data.setWidth (8 * width.bytes)).setWidth 64)⟩

theorem AccessWidth.bytes_le (w : AccessWidth) : w.bytes ≤ 8 := by
  cases w <;> decide

/-- The message in the frame. -/
def GuestAccess.msg : GuestAccess → WireMsg
  | read bar addr width => requestMsg opReadMem (BitVec.ofNat 8 bar) addr width.bytes [] nil_page
  | write bar addr width data =>
    requestMsg opWriteMem (BitVec.ofNat 8 bar) addr width.bytes (leBytes width.bytes data.toNat)
      (leBytes_page width.bytes data (AccessWidth.bytes_le width))

theorem GuestAccess.send_bytes (a : GuestAccess) (b : Mem) : (a.send b).2 = a.msg.encode := by
  cases a with
  | read bar addr width => exact pciefwSendReadMem_bytes b _ addr width.bytes
  | write bar addr width data =>
    exact pciefwSendWriteMem_bytes b _ addr width.bytes data (AccessWidth.bytes_le width)

/-- What the guest sends for a list of accesses. -/
theorem flatMap_send (accs : List (Mem × GuestAccess)) : (accs.flatMap fun p => (p.2.send p.1).2)
    = (accs.map Prod.snd).flatMap fun a => a.msg.encode := by
  rw [List.flatMap_map]
  simp only [GuestAccess.send_bytes]

theorem GuestAccess.view_size (a : GuestAccess) : a.view.size ≠ 0 := by
  cases a with
  | read bar addr width => cases width <;> simp [view, AccessWidth.bytes]
  | write bar addr width data => cases width <;> simp [view, AccessWidth.bytes]

/-- The bytes of the data, zero-extended. -/
theorem ofNat_leNat_leBytes_low (k : ℕ) (data : BitVec 64) :
    BitVec.ofNat 64 (leNat (leBytes k data.toNat)) = (data.setWidth (8 * k)).setWidth 64 := by
  have hpow : 256 ^ k = 2 ^ (8 * k) := by
    show (2 ^ 8) ^ k = 2 ^ (8 * k)
    rw [pow_mul]
  apply BitVec.eq_of_toNat_eq
  rw [BitVec.toNat_ofNat, leNat_leBytes, BitVec.toNat_setWidth, BitVec.toNat_setWidth, hpow]

/-! ### The results of the polls -/

/-- A vector as the array its reader is given. -/
def vectorMem (v : List Byte) : Mem := fun j => v.getD j 0

/-- What the result of a poll says: nothing when the size is zero, else the access. -/
def PollResult.decode (r : PollResult) : Option AccessView :=
  if logicToUint 16 (vectorMem r.size) = 0 then none
  else
    r.addr.map fun addr =>
      { isRead := decide (logicToUint 8 (vectorMem r.isRead) ≠ 0)
        bar := logicToUint 8 (vectorMem r.bar)
        addr := logicToUint 64 (vectorMem addr)
        size := logicToUint 16 (vectorMem r.size)
        data := r.data.map fun data => logicToUint 64 (vectorMem data) }

/-- The accesses the polls returned. -/
def polled (log : List Event) : List AccessView :=
  log.filterMap fun
    | .poll r => r.decode
    | .pollDrop r => r.decode
    | _ => none

theorem logicToUint_vector {w : ℕ} (x : BitVec w) :
    logicToUint w (vectorMem (uintToLogic x)) = x := logicToUint_uintToLogic x

/-- The flag `is_read` as an integer, read back. -/
theorem isRead_of_uint (isRead : Bool) :
    decide ((if isRead then 1 else 0 : BitVec 8) ≠ 0) = isRead := by
  cases isRead <;> decide

/-- The data of a write, or none, read back. -/
theorem map_logicToUint (data : Option (BitVec 64)) :
    (data.map uintToLogic).map (fun v => logicToUint 64 (vectorMem v)) = data := by
  cases data with
  | none => rfl
  | some d => rw [Option.map_some, Option.map_some, logicToUint_vector]

/-- **The vectors of a poll give the access back.** -/
theorem decode_result {a : AccessView} (hsize : a.size ≠ 0) : a.result.decode = some a := by
  simp only [PollResult.decode, AccessView.result, logicToUint_vector, map_logicToUint,
    isRead_of_uint, Option.map_some]
  rw [if_neg hsize]

theorem decode_empty (addr : Option (List Byte)) : (emptyResult addr).decode = none := by
  rw [PollResult.decode, if_pos]
  show logicToUint 16 (vectorMem (uintToLogic (0 : BitVec 16))) = 0
  exact logicToUint_vector _

theorem polled_append (l l' : List Event) : polled (l ++ l') = polled l ++ polled l' :=
  List.filterMap_append

theorem polled_empty (addr : Option (List Byte)) : polled [.poll (emptyResult addr)] = [] := by
  simp only [polled, List.filterMap_cons, List.filterMap_nil, decode_empty]

theorem polled_result {a : AccessView} (hsize : a.size ≠ 0) : polled [.poll a.result] = [a] := by
  simp only [polled, List.filterMap_cons, List.filterMap_nil, decode_result hsize]

/-! ### What is received -/

/-- The access the io thread has received and not yet queued. -/
def Spec.held (x : Spec) : List AccessView :=
  match x.io with
  | .access isRead bar _ => [Spec.accessView isRead bar (PcieNetMsg.ofBuf x.loop.msg)]
  | _ => []

/-- Every BAR has the handlers of the glue. -/
def HasHandlers (dev : PcieDev (Fin barCount)) : Prop :=
  ∀ i, dev.barReadfn i = some i ∧ dev.barWritefn i = some i

theorem glueDev_hasHandlers (mem : PcieDev (Fin barCount)) (vendorId deviceId : BitVec 16)
    (size : Fin barCount → BitVec 64) : HasHandlers (glueDev mem vendorId deviceId size) :=
  deviceInit_handlers mem vendorId deviceId size some some

/-- The io thread receives a message into its buffer. -/
theorem receive_of_ok {ν δ : Type} {up : Stream} {loop : NetLoop (Fin barCount)} {n : ℕ} {buf : Mem}
    {rest : Rx} (h : pcieNetRecvMsg up.rx loop.msg = .ok n buf rest) (ev isRead : Bool)
    (bar : Fin barCount) (hdisp : onMsgRecv loop.dev (PcieNetMsg.ofBuf buf)
      = if isRead then .barRead bar else .barWrite bar) :
    (receive up loop ev : Option (_ × _ × IoPc ν δ × _))
      = some (up.consume rest, ⟨loop.dev, buf⟩, .access isRead bar ev,
          some (.recv (PcieNetMsg.ofBuf buf).op)) := by
  simp only [receive, h, hdisp]
  cases isRead <;> rfl

/-- The fields of a request of the guest, as the device reads them. -/
theorem ofBuf_request {buf : Mem} {op : Byte} {bar : Fin barCount} {addr : BitVec 64}
    {width : AccessWidth} {data : List Byte} {hle : data.length ≤ 0x1000}
    (hb : Holds buf (requestMsg op (BitVec.ofNat 8 bar) addr width.bytes data hle)) :
    (PcieNetMsg.ofBuf buf).op = op ∧ (PcieNetMsg.ofBuf buf).bar.toNat = bar.val ∧
      (PcieNetMsg.ofBuf buf).width.toNat = width.bytes ∧ (PcieNetMsg.ofBuf buf).addr = addr := by
  obtain ⟨hop, hbar, hwidth, haddr, _⟩ := ofBuf_encode hb
  have hlt : bar.val < 6 := bar.isLt
  have hw := AccessWidth.bytes_le width
  refine ⟨hop, ?_, ?_, haddr⟩
  · rw [hbar]
    show (BitVec.ofNat 8 bar.val).toNat = bar.val
    rw [BitVec.toNat_ofNat]
    omega
  · rw [hwidth]
    show (BitVec.ofNat 8 width.bytes).toNat = width.bytes
    rw [BitVec.toNat_ofNat]
    omega

/-- A handler is called with what the guest sent. -/
theorem onMsgRecv_access {dev : PcieDev (Fin barCount)} (hdev : HasHandlers dev) {buf : Mem}
    (a : GuestAccess) (hb : Holds buf a.msg) :
    ∃ isRead bar, onMsgRecv dev (PcieNetMsg.ofBuf buf)
        = (if isRead then .barRead bar else .barWrite bar) ∧
      (PcieNetMsg.ofBuf buf).width.toNat ≤ 8 ∧
      Spec.accessView isRead bar (PcieNetMsg.ofBuf buf) = a.view := by
  cases a with
  | read bar addr width =>
    obtain ⟨hop, hbar, hw, haddr⟩ := ofBuf_request hb
    refine ⟨true, bar, ?_, hw ▸ AccessWidth.bytes_le width, ?_⟩
    · simp only [onMsgRecv, hop, hbar]
      rw [if_neg (by decide), if_neg (by decide), if_true, dif_pos bar.isLt]
      simp only [Fin.eta, (hdev bar).1]
      rfl
    · simp only [Spec.accessView, GuestAccess.view, hw, haddr]
      rfl
  | write bar addr width data =>
    obtain ⟨hop, hbar, hw, haddr⟩ := ofBuf_request hb
    have hdata : load (PcieNetMsg.ofBuf buf).data 0 width.bytes
        = leBytes width.bytes data.toNat := by
      rw [hb.load_data width.bytes (le_of_eq (leBytes_length _ _).symm)]
      exact List.take_of_length_le (le_of_eq (leBytes_length _ _))
    refine ⟨false, bar, ?_, hw ▸ AccessWidth.bytes_le width, ?_⟩
    · simp only [onMsgRecv, hop, hbar]
      rw [if_neg (by decide), if_neg (by decide), if_neg (by decide), if_true, dif_pos bar.isLt]
      simp only [Fin.eta, (hdev bar).2]
      rfl
    · simp only [Spec.accessView, GuestAccess.view, hw, haddr, hdata, ofNat_leNat_leBytes_low]
      rfl

/-! ### Where the accesses are -/

/-- The access an event shows being queued. -/
def enqueued : Option Event → List AccessView
  | some (.enqueue a) => [a]
  | _ => []

/-- The accesses of the guest, seen from a trace and the state it led to: those polled, those
queued, the one the io thread holds, and those whose frames are in the stream. -/
structure Delivery (accs : List GuestAccess) (log : List Event) (x : Spec)
    (rest : List GuestAccess) : Prop where
  handlers : HasHandlers x.loop.dev
  bytes : x.up.bytes = rest.flatMap fun a => a.msg.encode
  width : x.held ≠ [] → (PcieNetMsg.ofBuf x.loop.msg).width.toNat ≤ 8
  order : accs.map GuestAccess.view
    = polled log ++ (x.queue ++ (x.held ++ rest.map GuestAccess.view))

/-- What is queued is added to the queue, and what is polled leaves it. -/
theorem AccessStep.queue_eq {x y : Spec} {e : Option Event} (h : AccessStep x y e)
    (hsize : ∀ a ∈ x.queue, a.size ≠ 0) :
    x.queue ++ enqueued e = polled e.toList ++ y.queue := by
  cases h with
  | frame hqueue hread hsize he =>
    have hpolled : enqueued e = [] ∧ polled e.toList = [] := by
      cases e with
      | none => exact ⟨rfl, rfl⟩
      | some e =>
        have hsilent := he e rfl
        cases e with
        | enqueue a => exact hsilent.elim
        | poll r =>
          obtain rfl : r = emptyResult none := hsilent
          exact ⟨rfl, polled_empty none⟩
        | pollDrop r => exact hsilent.elim
        | _ => exact ⟨rfl, rfl⟩
    rw [hpolled.1, hpolled.2, List.append_nil, hqueue]
    rfl
  | write a ha hqueue hread hsize he =>
    rw [he, hqueue]
    rfl
  | read a ha hqueue hread hx hsize he =>
    rw [he, hqueue]
    rfl
  | poll a hqueue hread hsize' he =>
    rw [he, hqueue, Option.toList_some, polled_result (hsize a (hqueue ▸ List.mem_cons_self))]
    exact List.append_nil _
  | answer d hqueue hx hread hsize he =>
    rw [he, hqueue]
    exact List.append_nil _
  | spurious d hqueue hx hread hsize he =>
    rw [he, hqueue]
    exact List.append_nil _
  | replied d hqueue hx hread hsize he =>
    rw [he, hqueue]
    exact List.append_nil _
  | barReturn size d hqueue hx hread hsize he =>
    rw [he, hqueue]
    exact List.append_nil _

theorem IoPc.Quiet.held_eq {x : Spec} (h : x.io.Quiet) : x.held = [] := by
  unfold Spec.held
  cases hio : x.io with
  | access isRead bar ev =>
    rw [hio] at h
    exact h.elim
  | _ => rfl

/-- A move of the abstract glue, as far as the stream and the io thread's access go. -/
inductive HeldStep (x y : Spec) (e : Option Event) : Prop where
  | frame (hbytes : y.up.bytes = x.up.bytes) (hloop : y.loop = x.loop) (hheld : y.held = x.held)
      (he : enqueued e = [])
  | enqueue (a : AccessView) (hbytes : y.up.bytes = x.up.bytes) (hloop : y.loop = x.loop)
      (hx : x.held = [a]) (hy : y.held = []) (he : enqueued e = [a])
  | recv (ev : Bool) (hx : x.held = []) (he : enqueued e = [])
      (hrecv : receive x.up x.loop ev = some (y.up, y.loop, y.io, e))

theorem SpecStep.held {x y : Spec} {e : Option Event} (h : SpecStep x y e) : HeldStep x y e := by
  cases h with
  | deliver k => exact .frame (Stream.bytes_deliver _ _) rfl rfl rfl
  | control io hio hio' hev hexit =>
    refine .frame rfl rfl ?_ rfl
    rw [hio.held_eq]
    exact IoPc.Quiet.held_eq hio'
  | recv ev up loop io e hio hrecv =>
    refine .recv ev (by simp only [Spec.held, hio]) ?_ hrecv
    rcases receive_cases hrecv with ⟨rfl, _⟩ | ⟨op, rfl, _⟩
    · rfl
    · rfl
  | write bar ev hio hwidth =>
    exact .enqueue _ rfl rfl (by simp only [Spec.held, hio]) rfl rfl
  | read bar ev hio hwidth =>
    exact .enqueue _ rfl rfl (by simp only [Spec.held, hio]) rfl rfl
  | keysEnd stop hio =>
    refine .frame rfl rfl ?_ rfl
    rw [IoPc.Quiet.held_eq (loopEnd_quiet stop)]
    simp only [Spec.held, hio]
  | barReturn size ev data hio hread => exact .frame rfl rfl (by simp only [Spec.held, hio]) rfl
  | reply r ev hio => exact .frame rfl rfl (by simp only [Spec.held, hio]) rfl
  | batch k stop hio => exact .frame rfl rfl (by simp only [Spec.held, hio]) rfl
  | quit ks stop hio => exact .frame rfl rfl (by simp only [Spec.held, hio]) rfl
  | detach ks stop hio => exact .frame rfl rfl (by simp only [Spec.held, hio]) rfl
  | drainEnd ks stop hio => exact .frame rfl rfl (by simp only [Spec.held, hio]) rfl
  | send m ms ks stop hio => exact .frame rfl rfl (by simp only [Spec.held, hio]) rfl
  | push m hghdl => exact .frame rfl rfl rfl rfl
  | wake hghdl => exact .frame rfl rfl rfl rfl
  | pollEmpty hghdl hrx => exact .frame rfl rfl rfl rfl
  | pop a rx hghdl hrx => exact .frame rfl rfl rfl rfl
  | popped a hghdl => exact .frame rfl rfl rfl rfl
  | answer data hghdl hread => exact .frame rfl rfl rfl rfl
  | spurious data hghdl hread => exact .frame rfl rfl rfl rfl
  | replied data hghdl hread => exact .frame rfl rfl rfl rfl
  | join hghdl => exact .frame rfl rfl rfl rfl
  | joinKey hghdl => exact .frame rfl rfl rfl rfl

section Delivery

variable {accs : List GuestAccess} {log : List Event} {x y : Spec} {rest : List GuestAccess}
  {e : Option Event}

/-- An access that is queued was sent with its width. -/
theorem Delivery.size_ne_zero (h : Delivery accs log x rest) {a : AccessView} (ha : a ∈ x.queue) :
    a.size ≠ 0 := by
  have hmem : a ∈ accs.map GuestAccess.view := by
    rw [h.order]
    exact List.mem_append_right _ (List.mem_append_left _ ha)
  obtain ⟨g, _, rfl⟩ := List.mem_map.mp hmem
  exact g.view_size

/-- With nothing left in the stream the io thread receives nothing. -/
theorem receive_nil {up : Stream} {loop : NetLoop (Fin barCount)} (h : up.bytes = []) (ev : Bool) :
    (receive up loop ev : Option (_ × _ × IoPc Unit (List Content) × _)) = none := by
  rw [receive, pcieNetRecvMsg_nil h]

/-- What a receive leaves when the stream starts with the frame of an access. -/
theorem receive_access {up : Stream} {loop : NetLoop (Fin barCount)} (hdev : HasHandlers loop.dev)
    (a : GuestAccess) {cs : List Byte} (hbytes : up.bytes = a.msg.encode ++ cs) (ev : Bool)
    {up' : Stream} {loop' : NetLoop (Fin barCount)} {io : IoPc Unit (List Content)}
    (h : receive up loop ev = some (up', loop', io, e)) :
    up'.bytes = cs ∧ loop'.dev = loop.dev ∧ (PcieNetMsg.ofBuf loop'.msg).width.toNat ≤ 8 ∧
      ∃ isRead bar, io = .access isRead bar ev ∧
        Spec.accessView isRead bar (PcieNetMsg.ofBuf loop'.msg) = a.view := by
  rcases pcieNetRecvMsg_stream hbytes loop.msg with hwait | ⟨n, buf, r, hrecv, hrest, hb⟩
  · rw [receive, hwait] at h
    exact absurd h (by simp)
  · obtain ⟨isRead, bar, hdisp, hwidth, hview⟩ := onMsgRecv_access hdev a hb
    rw [receive_of_ok hrecv ev isRead bar hdisp] at h
    cases h
    exact ⟨hrest, rfl, hwidth, isRead, bar, rfl, hview⟩

/-- **Step lemma.**  Every move keeps the accesses in order. -/
theorem SpecStep.delivery (h : SpecStep x y e) (hi : Delivery accs log x rest) :
    ∃ rest', Delivery accs (log ++ e.toList) y rest' := by
  have hqueue := h.access.queue_eq fun a ha => hi.size_ne_zero ha
  have horder := hi.order
  cases h.held with
  | frame hbytes hloop hheld he =>
    refine ⟨rest, hloop ▸ hi.handlers, hbytes.trans hi.bytes, ?_, ?_⟩
    · rw [hheld, hloop]
      exact hi.width
    · rw [he, List.append_nil] at hqueue
      rw [polled_append, hheld, horder, hqueue]
      simp only [List.append_assoc]
  | enqueue a hbytes hloop hx hy he =>
    refine ⟨rest, hloop ▸ hi.handlers, hbytes.trans hi.bytes, fun hne => absurd hy hne, ?_⟩
    rw [polled_append, hy, horder, hx, ← he, ← List.append_assoc x.queue, hqueue]
    simp only [List.append_assoc, List.nil_append]
  | recv ev hx he hrecv =>
    rw [he, List.append_nil] at hqueue
    cases rest with
    | nil =>
      rw [receive_nil hi.bytes] at hrecv
      exact absurd hrecv (by simp)
    | cons a rest =>
      have hbytes := hi.bytes
      rw [List.flatMap_cons] at hbytes
      obtain ⟨hrest, hdev, hwidth, isRead, bar, hio, hview⟩ :=
        receive_access hi.handlers a hbytes ev hrecv
      have hheld : y.held = [a.view] := by
        rw [Spec.held, hio, ← hview]
      refine ⟨rest, hdev ▸ hi.handlers, hrest, fun _ => hwidth, ?_⟩
      rw [polled_append, hheld, horder, hx, hqueue]
      simp only [List.append_assoc, List.nil_append, List.map_cons, List.singleton_append]

end Delivery

theorem delivery_init {dev : PcieDev (Fin barCount)} (hdev : HasHandlers dev) (buf : Mem)
    (accs : List GuestAccess) :
    Delivery accs [] (Spec.init dev buf (accs.flatMap fun a => a.msg.encode)) accs :=
  ⟨hdev, rfl, fun hne => absurd rfl hne, rfl⟩

end VPcie.Glue
