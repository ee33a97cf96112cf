import VPcie.Device.MainDma
import VPcie.Glue.Abstract
import VPcie.Net.Send

/-!
# What a device does when a send fails

The two programs that send: the io thread of the glue, and the DMA device in C.  `pcie_net_loop`
looks at the result when it sends a reply and stops, but `thread_entry` calls it again on the same
socket.  `on_event` and `finalize_transfer` do not look at it.

Both are the programs of `Glue.Threads` and `Device.MainDma` with the sending end of the connection,
whose `send` may do anything that POSIX allows.

* `run_causes` — the glue sends any frames, one after the other, whatever the calls return;
* `DmaInv` — the DMA device ends when a reply is cut;
* `synchronized_iff` — when the stream stays in step;
* `drain_goes_on` — a run of the glue in which it does not.
-/

namespace VPcie.Glue

open VPcie.Lib VPcie.Net VPcie.Device

/-! ### The glue -/

/-- The glue and its end of the connection. -/
structure SendingGlue where
  glue : GlueState
  conn : Conn

/-- `must_stop = 1`. -/
def setMustStop {ν δ : Type} : IoPc ν δ → IoPc ν δ
  | .events ev _ => .events ev true
  | io => io

/-- What is done with the event of a step: `on_event` drops the result of `pcie_net_send_msg`,
`pcie_net_loop` stops if that of `pcie_net_send_reply` is -1. -/
def SendingGlue.perform (c : Conn) (t : GlueState) : Option Event → SendingGlue
  | some (.send m) => ⟨t, (pcieNetSendMsg c m).1⟩
  | some (.sendReply r) =>
    let out := pcieNetSendReply c r
    ⟨if out.2 = -1 then { t with io := setMustStop t.io } else t, out.1⟩
  | _ => ⟨t, c⟩

def SendingGlue.step (s : SendingGlue) (a : Move) : Option SendingGlue :=
  (act s.glue a).map fun out => SendingGlue.perform s.conn out.1 out.2

/-- The frame a step gives to `send`. -/
def frameOf : Option Event → Option (List Byte)
  | some (.send m) => some m.encode
  | some (.sendReply r) => some r.encode
  | _ => none

def SendingGlue.frame (s : SendingGlue) (a : Move) : Option (List Byte) :=
  frameOf (event s.glue a)

/-- The glue when the io thread has committed its status; `ret` is what `send` will do. -/
def SendingGlue.init (dev : PcieDev (Fin barCount)) (buf : Mem) (bytes : List Byte)
    (ret : ℕ → (size : ℕ) → Option (Fin (size + 1))) : SendingGlue :=
  ⟨GlueState.init dev buf bytes, ⟨ret, []⟩⟩

theorem perform_conn (c : Conn) (t : GlueState) (e : Option Event) :
    (SendingGlue.perform c t e).conn = c.sendFrame (frameOf e) := by
  unfold SendingGlue.perform frameOf
  split
  · exact pcieNetSendBuf_fst c _
  · exact pcieNetSendBuf_fst c _
  · rfl

theorem glue_conn (s : SendingGlue) (a : Move) (t : SendingGlue) (h : s.step a = some t) :
    t.conn = s.conn.sendFrame (s.frame a) := by
  obtain ⟨out, hact, rfl⟩ := Option.map_eq_some_iff.mp h
  rw [perform_conn, SendingGlue.frame, event, hact]
  rfl

theorem glue_frame_ne_nil (s : SendingGlue) (a : Move) : ∀ f ∈ s.frame a, f ≠ [] := by
  intro f hf
  unfold SendingGlue.frame frameOf at hf
  split at hf
  · rw [← Option.some.inj hf]
    exact Content.encode_ne_nil _
  · rw [← Option.some.inj hf]
    exact PcieNetReply.encode_ne_nil _
  · exact nomatch hf

/-! ### Which frames the glue can send -/

/-- The sizes of its frames: a reply, or a message with as many bytes as a `uint16_t` counts. -/
def GlueFrame (n : ℕ) : Prop := n = replySize ∨ dataOffset ≤ n ∧ n < dataOffset + 2 ^ 16

theorem glueFrame_pos (n : ℕ) (hn : GlueFrame n) : 0 < n := by
  rcases hn with rfl | ⟨hn, _⟩
  · decide
  · exact lt_of_lt_of_le (by decide) hn

theorem SendCall.msg_data_lt (call : SendCall) (junk : Junk) :
    (call.msg junk).data.length < 2 ^ 16 := by
  cases call with
  | msi =>
    show (List.replicate 8 _).length < _
    rw [List.length_replicate]
    decide
  | writeBuf addr buf dataSize =>
    show (List.map _ (List.range _)).length < _
    rw [List.length_map, List.length_range]
    exact BitVec.isLt _
  | write addr data dataSize size =>
    show (logicToBuf _ _ _).length < _
    rw [logicToBuf, List.length_map, List.length_range]
    exact BitVec.isLt _

/-- The messages in the heap are those of the send routines. -/
def SmallMsgs (h : Heap Ptr Node) : Prop :=
  ∀ p m, (h p).map Cell.val = some (.msg m) → m.data.length < 2 ^ 16

theorem SmallMsgs.update {h : Heap Ptr Node} (hs : SmallMsgs h) (p : Ptr)
    {c : Option (Cell Ptr Node)}
    (hc : ∀ m, c.map Cell.val = some (.msg m) → m.data.length < 2 ^ 16) :
    SmallMsgs (Function.update h p c) := by
  intro p' m hm
  by_cases hp : p' = p
  · subst hp
    rw [Function.update_self] at hm
    exact hc m hm
  · rw [Function.update_of_ne hp] at hm
    exact hs p' m hm

theorem smallMsgs_kept : HeapKept SmallMsgs where
  free _ p hs := hs.update p (by simp)
  access _ p next a hs := hs.update p (by simp)
  msg _ p call junk hs := by
    refine hs.update p ?_
    intro m hm
    obtain rfl : call.msg junk = m := by simpa using hm
    exact call.msg_data_lt junk
  push _ q n hs := by
    intro p m hm
    rw [push_val] at hm
    exact hs p m hm

/-- A message that is sent is in the heap. -/
theorem io_send_allocated {s t : GlueState} {node : Ptr} {garbage : Mem} {batch : ℕ} {m : Content}
    (hst : ioStep s node garbage batch = some (t, some (.send m))) :
    ∃ p, (s.heap p).map Cell.val = some (.msg m) := by
  cases hio : s.io with
  | drain head ks stop =>
    simp only [ioStep, hio, drainStep] at hst
    split at hst
    · cases hst
    · split at hst
      · rename_i node' _ next m' hnode
        cases hst
        refine ⟨node', ?_⟩
        rw [hnode]
        rfl
      · cases hst
  | recv ev =>
    simp only [ioStep, hio] at hst
    obtain ⟨out, hrecv, heq⟩ := Option.map_eq_some_iff.mp hst
    obtain ⟨up, loop, io, e⟩ := out
    cases heq
    rcases receive_cases hrecv with ⟨he, _⟩ | ⟨op, he, _⟩ <;> cases he
  | spin node size ev =>
    simp only [ioStep, hio, spinStep] at hst
    split at hst
    · split_ifs at hst
      cases hst
    · cases hst
  | keys ks stop =>
    simp only [ioStep, hio, keyStep] at hst
    split at hst <;> cases hst
  | check => simp [ioStep, hio] at hst
  | select =>
    simp only [ioStep, hio] at hst
    split_ifs at hst <;> cases hst
  | access isRead bar ev =>
    simp only [ioStep, hio, accessStep] at hst
    split_ifs at hst <;> cases hst
  | reply r ev => simp [ioStep, hio] at hst
  | events ev stop =>
    simp only [ioStep, hio] at hst
    split_ifs at hst <;> cases hst
  | exited => simp [ioStep, hio] at hst

theorem send_allocated {s : GlueState} {a : Move} {m : Content} (he : event s a = some (.send m)) :
    ∃ p, (s.heap p).map Cell.val = some (.msg m) := by
  obtain ⟨out, hst, hout⟩ := Option.bind_eq_some_iff.mp he
  obtain ⟨t, e⟩ := out
  obtain rfl : e = some (.send m) := hout
  cases a with
  | io node garbage batch => exact io_send_allocated hst
  | deliver k => cases hst
  | push call junk node =>
    simp only [act, pushStep] at hst
    split at hst
    · split_ifs at hst
      cases hst
    · cases hst
  | poll =>
    simp only [act, pollStep] at hst
    split at hst
    · split at hst <;> cases hst
    · cases hst
  | sendReply data =>
    simp only [act, sendReplyStep] at hst
    split at hst
    · split at hst
      · cases hst
      · split at hst <;> cases hst
    · cases hst
  | join =>
    simp only [act, joinStep] at hst
    split at hst <;> cases hst
  | ghdl =>
    simp only [act, ghdlStep] at hst
    split at hst
    · cases hst
    · cases hst
    · simp only [poppedStep] at hst
      split at hst
      · split_ifs at hst <;> cases hst
      · cases hst
    · simp only [repliedStep] at hst
      split at hst <;> cases hst
    · cases hst
    · cases hst

theorem glue_frame_size {s : SendingGlue} (hs : SmallMsgs s.glue.heap) {a : Move} :
    ∀ f ∈ s.frame a, GlueFrame f.length := by
  intro f hf
  unfold SendingGlue.frame frameOf at hf
  split at hf
  · rename_i m he
    obtain ⟨p, hp⟩ := send_allocated he
    have hlt := hs p m hp
    rw [← Option.some.inj hf, m.encode_length]
    exact Or.inr ⟨Nat.le_add_right _ _, Nat.add_lt_add_left hlt _⟩
  · rw [← Option.some.inj hf]
    exact Or.inl (PcieNetReply.encode_length _)
  · exact nomatch hf

/-! ### The glue goes on, whatever `send` returns -/

/-- The io thread is about to call `select`, and nothing is queued. -/
def GlueState.ready (dev : PcieDev (Fin barCount)) (buf : Mem) (bytes : List Byte) : GlueState :=
  { GlueState.init dev buf bytes with io := .select }

/-- An input port read, which `on_msg_recv` answers at once. -/
def ioRead : WireMsg := ⟨opReadIo, 0, 4, 0, [], nil_page⟩

/-- What makes the glue send a frame: a read of the peer, or a call of the VHDL side. -/
inductive Cause where
  | read
  | call (k : SendCall)

/-- What the peer sends for it. -/
def Cause.bytes : Cause → List Byte
  | read => ioRead.encode
  | call _ => []

/-- The frame. -/
def Cause.frame : Cause → List Byte
  | read => allOnesReply.encode
  | call k => (k.msg ⟨0, 0⟩).encode

section GoesOn

variable (dev : PcieDev (Fin barCount)) (buf : Mem) (rest : List Byte) (c : Conn)

/-- A message goes from the call to `send`, and leaves the glue as it was. -/
theorem run_call (call : SendCall) :
    run SendingGlue.step ⟨.ready dev buf rest, c⟩
        [.push call ⟨0, 0⟩ 0, .ghdl, ioMove, ioMove, ioMove, ioMove, ioMove, ioMove]
      = some ⟨.ready dev buf rest, (c.send (call.msg ⟨0, 0⟩).encode).1⟩ := by
  have hheap : Function.update (Function.update (fun _ => none : Heap Ptr Node) 0
      (some ⟨none, .msg (call.msg ⟨0, 0⟩)⟩)) 0 none = fun _ => none := by
    funext p
    by_cases hp : p = 0
    · rw [hp, Function.update_self]
    · rw [Function.update_of_ne hp, Function.update_of_ne hp]
  have hrun : run SendingGlue.step ⟨.ready dev buf rest, c⟩
        [.push call ⟨0, 0⟩ 0, .ghdl, ioMove, ioMove, ioMove, ioMove, ioMove, ioMove]
      = some ⟨{ GlueState.ready dev buf rest with
          heap := Function.update (Function.update (fun _ => none : Heap Ptr Node) 0
            (some ⟨none, .msg (call.msg ⟨0, 0⟩)⟩)) 0 none },
        (pcieNetSendMsg c (call.msg ⟨0, 0⟩)).1⟩ := rfl
  rw [hrun, hheap, pcieNetSendMsg, pcieNetSendBuf_fst]
  rfl

theorem onMsgRecv_ioRead {m : Mem} (hm : Holds m ioRead) :
    onMsgRecv dev (PcieNetMsg.ofBuf m) = .reply dev allOnesReply := by
  have hop : (PcieNetMsg.ofBuf m).op = opReadIo := (ofBuf_encode hm).1
  rw [onMsgRecv, hop, if_neg (by decide), if_neg (by decide), if_neg (by decide),
    if_neg (by decide), if_pos rfl]

/-- A read is received and answered.  If the reply is cut, `pcie_net_loop` returns, and is called
again. -/
theorem run_read : ∃ moves buf', run SendingGlue.step
    ⟨.ready dev buf (ioRead.encode ++ rest), c⟩ moves
      = some ⟨.ready dev buf' rest, (c.send allOnesReply.encode).1⟩ := by
  obtain ⟨n, buf', hrecv, hholds⟩ := pcieNetRecvMsg_encode ioRead [] .open buf
  rw [List.append_nil] at hrecv
  have hreceived : receive ⟨ioRead.encode, rest⟩ ⟨dev, buf⟩ false
      = some (⟨[], rest⟩, ⟨dev, buf'⟩, (.reply allOnesReply false : IoPc Ptr (Option Ptr)),
        some (.recv (PcieNetMsg.ofBuf buf').op)) := by
    simp only [receive, Stream.rx, hrecv, onMsgRecv_ioRead dev hholds]
    rfl
  have hbefore : run SendingGlue.step ⟨.ready dev buf (ioRead.encode ++ rest), c⟩
      [.deliver 15, ioMove, ioMove] = some ⟨{ GlueState.ready dev buf' rest with
        io := .reply allOnesReply false }, c⟩ := by
    refine run_cons_eq_some.mpr ⟨⟨{ GlueState.ready dev buf rest with
      up := ⟨ioRead.encode, rest⟩ }, c⟩, rfl, ?_⟩
    refine run_cons_eq_some.mpr ⟨⟨{ GlueState.ready dev buf rest with
      up := ⟨ioRead.encode, rest⟩, io := .recv false }, c⟩, rfl, ?_⟩
    refine run_cons_eq_some.mpr ⟨_, ?_, rfl⟩
    show ((receive ⟨ioRead.encode, rest⟩ ⟨dev, buf⟩ false).map _).map _ = _
    rw [hreceived]
    rfl
  by_cases hcut : (pcieNetSendReply c allOnesReply).2 = -1
  · refine ⟨[.deliver 15, ioMove, ioMove] ++ [ioMove, ioMove, ioMove], buf', ?_⟩
    rw [run_append, hbefore, Option.bind_some]
    refine run_cons_eq_some.mpr ⟨⟨{ GlueState.ready dev buf' rest with
      io := .events false true }, (c.send allOnesReply.encode).1⟩, ?_, rfl⟩
    show some (SendingGlue.mk (if _ then _ else _) _) = _
    rw [if_pos hcut, pcieNetSendReply, pcieNetSendBuf_fst]
    rfl
  · refine ⟨[.deliver 15, ioMove, ioMove] ++ [ioMove, ioMove], buf', ?_⟩
    rw [run_append, hbefore, Option.bind_some]
    refine run_cons_eq_some.mpr ⟨⟨{ GlueState.ready dev buf' rest with
      io := .events false false }, (c.send allOnesReply.encode).1⟩, ?_, rfl⟩
    show some (SendingGlue.mk (if _ then _ else _) _) = _
    rw [if_neg hcut, pcieNetSendReply, pcieNetSendBuf_fst]

theorem run_cause (k : Cause) : ∃ moves buf', run SendingGlue.step
    ⟨.ready dev buf (k.bytes ++ rest), c⟩ moves
      = some ⟨.ready dev buf' rest, (c.send k.frame).1⟩ := by
  cases k with
  | read => exact run_read dev buf rest c
  | call k => exact ⟨_, buf, run_call dev buf rest c k⟩

/-- **Frames are sent one after the other**, whatever the calls of `send` return. -/
theorem run_causes (ks : List Cause) : ∃ moves buf', run SendingGlue.step
    ⟨.ready dev buf (ks.flatMap Cause.bytes), c⟩ moves
      = some ⟨.ready dev buf' [], c.sendAll (ks.map Cause.frame)⟩ := by
  induction ks generalizing buf c with
  | nil => exact ⟨[], buf, rfl⟩
  | cons k ks ih =>
    obtain ⟨moves, buf', hrun⟩ := run_cause dev buf (ks.flatMap Cause.bytes) c k
    obtain ⟨moves', buf'', hrun'⟩ := ih buf' (c.send k.frame).1
    refine ⟨moves ++ moves', buf'', ?_⟩
    rw [List.flatMap_cons, run_append, hrun, Option.bind_some, hrun']
    rfl

end GoesOn

/-- A vector with the value `n`. -/
theorem exists_vector (n : ℕ) (hn : n < 2 ^ 16) : ∃ v : Mem, (logicToUint 16 v).toNat = n := by
  refine ⟨fun j => (uintToLogic (BitVec.ofNat 16 n)).getD j 0, ?_⟩
  rw [logicToUint_uintToLogic, BitVec.toNat_ofNat, Nat.mod_eq_of_lt hn]

/-- A frame of every size has a cause. -/
theorem exists_cause {n : ℕ} (hn : GlueFrame n) : ∃ k : Cause, k.frame.length = n := by
  rcases hn with rfl | ⟨hle, hlt⟩
  · exact ⟨.read, PcieNetReply.encode_length _⟩
  · obtain ⟨v, hv⟩ := exists_vector (n - dataOffset) (by omega)
    refine ⟨.call (.writeBuf (fun _ => 0) (fun _ => 0) v), ?_⟩
    rw [Cause.frame, Content.encode_length]
    show dataOffset + (List.map _ (List.range _)).length = n
    rw [List.length_map, List.length_range, hv]
    omega

theorem exists_causes {sizes : List ℕ} (hsizes : ∀ n ∈ sizes, GlueFrame n) :
    ∃ ks : List Cause, (ks.map Cause.frame).map List.length = sizes := by
  induction sizes with
  | nil => exact ⟨[], rfl⟩
  | cons n sizes ih =>
    obtain ⟨hn, hrest⟩ := List.forall_mem_cons.mp hsizes
    obtain ⟨k, hk⟩ := exists_cause hn
    obtain ⟨ks, hks⟩ := ih hrest
    refine ⟨k :: ks, ?_⟩
    rw [List.map_cons, List.map_cons, hk, hks]

theorem perform_heap (c : Conn) (t : GlueState) (e : Option Event) :
    (SendingGlue.perform c t e).glue.heap = t.heap := by
  unfold SendingGlue.perform
  split
  · rfl
  · dsimp only
    split_ifs <;> rfl
  · rfl

/-- What every run of the glue keeps on a socket that fails for good. -/
structure GlueInv (ret : ℕ → (size : ℕ) → Option (Fin (size + 1))) (s : SendingGlue) : Prop where
  small : SmallMsgs s.glue.heap
  recorded : s.conn.Recorded GlueFrame ret
  synchronized : s.conn.Synchronized

theorem glueInv_init (dev : PcieDev (Fin barCount)) (buf : Mem) (bytes : List Byte)
    (ret : ℕ → (size : ℕ) → Option (Fin (size + 1))) :
    GlueInv ret (SendingGlue.init dev buf bytes ret) where
  small _ _ hm := nomatch hm
  recorded := recorded_nil GlueFrame ret
  synchronized := synchronized_nil ret

/-- **Step lemma.** -/
theorem GlueInv.step {ret : ℕ → (size : ℕ) → Option (Fin (size + 1))} {s t : SendingGlue}
    {a : Move} (h : GlueInv ret s) (hret : FailStop GlueFrame ret) (hstep : s.step a = some t) :
    GlueInv ret t := by
  have hframe := glue_frame_size h.small (a := a)
  have hconn := glue_conn s a t hstep
  refine ⟨?_, ?_, ?_⟩
  · obtain ⟨out, hact, rfl⟩ := Option.map_eq_some_iff.mp hstep
    rw [perform_heap]
    exact smallMsgs_kept.act hact h.small
  · rw [hconn]
    exact h.recorded.sendFrame hframe
  · rw [hconn, synchronized_sendFrame s.conn (glue_frame_ne_nil s a)]
    exact ⟨h.synchronized, hret.silent h.recorded hframe⟩

/-- **The glue keeps its stream in step exactly on a socket that does it alone**: one that takes
nothing once a send has been cut. -/
theorem glue_synchronized_iff (ret : ℕ → (size : ℕ) → Option (Fin (size + 1)))
    (dev : PcieDev (Fin barCount)) (buf : Mem) :
    (∀ bytes moves (t : SendingGlue),
      run SendingGlue.step (SendingGlue.init dev buf bytes ret) moves = some t →
      t.conn.Synchronized) ↔ FailStop GlueFrame ret := by
  constructor
  · intro hsync
    refine failStop_of_sends glueFrame_pos ?_
    intro sizes hsizes
    obtain ⟨ks, hks⟩ := exists_causes hsizes
    obtain ⟨moves, buf', hrun⟩ := run_causes dev buf ⟨ret, []⟩ ks
    have hstart : run SendingGlue.step (SendingGlue.init dev buf (ks.flatMap Cause.bytes) ret)
        (ioMove :: moves)
          = some ⟨.ready dev buf' [], Conn.sendAll ⟨ret, []⟩ (ks.map Cause.frame)⟩ :=
      run_cons_eq_some.mpr ⟨_, rfl, hrun⟩
    exact ⟨ks.map Cause.frame, hks, hsync _ _ _ hstart⟩
  · intro hret bytes moves t hrun
    exact (run_invariant (GlueInv ret) (fun _ _ _ h hstep => h.step hret hstep)
      (glueInv_init dev buf bytes ret) hrun).synchronized

/-! ### The DMA device -/

/-- The DMA device, its end of the connection, what is left to do of the turn of `pcie_net_loop`,
and whether `pcie_loop` has not returned. -/
structure SendingDma where
  dma : Dma
  conn : Conn
  todo : List Effect
  running : Bool

/-- A turn of the loop, or the next thing it does. -/
inductive DmaMove where
  | turn (e : Device.Event)
  | next

/-- The next thing of a turn: `finalize_transfer` drops the results of `pcie_net_send_msg` and
`pcie_send_msi`, `pcie_net_loop` stops if that of `pcie_net_send_reply` is -1, and `main` then
ends. -/
def SendingDma.perform (s : SendingDma) : Effect → SendingDma
  | .send m => { s with conn := (pcieNetSendMsg s.conn m).1 }
  | .reply r =>
    let out := pcieNetSendReply s.conn r
    { s with conn := out.1, running := if out.2 = -1 then false else s.running }
  | .status _ => s

def SendingDma.step (s : SendingDma) : DmaMove → Option SendingDma
  | .turn e =>
    if s.running ∧ s.todo = [] then
      (s.dma.turn e).map fun out => { s with dma := out.1, todo := out.2 }
    else none
  | .next =>
    match s.todo with
    | [] => none
    | e :: todo => some (SendingDma.perform { s with todo := todo } e)

/-- The frame of an effect. -/
def Effect.frame : Effect → Option (List Byte)
  | .send m => some m.encode
  | .reply r => some r.encode
  | .status _ => none

/-- The frame a step gives to `send`. -/
def SendingDma.frame (s : SendingDma) : DmaMove → Option (List Byte)
  | .turn _ => none
  | .next => s.todo.head?.bind Effect.frame

/-- The device when `main` calls `pcie_loop`. -/
def SendingDma.init (dev : PcieDev Unit) (mem : Mem)
    (ret : ℕ → (size : ℕ) → Option (Fin (size + 1))) : SendingDma :=
  ⟨mainDma dev mem, ⟨ret, []⟩, [], true⟩

theorem dma_perform_conn (s : SendingDma) (e : Effect) :
    (s.perform e).conn = s.conn.sendFrame (Effect.frame e) := by
  cases e with
  | send m => exact pcieNetSendBuf_fst s.conn _
  | reply r => exact pcieNetSendBuf_fst s.conn _
  | status v => rfl

theorem dma_conn (s : SendingDma) (a : DmaMove) (t : SendingDma) (h : s.step a = some t) :
    t.conn = s.conn.sendFrame (s.frame a) := by
  cases a with
  | turn e =>
    simp only [SendingDma.step] at h
    split_ifs at h
    obtain ⟨out, _, rfl⟩ := Option.map_eq_some_iff.mp h
    rfl
  | next =>
    simp only [SendingDma.step] at h
    split at h
    · exact nomatch h
    · next e todo htodo =>
      rw [← Option.some.inj h, SendingDma.frame, htodo]
      exact dma_perform_conn { s with todo := todo } e

theorem effect_frame_ne_nil (e : Effect) : ∀ f ∈ Effect.frame e, f ≠ [] := by
  intro f hf
  cases e with
  | send m => exact Option.some.inj hf ▸ Content.encode_ne_nil m
  | reply r => exact Option.some.inj hf ▸ PcieNetReply.encode_ne_nil r
  | status v => exact nomatch hf

theorem dma_frame_ne_nil (s : SendingDma) (a : DmaMove) : ∀ f ∈ s.frame a, f ≠ [] := by
  intro f hf
  cases a with
  | turn e => exact nomatch hf
  | next =>
    obtain ⟨e, _, he⟩ := Option.bind_eq_some_iff.mp hf
    exact effect_frame_ne_nil e f he

/-! ### When the DMA device ends -/

/-- What holds of the device: a reply is the last thing of its turn, and if a reply was cut, and no
message, then the loop has ended with nothing left to do. -/
structure DmaInv (s : SendingDma) : Prop where
  last : ∀ r, Effect.reply r ∈ s.todo → s.todo = [.reply r]
  noticed : s.conn.Cut → ¬ s.conn.CutMessage → s.running = false
  ended : s.running = false → s.todo = []

theorem onWrite_no_reply (d : Dma) (addr : BitVec 64) (data : List Byte) (r : PcieNetReply) :
    Effect.reply r ∉ (onWrite d addr data).2 := by
  dsimp only [onWrite]
  split_ifs <;> simp

theorem finalizeTransfer_no_reply (d : Dma) (fresh : Fresh) (r : PcieNetReply) :
    Effect.reply r ∉ (finalizeTransfer d fresh).2 := by
  unfold finalizeTransfer
  split
  · exact List.not_mem_nil
  · simp

/-- A reply is all that a turn does. -/
theorem turn_last {d : Dma} {e : Device.Event} {out : Dma × List Effect} (h : d.turn e = some out)
    (r : PcieNetReply) (hr : Effect.reply r ∈ out.2) : out.2 = [.reply r] := by
  cases e with
  | recv m =>
    obtain rfl := Option.some.inj h
    unfold Dma.recv at hr ⊢
    split at hr
    · exact absurd hr List.not_mem_nil
    · rw [List.mem_singleton.mp hr]
    · rw [List.mem_singleton.mp hr]
    · exact absurd hr (onWrite_no_reply _ _ _ r)
  | timeout fresh =>
    simp only [Dma.turn] at h
    split_ifs at h
    obtain rfl := Option.some.inj h
    exact absurd hr (finalizeTransfer_no_reply _ _ r)

theorem dmaInv_init (dev : PcieDev Unit) (mem : Mem)
    (ret : ℕ → (size : ℕ) → Option (Fin (size + 1))) : DmaInv (SendingDma.init dev mem ret) where
  last _ hr := absurd hr List.not_mem_nil
  noticed hcut _ := by
    obtain ⟨x, hx, -⟩ := hcut
    exact absurd hx List.not_mem_nil
  ended hrunning := absurd hrunning (by simp [SendingDma.init])

section DmaInv

variable {s t : SendingDma}

/-- While something is left to do, the loop has not ended, so a failure was that of a message. -/
theorem DmaInv.cutMessage (h : DmaInv s) (hne : s.todo ≠ []) (hcut : s.conn.Cut) :
    s.conn.CutMessage := by
  by_contra hmsg
  exact hne (h.ended (h.noticed hcut hmsg))

/-- **Step lemma.** -/
theorem DmaInv.step (h : DmaInv s) {a : DmaMove} (hstep : s.step a = some t) : DmaInv t := by
  cases a with
  | turn e =>
    simp only [SendingDma.step] at hstep
    split_ifs at hstep with hidle
    obtain ⟨out, hturn, rfl⟩ := Option.map_eq_some_iff.mp hstep
    refine ⟨turn_last hturn, h.noticed, ?_⟩
    intro hended
    exact absurd (hidle.1.symm.trans hended) (by simp)
  | next =>
    simp only [SendingDma.step] at hstep
    split at hstep
    · exact nomatch hstep
    · next e todo htodo =>
      obtain rfl := Option.some.inj hstep
      have hne : s.todo ≠ [] := by simp [htodo]
      have hrunning : s.running = true := by
        by_contra hended
        exact hne (h.ended (Bool.eq_false_of_not_eq_true hended))
      have hrest : ∀ r, Effect.reply r ∉ todo := by
        intro r hr
        have hlast := h.last r (htodo ▸ List.mem_cons_of_mem e hr)
        rw [htodo, List.cons_eq_cons] at hlast
        rw [hlast.2] at hr
        exact absurd hr List.not_mem_nil
      have hlast : ∀ r, Effect.reply r ∈ todo → todo = [.reply r] :=
        fun r hr => absurd hr (hrest r)
      cases e with
      | send m =>
        refine ⟨hlast, ?_, fun hended => absurd (hrunning.symm.trans hended) (by simp)⟩
        intro hcut hmsg
        have hsize : dataOffset ≤ m.encode.length := m.encode_length ▸ Nat.le_add_right _ _
        rw [dma_perform_conn] at hcut hmsg
        rcases cutMessage_send hsize hcut with hbefore | hlater
        · exact absurd ((h.cutMessage hne hbefore).send _) hmsg
        · exact absurd hlater hmsg
      | reply r =>
        have hnil : todo = [] := by
          have hlast := h.last r (htodo ▸ List.mem_cons_self)
          rw [htodo, List.cons_eq_cons] at hlast
          exact hlast.2
        refine ⟨hlast, ?_, fun _ => hnil⟩
        intro hcut hmsg
        rw [dma_perform_conn] at hcut hmsg
        rcases cut_send hcut with hbefore | hshort
        · exact absurd ((h.cutMessage hne hbefore).send _) hmsg
        · have hret : (pcieNetSendReply s.conn r).2 = -1 :=
            (pcieNetSendBuf_snd s.conn r.encode).mpr hshort
          show (if _ then _ else _) = false
          rw [if_pos hret]
      | status v =>
        exact ⟨hlast, h.noticed, fun hended => absurd (hrunning.symm.trans hended) (by simp)⟩

/-- A send that follows the failure of a reply is not made. -/
theorem DmaInv.silent_iff (h : DmaInv s) (a : DmaMove) :
    s.conn.SilentOnceCut (s.frame a) ↔ s.conn.SilentOnceMessageCut (s.frame a) := by
  constructor
  · intro hsilent f hf hmsg
    exact hsilent f hf hmsg.cut
  · intro hsilent f hf hcut
    refine hsilent f hf (h.cutMessage ?_ hcut)
    intro hnil
    cases a with
    | turn e => exact nomatch hf
    | next =>
      rw [SendingDma.frame, hnil] at hf
      exact nomatch hf

end DmaInv

/-- **In which runs the stream of the DMA device stays in step**: those in which every send behind a
page or an MSI that was cut writes nothing.  Replies may be cut, since the loop then ends. -/
theorem dma_synchronized_iff (ret : ℕ → (size : ℕ) → Option (Fin (size + 1))) (dev : PcieDev Unit)
    (mem : Mem) {moves : List DmaMove} {t : SendingDma}
    (hrun : run SendingDma.step (SendingDma.init dev mem ret) moves = some t) :
    t.conn.Synchronized ↔ EachStep SendingDma.step
      (fun s a => s.conn.SilentOnceMessageCut (s.frame a)) (SendingDma.init dev mem ret) moves := by
  rw [run_synchronized_iff dma_frame_ne_nil dma_conn (synchronized_nil ret) hrun]
  exact eachStep_congr DmaInv (fun _ _ _ h hstep => h.step hstep) (fun _ a h => h.silent_iff a)
    (dmaInv_init dev mem ret)

/-! ### Every run -/

/-- **When the stream stays in step.**  In the glue nothing is left to the program: all its runs are
in step exactly if the socket takes nothing once a send has been cut.  A run of the DMA device is
exactly if every send behind a page or an MSI that was cut writes nothing. -/
theorem synchronized_iff (ret : ℕ → (size : ℕ) → Option (Fin (size + 1))) :
    (∀ dev buf, (∀ bytes moves (t : SendingGlue),
      run SendingGlue.step (SendingGlue.init dev buf bytes ret) moves = some t →
      t.conn.Synchronized) ↔ FailStop GlueFrame ret) ∧
    (∀ dev mem moves (t : SendingDma),
      run SendingDma.step (SendingDma.init dev mem ret) moves = some t →
      (t.conn.Synchronized ↔ EachStep SendingDma.step
        (fun s a => s.conn.SilentOnceMessageCut (s.frame a)) (SendingDma.init dev mem ret)
        moves)) := by
  refine ⟨glue_synchronized_iff ret, ?_⟩
  intro dev mem moves t hrun
  exact dma_synchronized_iff ret dev mem hrun

/-- Two messages pushed, and one wakeup processed: both messages are sent. -/
def twoMessages : List Move :=
  [.push .msi ⟨0, 0⟩ 0, .ghdl, .push .msi ⟨0, 0⟩ 1, .ghdl, ioMove, ioMove, ioMove, ioMove, ioMove,
    ioMove]

/-- Every send takes all bytes. -/
def allTaken (_ size : ℕ) : Option (Fin (size + 1)) := some (Fin.last size)

theorem failStop_allTaken (P : ℕ → Prop) : FailStop P allTaken :=
  fun _ _ _ _ _ _ _ hcut => absurd rfl hcut

/-- The first send takes one byte, all others fail. -/
def breaks (k size : ℕ) : Option (Fin (size + 1)) :=
  if k = 0 then some (Fin.ofNat (size + 1) 1) else none

theorem failStop_breaks (P : ℕ → Prop) : FailStop P breaks := by
  intro i j a b hij _ _ _
  rw [breaks, if_neg (by omega)]
  rfl

/-- A read the DMA device is given, and answers. -/
def dmaRead : List DmaMove := [.turn (.recv ⟨opReadIo, 0, 4, 0, 0, fun _ => 0⟩), .next]

/-- A device with nothing set up. -/
def blankDev : PcieDev Unit := ⟨fun _ => 0, fun _ => none, fun _ => none, fun _ => 0⟩

/-- Over a socket that takes everything, and over one that fails behind a short send. -/
theorem synchronized_iff_sockets :
    (∃ t : SendingGlue, run SendingGlue.step
        (SendingGlue.init plainDev (fun _ => 0) [] allTaken) twoMessages = some t ∧
      t.conn.log.map Sent.ret = [some 23, some 23] ∧ t.conn.Synchronized) ∧
    (∃ t : SendingGlue, run SendingGlue.step
        (SendingGlue.init plainDev (fun _ => 0) [] breaks) twoMessages = some t ∧
      t.conn.log.map Sent.ret = [some 1, none] ∧ t.conn.Synchronized) ∧
    (∃ t : SendingDma, run SendingDma.step (SendingDma.init blankDev (fun _ => 0) breaks) dmaRead
        = some t ∧
      (t.conn.Synchronized ↔ EachStep SendingDma.step
        (fun s a => s.conn.SilentOnceMessageCut (s.frame a))
        (SendingDma.init blankDev (fun _ => 0) breaks) dmaRead)) := by
  refine ⟨⟨_, rfl, rfl, ?_⟩, ⟨_, rfl, rfl, ?_⟩, ⟨_, rfl, ?_⟩⟩
  · exact ((synchronized_iff allTaken).1 plainDev fun _ => 0).mpr (failStop_allTaken GlueFrame) []
      twoMessages _ rfl
  · exact ((synchronized_iff breaks).1 plainDev fun _ => 0).mpr (failStop_breaks GlueFrame) []
      twoMessages _ rfl
  · exact (synchronized_iff breaks).2 blankDev (fun _ => 0) dmaRead _ rfl

/-- The first send takes one byte, all others take all. -/
def firstShort (k size : ℕ) : Option (Fin (size + 1)) :=
  if k = 0 then some (Fin.ofNat (size + 1) 1) else some (Fin.last size)

/-- **`on_event` goes on after a short send**: the second message is written behind one byte of the
first. -/
theorem drain_goes_on : ∃ t : SendingGlue,
    run SendingGlue.step (SendingGlue.init plainDev (fun _ => 0) [] firstShort) twoMessages
        = some t ∧
      ¬ t.conn.Synchronized := by
  refine ⟨_, rfl, ?_⟩
  rintro ⟨-, hquiet⟩
  exact absurd (hquiet [] _ _ rfl (by decide)) (by decide)

end VPcie.Glue
