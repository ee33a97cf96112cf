import VPcie.Device.OnMsgRecv
import VPcie.Glue.Logic
import VPcie.Lib.LinkedQueue
import VPcie.Lib.Runs

/-!
# The two threads of the glue

The io thread (`thread_entry`, running `pcie_net_loop`) and the GHDL thread (which calls the
`pcie_glue_` routines) share two queues, a pipe of event keys, one slot for the read being replied,
and a heap of nodes.  Each step below is what a thread does up to the next point where the other one
can act: a critical section, a pipe operation, or an access to shared memory.

The bytes of the connection are given to the initial state and arrive by `deliver` moves, so a run
covers every peer and every timing.  What a step shows is an `Event`; `trace` collects them.

* `act` — one step of either thread, with the event it shows.
-/

namespace VPcie.Glue

open VPcie.Lib VPcie.Net VPcie.Device

/-- Addresses of nodes. -/
abbrev Ptr := ℕ

/-- `u.bar_access` of a node. -/
structure BarAccess where
  isReplied : Bool
  isRead : Bool
  bar : Fin barCount
  addr : BitVec 64
  size : ℕ
  data : Mem

/-- What a node carries. -/
inductive Node where
  | access (a : BarAccess)
  | msg (m : Content)

/-- The keys written to the pipe: `evk_quit` and `evk_push`. -/
inductive Key where
  | quit
  | push
deriving DecidableEq, Repr

/-- Where the io thread is.  `ev` remembers whether the event descriptor was set in the last
`select`, `stop` is `must_stop`; `ν` is how the node a read waits on is given, `δ` how what is left
of the list `on_event` took. -/
inductive IoPc (ν δ : Type) where
  | check
  | select
  | recv (ev : Bool)
  | access (isRead : Bool) (bar : Fin barCount) (ev : Bool)
  | spin (node : ν) (size : ℕ) (ev : Bool)
  | reply (r : PcieNetReply) (ev : Bool)
  | events (ev stop : Bool)
  | keys (ks : List Key) (stop : Bool)
  | drain (rest : δ) (ks : List Key) (stop : Bool)
  | exited

/-- Where the GHDL thread is inside a call. -/
inductive GhdlPc (π ρ : Type) where
  | idle
  | pushed
  | popped (node : π)
  | replied (node : ρ)
  | joining
  | joined

/-- The shared context, the receiving end of the connection, and the program counters. -/
structure GlueState where
  heap : Heap Ptr Node
  txFifo : Queue Ptr
  rxFifo : Queue Ptr
  pipe : List Key
  replyNode : Option Ptr
  running : Bool
  loop : NetLoop (Fin barCount)
  up : Stream
  io : IoPc Ptr (Option Ptr)
  ghdl : GhdlPc Ptr Ptr

/-- The vectors `pcie_glue_poll_rx_fifo` writes; `none` for one it leaves alone. -/
structure PollResult where
  isRead : List Byte
  bar : List Byte
  addr : Option (List Byte)
  data : Option (List Byte)
  size : List Byte
deriving DecidableEq, Repr

/-- An access as integers; the data only of a write. -/
structure AccessView where
  isRead : Bool
  bar : Byte
  addr : BitVec 64
  size : BitVec 16
  data : Option (BitVec 64)
deriving DecidableEq, Repr

/-- What a step shows. -/
inductive Event where
  /-- a node pushed on `tx_fifo` -/
  | push (m : Content)
  /-- `on_event` took the list of `tx_fifo` -/
  | detach
  /-- `pcie_net_send_msg` -/
  | send (m : Content)
  /-- `on_event` was run on `evk_quit` -/
  | quit
  /-- a message with this operation was received -/
  | recv (op : Byte)
  /-- `pcie_net_send_reply` -/
  | sendReply (r : PcieNetReply)
  /-- a node pushed on `rx_fifo` -/
  | enqueue (a : AccessView)
  /-- the result of a poll -/
  | poll (r : PollResult)
  /-- the result of a poll that freed a read node because `reply_node` was set -/
  | pollDrop (r : PollResult)
  /-- `pcie_glue_send_reply` -/
  | reply (data : BitVec 64)
  /-- what `on_bar_read` copied to its caller -/
  | barReturn (bs : List Byte)
deriving DecidableEq, Repr

/-- A scheduling choice.  `node` is the address `malloc` returns if the step allocates, `garbage`
and `junk` what the block holds, `batch` how many keys a `read` of the pipe returns. -/
inductive Move where
  | deliver (k : ℕ)
  | io (node : Ptr) (garbage : Mem) (batch : ℕ)
  | push (call : SendCall) (junk : Junk) (node : Ptr)
  | poll
  | sendReply (data : Mem)
  | join
  | ghdl

/-! ### The io thread -/

/-- What both sides see of an access. -/
def BarAccess.view (a : BarAccess) : AccessView where
  isRead := a.isRead
  bar := BitVec.ofNat 8 a.bar
  addr := a.addr
  size := BitVec.ofNat 16 a.size
  data := if a.isRead then none else some (BitVec.ofNat 64 (leNat (load a.data 0 a.size)))

/-- `fifo_alloc_access_node` with the arguments `on_bar_read` and `on_bar_write` give it.  A read
passes the reply buffer, which was zeroed. -/
def accessNode (isRead : Bool) (bar : Fin barCount) (msg : PcieNetMsg) (garbage : Mem) :
    BarAccess where
  isReplied := false
  isRead := isRead
  bar := bar
  addr := msg.addr
  size := msg.width.toNat
  data := store garbage 0
    (if isRead then List.replicate msg.width.toNat 0 else load msg.data 0 msg.width.toNat)

/-- The end of an iteration of `pcie_net_loop`. -/
def loopEnd {ν δ : Type} (stop : Bool) : IoPc ν δ := if stop then .check else .select

/-- `pcie_net_recv_msg` and the dispatch by `on_msg_recv`: what is left of the stream, the locals of
the loop, and where the io thread goes on. -/
def receive {ν δ : Type} (up : Stream) (loop : NetLoop (Fin barCount)) (ev : Bool) :
    Option (Stream × NetLoop (Fin barCount) × IoPc ν δ × Option Event) :=
  match pcieNetRecvMsg up.rx loop.msg with
  | .wait => none
  | .error rest => some (up.consume rest, loop, .events ev true, none)
  | .ok _ buf rest =>
    let msg := PcieNetMsg.ofBuf buf
    match onMsgRecv loop.dev msg with
    | .done dev => some (up.consume rest, ⟨dev, buf⟩, .events ev false, some (.recv msg.op))
    | .reply dev r => some (up.consume rest, ⟨dev, buf⟩, .reply r ev, some (.recv msg.op))
    | .barRead bar =>
      some (up.consume rest, ⟨loop.dev, buf⟩, .access true bar ev, some (.recv msg.op))
    | .barWrite bar =>
      some (up.consume rest, ⟨loop.dev, buf⟩, .access false bar ev, some (.recv msg.op))

/-- The io thread receives a message and dispatches it. -/
def recvStep (s : GlueState) (ev : Bool) : Option (GlueState × Option Event) :=
  (receive s.up s.loop ev).map fun (up, loop, io, e) =>
    ({ s with up := up, loop := loop, io := io }, e)

/-- `on_bar_read` and `on_bar_write` up to the push.  The node has 8 bytes of data, and nothing is
said of a `memcpy` past them. -/
def accessStep (s : GlueState) (isRead : Bool) (bar : Fin barCount) (ev : Bool) (node : Ptr)
    (garbage : Mem) : Option (GlueState × Option Event) :=
  let msg := PcieNetMsg.ofBuf s.loop.msg
  if (s.heap node).isNone ∧ msg.width.toNat ≤ 8 then
    let a := accessNode isRead bar msg garbage
    let (heap, rxFifo) :=
      push (Function.update s.heap node (some ⟨none, .access a⟩)) s.rxFifo node
    some ({ s with
      heap := heap
      rxFifo := rxFifo
      io := if isRead then .spin node msg.width.toNat ev else .events ev false },
      some (.enqueue a.view))
  else none

/-- The end of `on_bar_read`: the loop on `is_replied`, the copy and the `free`. -/
def spinStep (s : GlueState) (node : Ptr) (size : ℕ) (ev : Bool) :
    Option (GlueState × Option Event) :=
  match s.heap node with
  | some ⟨_, .access a⟩ =>
    if a.isReplied then
      let bs := load a.data 0 (min size a.size)
      some ({ s with heap := Function.update s.heap node none, io := .reply (barReply bs) ev },
        some (.barReturn bs))
    else none
  | _ => none

/-- `on_event` up to the loop over the list it took. -/
def keyStep (s : GlueState) (ks : List Key) (stop : Bool) : Option (GlueState × Option Event) :=
  match ks with
  | [] => some ({ s with io := loopEnd stop }, none)
  | .quit :: ks => some ({ s with io := .keys ks true }, some .quit)
  | .push :: ks =>
    let (head, txFifo) := detach s.txFifo
    some ({ s with txFifo := txFifo, io := .drain head ks stop }, some .detach)

/-- One node of the loop of `on_event`. -/
def drainStep (s : GlueState) (head : Option Ptr) (ks : List Key) (stop : Bool) :
    Option (GlueState × Option Event) :=
  match head with
  | none => some ({ s with io := .keys ks stop }, none)
  | some node =>
    match s.heap node with
    | some ⟨next, .msg m⟩ =>
      some ({ s with heap := Function.update s.heap node none, io := .drain next ks stop },
        some (.send m))
    | _ => none

/-- One step of the io thread. -/
def ioStep (s : GlueState) (node : Ptr) (garbage : Mem) (batch : ℕ) :
    Option (GlueState × Option Event) :=
  match s.io with
  | .check => some ({ s with io := if s.running then .select else .exited }, none)
  | .select =>
    let ev := !s.pipe.isEmpty
    if s.up.arrived ≠ [] then some ({ s with io := .recv ev }, none)
    else if ev then some ({ s with io := .events ev false }, none)
    else none
  | .recv ev => recvStep s ev
  | .access isRead bar ev => accessStep s isRead bar ev node garbage
  | .spin node size ev => spinStep s node size ev
  | .reply r ev => some ({ s with io := .events ev false }, some (.sendReply r))
  | .events ev stop =>
    if ev then
      -- `buf` has room for 32 keys
      if 0 < batch ∧ batch ≤ 32 ∧ batch ≤ s.pipe.length then
        some ({ s with pipe := s.pipe.drop batch, io := .keys (s.pipe.take batch) stop }, none)
      else none
    else some ({ s with io := loopEnd stop }, none)
  | .keys ks stop => keyStep s ks stop
  | .drain head ks stop => drainStep s head ks stop
  | .exited => none

/-! ### The GHDL thread -/

/-- What `pcie_glue_poll_rx_fifo` writes when there is nothing to return. -/
def emptyResult (addr : Option (List Byte)) : PollResult where
  isRead := uintToLogic (0 : BitVec 8)
  bar := uintToLogic (0 : BitVec 8)
  addr := addr
  data := some (uintToLogic (0 : BitVec 64))
  size := uintToLogic (0 : BitVec 16)

/-- What it writes for a node: `x` is zeroed before the data of a write is copied to it. -/
def nodeResult (a : BarAccess) : PollResult where
  isRead := uintToLogic (if a.isRead then 1 else 0 : BitVec 8)
  bar := uintToLogic (BitVec.ofNat 8 a.bar)
  addr := some (uintToLogic a.addr)
  data :=
    if a.isRead then none else some (uintToLogic (BitVec.ofNat 64 (leNat (load a.data 0 a.size))))
  size := uintToLogic (BitVec.ofNat 16 a.size)

/-- The three send routines up to the push. -/
def pushStep (s : GlueState) (call : SendCall) (junk : Junk) (node : Ptr) :
    Option (GlueState × Option Event) :=
  match s.ghdl with
  | .idle =>
    if (s.heap node).isNone then
      let m := call.msg junk
      let (heap, txFifo) := push (Function.update s.heap node (some ⟨none, .msg m⟩)) s.txFifo node
      some ({ s with heap := heap, txFifo := txFifo, ghdl := .pushed }, some (.push m))
    else none
  | _ => none

/-- The critical section of `pcie_glue_poll_rx_fifo`. -/
def pollStep (s : GlueState) : Option (GlueState × Option Event) :=
  match s.ghdl with
  | .idle =>
    let (node, rxFifo) := pop s.heap s.rxFifo
    match node with
    | none => some ({ s with rxFifo := rxFifo }, some (.poll (emptyResult none)))
    | some node => some ({ s with rxFifo := rxFifo, ghdl := .popped node }, none)
  | _ => none

/-- What it does with the node it popped. -/
def poppedStep (s : GlueState) (node : Ptr) : Option (GlueState × Option Event) :=
  match s.heap node with
  | some ⟨_, .access a⟩ =>
    if a.isRead then
      if s.replyNode.isSome then
        some ({ s with heap := Function.update s.heap node none, ghdl := .idle },
          some (.pollDrop (emptyResult (some (uintToLogic a.addr)))))
      else some ({ s with replyNode := some node, ghdl := .idle }, some (.poll (nodeResult a)))
    else
      some ({ s with heap := Function.update s.heap node none, ghdl := .idle },
        some (.poll (nodeResult a)))
  | _ => none

/-- `pcie_glue_send_reply` up to the barrier. -/
def sendReplyStep (s : GlueState) (data : Mem) : Option (GlueState × Option Event) :=
  match s.ghdl with
  | .idle =>
    let data := logicToUint 64 data
    match s.replyNode with
    | none => some (s, some (.reply data))
    | some node =>
      match s.heap node with
      | some ⟨next, .access a⟩ =>
        let a := { a with data := store a.data 0 (leBytes 8 data.toNat) }
        some ({ s with
          heap := Function.update s.heap node (some ⟨next, .access a⟩)
          replyNode := none
          ghdl := .replied node }, some (.reply data))
      | _ => none
  | _ => none

/-- The store to `is_replied` behind the barrier. -/
def repliedStep (s : GlueState) (node : Ptr) : Option (GlueState × Option Event) :=
  match s.heap node with
  | some ⟨next, .access a⟩ =>
    let a := { a with isReplied := true }
    some ({ s with heap := Function.update s.heap node (some ⟨next, .access a⟩), ghdl := .idle },
      none)
  | _ => none

/-- The GHDL thread goes on with the call it is in. -/
def ghdlStep (s : GlueState) : Option (GlueState × Option Event) :=
  match s.ghdl with
  | .idle => none
  | .pushed => some ({ s with pipe := s.pipe ++ [.push], ghdl := .idle }, none)
  | .popped node => poppedStep s node
  | .replied node => repliedStep s node
  | .joining => some ({ s with pipe := s.pipe ++ [.quit], ghdl := .joined }, none)
  | .joined => none

/-- `pcie_glue_join_thread` up to the barrier; the key follows, and then the thread waits. -/
def joinStep (s : GlueState) : Option (GlueState × Option Event) :=
  match s.ghdl with
  | .idle => some ({ s with running := false, ghdl := .joining }, none)
  | _ => none

/-! ### The system -/

/-- One move, with the event it shows. -/
def act (s : GlueState) : Move → Option (GlueState × Option Event)
  | .deliver k => some ({ s with up := s.up.deliver k }, none)
  | .io node garbage batch => ioStep s node garbage batch
  | .push call junk node => pushStep s call junk node
  | .poll => pollStep s
  | .sendReply data => sendReplyStep s data
  | .join => joinStep s
  | .ghdl => ghdlStep s

def step (s : GlueState) (a : Move) : Option GlueState := (act s a).map Prod.fst

def event (s : GlueState) (a : Move) : Option Event := (act s a).bind Prod.snd

/-- The glue when the io thread has committed its status, with the bytes the peer will send. -/
def GlueState.init (dev : PcieDev (Fin barCount)) (buf : Mem) (bytes : List Byte) : GlueState where
  heap := fun _ => none
  txFifo := ⟨none, none⟩
  rxFifo := ⟨none, none⟩
  pipe := []
  replyNode := none
  running := true
  loop := ⟨dev, buf⟩
  up := ⟨[], bytes⟩
  io := .check
  ghdl := .idle

/-- The device as `thread_entry` sets it up: every BAR has both handlers. -/
def glueDev (mem : PcieDev (Fin barCount)) (vendorId deviceId : BitVec 16)
    (size : Fin barCount → BitVec 64) : PcieDev (Fin barCount) :=
  deviceInit mem vendorId deviceId size some some

/-- A device set up over cleared memory. -/
def plainDev : PcieDev (Fin barCount) :=
  glueDev ⟨fun _ => 0, fun _ => none, fun _ => none, fun _ => 0⟩ 0x2a2a 0x2b2b fun _ => 0x100

/-- The io thread goes on; if it allocates, at 0, and if it reads keys, one. -/
def ioMove : Move := .io 0 (fun _ => 0) 1

/-- A four byte read of BAR 0. -/
def readFrame : List Byte := (WireMsg.mk opReadMem 0 4 0 [] nil_page).encode

/-- The access `readFrame` asks for. -/
def readView : AccessView := ⟨true, 0, 0, 4, none⟩

theorem step_eq_some {s t : GlueState} {a : Move} :
    step s a = some t ↔ ∃ e, act s a = some (t, e) ∧ event s a = e := by
  constructor
  · intro h
    obtain ⟨p, hp, rfl⟩ := Option.map_eq_some_iff.mp h
    refine ⟨p.2, hp, ?_⟩
    rw [event, hp]
    rfl
  · intro h
    obtain ⟨e, he, _⟩ := h
    rw [step, he]
    rfl

/-! ### The heap -/

/-- A property of the heap that is kept when a node is freed, written or allocated, and when one is
linked to a queue. -/
structure HeapKept (P : Heap Ptr Node → Prop) : Prop where
  free : ∀ h p, P h → P (Function.update h p none)
  access : ∀ h p next a, P h → P (Function.update h p (some ⟨next, .access a⟩))
  msg : ∀ h p (call : SendCall) junk, P h →
    P (Function.update h p (some ⟨none, .msg (call.msg junk)⟩))
  push : ∀ h q p, P h → P (Lib.push h q p).1

section Heap

variable {P : Heap Ptr Node → Prop} {s t : GlueState} {e : Option Event}

theorem HeapKept.io (hP : HeapKept P) {node : Ptr} {garbage : Mem} {batch : ℕ}
    (hst : ioStep s node garbage batch = some (t, e)) (h : P s.heap) : P t.heap := by
  cases hio : s.io with
  | check =>
    simp only [ioStep, hio] at hst
    cases hst
    exact h
  | select =>
    simp only [ioStep, hio] at hst
    split_ifs at hst <;> cases hst <;> exact h
  | recv ev =>
    simp only [ioStep, hio] at hst
    obtain ⟨⟨up, loop, io, e'⟩, _, heq⟩ := Option.map_eq_some_iff.mp hst
    cases heq
    exact h
  | access isRead bar ev =>
    simp only [ioStep, hio, accessStep] at hst
    split_ifs at hst <;> cases hst <;> exact hP.push _ _ _ (hP.access _ _ _ _ h)
  | spin node size ev =>
    simp only [ioStep, hio, spinStep] at hst
    split at hst
    · split_ifs at hst
      cases hst
      exact hP.free _ _ h
    · exact absurd hst (by simp)
  | reply r ev =>
    simp only [ioStep, hio] at hst
    cases hst
    exact h
  | events ev stop =>
    simp only [ioStep, hio] at hst
    split_ifs at hst <;> cases hst <;> exact h
  | keys ks stop =>
    simp only [ioStep, hio, keyStep] at hst
    split at hst <;> cases hst <;> exact h
  | drain head ks stop =>
    simp only [ioStep, hio, drainStep] at hst
    split at hst
    · cases hst
      exact h
    · split at hst
      · cases hst
        exact hP.free _ _ h
      · exact absurd hst (by simp)
  | exited =>
    simp only [ioStep, hio] at hst
    exact absurd hst (by simp)

theorem HeapKept.ghdl (hP : HeapKept P) (hst : ghdlStep s = some (t, e)) (h : P s.heap) :
    P t.heap := by
  cases hg : s.ghdl with
  | popped node =>
    simp only [ghdlStep, hg, poppedStep] at hst
    split at hst
    · split_ifs at hst <;> cases hst <;> first | exact h | exact hP.free _ _ h
    · exact absurd hst (by simp)
  | replied node =>
    simp only [ghdlStep, hg, repliedStep] at hst
    split at hst
    · cases hst
      exact hP.access _ _ _ _ h
    · exact absurd hst (by simp)
  | pushed =>
    simp only [ghdlStep, hg] at hst
    cases hst
    exact h
  | joining =>
    simp only [ghdlStep, hg] at hst
    cases hst
    exact h
  | idle => simp [ghdlStep, hg] at hst
  | joined => simp [ghdlStep, hg] at hst

/-- Every move keeps such a property. -/
theorem HeapKept.act (hP : HeapKept P) {a : Move} (hst : act s a = some (t, e)) (h : P s.heap) :
    P t.heap := by
  cases a with
  | deliver k =>
    cases hst
    exact h
  | io node garbage batch => exact hP.io hst h
  | push call junk node =>
    simp only [Glue.act, pushStep] at hst
    split at hst
    · split_ifs at hst
      cases hst
      exact hP.push _ _ _ (hP.msg _ _ _ _ h)
    · exact absurd hst (by simp)
  | poll =>
    simp only [Glue.act, pollStep] at hst
    split at hst
    · split at hst <;> cases hst <;> exact h
    · exact absurd hst (by simp)
  | sendReply data =>
    simp only [Glue.act, sendReplyStep] at hst
    split at hst
    · split at hst
      · cases hst
        exact h
      · split at hst
        · cases hst
          exact hP.access _ _ _ _ h
        · exact absurd hst (by simp)
    · exact absurd hst (by simp)
  | join =>
    simp only [Glue.act, joinStep] at hst
    split at hst
    · cases hst
      exact h
    · exact absurd hst (by simp)
  | ghdl => exact hP.ghdl hst h

end Heap

end VPcie.Glue
