import VPcie.Glue.Threads

/-!
# What the glue is for

The glue without its heap: two lists of what is queued in either direction, and one slot for the
read that is under way.  There are no pointers, so there is nothing to free and nothing to lose; the
threads and the events are those of `Threads`.

`Spec` never takes the branch of a poll that frees a read node, as it has no such branch.

* `Spec.act` — one move of the abstract glue;
* `Spec.act_cases` — all that a move can do.
-/

namespace VPcie.Glue

open VPcie.Lib VPcie.Net VPcie.Device

/-- The life of a read, from the push of its node to the return of `on_bar_read`. -/
inductive ReadSlot where
  | free
  /-- in the queue, or popped by the poll in progress -/
  | queued
  /-- given to the VHDL side, which has not replied -/
  | pending
  /-- the reply was copied, the io thread does not know yet -/
  | copied (data : BitVec 64)
  | answered (data : BitVec 64)
deriving DecidableEq, Repr

/-- The glue as lists. -/
structure Spec where
  tx : List Content
  rx : List AccessView
  read : ReadSlot
  pipe : List Key
  running : Bool
  loop : NetLoop (Fin barCount)
  up : Stream
  io : IoPc Unit (List Content)
  ghdl : GhdlPc AccessView Unit

/-- The vectors a poll returns for an access. -/
def AccessView.result (a : AccessView) : PollResult where
  isRead := uintToLogic (if a.isRead then 1 else 0 : BitVec 8)
  bar := uintToLogic a.bar
  addr := some (uintToLogic a.addr)
  data := a.data.map uintToLogic
  size := uintToLogic a.size

namespace Spec

/-- An access the device received; what its node carries beside the fields does not matter. -/
def accessView (isRead : Bool) (bar : Fin barCount) (msg : PcieNetMsg) : AccessView where
  isRead := isRead
  bar := BitVec.ofNat 8 bar
  addr := msg.addr
  size := BitVec.ofNat 16 msg.width.toNat
  data :=
    if isRead then none else some (BitVec.ofNat 64 (leNat (load msg.data 0 msg.width.toNat)))

def recvStep (x : Spec) (ev : Bool) : Option (Spec × Option Event) :=
  (receive x.up x.loop ev).map fun (up, loop, io, e) =>
    ({ x with up := up, loop := loop, io := io }, e)

def accessStep (x : Spec) (isRead : Bool) (bar : Fin barCount) (ev : Bool) :
    Option (Spec × Option Event) :=
  let msg := PcieNetMsg.ofBuf x.loop.msg
  if msg.width.toNat ≤ 8 then
    let a := accessView isRead bar msg
    some ({ x with
      rx := x.rx ++ [a]
      read := if isRead then .queued else x.read
      io := if isRead then .spin () msg.width.toNat ev else .events ev false }, some (.enqueue a))
  else none

/-- The answer to the read, cut to the size that was asked for. -/
def spinStep (x : Spec) (size : ℕ) (ev : Bool) : Option (Spec × Option Event) :=
  match x.read with
  | .answered data =>
    let bs := leBytes size data.toNat
    some ({ x with read := .free, io := .reply (barReply bs) ev }, some (.barReturn bs))
  | _ => none

def keyStep (x : Spec) (ks : List Key) (stop : Bool) : Option (Spec × Option Event) :=
  match ks with
  | [] => some ({ x with io := loopEnd stop }, none)
  | .quit :: ks => some ({ x with io := .keys ks true }, some .quit)
  | .push :: ks => some ({ x with tx := [], io := .drain x.tx ks stop }, some .detach)

def drainStep (x : Spec) (ms : List Content) (ks : List Key) (stop : Bool) :
    Option (Spec × Option Event) :=
  match ms with
  | [] => some ({ x with io := .keys ks stop }, none)
  | m :: ms => some ({ x with io := .drain ms ks stop }, some (.send m))

def ioStep (x : Spec) (batch : ℕ) : Option (Spec × Option Event) :=
  match x.io with
  | .check => some ({ x with io := if x.running then .select else .exited }, none)
  | .select =>
    let ev := !x.pipe.isEmpty
    if x.up.arrived ≠ [] then some ({ x with io := .recv ev }, none)
    else if ev then some ({ x with io := .events ev false }, none)
    else none
  | .recv ev => recvStep x ev
  | .access isRead bar ev => accessStep x isRead bar ev
  | .spin _ size ev => spinStep x size ev
  | .reply r ev => some ({ x with io := .events ev false }, some (.sendReply r))
  | .events ev stop =>
    if ev then
      if 0 < batch ∧ batch ≤ 32 ∧ batch ≤ x.pipe.length then
        some ({ x with pipe := x.pipe.drop batch, io := .keys (x.pipe.take batch) stop }, none)
      else none
    else some ({ x with io := loopEnd stop }, none)
  | .keys ks stop => keyStep x ks stop
  | .drain ms ks stop => drainStep x ms ks stop
  | .exited => none

def pushStep (x : Spec) (call : SendCall) (junk : Junk) : Option (Spec × Option Event) :=
  match x.ghdl with
  | .idle =>
    let m := call.msg junk
    some ({ x with tx := x.tx ++ [m], ghdl := .pushed }, some (.push m))
  | _ => none

def pollStep (x : Spec) : Option (Spec × Option Event) :=
  match x.ghdl with
  | .idle =>
    match x.rx with
    | [] => some (x, some (.poll (emptyResult none)))
    | a :: rx => some ({ x with rx := rx, ghdl := .popped a }, none)
  | _ => none

def poppedStep (x : Spec) (a : AccessView) : Option (Spec × Option Event) :=
  some ({ x with read := if a.isRead then .pending else x.read, ghdl := .idle },
    some (.poll a.result))

/-- A reply counts only while a read is pending. -/
def sendReplyStep (x : Spec) (data : Mem) : Option (Spec × Option Event) :=
  match x.ghdl with
  | .idle =>
    let data := logicToUint 64 data
    match x.read with
    | .pending => some ({ x with read := .copied data, ghdl := .replied () }, some (.reply data))
    | _ => some (x, some (.reply data))
  | _ => none

def repliedStep (x : Spec) : Option (Spec × Option Event) :=
  match x.read with
  | .copied data => some ({ x with read := .answered data, ghdl := .idle }, none)
  | _ => none

def ghdlStep (x : Spec) : Option (Spec × Option Event) :=
  match x.ghdl with
  | .idle => none
  | .pushed => some ({ x with pipe := x.pipe ++ [.push], ghdl := .idle }, none)
  | .popped a => poppedStep x a
  | .replied _ => repliedStep x
  | .joining => some ({ x with pipe := x.pipe ++ [.quit], ghdl := .joined }, none)
  | .joined => none

def joinStep (x : Spec) : Option (Spec × Option Event) :=
  match x.ghdl with
  | .idle => some ({ x with running := false, ghdl := .joining }, none)
  | _ => none

def act (x : Spec) : Move → Option (Spec × Option Event)
  | .deliver k => some ({ x with up := x.up.deliver k }, none)
  | .io _ _ batch => ioStep x batch
  | .push call junk _ => pushStep x call junk
  | .poll => pollStep x
  | .sendReply data => sendReplyStep x data
  | .join => joinStep x
  | .ghdl => ghdlStep x

def step (x : Spec) (a : Move) : Option Spec := (act x a).map Prod.fst

def event (x : Spec) (a : Move) : Option Event := (act x a).bind Prod.snd

def init (dev : PcieDev (Fin barCount)) (buf : Mem) (bytes : List Byte) : Spec where
  tx := []
  rx := []
  read := .free
  pipe := []
  running := true
  loop := ⟨dev, buf⟩
  up := ⟨[], bytes⟩
  io := .check
  ghdl := .idle

end Spec

/-! ### All that a move can do -/

/-- The io thread is between messages and between events. -/
def IoPc.Quiet {ν δ : Type} : IoPc ν δ → Prop
  | .check => True
  | .select => True
  | .recv _ => True
  | .events _ _ => True
  | .exited => True
  | _ => False

/-- The io thread is at work on a read. -/
def IoPc.InRead {ν δ : Type} : IoPc ν δ → Prop
  | .access isRead _ _ => isRead = true
  | .spin _ _ _ => True
  | .reply _ _ => True
  | _ => False

/-- The io thread has seen the pipe readable and not yet read it. -/
def IoPc.ev {ν δ : Type} : IoPc ν δ → Bool
  | .recv ev => ev
  | .access _ _ ev => ev
  | .spin _ _ ev => ev
  | .reply _ ev => ev
  | .events ev _ => ev
  | _ => false

theorem loopEnd_ev {ν δ : Type} (stop : Bool) : (loopEnd stop : IoPc ν δ).ev = false := by
  cases stop <;> rfl

theorem loopEnd_quiet {ν δ : Type} (stop : Bool) : (loopEnd stop : IoPc ν δ).Quiet := by
  cases stop <;> trivial

/-- A move of the abstract glue from `x` to `y` that shows `e`. -/
inductive SpecStep (x : Spec) : Spec → Option Event → Prop where
  | deliver (k : ℕ) : SpecStep x { x with up := x.up.deliver k } none
  | control (io : IoPc Unit (List Content)) (hio : x.io.Quiet) (hio' : io.Quiet)
      (hev : io.ev = true → x.pipe ≠ []) (hexit : io = .exited → x.running = false) :
      SpecStep x { x with io := io } none
  | recv (ev : Bool) (up : Stream) (loop : NetLoop (Fin barCount)) (io : IoPc Unit (List Content))
      (e : Option Event) (hio : x.io = .recv ev)
      (hrecv : receive x.up x.loop ev = some (up, loop, io, e)) :
      SpecStep x { x with up := up, loop := loop, io := io } e
  | write (bar : Fin barCount) (ev : Bool) (hio : x.io = .access false bar ev)
      (hwidth : (PcieNetMsg.ofBuf x.loop.msg).width.toNat ≤ 8) :
      SpecStep x
        { x with
          rx := x.rx ++ [Spec.accessView false bar (PcieNetMsg.ofBuf x.loop.msg)]
          io := .events ev false }
        (some (.enqueue (Spec.accessView false bar (PcieNetMsg.ofBuf x.loop.msg))))
  | read (bar : Fin barCount) (ev : Bool) (hio : x.io = .access true bar ev)
      (hwidth : (PcieNetMsg.ofBuf x.loop.msg).width.toNat ≤ 8) :
      SpecStep x
        { x with
          rx := x.rx ++ [Spec.accessView true bar (PcieNetMsg.ofBuf x.loop.msg)]
          read := .queued
          io := .spin () (PcieNetMsg.ofBuf x.loop.msg).width.toNat ev }
        (some (.enqueue (Spec.accessView true bar (PcieNetMsg.ofBuf x.loop.msg))))
  | barReturn (size : ℕ) (ev : Bool) (data : BitVec 64) (hio : x.io = .spin () size ev)
      (hread : x.read = .answered data) :
      SpecStep x
        { x with read := .free, io := .reply (barReply (leBytes size data.toNat)) ev }
        (some (.barReturn (leBytes size data.toNat)))
  | reply (r : PcieNetReply) (ev : Bool) (hio : x.io = .reply r ev) :
      SpecStep x { x with io := .events ev false } (some (.sendReply r))
  | batch (k : ℕ) (stop : Bool) (hio : x.io = .events true stop) :
      SpecStep x { x with pipe := x.pipe.drop k, io := .keys (x.pipe.take k) stop } none
  | keysEnd (stop : Bool) (hio : x.io = .keys [] stop) :
      SpecStep x { x with io := loopEnd stop } none
  | quit (ks : List Key) (stop : Bool) (hio : x.io = .keys (.quit :: ks) stop) :
      SpecStep x { x with io := .keys ks true } (some .quit)
  | detach (ks : List Key) (stop : Bool) (hio : x.io = .keys (.push :: ks) stop) :
      SpecStep x { x with tx := [], io := .drain x.tx ks stop } (some .detach)
  | drainEnd (ks : List Key) (stop : Bool) (hio : x.io = .drain [] ks stop) :
      SpecStep x { x with io := .keys ks stop } none
  | send (m : Content) (ms : List Content) (ks : List Key) (stop : Bool)
      (hio : x.io = .drain (m :: ms) ks stop) :
      SpecStep x { x with io := .drain ms ks stop } (some (.send m))
  | push (m : Content) (hghdl : x.ghdl = .idle) :
      SpecStep x { x with tx := x.tx ++ [m], ghdl := .pushed } (some (.push m))
  | wake (hghdl : x.ghdl = .pushed) :
      SpecStep x { x with pipe := x.pipe ++ [.push], ghdl := .idle } none
  | pollEmpty (hghdl : x.ghdl = .idle) (hrx : x.rx = []) :
      SpecStep x x (some (.poll (emptyResult none)))
  | pop (a : AccessView) (rx : List AccessView) (hghdl : x.ghdl = .idle) (hrx : x.rx = a :: rx) :
      SpecStep x { x with rx := rx, ghdl := .popped a } none
  | popped (a : AccessView) (hghdl : x.ghdl = .popped a) :
      SpecStep x { x with read := if a.isRead then .pending else x.read, ghdl := .idle }
        (some (.poll a.result))
  | answer (data : BitVec 64) (hghdl : x.ghdl = .idle) (hread : x.read = .pending) :
      SpecStep x { x with read := .copied data, ghdl := .replied () } (some (.reply data))
  | spurious (data : BitVec 64) (hghdl : x.ghdl = .idle) (hread : x.read ≠ .pending) :
      SpecStep x x (some (.reply data))
  | replied (data : BitVec 64) (hghdl : x.ghdl = .replied ()) (hread : x.read = .copied data) :
      SpecStep x { x with read := .answered data, ghdl := .idle } none
  | join (hghdl : x.ghdl = .idle) : SpecStep x { x with running := false, ghdl := .joining } none
  | joinKey (hghdl : x.ghdl = .joining) :
      SpecStep x { x with pipe := x.pipe ++ [.quit], ghdl := .joined } none

section Cases

variable {x y : Spec} {e : Option Event}

/-- The io thread wakes up from `select`, for a message or for a key. -/
theorem Spec.ioSelect_cases {batch : ℕ} (hio : x.io = .select)
    (h : Spec.ioStep x batch = some (y, e)) : SpecStep x y e := by
  simp only [Spec.ioStep, hio] at h
  have hpipe : (!x.pipe.isEmpty) = true → x.pipe ≠ [] := by
    intro hev hnil
    rw [hnil] at hev
    exact absurd hev (by decide)
  by_cases harrived : x.up.arrived ≠ []
  · rw [if_pos harrived] at h
    cases h
    exact .control _ (by rw [hio]; trivial) trivial hpipe fun hexit => by cases hexit
  · rw [if_neg harrived] at h
    by_cases hev : (!x.pipe.isEmpty) = true
    · rw [if_pos hev] at h
      cases h
      exact .control _ (by rw [hio]; trivial) trivial hpipe fun hexit => by cases hexit
    · rw [if_neg hev] at h
      exact absurd h (by simp)

/-- It takes the keys that are in the pipe, or goes back to the start of the loop. -/
theorem Spec.ioEvents_cases {batch : ℕ} {ev stop : Bool} (hio : x.io = .events ev stop)
    (h : Spec.ioStep x batch = some (y, e)) : SpecStep x y e := by
  simp only [Spec.ioStep, hio] at h
  cases ev with
  | true =>
    rw [if_pos rfl] at h
    by_cases hbatch : 0 < batch ∧ batch ≤ 32 ∧ batch ≤ x.pipe.length
    · rw [if_pos hbatch] at h
      cases h
      exact .batch batch stop hio
    · rw [if_neg hbatch] at h
      exact absurd h (by simp)
  | false =>
    rw [if_neg (by decide)] at h
    cases h
    refine .control _ (by rw [hio]; trivial) (loopEnd_quiet stop) ?_ ?_
    · intro hev
      rw [loopEnd_ev] at hev
      exact absurd hev (by decide)
    · intro hexit
      cases stop <;> cases hexit

theorem Spec.ioStep_cases {batch : ℕ} (h : Spec.ioStep x batch = some (y, e)) :
    SpecStep x y e := by
  cases hio : x.io with
  | check =>
    simp only [Spec.ioStep, hio] at h
    cases h
    refine .control _ (by rw [hio]; trivial) ?_ ?_ ?_
    · cases x.running <;> trivial
    · cases x.running <;> exact fun hev => absurd hev (by decide)
    · intro hexit
      by_contra hrunning
      rw [if_pos (by simpa using hrunning)] at hexit
      cases hexit
  | select => exact Spec.ioSelect_cases hio h
  | recv ev =>
    simp only [Spec.ioStep, hio] at h
    obtain ⟨⟨up, loop, io, e'⟩, hrecv, heq⟩ := Option.map_eq_some_iff.mp h
    cases heq
    exact .recv ev up loop io e hio hrecv
  | access isRead bar ev =>
    simp only [Spec.ioStep, hio, Spec.accessStep] at h
    by_cases hwidth : (PcieNetMsg.ofBuf x.loop.msg).width.toNat ≤ 8
    · rw [if_pos hwidth] at h
      cases isRead with
      | true =>
        cases h
        exact .read bar ev hio hwidth
      | false =>
        cases h
        exact .write bar ev hio hwidth
    · rw [if_neg hwidth] at h
      exact absurd h (by simp)
  | spin node size ev =>
    simp only [Spec.ioStep, hio, Spec.spinStep] at h
    cases hread : x.read with
    | answered data =>
      simp only [hread] at h
      cases h
      exact .barReturn size ev data hio hread
    | _ => simp [hread] at h
  | reply r ev =>
    simp only [Spec.ioStep, hio] at h
    cases h
    exact .reply r ev hio
  | events ev stop => exact Spec.ioEvents_cases hio h
  | keys ks stop =>
    simp only [Spec.ioStep, hio] at h
    cases ks with
    | nil =>
      cases h
      exact .keysEnd stop hio
    | cons k ks =>
      cases k with
      | quit =>
        cases h
        exact .quit ks stop hio
      | push =>
        cases h
        exact .detach ks stop hio
  | drain ms ks stop =>
    simp only [Spec.ioStep, hio] at h
    cases ms with
    | nil =>
      cases h
      exact .drainEnd ks stop hio
    | cons m ms =>
      cases h
      exact .send m ms ks stop hio
  | exited => simp [Spec.ioStep, hio] at h

/-- **All that a move can do.** -/
theorem Spec.act_cases {a : Move} (h : Spec.act x a = some (y, e)) : SpecStep x y e := by
  cases a with
  | deliver k =>
    cases h
    exact .deliver k
  | io node garbage batch => exact Spec.ioStep_cases h
  | push call junk node =>
    simp only [Spec.act, Spec.pushStep] at h
    cases hghdl : x.ghdl with
    | idle =>
      simp only [hghdl] at h
      cases h
      exact .push (call.msg junk) hghdl
    | _ => simp [hghdl] at h
  | poll =>
    simp only [Spec.act, Spec.pollStep] at h
    cases hghdl : x.ghdl with
    | idle =>
      cases hrx : x.rx with
      | nil =>
        simp only [hghdl, hrx] at h
        cases h
        exact .pollEmpty hghdl hrx
      | cons a rx =>
        simp only [hghdl, hrx] at h
        cases h
        exact .pop a rx hghdl hrx
    | _ => simp [hghdl] at h
  | sendReply data =>
    simp only [Spec.act, Spec.sendReplyStep] at h
    cases hghdl : x.ghdl with
    | idle =>
      cases hread : x.read with
      | pending =>
        simp only [hghdl, hread] at h
        cases h
        exact .answer (logicToUint 64 data) hghdl hread
      | _ =>
        simp only [hghdl, hread] at h
        cases h
        exact .spurious (logicToUint 64 data) hghdl (by simp [hread])
    | _ => simp [hghdl] at h
  | join =>
    simp only [Spec.act, Spec.joinStep] at h
    cases hghdl : x.ghdl with
    | idle =>
      simp only [hghdl] at h
      cases h
      exact .join hghdl
    | _ => simp [hghdl] at h
  | ghdl =>
    simp only [Spec.act, Spec.ghdlStep] at h
    cases hghdl : x.ghdl with
    | pushed =>
      simp only [hghdl] at h
      cases h
      exact .wake hghdl
    | popped a =>
      simp only [hghdl] at h
      cases h
      exact .popped a hghdl
    | replied =>
      simp only [hghdl, Spec.repliedStep] at h
      cases hread : x.read with
      | copied data =>
        simp only [hread] at h
        cases h
        exact .replied data hghdl hread
      | _ => simp [hread] at h
    | joining =>
      simp only [hghdl] at h
      cases h
      exact .joinKey hghdl
    | _ => simp [hghdl] at h

/-- A step of a run is a move with an event. -/
theorem Spec.step_cases {a : Move} (h : Spec.step x a = some y) :
    SpecStep x y (Spec.event x a) := by
  obtain ⟨p, hp, rfl⟩ := Option.map_eq_some_iff.mp h
  rw [Spec.event, hp]
  exact Spec.act_cases hp

end Cases

/-- What the event of a receive says of where the io thread goes on. -/
theorem receive_cases {ν δ : Type} {up up' : Stream} {loop loop' : NetLoop (Fin barCount)}
    {ev : Bool} {io : IoPc ν δ} {e : Option Event}
    (h : receive up loop ev = some (up', loop', io, e)) :
    (e = none ∧ io.Quiet) ∨
      ∃ op, e = some (.recv op) ∧ (IsRead op ∧ io.InRead ∨ ¬IsRead op ∧ ¬io.InRead) ∧
        ∀ ks stop rest, io ≠ .keys ks stop ∧ io ≠ .drain rest ks stop := by
  unfold receive at h
  cases hrecv : pcieNetRecvMsg up.rx loop.msg with
  | wait => simp [hrecv] at h
  | error rest =>
    simp only [hrecv] at h
    cases h
    exact Or.inl ⟨rfl, trivial⟩
  | ok n buf rest =>
    have hmust := onMsgRecv_mustReply loop.dev (PcieNetMsg.ofBuf buf)
    simp only [hrecv] at h
    right
    cases hdisp : onMsgRecv loop.dev (PcieNetMsg.ofBuf buf) with
    | done dev =>
      simp only [hdisp] at h
      rw [hdisp] at hmust
      cases h
      exact ⟨_, rfl, Or.inr ⟨by simpa [Dispatch.mustReply] using hmust.symm, id⟩, by simp⟩
    | reply dev r =>
      simp only [hdisp] at h
      rw [hdisp] at hmust
      cases h
      exact ⟨_, rfl, Or.inl ⟨by simpa [Dispatch.mustReply] using hmust.symm, trivial⟩, by simp⟩
    | barRead bar =>
      simp only [hdisp] at h
      rw [hdisp] at hmust
      cases h
      exact ⟨_, rfl, Or.inl ⟨by simpa [Dispatch.mustReply] using hmust.symm, rfl⟩, by simp⟩
    | barWrite bar =>
      simp only [hdisp] at h
      rw [hdisp] at hmust
      cases h
      exact ⟨_, rfl, Or.inr ⟨by simpa [Dispatch.mustReply] using hmust.symm,
        by simp [IoPc.InRead]⟩, by simp⟩

end VPcie.Glue
