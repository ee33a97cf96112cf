import VPcie.Glue.Delivery
import VPcie.Sbone.RegisterFile

/-!
# sbone behind the glue

The GHDL process: the io thread of the glue, and the GHDL thread that runs `main.vhdl`.  On a rising
edge the endpoint makes its calls into the glue one after the other and polls last.  Each call takes
the steps it has in `Glue.Threads`, and the io thread and the network may do anything between them.

The abstract glue runs beside the one with the heap, and the invariants below are about that.

* `Board.step` — one step of either thread;
* `ClockStep` — all that a step of the GHDL thread can do, and `IoStep` one of the others;
* `Beside.clock`, `Beside.io` — every step is one of these;
* `Beside.clock_exists` — the GHDL thread always has one.
-/

namespace VPcie.Sbone

open VPcie.Lib VPcie.Net VPcie.Glue
open VPcie.Device (PcieDev barCount)
open VPcie.Vhdl (Req Endpoint EndpointIn GlueCall pollRxFifo)

/-! ### The composition -/

/-- An integer of the VHDL side as the array a call is given. -/
def vector {w : ℕ} (x : BitVec w) : Mem := vectorMem (uintToLogic x)

/-- The first step of a call. -/
def callMove (junk : Junk) (node : Ptr) : GlueCall → Move
  | .sendMsi => .push .msi junk node
  | .sendWrite addr data dataSize size =>
    .push (.write (vector addr) (vector data) (vector dataSize) (vector size)) junk node
  | .sendReply data => .sendReply (vector data)

/-- The variables of the endpoint after a poll.  A vector that is left alone keeps its value. -/
def pollAccess (old : AccessView) (r : PollResult) : AccessView where
  isRead := decide (logicToUint 8 (vectorMem r.isRead) ≠ 0)
  bar := logicToUint 8 (vectorMem r.bar)
  addr := (r.addr.map fun v => logicToUint 64 (vectorMem v)).getD old.addr
  size := logicToUint 16 (vectorMem r.size)
  data := r.data.map fun v => logicToUint 64 (vectorMem v)

/-- The glue, the endpoint with the request ports, and the device.  On an edge, `edge` has the calls
the endpoint has still to make before it polls. -/
structure Board where
  glue : GlueState
  ep : Endpoint
  req : Req
  dev : Dev
  edge : Option (List GlueCall)

/-- A scheduling choice; the arguments are those of `Glue.Move`. -/
inductive BoardMove where
  | deliver (k : ℕ)
  | io (node : Ptr) (garbage : Mem) (batch : ℕ)
  | clock (junk : Junk) (node : Ptr)

/-- After a reset, with the bytes the peer will send. -/
def Board.init (dev : PcieDev (Fin barCount)) (buf : Mem) (bytes : List Byte) : Board where
  glue := GlueState.init dev buf bytes
  ep := System.reset.ep
  req := System.reset.req
  dev := System.reset.dev
  edge := none

/-- The calls the endpoint makes on an edge. -/
def Board.calls (s : Board) : List GlueCall := System.calls ⟨s.ep, s.req, s.dev, []⟩

/-- The end of an edge, once the poll has returned `access`. -/
def Board.endEdge (s : Board) (glue : GlueState) (access : AccessView) : Board :=
  let (ep, req, _) := s.ep.clock true s.req.data [access]
  { glue := glue, ep := ep, req := req, dev := s.dev.edge s.req, edge := none }

/-- The GHDL thread after a step in the glue, with these calls still to make. -/
def Board.goOn (s : Board) (cs : List GlueCall) (glue : GlueState) : Option Event → Board
  | some (.poll r) => s.endEdge glue (pollAccess s.ep.access r)
  | some (.pollDrop r) => s.endEdge glue (pollAccess s.ep.access r)
  | _ => { s with glue := glue, edge := some cs }

/-- The GHDL thread takes a step in the glue. -/
def Board.call (s : Board) (cs : List GlueCall) (a : Move) : Option Board :=
  (act s.glue a).map fun (glue, e) => s.goOn cs glue e

/-- One step of the GHDL thread: the edge, the rest of a call, the next call, or the poll. -/
def Board.clockStep (s : Board) (junk : Junk) (node : Ptr) : Option Board :=
  match s.edge with
  | none => some { s with edge := some s.calls }
  | some cs =>
    match s.glue.ghdl, cs with
    | .idle, c :: cs => s.call cs (callMove junk node c)
    | .idle, [] => s.call [] .poll
    | _, cs => s.call cs .ghdl

def Board.step (s : Board) : BoardMove → Option Board
  | .deliver k => (Glue.step s.glue (.deliver k)).map fun glue => { s with glue := glue }
  | .io node garbage batch =>
    (Glue.step s.glue (.io node garbage batch)).map fun glue => { s with glue := glue }
  | .clock junk node => s.clockStep junk node

/-- The move of the glue that a move of the board makes; the edge itself makes none. -/
def Board.glueMove (s : Board) : BoardMove → Option Move
  | .deliver k => some (.deliver k)
  | .io node garbage batch => some (.io node garbage batch)
  | .clock junk node =>
    match s.edge with
    | none => none
    | some cs =>
      match s.glue.ghdl, cs with
      | .idle, c :: _ => some (callMove junk node c)
      | .idle, [] => some .poll
      | _, _ => some .ghdl

/-- What a move shows. -/
def Board.event (s : Board) (m : BoardMove) : Option Event :=
  (s.glueMove m).bind (Glue.event s.glue)

/-- A step of the GHDL thread. -/
def BoardMove.IsClock : BoardMove → Prop
  | clock _ _ => True
  | _ => False

/-! ### The poll -/

theorem logicToUint_vectorOf {w : ℕ} (x : BitVec w) : logicToUint w (vector x) = x :=
  logicToUint_vector x

/-- The variables have what was popped. -/
theorem pollAccess_result (old a : AccessView) : pollAccess old a.result = a := by
  simp only [pollAccess, AccessView.result, logicToUint_vector, map_logicToUint, isRead_of_uint,
    Option.map_some, Option.getD_some]

/-- With nothing to pop they have no size. -/
theorem pollAccess_empty (old : AccessView) :
    pollAccess old (emptyResult none) = (pollRxFifo old []).1 := by
  simp only [pollAccess, emptyResult, logicToUint_vector, Option.map_some]
  rfl

/-! ### Steps of the io thread -/

/-- The io thread makes none of the calls of the GHDL thread. -/
theorem ioStep_keeps {x y : Spec} {batch : ℕ} {e : Option Event}
    (h : Spec.ioStep x batch = some (y, e)) :
    y.ghdl = x.ghdl ∧ y.running = x.running ∧ (∀ r, e ≠ some (.poll r)) ∧
      ∀ d, e ≠ some (.reply d) := by
  cases hio : x.io with
  | check =>
    simp only [Spec.ioStep, hio] at h
    cases h
    simp
  | select =>
    simp only [Spec.ioStep, hio] at h
    split_ifs at h <;> cases h <;> simp
  | recv ev =>
    simp only [Spec.ioStep, hio] at h
    obtain ⟨⟨up, loop, io, e'⟩, hrecv, heq⟩ := Option.map_eq_some_iff.mp h
    cases heq
    rcases receive_cases hrecv with ⟨rfl, _⟩ | ⟨op, rfl, _⟩
    · simp
    · simp
  | access isRead bar ev =>
    simp only [Spec.ioStep, hio, Spec.accessStep] at h
    split_ifs at h <;> cases h <;> simp
  | spin node size ev =>
    simp only [Spec.ioStep, hio, Spec.spinStep] at h
    split at h
    · cases h
      simp
    · exact absurd h (by simp)
  | reply r ev =>
    simp only [Spec.ioStep, hio] at h
    cases h
    simp
  | events ev stop =>
    simp only [Spec.ioStep, hio] at h
    split_ifs at h <;> cases h <;> simp
  | keys ks stop =>
    simp only [Spec.ioStep, hio, Spec.keyStep] at h
    split at h <;> cases h <;> simp
  | drain ms ks stop =>
    simp only [Spec.ioStep, hio, Spec.drainStep] at h
    split at h <;> cases h <;> simp
  | exited =>
    simp only [Spec.ioStep, hio] at h
    exact absurd h (by simp)

/-- A move of the io thread or the network. -/
def IsIoMove : Move → Prop
  | .deliver _ => True
  | .io _ _ _ => True
  | _ => False

theorem IsIoMove.keeps {x y : Spec} {a : Move} {e : Option Event} (ha : IsIoMove a)
    (h : Spec.act x a = some (y, e)) :
    y.ghdl = x.ghdl ∧ y.running = x.running ∧ (∀ r, e ≠ some (.poll r)) ∧
      ∀ d, e ≠ some (.reply d) := by
  cases a with
  | deliver k =>
    cases h
    simp
  | io node garbage batch => exact ioStep_keeps h
  | _ => exact ha.elim

/-- A step of the io thread or the network, as far as the GHDL thread sees it. -/
structure IoStep (x y : Spec) (s t : Board) (e : Option Event) : Prop where
  board : t = { s with glue := t.glue }
  ghdl : y.ghdl = x.ghdl
  access : AccessStep x y e
  noPoll : ∀ r, e ≠ some (.poll r)
  noReply : ∀ d, e ≠ some (.reply d)

/-! ### Steps of the GHDL thread -/

/-- All that a step of the GHDL thread can do. -/
inductive ClockStep (x y : Spec) (s t : Board) (e : Option Event) : Prop where
  | rise (hs : s.edge = none) (ht : t = { s with edge := some s.calls }) (hy : y = x)
      (he : e = none)
  | push (c : GlueCall) (cs : List GlueCall) (m : Content) (hs : s.edge = some (c :: cs))
      (hc : ∀ d, c ≠ .sendReply d) (hx : x.ghdl = .idle)
      (ht : t = { s with glue := t.glue, edge := some cs })
      (hy : y = { x with tx := x.tx ++ [m], ghdl := .pushed }) (he : e = some (.push m))
  | answer (d : BitVec 64) (cs : List GlueCall) (hs : s.edge = some (.sendReply d :: cs))
      (hx : x.ghdl = .idle) (hread : x.read = .pending)
      (ht : t = { s with glue := t.glue, edge := some cs })
      (hy : y = { x with read := .copied d, ghdl := .replied () }) (he : e = some (.reply d))
  | spurious (d : BitVec 64) (cs : List GlueCall) (hs : s.edge = some (.sendReply d :: cs))
      (hx : x.ghdl = .idle) (hread : x.read ≠ .pending)
      (ht : t = { s with glue := t.glue, edge := some cs }) (hy : y = x) (he : e = some (.reply d))
  | pollEmpty (hs : s.edge = some []) (hx : x.ghdl = .idle) (hrx : x.rx = [])
      (ht : t = s.endEdge t.glue (pollRxFifo s.ep.access []).1) (hy : y = x)
      (he : e = some (.poll (emptyResult none)))
  | pop (a : AccessView) (rx : List AccessView) (hs : s.edge = some []) (hx : x.ghdl = .idle)
      (hrx : x.rx = a :: rx) (ht : t = { s with glue := t.glue })
      (hy : y = { x with rx := rx, ghdl := .popped a }) (he : e = none)
  | popped (a : AccessView) (hs : s.edge = some []) (hx : x.ghdl = .popped a)
      (ht : t = s.endEdge t.glue a)
      (hy : y = { x with read := if a.isRead then .pending else x.read, ghdl := .idle })
      (he : e = some (.poll a.result))
  | wake (cs : List GlueCall) (hs : s.edge = some cs) (hx : x.ghdl = .pushed)
      (ht : t = { s with glue := t.glue })
      (hy : y = { x with pipe := x.pipe ++ [.push], ghdl := .idle }) (he : e = none)
  | replied (d : BitVec 64) (cs : List GlueCall) (hs : s.edge = some cs)
      (hx : x.ghdl = .replied ()) (hread : x.read = .copied d) (ht : t = { s with glue := t.glue })
      (hy : y = { x with read := .answered d, ghdl := .idle }) (he : e = none)

/-- The abstract glue beside the board: the GHDL thread is in a call only on an edge, and has popped
an access only once it has made the other calls. -/
structure Beside (accs : List GuestAccess) (log : List Event) (x : Spec) (s : Board) : Prop where
  joint : Joint accs log s.glue x
  running : x.running = true
  between : s.edge = none → x.ghdl = .idle
  hand : ∀ a, x.ghdl = .popped a → s.edge = some []

section Beside

variable {accs : List GuestAccess} {log : List Event} {x : Spec} {s t : Board}

theorem beside_init {dev : PcieDev (Fin barCount)} (hdev : HasHandlers dev) (buf : Mem)
    (accs : List GuestAccess) :
    Beside accs [] (Spec.init dev buf (accs.flatMap fun a => a.msg.encode))
      (Board.init dev buf (accs.flatMap fun a => a.msg.encode)) :=
  ⟨joint_init hdev buf accs, rfl, fun _ => rfl, fun _ ha => by cases ha⟩

/-- The two GHDL threads are in the same call. -/
theorem Beside.samePlace (h : Beside accs log x s) : SamePlace x.ghdl s.glue.ghdl := by
  obtain ⟨ds, rx, as, hR⟩ := h.joint.refines
  exact hR.ghdl

/-- What a move of the glue shows. -/
theorem event_of_act {g g' : GlueState} {a : Move} {e : Option Event}
    (h : Glue.act g a = some (g', e)) : Glue.event g a = e := by
  rw [Glue.event, h]
  rfl

/-- A move of the glue is one of the abstract glue. -/
theorem Beside.act (h : Beside accs log x s) {a : Move} {glue : GlueState} {e : Option Event}
    (hact : Glue.act s.glue a = some (glue, e)) :
    ∃ y, Spec.act x a = some (y, e) ∧ Joint accs (log ++ e.toList) glue y := by
  obtain ⟨y, hy, hR⟩ := act_refines h.joint.refines hact
  exact ⟨y, hy, h.joint.move hact hy hR⟩

/-- A move of the io thread or the network, in both. -/
theorem Beside.ioMove (h : Beside accs log x s) {a : Move} (ha : IsIoMove a) {glue : GlueState}
    {y : Spec} {e : Option Event} (hy : Spec.act x a = some (y, e))
    (hjoint : Joint accs (log ++ e.toList) glue y) :
    Beside accs (log ++ e.toList) y { s with glue := glue } ∧
      IoStep x y s { s with glue := glue } e := by
  obtain ⟨hghdl, hrunning, hpoll, hreply⟩ := ha.keeps hy
  refine ⟨⟨hjoint, hrunning.trans h.running, ?_, ?_⟩, rfl, hghdl, (Spec.act_cases hy).access, hpoll,
    hreply⟩
  · rw [hghdl]
    exact h.between
  · rw [hghdl]
    exact h.hand

/-- **The io thread and the network.** -/
theorem Beside.io (h : Beside accs log x s) {m : BoardMove} (hm : ¬m.IsClock)
    (hst : s.step m = some t) :
    ∃ y e, Beside accs (log ++ e.toList) y t ∧ IoStep x y s t e ∧
      (∃ a, IsIoMove a ∧ Spec.act x a = some (y, e)) ∧ e = s.event m := by
  have hmove : ∀ a glue, IsIoMove a → Glue.step s.glue a = some glue →
      ∃ y e, Beside accs (log ++ e.toList) y { s with glue := glue } ∧
        IoStep x y s { s with glue := glue } e ∧
        (∃ a, IsIoMove a ∧ Spec.act x a = some (y, e)) ∧ e = Glue.event s.glue a := by
    intro a glue ha hstep
    obtain ⟨e, hact, hevent⟩ := step_eq_some.mp hstep
    obtain ⟨y, hy, hjoint⟩ := h.act hact
    obtain ⟨hbeside, hio⟩ := h.ioMove ha hy hjoint
    exact ⟨y, e, hbeside, hio, ⟨a, ha, hy⟩, hevent.symm⟩
  cases m with
  | deliver k =>
    rw [Board.step] at hst
    obtain ⟨glue, hstep, rfl⟩ := Option.map_eq_some_iff.mp hst
    exact hmove (.deliver k) glue trivial hstep
  | io node garbage batch =>
    rw [Board.step] at hst
    obtain ⟨glue, hstep, rfl⟩ := Option.map_eq_some_iff.mp hst
    exact hmove (.io node garbage batch) glue trivial hstep
  | clock junk node => exact absurd trivial hm

/-- **They can make every such move of the abstract glue.** -/
theorem Beside.io_exists (h : Beside accs log x s) {a : Move} (ha : IsIoMove a) {y : Spec}
    {e : Option Event} (hy : Spec.act x a = some (y, e)) :
    ∃ m t, s.step m = some t ∧ Beside accs (log ++ e.toList) y t ∧ IoStep x y s t e := by
  obtain ⟨p, hp⟩ := h.joint.finite.exists_free
  obtain ⟨glue, hact, hR⟩ := act_matched h.joint.refines hp hy
  have hy' : Spec.act x (a.withNode p) = some (y, e) := by rw [Spec.act_withNode, hy]
  have hstep : Glue.step s.glue (a.withNode p) = some glue := by
    rw [Glue.step, hact]
    rfl
  have hboth := h.ioMove ha hy (h.joint.move hact hy' hR)
  cases a with
  | deliver k =>
    refine ⟨.deliver k, { s with glue := glue }, ?_, hboth⟩
    rw [Board.step, show Glue.step s.glue (.deliver k) = some glue from hstep, Option.map_some]
  | io node garbage batch =>
    refine ⟨.io p garbage batch, { s with glue := glue }, ?_, hboth⟩
    rw [Board.step, show Glue.step s.glue (.io p garbage batch) = some glue from hstep,
      Option.map_some]
  | _ => exact ha.elim

/-- The GHDL thread starts a call. -/
theorem Beside.startCall (h : Beside accs log x s) (hx : x.ghdl = .idle) {c : GlueCall}
    {cs : List GlueCall} (hs : s.edge = some (c :: cs)) {junk : Junk} {node : Ptr}
    (hst : s.call cs (callMove junk node c) = some t) :
    ∃ y e, Beside accs (log ++ e.toList) y t ∧ ClockStep x y s t e ∧
      e = Glue.event s.glue (callMove junk node c) := by
  obtain ⟨⟨glue, e⟩, hact, rfl⟩ := Option.map_eq_some_iff.mp hst
  obtain ⟨y, hy, hjoint⟩ := h.act hact
  have hevent := (event_of_act hact).symm
  have hpush : ∀ sc, Spec.act x (.push sc junk node)
      = some ({ x with tx := x.tx ++ [sc.msg junk], ghdl := .pushed },
        some (.push (sc.msg junk))) := by
    intro sc
    simp only [Spec.act, Spec.pushStep, hx]
  cases c with
  | sendMsi =>
    rw [callMove, hpush] at hy
    cases hy
    exact ⟨_, _, ⟨hjoint, h.running, (fun hnone => by cases hnone), (fun a ha => by cases ha)⟩,
      .push _ cs _ hs (fun d hd => by cases hd) hx rfl rfl rfl, hevent⟩
  | sendWrite addr data dataSize size =>
    rw [callMove, hpush] at hy
    cases hy
    exact ⟨_, _, ⟨hjoint, h.running, (fun hnone => by cases hnone), (fun a ha => by cases ha)⟩,
      .push _ cs _ hs (fun d hd => by cases hd) hx rfl rfl rfl, hevent⟩
  | sendReply d =>
    simp only [callMove, Spec.act, Spec.sendReplyStep, hx, logicToUint_vectorOf] at hy
    by_cases hread : x.read = .pending
    · simp only [hread] at hy
      cases hy
      exact ⟨_, _, ⟨hjoint, h.running, (fun hnone => by cases hnone), (fun a ha => by cases ha)⟩,
        .answer d cs hs hx hread rfl rfl rfl, hevent⟩
    · have hx' : y = x ∧ e = some (.reply d) := by
        cases hslot : x.read with
        | pending => exact absurd hslot hread
        | _ =>
          simp only [hslot] at hy
          cases hy
          exact ⟨rfl, rfl⟩
      obtain ⟨rfl, rfl⟩ := hx'
      refine ⟨y, _, ⟨hjoint, h.running, (fun hnone => by cases hnone), ?_⟩,
        .spurious d cs hs hx hread rfl rfl rfl, hevent⟩
      intro a ha
      rw [hx] at ha
      cases ha

/-- It starts the poll. -/
theorem Beside.startPoll (h : Beside accs log x s) (hx : x.ghdl = .idle) (hs : s.edge = some [])
    (hst : s.call [] .poll = some t) :
    ∃ y e, Beside accs (log ++ e.toList) y t ∧ ClockStep x y s t e ∧
      e = Glue.event s.glue .poll := by
  obtain ⟨⟨glue, e⟩, hact, rfl⟩ := Option.map_eq_some_iff.mp hst
  obtain ⟨y, hy, hjoint⟩ := h.act hact
  have hevent := (event_of_act hact).symm
  cases hrx : x.rx with
  | nil =>
    simp only [Spec.act, Spec.pollStep, hx, hrx] at hy
    cases hy
    refine ⟨x, _, ⟨hjoint, h.running, fun _ => hx, ?_⟩, .pollEmpty hs hx hrx ?_ rfl rfl, hevent⟩
    · intro a ha
      rw [hx] at ha
      cases ha
    · show s.endEdge glue (pollAccess s.ep.access (emptyResult none)) = _
      rw [pollAccess_empty]
      rfl
  | cons a rx =>
    simp only [Spec.act, Spec.pollStep, hx, hrx] at hy
    cases hy
    refine ⟨_, none, ⟨hjoint, h.running, (fun hnone => by cases hnone), fun _ _ => rfl⟩,
      .pop a rx hs hx hrx ?_ rfl rfl, hevent⟩
    show ({ s with glue := glue, edge := some [] } : Board) = { s with glue := glue }
    rw [← hs]

/-- It goes on with the call it is in. -/
theorem Beside.goOn (h : Beside accs log x s) (hx : x.ghdl ≠ .idle) {cs : List GlueCall}
    (hs : s.edge = some cs) (hst : s.call cs .ghdl = some t) :
    ∃ y e, Beside accs (log ++ e.toList) y t ∧ ClockStep x y s t e ∧
      e = Glue.event s.glue .ghdl := by
  obtain ⟨⟨glue, e⟩, hact, rfl⟩ := Option.map_eq_some_iff.mp hst
  obtain ⟨y, hy, hjoint⟩ := h.act hact
  have hevent := (event_of_act hact).symm
  have hsame : ({ s with glue := glue, edge := some cs } : Board) = { s with glue := glue } := by
    rw [← hs]
  cases hghdl : x.ghdl with
  | idle => exact absurd hghdl hx
  | joining => exact absurd hghdl (h.joint.live.running h.running).1
  | joined => exact absurd hghdl (h.joint.live.running h.running).2.1
  | pushed =>
    simp only [Spec.act, Spec.ghdlStep, hghdl] at hy
    cases hy
    exact ⟨_, none, ⟨hjoint, h.running, (fun hnone => by cases hnone), (fun a ha => by cases ha)⟩,
      .wake cs hs hghdl hsame rfl rfl, hevent⟩
  | replied =>
    obtain ⟨d, hd⟩ := h.joint.live.replied.mp hghdl
    simp only [Spec.act, Spec.ghdlStep, hghdl, Spec.repliedStep, hd] at hy
    cases hy
    exact ⟨_, none, ⟨hjoint, h.running, (fun hnone => by cases hnone), (fun a ha => by cases ha)⟩,
      .replied d cs hs hghdl hd hsame rfl rfl, hevent⟩
  | popped a =>
    obtain rfl : cs = [] := Option.some.inj (hs.symm.trans (h.hand a hghdl))
    simp only [Spec.act, Spec.ghdlStep, hghdl, Spec.poppedStep] at hy
    cases hy
    refine ⟨_, _, ⟨hjoint, h.running, fun _ => rfl, (fun a ha => by cases ha)⟩,
      .popped a hs hghdl ?_ rfl rfl, hevent⟩
    show s.endEdge glue (pollAccess s.ep.access a.result) = _
    rw [pollAccess_result]
    rfl

/-- The edge comes. -/
theorem Beside.rise (h : Beside accs log x s) (hs : s.edge = none) :
    Beside accs log x { s with edge := some s.calls } := by
  refine ⟨h.joint, h.running, fun hnone => (by cases hnone), ?_⟩
  intro a ha
  rw [h.between hs] at ha
  cases ha

/-- In a call the GHDL thread goes on with it. -/
theorem clock_busy {cs : List GlueCall} (hs : s.edge = some cs) (hg : s.glue.ghdl ≠ .idle)
    (junk : Junk) (node : Ptr) :
    s.clockStep junk node = s.call cs .ghdl ∧ s.glueMove (.clock junk node) = some .ghdl := by
  rw [Board.clockStep, Board.glueMove, hs]
  cases hghdl : s.glue.ghdl with
  | idle => exact absurd hghdl hg
  | _ => exact ⟨rfl, rfl⟩

/-- **The GHDL thread.** -/
theorem Beside.clock (h : Beside accs log x s) {junk : Junk} {node : Ptr}
    (hst : s.step (.clock junk node) = some t) :
    ∃ y e, Beside accs (log ++ e.toList) y t ∧ ClockStep x y s t e ∧
      e = s.event (.clock junk node) := by
  rw [Board.step] at hst
  rw [Board.event]
  cases hs : s.edge with
  | none =>
    rw [Board.clockStep] at hst
    rw [Board.glueMove]
    simp only [hs] at hst ⊢
    cases hst
    refine ⟨x, none, ?_, .rise hs rfl rfl rfl, rfl⟩
    rw [Option.toList_none, List.append_nil]
    exact h.rise hs
  | some cs =>
    by_cases hx : x.ghdl = .idle
    · rw [Board.clockStep] at hst
      rw [Board.glueMove]
      simp only [hs, samePlace_idle h.samePlace.symm hx] at hst ⊢
      cases cs with
      | nil => exact h.startPoll hx hs hst
      | cons c cs => exact h.startCall hx hs hst
    · have hg : s.glue.ghdl ≠ .idle := fun hg => hx (samePlace_idle h.samePlace hg)
      obtain ⟨hclock, hmove⟩ := clock_busy hs hg junk node
      rw [hclock] at hst
      rw [hmove]
      exact h.goOn hx hs hst

/-- **The GHDL thread can always go on.** -/
theorem Beside.clock_exists (h : Beside accs log x s) :
    ∃ junk node, (s.step (.clock junk node)).isSome := by
  obtain ⟨p, hp⟩ := h.joint.finite.exists_free
  -- the abstract glue can make the move, so the glue can
  have hmatched : ∀ a cs, (Spec.act x a).isSome → (s.call cs (a.withNode p)).isSome := by
    intro a cs hsome
    obtain ⟨⟨y, e⟩, hy⟩ := Option.isSome_iff_exists.mp hsome
    obtain ⟨glue, hact, -⟩ := act_matched h.joint.refines hp hy
    rw [Board.call, hact]
    rfl
  refine ⟨⟨0, 0⟩, p, ?_⟩
  rw [Board.step, Board.clockStep]
  cases hs : s.edge with
  | none => rfl
  | some cs =>
    by_cases hx : x.ghdl = .idle
    · simp only [samePlace_idle h.samePlace.symm hx]
      cases cs with
      | nil =>
        refine hmatched .poll [] ?_
        simp only [Spec.act, Spec.pollStep, hx]
        split <;> rfl
      | cons c cs =>
        have hpush : ∀ sc, (s.call cs (.push sc ⟨0, 0⟩ p)).isSome := by
          intro sc
          refine hmatched (.push sc ⟨0, 0⟩ p) cs ?_
          simp only [Spec.act, Spec.pushStep, hx]
          rfl
        cases c with
        | sendMsi => exact hpush _
        | sendWrite addr data dataSize size => exact hpush _
        | sendReply d =>
          refine hmatched (.sendReply (vector d)) cs ?_
          simp only [Spec.act, Spec.sendReplyStep, hx]
          split <;> rfl
    · have hghdl : (s.call cs .ghdl).isSome := by
        refine hmatched .ghdl cs ?_
        rw [Spec.act, Spec.ghdlStep]
        cases hghdl : x.ghdl with
        | idle => exact absurd hghdl hx
        | joining => rfl
        | joined => exact absurd hghdl (h.joint.live.running h.running).2.1
        | pushed => rfl
        | popped a => rfl
        | replied =>
          obtain ⟨d, hd⟩ := h.joint.live.replied.mp hghdl
          simp only [Spec.repliedStep, hd]
          rfl
      cases hg : s.glue.ghdl with
      | idle => exact absurd (samePlace_idle h.samePlace hg) hx
      | _ => exact hghdl

end Beside

end VPcie.Sbone
