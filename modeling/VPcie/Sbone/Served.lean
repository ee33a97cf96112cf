import VPcie.Glue.Transmit
import VPcie.Sbone.Answers

/-!
# What the host sees of sbone

The whole way of an access and of its reply, with the threads and the network in between: frame,
io thread, `rx_fifo`, endpoint, register, multiplexer, `reply_node`, reply frame.  What comes back
is what a register file replies that serves the accesses one after the other.

* `served` — this register file;
* `Serves` — what has been sent and what is on its way is what was served;
* `Interrupts` — the same for the messages of `reg_wo_msi`;
* `registers_served` — over every run, both.
-/

namespace VPcie.Sbone

open VPcie.Lib VPcie.Net VPcie.Glue
open VPcie.Device (PcieDev barCount barReply NetLoop onMsgRecv)
open VPcie.Vhdl (Req Endpoint EndpointIn GlueCall pollRxFifo)

/-! ### The register file -/

/-- The reply to a read of so many bytes of a register. -/
def cut (size : ℕ) (v : BitVec 64) : PcieNetReply := barReply (leBytes size v.toNat)

/-- The access is a read no register replies to. -/
def Unanswered (a : AccessView) : Prop := a.isRead = true ∧ ¬Answers a

instance (a : AccessView) : Decidable (Unanswered a) := inferInstanceAs (Decidable (_ ∧ _))

/-- The replies to a list of accesses, after others; a read that no register replies to is the last
access that is served. -/
def served : List AccessView → List AccessView → List PcieNetReply
  | _, [] => []
  | done, a :: as =>
    if Unanswered a then []
    else (replyTo done a).map (cut a.size.toNat) ++ served (done ++ [a]) as

/-- A write has no reply. -/
theorem replyTo_write (done : List AccessView) {a : AccessView} (ha : ¬a.isRead = true) :
    replyTo done a = [] := by
  rw [replyTo, if_neg fun hc => ha hc.1, if_neg fun hc => ha hc.1]

theorem replyTo_unanswered (done : List AccessView) {a : AccessView} (ha : Unanswered a) :
    replyTo done a = [] := by
  rw [replyTo, if_neg fun hc => ha.2 (Or.inl hc.2), if_neg fun hc => ha.2 (Or.inr hc.2)]

/-- **Accesses after others** are served if there is no read of anything else before them. -/
theorem served_append (done as bs : List AccessView) :
    served done (as ++ bs) = served done as ++
      if ∀ a ∈ as, ¬Unanswered a then served (done ++ as) bs else [] := by
  induction as generalizing done with
  | nil =>
    rw [if_pos fun a ha => absurd ha List.not_mem_nil, List.append_nil]
    rfl
  | cons a as ih =>
    rw [List.cons_append, served, served]
    by_cases ha : Unanswered a
    · rw [if_pos ha, if_pos ha, if_neg fun hall => hall a List.mem_cons_self ha]
      rfl
    · have hcons : (∀ b ∈ a :: as, ¬Unanswered b) ↔ ∀ b ∈ as, ¬Unanswered b := by
        rw [List.forall_mem_cons]
        exact and_iff_right ha
      rw [if_neg ha, if_neg ha, ih, if_congr hcons rfl rfl, List.append_assoc, List.append_assoc]
      rfl

theorem served_isInitial (done as bs : List AccessView) :
    served done as <+: served done (as ++ bs) := by
  rw [served_append]
  exact List.prefix_append _ _

/-- Nothing is served behind a read of anything else. -/
theorem served_stuck {as : List AccessView} (h : ¬∀ a ∈ as, ¬Unanswered a)
    (done bs : List AccessView) : served done (as ++ bs) = served done as := by
  rw [served_append, if_neg h, List.append_nil]

/-- One more access. -/
theorem served_snoc (as : List AccessView) (a : AccessView) : served [] (as ++ [a])
    = served [] as ++
      if ∀ b ∈ as, ¬Unanswered b then (replyTo as a).map (cut a.size.toNat) else [] := by
  rw [served_append]
  refine congrArg (served [] as ++ ·) (if_congr Iff.rfl ?_ rfl)
  rw [List.nil_append, served, served]
  by_cases ha : Unanswered a
  · rw [if_pos ha, replyTo_unanswered as ha]
    rfl
  · rw [if_neg ha, List.append_nil]

theorem allAnswer_iff (log : List Event) :
    AllAnswer log ↔ ∀ a ∈ polled log, ¬Unanswered a := by
  constructor
  · intro h a ha hun
    exact hun.2 (h a ha hun.1)
  · intro h a ha hread
    by_contra hno
    exact h a ha ⟨hread, hno⟩

/-! ### The replies in a trace and in a state -/

/-- The replies the io thread has sent. -/
def sentReplies (log : List Event) : List PcieNetReply :=
  log.filterMap fun
    | .sendReply r => some r
    | _ => none

theorem sentReplies_append (l l' : List Event) :
    sentReplies (l ++ l') = sentReplies l ++ sentReplies l' := List.filterMap_append

/-- The reply the io thread is about to send. -/
def heldReply {ν δ : Type} : IoPc ν δ → List PcieNetReply
  | .reply r _ => [r]
  | _ => []

/-- The values the read under way is to return, where `flight` is on its way to the glue. -/
def onTheWay (flight : List (BitVec 64)) : ReadSlot → List (BitVec 64)
  | .pending => flight
  | .copied d => [d]
  | .answered d => [d]
  | _ => []

/-- The replies of the accesses polled that have not been sent. -/
def unsent (x : Spec) (flight : List (BitVec 64)) : List PcieNetReply :=
  heldReply x.io ++ (onTheWay flight x.read).map (cut (x.io.readSize.getD 0))

section Unsent

variable {x y : Spec} {e : Option Event}

/-- The io thread neither waits for a value nor has a reply to send. -/
def Away {ν δ : Type} (io : IoPc ν δ) : Prop := heldReply io = [] ∧ io.readSize = none

/-- A step that concerns neither the read under way nor its reply. -/
theorem unsent_frame (hx : Away x.io) (hy : Away y.io) (hread : y.read = x.read)
    (he : sentReplies e.toList = []) (flight : List (BitVec 64)) :
    sentReplies e.toList ++ unsent y flight = unsent x flight := by
  rw [he, unsent, unsent, hx.1, hx.2, hy.1, hy.2, hread]
  rfl

theorem away_quiet {ν δ : Type} {io : IoPc ν δ} (h : io.Quiet) : Away io := by
  cases io <;> first | exact ⟨rfl, rfl⟩ | exact h.elim

/-- What is received of the host is no configuration access, so it has no reply yet. -/
theorem recv_unsent {accs rest : List GuestAccess} {log : List Event}
    (h : Delivery accs log x rest) {ev : Bool} {up : Stream} {loop : NetLoop (Fin barCount)}
    {io : IoPc Unit (List Content)} (hrecv : receive x.up x.loop ev = some (up, loop, io, e)) :
    Away io ∧ sentReplies e.toList = [] := by
  have he : sentReplies e.toList = [] := by
    rcases receive_cases hrecv with ⟨rfl, _⟩ | ⟨op, rfl, _⟩
    · rfl
    · rfl
  cases rest with
  | nil =>
    rw [receive_nil h.bytes] at hrecv
    exact absurd hrecv (by simp)
  | cons a rest =>
    have hbytes := h.bytes
    rw [List.flatMap_cons] at hbytes
    obtain ⟨-, -, -, isRead, bar, rfl, -⟩ := receive_access h.handlers a hbytes ev hrecv
    exact ⟨⟨rfl, rfl⟩, he⟩

/-- **The io thread** sends what it has copied and copies what was answered. -/
theorem unsent_io {accs rest : List GuestAccess} {log : List Event} {s t : Board}
    (h : SpecStep x y e) (hio : IoStep x y s t e) (hdel : Delivery accs log x rest)
    (hreads : ReadInv log x) (flight : List (BitVec 64)) :
    sentReplies e.toList ++ unsent y flight = unsent x flight := by
  have htrail := hreads.trail
  have hghdl := hio.ghdl
  have haway : ∀ {io : IoPc Unit (List Content)}, x.io = io → Away io → Away x.io :=
    fun hx hio => hx ▸ hio
  cases h with
  | deliver k => rfl
  | control io hx hy => exact unsent_frame (away_quiet hx) (away_quiet hy) (by rfl) (by rfl) flight
  | recv ev up loop io e hx hrecv =>
    obtain ⟨hrest, he⟩ := recv_unsent hdel hrecv
    exact unsent_frame (haway hx ⟨rfl, rfl⟩) hrest (by rfl) he flight
  | write bar ev hx hwidth =>
    exact unsent_frame (haway hx ⟨rfl, rfl⟩) ⟨rfl, rfl⟩ (by rfl) (by rfl) flight
  | read bar ev hx hwidth =>
    rw [hx] at htrail
    rw [unsent, unsent, hx, htrail.of_none.1]
    rfl
  | barReturn size ev data hx hread =>
    rw [unsent, unsent, hx, hread]
    rfl
  | reply r ev hx =>
    rw [hx] at htrail
    rw [unsent, unsent, hx, htrail.of_none.1]
    rfl
  | batch k stop hx | quit ks stop hx | detach ks stop hx | drainEnd ks stop hx
  | send m ms ks stop hx =>
    exact unsent_frame (haway hx ⟨rfl, rfl⟩) ⟨rfl, rfl⟩ (by rfl) (by rfl) flight
  | keysEnd stop hx =>
    refine unsent_frame (haway hx ⟨rfl, rfl⟩) ?_ (by rfl) (by rfl) flight
    exact away_quiet (loopEnd_quiet stop)
  | pollEmpty hx hrx => exact absurd rfl (hio.noPoll _)
  | spurious data hx hread => exact absurd rfl (hio.noReply _)
  | push m hx => exact absurd (hghdl.trans hx) (by simp)
  | wake hx => exact absurd (hghdl.trans hx) (by simp)
  | pop a rx hx hrx => exact absurd (hghdl.trans hx) (by simp)
  | popped a hx => exact absurd (hghdl.trans hx) (by simp)
  | answer data hx hread => exact absurd (hghdl.trans hx) (by simp)
  | replied data hx hread => exact absurd (hghdl.trans hx) (by simp)
  | join hx => exact absurd (hghdl.trans hx) (by simp)
  | joinKey hx => exact absurd (hghdl.trans hx) (by simp)

end Unsent

/-! ### What is served -/

/-- **What has been sent and what is on its way is what was served**, and the registers have what
was written last. -/
structure Serves (log : List Event) (x : Spec) (s : Board) : Prop where
  rw0 : (s.dev.edge s.req).rw0.data = lastWritten 0x10 (polled log)
  rw1 : (s.dev.edge s.req).rw1.data = lastWritten 0x18 (polled log)
  replies : sentReplies log ++ unsent x s.inFlight = served [] (polled log)

theorem serves_init (dev : PcieDev (Fin barCount)) (buf : Mem) (bytes : List Byte) :
    Serves [] (Spec.init dev buf bytes) (Board.init dev buf bytes) := ⟨rfl, rfl, rfl⟩

/-- No value is on its way when no read waits for one. -/
theorem Accounts.inFlight_nil {log : List Event} {x : Spec} {s : Board} (h : Accounts log x s)
    (hread : x.read ≠ .pending) : s.inFlight = [] := by
  by_cases hans : AllAnswer log
  · have hcount := h.answer hans
    rw [if_neg hread] at hcount
    exact List.length_eq_zero_iff.mp hcount
  · exact (h.stuck hans).1

section Serves

variable {accs : List GuestAccess} {log : List Event} {x y : Spec} {s t : Board} {e : Option Event}

/-- A step that pops nothing and clocks nothing. -/
theorem Serves.keep (h : Serves log x s) (hdev : t.dev = s.dev) (hreq : t.req = s.req)
    (hpolled : polled e.toList = [])
    (hunsent : sentReplies e.toList ++ unsent y t.inFlight = unsent x s.inFlight) :
    Serves (log ++ e.toList) y t := by
  have hlog : polled (log ++ e.toList) = polled log := by
    rw [polled_append, hpolled, List.append_nil]
  refine ⟨?_, ?_, ?_⟩
  · rw [hdev, hreq, hlog]
    exact h.rw0
  · rw [hdev, hreq, hlog]
    exact h.rw1
  · rw [sentReplies_append, List.append_assoc, hunsent, hlog]
    exact h.replies

theorem Serves.io (h : Serves log x s) (hsound : Sound accs log x s) (hstep : SpecStep x y e)
    (hio : IoStep x y s t e) : Serves (log ++ e.toList) y t := by
  obtain ⟨rest, hdel⟩ := hsound.beside.joint.delivery
  rw [hio.board]
  exact h.keep rfl rfl hio.polled_nil
    (unsent_io hstep hio hdel hsound.beside.joint.reads s.inFlight)

/-- The registers, on the edge that pops an access. -/
theorem rw_popped (d : Dev) {r : Req} {a : AccessView} (hhost : HostAccess a) {data : BitVec 64}
    (hr : r = Req.ofAccess a data) {as : List AccessView} (hrw0 : d.rw0.data = lastWritten 0x10 as)
    (hrw1 : d.rw1.data = lastWritten 0x18 as) :
    (d.edge r).rw0.data = lastWritten 0x10 (as ++ [a]) ∧
      (d.edge r).rw1.data = lastWritten 0x18 (as ++ [a]) := by
  subst hr
  constructor
  · show (d.rw0.clock (selects 0x10 _) (Req.ofAccess a data).wr (Req.ofAccess a data).data).data = _
    rw [clock_data, data_ofAccess 0x10 hhost, lastWritten_snoc, hrw0]
  · show (d.rw1.clock (selects 0x18 _) (Req.ofAccess a data).wr (Req.ofAccess a data).data).data = _
    rw [clock_data, data_ofAccess 0x18 hhost, lastWritten_snoc, hrw1]

/-- With no request they keep their values. -/
theorem rw_idle (d : Dev) {r : Req} (hr : r.en = false) :
    (d.edge r).rw0.data = d.rw0.data ∧ (d.edge r).rw1.data = d.rw1.data := by
  constructor
  · show (d.rw0.clock (selects 0x10 r) r.wr r.data).data = _
    rw [selects_idle 0x10 hr]
    rfl
  · show (d.rw1.clock (selects 0x18 r) r.wr r.data).data = _
    rw [selects_idle 0x18 hr]
    rfl

/-- **An access is popped**, and the reply it asks for is on its way. -/
theorem Serves.popped (h : Serves log x s) (hsound : Sound accs log x s) {a : AccessView}
    (hhost : HostAccess a) (hs : s.edge = some []) (hx : x.ghdl = .popped a)
    (ht : t = s.endEdge t.glue a)
    (hy : y = { x with read := if a.isRead then .pending else x.read, ghdl := .idle }) :
    Serves (log ++ [.poll a.result]) y t := by
  have haccounts := hsound.accounts
  have htrail := hsound.beside.joint.reads.trail
  rw [Spec.queue_popped hx] at htrail
  have hlog : polled (log ++ [.poll a.result]) = polled log ++ [a] := by
    rw [polled_append, polled_result hhost.size]
  have hreq : t.req = Req.ofAccess a s.req.data := by
    rw [ht, endEdge_req, if_neg hhost.size]
  have hdev : t.dev = s.dev.edge s.req := by
    rw [ht]
    rfl
  have hrw := rw_popped t.dev hhost hreq (by rw [hdev]; exact h.rw0) (by rw [hdev]; exact h.rw1)
  have hflight : t.inFlight = s.inFlight ++ replyTo (polled log) a := by
    rw [← reqReply_ofAccess hhost s.req.data h.rw0 h.rw1, ← hreq, ← hdev]
    conv_lhs => rw [ht, endEdge_inFlight _ _ _ haccounts.one hs]
    rw [← ht, ← hdev]
  refine ⟨hlog ▸ hrw.1, hlog ▸ hrw.2, ?_⟩
  have hsent : sentReplies (log ++ [.poll a.result]) = sentReplies log := by
    rw [sentReplies_append]
    exact List.append_nil _
  have hold := h.replies
  rw [hlog, hsent, served_snoc, ← hold, List.append_assoc, hy]
  refine congrArg (sentReplies log ++ ·) ?_
  by_cases ha : a.isRead = true
  · -- it is the only read, and the last access that was queued
    have hqueued := htrail.queued_of_read ha
    have hnil := haccounts.inFlight_nil (by rw [hqueued]; simp)
    have hall : ∀ b ∈ polled log, ¬Unanswered b := by
      refine (allAnswer_iff log).mp ?_
      by_contra hnot
      exact absurd (hqueued.symm.trans (haccounts.stuck hnot).2) (by simp)
    rw [hqueued] at htrail
    cases htrail with
    | queued l₀ b l₁ ws hb hread hl₁ hqueue hws hsize =>
      obtain ⟨rfl, rfl⟩ : ws = [] ∧ a = b := by
        cases ws with
        | nil => exact ⟨rfl, (List.cons.inj hqueue).1⟩
        | cons c ws =>
          have hc := hws c List.mem_cons_self
          rw [← (List.cons.inj hqueue).1, ha] at hc
          cases hc
      rw [if_pos hall, hflight, hnil, List.nil_append]
      simp only [unsent, if_pos ha, onTheWay, hqueued, hsize, Option.getD_some, List.map_nil,
        List.append_nil]
  · have hreply := replyTo_write (polled log) ha
    rw [hreply, List.append_nil] at hflight
    rw [hreply, hflight]
    simp only [unsent, if_neg ha, List.map_nil, ite_self, List.append_nil]

/-- **The GHDL thread** serves what it pops. -/
theorem Serves.clock (h : Serves log x s) (hsound : Sound accs log x s)
    (hstep : ClockStep x y s t e) : Serves (log ++ e.toList) y t := by
  have hhost := hsound.host
  have haccounts := hsound.accounts
  cases hstep with
  | rise hs ht hy he =>
    have hcalls : Sbone.replies s.calls = s.dev.mux.reply := calls_replies _
    rw [ht, hy, he]
    refine h.keep rfl rfl rfl ?_
    rw [Board.inFlight, Board.inFlight, Board.toSend, Board.toSend, hs]
    simp only [hcalls]
    rfl
  | push c cs m hs hc hx ht hy he =>
    rw [ht, hy, he]
    refine h.keep rfl rfl rfl ?_
    rw [Board.inFlight, Board.inFlight, Board.toSend, Board.toSend, hs]
    simp only [replies_cons_other hc]
    rfl
  | answer d cs hs hx hread ht hy he =>
    -- the value that was on its way is the only one
    have hflight : s.inFlight = [d] := by
      have hcons : s.inFlight = d :: t.inFlight := by
        rw [ht, Board.inFlight, Board.inFlight, Board.toSend, Board.toSend, hs]
        rfl
      have hans : AllAnswer log := by
        by_contra hnot
        rw [(haccounts.stuck hnot).1] at hcons
        exact absurd hcons (by simp)
      have hcount := haccounts.answer hans
      rw [hcons, hread, if_pos rfl, List.length_cons] at hcount
      rw [hcons, List.length_eq_zero_iff.mp (Nat.succ.inj hcount)]
    rw [ht, he]
    refine h.keep rfl rfl rfl ?_
    rw [hy, unsent, unsent, hread, hflight]
    rfl
  | spurious d cs hs hx hread ht hy he =>
    have hnil := haccounts.inFlight_nil hread
    rw [Board.inFlight, Board.toSend, hs] at hnil
    exact absurd hnil (List.cons_ne_nil _ _)
  | pollEmpty hs hx hrx ht hy he =>
    have hreq : t.req.en = false := by
      rw [ht, endEdge_req]
      rfl
    have hdev : t.dev = s.dev.edge s.req := by
      rw [ht]
      rfl
    have hflight : t.inFlight = s.inFlight := by
      rw [ht, endEdge_inFlight _ _ _ haccounts.one hs, endEdge_req]
      show s.inFlight ++ reqReply _ (Req.none _) = _
      rw [reqReply_idle _ rfl, List.append_nil]
    have hrw := rw_idle t.dev hreq
    have hlog : polled (log ++ e.toList) = polled log := by
      rw [he, polled_append, Option.toList_some, polled_empty, List.append_nil]
    have hsent : sentReplies (log ++ e.toList) = sentReplies log := by
      rw [he, sentReplies_append]
      exact List.append_nil _
    refine ⟨?_, ?_, ?_⟩
    · rw [hrw.1, hdev, hlog, h.rw0]
    · rw [hrw.2, hdev, hlog, h.rw1]
    · rw [hlog, hsent, hflight, hy, h.replies]
  | pop a rx hs hx hrx ht hy he =>
    rw [ht, hy, he]
    exact h.keep rfl rfl rfl rfl
  | popped a hs hx ht hy he =>
    rw [he]
    exact h.popped hsound (hhost a (Spec.queue_popped hx ▸ List.mem_cons_self)) hs hx ht hy
  | wake cs hs hx ht hy he =>
    rw [ht, hy, he]
    exact h.keep rfl rfl rfl rfl
  | replied d cs hs hx hread ht hy he =>
    rw [ht, he]
    refine h.keep rfl rfl rfl ?_
    rw [hy, unsent, unsent, hread]
    rfl

end Serves

/-! ### The interrupts -/

/-- The calls of `glue_send_msi` that are due. -/
def Board.msisDue (s : Board) : ℕ :=
  match s.edge with
  | none => if s.dev.msi.msiEn then 1 else 0
  | some cs => msis cs

/-- **What has been pushed and what is due is what the writes of `reg_wo_msi` ask for**, and nothing
else is pushed. -/
structure Interrupts (log : List Event) (s : Board) : Prop where
  count : (pushed log).length + s.msisDue + (if writes 0x20 s.req then 1 else 0)
    = msiWrites (polled log)
  kind : ∀ m ∈ pushed log, m.op = opMsi
  calls : ∀ cs, s.edge = some cs → ∀ c ∈ cs, c = .sendMsi ∨ ∃ d, c = .sendReply d

theorem interrupts_init (dev : PcieDev (Fin barCount)) (buf : Mem) (bytes : List Byte) :
    Interrupts [] (Board.init dev buf bytes) :=
  ⟨rfl, fun _ hm => absurd hm List.not_mem_nil, fun _ hcs => by cases hcs⟩

/-- The endpoint of sbone makes no DMA write. -/
theorem calls_kinds (s : Board) : ∀ c ∈ s.calls, c = .sendMsi ∨ ∃ d, c = .sendReply d := by
  intro c hc
  unfold Board.calls System.calls EndpointIn.calls at hc
  simp only [List.mem_append, List.mem_ite_nil_right, List.mem_singleton] at hc
  rcases hc with (⟨-, rfl⟩ | ⟨hno, -⟩) | ⟨-, rfl⟩
  · exact Or.inl rfl
  · exact absurd hno (by decide)
  · exact Or.inr ⟨_, rfl⟩

section Interrupts

variable {accs : List GuestAccess} {log : List Event} {x y : Spec} {s t : Board} {e : Option Event}

/-- A step that pushes nothing and clocks nothing. -/
theorem Interrupts.keep (h : Interrupts log s) (hreq : t.req = s.req) (hdue : t.msisDue = s.msisDue)
    (hcalls : ∀ cs, t.edge = some cs → ∀ c ∈ cs, c = .sendMsi ∨ ∃ d, c = .sendReply d)
    (hpolled : polled e.toList = []) (hpushed : pushed e.toList = []) :
    Interrupts (log ++ e.toList) t := by
  have hlog : polled (log ++ e.toList) = polled log := by
    rw [polled_append, hpolled, List.append_nil]
  have hpush : pushed (log ++ e.toList) = pushed log := by
    rw [pushed_append, hpushed, List.append_nil]
  refine ⟨?_, ?_, hcalls⟩
  · rw [hpush, hdue, hreq, hlog]
    exact h.count
  · rw [hpush]
    exact h.kind

/-- The io thread and the network push nothing. -/
theorem IoStep.pushed_nil (h : IoStep x y s t e) (hstep : SpecStep x y e) :
    pushed e.toList = [] := by
  cases hstep.tx with
  | frame htx hdr hkeys hpushed hjoined he => exact (neutral_toList he []).1
  | push m htx hdr hkeys hghdl hghdl' he =>
    exact absurd (hghdl'.symm.trans (h.ghdl.trans hghdl)) (by simp)
  | _ =>
    rename_i he
    rw [he]
    rfl

theorem Interrupts.io (h : Interrupts log s) (hstep : SpecStep x y e) (hio : IoStep x y s t e) :
    Interrupts (log ++ e.toList) t := by
  rw [hio.board]
  exact h.keep rfl rfl h.calls hio.polled_nil (hio.pushed_nil hstep)

/-- What `glue_send_msi` pushes. -/
theorem msi_event {glue : GlueState} {junk : Junk} {node : Ptr} {m : Content}
    (h : some (.push m) = Glue.event glue (callMove junk node .sendMsi)) : m.op = opMsi := by
  rw [callMove, Glue.event, Glue.act, Glue.pushStep] at h
  split at h
  · split at h
    · cases h
      rfl
    · cases h
  · cases h

/-- The calls that are left are among those there were. -/
theorem Interrupts.tail (h : Interrupts log s) {c : GlueCall} {cs : List GlueCall}
    (hs : s.edge = some (c :: cs)) :
    ∀ cs', some cs = some cs' → ∀ c ∈ cs', c = .sendMsi ∨ ∃ d, c = .sendReply d := by
  rintro _ ⟨rfl⟩ c' hc'
  exact h.calls _ hs c' (List.mem_cons_of_mem c hc')

/-- A call of `glue_send_msi` pushes what was due. -/
theorem Interrupts.push (h : Interrupts log s) {c : GlueCall} {cs : List GlueCall} {m : Content}
    (hs : s.edge = some (c :: cs)) (hc : c = .sendMsi) (hm : m.op = opMsi) (hreq : t.req = s.req)
    (ht : t.edge = some cs) : Interrupts (log ++ [.push m]) t := by
  have hcount := h.count
  simp only [Board.msisDue, hs, hc, msis, List.count_cons_self] at hcount
  have hpush : pushed (log ++ [.push m]) = pushed log ++ [m] := pushed_append ..
  have hlog : polled (log ++ [.push m]) = polled log := by
    rw [polled_append]
    exact List.append_nil _
  refine ⟨?_, ?_, ?_⟩
  · rw [hpush, hlog, ← hcount, hreq, Board.msisDue, ht, List.length_append, List.length_singleton]
    show _ + 1 + List.count .sendMsi cs + (if writes 0x20 s.req then 1 else 0) = _
    omega
  · rw [hpush]
    intro m' hm'
    rcases List.mem_append.mp hm' with hmem | hmem
    · exact h.kind m' hmem
    · rw [List.mem_singleton.mp hmem]
      exact hm
  · rw [ht]
    exact h.tail hs

/-- An edge ends, and the request goes into the registers: what it asks for is due, and what has
been polled asks for the next. -/
theorem Interrupts.endEdge (h : Interrupts log s) (hs : s.edge = some []) {glue : GlueState}
    {a : AccessView} (hpushed : pushed e.toList = [])
    (hpolled : msiWrites (polled log ++ polled e.toList)
      = msiWrites (polled log) + if writes 0x20 (s.endEdge glue a).req then 1 else 0) :
    Interrupts (log ++ e.toList) (s.endEdge glue a) := by
  have hpush : pushed (log ++ e.toList) = pushed log := by
    rw [pushed_append, hpushed, List.append_nil]
  have hdue : (s.endEdge glue a).msisDue = if writes 0x20 s.req then 1 else 0 := by
    show (if (s.dev.edge s.req).msi.msiEn then 1 else 0) = _
    rw [edge_msi]
  refine ⟨?_, hpush ▸ h.kind, fun cs hcs => by cases hcs⟩
  rw [hpush, polled_append, hpolled, ← h.count, hdue, Board.msisDue, hs]
  rfl

theorem Interrupts.clock (h : Interrupts log s) (hsound : Sound accs log x s)
    (hstep : ClockStep x y s t e) {junk : Junk} {node : Ptr}
    (hevent : e = s.event (.clock junk node)) : Interrupts (log ++ e.toList) t := by
  cases hstep with
  | rise hs ht hy he =>
    rw [ht, he]
    refine h.keep rfl ?_ ?_ rfl rfl
    · rw [Board.msisDue, Board.msisDue, hs]
      exact calls_msis _
    · rintro _ ⟨rfl⟩
      exact calls_kinds s
  | push c cs m hs hc hx ht hy he =>
    obtain rfl : c = .sendMsi := by
      rcases h.calls _ hs c List.mem_cons_self with hmsi | ⟨d, hd⟩
      · exact hmsi
      · exact absurd hd (hc d)
    have hm : m.op = opMsi := by
      have hidle := samePlace_idle hsound.beside.samePlace.symm hx
      rw [he, Board.event, Board.glueMove, hs] at hevent
      simp only [hidle] at hevent
      exact msi_event hevent
    rw [ht, he]
    exact h.push hs rfl hm rfl rfl
  | answer d cs hs hx hread ht hy he =>
    rw [ht, he]
    refine h.keep rfl ?_ (h.tail hs) rfl rfl
    rw [Board.msisDue, Board.msisDue, hs]
    rfl
  | spurious d cs hs hx hread ht hy he =>
    rw [ht, he]
    refine h.keep rfl ?_ (h.tail hs) rfl rfl
    rw [Board.msisDue, Board.msisDue, hs]
    rfl
  | pollEmpty hs hx hrx ht hy he =>
    have hpolled : polled e.toList = [] := by rw [he, Option.toList_some, polled_empty]
    rw [ht]
    refine h.endEdge hs (by rw [he]; rfl) ?_
    rw [hpolled, List.append_nil, endEdge_req]
    show _ = _ + if writes 0x20 (Req.none _) then 1 else 0
    rw [writes_eq, selects_none, Bool.false_and]
    rfl
  | pop a rx hs hx hrx ht hy he =>
    rw [ht, he]
    exact h.keep rfl rfl h.calls rfl rfl
  | popped a hs hx ht hy he =>
    have ha := hsound.host a (Spec.queue_popped hx ▸ List.mem_cons_self)
    have hpolled : polled e.toList = [a] := by
      rw [he, Option.toList_some, polled_result ha.size]
    rw [ht]
    refine h.endEdge hs (by rw [he]; rfl) ?_
    rw [hpolled, msiWrites_snoc, endEdge_req, if_neg ha.size, writes_ofAccess 0x20 ha]
  | wake cs hs hx ht hy he =>
    rw [ht, he]
    exact h.keep rfl rfl h.calls rfl rfl
  | replied d cs hs hx hread ht hy he =>
    rw [ht, he]
    exact h.keep rfl rfl h.calls rfl rfl

/-- The queue of messages, over a step of the GHDL thread. -/
theorem ClockStep.tx (h : ClockStep x y s t e) : TxStep x y e := by
  cases h with
  | rise hs ht hy he =>
    exact .frame (by rw [hy]) (by rw [hy]) (by rw [hy]) (by rw [hy]) (by rw [hy]) (by simp [he])
  | push c cs m hs hc hx ht hy he =>
    exact .push m (by rw [hy]) (by rw [hy]) (by rw [hy]; rfl) hx (by rw [hy]) he
  | answer d cs hs hx hread ht hy he =>
    exact .frame (by rw [hy]) (by rw [hy]) (by rw [hy]; rfl) (by simp [hy, hx]) (by simp [hy, hx])
      (by simp [he, Event.Neutral])
  | spurious d cs hs hx hread ht hy he =>
    exact .frame (by rw [hy]) (by rw [hy]) (by rw [hy]) (by rw [hy]) (by rw [hy])
      (by simp [he, Event.Neutral])
  | pollEmpty hs hx hrx ht hy he =>
    exact .frame (by rw [hy]) (by rw [hy]) (by rw [hy]) (by rw [hy]) (by rw [hy])
      (by simp [he, Event.Neutral])
  | pop a rx hs hx hrx ht hy he =>
    exact .frame (by rw [hy]) (by rw [hy]) (by rw [hy]; rfl) (by simp [hy, hx]) (by simp [hy, hx])
      (by simp [he])
  | popped a hs hx ht hy he =>
    exact .frame (by rw [hy]) (by rw [hy]) (by rw [hy]; rfl) (by simp [hy, hx]) (by simp [hy, hx])
      (by simp [he, Event.Neutral])
  | wake cs hs hx ht hy he =>
    refine .wake (by rw [hy]) (by rw [hy]) ?_ hx (by rw [hy]) he
    rw [hy, Spec.pending, Spec.pending, List.append_assoc]
  | replied d cs hs hx hread ht hy he =>
    exact .frame (by rw [hy]) (by rw [hy]) (by rw [hy]; rfl) (by simp [hy, hx]) (by simp [hy, hx])
      (by simp [he])

end Interrupts

/-! ### Over every run -/

/-- The io thread receives only when something has arrived. -/
def Receptive (x : Spec) : Prop := ∀ ev, x.io = .recv ev → x.up.arrived ≠ []

/-- The abstract glue beside the board, and all accounts. -/
structure Service (accs : List GuestAccess) (log : List Event) (x : Spec) (s : Board) : Prop where
  sound : Sound accs log x s
  serves : Serves log x s
  interrupts : Interrupts log s
  tx : TxInv log x
  receptive : Receptive x

theorem service_init {dev : PcieDev (Fin barCount)} (hdev : HasHandlers dev) (buf : Mem)
    (accs : List GuestAccess) :
    Service accs [] (Spec.init dev buf (accs.flatMap fun a => a.msg.encode))
      (Board.init dev buf (accs.flatMap fun a => a.msg.encode)) :=
  ⟨sound_init hdev buf accs, serves_init dev buf _, interrupts_init dev buf _,
    txInv_init dev buf _, fun _ hio => by cases hio⟩

/-- A message that is received has been received. -/
theorem receive_ne_recv {ν δ : Type} {up up' : Stream} {loop loop' : NetLoop (Fin barCount)}
    {ev ev' : Bool} {io : IoPc ν δ} {e : Option Event}
    (h : receive up loop ev = some (up', loop', io, e)) : io ≠ .recv ev' := by
  unfold receive at h
  cases hrecv : pcieNetRecvMsg up.rx loop.msg with
  | wait => simp [hrecv] at h
  | error rest =>
    simp only [hrecv] at h
    cases h
    simp
  | ok n buf rest =>
    simp only [hrecv] at h
    cases hdisp : onMsgRecv loop.dev (PcieNetMsg.ofBuf buf) <;> simp only [hdisp] at h <;>
      cases h <;> simp

/-- Only `select` starts to receive. -/
theorem Receptive.ioMove {x y : Spec} {a : Move} {e : Option Event} (h : Receptive x)
    (ha : IsIoMove a) (hy : Spec.act x a = some (y, e)) : Receptive y := by
  cases a with
  | deliver k =>
    cases hy
    intro ev hio
    exact List.append_ne_nil_of_left_ne_nil (h ev hio) _
  | io node garbage batch =>
    intro ev' hrecv'
    change Spec.ioStep x batch = some (y, e) at hy
    cases hio : x.io with
    | check =>
      simp only [Spec.ioStep, hio] at hy
      cases hy
      cases hrun : x.running <;> simp [hrun] at hrecv'
    | select =>
      simp only [Spec.ioStep, hio] at hy
      split_ifs at hy with harrived hev
      · cases hy
        exact harrived
      · cases hy
        cases hrecv'
    | recv ev =>
      simp only [Spec.ioStep, hio] at hy
      obtain ⟨⟨up, loop, io, e'⟩, hrecv, heq⟩ := Option.map_eq_some_iff.mp hy
      cases heq
      exact absurd hrecv' (receive_ne_recv hrecv)
    | access isRead bar ev =>
      simp only [Spec.ioStep, hio, Spec.accessStep] at hy
      cases isRead <;> split_ifs at hy <;> cases hy <;> cases hrecv'
    | spin node size ev =>
      simp only [Spec.ioStep, hio, Spec.spinStep] at hy
      cases hread : x.read with
      | answered d =>
        simp only [hread] at hy
        cases hy
        cases hrecv'
      | _ => simp [hread] at hy
    | reply r ev =>
      simp only [Spec.ioStep, hio] at hy
      cases hy
      cases hrecv'
    | events ev stop =>
      simp only [Spec.ioStep, hio] at hy
      split_ifs at hy
      · cases hy
        cases hrecv'
      · cases hy
        cases stop <;> cases hrecv'
    | keys ks stop =>
      simp only [Spec.ioStep, hio, Spec.keyStep] at hy
      split at hy <;> cases hy
      · cases stop <;> cases hrecv'
      · cases hrecv'
      · cases hrecv'
    | drain ms ks stop =>
      simp only [Spec.ioStep, hio, Spec.drainStep] at hy
      split at hy <;> cases hy <;> cases hrecv'
    | exited => simp [Spec.ioStep, hio] at hy
  | _ => exact ha.elim

/-- The GHDL thread receives nothing. -/
theorem Receptive.clock {x y : Spec} {s t : Board} {e : Option Event} (h : Receptive x)
    (hstep : ClockStep x y s t e) : Receptive y := by
  cases hstep <;> rename_i hy _ <;> rw [hy] <;> exact h

theorem txInv_step {x y : Spec} {log : List Event} {e : Option Event} (h : TxInv log x)
    (hstep : TxStep x y e) : TxInv (log ++ e.toList) y :=
  ⟨hstep.conserved h.conserved, hstep.awake h.awake, hstep.quitLast h.awake h.quitLast⟩

/-- **Step lemma.**  The log grows by what the step shows. -/
theorem Service.step {accs : List GuestAccess} {log : List Event} {x : Spec} {s t : Board}
    (h : Service accs log x s) {m : BoardMove} (hst : s.step m = some t) :
    ∃ y, Service accs (log ++ (s.event m).toList) y t := by
  have hreads := h.sound.beside.joint.reads
  by_cases hm : m.IsClock
  · cases m with
    | clock junk node =>
      obtain ⟨y, e, hbeside, hstep, rfl⟩ := h.sound.beside.clock hst
      exact ⟨y, ⟨hbeside, hstep.accounts h.sound.host hreads h.sound.accounts⟩,
        h.serves.clock h.sound hstep, h.interrupts.clock h.sound hstep rfl,
        txInv_step h.tx hstep.tx, h.receptive.clock hstep⟩
    | _ => exact hm.elim
  · obtain ⟨y, e, hbeside, hio, ⟨a, ha, hy⟩, rfl⟩ := h.sound.beside.io hm hst
    have hstep := Spec.act_cases hy
    exact ⟨y, ⟨hbeside, hio.accounts hreads h.sound.accounts⟩, h.serves.io h.sound hstep hio,
      h.interrupts.io hstep hio, txInv_step h.tx hstep.tx, h.receptive.ioMove ha hy⟩

section Run

variable {accs : List GuestAccess} {log : List Event} {x : Spec} {s t : Board}

/-- **Run lemma.** -/
theorem run_service {dev : PcieDev (Fin barCount)} (hdev : HasHandlers dev) {buf : Mem}
    {moves : List BoardMove}
    (hrun : run Board.step (Board.init dev buf (accs.flatMap fun a => a.msg.encode)) moves
      = some t) :
    ∃ x, Service accs (trace Board.step Board.event
      (Board.init dev buf (accs.flatMap fun a => a.msg.encode)) moves) x t :=
  trace_invariant (fun log t => ∃ x, Service accs log x t)
    (fun _ _ _ _ ⟨_, h⟩ hst => h.step hst) ⟨_, service_init hdev buf accs⟩ hrun

/-- The writes of `reg_wo_msi` among the first accesses are no more than among all. -/
theorem msiWrites_le {as bs : List AccessView} (h : as <+: bs) : msiWrites as ≤ msiWrites bs :=
  h.sublist.countP_le

theorem Service.replies_isInitial (h : Service accs log x s) :
    sentReplies log <+: served [] (accs.map GuestAccess.view) := by
  obtain ⟨rest, hrest⟩ := h.sound.beside.joint.polled_prefix
  rw [← hrest]
  exact List.IsPrefix.trans ⟨_, h.serves.replies⟩ (served_isInitial [] (polled log) rest)

theorem Service.sent_isInitial (h : Service accs log x s) : sent log <+: pushed log := by
  refine ⟨x.io.draining ++ x.tx, ?_⟩
  rw [h.tx.conserved.pushed, h.tx.conserved.taken, List.append_assoc]

theorem Service.sent_msis (h : Service accs log x s) :
    (∀ m ∈ sent log, m.op = opMsi) ∧
      (sent log).length ≤ msiWrites (accs.map GuestAccess.view) := by
  have hpre := h.sent_isInitial
  have hcount := h.interrupts.count
  have hle := msiWrites_le h.sound.beside.joint.polled_prefix
  have hlen := hpre.length_le
  exact ⟨fun m hm => h.interrupts.kind m (hpre.subset hm), by omega⟩

end Run

/-- **sbone is a register file.**  Over every run of the io thread, the GHDL thread and the network,
from the frames of a list of accesses of the host: the reply frames that have been sent are a prefix
of what a register file replies that serves the accesses one after the other, up to the first read
no register replies to; and every message that has been sent is an interrupt, of which there are at
most as many as writes of `reg_wo_msi`. -/
theorem registers_served (mem : PcieDev (Fin barCount)) (vendorId deviceId : BitVec 16)
    (size : Fin barCount → BitVec 64) (buf : Mem) (accs : List (Mem × GuestAccess))
    (moves : List BoardMove) (t : Board)
    (hrun : run Board.step (Board.init (glueDev mem vendorId deviceId size) buf
      (accs.flatMap fun p => (p.2.send p.1).2)) moves = some t) :
    let log := trace Board.step Board.event (Board.init (glueDev mem vendorId deviceId size) buf
      (accs.flatMap fun p => (p.2.send p.1).2)) moves
    let views := accs.map fun p => p.2.view
    sentReplies log <+: served [] views ∧ (∀ m ∈ sent log, m.op = opMsi) ∧
      (sent log).length ≤ msiWrites views := by
  rw [flatMap_send] at hrun ⊢
  obtain ⟨x, h⟩ := run_service (glueDev_hasHandlers mem vendorId deviceId size) hrun
  have hreplies := h.replies_isInitial
  have hmsis := h.sent_msis
  rw [List.map_map] at hreplies hmsis
  exact ⟨hreplies, hmsis⟩

/-- A write of four bytes to `sbone_reg_rw_0`, and a read of two of them. -/
def writeReadBack : List (Mem × GuestAccess) :=
  [(fun _ => 0, .write 1 0x10 .four 0x1122334455667788), (fun _ => 0, .read 1 0x10 .two)]

/-- The write comes in and is popped, then the read; its reply is sent. -/
def readBackMoves : List BoardMove :=
  .deliver 34 :: (List.replicate 5 (.io 0 (fun _ => 0) 1) ++
    (List.replicate 5 (.clock ⟨0, 0⟩ 1) ++ (List.replicate 3 (.io 0 (fun _ => 0) 1) ++
      (List.replicate 11 (.clock ⟨0, 0⟩ 1) ++ List.replicate 2 (.io 0 (fun _ => 0) 1)))))

theorem registers_served_readBack :
    ∃ t, run Board.step (Board.init plainDev (fun _ => 0)
        (writeReadBack.flatMap fun p => (p.2.send p.1).2)) readBackMoves = some t ∧
      sentReplies (trace Board.step Board.event (Board.init plainDev (fun _ => 0)
        (writeReadBack.flatMap fun p => (p.2.send p.1).2)) readBackMoves) = [⟨0, 0x7788⟩] := by
  have hsome : (run Board.step (Board.init plainDev (fun _ => 0)
      (writeReadBack.flatMap fun p => (p.2.send p.1).2)) readBackMoves).isSome = true := by
    decide +kernel
  have hcount : (sentReplies (trace Board.step Board.event (Board.init plainDev (fun _ => 0)
      (writeReadBack.flatMap fun p => (p.2.send p.1).2)) readBackMoves)).length = 1 := by
    decide +kernel
  obtain ⟨t, hrun⟩ := Option.isSome_iff_exists.mp hsome
  have hserved := (registers_served _ _ _ _ _ writeReadBack readBackMoves t hrun).1
  exact ⟨t, hrun, hserved.eq_of_length hcount⟩

end VPcie.Sbone
