import VPcie.Sbone.Served

/-!
# Every access of sbone is completed

Wherever the two threads and the network have come to, they can go on until the host has every reply
a register file gives it, and, if a register replies to each read, every interrupt.

* `duty` — what the io thread has left to do when nothing more comes in;
* `Sound.unwind` — it comes back to `select` with an empty pipe;
* `registers_complete` — the end of every run.
-/

namespace VPcie.Sbone

open VPcie.Lib VPcie.Net VPcie.Glue
open VPcie.Device (PcieDev barCount)
open VPcie.Vhdl (Req Endpoint GlueCall pollRxFifo)

/-! ### The io thread alone -/

/-- The moves the io thread has left to come back to `select` when nothing comes in. -/
def duty : IoPc Unit (List Content) → ℕ
  | .check => 3
  | .select => 2
  | .spin _ _ _ => 6
  | .reply _ _ => 5
  | .events ev _ => if ev then 1 else 4
  | .keys ks _ => 4 + 4 * ks.length
  | .drain ms ks _ => 5 + 4 * ks.length + ms.length
  | _ => 0

/-- What it has left to do, keys and messages included. -/
def dutyOf (x : Spec) : ℕ := 20 * x.pipe.length + x.tx.length + duty x.io

theorem duty_loopEnd (stop : Bool) : duty (loopEnd stop) ≤ 3 := by
  cases stop <;> decide

/-- Everything the host sent has come in and been popped, and no read waits for the VHDL side. -/
structure Settled (x : Spec) : Prop where
  ghdl : x.ghdl = .idle
  rx : x.rx = []
  bytes : x.up.bytes = []
  pending : x.read ≠ .pending
  held : ∀ isRead bar ev, x.io ≠ .access isRead bar ev
  recv : ∀ ev, x.io ≠ .recv ev

section Io

variable {log : List Event} {x : Spec}

/-- A step of the io thread that leaves the read alone. -/
theorem Settled.setIo (h : Settled x) {tx : List Content} {pipe : List Key}
    {io : IoPc Unit (List Content)} (hheld : ∀ isRead bar ev, io ≠ .access isRead bar ev)
    (hrecv : ∀ ev, io ≠ .recv ev) : Settled { x with tx := tx, pipe := pipe, io := io } :=
  ⟨h.ghdl, h.rx, h.bytes, h.pending, hheld, hrecv⟩

theorem Settled.loopEnd (h : Settled x) (stop : Bool) :
    Settled { x with io := Glue.loopEnd stop } := by
  apply Settled.setIo h
  · cases stop <;> simp [Glue.loopEnd]
  · cases stop <;> simp [Glue.loopEnd]

/-- The io thread takes a step, and has less to do. -/
def Advances (x : Spec) : Prop :=
  ∃ y e, Spec.act x (.io 0 (fun _ => 0) 1) = some (y, e) ∧ Settled y ∧ dutyOf y < dutyOf x

/-- The read the io thread spins on has been answered. -/
theorem Settled.advances_spin (h : Settled x) (hlive : x.Live) (hread : ReadInv log x)
    {node : Unit} {size : ℕ} {ev : Bool} (hio : x.io = .spin node size ev) : Advances x := by
  have hqueue : x.queue = [] := by
    simp only [Spec.queue, h.ghdl, h.rx]
    rfl
  have htrail := hread.trail
  rw [hqueue, hio] at htrail
  have hcopied := hlive.not_copied (by simp [h.ghdl])
  generalize hslot : x.read = slot at htrail
  cases htrail with
  | free hsize => exact absurd hsize (by simp [IoPc.readSize])
  | queued l₀ a l₁ ws hlog ha hl₁ hempty => exact absurd hempty (by simp)
  | pending => exact absurd hslot h.pending
  | copied d => exact absurd hslot (hcopied d)
  | answered d n =>
    refine ⟨{ x with read := .free, io := .reply (Device.barReply (leBytes size d.toNat)) ev },
      some (.barReturn (leBytes size d.toNat)), ?_, ?_, ?_⟩
    · simp only [Spec.act, Spec.ioStep, hio, Spec.spinStep, hslot]
    · exact ⟨h.ghdl, h.rx, h.bytes, by simp, by simp, by simp⟩
    · simp only [dutyOf, hio, duty]
      omega

/-- The loop over the events goes round. -/
theorem Settled.advances_loopEnd (h : Settled x) (stop : Bool) (hduty : duty x.io = 4)
    (hact : Spec.act x (.io 0 (fun _ => 0) 1) = some ({ x with io := Glue.loopEnd stop }, none)) :
    Advances x := by
  refine ⟨_, none, hact, h.loopEnd stop, ?_⟩
  have hle := duty_loopEnd stop
  simp only [dutyOf, hduty]
  omega

/-- The pipe is read, and the loop goes round if there was no event. -/
theorem Settled.advances_events (h : Settled x) (hlive : x.Live) {ev stop : Bool}
    (hio : x.io = .events ev stop) : Advances x := by
  cases ev with
  | true =>
    obtain ⟨k, ks, hpipe⟩ := List.exists_cons_of_ne_nil (hlive.keys (by rw [hio]; rfl))
    refine ⟨{ x with pipe := ks, io := .keys [k] stop }, none, ?_, h.setIo (by simp) (by simp), ?_⟩
    · simp [Spec.act, Spec.ioStep, hio, hpipe]
    · simp only [dutyOf, hio, duty, hpipe, if_true, List.length_cons, List.length_nil]
      omega
  | false =>
    refine h.advances_loopEnd stop ?_ ?_
    · rw [hio]
      rfl
    · simp [Spec.act, Spec.ioStep, hio]

/-- The next key is taken. -/
theorem Settled.advances_keys (h : Settled x) {ks : List Key} {stop : Bool}
    (hio : x.io = .keys ks stop) : Advances x := by
  cases ks with
  | nil =>
    refine h.advances_loopEnd stop ?_ ?_
    · rw [hio]
      rfl
    · simp only [Spec.act, Spec.ioStep, hio, Spec.keyStep]
  | cons k ks =>
    cases k with
    | quit =>
      refine ⟨{ x with io := .keys ks true }, some .quit, ?_, h.setIo (by simp) (by simp), ?_⟩
      · simp only [Spec.act, Spec.ioStep, hio, Spec.keyStep]
      · simp only [dutyOf, hio, duty, List.length_cons]
        omega
    | push =>
      refine ⟨{ x with tx := [], io := .drain x.tx ks stop }, some .detach, ?_,
        h.setIo (by simp) (by simp), ?_⟩
      · simp only [Spec.act, Spec.ioStep, hio, Spec.keyStep]
      · simp only [dutyOf, hio, duty, List.length_cons, List.length_nil]
        omega

/-- The next message is sent. -/
theorem Settled.advances_drain (h : Settled x) {ms : List Content} {ks : List Key} {stop : Bool}
    (hio : x.io = .drain ms ks stop) : Advances x := by
  cases ms with
  | nil =>
    refine ⟨{ x with io := .keys ks stop }, none, ?_, h.setIo (by simp) (by simp), ?_⟩
    · simp only [Spec.act, Spec.ioStep, hio, Spec.drainStep]
    · simp only [dutyOf, hio, duty, List.length_nil]
      omega
  | cons m ms =>
    refine ⟨{ x with io := .drain ms ks stop }, some (.send m), ?_, h.setIo (by simp) (by simp), ?_⟩
    · simp only [Spec.act, Spec.ioStep, hio, Spec.drainStep]
    · simp only [dutyOf, hio, duty, List.length_cons]
      omega

/-- **The io thread goes on** until it waits in `select` with nothing to do. -/
theorem Settled.advances (h : Settled x) (hrun : x.running = true) (hlive : x.Live)
    (hread : ReadInv log x) : (x.io = .select ∧ x.pipe = []) ∨ Advances x := by
  have hnone : x.up.arrived = [] := (List.append_eq_nil_iff.mp h.bytes).1
  cases hio : x.io with
  | check =>
    refine Or.inr ⟨{ x with io := .select }, none, ?_, h.setIo (by simp) (by simp), ?_⟩
    · simp only [Spec.act, Spec.ioStep, hio, hrun, if_true]
    · simp only [dutyOf, hio, duty]
      omega
  | select =>
    cases hpipe : x.pipe with
    | nil => exact Or.inl ⟨rfl, rfl⟩
    | cons k ks =>
      refine Or.inr ⟨{ x with io := .events true false }, none, ?_, h.setIo (by simp) (by simp), ?_⟩
      · simp [Spec.act, Spec.ioStep, hio, hnone, hpipe]
      · simp only [dutyOf, hio, duty, if_true]
        omega
  | recv ev => exact absurd hio (h.recv ev)
  | access isRead bar ev => exact absurd hio (h.held isRead bar ev)
  | spin node size ev => exact Or.inr (h.advances_spin hlive hread hio)
  | reply r ev =>
    refine Or.inr ⟨{ x with io := .events ev false }, some (.sendReply r), ?_,
      h.setIo (by simp) (by simp), ?_⟩
    · simp only [Spec.act, Spec.ioStep, hio]
    · cases ev <;> simp [dutyOf, hio, duty]
  | events ev stop => exact Or.inr (h.advances_events hlive hio)
  | keys ks stop => exact Or.inr (h.advances_keys hio)
  | drain ms ks stop => exact Or.inr (h.advances_drain hio)
  | exited => exact absurd hio (hlive.running hrun).2.2

end Io

/-! ### The board comes to its end -/

section Board

variable {accs : List GuestAccess} {log : List Event} {x : Spec} {s t : Board}

/-- **The io thread comes back to `select`** with an empty pipe; the VHDL side is as it was. -/
theorem Sound.unwind (h : Sound accs log x s) (hsettled : Settled x) :
    ∃ log' y t, Sound accs log' y t ∧ Reaches Board.step (fun _ => True) s t ∧ Settled y ∧
      y.io = .select ∧ y.pipe = [] ∧ t = { s with glue := t.glue } := by
  induction hw : dutyOf x using Nat.strong_induction_on generalizing log x s with
  | _ n ih =>
    rcases hsettled.advances h.beside.running h.beside.joint.live h.beside.joint.reads with
      ⟨hio, hpipe⟩ | ⟨y, e, hy, hsettled', hlt⟩
    · exact ⟨log, x, s, h, .refl _ s, hsettled, hio, hpipe, rfl⟩
    · have ha : IsIoMove (.io 0 (fun _ => 0) 1) := trivial
      obtain ⟨m, t, hst, hbeside, hstep⟩ := h.beside.io_exists ha hy
      have ht : Sound accs (log ++ e.toList) y t :=
        ⟨hbeside, hstep.accounts h.beside.joint.reads h.accounts⟩
      obtain ⟨log', z, u, hu, hreach, hend, hio, hpipe, hboard⟩ := ih _ (hw ▸ hlt) ht hsettled' rfl
      refine ⟨log', z, u, hu, hreach.head trivial hst, hend, hio, hpipe, ?_⟩
      rw [hstep.board] at hboard
      exact hboard

/-- Everything the host sent has come in. -/
def AllIn (s : Board) : Prop :=
  s.glue.up.bytes = [] ∧ ∀ isRead bar ev, s.glue.io ≠ .access isRead bar ev

theorem absIo_access {io : IoPc Ptr (Option Ptr)} {ds : List Content} {isRead ev : Bool}
    {bar : Fin barCount} : absIo io ds = .access isRead bar ev ↔ io = .access isRead bar ev := by
  cases io <;> simp [absIo, IoPc.map]

/-- **Everything has been popped** once it has come in and nothing is queued, and only then. -/
theorem Sound.polled_all_iff (h : Sound accs log x s) (hqueue : x.queue = []) :
    polled log = accs.map GuestAccess.view ↔ AllIn s := by
  obtain ⟨ds, rx, as, hR⟩ := h.beside.joint.refines
  obtain ⟨rest, hdel⟩ := h.beside.joint.delivery
  have horder := hdel.order
  rw [hqueue, List.nil_append] at horder
  have hio : x.io = absIo s.glue.io ds := hR.io
  constructor
  · intro hall
    rw [hall, List.self_eq_append_right, List.append_eq_nil_iff, List.map_eq_nil_iff] at horder
    refine ⟨?_, ?_⟩
    · rw [← hR.up, hdel.bytes, horder.2]
      rfl
    · intro isRead bar ev haccess
      have hheld := horder.1
      rw [Spec.held, hio, haccess] at hheld
      exact absurd hheld (List.cons_ne_nil _ _)
  · rintro ⟨hbytes, haccess⟩
    have hrest : rest = [] := by
      rw [← hR.up, hdel.bytes] at hbytes
      by_contra hne
      obtain ⟨a, rest, rfl⟩ := List.exists_cons_of_ne_nil hne
      have hlen := congrArg List.length hbytes
      rw [List.flatMap_cons, List.length_append, a.msg.encode_length, dataOffset,
        List.length_nil] at hlen
      omega
    have hheld : x.held = [] := by
      unfold Spec.held
      cases hx : x.io with
      | access isRead bar ev => exact absurd (absIo_access.mp (hio.symm.trans hx)) (haccess _ _ _)
      | _ => rfl
    rw [hrest, hheld] at horder
    simpa using horder.symm

/-- A quiescent state has no read waiting if a register replies to each that was popped. -/
theorem Sound.pending_iff (h : Sound accs log x s) (hq : s.Quiescent) :
    x.read = .pending ↔ ¬AllAnswer log := by
  have hnil := h.inFlight_nil (hq s (.refl _ s))
  constructor
  · intro hread hans
    have hcount := h.accounts.answer hans
    rw [hnil, if_pos hread] at hcount
    exact absurd hcount (by decide)
  · exact fun hnot => (h.accounts.stuck hnot).2

/-- A settled board has its registers at rest, and no interrupt is due. -/
structure Rests (s : Board) : Prop where
  quiescent : s.Quiescent
  edge : s.edge = none
  msi : s.dev.msi.msiEn = false

/-- **The VHDL side comes to rest** with everything popped, if a register replies to each read. -/
theorem Sound.rests (h : Sound accs log x s)
    (hall : ∀ a ∈ accs.map GuestAccess.view, ¬Unanswered a) :
    ∃ log' y t, Sound accs log' y t ∧ Reaches Board.step (fun _ => True) s t ∧ Rests t ∧
      y.queue = [] ∧ polled log' = accs.map GuestAccess.view ∧ y.read ≠ .pending := by
  have hans : ∀ {log x t}, Sound accs log x t → AllAnswer log := by
    intro log x t ht
    exact (allAnswer_iff log).mpr fun a ha => hall a (ht.beside.joint.polled_prefix.subset ha)
  obtain ⟨log₁, x₁, s₁, h₁, hreach₁, hq₁, hend⟩ := h.settle
  have hpolled₁ : polled log₁ = accs.map GuestAccess.view :=
    hend.resolve_left fun hread => (h₁.pending_iff hq₁).mp hread (hans h₁)
  -- to the end of the edge the GHDL thread is in, and over the next one
  obtain ⟨log₂, x₂, s₂, h₂, hreach₂, hquiet₂, hedge₂, hpolled₂⟩ := h₁.drain
  rw [h₁.queue_nil hq₁, List.append_nil, hpolled₁] at hpolled₂
  obtain ⟨log₃, x₃, s₃, h₃, hend₃⟩ := h₂.edge_ends
  have hq₃ : s₃.Quiescent := fun t ht => h₂.quiescent hquiet₂ t (hend₃.reach.trans ht)
  have hqueue₃ := h₃.queue_nil hq₃
  have hpolled₃ := hend₃.polled
  rw [hqueue₃, hquiet₂.queue, List.append_nil, List.append_nil, hpolled₂] at hpolled₃
  have hmono : ∀ {s t}, Reaches Board.step BoardMove.IsClock s t →
      Reaches Board.step (fun _ => True) s t := fun hr => hr.mono fun _ _ => trivial
  refine ⟨log₃, x₃, s₃, h₃, hreach₁.trans ((hmono hreach₂).trans (hmono hend₃.reach)),
    ⟨hq₃, ?_, ?_⟩, hqueue₃, hpolled₃, ?_⟩
  · rw [hend₃.board]
    rfl
  · rw [hend₃.board]
    show (s₂.dev.edge s₂.req).msi.msiEn = false
    rw [edge_msi, writes_eq, selects_idle 0x20 hquiet₂.idle.req, Bool.false_and]
  · exact fun hread => (h₃.pending_iff hq₃).mp hread (hans h₃)

/-- **Run lemma**, from any state on: the log grows by what the run shows. -/
theorem Service.runs (h : Service accs log x s) {moves : List BoardMove}
    (hrun : run Board.step s moves = some t) :
    ∃ y, Service accs (log ++ trace Board.step Board.event s moves) y t :=
  trace_invariant (fun l t => ∃ y, Service accs (log ++ l) y t)
    (fun l _ _ _ ⟨_, hi⟩ hst => by
      rw [← List.append_assoc]
      exact hi.step hst)
    ⟨x, by rwa [List.append_nil]⟩ hrun

/-- The io thread of the board and the one of the abstract glue are in the same place. -/
theorem Service.settled (h : Service accs log x s) {log' : List Event} {y : Spec}
    (hy : Sound accs log' y s) (hedge : s.edge = none) (hqueue : y.queue = [])
    (hall : AllIn s) (hread : y.read ≠ .pending) : Settled y := by
  obtain ⟨ds, rx, as, hR⟩ := hy.beside.joint.refines
  obtain ⟨ds', rx', as', hR'⟩ := h.sound.beside.joint.refines
  have hghdl := hy.beside.between hedge
  have hio : y.io = absIo s.glue.io ds := hR.io
  have hio' : x.io = absIo s.glue.io ds' := hR'.io
  refine ⟨hghdl, ?_, hR.up ▸ hall.1, hread, ?_, ?_⟩
  · simp only [Spec.queue, hghdl] at hqueue
    exact hqueue
  · intro isRead bar ev haccess
    exact hall.2 isRead bar ev (absIo_access.mp (hio.symm.trans haccess))
  · intro ev hrecv
    have hrecv' : x.io = .recv ev := by
      rw [hio'.trans ?_]
      rw [hio] at hrecv
      cases hg : s.glue.io <;> simp [hg, absIo, IoPc.map] at hrecv ⊢
      exact hrecv
    refine h.receptive ev hrecv' ?_
    rw [hR'.up]
    exact (List.append_eq_nil_iff.mp hall.1).1

/-- A read no register replies to is the last thing that is served. -/
theorem Service.stuck_complete (h : Service accs log x s) (hq : s.Quiescent)
    (hread : x.read = .pending) :
    sentReplies log = served [] (accs.map GuestAccess.view) := by
  have hsound := h.sound
  have hreplies := h.serves.replies
  have htrail := hsound.beside.joint.reads.trail
  have hheld : heldReply x.io = [] := by
    rw [hread] at htrail
    cases htrail with
    | pending l₀ a l₁ l₂ hlog ha hl hl₂ hqueue hsize =>
      cases hio : x.io <;> rw [hio] at hsize <;> first | rfl | cases hsize
  rw [unsent, hheld, hread, hsound.inFlight_nil (hq s (.refl _ s))] at hreplies
  obtain ⟨rest, hrest⟩ := hsound.beside.joint.polled_prefix
  have hnot : ¬∀ a ∈ polled log, ¬Unanswered a := by
    rw [← allAnswer_iff]
    exact (hsound.pending_iff hq).mp hread
  rw [← hrest, served_stuck hnot, ← hreplies]
  exact (List.append_nil _).symm

/-- With the io thread back in `select` and the VHDL side at rest everything has been sent. -/
theorem Service.rest_complete (h : Service accs log x s) (hrests : Rests s) (hio : x.io = .select)
    (hpipe : x.pipe = []) (hpolled : polled log = accs.map GuestAccess.view) :
    sentReplies log = served [] (accs.map GuestAccess.view) ∧
      (sent log).length = msiWrites (accs.map GuestAccess.view) := by
  have hsound := h.sound
  have hghdl := hsound.beside.between hrests.edge
  constructor
  · have htrail := hsound.beside.joint.reads.trail
    have hreplies := h.serves.replies
    rw [hio] at htrail
    rw [unsent, hio, htrail.of_none.1, hpolled] at hreplies
    rw [← hreplies]
    exact (List.append_nil _).symm
  · have htx : x.tx = [] := by
      by_contra hne
      rcases h.tx.awake hne with hmem | hpushed
      · rw [Spec.pending, hio, hpipe] at hmem
        exact absurd hmem List.not_mem_nil
      · exact absurd (hghdl.symm.trans hpushed) (by simp)
    have hpushed : pushed log = sent log := by
      rw [h.tx.conserved.pushed, h.tx.conserved.taken, htx, hio]
      simp [IoPc.draining]
    have hcount := h.interrupts.count
    have hreq : writes 0x20 s.req = false := by
      rw [writes_eq, selects_idle 0x20 (hrests.quiescent s (.refl _ s)).req, Bool.false_and]
    rw [hpushed, hpolled, hreq, Board.msisDue] at hcount
    simpa [hrests.edge, hrests.msi] using hcount

/-- In `select` with an empty pipe the two io threads are in the same place. -/
theorem Service.same_select (h : Service accs log x s) {log' : List Event} {y : Spec}
    (hy : Sound accs log' y s) (hio : y.io = .select) (hpipe : y.pipe = []) :
    x.io = .select ∧ x.pipe = [] := by
  obtain ⟨ds, rx, as, hR⟩ := hy.beside.joint.refines
  obtain ⟨ds', rx', as', hR'⟩ := h.sound.beside.joint.refines
  have hg : s.glue.io = .select := by
    have hsel : absIo s.glue.io ds = .select := hR.io.symm.trans hio
    cases hcase : s.glue.io <;> simp [hcase, absIo, IoPc.map] at hsel ⊢
  refine ⟨?_, ?_⟩
  · rw [hR'.io, hg]
    rfl
  · rw [hR'.pipe, ← hR.pipe, hpipe]

/-- **Every run can be completed.** -/
theorem Service.completes (h : Service accs log x s) :
    ∃ moves t, run Board.step s moves = some t ∧
      sentReplies (log ++ trace Board.step Board.event s moves)
        = served [] (accs.map GuestAccess.view) ∧
      ((∀ a ∈ accs.map GuestAccess.view, ¬Unanswered a) →
        (sent (log ++ trace Board.step Board.event s moves)).length
          = msiWrites (accs.map GuestAccess.view)) := by
  by_cases hall : ∀ a ∈ accs.map GuestAccess.view, ¬Unanswered a
  · obtain ⟨log₁, x₁, s₁, h₁, hreach₁, hrests₁, hqueue₁, hpolled₁, hread₁⟩ := h.sound.rests hall
    obtain ⟨moves₁, -, hrun₁⟩ := hreach₁
    obtain ⟨y₁, hy₁⟩ := h.runs hrun₁
    have hsettled := hy₁.settled h₁ hrests₁.edge hqueue₁
      ((h₁.polled_all_iff hqueue₁).mp hpolled₁) hread₁
    obtain ⟨log₂, x₂, s₂, h₂, hreach₂, hsettled₂, hio₂, hpipe₂, hboard₂⟩ := h₁.unwind hsettled
    obtain ⟨moves₂, -, hrun₂⟩ := hreach₂
    have hrun := run_append_eq_some.mpr ⟨s₁, hrun₁, hrun₂⟩
    obtain ⟨y, hy⟩ := h.runs hrun
    have hqueue₂ : x₂.queue = [] := by
      simp only [Spec.queue, hsettled₂.ghdl, hsettled₂.rx]
      rfl
    have hquiet₂ : Quiet x₂ s₂ := ⟨hqueue₂, (hrests₁.quiescent s₁ (.refl _ s₁)).congr
      (by rw [hboard₂]) (by rw [hboard₂])⟩
    have hq₂ : s₂.Quiescent := h₂.quiescent hquiet₂
    have hrests₂ : Rests s₂ := by
      refine ⟨hq₂, ?_, ?_⟩
      · rw [hboard₂]
        exact hrests₁.edge
      · rw [hboard₂]
        exact hrests₁.msi
    have hall₂ : AllIn s₂ := by
      obtain ⟨ds, rx, as, hR⟩ := h₂.beside.joint.refines
      refine ⟨hR.up ▸ hsettled₂.bytes, ?_⟩
      intro isRead bar ev haccess
      exact hsettled₂.held isRead bar ev (hR.io.trans (absIo_access.mpr haccess))
    obtain ⟨hio, hpipe⟩ := hy.same_select h₂ hio₂ hpipe₂
    have hend := hy.rest_complete hrests₂ hio hpipe
      ((hy.sound.polled_all_iff (hy.sound.queue_nil hq₂)).mpr hall₂)
    exact ⟨moves₁ ++ moves₂, s₂, hrun, hend.1, fun _ => hend.2⟩
  · obtain ⟨log₁, x₁, s₁, h₁, ⟨moves, -, hrun⟩, hq₁, hend⟩ := h.sound.settle
    obtain ⟨y, hy⟩ := h.runs hrun
    refine ⟨moves, s₁, hrun, hy.stuck_complete hq₁ ?_, fun hno => absurd hno hall⟩
    have hx₁ : x₁.read = .pending := by
      refine hend.elim id fun hpolled => (h₁.pending_iff hq₁).mpr ?_
      rw [allAnswer_iff, hpolled]
      exact hall
    by_contra hread
    exact absurd hx₁ (h₁.replyNode_iff.mp (hy.sound.replyNode_iff.mpr hread))

end Board

end VPcie.Sbone
