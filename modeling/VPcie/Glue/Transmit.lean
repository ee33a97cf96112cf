import Mathlib.Data.List.DropRight
import VPcie.Glue.Refinement

/-!
# From the VHDL side to the network

Messages travel through `tx_fifo` and the event pipe, replies through the node of the read.  The two
meet only at the socket.

* `tx_fifo_lossless` — over every run messages are sent in push order, each once; whenever the queue
  is not empty a wakeup is on its way; and once `evk_quit` has been processed all have been sent;
* `messages_before_reply` — over every run, which messages are on the socket before a reply;
* `reply_overtakes_write` — a run in which a reply overtakes a write pushed before it.
-/

namespace VPcie.Glue

open VPcie.Lib VPcie.Net VPcie.Device

/-! ### What a trace says about messages -/

/-- The messages pushed on `tx_fifo`. -/
def pushed (log : List Event) : List Content :=
  log.filterMap fun
    | .push m => some m
    | _ => none

/-- The messages passed to `pcie_net_send_msg`. -/
def sent (log : List Event) : List Content :=
  log.filterMap fun
    | .send m => some m
    | _ => none

/-- The messages pushed before `on_event` last took the list of `tx_fifo`. -/
def taken (log : List Event) : List Content := pushed (log.rdropWhile fun e => e ≠ .detach)

/-- An event that is no part of sending messages. -/
def Event.Neutral : Event → Prop
  | push _ => False
  | detach => False
  | send _ => False
  | quit => False
  | _ => True

theorem pushed_append (l l' : List Event) : pushed (l ++ l') = pushed l ++ pushed l' :=
  List.filterMap_append

theorem sent_append (l l' : List Event) : sent (l ++ l') = sent l ++ sent l' :=
  List.filterMap_append

theorem taken_snoc_of_ne (log : List Event) {e : Event} (he : e ≠ .detach) :
    taken (log ++ [e]) = taken log := by
  rw [taken, List.rdropWhile_concat_pos _ _ _ (by simpa using he), taken]

theorem taken_snoc_detach (log : List Event) : taken (log ++ [.detach]) = pushed log := by
  rw [taken, List.rdropWhile_concat_neg _ _ _ (by simp), pushed_append]
  exact List.append_nil _

theorem Event.Neutral.ne_detach {e : Event} (he : e.Neutral) : e ≠ .detach := by
  rintro rfl
  exact he

theorem Event.Neutral.pushed_eq {e : Event} (he : e.Neutral) : pushed [e] = [] := by
  cases e <;> first | rfl | exact he.elim

theorem Event.Neutral.sent_eq {e : Event} (he : e.Neutral) : sent [e] = [] := by
  cases e <;> first | rfl | exact he.elim

/-- What a neutral step adds to a trace. -/
theorem neutral_toList {e : Option Event} (he : ∀ a ∈ e, a.Neutral) (log : List Event) :
    pushed (log ++ e.toList) = pushed log ∧ sent (log ++ e.toList) = sent log ∧
      taken (log ++ e.toList) = taken log ∧ (.quit ∈ log ++ e.toList ↔ .quit ∈ log) := by
  cases e with
  | none => simp
  | some a =>
    have ha := he a rfl
    have hquit : a ≠ .quit := by
      rintro rfl
      exact ha
    rw [Option.toList_some, pushed_append, sent_append, taken_snoc_of_ne log ha.ne_detach,
      ha.pushed_eq, ha.sent_eq]
    simp [Ne.symm hquit]

/-! ### What a move does to the sending side -/

/-- The keys read from the pipe and not yet processed. -/
def IoPc.batch {ν δ : Type} : IoPc ν δ → List Key
  | .keys ks _ => ks
  | .drain _ ks _ => ks
  | _ => []

/-- The messages `on_event` has taken and not yet sent. -/
def IoPc.draining {ν : Type} : IoPc ν (List Content) → List Content
  | .drain ms _ _ => ms
  | _ => []

/-- The keys not yet processed, oldest first. -/
def Spec.pending (x : Spec) : List Key := x.io.batch ++ x.pipe

/-- A move, as far as the sending side goes. -/
inductive TxStep (x y : Spec) (e : Option Event) : Prop where
  | frame (htx : y.tx = x.tx) (hdr : y.io.draining = x.io.draining) (hkeys : y.pending = x.pending)
      (hpushed : y.ghdl = .pushed ↔ x.ghdl = .pushed)
      (hjoined : y.ghdl = .joined ↔ x.ghdl = .joined) (he : ∀ a ∈ e, a.Neutral)
  | quit (htx : y.tx = x.tx) (hdr : x.io.draining = [] ∧ y.io.draining = [])
      (hkeys : x.pending = .quit :: y.pending) (hghdl : y.ghdl = x.ghdl) (he : e = some .quit)
  | detach (htx : y.tx = []) (hdr : x.io.draining = [] ∧ y.io.draining = x.tx)
      (hkeys : x.pending = .push :: y.pending) (hghdl : y.ghdl = x.ghdl) (he : e = some .detach)
  | send (m : Content) (htx : y.tx = x.tx) (hdr : x.io.draining = m :: y.io.draining)
      (hkeys : y.pending = x.pending) (hghdl : y.ghdl = x.ghdl) (he : e = some (.send m))
  | push (m : Content) (htx : y.tx = x.tx ++ [m]) (hdr : y.io.draining = x.io.draining)
      (hkeys : y.pending = x.pending) (hghdl : x.ghdl = .idle) (hghdl' : y.ghdl = .pushed)
      (he : e = some (.push m))
  | wake (htx : y.tx = x.tx) (hdr : y.io.draining = x.io.draining)
      (hkeys : y.pending = x.pending ++ [.push]) (hghdl : x.ghdl = .pushed)
      (hghdl' : y.ghdl = .idle) (he : e = none)
  | joinKey (htx : y.tx = x.tx) (hdr : y.io.draining = x.io.draining)
      (hkeys : y.pending = x.pending ++ [.quit]) (hghdl : x.ghdl = .joining)
      (hghdl' : y.ghdl = .joined) (he : e = none)

theorem IoPc.Quiet.batch_eq {ν δ : Type} {io : IoPc ν δ} (h : io.Quiet) : io.batch = [] := by
  cases io <;> first | rfl | exact h.elim

theorem IoPc.Quiet.draining_eq {ν : Type} {io : IoPc ν (List Content)} (h : io.Quiet) :
    io.draining = [] := by
  cases io <;> first | rfl | exact h.elim

/-- After a receive the io thread has neither keys nor messages in hand. -/
theorem receive_empty {up up' : Stream} {loop loop' : NetLoop (Fin barCount)} {ev : Bool}
    {io : IoPc Unit (List Content)} {e : Option Event}
    (h : receive up loop ev = some (up', loop', io, e)) :
    io.batch = [] ∧ io.draining = [] ∧ ∀ a ∈ e, a.Neutral := by
  rcases receive_cases h with ⟨rfl, hquiet⟩ | ⟨op, rfl, _, hne⟩
  · exact ⟨hquiet.batch_eq, hquiet.draining_eq, by simp⟩
  · refine ⟨?_, ?_, fun a ha => by cases ha; trivial⟩
    · cases io with
      | keys ks stop => exact absurd rfl (hne ks stop []).1
      | drain ms ks stop => exact absurd rfl (hne ks stop ms).2
      | _ => rfl
    · cases io with
      | drain ms ks stop => exact absurd rfl (hne ks stop ms).2
      | _ => rfl

theorem loopEnd_batch {ν δ : Type} (stop : Bool) : (loopEnd stop : IoPc ν δ).batch = [] :=
  (loopEnd_quiet stop).batch_eq

theorem SpecStep.tx {x y : Spec} {e : Option Event} (h : SpecStep x y e) : TxStep x y e := by
  cases h with
  | deliver k => exact .frame rfl rfl rfl Iff.rfl Iff.rfl (by simp)
  | control io hio hio' hev hexit =>
    refine .frame rfl ?_ ?_ Iff.rfl Iff.rfl (by simp)
    · exact hio'.draining_eq.trans hio.draining_eq.symm
    · simp only [Spec.pending, hio.batch_eq, hio'.batch_eq]
  | recv ev up loop io e hio hrecv =>
    obtain ⟨hbatch, hdr, he⟩ := receive_empty hrecv
    refine .frame rfl ?_ ?_ Iff.rfl Iff.rfl he
    · rw [hio]
      exact hdr
    · simp only [Spec.pending, hio, hbatch]
      rfl
  | write bar ev hio hwidth =>
    refine .frame rfl ?_ ?_ Iff.rfl Iff.rfl fun a ha => by cases ha; trivial
    · rw [hio]; rfl
    · simp only [Spec.pending, hio]; rfl
  | read bar ev hio hwidth =>
    refine .frame rfl ?_ ?_ Iff.rfl Iff.rfl fun a ha => by cases ha; trivial
    · rw [hio]; rfl
    · simp only [Spec.pending, hio]; rfl
  | barReturn size ev data hio hread =>
    refine .frame rfl ?_ ?_ Iff.rfl Iff.rfl fun a ha => by cases ha; trivial
    · rw [hio]; rfl
    · simp only [Spec.pending, hio]; rfl
  | reply r ev hio =>
    refine .frame rfl ?_ ?_ Iff.rfl Iff.rfl fun a ha => by cases ha; trivial
    · rw [hio]; rfl
    · simp only [Spec.pending, hio]; rfl
  | batch k stop hio =>
    refine .frame rfl ?_ ?_ Iff.rfl Iff.rfl (by simp)
    · rw [hio]; rfl
    · simp only [Spec.pending, hio, IoPc.batch, List.take_append_drop, List.nil_append]
  | keysEnd stop hio =>
    refine .frame rfl ?_ ?_ Iff.rfl Iff.rfl (by simp)
    · rw [hio]
      exact (loopEnd_quiet stop).draining_eq
    · simp only [Spec.pending, hio, loopEnd_batch]; rfl
  | quit ks stop hio =>
    refine .quit rfl ⟨?_, rfl⟩ ?_ rfl rfl
    · rw [hio]; rfl
    · simp only [Spec.pending, hio]; rfl
  | detach ks stop hio =>
    refine .detach rfl ⟨?_, rfl⟩ ?_ rfl rfl
    · rw [hio]; rfl
    · simp only [Spec.pending, hio]; rfl
  | drainEnd ks stop hio =>
    refine .frame rfl ?_ ?_ Iff.rfl Iff.rfl (by simp)
    · rw [hio]; rfl
    · simp only [Spec.pending, hio]; rfl
  | send m ms ks stop hio =>
    refine .send m rfl ?_ ?_ rfl rfl
    · rw [hio]; rfl
    · simp only [Spec.pending, hio]; rfl
  | push m hghdl => exact .push m rfl rfl rfl hghdl rfl rfl
  | wake hghdl => exact .wake rfl rfl (List.append_assoc _ _ _).symm hghdl rfl rfl
  | pollEmpty hghdl hrx =>
    exact .frame rfl rfl rfl Iff.rfl Iff.rfl fun a ha => by cases ha; trivial
  | pop a rx hghdl hrx =>
    exact .frame rfl rfl rfl (by simp [hghdl]) (by simp [hghdl]) (by simp)
  | popped a hghdl =>
    exact .frame rfl rfl rfl (by simp [hghdl]) (by simp [hghdl]) fun a ha => by cases ha; trivial
  | answer data hghdl hread =>
    exact .frame rfl rfl rfl (by simp [hghdl]) (by simp [hghdl]) fun a ha => by cases ha; trivial
  | spurious data hghdl hread =>
    exact .frame rfl rfl rfl Iff.rfl Iff.rfl fun a ha => by cases ha; trivial
  | replied data hghdl hread =>
    exact .frame rfl rfl rfl (by simp [hghdl]) (by simp [hghdl]) (by simp)
  | join hghdl => exact .frame rfl rfl rfl (by simp [hghdl]) (by simp [hghdl]) (by simp)
  | joinKey hghdl => exact .joinKey rfl rfl (List.append_assoc _ _ _).symm hghdl rfl rfl

/-! ### The invariant -/

/-- Nothing is lost on the way: what was pushed is what was sent, what `on_event` holds and what is
queued, in this order. -/
structure Conserved (log : List Event) (x : Spec) : Prop where
  taken : taken log = sent log ++ x.io.draining
  pushed : pushed log = Glue.taken log ++ x.tx

/-- No wakeup is lost. -/
def Awake (x : Spec) : Prop := x.tx ≠ [] → .push ∈ x.pending ∨ x.ghdl = .pushed

/-- The quit key is the last one. -/
structure QuitLast (log : List Event) (x : Spec) : Prop where
  before : x.ghdl ≠ .joined → .quit ∉ x.pending ∧ .quit ∉ log
  joined : x.ghdl = .joined → .quit ∉ log → ∃ ks, x.pending = ks ++ [.quit] ∧ .quit ∉ ks
  done : .quit ∈ log → x.ghdl = .joined ∧ x.pending = [] ∧ x.tx = [] ∧ x.io.draining = []

section Invariant

variable {log : List Event} {x y : Spec} {e : Option Event}

theorem TxStep.conserved (h : TxStep x y e) (hi : Conserved log x) :
    Conserved (log ++ e.toList) y := by
  cases h with
  | frame htx hdr hkeys hpushed hjoined he =>
    obtain ⟨hp, hs, ht, _⟩ := neutral_toList he log
    exact ⟨by rw [ht, hs, hdr, hi.taken], by rw [hp, ht, htx, hi.pushed]⟩
  | quit htx hdr hkeys hghdl he =>
    subst he
    rw [Option.toList_some]
    refine ⟨?_, ?_⟩
    · rw [taken_snoc_of_ne _ (by simp), sent_append, hdr.2, hi.taken, hdr.1]
      simp [sent]
    · rw [pushed_append, taken_snoc_of_ne _ (by simp), htx, hi.pushed]
      simp [Glue.pushed]
  | detach htx hdr hkeys hghdl he =>
    subst he
    rw [Option.toList_some]
    refine ⟨?_, ?_⟩
    · rw [taken_snoc_detach, sent_append, hdr.2, hi.pushed, hi.taken, hdr.1]
      simp [sent]
    · rw [pushed_append, taken_snoc_detach, htx]
      simp [Glue.pushed]
  | send m htx hdr hkeys hghdl he =>
    subst he
    rw [Option.toList_some]
    refine ⟨?_, ?_⟩
    · rw [taken_snoc_of_ne _ (by simp), sent_append, hi.taken, hdr]
      simp [sent]
    · rw [pushed_append, taken_snoc_of_ne _ (by simp), htx, hi.pushed]
      simp [Glue.pushed]
  | push m htx hdr hkeys hghdl hghdl' he =>
    subst he
    rw [Option.toList_some]
    refine ⟨?_, ?_⟩
    · rw [taken_snoc_of_ne _ (by simp), sent_append, hdr, hi.taken]
      simp [sent]
    · rw [pushed_append, taken_snoc_of_ne _ (by simp), htx, hi.pushed]
      simp [Glue.pushed]
  | wake htx hdr hkeys hghdl hghdl' he =>
    subst he
    rw [Option.toList_none, List.append_nil]
    exact ⟨by rw [hdr, hi.taken], by rw [htx, hi.pushed]⟩
  | joinKey htx hdr hkeys hghdl hghdl' he =>
    subst he
    rw [Option.toList_none, List.append_nil]
    exact ⟨by rw [hdr, hi.taken], by rw [htx, hi.pushed]⟩

theorem TxStep.awake (h : TxStep x y e) (hi : Awake x) : Awake y := by
  intro hne
  cases h with
  | frame htx hdr hkeys hpushed hjoined he =>
    rw [htx] at hne
    rw [hkeys, hpushed]
    exact hi hne
  | quit htx hdr hkeys hghdl he =>
    rw [htx] at hne
    rw [hghdl]
    refine (hi hne).imp_left fun hmem => ?_
    rw [hkeys] at hmem
    simpa using hmem
  | detach htx => exact absurd htx hne
  | send m htx hdr hkeys hghdl he =>
    rw [htx] at hne
    rw [hkeys, hghdl]
    exact hi hne
  | push m htx hdr hkeys hghdl hghdl' he => exact Or.inr hghdl'
  | wake htx hdr hkeys hghdl hghdl' he =>
    rw [hkeys]
    exact Or.inl (List.mem_append_right _ List.mem_cons_self)
  | joinKey htx hdr hkeys hghdl hghdl' he =>
    rw [htx] at hne
    refine Or.inl ?_
    rw [hkeys]
    refine List.mem_append_left _ ((hi hne).resolve_right ?_)
    rw [hghdl]
    simp

/-- The key that is processed is the last one, so no wakeup is pending and the queue is empty. -/
theorem QuitLast.quit_key (hi : QuitLast log x) (hawake : Awake x) {ks : List Key}
    (hkeys : x.pending = .quit :: ks) : x.ghdl = .joined ∧ ks = [] ∧ x.tx = [] := by
  have hmem : Key.quit ∈ x.pending := by
    rw [hkeys]
    exact List.mem_cons_self
  have hjoined : x.ghdl = .joined := by
    by_contra hg
    exact (hi.before hg).1 hmem
  have hlog : Event.quit ∉ log := by
    intro hl
    rw [(hi.done hl).2.1] at hmem
    exact absurd hmem List.not_mem_nil
  obtain ⟨ks', hks, hnot⟩ := hi.joined hjoined hlog
  have hnil : ks' = [] := by
    cases ks' with
    | nil => rfl
    | cons k ks' =>
      rw [hkeys, List.cons_append, List.cons.injEq] at hks
      exact absurd (hks.1 ▸ List.mem_cons_self) hnot
  subst hnil
  refine ⟨hjoined, ?_, ?_⟩
  · rw [hkeys, List.nil_append, List.cons.injEq] at hks
    exact hks.2
  · by_contra hne
    rcases hawake hne with hpush | hpush
    · rw [hks] at hpush
      exact absurd hpush (by simp)
    · rw [hjoined] at hpush
      exact absurd hpush (by simp)

/-- As long as the thread is not joined there is no quit key. -/
theorem QuitLast.not_joined (hi : QuitLast log x) (hx : x.ghdl ≠ .joined) (hy : y.ghdl ≠ .joined)
    (hkeys : .quit ∉ x.pending → .quit ∉ y.pending) (he : .quit ∉ e.toList) :
    QuitLast (log ++ e.toList) y := by
  obtain ⟨hpending, hlog⟩ := hi.before hx
  have hlog' : Event.quit ∉ log ++ e.toList := by
    intro hmem
    exact (List.mem_append.mp hmem).elim hlog he
  exact ⟨fun _ => ⟨hkeys hpending, hlog'⟩, fun hg => absurd hg hy, fun hmem => absurd hmem hlog'⟩

theorem TxStep.quitLast (h : TxStep x y e) (hawake : Awake x) (hi : QuitLast log x) :
    QuitLast (log ++ e.toList) y := by
  cases h with
  | frame htx hdr hkeys hpushed hjoined he =>
    obtain ⟨_, _, _, hq⟩ := neutral_toList he log
    refine ⟨fun hg => ?_, fun hg hlog => ?_, fun hlog => ?_⟩
    · rw [hkeys, hq]
      exact hi.before fun hx => hg (hjoined.mpr hx)
    · rw [hkeys]
      exact hi.joined (hjoined.mp hg) fun hmem => hlog (hq.mpr hmem)
    · rw [hkeys, htx, hdr, hjoined]
      exact hi.done (hq.mp hlog)
  | quit htx hdr hkeys hghdl he =>
    obtain ⟨hjoined, hpend, htx0⟩ := hi.quit_key hawake hkeys
    subst he
    refine ⟨fun hg => absurd (hghdl.trans hjoined) hg, fun _ hl => absurd (by simp) hl, fun _ => ?_⟩
    exact ⟨hghdl.trans hjoined, hpend, htx.trans htx0, hdr.2⟩
  | detach htx hdr hkeys hghdl he =>
    subst he
    refine ⟨fun hg => ?_, fun hg hlog => ?_, fun hlog => ?_⟩
    · have hb := hi.before (hghdl ▸ hg)
      rw [hkeys] at hb
      simpa using hb
    · obtain ⟨ks, hks, hnot⟩ := hi.joined (hghdl ▸ hg) (by simpa using hlog)
      rw [hkeys] at hks
      cases ks with
      | nil => exact absurd hks (by simp)
      | cons k ks =>
        rw [List.cons_append, List.cons.injEq] at hks
        exact ⟨ks, hks.2, fun hmem => hnot (List.mem_cons_of_mem k hmem)⟩
    · have hd := (hi.done (by simpa using hlog)).2.1
      rw [hkeys] at hd
      exact absurd hd (by simp)
  | send m htx hdr hkeys hghdl he =>
    subst he
    refine ⟨fun hg => ?_, fun hg hlog => ?_, fun hlog => ?_⟩
    · rw [hkeys]
      simpa using hi.before (hghdl ▸ hg)
    · rw [hkeys]
      exact hi.joined (hghdl ▸ hg) (by simpa using hlog)
    · have hd := (hi.done (by simpa using hlog)).2.2.2
      rw [hdr] at hd
      exact absurd hd (by simp)
  | push m htx hdr hkeys hghdl hghdl' he =>
    refine hi.not_joined (by simp [hghdl]) (by simp [hghdl']) ?_ (by simp [he])
    intro hnot
    rw [hkeys]
    exact hnot
  | wake htx hdr hkeys hghdl hghdl' he =>
    refine hi.not_joined (by simp [hghdl]) (by simp [hghdl']) ?_ (by simp [he])
    intro hnot
    rw [hkeys]
    simpa using hnot
  | joinKey htx hdr hkeys hghdl hghdl' he =>
    subst he
    have hb := hi.before (by rw [hghdl]; simp)
    refine ⟨fun hg => absurd hghdl' hg, fun _ _ => ⟨x.pending, hkeys, hb.1⟩, fun hlog => ?_⟩
    exact absurd (by simpa using hlog) hb.2

end Invariant

/-- The three together, which every run keeps. -/
structure TxInv (log : List Event) (x : Spec) : Prop where
  conserved : Conserved log x
  awake : Awake x
  quitLast : QuitLast log x

theorem txInv_init (dev : PcieDev (Fin barCount)) (buf : Mem) (bytes : List Byte) :
    TxInv [] (Spec.init dev buf bytes) :=
  ⟨⟨rfl, rfl⟩, fun hne => absurd rfl hne,
    ⟨fun _ => ⟨List.not_mem_nil, List.not_mem_nil⟩, fun hg => absurd hg (by simp [Spec.init]),
      fun hlog => absurd hlog List.not_mem_nil⟩⟩

theorem SpecStep.txInv {log : List Event} {x y : Spec} {e : Option Event} (h : SpecStep x y e)
    (hi : TxInv log x) : TxInv (log ++ e.toList) y :=
  ⟨h.tx.conserved hi.conserved, h.tx.awake hi.awake, h.tx.quitLast hi.awake hi.quitLast⟩

/-- The invariant over every run of the abstract glue. -/
theorem run_txInv {dev : PcieDev (Fin barCount)} {buf : Mem} {bytes : List Byte} {y : Spec}
    {moves : List Move} (hrun : run Spec.step (Spec.init dev buf bytes) moves = some y) :
    TxInv (trace Spec.step Spec.event (Spec.init dev buf bytes) moves) y :=
  trace_invariant TxInv (fun _ _ _ _ hi hst => (Spec.step_cases hst).txInv hi)
    (txInv_init dev buf bytes) hrun

theorem batch_map {ν δ ν' δ' : Type} (f : ν → ν') (g : δ → δ') (io : IoPc ν δ) :
    (io.map f g).batch = io.batch := by
  cases io <;> rfl

/-- **The transmit queue loses nothing and has no lost wakeup.**  Over every run: the messages sent
are a prefix of the messages pushed; while `tx_fifo` is not empty an `evk_push` is in the pipe or in
the batch of the io thread, or the pusher is about to write it; and once `on_event` has been run on
`evk_quit` every message pushed has been sent. -/
theorem tx_fifo_lossless (dev : PcieDev (Fin barCount)) (buf : Mem) (bytes : List Byte)
    (moves : List Move) (s : GlueState)
    (hrun : run step (GlueState.init dev buf bytes) moves = some s) :
    let log := trace step event (GlueState.init dev buf bytes) moves
    sent log <+: pushed log ∧
      (s.txFifo.head ≠ none → .push ∈ s.io.batch ++ s.pipe ∨ s.ghdl = .pushed) ∧
      (.quit ∈ log → sent log = pushed log) := by
  intro log
  obtain ⟨y, hy, ⟨ds, rx, as, hR⟩, htrace⟩ := run_init_refines hrun
  have hi := run_txInv hy
  rw [← htrace] at hi
  have hpushed : pushed log = sent log ++ (y.io.draining ++ y.tx) := by
    rw [hi.conserved.pushed, hi.conserved.taken, List.append_assoc]
  refine ⟨⟨y.io.draining ++ y.tx, hpushed.symm⟩, fun hhead => ?_, fun hquit => ?_⟩
  · have hne : y.tx ≠ [] := fun hnil => hhead (hR.txRel.head_none.mpr hnil)
    refine (hi.awake hne).imp (fun hmem => ?_) fun hg => ?_
    · rw [Spec.pending, hR.io, absIo, batch_map, hR.pipe] at hmem
      exact hmem
    · exact samePlace_pushed hR.ghdl.symm hg
  · obtain ⟨_, _, htx, hdr⟩ := hi.quitLast.done hquit
    rw [hpushed, htx, hdr, List.append_nil, List.append_nil]

/-- An interrupt is pushed and the thread joined; both keys are read at once. -/
def joinMoves : List Move :=
  [ioMove, .push .msi ⟨0, 0⟩ 0, .ghdl, .join, .ghdl, ioMove, .io 0 (fun _ => 0) 2, ioMove, ioMove,
    ioMove, ioMove]

theorem tx_fifo_lossless_join :
    ∃ s, run step (GlueState.init plainDev (fun _ => 0) []) joinMoves = some s ∧
      sent (trace step event (GlueState.init plainDev (fun _ => 0) []) joinMoves)
        = pushed (trace step event (GlueState.init plainDev (fun _ => 0) []) joinMoves) := by
  have hsome : (run step (GlueState.init plainDev (fun _ => 0) []) joinMoves).isSome := by decide
  have hquit :
      Event.quit ∈ trace step event (GlueState.init plainDev (fun _ => 0) []) joinMoves := by
    decide
  obtain ⟨s, hrun⟩ := Option.isSome_iff_exists.mp hsome
  exact ⟨s, hrun, (tx_fifo_lossless plainDev (fun _ => 0) [] joinMoves s hrun).2.2 hquit⟩

/-! ### Messages and replies -/

/-- A move, as far as reads of the io thread go. -/
inductive ReadStep (x y : Spec) (e : Option Event) : Prop where
  | enter (op : Byte) (hdr : x.io.draining = []) (he : e = some (.recv op)) (hop : IsRead op)
  | stay (hx : x.io.InRead)
      (he : ∀ a ∈ e, a ≠ .detach ∧ (∀ m, a ≠ .send m) ∧ (∀ op, a ≠ .recv op) ∧
        ∀ r, a ≠ .sendReply r)
  | reply (r : PcieNetReply) (hx : x.io.InRead) (hy : ¬y.io.InRead)
      (he : e = some (.sendReply r))
  | out (hy : ¬y.io.InRead) (he : ∀ a ∈ e, ∀ r, a ≠ .sendReply r)

theorem IoPc.Quiet.not_inRead {ν δ : Type} {io : IoPc ν δ} (h : io.Quiet) : ¬io.InRead := by
  cases io <;> first | exact id | exact h.elim

/-- A move of the GHDL thread or of the network is no part of a read of the io thread. -/
theorem ReadStep.of_io_eq {x y : Spec} {e : Option Event} (hio : y.io = x.io)
    (he : ∀ a ∈ e, a ≠ .detach ∧ (∀ m, a ≠ .send m) ∧ (∀ op, a ≠ .recv op) ∧
      ∀ r, a ≠ .sendReply r) : ReadStep x y e := by
  by_cases hx : x.io.InRead
  · exact .stay hx he
  · exact .out (hio ▸ hx) fun a ha => (he a ha).2.2.2

theorem SpecStep.readStep {x y : Spec} {e : Option Event} (h : SpecStep x y e) :
    ReadStep x y e := by
  cases h with
  | deliver k => exact .of_io_eq rfl (by simp)
  | control io hio hio' hev hexit => exact .out hio'.not_inRead (by simp)
  | recv ev up loop io e hio hrecv =>
    rcases receive_cases hrecv with ⟨rfl, hquiet⟩ | ⟨op, rfl, hop, _⟩
    · exact .out hquiet.not_inRead (by simp)
    · rcases hop with ⟨hop, _⟩ | ⟨_, hnot⟩
      · exact .enter op (by rw [hio]; rfl) rfl hop
      · exact .out hnot (by simp)
  | write bar ev hio hwidth => exact .out id (by simp)
  | read bar ev hio hwidth => exact .stay (by rw [hio]; rfl) (by simp)
  | barReturn size ev data hio hread => exact .stay (by rw [hio]; trivial) (by simp)
  | reply r ev hio => exact .reply r (by rw [hio]; trivial) id rfl
  | batch k stop hio => exact .out id (by simp)
  | keysEnd stop hio => exact .out (loopEnd_quiet stop).not_inRead (by simp)
  | quit ks stop hio => exact .out id (by simp)
  | detach ks stop hio => exact .out id (by simp)
  | drainEnd ks stop hio => exact .out id (by simp)
  | send m ms ks stop hio => exact .out id (by simp)
  | push m hghdl => exact .of_io_eq rfl (by simp)
  | wake hghdl => exact .of_io_eq rfl (by simp)
  | pollEmpty hghdl hrx => exact .of_io_eq rfl (by simp)
  | pop a rx hghdl hrx => exact .of_io_eq rfl (by simp)
  | popped a hghdl => exact .of_io_eq rfl (by simp)
  | answer data hghdl hread => exact .of_io_eq rfl (by simp)
  | spurious data hghdl hread => exact .of_io_eq rfl (by simp)
  | replied data hghdl hread => exact .of_io_eq rfl (by simp)
  | join hghdl => exact .of_io_eq rfl (by simp)
  | joinKey hghdl => exact .of_io_eq rfl (by simp)

/-- The trace ends in the receipt of a read and then nothing that sends: what had been sent when the
read came in is what had been pushed when `tx_fifo` was last taken. -/
def ReadOpen (log : List Event) : Prop :=
  ∃ pre op mid, log = pre ++ .recv op :: mid ∧ IsRead op ∧ sent pre = taken pre ∧
    ∀ e ∈ mid, e ≠ .detach ∧ (∀ m, e ≠ .send m) ∧ (∀ op, e ≠ .recv op) ∧ ∀ r, e ≠ .sendReply r

/-- Before each reply there is the receipt of its read, and between the two nothing is sent. -/
def RepliesAfterReads : List Event → Prop :=
  AtEach fun pre e => ∀ r, e = .sendReply r → ReadOpen pre

theorem ReadOpen.snoc {log : List Event} (h : ReadOpen log) {e : Event}
    (he : e ≠ .detach ∧ (∀ m, e ≠ .send m) ∧ (∀ op, e ≠ .recv op) ∧ ∀ r, e ≠ .sendReply r) :
    ReadOpen (log ++ [e]) := by
  obtain ⟨pre, op, mid, rfl, hop, hpre, hmid⟩ := h
  refine ⟨pre, op, mid ++ [e], ?_, hop, hpre, fun a ha => ?_⟩
  · rw [List.append_assoc, List.cons_append]
  · rcases List.mem_append.mp ha with hmem | hmem
    · exact hmid a hmem
    · rw [List.mem_singleton.mp hmem]
      exact he

structure ReplyInv (log : List Event) (x : Spec) : Prop where
  order : RepliesAfterReads log
  inRead : x.io.InRead → ReadOpen log

theorem ReadStep.replyInv {log : List Event} {x y : Spec} {e : Option Event} (h : ReadStep x y e)
    (hcons : Conserved log x) (hi : ReplyInv log x) : ReplyInv (log ++ e.toList) y := by
  cases h with
  | enter op hdr he hop =>
    subst he
    refine ⟨hi.order.snoc (by simp), fun _ => ⟨log, op, [], rfl, hop, ?_, by simp⟩⟩
    rw [hcons.taken, hdr, List.append_nil]
  | stay hx he =>
    cases e with
    | none =>
      rw [Option.toList_none, List.append_nil]
      exact ⟨hi.order, fun _ => hi.inRead hx⟩
    | some a =>
      have ha := he a rfl
      exact ⟨hi.order.snoc fun r hr => absurd hr (ha.2.2.2 r), fun _ => (hi.inRead hx).snoc ha⟩
  | reply r hx hy he =>
    subst he
    exact ⟨hi.order.snoc fun _ _ => hi.inRead hx, fun hread => absurd hread hy⟩
  | out hy he =>
    cases e with
    | none =>
      rw [Option.toList_none, List.append_nil]
      exact ⟨hi.order, fun hread => absurd hread hy⟩
    | some a =>
      exact ⟨hi.order.snoc fun r hr => absurd hr (he a rfl r), fun hread => absurd hread hy⟩

theorem run_replyInv {dev : PcieDev (Fin barCount)} {buf : Mem} {bytes : List Byte} {y : Spec}
    {moves : List Move} (hrun : run Spec.step (Spec.init dev buf bytes) moves = some y) :
    ReplyInv (trace Spec.step Spec.event (Spec.init dev buf bytes) moves) y := by
  have hboth : ∀ l x a z, (Conserved l x ∧ ReplyInv l x) → Spec.step x a = some z →
      Conserved (l ++ (Spec.event x a).toList) z ∧ ReplyInv (l ++ (Spec.event x a).toList) z :=
    fun l x a z hi hst => ⟨(Spec.step_cases hst).tx.conserved hi.1,
      (Spec.step_cases hst).readStep.replyInv hi.1 hi.2⟩
  exact (trace_invariant (fun l x => Conserved l x ∧ ReplyInv l x) hboth
    ⟨⟨rfl, rfl⟩, ⟨atEach_nil _, False.elim⟩⟩ hrun).2

/-- **What is on the socket before a reply.**  In every run, before each reply frame there is the
receipt of the read it answers, and the messages sent before the reply are exactly those that had
been pushed when `on_event` last took the list of `tx_fifo` before that receipt; the messages are
sent in push order throughout. -/
theorem messages_before_reply (dev : PcieDev (Fin barCount)) (buf : Mem) (bytes : List Byte)
    (moves : List Move) (s : GlueState)
    (hrun : run step (GlueState.init dev buf bytes) moves = some s)
    (pre : List Event) (r : PcieNetReply) (post : List Event)
    (hlog : trace step event (GlueState.init dev buf bytes) moves = pre ++ .sendReply r :: post) :
    ∃ pre₀ op mid, pre = pre₀ ++ .recv op :: mid ∧ IsRead op ∧ (∀ op', .recv op' ∉ mid) ∧
      sent pre = taken pre₀ ∧ sent pre <+: pushed pre := by
  obtain ⟨y, hy, _, htrace⟩ := run_init_refines hrun
  have hi := run_replyInv hy
  rw [← htrace] at hi
  obtain ⟨pre₀, op, mid, rfl, hop, hsent, hmid⟩ := hi.order pre (.sendReply r) post hlog r rfl
  have hnone : sent (.recv op :: mid) = [] := by
    refine List.filterMap_eq_nil_iff.mpr fun e he => ?_
    rcases List.mem_cons.mp he with rfl | he
    · rfl
    · cases e with
      | send m => exact absurd rfl ((hmid _ he).2.1 m)
      | _ => rfl
  have htaken : sent (pre₀ ++ .recv op :: mid) = taken pre₀ := by
    rw [sent_append, hnone, List.append_nil, hsent]
  refine ⟨pre₀, op, mid, rfl, hop, fun op' hmem => (hmid _ hmem).2.2.1 op' rfl, htaken, ?_⟩
  -- a prefix of a prefix of the pushes
  rw [htaken, pushed_append]
  refine List.IsPrefix.trans ?_ (List.prefix_append _ _)
  obtain ⟨rest, hrest⟩ := List.rdropWhile_prefix (fun e => decide (e ≠ Event.detach)) pre₀
  refine ⟨pushed rest, ?_⟩
  rw [taken, ← pushed_append, hrest]

/-- What PCIe asks for: a message pushed before `pcie_glue_send_reply` answers a read is sent before
the reply frame of this read. -/
def PostedFirst (log : List Event) : Prop :=
  ∀ l₀ p l₁ d l₂ r l₃, log = l₀ ++ .poll p :: (l₁ ++ .reply d :: (l₂ ++ .sendReply r :: l₃)) →
    p.isRead = uintToLogic (1 : BitVec 8) → (∀ d', .reply d' ∉ l₁) → (∀ r', .sendReply r' ∉ l₂) →
      ∀ m ∈ pushed (l₀ ++ .poll p :: l₁), m ∈ sent (l₀ ++ .poll p :: (l₁ ++ .reply d :: l₂))

/-- The VHDL side is given a read, writes a byte to the host and then replies, while the io thread
waits for this reply. -/
def overtakeMoves : List Move :=
  [.deliver 15, ioMove, ioMove, ioMove, ioMove, .poll, .ghdl,
    .push (.writeBuf (fun _ => 2) (fun _ => 3) fun i => if i = 15 then 3 else 2) ⟨0, 0⟩ 1, .ghdl,
    .sendReply (fun _ => 3), .ghdl, ioMove, ioMove]

/-- The byte it writes. -/
def overtakeWrite : Content := ⟨opWriteMem, 0, 0, 0, [0xff]⟩

/-- What it shows before the reply frame. -/
def overtakeLog : List Event :=
  [.recv opReadMem, .enqueue readView, .poll readView.result, .push overtakeWrite,
    .reply (BitVec.allOnes 64), .barReturn [0xff, 0xff, 0xff, 0xff]]

theorem run_overtakeMoves :
    (run step (GlueState.init plainDev (fun _ => 0) readFrame) overtakeMoves).isSome := by
  decide

theorem trace_overtakeMoves :
    trace step event (GlueState.init plainDev (fun _ => 0) readFrame) overtakeMoves
      = overtakeLog ++ [.sendReply ⟨0, 0xffffffff⟩] := by
  decide

/-- The same behind an interrupt, which the io thread sends before it receives the read. -/
def msiThenOvertake : List Move :=
  [.push .msi ⟨0, 0⟩ 0, .ghdl, ioMove, ioMove, ioMove, ioMove, ioMove, ioMove] ++ overtakeMoves

/-- The interrupt. -/
def overtakeMsi : Content := SendCall.msi.msg ⟨0, 0⟩

/-- What this shows before the reply frame. -/
def msiLog : List Event := [.push overtakeMsi, .detach, .send overtakeMsi] ++ overtakeLog

theorem run_msiThenOvertake :
    (run step (GlueState.init plainDev (fun _ => 0) readFrame) msiThenOvertake).isSome := by
  decide

theorem trace_msiThenOvertake :
    trace step event (GlueState.init plainDev (fun _ => 0) readFrame) msiThenOvertake
      = msiLog ++ [.sendReply ⟨0, 0xffffffff⟩] := by
  decide

/-- The interrupt is sent before the reply; the write, pushed behind it, is not. -/
theorem messages_before_reply_overtake :
    sent msiLog = [overtakeMsi] ∧ pushed msiLog = [overtakeMsi, overtakeWrite] ∧
      ∃ pre₀ op mid, msiLog = pre₀ ++ .recv op :: mid ∧ IsRead op ∧ (∀ op', .recv op' ∉ mid) ∧
        sent msiLog = taken pre₀ ∧ sent msiLog <+: pushed msiLog := by
  obtain ⟨s, hrun⟩ := Option.isSome_iff_exists.mp run_msiThenOvertake
  exact ⟨rfl, rfl, messages_before_reply plainDev (fun _ => 0) readFrame msiThenOvertake s hrun
    msiLog ⟨0, 0xffffffff⟩ [] trace_msiThenOvertake⟩

/-- The reply does not wait for the write. -/
theorem reply_overtakes_write :
    ∃ s, run step (GlueState.init plainDev (fun _ => 0) readFrame) overtakeMoves = some s ∧
      ¬PostedFirst
        (trace step event (GlueState.init plainDev (fun _ => 0) readFrame) overtakeMoves) := by
  obtain ⟨s, hrun⟩ := Option.isSome_iff_exists.mp run_overtakeMoves
  refine ⟨s, hrun, fun h => ?_⟩
  rw [trace_overtakeMoves] at h
  have hmem := h [.recv opReadMem, .enqueue readView] readView.result [.push overtakeWrite]
    (BitVec.allOnes 64) [.barReturn [0xff, 0xff, 0xff, 0xff]] ⟨0, 0xffffffff⟩ [] rfl rfl (by simp)
    (by simp) overtakeWrite (by decide)
  exact absurd hmem (by decide)

end VPcie.Glue
