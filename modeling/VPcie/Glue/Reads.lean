import VPcie.Glue.Refinement

/-!
# The read under way

A read leaves `on_bar_read` as a node in `rx_fifo`, is popped by a poll, waits in `reply_node` for
`pcie_glue_send_reply`, and is freed by `on_bar_read` when it has been replied.  At any time there
is at most one.

* `AccessStep` — a move, as far as the accesses on their way to the VHDL side go;
* `one_read_outstanding` — over every run there is at most one read, no poll drops one, every read
  returns the first reply that follows its poll, and other replies change nothing.
-/

namespace VPcie.Glue

open VPcie.Lib VPcie.Net VPcie.Device

/-! ### What a move does to the accesses -/

/-- The accesses the VHDL side has not been given, oldest first. -/
def Spec.queue (x : Spec) : List AccessView := x.ghdl.hand ++ x.rx

/-- What the poll in progress has popped comes first. -/
theorem Spec.queue_popped {x : Spec} {a : AccessView} (h : x.ghdl = .popped a) :
    x.queue = a :: x.rx := by
  rw [Spec.queue, h]
  rfl

/-- The size of the read the io thread waits for. -/
def IoPc.readSize {ν δ : Type} : IoPc ν δ → Option ℕ
  | .spin _ size _ => some size
  | _ => none

/-- An event that is neither about accesses nor about replies of the VHDL side. -/
def Event.Silent : Event → Prop
  | enqueue _ => False
  | poll r => r = emptyResult none
  | pollDrop _ => False
  | reply _ => False
  | barReturn _ => False
  | _ => True

/-- A move, as far as the accesses go. -/
inductive AccessStep (x y : Spec) (e : Option Event) : Prop where
  | frame (hqueue : y.queue = x.queue) (hread : y.read = x.read)
      (hsize : y.io.readSize = x.io.readSize) (he : ∀ a ∈ e, a.Silent)
  | write (a : AccessView) (ha : a.isRead = false) (hqueue : y.queue = x.queue ++ [a])
      (hread : y.read = x.read) (hsize : x.io.readSize = none ∧ y.io.readSize = none)
      (he : e = some (.enqueue a))
  | read (a : AccessView) (ha : a.isRead = true) (hqueue : y.queue = x.queue ++ [a])
      (hread : y.read = .queued) (hx : x.io.readSize = none)
      (hsize : y.io.readSize = some a.size.toNat) (he : e = some (.enqueue a))
  | poll (a : AccessView) (hqueue : x.queue = a :: y.queue)
      (hread : y.read = if a.isRead then .pending else x.read)
      (hsize : y.io.readSize = x.io.readSize) (he : e = some (.poll a.result))
  | answer (d : BitVec 64) (hqueue : y.queue = x.queue) (hx : x.read = .pending)
      (hread : y.read = .copied d) (hsize : y.io.readSize = x.io.readSize)
      (he : e = some (.reply d))
  | spurious (d : BitVec 64) (hqueue : y.queue = x.queue) (hx : x.read ≠ .pending)
      (hread : y.read = x.read) (hsize : y.io.readSize = x.io.readSize)
      (he : e = some (.reply d))
  | replied (d : BitVec 64) (hqueue : y.queue = x.queue) (hx : x.read = .copied d)
      (hread : y.read = .answered d) (hsize : y.io.readSize = x.io.readSize) (he : e = none)
  | barReturn (size : ℕ) (d : BitVec 64) (hqueue : y.queue = x.queue) (hx : x.read = .answered d)
      (hread : y.read = .free) (hsize : x.io.readSize = some size ∧ y.io.readSize = none)
      (he : e = some (.barReturn (leBytes size d.toNat)))

theorem IoPc.Quiet.readSize_eq {ν δ : Type} {io : IoPc ν δ} (h : io.Quiet) :
    io.readSize = none := by
  cases io <;> first | rfl | exact h.elim

theorem IoPc.Plain.readSize_eq {ν δ : Type} {io : IoPc ν δ} (h : io.Plain) :
    io.readSize = none := by
  cases io <;> first | rfl | exact h.elim

theorem accessView_size {isRead : Bool} {bar : Fin barCount} {msg : PcieNetMsg}
    (hwidth : msg.width.toNat ≤ 8) :
    (Spec.accessView isRead bar msg).size.toNat = msg.width.toNat := by
  show (BitVec.ofNat 16 msg.width.toNat).toNat = msg.width.toNat
  rw [BitVec.toNat_ofNat]
  omega

theorem SpecStep.access {x y : Spec} {e : Option Event} (h : SpecStep x y e) :
    AccessStep x y e := by
  cases h with
  | deliver k => exact .frame rfl rfl rfl (by simp)
  | control io hio hio' hev hexit =>
    exact .frame rfl rfl (hio'.readSize_eq.trans hio.readSize_eq.symm) (by simp)
  | recv ev up loop io e hio hrecv =>
    refine .frame rfl rfl ?_ ?_
    · rw [hio]
      exact (receive_plain hrecv).readSize_eq
    · rcases receive_cases hrecv with ⟨rfl, _⟩ | ⟨op, rfl, _⟩
      · simp
      · intro a ha
        cases ha
        trivial
  | write bar ev hio hwidth =>
    exact .write _ rfl (List.append_assoc _ _ _).symm rfl ⟨by rw [hio]; rfl, rfl⟩ rfl
  | read bar ev hio hwidth =>
    refine .read _ rfl (List.append_assoc _ _ _).symm rfl (by rw [hio]; rfl) ?_ rfl
    rw [accessView_size hwidth]
    rfl
  | barReturn size ev data hio hread =>
    exact .barReturn size data rfl hread rfl ⟨by rw [hio]; rfl, rfl⟩ rfl
  | reply r ev hio =>
    refine .frame rfl rfl (by rw [hio]; rfl) ?_
    intro a ha
    cases ha
    trivial
  | batch k stop hio => exact .frame rfl rfl (by rw [hio]; rfl) (by simp)
  | keysEnd stop hio =>
    exact .frame rfl rfl (by rw [hio]; exact (loopEnd_quiet stop).readSize_eq) (by simp)
  | quit ks stop hio =>
    refine .frame rfl rfl (by rw [hio]; rfl) ?_
    intro a ha
    cases ha
    trivial
  | detach ks stop hio =>
    refine .frame rfl rfl (by rw [hio]; rfl) ?_
    intro a ha
    cases ha
    trivial
  | drainEnd ks stop hio => exact .frame rfl rfl (by rw [hio]; rfl) (by simp)
  | send m ms ks stop hio =>
    refine .frame rfl rfl (by rw [hio]; rfl) ?_
    intro a ha
    cases ha
    trivial
  | push m hghdl =>
    refine .frame (by simp only [Spec.queue, hghdl]; rfl) rfl rfl ?_
    intro a ha
    cases ha
    trivial
  | wake hghdl => exact .frame (by simp only [Spec.queue, hghdl]; rfl) rfl rfl (by simp)
  | pollEmpty hghdl hrx =>
    refine .frame rfl rfl rfl ?_
    intro a ha
    cases ha
    rfl
  | pop a rx hghdl hrx =>
    exact .frame (by simp only [Spec.queue, hghdl, hrx]; rfl) rfl rfl (by simp)
  | popped a hghdl => exact .poll a (by simp only [Spec.queue, hghdl]; rfl) rfl rfl rfl
  | answer data hghdl hread =>
    exact .answer data (by simp only [Spec.queue, hghdl]; rfl) hread rfl rfl rfl
  | spurious data hghdl hread => exact .spurious data rfl hread rfl rfl rfl
  | replied data hghdl hread =>
    exact .replied data (by simp only [Spec.queue, hghdl]; rfl) hread rfl rfl rfl
  | join hghdl => exact .frame (by simp only [Spec.queue, hghdl]; rfl) rfl rfl (by simp)
  | joinKey hghdl => exact .frame (by simp only [Spec.queue, hghdl]; rfl) rfl rfl (by simp)

/-! ### The life of a read in a trace -/

/-- The result of a poll that returned a read. -/
def PollResult.IsRead (r : PollResult) : Prop := r.isRead = uintToLogic (1 : BitVec 8)

/-- An event in the life of a read: it is queued, given to the VHDL side, or returns. -/
def Event.OfRead : Event → Prop
  | enqueue a => a.isRead = true
  | poll r => r.IsRead
  | barReturn _ => True
  | _ => False

/-- A read was given to the VHDL side, which has not replied since. -/
def ReadPending (log : List Event) : Prop :=
  ∃ l₀ r l₁, log = l₀ ++ .poll r :: l₁ ∧ r.IsRead ∧ ∀ d, .reply d ∉ l₁

/-- The last read of the trace was queued, was then given to the VHDL side, and `bs` is the first
reply after that, cut to the size of the read. -/
def Answered (log : List Event) (bs : List Byte) : Prop :=
  ∃ l₀ a l₁ l₂ d l₃,
    log = l₀ ++ .enqueue a :: (l₁ ++ .poll a.result :: (l₂ ++ .reply d :: l₃)) ∧
      a.isRead = true ∧ (∀ e ∈ l₁ ++ (l₂ ++ l₃), ¬e.OfRead) ∧ (∀ d', .reply d' ∉ l₂) ∧
      bs = leBytes a.size.toNat d.toNat

/-- How far the read under way has come, by the trace. -/
inductive ReadTrail (log : List Event) (queue : List AccessView) (size : Option ℕ) :
    ReadSlot → Prop where
  | free (hsize : size = none) (hqueue : ∀ a ∈ queue, a.isRead = false) :
      ReadTrail log queue size .free
  | queued (l₀ : List Event) (a : AccessView) (l₁ : List Event) (ws : List AccessView)
      (hlog : log = l₀ ++ .enqueue a :: l₁) (ha : a.isRead = true) (hl₁ : ∀ e ∈ l₁, ¬e.OfRead)
      (hqueue : queue = ws ++ [a]) (hws : ∀ b ∈ ws, b.isRead = false)
      (hsize : size = some a.size.toNat) : ReadTrail log queue size .queued
  | pending (l₀ : List Event) (a : AccessView) (l₁ l₂ : List Event)
      (hlog : log = l₀ ++ .enqueue a :: (l₁ ++ .poll a.result :: l₂)) (ha : a.isRead = true)
      (hl : ∀ e ∈ l₁ ++ l₂, ¬e.OfRead) (hl₂ : ∀ d, .reply d ∉ l₂) (hqueue : queue = [])
      (hsize : size = some a.size.toNat) : ReadTrail log queue size .pending
  | copied (d : BitVec 64) (n : ℕ) (hans : Answered log (leBytes n d.toNat)) (hqueue : queue = [])
      (hsize : size = some n) : ReadTrail log queue size (.copied d)
  | answered (d : BitVec 64) (n : ℕ) (hans : Answered log (leBytes n d.toNat)) (hqueue : queue = [])
      (hsize : size = some n) : ReadTrail log queue size (.answered d)

section Trail

variable {log : List Event} {queue : List AccessView} {size : Option ℕ} {slot : ReadSlot}

theorem isRead_result {a : AccessView} (h : a.result.IsRead) : a.isRead = true := by
  by_contra hne
  simp only [PollResult.IsRead, AccessView.result, hne] at h
  exact absurd h (by decide)

theorem Event.Silent.not_ofRead {e : Event} (h : e.Silent) : ¬e.OfRead := by
  cases e with
  | poll r =>
    obtain rfl : r = emptyResult none := h
    show ¬uintToLogic (0 : BitVec 8) = uintToLogic (1 : BitVec 8)
    decide
  | enqueue a => exact h.elim
  | barReturn bs => exact h.elim
  | _ => exact id

theorem Event.Silent.ne_reply {e : Event} (h : e.Silent) (d : BitVec 64) : Event.reply d ≠ e := by
  intro heq
  rw [← heq] at h
  exact h

/-- Nothing more happens to an answered read. -/
theorem Answered.snoc {bs : List Byte} (h : Answered log bs) {e : Event} (he : ¬e.OfRead) :
    Answered (log ++ [e]) bs := by
  obtain ⟨l₀, a, l₁, l₂, d, l₃, rfl, ha, hl, hl₂, rfl⟩ := h
  refine ⟨l₀, a, l₁, l₂, d, l₃ ++ [e], by simp, ha, ?_, hl₂, rfl⟩
  intro e' he'
  rw [← List.append_assoc, ← List.append_assoc, List.append_assoc l₁] at he'
  rcases List.mem_append.mp he' with hmem | hmem
  · exact hl e' hmem
  · rw [List.mem_singleton.mp hmem]
    exact he

/-- An event that is not of the read, and no reply it waits for, leaves it where it is. -/
theorem ReadTrail.snoc (h : ReadTrail log queue size slot) {e : Event} (he : ¬e.OfRead)
    (hreply : slot = .pending → ∀ d, .reply d ≠ e) : ReadTrail (log ++ [e]) queue size slot := by
  have hlast : ∀ l : List Event, (∀ e' ∈ l, ¬e'.OfRead) → ∀ e' ∈ l ++ [e], ¬e'.OfRead := by
    intro l hl e' he'
    rcases List.mem_append.mp he' with hmem | hmem
    · exact hl e' hmem
    · rw [List.mem_singleton.mp hmem]
      exact he
  cases h with
  | free hsize hqueue => exact .free hsize hqueue
  | queued l₀ a l₁ ws hlog ha hl₁ hqueue hws hsize =>
    exact .queued l₀ a (l₁ ++ [e]) ws (by rw [hlog]; simp) ha (hlast l₁ hl₁) hqueue hws hsize
  | pending l₀ a l₁ l₂ hlog ha hl hl₂ hqueue hsize =>
    refine .pending l₀ a l₁ (l₂ ++ [e]) (by rw [hlog]; simp) ha ?_ ?_ hqueue hsize
    · rw [← List.append_assoc]
      exact hlast _ hl
    · intro d hmem
      rcases List.mem_append.mp hmem with hmem | hmem
      · exact hl₂ d hmem
      · exact hreply rfl d (List.mem_singleton.mp hmem)
  | copied d n hans hqueue hsize => exact .copied d n (hans.snoc he) hqueue hsize
  | answered d n hans hqueue hsize => exact .answered d n (hans.snoc he) hqueue hsize

/-- While the io thread does not wait, there is no read. -/
theorem ReadTrail.of_none (h : ReadTrail log queue none slot) :
    slot = .free ∧ ∀ a ∈ queue, a.isRead = false := by
  cases h with
  | free _ hqueue => exact ⟨rfl, hqueue⟩
  | queued _ _ _ _ _ _ _ _ _ hsize => exact absurd hsize (by simp)
  | pending _ _ _ _ _ _ _ _ _ hsize => exact absurd hsize (by simp)
  | copied _ _ _ _ hsize => exact absurd hsize (by simp)
  | answered _ _ _ _ hsize => exact absurd hsize (by simp)

/-- The VHDL side is given a write. -/
theorem ReadTrail.pollWrite {a : AccessView} (h : ReadTrail log (a :: queue) size slot)
    (ha : a.isRead = false) : ReadTrail (log ++ [.poll a.result]) queue size slot := by
  have hnot : ¬Event.OfRead (.poll a.result) := by
    intro hread
    rw [isRead_result hread] at ha
    exact absurd ha (by simp)
  refine ReadTrail.snoc ?_ hnot (by simp)
  cases h with
  | free hsize hqueue => exact .free hsize fun b hb => hqueue b (List.mem_cons_of_mem a hb)
  | queued l₀ b l₁ ws hlog hb hl₁ hqueue hws hsize =>
    cases ws with
    | nil =>
      obtain ⟨rfl, _⟩ := List.cons.inj hqueue
      exact absurd (ha.symm.trans hb) (by simp)
    | cons w ws =>
      obtain ⟨_, htail⟩ := List.cons.inj hqueue
      exact .queued l₀ b l₁ ws hlog hb hl₁ htail
        (fun c hc => hws c (List.mem_cons_of_mem w hc)) hsize
  | pending _ _ _ _ _ _ _ _ hqueue => exact absurd hqueue (by simp)
  | copied _ _ _ hqueue => exact absurd hqueue (by simp)
  | answered _ _ _ hqueue => exact absurd hqueue (by simp)

/-- The VHDL side is given the read: nothing was queued behind it. -/
theorem ReadTrail.pollRead {a : AccessView} (h : ReadTrail log (a :: queue) size slot)
    (ha : a.isRead = true) : ReadTrail (log ++ [.poll a.result]) queue size .pending := by
  cases h with
  | free hsize hqueue =>
    exact absurd (ha.symm.trans (hqueue a List.mem_cons_self)) (by simp)
  | queued l₀ b l₁ ws hlog hb hl₁ hqueue hws hsize =>
    cases ws with
    | nil =>
      obtain ⟨rfl, rfl⟩ := List.cons.inj hqueue
      refine .pending l₀ a l₁ [] (by rw [hlog]; simp) ha ?_ (by simp) rfl hsize
      rw [List.append_nil]
      exact hl₁
    | cons w ws =>
      obtain ⟨rfl, _⟩ := List.cons.inj hqueue
      exact absurd (ha.symm.trans (hws a List.mem_cons_self)) (by simp)
  | pending _ _ _ _ _ _ _ _ hqueue => exact absurd hqueue (by simp)
  | copied _ _ _ hqueue => exact absurd hqueue (by simp)
  | answered _ _ _ hqueue => exact absurd hqueue (by simp)

/-- A read the VHDL side has not been given is queued. -/
theorem ReadTrail.queued_of_read {a : AccessView} (h : ReadTrail log (a :: queue) size slot)
    (ha : a.isRead = true) : slot = .queued := by
  cases h with
  | free _ hqueue => exact absurd (ha.symm.trans (hqueue a List.mem_cons_self)) (by simp)
  | queued => rfl
  | pending _ _ _ _ _ _ _ _ hqueue => exact absurd hqueue (by simp)
  | copied _ _ _ hqueue => exact absurd hqueue (by simp)
  | answered _ _ _ hqueue => exact absurd hqueue (by simp)

/-- The first reply after the poll is the one the read gets. -/
theorem ReadTrail.answer (h : ReadTrail log queue size .pending) (d : BitVec 64) :
    ReadTrail (log ++ [.reply d]) queue size (.copied d) := by
  cases h with
  | pending l₀ a l₁ l₂ hlog ha hl hl₂ hqueue hsize =>
    refine .copied d a.size.toNat ⟨l₀, a, l₁, l₂, d, [], by rw [hlog]; simp, ha, ?_, hl₂, rfl⟩
      hqueue hsize
    rw [List.append_nil]
    exact hl

theorem ReadTrail.readPending (h : ReadTrail log queue size .pending) : ReadPending log := by
  cases h with
  | pending l₀ a l₁ l₂ hlog ha hl hl₂ hqueue hsize =>
    refine ⟨l₀ ++ .enqueue a :: l₁, a.result, l₂, by rw [hlog]; simp, ?_, hl₂⟩
    rw [PollResult.IsRead, AccessView.result, ha]
    rfl

end Trail

/-- What every run keeps of a trace and the state it leads to. -/
structure ReadInv (log : List Event) (x : Spec) : Prop where
  trail : ReadTrail log x.queue x.io.readSize x.read
  returns : AtEach (fun pre e => ∀ bs, e = .barReturn bs → Answered pre bs) log
  drops : ∀ r, .pollDrop r ∉ log

theorem ReadInv.snoc {log : List Event} {x y : Spec} (h : ReadInv log x) {e : Event}
    (htrail : ReadTrail (log ++ [e]) y.queue y.io.readSize y.read)
    (hret : ∀ bs, e = .barReturn bs → Answered log bs) (hdrop : ∀ r, .pollDrop r ≠ e) :
    ReadInv (log ++ [e]) y := by
  refine ⟨htrail, h.returns.snoc hret, ?_⟩
  intro r hmem
  rcases List.mem_append.mp hmem with hmem | hmem
  · exact h.drops r hmem
  · exact hdrop r (List.mem_singleton.mp hmem)

theorem AccessStep.readInv {log : List Event} {x y : Spec} {e : Option Event}
    (h : AccessStep x y e) (hi : ReadInv log x) : ReadInv (log ++ e.toList) y := by
  have htrail := hi.trail
  cases h with
  | frame hqueue hread hsize he =>
    rw [← hqueue, ← hread, ← hsize] at htrail
    cases e with
    | none =>
      rw [Option.toList_none, List.append_nil]
      exact ⟨htrail, hi.returns, hi.drops⟩
    | some e =>
      have hsilent := he e rfl
      refine hi.snoc (htrail.snoc hsilent.not_ofRead fun _ => hsilent.ne_reply) ?_ ?_
      · rintro bs rfl
        exact hsilent.elim
      · rintro r rfl
        exact hsilent.elim
  | write a ha hqueue hread hsize he =>
    subst he
    rw [hsize.1] at htrail
    obtain ⟨hfree, hws⟩ := htrail.of_none
    refine hi.snoc ?_ (by simp) (by simp)
    rw [hread, hfree, hsize.2, hqueue]
    refine .free rfl ?_
    intro b hb
    rcases List.mem_append.mp hb with hmem | hmem
    · exact hws b hmem
    · rw [List.mem_singleton.mp hmem]
      exact ha
  | read a ha hqueue hread hx hsize he =>
    subst he
    rw [hx] at htrail
    refine hi.snoc ?_ (by simp) (by simp)
    rw [hread, hsize, hqueue]
    exact .queued log a [] x.queue rfl ha (by simp) rfl htrail.of_none.2 rfl
  | poll a hqueue hread hsize he =>
    subst he
    rw [hqueue] at htrail
    refine hi.snoc ?_ (by simp) (by simp)
    rw [hread, hsize]
    by_cases ha : a.isRead = true
    · rw [if_pos ha]
      exact htrail.pollRead ha
    · rw [if_neg ha]
      exact htrail.pollWrite (by simpa using ha)
  | answer d hqueue hx hread hsize he =>
    subst he
    rw [hx] at htrail
    refine hi.snoc ?_ (by simp) (by simp)
    rw [hread, hsize, hqueue]
    exact htrail.answer d
  | spurious d hqueue hx hread hsize he =>
    subst he
    refine hi.snoc ?_ (by simp) (by simp)
    rw [hread, hsize, hqueue]
    exact htrail.snoc id fun hpending => absurd hpending hx
  | replied d hqueue hx hread hsize he =>
    subst he
    rw [Option.toList_none, List.append_nil]
    refine ⟨?_, hi.returns, hi.drops⟩
    rw [hx] at htrail
    rw [hread, hsize, hqueue]
    cases htrail with
    | copied d n hans hempty hn => exact .answered d n hans hempty hn
  | barReturn size d hqueue hx hread hsize he =>
    subst he
    rw [hx, hsize.1] at htrail
    cases htrail with
    | answered d n hans hempty hn =>
      cases hn
      refine hi.snoc ?_ ?_ (by simp)
      · rw [hread, hsize.2, hqueue, hempty]
        exact .free rfl (by simp)
      · intro bs hbs
        cases hbs
        exact hans

theorem readInv_init (dev : PcieDev (Fin barCount)) (buf : Mem) (bytes : List Byte) :
    ReadInv [] (Spec.init dev buf bytes) :=
  ⟨.free rfl fun _ ha => absurd ha List.not_mem_nil, atEach_nil _, fun _ => List.not_mem_nil⟩

/-- The invariant over every run of the abstract glue. -/
theorem run_readInv {dev : PcieDev (Fin barCount)} {buf : Mem} {bytes : List Byte} {y : Spec}
    {moves : List Move} (hrun : run Spec.step (Spec.init dev buf bytes) moves = some y) :
    ReadInv (trace Spec.step Spec.event (Spec.init dev buf bytes) moves) y :=
  trace_invariant ReadInv (fun _ _ _ _ hi hst => (Spec.step_cases hst).access.readInv hi)
    (readInv_init dev buf bytes) hrun

/-! ### The nodes of reads -/

/-- The cell at `p` is the node of a read. -/
def isReadNode (h : Heap Ptr Node) (p : Ptr) : Bool :=
  match h p with
  | some ⟨_, .access a⟩ => a.isRead
  | _ => false

theorem ValAt.isReadNode_eq {h : Heap Ptr Node} {p : Ptr} {a : BarAccess}
    (hp : ValAt h p (.access a)) : isReadNode h p = a.isRead := by
  obtain ⟨n, hn⟩ := hp.exists
  rw [isReadNode, hn]

theorem countP_isReadNode {h : Heap Ptr Node} {l : List Ptr} {as : List BarAccess}
    (hl : Carries h l (as.map Node.access)) :
    l.countP (isReadNode h) = as.countP BarAccess.isRead := by
  induction as generalizing l with
  | nil =>
    have hlen := hl.length
    rw [List.map_nil, List.length_nil] at hlen
    rw [List.eq_nil_of_length_eq_zero hlen]
    rfl
  | cons a as ih =>
    cases l with
    | nil => exact absurd hl.length (by simp)
    | cons p l =>
      rw [List.map_cons, carries_cons] at hl
      rw [List.countP_cons, List.countP_cons, ih hl.2, ValAt.isReadNode_eq hl.1]

theorem countP_writes {as : List BarAccess} (h : ∀ a ∈ as, a.isRead = false) :
    as.countP BarAccess.isRead = 0 := by
  rw [List.countP_eq_zero]
  intro a ha
  simp [h a ha]

/-- The read nodes the VHDL side has not been given, and the one it has. -/
theorem ReadRel.count_le {h : Heap Ptr Node} {io : IoPc Ptr (Option Ptr)}
    {replyNode repl : Option Ptr} {seq : List Ptr} {as : List BarAccess} {slot : ReadSlot}
    (hr : ReadRel h io replyNode repl seq as slot) (hc : Carries h seq (as.map Node.access)) :
    seq.countP (isReadNode h) + (if replyNode.isSome then 1 else 0) ≤ 1 := by
  cases hr with
  | free hio hslot hrepl hw =>
    rw [countP_isReadNode hc, countP_writes hw, hslot]
    simp
  | queued node size ev hio hslot hrepl ws bs a hseq has hw hread hsize =>
    rw [countP_isReadNode hc, has, List.countP_append, countP_writes hw, hslot]
    simp [hread]
  | pending node size ev hio hslot hrepl hseq =>
    rw [hseq, hslot]
    simp
  | copied d node size ev hio hslot hrepl hseq =>
    rw [hseq, hslot]
    simp
  | answered d node size ev hio hslot hrepl hseq =>
    rw [hseq, hslot]
    simp

/-- A reply that no read waits for finds the slot empty. -/
theorem ReadRel.replyNode_none {h : Heap Ptr Node} {io : IoPc Ptr (Option Ptr)}
    {replyNode repl : Option Ptr} {seq : List Ptr} {as : List BarAccess} {slot : ReadSlot}
    (hr : ReadRel h io replyNode repl seq as slot) (hne : slot ≠ .pending) : replyNode = none := by
  cases hr with
  | free _ hslot => exact hslot
  | queued _ _ _ _ hslot => exact hslot
  | pending => exact absurd rfl hne
  | copied _ _ _ _ _ hslot => exact hslot
  | answered _ _ _ _ _ hslot => exact hslot

/-- **At most one read is outstanding, and it gets its own answer.**  Over every run: the nodes of
reads in `rx_fifo`, in the hand of a poll and in `reply_node` are at most one; no poll frees the
node of a read; what `on_bar_read` returns is the first reply after the poll that returned its read,
cut to the size; and a reply while no read that was polled waits for one changes nothing. -/
theorem one_read_outstanding (dev : PcieDev (Fin barCount)) (buf : Mem) (bytes : List Byte)
    (moves : List Move) (s : GlueState)
    (hrun : run step (GlueState.init dev buf bytes) moves = some s) :
    let log := trace step event (GlueState.init dev buf bytes) moves
    (∃ l, IsQueue s.heap s.rxFifo l ∧
      (s.ghdl.hand ++ l).countP (isReadNode s.heap) + (if s.replyNode.isSome then 1 else 0) ≤ 1) ∧
      (∀ r, .pollDrop r ∉ log) ∧
      (∀ pre bs post, log = pre ++ .barReturn bs :: post → Answered pre bs) ∧
      (¬ReadPending log → s.ghdl = .idle → ∀ data, step s (.sendReply data) = some s) := by
  intro log
  obtain ⟨y, hy, ⟨ds, rx, as, hR⟩, htrace⟩ := run_init_refines hrun
  have hi := run_readInv hy
  rw [← htrace] at hi
  refine ⟨⟨rx, hR.rxRel.queue, hR.readRel.count_le hR.rxRel.carries⟩, hi.drops, ?_, ?_⟩
  · intro pre bs post hlog
    exact hi.returns pre (.barReturn bs) post hlog bs rfl
  · intro hnot hidle data
    have hslot : s.replyNode = none := by
      refine hR.readRel.replyNode_none ?_
      intro hpending
      have htrail := hi.trail
      rw [hpending] at htrail
      exact hnot htrail.readPending
    simp only [step, act, sendReplyStep, hidle, hslot]
    rfl

/-- A read, with replies that come before its poll. -/
def earlyReplyMoves : List Move :=
  [.sendReply (fun _ => 2), .deliver 15, ioMove, ioMove, ioMove, ioMove, .sendReply (fun _ => 2),
    .poll, .ghdl, .sendReply (fun _ => 3), .ghdl, .sendReply (fun _ => 2), ioMove]

theorem one_read_outstanding_early :
    ∃ s, run step (GlueState.init plainDev (fun _ => 0) readFrame) earlyReplyMoves = some s ∧
      Answered [.reply 0, .recv opReadMem, .enqueue readView, .reply 0, .poll readView.result,
        .reply (BitVec.allOnes 64), .reply 0] [0xff, 0xff, 0xff, 0xff] := by
  have hsome :
      (run step (GlueState.init plainDev (fun _ => 0) readFrame) earlyReplyMoves).isSome := by
    decide
  have hlog : trace step event (GlueState.init plainDev (fun _ => 0) readFrame) earlyReplyMoves
      = [.reply 0, .recv opReadMem, .enqueue readView, .reply 0, .poll readView.result,
          .reply (BitVec.allOnes 64), .reply 0] ++ .barReturn [0xff, 0xff, 0xff, 0xff] :: [] := by
    decide
  obtain ⟨s, hrun⟩ := Option.isSome_iff_exists.mp hsome
  have h := one_read_outstanding plainDev (fun _ => 0) readFrame earlyReplyMoves s hrun
  exact ⟨s, hrun, h.2.2.1 _ _ _ hlog⟩

end VPcie.Glue
