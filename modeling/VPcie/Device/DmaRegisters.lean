import VPcie.Device.DmaTransfer

/-!
# The registers of the C device

`on_read` decodes the five registers; `on_write` copies the data to the address before it looks at
it.  So STA can be written by the host, S stays where the host put it, and a write past the
registers goes to the bram.

* `step_cases` — what a turn of the loop does to the memory;
* `reg_lastWritten` — ADL, ADH and BAZ read back;
* `registerFile_iff` — the runs in which the device follows its datasheet.
-/

namespace VPcie.Device

open VPcie.Lib VPcie.Net

/-! ### The datasheet -/

/-- A 32-bit access anywhere in the BAR, or the timeout. -/
inductive BarEvent : Event → Prop where
  | access (m : PcieNetMsg) (h : IsAccess m) : BarEvent (.recv m)
  | timeout (fresh : Fresh) : BarEvent (.timeout fresh)

/-- A read of the register is answered with `v`. -/
def Dma.Reads (d : Dma) (r : DmaReg) (v : BitVec 32) : Prop :=
  ∀ m, IsAccess m → m.op = opReadMem → m.addr = r.addr →
    (d.recv m).2 = [.reply ⟨0, v.setWidth 64⟩]

/-- The last value written to a register, `v` if there is none. -/
def lastWritten (r : DmaReg) (v : BitVec 32) (es : List Event) : BitVec 32 :=
  es.foldl (fun v e =>
    match e with
    | .recv m => if m.op = opWriteMem ∧ m.addr = r.addr then written m else v
    | .timeout _ => v) v

/-- The registers a host writes and reads back. -/
def IsPlain (r : DmaReg) : Prop := r = .adl ∨ r = .adh ∨ r = .baz

/-- The event starts a transfer. -/
def Starts : Event → Prop
  | .recv m => IsStart m
  | .timeout _ => False

/-- The event is the end of a transfer. -/
def Ends : Event → Prop
  | .recv _ => False
  | .timeout _ => True

/-- The event is an access outside the five registers. -/
def Outside : Event → Prop
  | .recv m => ¬ IsDmaReg m.addr
  | .timeout _ => False

/-- The device follows its datasheet in every state of a run. -/
structure RegisterFile (d : Dma) (es : List Event) : Prop where
  readBack : ∀ pre s log, pre <+: es → run Dma.step (d, []) pre = some (s, log) →
    ∀ r, IsPlain r → s.Reads r (lastWritten r (d.reg r) pre)
  status : ∀ pre e s log t, pre ++ [e] <+: es → run Dma.step (d, []) pre = some (s, log) →
    Dma.step (s, log) e = some t → t.1.reg .sta ≠ s.reg .sta → Starts e ∨ Ends e
  selfClears : ∀ pre s log, pre <+: es → run Dma.step (d, []) pre = some (s, log) →
    (∃ e ∈ pre, Starts e) → ∃ v, s.Reads .ctl v ∧ v.getLsbD 31 = false
  outside : ∀ pre e s log t, pre ++ [e] <+: es → run Dma.step (d, []) pre = some (s, log) →
    Dma.step (s, log) e = some t → Outside e → t.1 = s

/-! ### What a turn does -/

section Turn

variable {d : Dma}

/-- **What a turn of the loop does to the memory**: nothing, or a word is set, a transfer starts, or
one ends. -/
theorem step_cases {s t : Dma × List Effect} {e : Event} (hready : s.1.Ready) (he : BarEvent e)
    (hstep : Dma.step s e = some t) :
    (∃ m, e = .recv m ∧ IsAccess m ∧ m.op = opReadMem ∧ t.1 = s.1) ∨
      (∃ m, e = .recv m ∧ IsAccess m ∧ m.op = opWriteMem ∧ ¬ IsStart m ∧
        t.1 = { s.1 with mem := setWord s.1.mem (wordIndex m) (written m) }) ∨
      (∃ m, e = .recv m ∧ IsAccess m ∧ IsStart m ∧ t.1 = s.1.started (written m)) ∨
      ∃ fresh, e = .timeout fresh ∧ t.1.dev = s.1.dev ∧
        (t.1.mem = s.1.mem ∨ ∃ v, t.1.mem = setWord s.1.mem DmaReg.sta.index v) := by
  obtain ⟨d, log⟩ := s
  cases he with
  | access m haccess =>
    rw [step_recv, Option.some.injEq] at hstep
    subst hstep
    rcases recv_access hready haccess with ⟨hop, hrecv⟩ | ⟨hop, hstart, hrecv⟩ | ⟨hstart, hrecv⟩
    · exact Or.inl ⟨m, rfl, haccess, hop, by rw [hrecv]⟩
    · exact Or.inr (Or.inl ⟨m, rfl, haccess, hop, hstart, by rw [hrecv]⟩)
    · exact Or.inr (Or.inr (Or.inl ⟨m, rfl, haccess, hstart, by rw [hrecv]⟩))
  | timeout fresh =>
    refine Or.inr (Or.inr (Or.inr ⟨fresh, rfl, ?_⟩))
    rw [step_timeout] at hstep
    split at hstep
    · rw [Option.some.injEq] at hstep
      subst hstep
      obtain ⟨msg, msi⟩ := fresh
      cases msg with
      | none => exact ⟨rfl, Or.inl rfl⟩
      | some m => exact ⟨rfl, Or.inr ⟨_, rfl⟩⟩
    · cases hstep

theorem ready_step {s t : Dma × List Effect} {e : Event} (he : BarEvent e) (hready : s.1.Ready)
    (hstep : Dma.step s e = some t) : t.1.Ready := by
  rcases step_cases hready he hstep with ⟨m, -, -, -, ht⟩ | ⟨m, -, -, -, -, ht⟩ | ⟨m, -, -, -, ht⟩ |
    ⟨fresh, -, hdev, -⟩
  · exact ht ▸ hready
  · exact ht ▸ hready
  · exact ht ▸ hready
  · unfold Dma.Ready
    rw [hdev]
    exact hready

/-- A register reads as it is. -/
theorem reads_reg (hready : d.Ready) (r : DmaReg) : d.Reads r (d.reg r) := by
  intro m haccess hop haddr
  have hreg : IsDmaReg m.addr := by
    unfold IsDmaReg
    rw [haddr]
    cases r <;> decide
  have hindex := (haccess.addr_eq_iff r).mp haddr
  rw [recv_read hready haccess hop, onRead, if_pos hreg, haccess.addr_eq, hindex, barReply,
    List.take_of_length_le (by rw [load_length]; decide), ← word_toNat, BitVec.ofNat_toNat]
  rfl

end Turn

/-- There is a read of each register. -/
def readMsg (r : DmaReg) : PcieNetMsg where
  op := opReadMem
  bar := 1
  width := 4
  addr := r.addr
  size := 0
  data := fun _ => 0

theorem readMsg_access (r : DmaReg) : IsAccess (readMsg r) := by
  refine ⟨Or.inl rfl, rfl, rfl, ?_, ?_⟩
  · cases r <;> decide
  · cases r <;> decide

theorem Dma.Reads.unique {d : Dma} {r : DmaReg} {v v' : BitVec 32} (h : d.Reads r v)
    (h' : d.Reads r v') : v = v' := by
  have heq := (h (readMsg r) (readMsg_access r) rfl rfl).symm.trans
    (h' (readMsg r) (readMsg_access r) rfl rfl)
  have hdata := congrArg PcieNetReply.data (Effect.reply.inj (List.singleton_inj.mp heq))
  have hlow := congrArg (BitVec.setWidth 32) hdata
  rw [BitVec.setWidth_setWidth_of_le _ (by decide), BitVec.setWidth_setWidth_of_le _ (by decide),
    BitVec.setWidth_eq, BitVec.setWidth_eq] at hlow
  exact hlow

/-! ### What is read back -/

section Run

variable {s t : Dma × List Effect} {e : Event}

/-- A start leaves a plain register as it is. -/
theorem reg_started {r : DmaReg} (hr : IsPlain r) (d : Dma) (v : BitVec 32) :
    (d.started v).reg r = d.reg r := by
  unfold Dma.started capture Dma.reg
  rcases hr with rfl | rfl | rfl <;> simp only [word_setWord] <;> rfl

/-- A turn changes a plain register only by a write of it. -/
theorem reg_step {r : DmaReg} (hr : IsPlain r) (he : BarEvent e) (hready : s.1.Ready)
    (hstep : Dma.step s e = some t) : t.1.reg r = lastWritten r (s.1.reg r) [e] := by
  rcases step_cases hready he hstep with ⟨m, rfl, haccess, hop, ht⟩ |
    ⟨m, rfl, haccess, hop, hstart, ht⟩ | ⟨m, rfl, haccess, hstart, ht⟩ | ⟨fresh, rfl, -, hmem⟩
  · rw [ht]
    refine (if_neg fun hc => ?_).symm
    exact absurd (hop.symm.trans hc.1) (by decide)
  · rw [ht]
    by_cases hindex : wordIndex m = r.index
    · have haddr := (haccess.addr_eq_iff r).mpr hindex
      refine Eq.trans ?_ (if_pos ⟨hop, haddr⟩).symm
      show word (setWord s.1.mem (wordIndex m) (written m)) r.index = written m
      rw [hindex, word_setWord_self]
    · have haddr : m.addr ≠ r.addr := fun haddr => hindex ((haccess.addr_eq_iff r).mp haddr)
      refine Eq.trans ?_ (if_neg fun hc => haddr hc.2).symm
      exact word_setWord_of_ne _ _ _ _ (Ne.symm hindex)
  · rw [ht, reg_started hr]
    refine (if_neg fun hc => ?_).symm
    rw [hstart.2.1] at hc
    rcases hr with rfl | rfl | rfl <;> exact absurd hc.2 (by decide)
  · show word t.1.mem r.index = word s.1.mem r.index
    rcases hmem with hmem | ⟨v, hmem⟩
    · rw [hmem]
    · have hne : r.index ≠ DmaReg.sta.index := by rcases hr with rfl | rfl | rfl <;> decide
      rw [hmem, word_setWord_of_ne _ _ _ _ hne]

/-- **A plain register holds the last value written to it.** -/
theorem reg_lastWritten {es : List Event} (hes : ∀ e ∈ es, BarEvent e) (hready : s.1.Ready)
    (hrun : run Dma.step s es = some t) {r : DmaReg} (hr : IsPlain r) :
    t.1.reg r = lastWritten r (s.1.reg r) es := by
  induction es generalizing s with
  | nil =>
    rw [run_nil, Option.some.injEq] at hrun
    rw [hrun]
    rfl
  | cons e es ih =>
    obtain ⟨u, hu, hrest⟩ := run_cons_eq_some.mp hrun
    have he := hes e List.mem_cons_self
    have htail := ih (fun e he => hes e (List.mem_cons_of_mem _ he)) (ready_step he hready hu) hrest
    rw [htail, reg_step hr he hready hu]
    rfl

theorem ready_run {es : List Event} (hes : ∀ e ∈ es, BarEvent e) (hready : s.1.Ready)
    (hrun : run Dma.step s es = some t) : t.1.Ready :=
  run_invariant_on (fun s => s.1.Ready) BarEvent (fun _ _ _ => ready_step) hes hready hrun

end Run

/-! ### The runs that follow the datasheet -/

/-- The event does not reach what the datasheet promises: no transfer is started, and a write of STA
or past the registers writes what is there. -/
def Harmless (d : Dma) : Event → Prop
  | .recv m => m.op = opWriteMem → ¬ IsStart m ∧
      (m.addr = DmaReg.sta.addr → written m = d.reg .sta) ∧
      (¬ IsDmaReg m.addr → written m = word d.mem (wordIndex m))
  | .timeout _ => True

section Datasheet

variable {d s : Dma} {log : List Effect} {m : PcieNetMsg}

theorem started_reads_start (hstart : IsStart m) (hready : d.Ready) {v : BitVec 32}
    (h : (d.started (written m)).Reads .ctl v) : v.getLsbD 31 = true := by
  have hreg : (d.started (written m)).reg .ctl = written m := by
    unfold Dma.started capture Dma.reg
    simp only [word_setWord]
    rfl
  have hready' : (d.started (written m)).Ready := hready
  rw [h.unique (reads_reg hready' .ctl), hreg]
  have hbit := hstart.2.2
  rw [show ctlStart = BitVec.twoPow 32 31 from rfl, BitVec.and_twoPow] at hbit
  by_contra hnot
  rw [if_neg hnot] at hbit
  exact hbit rfl

/-- A run that follows the datasheet has harmless writes only. -/
theorem RegisterFile.harmless {es pre : List Event} {e : Event} (h : RegisterFile d es)
    (hready : s.Ready) (he : BarEvent e) (hpre : pre ++ [e] <+: es)
    (hrun : run Dma.step (d, []) pre = some (s, log)) : Harmless s e := by
  cases he with
  | timeout fresh => trivial
  | access m haccess =>
    intro hop
    have hwrite := recv_write hready haccess hop
    have hnostart : ¬ IsStart m := by
      intro hstart
      rw [onWrite_start haccess hstart] at hwrite
      have hstep := step_recv s log m
      rw [hwrite] at hstep
      have hlong : run Dma.step (d, []) (pre ++ [.recv m])
          = some (s.started (written m), log ++ [.status 0]) :=
        run_append_eq_some.mpr ⟨_, hrun, by rw [run_cons, hstep]; rfl⟩
      obtain ⟨v, hreads, hclear⟩ := h.selfClears _ _ _ hpre hlong
        ⟨_, List.mem_append_right _ (List.mem_singleton_self _), hstart⟩
      have hset := started_reads_start hstart hready hreads
      rw [hclear] at hset
      cases hset
    rw [onWrite_plain haccess hop hnostart] at hwrite
    have hstep := step_recv s log m
    rw [hwrite] at hstep
    refine ⟨hnostart, ?_, ?_⟩
    · intro haddr
      by_contra hne
      have hindex := (haccess.addr_eq_iff .sta).mp haddr
      have hchanged : word (setWord s.mem (wordIndex m) (written m)) DmaReg.sta.index
          ≠ s.reg .sta := by
        rw [hindex, word_setWord_self]
        exact hne
      rcases h.status _ _ _ _ _ hpre hrun hstep hchanged with hs | hs
      · exact hnostart hs
      · exact hs
    · intro hout
      have hsame := congrArg Dma.mem (h.outside _ _ _ _ _ hpre hrun hstep hout)
      exact (setWord_eq_self_iff _ _ _).mp hsame

/-- A harmless turn changes STA only as the end of a transfer. -/
theorem Harmless.status {s t : Dma × List Effect} {e : Event} (h : Harmless s.1 e)
    (hready : s.1.Ready) (he : BarEvent e) (hstep : Dma.step s e = some t)
    (hne : t.1.reg .sta ≠ s.1.reg .sta) : Starts e ∨ Ends e := by
  rcases step_cases hready he hstep with ⟨m, rfl, haccess, hop, ht⟩ |
    ⟨m, rfl, haccess, hop, hstart, ht⟩ | ⟨m, rfl, haccess, hstart, ht⟩ | ⟨fresh, rfl, -, hmem⟩
  · rw [ht] at hne
    exact absurd rfl hne
  · exfalso
    apply hne
    rw [ht]
    show word (setWord s.1.mem (wordIndex m) (written m)) DmaReg.sta.index = _
    by_cases hindex : DmaReg.sta.index = wordIndex m
    · rw [← hindex, word_setWord_self]
      exact (h hop).2.1 ((haccess.addr_eq_iff .sta).mpr hindex.symm)
    · rw [word_setWord_of_ne _ _ _ _ hindex]
      rfl
  · exact Or.inl hstart
  · exact Or.inr trivial

/-- A harmless turn past the registers changes nothing. -/
theorem Harmless.outside {s t : Dma × List Effect} {e : Event} (h : Harmless s.1 e)
    (hready : s.1.Ready) (he : BarEvent e) (hstep : Dma.step s e = some t) (hout : Outside e) :
    t.1 = s.1 := by
  rcases step_cases hready he hstep with ⟨m, rfl, haccess, hop, ht⟩ |
    ⟨m, rfl, haccess, hop, hstart, ht⟩ | ⟨m, rfl, haccess, hstart, ht⟩ | ⟨fresh, rfl, -, hmem⟩
  · exact ht
  · rw [ht, (setWord_eq_self_iff _ _ _).mpr ((h hop).2.2 hout)]
  · exact absurd (Or.inl hstart.2.1) hout
  · exact absurd hout id

/-- **The runs in which the device follows its datasheet** are those without a start, in which no
write of STA or past the registers changes what it is for. -/
theorem registerFile_iff (dev : PcieDev Unit) (mem : Mem) {es : List Event}
    (hes : ∀ e ∈ es, BarEvent e) : RegisterFile (mainDma dev mem) es ↔
      ∀ pre e s log, pre ++ [e] <+: es → run Dma.step (mainDma dev mem, []) pre = some (s, log) →
        Harmless s e := by
  have hready : (mainDma dev mem).Ready := mainDma_ready dev mem
  have hpre : ∀ pre, pre <+: es → ∀ e ∈ pre, BarEvent e := fun pre h e he => hes e (h.subset he)
  have hready_after : ∀ pre s log, pre <+: es →
      run Dma.step (mainDma dev mem, []) pre = some (s, log) → s.Ready :=
    fun pre s log h hrun => ready_run (hpre pre h) hready hrun
  have hlast : ∀ pre e, pre ++ [e] <+: es → pre <+: es ∧ BarEvent e := by
    intro pre e h
    exact ⟨(List.prefix_append _ _).trans h,
      hpre _ h e (List.mem_append_right _ (List.mem_singleton_self e))⟩
  constructor
  · intro h pre e s log hes' hrun
    obtain ⟨hshort, he⟩ := hlast pre e hes'
    exact h.harmless (hready_after pre s log hshort hrun) he hes' hrun
  · intro h
    refine ⟨?_, ?_, ?_, ?_⟩
    · intro pre s log hshort hrun r hr
      rw [← reg_lastWritten (hpre pre hshort) hready hrun hr]
      exact reads_reg (hready_after pre s log hshort hrun) r
    · intro pre e s log t hes' hrun hstep
      obtain ⟨hshort, he⟩ := hlast pre e hes'
      exact (h pre e s log hes' hrun).status (s := (s, log)) (hready_after pre s log hshort hrun) he
        hstep
    · -- no transfer was started
      intro pre s log hshort hrun hstarted
      exfalso
      obtain ⟨e, hmem, hstart⟩ := hstarted
      obtain ⟨front, back, rfl⟩ := List.append_of_mem hmem
      obtain ⟨u, hfront, -⟩ := run_append_eq_some.mp hrun
      have hfirst : front ++ [e] <+: es :=
        List.IsPrefix.trans ⟨back, by rw [List.append_assoc]; rfl⟩ hshort
      have hharmless := h front e u.1 u.2 hfirst hfront
      cases e with
      | recv m => exact (hharmless hstart.1).1 hstart
      | timeout fresh => exact hstart
    · intro pre e s log t hes' hrun hstep
      obtain ⟨hshort, he⟩ := hlast pre e hes'
      exact (h pre e s log hes' hrun).outside (s := (s, log)) (hready_after pre s log hshort hrun)
        he
        hstep

end Datasheet

theorem registerFile_ctlWrite : RegisterFile zeroDma [.recv (ctlWrite 0x40000080)] := by
  have hes : ∀ e ∈ [Event.recv (ctlWrite 0x40000080)], BarEvent e := by
    intro e he
    rw [List.mem_singleton.mp he]
    exact .access _ (ctlWrite_access _)
  refine (registerFile_iff _ _ hes).mpr ?_
  intro pre e s log hpre _
  have hmem := hpre.subset (List.mem_append_right pre (List.mem_singleton_self e))
  rw [List.mem_singleton.mp hmem]
  intro _
  refine ⟨?_, fun haddr => absurd haddr (by decide), fun hout => absurd (Or.inl rfl) hout⟩
  intro hstart
  have hbit := hstart.2.2
  rw [written_barWrite] at hbit
  exact absurd hbit (by decide)

/-- **A write past the registers goes to the bram.** -/
theorem writePastRegisters_changes : ¬ RegisterFile zeroDma [.recv (barWrite 0x14 0xffffffff)] := by
  intro h
  have haccess : IsAccess (barWrite 0x14 0xffffffff) := ⟨Or.inr rfl, rfl, rfl, by decide, by decide⟩
  have hout : ¬ IsDmaReg (barWrite 0x14 0xffffffff).addr := by decide
  have hready : zeroDma.Ready := mainDma_ready _ _
  have hstep := step_recv zeroDma [] (barWrite 0x14 0xffffffff)
  rw [recv_write hready haccess rfl,
    onWrite_plain haccess rfl (fun hstart => hout (Or.inl hstart.2.1))] at hstep
  have hsame := h.outside [] _ zeroDma [] _ (List.prefix_refl _) rfl hstep hout
  have hword : written (barWrite 0x14 0xffffffff) = word zeroDma.mem 5 :=
    (setWord_eq_self_iff _ _ _).mp (congrArg Dma.mem hsame)
  have hbyte : ∀ mem : Mem, written (barWrite 0x14 0xffffffff) = word mem 5 → mem 20 = 0xff := by
    intro mem hmem
    have hbytes := congrArg (fun bs => bs.getD 0 0) (leBytes_word mem 5)
    rw [← hmem, written_barWrite] at hbytes
    exact hbytes.symm
  have hintact : zeroDma.Intact := mainDma_intact _ _
  have hfirst : zeroDma.mem 20 = 0 := hintact.bram 0 (by decide)
  rw [hbyte _ hword] at hfirst
  exact absurd hfirst (by decide)

end VPcie.Device
