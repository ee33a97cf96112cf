import Mathlib.Data.List.Perm.Basic
import VPcie.Device.MainDma

/-!
# What a transfer of the C device writes

A write of CTL with the bit S captures the destination, the seed and the size; the task then sends
the bram, page by page.  The size is captured but only `DMA_REG_STA` uses it.

* `sendPages_writes` — the pages, as the bytes they write;
* `Pending` — a transfer waits for its task, whatever registers are accessed;
* `finalize_effects` — what the task does;
* `transfersExactly_iff` — it writes what was asked exactly when this is the whole bram.
-/

namespace VPcie.Device

open VPcie.Lib VPcie.Net

/-! ### What was asked -/

/-- `DMA_REG_CTL[15:0]`. -/
def transferSize (ctl : BitVec 32) : ℕ := (ctl.extractLsb' 0 16).toNat

/-- `ADH:ADL`. -/
def destination (adh adl : BitVec 32) : BitVec 64 := adh ++ adl

/-- The bytes a message writes, at their addresses. -/
def writes (c : Content) : List (BitVec 64 × Byte) :=
  (List.range c.data.length).map fun i => (c.addr + BitVec.ofNat 64 i, c.data.getD i 0)

/-- The bytes the `WRITE_MEM` messages among some effects write. -/
def memWrites (es : List Effect) : List (BitVec 64 × Byte) :=
  es.flatMap fun e =>
    match e with
    | .send c => if c.op = opWriteMem then writes c else []
    | _ => []

/-- The pattern of the bram with the seed added, from an address on. -/
def pattern (dst : BitVec 64) (baz : BitVec 32) (n : ℕ) : List (BitVec 64 × Byte) :=
  (List.range n).map fun i => (dst + BitVec.ofNat 64 i, BitVec.ofNat 8 (i + baz.toNat))

/-- The bit D and the size. -/
def completed (ctl : BitVec 32) : BitVec 32 := BitVec.ofNat 32 (0x80000000 + transferSize ctl)

/-- A transfer that ends as it should: after the messages the status is set, and stays, and a MSI
follows if it was enabled. -/
structure Completes (ctl : BitVec 32) (before after : List Effect) (d : Dma) : Prop where
  messages : ∀ c, Effect.send c ∈ before → c.op = opWriteMem
  status : Effect.status (completed ctl) ∉ before
  register : d.reg .sta = completed ctl
  msi : if ctl.getLsbD 30 then ∃ c, after = [.send c] ∧ c.op = opMsi else after = []

/-- A transfer as it was asked for: each byte is written once, nothing else is, and it completes. -/
def TransfersExactly (ctl : BitVec 32) (dst : BitVec 64) (baz : BitVec 32) (effects : List Effect)
    (d : Dma) : Prop :=
  ∃ before after, effects = before ++ .status (completed ctl) :: after ∧
    (memWrites before).Perm (pattern dst baz (transferSize ctl)) ∧ Completes ctl before after d

/-! ### The pages -/

theorem addBaz_apply (baz : BitVec 32) (data : Mem) (k j : ℕ) :
    addBaz baz data k j = if j < k then data j + baz.setWidth 8 else data j := by
  induction k with
  | zero => rfl
  | succ k ih =>
    rw [addBaz]
    rcases Nat.lt_trichotomy j k with hlt | rfl | hgt
    · rw [store_apply_of_lt _ _ _ _ hlt, ih, if_pos hlt, if_pos (by omega)]
    · have hstored := store_apply_add (addBaz baz data j) j [addBaz baz data j j + baz.setWidth 8] 0
        Nat.one_pos
      rw [Nat.add_zero] at hstored
      rw [hstored, if_pos (Nat.lt_succ_self j), List.getD_cons_zero, ih, if_neg (Nat.lt_irrefl j)]
    · rw [store_apply_of_ge _ _ _ _ (Nat.succ_le_of_lt hgt), ih, if_neg (by omega),
        if_neg (by omega)]

/-- The bytes of one page. -/
theorem writes_fill (mem : Mem) (m : PcieNetMsg) (p : ℕ) : writes (fill mem m p).content
    = (List.range m.size.toNat).map fun i =>
        (m.addr + BitVec.ofNat 64 i, mem (p + i) + (word mem savedBaz).setWidth 8) := by
  have hlen : (fill mem m p).content.data.length = m.size.toNat := load_length _ _ _
  rw [writes, hlen]
  apply List.map_congr_left
  intro i hi
  have hi := List.mem_range.mp hi
  show (m.addr + BitVec.ofNat 64 i, (load (fill mem m p).data 0 m.size.toNat).getD i 0) = _
  rw [load_getD _ _ _ _ hi, Nat.zero_add]
  show (_, addBaz _ (store m.data 0 (load mem p m.size.toNat)) m.size.toNat i) = _
  have hstored := store_apply_add m.data 0 (load mem p m.size.toNat) i
    (by rw [load_length]; exact hi)
  rw [Nat.zero_add, load_getD _ _ _ _ hi] at hstored
  rw [addBaz_apply, if_pos hi, hstored]

/-- A list of consecutive addresses, cut in two. -/
theorem range_map_add (f : ℕ → BitVec 64 × Byte) (a b : ℕ) : (List.range (a + b)).map f
    = (List.range a).map f ++ (List.range b).map fun i => f (a + i) := by
  rw [List.range_add, List.map_append, List.map_map]
  rfl

/-- **The pages, as the bytes they write.** -/
theorem sendPages_writes (mem : Mem) (n : ℕ) (m : PcieNetMsg) (p : ℕ)
    (hsize : m.size = BitVec.ofNat 16 sizePerM) :
    (sendPages mem n m p).1.flatMap writes = (List.range (n * sizePerM)).map fun i =>
      (m.addr + BitVec.ofNat 64 i, mem (p + i) + (word mem savedBaz).setWidth 8) := by
  induction n generalizing m p with
  | zero =>
    rw [Nat.zero_mul]
    rfl
  | succ n ih =>
    have hpage : m.size.toNat = sizePerM := by
      rw [hsize]
      rfl
    have hrest := ih { fill mem m p with addr := m.addr + BitVec.ofNat 64 sizePerM }
      (p + sizePerM) hsize
    rw [Nat.succ_mul, Nat.add_comm (n * sizePerM), range_map_add]
    show writes (fill mem m p).content ++ List.flatMap writes (sendPages mem n
      { fill mem m p with addr := m.addr + BitVec.ofNat 64 sizePerM } (p + sizePerM)).1 = _
    rw [writes_fill, hpage, hrest]
    simp only [BitVec.ofNat_add, Nat.add_assoc, BitVec.add_assoc]

theorem sendPages_op (mem : Mem) (n : ℕ) (m : PcieNetMsg) (p : ℕ) :
    ∀ c ∈ (sendPages mem n m p).1, c.op = m.op := by
  induction n generalizing m p with
  | zero =>
    intro c hc
    exact absurd hc List.not_mem_nil
  | succ n ih =>
    intro c hc
    rw [sendPages] at hc
    rcases List.mem_cons.mp hc with rfl | hc
    · rfl
    · exact ih { fill mem m p with addr := m.addr + BitVec.ofNat 64 sizePerM } _ c hc

theorem memWrites_append (es fs : List Effect) :
    memWrites (es ++ fs) = memWrites es ++ memWrites fs :=
  List.flatMap_append

/-- Messages of that kind all count. -/
theorem memWrites_send {cs : List Content} (h : ∀ c ∈ cs, c.op = opWriteMem) :
    memWrites (cs.map .send) = cs.flatMap writes := by
  induction cs with
  | nil => rfl
  | cons c cs ih =>
    have hop := h c List.mem_cons_self
    have hrest := ih fun c hc => h c (List.mem_cons_of_mem _ hc)
    rw [List.map_cons, memWrites, List.flatMap_cons, List.flatMap_cons, ← memWrites, hrest]
    exact congrArg (· ++ cs.flatMap writes) (if_pos hop)

/-! ### The device between a start and its end -/

/-- The bram as `main` filled it. -/
def BramPattern (mem : Mem) : Prop := ∀ i < bramSize, mem (bramOff + i) = BitVec.ofNat 8 i

/-- The handlers are installed and the bram is as `main` filled it. -/
structure Dma.Intact (d : Dma) : Prop where
  ready : d.Ready
  bram : BramPattern d.mem

/-- A 32-bit access to one of the five registers, or the timeout. -/
inductive RegEvent : Event → Prop where
  | access (m : PcieNetMsg) (h : IsAccess m) (hreg : IsDmaReg m.addr) : RegEvent (.recv m)
  | timeout (fresh : Fresh) : RegEvent (.timeout fresh)

/-- A 32-bit access to a register that starts no transfer. -/
inductive NoStart : Event → Prop where
  | access (m : PcieNetMsg) (h : IsAccess m) (hreg : IsDmaReg m.addr) (hstart : ¬ IsStart m) :
    NoStart (.recv m)

theorem initBram_apply (mem : Mem) (n i : ℕ) (h : i < n) :
    initBram mem n (bramOff + i) = BitVec.ofNat 8 i := by
  induction n with
  | zero => exact absurd h (Nat.not_lt_zero i)
  | succ n ih =>
    rw [initBram]
    rcases Nat.lt_succ_iff_lt_or_eq.mp h with hlt | rfl
    · rw [store_apply_of_lt _ _ _ _ (by omega), ih hlt]
    · exact store_apply_add (initBram mem i) (bramOff + i) [BitVec.ofNat 8 i] 0 Nat.one_pos

theorem mainDma_intact (dev : PcieDev Unit) (mem : Mem) : (mainDma dev mem).Intact :=
  ⟨mainDma_ready dev mem, fun i h => initBram_apply mem bramSize i h⟩

/-- The registers and the saved context are beside the bram. -/
theorem BramPattern.setWord {mem : Mem} (h : BramPattern mem) {k : ℕ} (hk : k < 5 ∨ savedCtl ≤ k)
    (v : BitVec 32) : BramPattern (setWord mem k v) := by
  intro i hi
  have hoff : bramOff = 20 := rfl
  have hsaved := savedCtl_off
  rw [setWord_apply_of_ne mem k v (by omega), h i hi]

theorem BramPattern.capture {mem : Mem} (h : BramPattern mem) (v : BitVec 32) :
    BramPattern (capture mem v) := by
  unfold Device.capture
  exact (((h.setWord (by decide) _).setWord (by decide) _).setWord (by decide) _).setWord
    (by decide) _

theorem Dma.Intact.started {d : Dma} (h : d.Intact) (v : BitVec 32) : (d.started v).Intact :=
  ⟨h.ready, ((h.bram.setWord (by decide) v).capture v).setWord (by decide) 0⟩

/-- Accesses to the registers and completions leave the bram alone. -/
theorem intact_step {s t : Dma × List Effect} {e : Event} (he : RegEvent e) (h : s.1.Intact)
    (hstep : Dma.step s e = some t) : t.1.Intact := by
  obtain ⟨d, log⟩ := s
  cases he with
  | access m haccess hreg =>
    rw [step_recv, Option.some.injEq] at hstep
    subst hstep
    rcases recv_access h.ready haccess with ⟨-, hrecv⟩ | ⟨-, -, hrecv⟩ | ⟨-, hrecv⟩
    · rw [hrecv]
      exact h
    · rw [hrecv]
      exact ⟨h.ready, h.bram.setWord (Or.inl (haccess.isDmaReg_iff.mp hreg)) _⟩
    · rw [hrecv]
      exact h.started _
  | timeout fresh =>
    rw [step_timeout] at hstep
    split at hstep
    · rw [Option.some.injEq] at hstep
      subst hstep
      obtain ⟨msg, msi⟩ := fresh
      cases msg with
      | none => exact ⟨h.ready, h.bram⟩
      | some m => exact ⟨h.ready, h.bram.setWord (by decide) _⟩
    · cases hstep

/-- **A transfer waits for its task**: its context is saved, and nothing but replies has been
sent. -/
structure Pending (ctl adl adh baz : BitVec 32) (s : Dma × List Effect) : Prop where
  intact : s.1.Intact
  task : s.1.task = true
  ctl : word s.1.mem savedCtl = ctl
  adl : word s.1.mem savedAdl = adl
  adh : word s.1.mem savedAdh = adh
  baz : word s.1.mem savedBaz = baz
  quiet : ∀ e ∈ s.2, e = .status 0 ∨ ∃ r, e = .reply r

/-- The context is what the registers held, with the value written to CTL. -/
theorem word_started (d : Dma) (v : BitVec 32) :
    word (d.started v).mem savedCtl = v ∧ word (d.started v).mem savedAdl = d.reg .adl ∧
      word (d.started v).mem savedAdh = d.reg .adh ∧
      word (d.started v).mem savedBaz = d.reg .baz := by
  unfold Dma.started capture Dma.reg
  simp only [word_setWord]
  exact ⟨rfl, rfl, rfl, rfl⟩

theorem pending_start {d : Dma} (h : d.Intact) {m : PcieNetMsg} (hm : IsAccess m)
    (hstart : IsStart m) {s : Dma × List Effect} (hstep : Dma.step (d, []) (.recv m) = some s) :
    Pending (written m) (d.reg .adl) (d.reg .adh) (d.reg .baz) s := by
  rw [step_recv, recv_write h.ready hm hstart.1, onWrite_start hm hstart,
    Option.some.injEq] at hstep
  subst hstep
  obtain ⟨hctl, hadl, hadh, hbaz⟩ := word_started d (written m)
  refine ⟨h.started _, rfl, hctl, hadl, hadh, hbaz, ?_⟩
  intro e he
  exact Or.inl (List.mem_singleton.mp he)

theorem pending_step {ctl adl adh baz : BitVec 32} {s t : Dma × List Effect} {e : Event}
    (he : NoStart e) (h : Pending ctl adl adh baz s) (hstep : Dma.step s e = some t) :
    Pending ctl adl adh baz t := by
  obtain ⟨d, log⟩ := s
  cases he with
  | access m haccess hreg hstart =>
    have hintact := intact_step (.access m haccess hreg) h.intact hstep
    rw [step_recv, Option.some.injEq] at hstep
    subst hstep
    rcases recv_access h.intact.ready haccess with ⟨-, hrecv⟩ | ⟨-, -, hrecv⟩ | ⟨hc, -⟩
    · rw [hrecv] at hintact ⊢
      refine ⟨hintact, h.task, h.ctl, h.adl, h.adh, h.baz, ?_⟩
      intro e he
      rcases List.mem_append.mp he with he | he
      · exact h.quiet e he
      · exact Or.inr ⟨_, List.mem_singleton.mp he⟩
    · have hindex := haccess.isDmaReg_iff.mp hreg
      have hbeside : ∀ k, savedCtl ≤ k → word (setWord d.mem (wordIndex m) (written m)) k
          = word d.mem k := by
        intro k hk
        have hsaved : savedCtl = 8197 := rfl
        exact word_setWord_of_ne _ _ _ _ (by omega)
      rw [hrecv] at hintact ⊢
      refine ⟨hintact, h.task, (hbeside _ (by decide)).trans h.ctl,
        (hbeside _ (by decide)).trans h.adl,
        (hbeside _ (by decide)).trans h.adh, (hbeside _ (by decide)).trans h.baz, ?_⟩
      intro e he
      rw [List.append_nil] at he
      exact h.quiet e he
    · exact absurd hc hstart

/-- Up to the timeout. -/
theorem pending_run {dev : PcieDev Unit} {mem : Mem} {before after : List Event} {d : Dma}
    {log : List Effect} {m : PcieNetMsg} {s : Dma × List Effect}
    (hbefore : ∀ e ∈ before, RegEvent e)
    (hrun : run Dma.step (mainDma dev mem, []) before = some (d, log)) (hm : IsAccess m)
    (hstart : IsStart m) (hafter : ∀ e ∈ after, NoStart e)
    (hend : run Dma.step (d, []) (.recv m :: after) = some s) :
    Pending (written m) (d.reg .adl) (d.reg .adh) (d.reg .baz) s := by
  have hintact : d.Intact :=
    run_invariant_on (fun s => s.1.Intact) RegEvent (fun _ _ _ => intact_step) hbefore
      (mainDma_intact dev mem) hrun
  obtain ⟨u, hu, hrest⟩ := run_cons_eq_some.mp hend
  exact run_invariant_on _ NoStart (fun _ _ _ => pending_step) hafter
    (pending_start hintact hm hstart hu) hrest

/-! ### The end of the transfer -/

theorem savedAddr_eq (mem : Mem) :
    savedAddr mem = destination (word mem savedAdh) (word mem savedAdl) := by
  apply BitVec.eq_of_toNat_eq
  have hadh := (word mem savedAdh).isLt
  have hadl := (word mem savedAdl).isLt
  have hshift : (word mem savedAdh).toNat <<< 32 % 2 ^ 64 = (word mem savedAdh).toNat <<< 32 := by
    rw [Nat.shiftLeft_eq]
    omega
  rw [savedAddr, destination, BitVec.toNat_append, BitVec.toNat_or, BitVec.toNat_shiftLeft,
    BitVec.toNat_setWidth, BitVec.toNat_setWidth, Nat.mod_eq_of_lt (a := (word mem savedAdh).toNat)
      (by omega), Nat.mod_eq_of_lt (a := (word mem savedAdl).toNat) (by omega), hshift]

theorem doneStatus_eq (ctl : BitVec 32) : doneStatus ctl = completed ctl := by
  have hlt := (ctl.extractLsb' 0 16).isLt
  have hlow : ctl &&& 0xffff = BitVec.ofNat 32 (transferSize ctl) := by
    apply BitVec.eq_of_toNat_eq
    have hmask := Nat.and_two_pow_sub_one_eq_mod ctl.toNat 16
    rw [transferSize, BitVec.toNat_and, BitVec.toNat_ofNat, BitVec.extractLsb'_toNat]
    show ctl.toNat &&& 2 ^ 16 - 1 = _
    rw [hmask, Nat.shiftRight_zero]
    omega
  -- the bit D is above those of the size
  have hdisjoint : (1 <<< 31 : BitVec 32) &&& (ctl &&& 0xffff) = 0#32 := by
    rw [BitVec.and_comm ctl, ← BitVec.and_assoc]
    show 0#32 &&& ctl = 0#32
    exact BitVec.zero_and
  rw [doneStatus, completed, BitVec.ofNat_add, ← hlow]
  exact (BitVec.add_eq_or_of_and_eq_zero _ _ hdisjoint).symm

theorem completed_ne_zero (ctl : BitVec 32) : completed ctl ≠ 0 := by
  intro hzero
  have hnat := congrArg BitVec.toNat hzero
  have hlt := (ctl.extractLsb' 0 16).isLt
  rw [completed, BitVec.toNat_ofNat, transferSize] at hnat
  rw [show BitVec.toNat (0 : BitVec 32) = 0 from rfl] at hnat
  omega

/-- The task, where there is memory for its message. -/
theorem finalizeTransfer_some (d : Dma) (m msi : PcieNetMsg) :
    finalizeTransfer d ⟨some m, msi⟩ =
      ({ d with mem := setWord d.mem DmaReg.sta.index (doneStatus (word d.mem savedCtl)) },
        (sendPages d.mem (bramSize / sizePerM) { m with
          op := opWriteMem
          addr := savedAddr d.mem
          size := BitVec.ofNat 16 sizePerM } bramOff).1.map .send ++
        .status (doneStatus (word d.mem savedCtl)) ::
        (if word d.mem savedCtl &&& ctlMsi ≠ 0 then [pcieSendMsi msi] else []).map .send) := by
  have hrest : BitVec.ofNat 16 (bramSize % sizePerM) = 0 := rfl
  simp only [finalizeTransfer, hrest, ne_eq, not_true_eq_false, if_false, List.append_nil]

theorem memWrites_quiet {es : List Effect} (h : ∀ e ∈ es, e = .status 0 ∨ ∃ r, e = .reply r) :
    memWrites es = [] := by
  rw [memWrites, List.flatMap_eq_nil_iff]
  intro e he
  rcases h e he with rfl | ⟨r, rfl⟩
  · rfl
  · rfl

/-- The pages of the bram are the pattern. -/
theorem sendPages_pattern {mem : Mem} (h : BramPattern mem) (m : PcieNetMsg)
    (hsize : m.size = BitVec.ofNat 16 sizePerM) :
    (sendPages mem (bramSize / sizePerM) m bramOff).1.flatMap writes
      = pattern m.addr (word mem savedBaz) bramSize := by
  rw [sendPages_writes mem _ m bramOff hsize,
    show bramSize / sizePerM * sizePerM = bramSize from rfl,
    pattern]
  apply List.map_congr_left
  intro i hi
  rw [h i (List.mem_range.mp hi), BitVec.ofNat_add, BitVec.ofNat_toNat]

theorem ctlMsi_iff (ctl : BitVec 32) : ctl &&& ctlMsi ≠ 0 ↔ ctl.getLsbD 30 = true := by
  rw [show ctlMsi = BitVec.twoPow 32 30 from rfl, BitVec.and_twoPow]
  cases ctl.getLsbD 30 with
  | false => exact ⟨fun h => absurd rfl h, fun h => by cases h⟩
  | true => exact ⟨fun _ => rfl, fun _ => by decide⟩

theorem Completes.memWrites {ctl : BitVec 32} {before after : List Effect} {d : Dma}
    (h : Completes ctl before after d) :
    memWrites (before ++ .status (completed ctl) :: after) = memWrites before := by
  have hmsi := h.msi
  have hnil : Device.memWrites after = [] := by
    split at hmsi
    · obtain ⟨c, rfl, hop⟩ := hmsi
      have hne : c.op ≠ opWriteMem := by
        rw [hop]
        decide
      exact (List.append_nil _).trans (if_neg hne)
    · rw [hmsi]
      rfl
  rw [memWrites_append]
  show _ ++ Device.memWrites after = _
  rw [hnil, List.append_nil]

/-- **What the task does**: it writes the whole bram, whatever the size. -/
theorem finalize_effects {ctl adl adh baz : BitVec 32} {s t : Dma × List Effect}
    (h : Pending ctl adl adh baz s) {m msi : PcieNetMsg}
    (hstep : Dma.step s (.timeout ⟨some m, msi⟩) = some t) :
    ∃ before after, t.2 = before ++ .status (completed ctl) :: after ∧
      memWrites before = pattern (destination adh adl) baz bramSize ∧
      Completes ctl before after t.1 := by
  obtain ⟨d, log⟩ := s
  rw [step_timeout, if_pos h.task, finalizeTransfer_some, Option.some.injEq] at hstep
  subst hstep
  obtain ⟨hintact, -, rfl, rfl, rfl, rfl, hquiet⟩ := h
  have hops := sendPages_op d.mem (bramSize / sizePerM) { m with
    op := opWriteMem, addr := savedAddr d.mem, size := BitVec.ofNat 16 sizePerM } bramOff
  have hpages := sendPages_pattern hintact.bram { m with
    op := opWriteMem, addr := savedAddr d.mem, size := BitVec.ofNat 16 sizePerM } rfl
  generalize (sendPages d.mem (bramSize / sizePerM) { m with
    op := opWriteMem, addr := savedAddr d.mem, size := BitVec.ofNat 16 sizePerM } bramOff).1 = sent
    at hops hpages
  refine ⟨log ++ sent.map .send,
    (if word d.mem savedCtl &&& ctlMsi ≠ 0 then [pcieSendMsi msi] else []).map .send,
    ?_, ?_, ?_, ?_, ?_, ?_⟩
  · rw [← doneStatus_eq, List.append_assoc]
  · rw [memWrites_append, memWrites_quiet hquiet, List.nil_append, memWrites_send hops, hpages,
      ← savedAddr_eq]
  · intro c hc
    rcases List.mem_append.mp hc with hc | hc
    · rcases hquiet _ hc with hc | ⟨r, hc⟩ <;> cases hc
    · obtain ⟨c', hmem, hc'⟩ := List.mem_map.mp hc
      cases hc'
      exact hops c hmem
  · intro hc
    rcases List.mem_append.mp hc with hc | hc
    · rcases hquiet _ hc with hc | ⟨r, hc⟩
      · exact completed_ne_zero _ (Effect.status.inj hc)
      · cases hc
    · obtain ⟨c', -, hc'⟩ := List.mem_map.mp hc
      cases hc'
  · rw [← doneStatus_eq]
    exact word_setWord_self _ _ _
  · by_cases hmsi : word d.mem savedCtl &&& ctlMsi ≠ 0
    · rw [if_pos hmsi, if_pos ((ctlMsi_iff _).mp hmsi)]
      exact ⟨pcieSendMsi msi, rfl, rfl⟩
    · rw [if_neg hmsi, if_neg (fun hbit => hmsi ((ctlMsi_iff _).mpr hbit))]
      rfl

/-- Without memory, it does nothing. -/
theorem finalize_nothing {ctl adl adh baz : BitVec 32} {s t : Dma × List Effect}
    (h : Pending ctl adl adh baz s) {msi : PcieNetMsg}
    (hstep : Dma.step s (.timeout ⟨none, msi⟩) = some t) : t.2 = s.2 := by
  obtain ⟨d, log⟩ := s
  rw [step_timeout, if_pos h.task, Option.some.injEq] at hstep
  subst hstep
  exact List.append_nil log

theorem pattern_length (dst : BitVec 64) (baz : BitVec 32) (n : ℕ) :
    (pattern dst baz n).length = n := by
  rw [pattern, List.length_map, List.length_range]

/-- **When a waiting transfer ends as it was asked for.** -/
theorem finalize_exactly_iff {ctl adl adh baz : BitVec 32} {s t : Dma × List Effect}
    (h : Pending ctl adl adh baz s) {fresh : Fresh}
    (hstep : Dma.step s (.timeout fresh) = some t) :
    TransfersExactly ctl (destination adh adl) baz t.2 t.1 ↔
      transferSize ctl = bramSize ∧ fresh.msg ≠ none := by
  obtain ⟨msg, msi⟩ := fresh
  cases msg with
  | none =>
    refine ⟨?_, fun hc => absurd rfl hc.2⟩
    -- the status was never set
    rintro ⟨before, after, heq, -, -⟩
    exfalso
    rw [finalize_nothing h hstep] at heq
    have hmem : Effect.status (completed ctl) ∈ s.2 := by
      rw [heq]
      exact List.mem_append_right _ List.mem_cons_self
    rcases h.quiet _ hmem with hc | ⟨r, hc⟩
    · exact completed_ne_zero ctl (Effect.status.inj hc)
    · cases hc
  | some m =>
    obtain ⟨before, after, heq, hbytes, hcompletes⟩ := finalize_effects h hstep
    constructor
    · rintro ⟨before', after', heq', hperm, hcompletes'⟩
      refine ⟨?_, fun hc => by cases hc⟩
      have hsame : memWrites before' = memWrites before := by
        rw [← hcompletes'.memWrites, ← heq', heq, hcompletes.memWrites]
      have hlen := hperm.length_eq
      rw [hsame, hbytes, pattern_length, pattern_length] at hlen
      exact hlen.symm
    · intro hsize
      refine ⟨before, after, heq, ?_, hcompletes⟩
      rw [hbytes, hsize.1]

/-! ### Whole runs -/

/-- **Which transfers are as they were asked for**: those of the size of the bram, where there is
memory for the message.  Registers may be accessed before the task runs. -/
theorem transfersExactly_iff (dev : PcieDev Unit) (mem : Mem) {before after : List Event}
    {d t : Dma} {log effects : List Effect} {m : PcieNetMsg} {fresh : Fresh}
    (hbefore : ∀ e ∈ before, RegEvent e)
    (hrun : run Dma.step (mainDma dev mem, []) before = some (d, log)) (hm : IsAccess m)
    (hstart : IsStart m) (hafter : ∀ e ∈ after, NoStart e)
    (hend : run Dma.step (d, []) ((.recv m :: after) ++ [.timeout fresh]) = some (t, effects)) :
    TransfersExactly (written m) (destination (d.reg .adh) (d.reg .adl)) (d.reg .baz) effects t ↔
      transferSize (written m) = bramSize ∧ fresh.msg ≠ none := by
  obtain ⟨s, hwait, hlast⟩ := run_append_eq_some.mp hend
  have hpending := pending_run hbefore hrun hm hstart hafter hwait
  obtain ⟨u, hstep, hu⟩ := run_cons_eq_some.mp hlast
  rw [run_nil, Option.some.injEq] at hu
  subst hu
  exact finalize_exactly_iff hpending hstep

/-- The C device on a stack of zeros. -/
def zeroDma : Dma := mainDma ⟨fun _ => 0, fun _ => none, fun _ => none, fun _ => 0⟩ (fun _ => 0)

/-- A write of 4 bytes to the BAR. -/
def barWrite (addr : BitVec 64) (v : BitVec 32) : PcieNetMsg where
  op := opWriteMem
  bar := 1
  width := 4
  addr := addr
  size := 4
  data := setWord (fun _ => 0) 0 v

theorem written_barWrite (addr : BitVec 64) (v : BitVec 32) : written (barWrite addr v) = v :=
  word_setWord_self _ _ _

/-- A write of 4 bytes to CTL. -/
abbrev ctlWrite (v : BitVec 32) : PcieNetMsg := barWrite DmaReg.ctl.addr v

theorem ctlWrite_access (v : BitVec 32) : IsAccess (ctlWrite v) :=
  ⟨Or.inr rfl, rfl, rfl, Nat.zero_lt_succ 255, rfl⟩

theorem ctlWrite_start {v : BitVec 32} (h : v &&& ctlStart ≠ 0) : IsStart (ctlWrite v) := by
  refine ⟨rfl, rfl, ?_⟩
  rw [written_barWrite]
  exact h

/-- The start of a transfer, and its timeout. -/
theorem ctlWrite_run {v : BitVec 32} (h : v &&& ctlStart ≠ 0) (fresh : Fresh) :
    ∃ t effects, run Dma.step (zeroDma, []) [.recv (ctlWrite v), .timeout fresh]
      = some (t, effects) := by
  have hstart := ctlWrite_start h
  have hready := mainDma_ready ⟨fun _ => 0, fun _ => none, fun _ => none, fun _ => 0⟩ (fun _ => 0)
  rw [run_cons, zeroDma, step_recv, recv_write hready (ctlWrite_access v) hstart.1,
    onWrite_start (ctlWrite_access v) hstart, Option.bind_some, run_cons, step_timeout]
  exact ⟨_, _, rfl⟩

/-- Memory of zeros for the messages. -/
def zeroFresh : Fresh where
  msg := some ⟨0, 0, 0, 0, 0, fun _ => 0⟩
  msi := ⟨0, 0, 0, 0, 0, fun _ => 0⟩

theorem transfersExactly_bram : ∃ t effects,
    run Dma.step (zeroDma, []) [.recv (ctlWrite 0x80008000), .timeout zeroFresh]
      = some (t, effects) ∧
    TransfersExactly 0x80008000 (destination (zeroDma.reg .adh) (zeroDma.reg .adl))
      (zeroDma.reg .baz) effects t := by
  obtain ⟨t, effects, hrun⟩ := ctlWrite_run (v := 0x80008000) (by decide) zeroFresh
  refine ⟨t, effects, hrun, ?_⟩
  have hbefore : ∀ e ∈ ([] : List Event), RegEvent e := fun _ he => absurd he List.not_mem_nil
  have hafter : ∀ e ∈ ([] : List Event), NoStart e := fun _ he => absurd he List.not_mem_nil
  have hiff := transfersExactly_iff _ _ hbefore rfl (ctlWrite_access 0x80008000)
    (ctlWrite_start (by decide)) hafter hrun
  rw [written_barWrite] at hiff
  exact hiff.mpr ⟨by decide, by simp [zeroFresh]⟩

/-- **A transfer of 128 bytes writes the whole bram.** -/
theorem shortTransfer_overruns : ∃ t effects,
    run Dma.step (zeroDma, []) [.recv (ctlWrite 0x80000080), .timeout zeroFresh]
      = some (t, effects) ∧
    ¬ TransfersExactly 0x80000080 (destination (zeroDma.reg .adh) (zeroDma.reg .adl))
      (zeroDma.reg .baz) effects t := by
  obtain ⟨t, effects, hrun⟩ := ctlWrite_run (v := 0x80000080) (by decide) zeroFresh
  refine ⟨t, effects, hrun, ?_⟩
  obtain ⟨s, hwait, hlast⟩ := run_cons_eq_some.mp hrun
  have hpending := pending_start (mainDma_intact _ _) (ctlWrite_access 0x80000080)
    (ctlWrite_start (by decide)) hwait
  obtain ⟨u, hstep, hu⟩ := run_cons_eq_some.mp hlast
  rw [run_nil, Option.some.injEq] at hu
  subst hu
  rw [written_barWrite] at hpending
  intro hexact
  have hsize := ((finalize_exactly_iff hpending hstep).mp hexact).1
  revert hsize
  decide

end VPcie.Device
