import VPcie.Sbone.Board

/-!
# The replies of sbone and the reads that wait for them

Only the two registers with a reply port answer a read.  Until a read of something else is popped,
the stages of the replies hold one reply while a read waits and none otherwise.

* `Board.inFlight` — the replies on their way to the glue;
* `Accounts` — they are as many as the reads that wait;
* `Sound.step` — every step of either thread keeps the account.
-/

namespace VPcie.Sbone

open VPcie.Lib VPcie.Net VPcie.Glue
open VPcie.Device (PcieDev barCount)
open VPcie.Vhdl (Req Endpoint EndpointIn GlueCall pollRxFifo)

/-! ### The replies on their way -/

/-- The access is for a register with a reply port. -/
def Answers (a : AccessView) : Prop := IsFor 0x10 a ∨ IsFor 0x18 a

instance (a : AccessView) : Decidable (Answers a) := inferInstanceAs (Decidable (_ ∨ _))

/-- The replies the endpoint has still to send, up to the next edge. -/
def Board.toSend (s : Board) : List (BitVec 64) :=
  match s.edge with
  | none => s.dev.mux.reply
  | some cs => replies cs

/-- The replies on their way to the glue, the first to arrive first. -/
def Board.inFlight (s : Board) : List (BitVec 64) :=
  s.toSend ++ (s.dev.rw0.reply ++ s.dev.rw1.reply) ++ reqReply s.dev s.req

/-- A register replies to each read the polls returned. -/
def AllAnswer (log : List Event) : Prop := ∀ a ∈ polled log, a.isRead = true → Answers a

theorem AllAnswer.append_iff {log l : List Event} (h : polled l = []) :
    AllAnswer (log ++ l) ↔ AllAnswer log := by
  rw [AllAnswer, polled_append, h, List.append_nil]
  exact Iff.rfl

theorem view_host (g : GuestAccess) : HostAccess g.view := by
  have hbar : ∀ bar : Fin barCount, (BitVec.ofNat 8 bar.val).toNat < barCount := by
    intro bar
    rw [BitVec.toNat_ofNat]
    exact lt_of_le_of_lt (Nat.mod_le _ _) bar.isLt
  refine ⟨?_, g.view_size⟩
  cases g with
  | read bar addr width => exact hbar bar
  | write bar addr width data => exact hbar bar

/-- **The request of an access** asks for a reply if it is a read of such a register. -/
theorem reqReply_length {a : AccessView} (h : HostAccess a) (d : Dev) (data : BitVec 64) :
    (reqReply d (Req.ofAccess a data)).length = if a.isRead = true ∧ Answers a then 1 else 0 := by
  rw [reqReply, selects_ofAccess 0x10 h, selects_ofAccess 0x18 h]
  show (if decide (IsFor 0x10 a) = true ∧ (!a.isRead) = false then _ else
    if decide (IsFor 0x18 a) = true ∧ (!a.isRead) = false then _ else _ : List _).length = _
  cases a.isRead with
  | false => simp
  | true => by_cases h0 : IsFor 0x10 a <;> by_cases h1 : IsFor 0x18 a <;> simp [Answers, h0, h1]

theorem reqReply_idle (d : Dev) {r : Req} (h : r.en = false) : reqReply d r = [] := by
  rw [reqReply, selects_idle 0x10 h, selects_idle 0x18 h, if_neg (fun hc => by cases hc.1),
    if_neg (fun hc => by cases hc.1)]

section EndEdge

variable (s : Board) (glue : GlueState) (a : AccessView)

theorem endEdge_req : (s.endEdge glue a).req
    = if a.size = 0 then Req.none s.req.data else Req.ofAccess a s.req.data := by
  show (s.ep.clock true s.req.data [a]).2.1 = _
  rw [Endpoint.clock_free fun _ => rfl]
  rfl

/-- **At the end of an edge** the replies have moved up, and the new request may ask for one. -/
theorem endEdge_inFlight (hone : OneReply s.dev) (hs : s.edge = some []) :
    (s.endEdge glue a).inFlight
      = s.inFlight ++ reqReply (s.dev.edge s.req) (s.endEdge glue a).req := by
  show (s.dev.edge s.req).mux.reply ++
    ((s.dev.edge s.req).rw0.reply ++ (s.dev.edge s.req).rw1.reply) ++
    reqReply (s.dev.edge s.req) (s.endEdge glue a).req = _
  rw [edge_mux hone, edge_reply, Board.inFlight, Board.toSend, hs]
  rfl

end EndEdge

/-! ### The account -/

/-- **The account of the replies**: as long as a register replies to each read, there is one reply
for the read that waits, and none otherwise; after another read that waits for ever. -/
structure Accounts (log : List Event) (x : Spec) (s : Board) : Prop where
  one : OneReply s.dev
  calls : ∀ cs, s.edge = some cs → replies cs ≠ [] → s.dev.mux.repEn = true
  answer : AllAnswer log → s.inFlight.length = if x.read = .pending then 1 else 0
  stuck : ¬AllAnswer log → s.inFlight = [] ∧ x.read = .pending

theorem accounts_init (dev : PcieDev (Fin barCount)) (buf : Mem) (bytes : List Byte) :
    Accounts [] (Spec.init dev buf bytes) (Board.init dev buf bytes) := by
  refine ⟨Or.inl rfl, (fun cs hcs => by cases hcs), fun _ => rfl, fun hnot => absurd ?_ hnot⟩
  intro a ha
  exact absurd ha List.not_mem_nil

section Accounts

variable {log : List Event} {x y : Spec} {s t : Board} {e : Option Event}

/-- A step that neither asks for a reply nor sends one. -/
theorem Accounts.keep (h : Accounts log x s) (hone : OneReply t.dev)
    (hcalls : ∀ cs, t.edge = some cs → replies cs ≠ [] → t.dev.mux.repEn = true)
    (hflight : t.inFlight = s.inFlight) (hpolled : polled e.toList = [])
    (hread : y.read = .pending ↔ x.read = .pending) : Accounts (log ++ e.toList) y t := by
  refine ⟨hone, hcalls, ?_, ?_⟩
  · rw [AllAnswer.append_iff hpolled, hflight, if_congr hread rfl rfl]
    exact h.answer
  · rw [AllAnswer.append_iff hpolled, hflight, hread]
    exact h.stuck

/-- In a step of the io thread or the network no read starts or stops to wait for a reply. -/
theorem IoStep.read_iff (h : IoStep x y s t e) (hreads : ReadInv log x) :
    y.read = .pending ↔ x.read = .pending := by
  cases h.access with
  | frame hqueue hread hsize he => rw [hread]
  | write a ha hqueue hread hsize he => rw [hread]
  | read a ha hqueue hread hx hsize he =>
    have htrail := hreads.trail
    rw [hx] at htrail
    rw [hread, htrail.of_none.1]
    simp
  | poll a hqueue hread hsize he => exact absurd he (h.noPoll _)
  | answer d hqueue hx hread hsize he => exact absurd he (h.noReply d)
  | spurious d hqueue hx hread hsize he => rw [hread]
  | replied d hqueue hx hread hsize he =>
    rw [hread, hx]
    simp
  | barReturn size d hqueue hx hread hsize he =>
    rw [hread, hx]
    simp

theorem IoStep.polled_nil (h : IoStep x y s t e) : polled e.toList = [] := by
  cases e with
  | none => rfl
  | some e =>
    cases e with
    | poll r => exact absurd rfl (h.noPoll r)
    | pollDrop r =>
      cases h.access with
      | frame hqueue hread hsize he => exact (he _ rfl).elim
      | _ =>
        rename_i he
        exact absurd he (by simp)
    | _ => rfl

theorem IoStep.accounts (h : IoStep x y s t e) (hreads : ReadInv log x) (hi : Accounts log x s) :
    Accounts (log ++ e.toList) y t := by
  rw [h.board]
  exact hi.keep hi.one hi.calls rfl h.polled_nil (h.read_iff hreads)

/-- What has been polled and what is queued, over a step of the GHDL thread. -/
theorem ClockStep.queue_eq (h : ClockStep x y s t e) (hhost : ∀ a ∈ x.queue, HostAccess a) :
    polled e.toList ++ y.queue = x.queue := by
  cases h with
  | rise hs ht hy he =>
    rw [hy, he]
    rfl
  | push c cs m hs hc hx ht hy he =>
    rw [hy, he]
    simp only [Spec.queue, hx]
    rfl
  | answer d cs hs hx hread ht hy he =>
    rw [hy, he]
    simp only [Spec.queue, hx]
    rfl
  | spurious d cs hs hx hread ht hy he =>
    rw [hy, he]
    rfl
  | pollEmpty hs hx hrx ht hy he =>
    rw [hy, he, Option.toList_some, polled_empty]
    rfl
  | pop a rx hs hx hrx ht hy he =>
    rw [hy, he]
    simp only [Spec.queue, hx, hrx]
    rfl
  | popped a hs hx ht hy he =>
    have hqueue := Spec.queue_popped hx
    rw [hy, he, hqueue, Option.toList_some,
      polled_result (hhost a (hqueue ▸ List.mem_cons_self)).size]
    rfl
  | wake cs hs hx ht hy he =>
    rw [hy, he]
    simp only [Spec.queue, hx]
    rfl
  | replied d cs hs hx hread ht hy he =>
    rw [hy, he]
    simp only [Spec.queue, hx]
    rfl

theorem replies_cons (c : GlueCall) (cs : List GlueCall) :
    replies (c :: cs) = replies [c] ++ replies cs := replies_append [c] cs

/-- A call of the endpoint that is not a reply. -/
theorem replies_cons_other {c : GlueCall} (hc : ∀ d, c ≠ .sendReply d) (cs : List GlueCall) :
    replies (c :: cs) = replies cs := by
  cases c with
  | sendReply d => exact absurd rfl (hc d)
  | _ => rfl

/-- The device after a call of the endpoint. -/
theorem Accounts.calls_tail (h : Accounts log x s) {c : GlueCall} {cs : List GlueCall}
    (hs : s.edge = some (c :: cs)) (ht : t = { s with glue := t.glue, edge := some cs }) :
    OneReply t.dev ∧ ∀ cs', t.edge = some cs' → replies cs' ≠ [] → t.dev.mux.repEn = true := by
  rw [ht]
  refine ⟨h.one, ?_⟩
  intro cs' hcs' hne
  cases hcs'
  refine h.calls _ hs ?_
  rw [replies_cons]
  intro hnil
  exact hne (List.append_eq_nil_iff.mp hnil).2

/-- **An access is popped.**  The new request asks for the reply the access is to have. -/
theorem Accounts.popped (h : Accounts log x s) (hreads : ReadInv log x) {a : AccessView}
    (hhost : HostAccess a) (hs : s.edge = some []) (hx : x.ghdl = .popped a)
    (ht : t = s.endEdge t.glue a) (hy : y.read = if a.isRead then .pending else x.read) :
    Accounts (log ++ [.poll a.result]) y t := by
  have hlog : polled (log ++ [.poll a.result]) = polled log ++ [a] := by
    rw [polled_append, polled_result hhost.size]
  have hqueued : a.isRead = true → x.read = .queued := by
    have htrail := hreads.trail
    rw [Spec.queue_popped hx] at htrail
    exact htrail.queued_of_read
  have hreq : (s.endEdge t.glue a).req = Req.ofAccess a s.req.data := by
    rw [endEdge_req, if_neg hhost.size]
  have hflight : t.inFlight.length
      = s.inFlight.length + if a.isRead = true ∧ Answers a then 1 else 0 := by
    rw [ht, endEdge_inFlight _ _ _ h.one hs, hreq, List.length_append, reqReply_length hhost]
  have hall : AllAnswer (log ++ [.poll a.result])
      ↔ AllAnswer log ∧ (a.isRead = true → Answers a) := by
    rw [AllAnswer, hlog, List.forall_mem_append, List.forall_mem_singleton]
    exact Iff.rfl
  have hedge : t.edge = none := by
    rw [ht]
    rfl
  have hone : OneReply t.dev := by
    rw [ht]
    exact edge_oneReply s.dev s.req
  refine ⟨hone, fun cs hcs => absurd (hedge.symm.trans hcs) (by simp), ?_, ?_⟩
  · intro hans
    obtain ⟨hlogAns, hans⟩ := hall.mp hans
    have hcount := h.answer hlogAns
    by_cases ha : a.isRead = true
    · rw [hqueued ha, if_neg (by simp)] at hcount
      rw [hflight, hcount, hy, if_pos ha, if_pos ⟨ha, hans ha⟩, if_pos rfl]
    · have hno : ¬(a.isRead = true ∧ Answers a) := fun hc => ha hc.1
      rw [hflight, hy, if_neg ha, if_neg hno, hcount]
      rfl
  · intro hnot
    by_cases ha : a.isRead = true
    · -- the read before it has been answered, and it is not going to be
      have hlogAns : AllAnswer log := by
        by_contra hlogNot
        exact absurd ((hqueued ha).symm.trans (h.stuck hlogNot).2) (by simp)
      have hno : ¬(a.isRead = true ∧ Answers a) := by
        intro hc
        exact hnot (hall.mpr ⟨hlogAns, fun _ => hc.2⟩)
      have hcount := h.answer hlogAns
      rw [hqueued ha, if_neg (by simp)] at hcount
      refine ⟨?_, by rw [hy, if_pos ha]⟩
      rw [← List.length_eq_zero_iff, hflight, hcount, if_neg hno]
    · have hlogNot : ¬AllAnswer log := fun hans => hnot (hall.mpr ⟨hans, fun hc => absurd hc ha⟩)
      have hno : ¬(a.isRead = true ∧ Answers a) := fun hc => ha hc.1
      obtain ⟨hnil, hpending⟩ := h.stuck hlogNot
      refine ⟨?_, by rw [hy, if_neg ha, hpending]⟩
      rw [← List.length_eq_zero_iff, hflight, hnil, if_neg hno]
      rfl

/-- **The GHDL thread keeps the account.** -/
theorem ClockStep.accounts (h : ClockStep x y s t e) (hhost : ∀ a ∈ x.queue, HostAccess a)
    (hreads : ReadInv log x) (hi : Accounts log x s) : Accounts (log ++ e.toList) y t := by
  cases h with
  | rise hs ht hy he =>
    have hcalls : replies s.calls = s.dev.mux.reply := calls_replies _
    rw [ht, hy, he]
    refine hi.keep hi.one ?_ ?_ rfl Iff.rfl
    · intro cs hcs hne
      cases hcs
      rw [hcalls, RepMux.reply] at hne
      by_contra hen
      exact hne (if_neg hen)
    · rw [Board.inFlight, Board.inFlight, Board.toSend, Board.toSend, hs]
      simp only [hcalls]
  | push c cs m hs hc hx ht hy he =>
    obtain ⟨hone, hcalls⟩ := hi.calls_tail hs ht
    refine hi.keep hone hcalls ?_ (by rw [he]; rfl) (by rw [hy])
    rw [ht, Board.inFlight, Board.inFlight, Board.toSend, Board.toSend, hs]
    simp only [replies_cons_other hc]
  | answer d cs hs hx hread ht hy he =>
    -- the reply that was on its way has come
    obtain ⟨hone, hcalls⟩ := hi.calls_tail hs ht
    have hflight : s.inFlight.length = t.inFlight.length + 1 := by
      rw [ht, Board.inFlight, Board.inFlight, Board.toSend, Board.toSend, hs]
      show (d :: (replies cs ++ _ ++ _)).length = _
      rfl
    have hans : AllAnswer log := by
      by_contra hnot
      rw [(hi.stuck hnot).1] at hflight
      exact absurd hflight (by simp)
    have hlog : AllAnswer (log ++ e.toList) := by
      rw [AllAnswer.append_iff (by rw [he]; rfl)]
      exact hans
    refine ⟨hone, hcalls, fun _ => ?_, fun hnot => absurd hlog hnot⟩
    have hcount := hi.answer hans
    rw [hread, if_pos rfl] at hcount
    rw [hy]
    show t.inFlight.length = 0
    omega
  | spurious d cs hs hx hread ht hy he =>
    -- there is no reply without a read
    have hflight : s.inFlight ≠ [] := by
      rw [Board.inFlight, Board.toSend, hs]
      exact List.cons_ne_nil _ _
    exfalso
    by_cases hans : AllAnswer log
    · have hcount := hi.answer hans
      rw [if_neg hread] at hcount
      exact hflight (List.length_eq_zero_iff.mp hcount)
    · exact hflight (hi.stuck hans).1
  | pollEmpty hs hx hrx ht hy he =>
    rw [he, hy]
    refine hi.keep ?_ ?_ ?_ (polled_empty none) Iff.rfl
    · rw [ht]
      exact edge_oneReply s.dev s.req
    · intro cs hcs
      rw [ht] at hcs
      cases hcs
    · rw [ht, endEdge_inFlight _ _ _ hi.one hs, endEdge_req]
      show s.inFlight ++ reqReply _ (Req.none _) = _
      rw [reqReply_idle _ rfl, List.append_nil]
  | pop a rx hs hx hrx ht hy he =>
    rw [ht, he, hy]
    exact hi.keep hi.one hi.calls rfl rfl Iff.rfl
  | popped a hs hx ht hy he =>
    have hmem : a ∈ x.queue := Spec.queue_popped hx ▸ List.mem_cons_self
    rw [he]
    exact hi.popped hreads (hhost a hmem) hs hx ht (by rw [hy])
  | wake cs hs hx ht hy he =>
    rw [ht, he, hy]
    exact hi.keep hi.one hi.calls rfl rfl Iff.rfl
  | replied d cs hs hx hread ht hy he =>
    rw [ht, he]
    refine hi.keep hi.one hi.calls rfl rfl ?_
    rw [hy, hread]
    simp

end Accounts

/-! ### What every run keeps -/

/-- The abstract glue beside the board, and the account. -/
structure Sound (accs : List GuestAccess) (log : List Event) (x : Spec) (s : Board) : Prop where
  beside : Beside accs log x s
  accounts : Accounts log x s

section Sound

variable {accs : List GuestAccess} {log : List Event} {x : Spec} {s t : Board}

theorem Sound.host (h : Sound accs log x s) : ∀ a ∈ x.queue, HostAccess a := by
  intro a ha
  obtain ⟨rest, hdel⟩ := h.beside.joint.delivery
  have hmem : a ∈ accs.map GuestAccess.view := by
    rw [hdel.order]
    exact List.mem_append_right _ (List.mem_append_left _ ha)
  obtain ⟨g, -, rfl⟩ := List.mem_map.mp hmem
  exact view_host g

theorem Sound.clock (h : Sound accs log x s) {m : BoardMove} (hm : m.IsClock)
    (hst : s.step m = some t) :
    ∃ y e, Sound accs (log ++ e.toList) y t ∧ ClockStep x y s t e := by
  cases m with
  | clock junk node =>
    obtain ⟨y, e, hbeside, hstep, -⟩ := h.beside.clock hst
    exact ⟨y, e, ⟨hbeside, hstep.accounts h.host h.beside.joint.reads h.accounts⟩, hstep⟩
  | _ => exact hm.elim

/-- **Step lemma.** -/
theorem Sound.step (h : Sound accs log x s) {m : BoardMove} (hst : s.step m = some t) :
    ∃ log' y, Sound accs log' y t := by
  by_cases hm : m.IsClock
  · obtain ⟨y, e, hsound, -⟩ := h.clock hm hst
    exact ⟨_, y, hsound⟩
  · obtain ⟨y, e, hbeside, hstep, -⟩ := h.beside.io hm hst
    exact ⟨_, y, hbeside, hstep.accounts h.beside.joint.reads h.accounts⟩

theorem sound_init {dev : PcieDev (Fin barCount)} (hdev : HasHandlers dev) (buf : Mem)
    (accs : List GuestAccess) :
    Sound accs [] (Spec.init dev buf (accs.flatMap fun a => a.msg.encode))
      (Board.init dev buf (accs.flatMap fun a => a.msg.encode)) :=
  ⟨beside_init hdev buf accs, accounts_init dev buf _⟩

theorem run_sound {dev : PcieDev (Fin barCount)} (hdev : HasHandlers dev) {buf : Mem}
    {moves : List BoardMove}
    (hrun : run Board.step (Board.init dev buf (accs.flatMap fun a => a.msg.encode)) moves
      = some t) : ∃ log x, Sound accs log x t :=
  run_invariant (fun t => ∃ log x, Sound accs log x t)
    (fun _ _ _ ⟨_, _, h⟩ hst => h.step hst) ⟨_, _, sound_init hdev buf accs⟩ hrun

end Sound

end VPcie.Sbone
