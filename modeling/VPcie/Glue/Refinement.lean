import VPcie.Glue.Abstract

/-!
# The glue refines the abstract glue

The nodes of the two queues, of the list `on_event` is sending and of the read under way are
pairwise different cells of one heap.  `Refines` says which, and that read off in order they are the
lists and the slot of the abstract glue.

Nodes for sending and nodes of accesses never have the same address, as they carry different things;
so each half of the relation only asks that the other half's steps leave its nodes alone.

* `act_refines` — every move is matched by the same move of the abstract glue, with the same event;
* `run_refines` — so is every run, with the same trace.
-/

namespace VPcie.Glue

open VPcie.Lib VPcie.Net VPcie.Device

/-! ### Program counters -/

def IoPc.map {ν δ ν' δ' : Type} (f : ν → ν') (g : δ → δ') : IoPc ν δ → IoPc ν' δ'
  | .check => .check
  | .select => .select
  | .recv ev => .recv ev
  | .access isRead bar ev => .access isRead bar ev
  | .spin node size ev => .spin (f node) size ev
  | .reply r ev => .reply r ev
  | .events ev stop => .events ev stop
  | .keys ks stop => .keys ks stop
  | .drain rest ks stop => .drain (g rest) ks stop
  | .exited => .exited

def GhdlPc.map {π ρ π' ρ' : Type} (f : π → π') (g : ρ → ρ') : GhdlPc π ρ → GhdlPc π' ρ'
  | .idle => .idle
  | .pushed => .pushed
  | .popped node => .popped (f node)
  | .replied node => .replied (g node)
  | .joining => .joining
  | .joined => .joined

/-- The io thread holds no node. -/
def IoPc.Plain {ν δ : Type} : IoPc ν δ → Prop
  | .spin _ _ _ => False
  | .drain _ _ _ => False
  | _ => True

/-- The next node of the list `on_event` is sending. -/
def IoPc.drainHead {ν : Type} : IoPc ν (Option Ptr) → Option Ptr
  | .drain head _ _ => head
  | _ => none

/-- What the poll in progress has popped. -/
def GhdlPc.hand {π ρ : Type} : GhdlPc π ρ → List π
  | .popped node => [node]
  | _ => []

/-- The node of the `pcie_glue_send_reply` in progress. -/
def GhdlPc.repliedNode {π ρ : Type} : GhdlPc π ρ → Option ρ
  | .replied node => some node
  | _ => none

/-- The abstract counter of an io thread with `ds` left to send. -/
def absIo (io : IoPc Ptr (Option Ptr)) (ds : List Content) : IoPc Unit (List Content) :=
  io.map (fun _ => ()) fun _ => ds

theorem IoPc.Plain.drainHead_eq {io : IoPc Ptr (Option Ptr)} (h : io.Plain) :
    io.drainHead = none := by
  cases io <;> first | rfl | exact h.elim

theorem IoPc.Plain.ne_spin {io : IoPc Ptr (Option Ptr)} (h : io.Plain) (node : Ptr) (size : ℕ)
    (ev : Bool) : io ≠ .spin node size ev := by
  intro heq
  rw [heq] at h
  exact h

theorem receive_map {ν δ ν' δ' : Type} (f : ν → ν') (g : δ → δ') (up : Stream)
    (loop : NetLoop (Fin barCount)) (ev : Bool) :
    (receive up loop ev : Option (_ × _ × IoPc ν' δ' × _))
      = (receive up loop ev : Option (_ × _ × IoPc ν δ × _)).map
          fun r => (r.1, r.2.1, r.2.2.1.map f g, r.2.2.2) := by
  unfold receive
  cases pcieNetRecvMsg up.rx loop.msg with
  | wait => rfl
  | error rest => rfl
  | ok n buf rest =>
    simp only
    cases onMsgRecv loop.dev (PcieNetMsg.ofBuf buf) <;> rfl

theorem receive_plain {ν δ : Type} {up up' : Stream} {loop loop' : NetLoop (Fin barCount)}
    {ev : Bool} {io : IoPc ν δ} {e : Option Event}
    (h : receive up loop ev = some (up', loop', io, e)) : io.Plain := by
  unfold receive at h
  cases hrecv : pcieNetRecvMsg up.rx loop.msg with
  | wait => rw [hrecv] at h; exact absurd h (by simp)
  | error rest => rw [hrecv] at h; cases h; trivial
  | ok n buf rest =>
    simp only [hrecv] at h
    cases hdisp : onMsgRecv loop.dev (PcieNetMsg.ofBuf buf) <;> simp only [hdisp] at h <;>
      cases h <;> trivial

/-! ### The sending half -/

/-- The cell at `p` carries `v`. -/
def ValAt (h : Heap Ptr Node) (p : Ptr) (v : Node) : Prop := (h p).map Cell.val = some v

/-- The queue holds `ms`, and the list from `head` on holds `ds`. -/
def TxRel (h : Heap Ptr Node) (q : Queue Ptr) (head : Option Ptr) (ms ds : List Content) : Prop :=
  ∃ tx dr, IsQueue h q tx ∧ Carries h tx (ms.map Node.msg) ∧ Chain h head dr ∧
    Carries h dr (ds.map Node.msg) ∧ (dr ++ tx).Nodup

/-- No node to send is touched. -/
def KeepsMsgs (h h' : Heap Ptr Node) : Prop := ∀ p m, ValAt h p (.msg m) → h' p = h p

/-- No node of an access is touched. -/
def KeepsAccesses (h h' : Heap Ptr Node) : Prop := ∀ p a, ValAt h p (.access a) → h' p = h p

theorem valAt_of_eq {h : Heap Ptr Node} {p : Ptr} {n : Option Ptr} {v : Node}
    (hp : h p = some ⟨n, v⟩) : ValAt h p v := by
  rw [ValAt, hp]
  rfl

theorem ValAt.exists {h : Heap Ptr Node} {p : Ptr} {v : Node} (hp : ValAt h p v) :
    ∃ n, h p = some ⟨n, v⟩ := by
  obtain ⟨c, hc, rfl⟩ := Option.map_eq_some_iff.mp hp
  exact ⟨c.next, hc⟩

/-- A cell carries one thing. -/
theorem ValAt.unique {h : Heap Ptr Node} {p : Ptr} {v w : Node} (hv : ValAt h p v)
    (hw : ValAt h p w) : v = w := Option.some.inj (hv.symm.trans hw)

theorem ValAt.ne_of_free {h : Heap Ptr Node} {p node : Ptr} {v : Node} (hp : ValAt h p v)
    (hnode : h node = none) : p ≠ node := by
  rintro rfl
  rw [ValAt, hnode] at hp
  exact absurd hp (by simp)

theorem carries_msg {h : Heap Ptr Node} {l : List Ptr} {ms : List Content}
    (hl : Carries h l (ms.map Node.msg)) {p : Ptr} (hp : p ∈ l) : ∃ m, ValAt h p (.msg m) := by
  obtain ⟨v, hv, hval⟩ := hl.exists_of_mem hp
  obtain ⟨m, _, rfl⟩ := List.mem_map.mp hv
  exact ⟨m, hval⟩

theorem carries_access {h : Heap Ptr Node} {l : List Ptr} {as : List BarAccess}
    (hl : Carries h l (as.map Node.access)) {p : Ptr} (hp : p ∈ l) :
    ∃ a ∈ as, ValAt h p (.access a) := by
  obtain ⟨v, hv, hval⟩ := hl.exists_of_mem hp
  obtain ⟨a, ha, rfl⟩ := List.mem_map.mp hv
  exact ⟨a, ha, hval⟩

section Tx

variable {h h' : Heap Ptr Node} {q : Queue Ptr} {head : Option Ptr} {ms ds : List Content}

theorem txRel_empty (h : Heap Ptr Node) : TxRel h ⟨none, none⟩ none [] [] :=
  ⟨[], [], isQueue_empty h, carries_nil h, rfl, carries_nil h, List.nodup_nil⟩

/-- **Frame rule.** -/
theorem TxRel.frame (hr : TxRel h q head ms ds) (hkeep : KeepsMsgs h h') :
    TxRel h' q head ms ds := by
  obtain ⟨tx, dr, hq, htx, hdr, hcdr, hnodup⟩ := hr
  have hsame : ∀ p ∈ dr ++ tx, h' p = h p := by
    intro p hp
    rcases List.mem_append.mp hp with hp | hp
    · obtain ⟨m, hm⟩ := carries_msg hcdr hp
      exact hkeep p m hm
    · obtain ⟨m, hm⟩ := carries_msg htx hp
      exact hkeep p m hm
  refine ⟨tx, dr, hq.frame fun p hp => ?_, htx.congr fun p hp => ?_, hdr.frame fun p hp => ?_,
    hcdr.congr fun p hp => ?_, hnodup⟩
  · rw [hsame p (List.mem_append_right dr hp)]
  · rw [hsame p (List.mem_append_right dr hp)]
  · rw [hsame p (List.mem_append_left tx hp)]
  · rw [hsame p (List.mem_append_left tx hp)]

/-- `fifo_push_node` on `tx_fifo`. -/
theorem TxRel.push (hr : TxRel h q head ms ds) {node : Ptr} (hfree : h node = none) (m : Content) :
    TxRel (Lib.push (Function.update h node (some ⟨none, .msg m⟩)) q node).1
        (Lib.push (Function.update h node (some ⟨none, .msg m⟩)) q node).2 head (ms ++ [m]) ds ∧
      KeepsAccesses h (Lib.push (Function.update h node (some ⟨none, .msg m⟩)) q node).1 := by
  obtain ⟨tx, dr, hq, htx, hdr, hcdr, hnodup⟩ := hr
  have hnode : ∀ p ∈ dr ++ tx, p ≠ node := by
    intro p hp
    rcases List.mem_append.mp hp with hp | hp
    · obtain ⟨m', hm'⟩ := carries_msg hcdr hp
      exact hm'.ne_of_free hfree
    · obtain ⟨m', hm'⟩ := carries_msg htx hp
      exact hm'.ne_of_free hfree
  have hntx : node ∉ tx := fun hmem => hnode node (List.mem_append_right dr hmem) rfl
  have hndr : node ∉ dr := fun hmem => hnode node (List.mem_append_left tx hmem) rfl
  have hq₁ := hq.update_of_not_mem hntx (some ⟨none, .msg m⟩)
  have hself : Function.update h node (some ⟨none, .msg m⟩) node = some ⟨none, .msg m⟩ :=
    Function.update_self node _ h
  -- the push changes no link of the list being sent
  have hdisj : ∀ p ∈ dr, p ∉ tx := fun p hp hp' =>
    (List.nodup_append.mp hnodup).2.2 p hp p hp' rfl
  have hdr₁ : ∀ p ∈ dr, (Lib.push (Function.update h node (some ⟨none, .msg m⟩)) q node).1 p
      = h p := by
    intro p hp
    rw [hq₁.push_heap_of_not_mem (hdisj p hp),
      Function.update_of_ne (hnode p (List.mem_append_left tx hp))]
  constructor
  · refine ⟨tx ++ [node], dr, hq₁.push hself hntx, ?_, hdr.frame fun p hp => ?_,
      hcdr.congr fun p hp => ?_, ?_⟩
    · rw [List.map_append]
      refine Carries.append (htx.congr fun p hp => ?_) ?_
      · rw [push_val, Function.update_of_ne (hnode p (List.mem_append_right dr hp))]
      · rw [List.map_singleton, carries_singleton, push_val, hself]
        rfl
    · rw [hdr₁ p hp]
    · rw [hdr₁ p hp]
    · rw [← List.append_assoc]
      refine List.nodup_append.mpr ⟨hnodup, List.nodup_singleton node, ?_⟩
      intro p hp p' hp'
      rw [List.mem_singleton.mp hp']
      exact hnode p hp
  · intro p a hp
    have hptx : p ∉ tx := by
      intro hmem
      obtain ⟨m', hm'⟩ := carries_msg htx hmem
      exact absurd (hm'.unique hp) (by simp)
    rw [hq₁.push_heap_of_not_mem hptx, Function.update_of_ne (hp.ne_of_free hfree)]

/-- `on_event` takes the whole list. -/
theorem TxRel.detach (hr : TxRel h q none ms ds) :
    TxRel h (Lib.detach q).2 (Lib.detach q).1 [] ms := by
  obtain ⟨tx, dr, hq, htx, _, _, hnodup⟩ := hr
  refine ⟨[], tx, hq.detach.2, carries_nil h, hq.detach.1, htx, ?_⟩
  rw [List.append_nil]
  exact (List.nodup_append.mp hnodup).2.1

theorem TxRel.drained (hr : TxRel h q none ms ds) : ds = [] := by
  obtain ⟨tx, dr, _, _, hdr, hcdr, _⟩ := hr
  cases dr with
  | nil =>
    have hlen := hcdr.length
    rw [List.length_nil, List.length_map] at hlen
    exact List.eq_nil_of_length_eq_zero hlen.symm
  | cons p dr => exact absurd hdr.1 (by simp)

/-- `on_event` sends the first node of its list and frees it. -/
theorem TxRel.send {node : Ptr} (hr : TxRel h q (some node) ms ds) :
    ∃ n m ds', h node = some ⟨n, .msg m⟩ ∧ ds = m :: ds' ∧
      TxRel (Function.update h node none) q n ms ds' ∧
      KeepsAccesses h (Function.update h node none) := by
  obtain ⟨tx, dr, hq, htx, hdr, hcdr, hnodup⟩ := hr
  cases dr with
  | nil => exact absurd hdr (by simp)
  | cons p dr =>
    obtain ⟨hp, c, hc, hrest⟩ := hdr
    obtain rfl : node = p := Option.some.inj hp
    rw [List.cons_append, List.nodup_cons] at hnodup
    have hndr : node ∉ dr := fun hmem => hnodup.1 (List.mem_append_left tx hmem)
    have hntx : node ∉ tx := fun hmem => hnodup.1 (List.mem_append_right dr hmem)
    cases ds with
    | nil => exact absurd hcdr.length (by simp)
    | cons m ds =>
      rw [List.map_cons, carries_cons] at hcdr
      obtain ⟨n, hn⟩ := ValAt.exists hcdr.1
      rw [hn] at hc
      cases hc
      refine ⟨n, m, ds, hn, rfl, ⟨tx, dr, hq.update_of_not_mem hntx none,
        htx.update_of_not_mem hntx none, hrest.frame fun p' hp' => ?_,
        hcdr.2.update_of_not_mem hndr none, hnodup.2⟩, fun p' a hp' => ?_⟩
      · have hne : p' ≠ node := fun heq => hndr (heq ▸ hp')
        rw [Function.update_of_ne hne]
      · have hne : p' ≠ node := by
          intro heq
          exact absurd (ValAt.unique hcdr.1 (heq ▸ hp')) (by simp)
        rw [Function.update_of_ne hne]

/-- The queue is empty just when the list is. -/
theorem TxRel.head_none (hr : TxRel h q head ms ds) : q.head = none ↔ ms = [] := by
  obtain ⟨tx, dr, hq, htx, _, _, _⟩ := hr
  have hlen := htx.length
  rw [List.length_map] at hlen
  rw [hq.head_eq, List.head?_eq_none_iff]
  constructor
  · rintro rfl
    exact List.eq_nil_of_length_eq_zero hlen.symm
  · rintro rfl
    exact List.eq_nil_of_length_eq_zero hlen

end Tx

/-! ### The receiving half -/

/-- The poll in progress holds `hand`, the queue holds `rx`, and together they carry `as`, none of
which has been replied. -/
structure RxRel (h : Heap Ptr Node) (q : Queue Ptr) (hand rx : List Ptr) (as : List BarAccess) :
    Prop where
  queue : IsQueue h q rx
  nodup : (hand ++ rx).Nodup
  carries : Carries h (hand ++ rx) (as.map Node.access)
  fresh : ∀ a ∈ as, a.isReplied = false ∧ a.size ≤ 8

section Rx

variable {h h' : Heap Ptr Node} {q : Queue Ptr} {hand rx : List Ptr} {as : List BarAccess}

theorem rxRel_empty (h : Heap Ptr Node) : RxRel h ⟨none, none⟩ [] [] [] :=
  ⟨isQueue_empty h, List.nodup_nil, carries_nil h, fun _ ha => absurd ha List.not_mem_nil⟩

/-- **Frame rule.** -/
theorem RxRel.frame (hr : RxRel h q hand rx as) (hkeep : KeepsAccesses h h') :
    RxRel h' q hand rx as := by
  have hsame : ∀ p ∈ hand ++ rx, h' p = h p := by
    intro p hp
    obtain ⟨a, _, ha⟩ := carries_access hr.carries hp
    exact hkeep p a ha
  refine ⟨hr.queue.frame fun p hp => ?_, hr.nodup, hr.carries.congr fun p hp => ?_, hr.fresh⟩
  · rw [hsame p (List.mem_append_right hand hp)]
  · rw [hsame p hp]

/-- An empty queue is one in every heap. -/
theorem RxRel.of_nil (hr : RxRel h q [] [] as) (h' : Heap Ptr Node) : RxRel h' q [] [] as := by
  have hlen := hr.carries.length
  rw [List.length_map] at hlen
  obtain rfl := List.eq_nil_of_length_eq_zero hlen.symm
  exact ⟨hr.queue.frame fun p hp => absurd hp List.not_mem_nil, hr.nodup, carries_nil h', hr.fresh⟩

/-- `fifo_push_node` on `rx_fifo`. -/
theorem RxRel.push (hr : RxRel h q hand rx as) {node : Ptr} (hfree : h node = none)
    {a : BarAccess} (ha : a.isReplied = false ∧ a.size ≤ 8) :
    RxRel (Lib.push (Function.update h node (some ⟨none, .access a⟩)) q node).1
        (Lib.push (Function.update h node (some ⟨none, .access a⟩)) q node).2 hand (rx ++ [node])
        (as ++ [a]) ∧
      KeepsMsgs h (Lib.push (Function.update h node (some ⟨none, .access a⟩)) q node).1 := by
  have hnode : ∀ p ∈ hand ++ rx, p ≠ node := by
    intro p hp
    obtain ⟨a', _, ha'⟩ := carries_access hr.carries hp
    exact ha'.ne_of_free hfree
  have hnrx : node ∉ rx := fun hmem => hnode node (List.mem_append_right hand hmem) rfl
  have hq₁ := hr.queue.update_of_not_mem hnrx (some ⟨none, .access a⟩)
  have hself : Function.update h node (some ⟨none, .access a⟩) node = some ⟨none, .access a⟩ :=
    Function.update_self node _ h
  constructor
  · refine ⟨hq₁.push hself hnrx, ?_, ?_, ?_⟩
    · rw [← List.append_assoc]
      refine List.nodup_append.mpr ⟨hr.nodup, List.nodup_singleton node, ?_⟩
      intro p hp p' hp'
      rw [List.mem_singleton.mp hp']
      exact hnode p hp
    · rw [← List.append_assoc, List.map_append]
      refine Carries.append (hr.carries.congr fun p hp => ?_) ?_
      · rw [push_val, Function.update_of_ne (hnode p hp)]
      · rw [List.map_singleton, carries_singleton, push_val, hself]
        rfl
    · intro a' ha'
      rcases List.mem_append.mp ha' with hmem | hmem
      · exact hr.fresh a' hmem
      · rw [List.mem_singleton.mp hmem]
        exact ha
  · intro p m hp
    have hprx : p ∉ rx := by
      intro hmem
      obtain ⟨a', _, ha'⟩ := carries_access hr.carries (List.mem_append_right hand hmem)
      exact absurd (ha'.unique hp) (by simp)
    rw [hq₁.push_heap_of_not_mem hprx, Function.update_of_ne (hp.ne_of_free hfree)]

/-- The poll takes the oldest node. -/
theorem RxRel.pop {node : Ptr} (hr : RxRel h q [] (node :: rx) as) :
    (Lib.pop h q).1 = some node ∧ RxRel h (Lib.pop h q).2 [node] rx as :=
  ⟨hr.queue.pop.1, hr.queue.pop.2, hr.nodup, hr.carries, hr.fresh⟩

/-- The poll lets go of its node, whatever becomes of the cell. -/
theorem RxRel.dropHand {node : Ptr} (hr : RxRel h q [node] rx as) :
    ∃ a as', as = a :: as' ∧ ValAt h node (.access a) ∧
      ∀ c, RxRel (Function.update h node c) q [] rx as' := by
  have hnodup := hr.nodup
  have hcarries := hr.carries
  rw [List.singleton_append] at hnodup hcarries
  have hnrx := (List.nodup_cons.mp hnodup).1
  cases as with
  | nil => exact absurd hcarries.length (by simp)
  | cons a as =>
    rw [List.map_cons, carries_cons] at hcarries
    exact ⟨a, as, rfl, hcarries.1, fun c => ⟨hr.queue.update_of_not_mem hnrx c,
      (List.nodup_cons.mp hnodup).2, hcarries.2.update_of_not_mem hnrx c,
      fun a' ha' => hr.fresh a' (List.mem_cons_of_mem a ha')⟩⟩

end Rx

theorem keepsMsgs_update {h : Heap Ptr Node} {node : Ptr} {a : BarAccess}
    (hval : ValAt h node (.access a)) (c : Option (Cell Ptr Node)) :
    KeepsMsgs h (Function.update h node c) := by
  intro p m hp
  have hne : p ≠ node := by
    intro heq
    exact absurd (hval.unique (heq ▸ hp)) (by simp)
  exact Function.update_of_ne hne c h

/-! ### The read under way -/

/-- Where the node of the read under way is.  `seq` are the nodes the VHDL side has not been given,
`replyNode` the slot, `repl` the node of a reply in progress. -/
inductive ReadRel (h : Heap Ptr Node) (io : IoPc Ptr (Option Ptr)) (replyNode repl : Option Ptr)
    (seq : List Ptr) (as : List BarAccess) : ReadSlot → Prop where
  | free (hio : ∀ node size ev, io ≠ .spin node size ev) (hslot : replyNode = none)
      (hrepl : repl = none) (hw : ∀ a ∈ as, a.isRead = false) :
      ReadRel h io replyNode repl seq as .free
  | queued (node : Ptr) (size : ℕ) (ev : Bool) (hio : io = .spin node size ev)
      (hslot : replyNode = none) (hrepl : repl = none) (ws : List Ptr) (bs : List BarAccess)
      (a : BarAccess) (hseq : seq = ws ++ [node]) (has : as = bs ++ [a])
      (hw : ∀ b ∈ bs, b.isRead = false) (hread : a.isRead = true) (hsize : a.size = size) :
      ReadRel h io replyNode repl seq as .queued
  | pending (node : Ptr) (size : ℕ) (ev : Bool) (hio : io = .spin node size ev)
      (hslot : replyNode = some node) (hrepl : repl = none) (hseq : seq = []) (a : BarAccess)
      (hval : ValAt h node (.access a)) (hsize : a.size = size) (hle : size ≤ 8)
      (hrep : a.isReplied = false) :
      ReadRel h io replyNode repl seq as .pending
  | copied (data : BitVec 64) (node : Ptr) (size : ℕ) (ev : Bool) (hio : io = .spin node size ev)
      (hslot : replyNode = none) (hrepl : repl = some node) (hseq : seq = []) (a : BarAccess)
      (hval : ValAt h node (.access a)) (hsize : a.size = size) (hle : size ≤ 8)
      (hrep : a.isReplied = false) (hdata : load a.data 0 8 = leBytes 8 data.toNat) :
      ReadRel h io replyNode repl seq as (.copied data)
  | answered (data : BitVec 64) (node : Ptr) (size : ℕ) (ev : Bool)
      (hio : io = .spin node size ev) (hslot : replyNode = none) (hrepl : repl = none)
      (hseq : seq = []) (a : BarAccess) (hval : ValAt h node (.access a)) (hsize : a.size = size)
      (hle : size ≤ 8) (hrep : a.isReplied = true)
      (hdata : load a.data 0 8 = leBytes 8 data.toNat) :
      ReadRel h io replyNode repl seq as (.answered data)

section Read

variable {h h' : Heap Ptr Node} {io io' : IoPc Ptr (Option Ptr)} {replyNode repl : Option Ptr}
  {seq : List Ptr} {as : List BarAccess} {slot : ReadSlot}

/-- **Frame rule.** -/
theorem ReadRel.frame (hr : ReadRel h io replyNode repl seq as slot) (hkeep : KeepsAccesses h h') :
    ReadRel h' io replyNode repl seq as slot := by
  have hval' : ∀ {p : Ptr} {a : BarAccess}, ValAt h p (.access a) → ValAt h' p (.access a) := by
    intro p a hp
    rw [ValAt, hkeep p a hp]
    exact hp
  cases hr with
  | free hio hslot hrepl hw => exact .free hio hslot hrepl hw
  | queued node size ev hio hslot hrepl ws bs a hseq has hw hread hsize =>
    exact .queued node size ev hio hslot hrepl ws bs a hseq has hw hread hsize
  | pending node size ev hio hslot hrepl hseq a hval hsize hle hrep =>
    exact .pending node size ev hio hslot hrepl hseq a (hval' hval) hsize hle hrep
  | copied data node size ev hio hslot hrepl hseq a hval hsize hle hrep hdata =>
    exact .copied data node size ev hio hslot hrepl hseq a (hval' hval) hsize hle hrep hdata
  | answered data node size ev hio hslot hrepl hseq a hval hsize hle hrep hdata =>
    exact .answered data node size ev hio hslot hrepl hseq a (hval' hval) hsize hle hrep hdata

/-- While the io thread does not wait, no read is under way. -/
theorem ReadRel.of_not_spin (hr : ReadRel h io replyNode repl seq as slot)
    (hio : ∀ node size ev, io ≠ .spin node size ev) :
    slot = .free ∧ replyNode = none ∧ repl = none ∧ ∀ a ∈ as, a.isRead = false := by
  cases hr with
  | free _ hslot hrepl hw => exact ⟨rfl, hslot, hrepl, hw⟩
  | queued node size ev hspin => exact absurd hspin (hio node size ev)
  | pending node size ev hspin => exact absurd hspin (hio node size ev)
  | copied data node size ev hspin => exact absurd hspin (hio node size ev)
  | answered data node size ev hspin => exact absurd hspin (hio node size ev)

theorem ReadRel.setIo (hr : ReadRel h io replyNode repl seq as slot)
    (hio : ∀ node size ev, io ≠ .spin node size ev)
    (hio' : ∀ node size ev, io' ≠ .spin node size ev) :
    ReadRel h io' replyNode repl seq as slot := by
  obtain ⟨rfl, hslot, hrepl, hw⟩ := hr.of_not_spin hio
  exact .free hio' hslot hrepl hw

end Read

/-! ### Counters at the same place -/

section Ghdl

variable {π ρ π' ρ' : Type} {g : GhdlPc π ρ} {g' : GhdlPc π' ρ'}

/-- Two counters at the same place. -/
def SamePlace (g : GhdlPc π ρ) (g' : GhdlPc π' ρ') : Prop :=
  g.map (fun _ => ()) (fun _ => ()) = g'.map (fun _ => ()) (fun _ => ())

theorem samePlace_idle (h : SamePlace g g') (hg : g' = .idle) : g = .idle := by
  rw [SamePlace, hg] at h
  cases g <;> first | rfl | simp [GhdlPc.map] at h

theorem samePlace_pushed (h : SamePlace g g') (hg : g' = .pushed) : g = .pushed := by
  rw [SamePlace, hg] at h
  cases g <;> first | rfl | simp [GhdlPc.map] at h

theorem samePlace_joining (h : SamePlace g g') (hg : g' = .joining) : g = .joining := by
  rw [SamePlace, hg] at h
  cases g <;> first | rfl | simp [GhdlPc.map] at h

theorem samePlace_popped {p : π'} (h : SamePlace g g') (hg : g' = .popped p) :
    ∃ a, g = .popped a := by
  rw [SamePlace, hg] at h
  cases g <;> first | exact ⟨_, rfl⟩ | simp [GhdlPc.map] at h

theorem samePlace_replied {r : ρ'} (h : SamePlace g g') (hg : g' = .replied r) :
    ∃ a, g = .replied a := by
  rw [SamePlace, hg] at h
  cases g <;> first | exact ⟨_, rfl⟩ | simp [GhdlPc.map] at h

end Ghdl

/-! ### The relation -/

/-- The abstract state is the concrete one read off its nodes: `ds` is what `on_event` has left to
send, `rx` the cells of `rx_fifo`, `as` what the VHDL side has not been given. -/
structure RefinesAt (s : GlueState) (x : Spec) (ds : List Content) (rx : List Ptr)
    (as : List BarAccess) : Prop where
  pipe : x.pipe = s.pipe
  running : x.running = s.running
  loop : x.loop = s.loop
  up : x.up = s.up
  io : x.io = absIo s.io ds
  ghdl : SamePlace x.ghdl s.ghdl
  views : x.ghdl.hand ++ x.rx = as.map BarAccess.view
  txRel : TxRel s.heap s.txFifo s.io.drainHead x.tx ds
  rxRel : RxRel s.heap s.rxFifo s.ghdl.hand rx as
  readRel : ReadRel s.heap s.io s.replyNode s.ghdl.repliedNode (s.ghdl.hand ++ rx) as x.read

def Refines (s : GlueState) (x : Spec) : Prop := ∃ ds rx as, RefinesAt s x ds rx as

theorem refines_init (dev : PcieDev (Fin barCount)) (buf : Mem) (bytes : List Byte) :
    Refines (GlueState.init dev buf bytes) (Spec.init dev buf bytes) :=
  ⟨[], [], [], rfl, rfl, rfl, rfl, rfl, rfl, rfl, txRel_empty _, rxRel_empty _,
    .free (fun _ _ _ h => by cases h) rfl rfl fun _ ha => absurd ha List.not_mem_nil⟩

/-! ### Matching the moves -/

section Sim

variable {s t : GlueState} {x : Spec} {ds : List Content} {rx : List Ptr} {as : List BarAccess}
  {e : Option Event}

theorem RefinesAt.setLoop (h : RefinesAt s x ds rx as) (loop : NetLoop (Fin barCount))
    (up : Stream) :
    RefinesAt { s with loop := loop, up := up } { x with loop := loop, up := up } ds rx as :=
  ⟨h.pipe, h.running, rfl, rfl, h.io, h.ghdl, h.views, h.txRel, h.rxRel, h.readRel⟩

theorem RefinesAt.setUp (h : RefinesAt s x ds rx as) (up : Stream) :
    RefinesAt { s with up := up } { x with up := up } ds rx as :=
  ⟨h.pipe, h.running, h.loop, rfl, h.io, h.ghdl, h.views, h.txRel, h.rxRel, h.readRel⟩

theorem RefinesAt.setPipe (h : RefinesAt s x ds rx as) (pipe : List Key) :
    RefinesAt { s with pipe := pipe } { x with pipe := pipe } ds rx as :=
  ⟨rfl, h.running, h.loop, h.up, h.io, h.ghdl, h.views, h.txRel, h.rxRel, h.readRel⟩

theorem RefinesAt.setRunning (h : RefinesAt s x ds rx as) (running : Bool) :
    RefinesAt { s with running := running } { x with running := running } ds rx as :=
  ⟨h.pipe, rfl, h.loop, h.up, h.io, h.ghdl, h.views, h.txRel, h.rxRel, h.readRel⟩

/-- The io thread moves on between two places where it holds no node. -/
theorem RefinesAt.setIo (h : RefinesAt s x ds rx as) (hio : s.io.Plain)
    {p : IoPc Ptr (Option Ptr)} (hp : p.Plain) :
    RefinesAt { s with io := p } { x with io := absIo p ds } ds rx as := by
  refine ⟨h.pipe, h.running, h.loop, h.up, rfl, h.ghdl, h.views, ?_, h.rxRel,
    h.readRel.setIo hio.ne_spin hp.ne_spin⟩
  show TxRel s.heap s.txFifo p.drainHead x.tx ds
  rw [hp.drainHead_eq, ← hio.drainHead_eq]
  exact h.txRel

theorem loopEnd_plain {ν δ : Type} (stop : Bool) : (loopEnd stop : IoPc ν δ).Plain := by
  cases stop <;> trivial

theorem absIo_loopEnd (stop : Bool) : absIo (loopEnd stop) ds = loopEnd stop := by
  cases stop <;> rfl

theorem sim_recv (h : RefinesAt s x ds rx as) {ev : Bool} (hio : s.io = .recv ev)
    (hst : recvStep s ev = some (t, e)) :
    ∃ y, Spec.recvStep x ev = some (y, e) ∧ Refines t y := by
  obtain ⟨⟨up, loop, io, e'⟩, hrecv, heq⟩ := Option.map_eq_some_iff.mp hst
  cases heq
  refine ⟨{ x with up := up, loop := loop, io := absIo io ds }, ?_, ds, rx, as, ?_⟩
  · rw [Spec.recvStep, h.up, h.loop, receive_map (fun _ : Ptr => ()) (fun _ => ds), hrecv]
    rfl
  · exact (h.setLoop loop up).setIo (show s.io.Plain by rw [hio]; trivial) (receive_plain hrecv)

theorem accessNode_view (isRead : Bool) (bar : Fin barCount) (msg : PcieNetMsg) (garbage : Mem) :
    (accessNode isRead bar msg garbage).view = Spec.accessView isRead bar msg := by
  cases isRead with
  | true => rfl
  | false =>
    simp only [BarAccess.view, accessNode, Spec.accessView, Bool.false_eq_true, if_false]
    rw [load_store_eq _ _ _ _ (load_length _ _ _)]

theorem sim_access (h : RefinesAt s x ds rx as) {isRead ev : Bool} {bar : Fin barCount}
    {node : Ptr} {garbage : Mem} (hio : s.io = .access isRead bar ev)
    (hst : accessStep s isRead bar ev node garbage = some (t, e)) :
    ∃ y, Spec.accessStep x isRead bar ev = some (y, e) ∧ Refines t y := by
  unfold accessStep at hst
  by_cases hok : (s.heap node).isNone ∧ (PcieNetMsg.ofBuf s.loop.msg).width.toNat ≤ 8
  swap
  · rw [if_neg hok] at hst
    exact absurd hst (by simp)
  rw [if_pos hok] at hst
  cases hst
  obtain ⟨hfree, hwidth⟩ := hok
  have hplain : s.io.Plain := by rw [hio]; trivial
  obtain ⟨hread, hslot, hrepl, hw⟩ := h.readRel.of_not_spin hplain.ne_spin
  have hnode : s.heap node = none := Option.isNone_iff_eq_none.mp hfree
  obtain ⟨hrx, hkeep⟩ := h.rxRel.push hnode
    (a := accessNode isRead bar (PcieNetMsg.ofBuf s.loop.msg) garbage) ⟨rfl, hwidth⟩
  have hview := accessNode_view isRead bar (PcieNetMsg.ofBuf s.loop.msg) garbage
  have htx := h.txRel.frame hkeep
  rw [hplain.drainHead_eq] at htx
  have hviews : x.ghdl.hand ++ (x.rx ++ [Spec.accessView isRead bar (PcieNetMsg.ofBuf s.loop.msg)])
      = (as ++ [accessNode isRead bar (PcieNetMsg.ofBuf s.loop.msg) garbage]).map
          BarAccess.view := by
    rw [← List.append_assoc, h.views, List.map_append, List.map_singleton, hview]
  rw [hview]
  cases isRead with
  | true =>
    refine ⟨{ x with
      rx := x.rx ++ [Spec.accessView true bar (PcieNetMsg.ofBuf s.loop.msg)]
      read := .queued
      io := .spin () (PcieNetMsg.ofBuf s.loop.msg).width.toNat ev }, ?_, ds, rx ++ [node],
      as ++ [accessNode true bar (PcieNetMsg.ofBuf s.loop.msg) garbage], ?_⟩
    · simp only [Spec.accessStep, h.loop, hwidth, if_true]
    · exact ⟨h.pipe, h.running, h.loop, h.up, rfl, h.ghdl, hviews, htx, hrx,
        .queued node _ ev rfl hslot hrepl _ as _ (List.append_assoc _ _ _).symm rfl hw rfl rfl⟩
  | false =>
    refine ⟨{ x with
      rx := x.rx ++ [Spec.accessView false bar (PcieNetMsg.ofBuf s.loop.msg)]
      io := .events ev false }, ?_, ds, rx ++ [node],
      as ++ [accessNode false bar (PcieNetMsg.ofBuf s.loop.msg) garbage], ?_⟩
    · simp only [Spec.accessStep, h.loop, hwidth, if_true, Bool.false_eq_true, if_false]
    · refine ⟨h.pipe, h.running, h.loop, h.up, rfl, h.ghdl, hviews, htx, hrx, ?_⟩
      rw [show x.read = .free from hread]
      refine .free (fun _ _ _ hspin => by cases hspin) hslot hrepl fun a ha => ?_
      rcases List.mem_append.mp ha with hmem | hmem
      · exact hw a hmem
      · rw [List.mem_singleton.mp hmem]
        rfl

/-- A read returns what was copied to its node, cut to its size. -/
theorem sim_spin (h : RefinesAt s x ds rx as) {node : Ptr} {size : ℕ} {ev : Bool}
    (hio : s.io = .spin node size ev) (hst : spinStep s node size ev = some (t, e)) :
    ∃ y, Spec.spinStep x size ev = some (y, e) ∧ Refines t y := by
  have hread := h.readRel
  -- only an answered read has `is_replied` set
  have hanswered : ∃ data a, x.read = .answered data ∧ s.replyNode = none ∧
      s.ghdl.repliedNode = none ∧ s.ghdl.hand ++ rx = [] ∧ ValAt s.heap node (.access a) ∧
      a.size = size ∧ size ≤ 8 ∧ a.isReplied = true ∧ load a.data 0 8 = leBytes 8 data.toNat := by
    unfold spinStep at hst
    generalize x.read = slot at hread
    cases hread with
    | free hne => exact absurd hio (hne node size ev)
    | queued node' size' ev' hspin hslot hrepl ws bs a hseq has =>
      have hmem : node' ∈ s.ghdl.hand ++ rx := by rw [hseq]; simp
      rw [hio] at hspin
      cases hspin
      obtain ⟨a', ha', hval⟩ := carries_access h.rxRel.carries hmem
      obtain ⟨n, hn⟩ := hval.exists
      simp only [hn, (h.rxRel.fresh a' ha').1] at hst
      exact absurd hst (by simp)
    | pending node' size' ev' hspin hslot hrepl hseq a hval hsize hle hrep =>
      rw [hio] at hspin
      cases hspin
      obtain ⟨n, hn⟩ := hval.exists
      simp only [hn, hrep] at hst
      exact absurd hst (by simp)
    | copied data node' size' ev' hspin hslot hrepl hseq a hval hsize hle hrep hdata =>
      rw [hio] at hspin
      cases hspin
      obtain ⟨n, hn⟩ := hval.exists
      simp only [hn, hrep] at hst
      exact absurd hst (by simp)
    | answered data node' size' ev' hspin hslot hrepl hseq a hval hsize hle hrep hdata =>
      rw [hio] at hspin
      cases hspin
      exact ⟨data, a, rfl, hslot, hrepl, hseq, hval, hsize, hle, hrep, hdata⟩
  obtain ⟨data, a, hslot, hreply, hrepl, hseq, hval, hsize, hle, hrep, hdata⟩ := hanswered
  obtain ⟨n, hn⟩ := hval.exists
  have hbs : load a.data 0 (min size a.size) = leBytes size data.toNat := by
    rw [hsize, Nat.min_self, ← load_take a.data 0 8 size hle, hdata, leBytes_take _ _ _ hle]
  unfold spinStep at hst
  simp only [hn, hrep, if_true, hbs] at hst
  cases hst
  refine ⟨{ x with read := .free, io := .reply (barReply (leBytes size data.toNat)) ev }, ?_, ds,
    rx, as, ?_⟩
  · rw [Spec.spinStep, hslot]
  · obtain ⟨hhand, rfl⟩ := List.append_eq_nil_iff.mp hseq
    have hrx := h.rxRel
    rw [hhand] at hrx
    have has : as = [] := by
      have hlen := hrx.carries.length
      rw [List.length_map] at hlen
      exact List.eq_nil_of_length_eq_zero hlen.symm
    have htx := h.txRel.frame (keepsMsgs_update hval none)
    rw [hio] at htx
    refine ⟨h.pipe, h.running, h.loop, h.up, rfl, h.ghdl, h.views, htx, ?_, ?_⟩
    · show RxRel _ s.rxFifo s.ghdl.hand [] as
      rw [hhand]
      exact hrx.of_nil _
    · refine .free (fun _ _ _ hspin => by cases hspin) hreply hrepl fun a ha => ?_
      rw [has] at ha
      exact absurd ha List.not_mem_nil

theorem sim_key (h : RefinesAt s x ds rx as) {ks : List Key} {stop : Bool}
    (hio : s.io = .keys ks stop) (hst : keyStep s ks stop = some (t, e)) :
    ∃ y, Spec.keyStep x ks stop = some (y, e) ∧ Refines t y := by
  have hplain : s.io.Plain := by rw [hio]; trivial
  cases ks with
  | nil =>
    cases hst
    refine ⟨_, rfl, ds, rx, as, ?_⟩
    have hset := h.setIo hplain (loopEnd_plain stop)
    rwa [absIo_loopEnd] at hset
  | cons k ks =>
    cases k with
    | quit =>
      cases hst
      exact ⟨_, rfl, ds, rx, as, h.setIo hplain (p := .keys ks true) trivial⟩
    | push =>
      cases hst
      have htx := h.txRel
      rw [hplain.drainHead_eq] at htx
      exact ⟨_, rfl, x.tx, rx, as, h.pipe, h.running, h.loop, h.up, rfl, h.ghdl, h.views,
        htx.detach, h.rxRel, h.readRel.setIo hplain.ne_spin fun _ _ _ hspin => by cases hspin⟩

theorem sim_drain (h : RefinesAt s x ds rx as) {head : Option Ptr} {ks : List Key} {stop : Bool}
    (hio : s.io = .drain head ks stop) (hst : drainStep s head ks stop = some (t, e)) :
    ∃ y, Spec.drainStep x ds ks stop = some (y, e) ∧ Refines t y := by
  have hne : ∀ node size ev, s.io ≠ .spin node size ev := by
    intro node size ev
    rw [hio]
    exact fun hspin => by cases hspin
  have htx := h.txRel
  rw [hio] at htx
  cases head with
  | none =>
    cases hst
    obtain rfl := htx.drained
    exact ⟨_, rfl, [], rx, as, h.pipe, h.running, h.loop, h.up, rfl, h.ghdl, h.views, htx, h.rxRel,
      h.readRel.setIo hne fun _ _ _ hspin => by cases hspin⟩
  | some node =>
    obtain ⟨n, m, ds', hn, rfl, htx', hkeep⟩ := htx.send
    unfold drainStep at hst
    simp only [hn] at hst
    cases hst
    exact ⟨_, rfl, ds', rx, as, h.pipe, h.running, h.loop, h.up, rfl, h.ghdl, h.views, htx',
      h.rxRel.frame hkeep,
      (h.readRel.frame hkeep).setIo hne fun _ _ _ hspin => by cases hspin⟩

theorem sim_select (h : RefinesAt s x ds rx as) {node : Ptr} {garbage : Mem} {batch : ℕ}
    (hio : s.io = .select) (hst : ioStep s node garbage batch = some (t, e)) :
    ∃ y, Spec.ioStep x batch = some (y, e) ∧ Refines t y := by
  have hxio := h.io
  unfold ioStep at hst
  unfold Spec.ioStep
  rw [hxio, hio]
  simp only [hio] at hst
  have hplain : s.io.Plain := by rw [hio]; trivial
  by_cases harrived : s.up.arrived ≠ []
  · rw [if_pos harrived] at hst
    cases hst
    refine ⟨{ x with io := .recv (!s.pipe.isEmpty) }, ?_, ds, rx, as,
      h.setIo hplain (p := .recv (!s.pipe.isEmpty)) trivial⟩
    simp only [absIo, IoPc.map, h.up, h.pipe]
    rw [if_pos harrived]
  · rw [if_neg harrived] at hst
    by_cases hev : (!s.pipe.isEmpty) = true
    · rw [if_pos hev] at hst
      cases hst
      refine ⟨{ x with io := .events (!s.pipe.isEmpty) false }, ?_, ds, rx, as,
        h.setIo hplain (p := .events (!s.pipe.isEmpty) false) trivial⟩
      simp only [absIo, IoPc.map, h.up, h.pipe]
      rw [if_neg harrived, if_pos hev]
    · rw [if_neg hev] at hst
      exact absurd hst (by simp)

theorem sim_events (h : RefinesAt s x ds rx as) {node : Ptr} {garbage : Mem} {batch : ℕ}
    {ev stop : Bool} (hio : s.io = .events ev stop)
    (hst : ioStep s node garbage batch = some (t, e)) :
    ∃ y, Spec.ioStep x batch = some (y, e) ∧ Refines t y := by
  have hxio := h.io
  unfold ioStep at hst
  unfold Spec.ioStep
  rw [hxio, hio]
  simp only [hio] at hst
  simp only [absIo, IoPc.map]
  have hplain : s.io.Plain := by rw [hio]; trivial
  cases ev with
  | true =>
    rw [if_pos rfl] at hst ⊢
    by_cases hbatch : 0 < batch ∧ batch ≤ 32 ∧ batch ≤ s.pipe.length
    · rw [if_pos hbatch] at hst
      cases hst
      refine ⟨{ x with pipe := s.pipe.drop batch, io := .keys (s.pipe.take batch) stop }, ?_, ds,
        rx, as, (h.setPipe (s.pipe.drop batch)).setIo hplain
          (p := .keys (s.pipe.take batch) stop) trivial⟩
      rw [h.pipe, if_pos hbatch]
    · rw [if_neg hbatch] at hst
      exact absurd hst (by simp)
  | false =>
    rw [if_neg (by decide)] at hst ⊢
    cases hst
    refine ⟨_, rfl, ds, rx, as, ?_⟩
    have hset := h.setIo hplain (loopEnd_plain stop)
    rwa [absIo_loopEnd] at hset

theorem sim_io (h : RefinesAt s x ds rx as) {node : Ptr} {garbage : Mem} {batch : ℕ}
    (hst : ioStep s node garbage batch = some (t, e)) :
    ∃ y, Spec.ioStep x batch = some (y, e) ∧ Refines t y := by
  have hxio := h.io
  cases hio : s.io with
  | check =>
    rw [ioStep, hio] at hst
    rw [hio] at hxio
    simp only [Spec.ioStep, hxio, absIo, IoPc.map]
    cases hst
    refine ⟨{ x with io := if s.running then .select else .exited }, ?_, ds, rx, as, ?_⟩
    · rw [h.running]
    · have hset := h.setIo (show s.io.Plain by rw [hio]; trivial)
        (p := if s.running then .select else .exited) (by cases s.running <;> trivial)
      rwa [show absIo (if s.running then .select else .exited) ds
        = if s.running then .select else .exited by cases s.running <;> rfl] at hset
  | select => exact sim_select h hio hst
  | recv ev =>
    rw [ioStep, hio] at hst
    rw [hio] at hxio
    simp only [Spec.ioStep, hxio, absIo, IoPc.map]
    exact sim_recv h hio hst
  | access isRead bar ev =>
    rw [ioStep, hio] at hst
    rw [hio] at hxio
    simp only [Spec.ioStep, hxio, absIo, IoPc.map]
    exact sim_access h hio hst
  | spin node size ev =>
    rw [ioStep, hio] at hst
    rw [hio] at hxio
    simp only [Spec.ioStep, hxio, absIo, IoPc.map]
    exact sim_spin h hio hst
  | reply r ev =>
    rw [ioStep, hio] at hst
    rw [hio] at hxio
    simp only [Spec.ioStep, hxio, absIo, IoPc.map]
    cases hst
    exact ⟨_, rfl, ds, rx, as,
      h.setIo (show s.io.Plain by rw [hio]; trivial) (p := .events ev false) trivial⟩
  | events ev stop => exact sim_events h hio hst
  | keys ks stop =>
    rw [ioStep, hio] at hst
    rw [hio] at hxio
    simp only [Spec.ioStep, hxio, absIo, IoPc.map]
    exact sim_key h hio hst
  | drain head ks stop =>
    rw [ioStep, hio] at hst
    rw [hio] at hxio
    simp only [Spec.ioStep, hxio, absIo, IoPc.map]
    exact sim_drain h hio hst
  | exited =>
    rw [ioStep, hio] at hst
    exact absurd hst (by simp)

/-- The GHDL thread moves on between two places where it holds the same nodes. -/
theorem RefinesAt.setGhdl (h : RefinesAt s x ds rx as) {g : GhdlPc Ptr Ptr}
    {k : GhdlPc AccessView Unit} (hplace : SamePlace k g) (hhand : g.hand = s.ghdl.hand)
    (hhand' : k.hand = x.ghdl.hand) (hrepl : g.repliedNode = s.ghdl.repliedNode) :
    RefinesAt { s with ghdl := g } { x with ghdl := k } ds rx as := by
  refine ⟨h.pipe, h.running, h.loop, h.up, h.io, hplace, ?_, h.txRel, ?_, ?_⟩
  · show k.hand ++ x.rx = _
    rw [hhand']
    exact h.views
  · show RxRel s.heap s.rxFifo g.hand rx as
    rw [hhand]
    exact h.rxRel
  · show ReadRel s.heap s.io s.replyNode g.repliedNode (g.hand ++ rx) as x.read
    rw [hhand, hrepl]
    exact h.readRel

theorem sim_push (h : RefinesAt s x ds rx as) {call : SendCall} {junk : Junk} {node : Ptr}
    (hst : pushStep s call junk node = some (t, e)) :
    ∃ y, Spec.pushStep x call junk = some (y, e) ∧ Refines t y := by
  unfold pushStep at hst
  cases hg : s.ghdl with
  | idle =>
    simp only [hg] at hst
    by_cases hfree : (s.heap node).isNone
    · rw [if_pos hfree] at hst
      cases hst
      have hxg := samePlace_idle h.ghdl hg
      obtain ⟨htx, hkeep⟩ := h.txRel.push (Option.isNone_iff_eq_none.mp hfree) (call.msg junk)
      refine ⟨{ x with tx := x.tx ++ [call.msg junk], ghdl := .pushed }, ?_, ds, rx, as, ?_⟩
      · simp only [Spec.pushStep, hxg]
      · have hset := h.setGhdl (g := .pushed) (k := .pushed) rfl (by rw [hg]; rfl)
          (by rw [hxg]; rfl) (by rw [hg]; rfl)
        exact ⟨h.pipe, h.running, h.loop, h.up, h.io, rfl, hset.views, htx,
          hset.rxRel.frame hkeep, hset.readRel.frame hkeep⟩
    · rw [if_neg hfree] at hst
      exact absurd hst (by simp)
  | _ => simp [hg] at hst

theorem sim_poll (h : RefinesAt s x ds rx as) (hst : pollStep s = some (t, e)) :
    ∃ y, Spec.pollStep x = some (y, e) ∧ Refines t y := by
  unfold pollStep at hst
  cases hg : s.ghdl with
  | idle =>
    have hxg := samePlace_idle h.ghdl hg
    have hrx := h.rxRel
    have hviews := h.views
    have hread := h.readRel
    rw [hg] at hrx hread
    rw [hxg] at hviews
    simp only [hg] at hst
    cases rx with
    | nil =>
      have has : as = [] := by
        have hlen := hrx.carries.length
        rw [List.length_map] at hlen
        exact List.eq_nil_of_length_eq_zero hlen.symm
      have hxrx : x.rx = [] := by
        rw [has] at hviews
        exact hviews
      rw [hrx.queue.pop_nil] at hst
      cases hst
      refine ⟨x, ?_, ds, [], as, ?_⟩
      · simp only [Spec.pollStep, hxg, hxrx]
      · rw [← hg]
        exact h
    | cons p rx =>
      obtain ⟨hpop, hrx'⟩ := hrx.pop
      simp only [hpop] at hst
      cases hst
      cases as with
      | nil => exact absurd hrx.carries.length (by simp [GhdlPc.hand])
      | cons a as =>
        have hxrx : x.rx = a.view :: as.map BarAccess.view := hviews
        refine ⟨{ x with rx := as.map BarAccess.view, ghdl := .popped a.view }, ?_, ds, rx,
          a :: as, h.pipe, h.running, h.loop, h.up, h.io, rfl, rfl, h.txRel, hrx', hread⟩
        simp only [Spec.pollStep, hxg, hxrx]
  | _ => simp [hg] at hst

theorem nodeResult_view (a : BarAccess) : nodeResult a = a.view.result := by
  cases hread : a.isRead <;> simp [nodeResult, AccessView.result, BarAccess.view, hread]

/-- A read in the hand of the poll is the last access, and the slot is free for it. -/
theorem ReadRel.of_hand {h : Heap Ptr Node} {io : IoPc Ptr (Option Ptr)}
    {replyNode repl : Option Ptr} {node : Ptr} {a : BarAccess} {slot : ReadSlot}
    (hr : ReadRel h io replyNode repl (node :: rx) (a :: as) slot)
    (hlen : rx.length = as.length) (hread : a.isRead = true) :
    rx = [] ∧ as = [] ∧ replyNode = none ∧ ∃ ev, io = .spin node a.size ev := by
  cases hr with
  | free _ _ _ hw => exact absurd (hread.symm.trans (hw a List.mem_cons_self)) (by simp)
  | queued node' size ev hio hslot hrepl ws bs a' hseq has hw hread' hsize =>
    cases bs with
    | nil =>
      rw [List.nil_append, List.cons.injEq] at has
      obtain ⟨rfl, rfl⟩ := has
      rw [List.length_nil, List.length_eq_zero_iff] at hlen
      subst hlen
      cases ws with
      | nil =>
        rw [List.nil_append, List.cons.injEq] at hseq
        obtain ⟨rfl, _⟩ := hseq
        exact ⟨rfl, rfl, hslot, ev, hsize ▸ hio⟩
      | cons w ws => exact absurd (congrArg List.length hseq) (by simp)
    | cons b bs =>
      rw [List.cons_append, List.cons.injEq] at has
      exact absurd (hread.symm.trans (has.1 ▸ hw b List.mem_cons_self)) (by simp)
  | pending _ _ _ _ _ _ hseq => exact absurd hseq (by simp)
  | copied _ _ _ _ _ _ _ hseq => exact absurd hseq (by simp)
  | answered _ _ _ _ _ _ _ hseq => exact absurd hseq (by simp)

/-- A write leaves the hand of the poll. -/
theorem ReadRel.dropWrite {h : Heap Ptr Node} {io : IoPc Ptr (Option Ptr)}
    {replyNode repl : Option Ptr} {node : Ptr} {a : BarAccess} {slot : ReadSlot}
    (hr : ReadRel h io replyNode repl (node :: rx) (a :: as) slot)
    (hlen : rx.length = as.length) (hread : a.isRead = false) (h' : Heap Ptr Node) :
    ReadRel h' io replyNode repl rx as slot := by
  cases hr with
  | free hio hslot hrepl hw =>
    exact .free hio hslot hrepl fun b hb => hw b (List.mem_cons_of_mem a hb)
  | queued node' size ev hio hslot hrepl ws bs a' hseq has hw hread' hsize =>
    cases bs with
    | nil =>
      rw [List.nil_append, List.cons.injEq] at has
      exact absurd ((has.1 ▸ hread).symm.trans hread') (by simp)
    | cons b bs =>
      rw [List.cons_append, List.cons.injEq] at has
      obtain ⟨rfl, rfl⟩ := has
      cases ws with
      | nil =>
        rw [List.nil_append, List.cons.injEq] at hseq
        rw [hseq.2] at hlen
        exact absurd hlen (by simp)
      | cons w ws =>
        rw [List.cons_append, List.cons.injEq] at hseq
        exact .queued node' size ev hio hslot hrepl ws bs a' hseq.2 rfl
          (fun b hb => hw b (List.mem_cons_of_mem a hb)) hread' hsize
  | pending _ _ _ _ _ _ hseq => exact absurd hseq (by simp)
  | copied _ _ _ _ _ _ _ hseq => exact absurd hseq (by simp)
  | answered _ _ _ _ _ _ _ hseq => exact absurd hseq (by simp)

/-- The poll gives its node to the VHDL side.  The slot for replies is never taken. -/
theorem sim_popped (h : RefinesAt s x ds rx as) {node : Ptr} (hg : s.ghdl = .popped node)
    (hst : poppedStep s node = some (t, e)) :
    ∃ y, Spec.ghdlStep x = some (y, e) ∧ Refines t y := by
  obtain ⟨v, hxg⟩ := samePlace_popped h.ghdl hg
  have hrx := h.rxRel
  have hviews := h.views
  have hread := h.readRel
  rw [hg] at hrx hread
  rw [hxg] at hviews
  obtain ⟨a, as', rfl, hval, hdrop⟩ := hrx.dropHand
  obtain ⟨rfl, hxrx⟩ := List.cons.inj hviews
  obtain ⟨n, hn⟩ := hval.exists
  have hlen : rx.length = as'.length := by
    have := hrx.carries.length
    simpa [GhdlPc.hand] using this
  unfold poppedStep at hst
  simp only [hn] at hst
  by_cases hisRead : a.isRead = true
  · obtain ⟨rfl, rfl, hslot, ev, hio⟩ := hread.of_hand hlen hisRead
    obtain ⟨hrep, hle⟩ := hrx.fresh a List.mem_cons_self
    rw [if_pos hisRead, hslot, if_neg (by simp)] at hst
    cases hst
    refine ⟨{ x with read := .pending, ghdl := .idle }, ?_, ds, [], [], h.pipe, h.running, h.loop,
      h.up, h.io, rfl, hxrx, h.txRel, ?_,
      .pending node a.size ev hio rfl rfl rfl a hval rfl hle hrep⟩
    · simp only [Spec.ghdlStep, hxg, Spec.poppedStep, nodeResult_view]
      rw [if_pos (show a.view.isRead = true from hisRead)]
    · have := hdrop (s.heap node)
      rwa [Function.update_eq_self] at this
  · have hwrite : a.isRead = false := by simpa using hisRead
    rw [if_neg hisRead] at hst
    cases hst
    refine ⟨{ x with ghdl := .idle }, ?_, ds, rx, as', h.pipe, h.running, h.loop, h.up, h.io, rfl,
      hxrx, h.txRel.frame (keepsMsgs_update hval none), hdrop none,
      hread.dropWrite hlen hwrite _⟩
    simp only [Spec.ghdlStep, hxg, Spec.poppedStep, nodeResult_view]
    rw [if_neg (show ¬a.view.isRead = true from hisRead)]

/-- A reply reaches the pending read, and is dropped when there is none. -/
theorem sim_sendReply (h : RefinesAt s x ds rx as) {data : Mem}
    (hst : sendReplyStep s data = some (t, e)) :
    ∃ y, Spec.sendReplyStep x data = some (y, e) ∧ Refines t y := by
  unfold sendReplyStep at hst
  cases hg : s.ghdl with
  | idle =>
    have hxg := samePlace_idle h.ghdl hg
    have hread := h.readRel
    simp only [hg] at hst
    -- without a pending read the slot is empty and nothing happens
    have hdrop : s.replyNode = none → x.read ≠ .pending →
        ∃ y, Spec.sendReplyStep x data = some (y, e) ∧ Refines t y := by
      intro hslot hne
      simp only [hslot] at hst
      cases hst
      refine ⟨x, ?_, ds, rx, as, h⟩
      simp only [Spec.sendReplyStep, hxg]
    cases hx : x.read with
    | pending =>
      rw [hx] at hread
      cases hread with
      | pending node size ev hio hslot hrepl hseq a hval hsize hle hrep =>
        obtain ⟨n, hn⟩ := hval.exists
        simp only [hslot, hn] at hst
        cases hst
        obtain ⟨_, rfl⟩ := List.append_eq_nil_iff.mp hseq
        have hrx := h.rxRel
        have hviews := h.views
        rw [hg] at hrx
        rw [hxg] at hviews
        refine ⟨{ x with read := .copied (logicToUint 64 data), ghdl := .replied () }, ?_, ds, [],
          as, h.pipe, h.running, h.loop, h.up, h.io, rfl, hviews,
          h.txRel.frame (keepsMsgs_update hval _), hrx.of_nil _,
          .copied (logicToUint 64 data) node size ev hio rfl rfl rfl
            { a with data := store a.data 0 (leBytes 8 (logicToUint 64 data).toNat) } ?_ hsize hle
            hrep ?_⟩
        · simp only [Spec.sendReplyStep, hxg, hx]
        · exact valAt_of_eq (Function.update_self node _ s.heap)
        · exact load_store_eq _ _ _ _ (leBytes_length _ _)
    | _ =>
      rw [hx] at hread
      cases hread
      exact hdrop ‹_› (by simp [hx])
  | _ => simp [hg] at hst

theorem sim_replied (h : RefinesAt s x ds rx as) {node : Ptr} (hg : s.ghdl = .replied node)
    (hst : repliedStep s node = some (t, e)) :
    ∃ y, Spec.ghdlStep x = some (y, e) ∧ Refines t y := by
  obtain ⟨_, hxg⟩ := samePlace_replied h.ghdl hg
  have hread := h.readRel
  have hrepl : s.ghdl.repliedNode = some node := by rw [hg]; rfl
  rw [hrepl] at hread
  generalize hx : x.read = slot at hread
  cases hread with
  | copied data node' size ev hio hslot hrepl' hseq a hval hsize hle hrep hdata =>
    obtain rfl : node = node' := Option.some.inj hrepl'
    obtain ⟨n, hn⟩ := hval.exists
    unfold repliedStep at hst
    simp only [hn] at hst
    cases hst
    obtain ⟨_, rfl⟩ := List.append_eq_nil_iff.mp hseq
    have hrx := h.rxRel
    have hviews := h.views
    rw [hg] at hrx
    rw [hxg] at hviews
    refine ⟨{ x with read := .answered data, ghdl := .idle }, ?_, ds, [], as, h.pipe, h.running,
      h.loop, h.up, h.io, rfl, hviews, h.txRel.frame (keepsMsgs_update hval _), hrx.of_nil _,
      .answered data node size ev hio hslot rfl rfl { a with isReplied := true } ?_ hsize hle rfl
        hdata⟩
    · simp only [Spec.ghdlStep, hxg, Spec.repliedStep, hx]
    · exact valAt_of_eq (Function.update_self node _ s.heap)
  | free _ _ hrepl' => exact absurd hrepl' (by simp)
  | queued _ _ _ _ _ hrepl' => exact absurd hrepl' (by simp)
  | pending _ _ _ _ _ hrepl' => exact absurd hrepl' (by simp)
  | answered _ _ _ _ _ _ hrepl' => exact absurd hrepl' (by simp)

theorem sim_ghdl (h : RefinesAt s x ds rx as) (hst : ghdlStep s = some (t, e)) :
    ∃ y, Spec.ghdlStep x = some (y, e) ∧ Refines t y := by
  unfold ghdlStep at hst
  cases hg : s.ghdl with
  | idle => simp [hg] at hst
  | pushed =>
    have hxg := samePlace_pushed h.ghdl hg
    simp only [hg] at hst
    cases hst
    refine ⟨{ x with pipe := s.pipe ++ [.push], ghdl := .idle }, ?_, ds, rx, as,
      (h.setPipe (s.pipe ++ [.push])).setGhdl (g := .idle) (k := .idle) rfl ?_ ?_ ?_⟩
    · simp only [Spec.ghdlStep, hxg, h.pipe]
    · simp only [hg]
      rfl
    · simp only [hxg]
      rfl
    · simp only [hg]
      rfl
  | popped node =>
    simp only [hg] at hst
    exact sim_popped h hg hst
  | replied node =>
    simp only [hg] at hst
    exact sim_replied h hg hst
  | joining =>
    have hxg := samePlace_joining h.ghdl hg
    simp only [hg] at hst
    cases hst
    refine ⟨{ x with pipe := s.pipe ++ [.quit], ghdl := .joined }, ?_, ds, rx, as,
      (h.setPipe (s.pipe ++ [.quit])).setGhdl (g := .joined) (k := .joined) rfl ?_ ?_ ?_⟩
    · simp only [Spec.ghdlStep, hxg, h.pipe]
    · simp only [hg]
      rfl
    · simp only [hxg]
      rfl
    · simp only [hg]
      rfl
  | joined => simp [hg] at hst

theorem sim_join (h : RefinesAt s x ds rx as) (hst : joinStep s = some (t, e)) :
    ∃ y, Spec.joinStep x = some (y, e) ∧ Refines t y := by
  unfold joinStep at hst
  cases hg : s.ghdl with
  | idle =>
    have hxg := samePlace_idle h.ghdl hg
    simp only [hg] at hst
    cases hst
    refine ⟨{ x with running := false, ghdl := .joining }, ?_, ds, rx, as,
      (h.setRunning false).setGhdl rfl ?_ ?_ ?_⟩
    · simp only [Spec.joinStep, hxg]
    · simp only [hg]
      rfl
    · simp only [hxg]
      rfl
    · simp only [hg]
      rfl
  | _ => simp [hg] at hst

end Sim

/-- **Every move is matched by the same move of the abstract glue**, with the same event. -/
theorem act_refines {s t : GlueState} {x : Spec} {a : Move} {e : Option Event} (h : Refines s x)
    (hst : act s a = some (t, e)) : ∃ y, Spec.act x a = some (y, e) ∧ Refines t y := by
  obtain ⟨ds, rx, as, h⟩ := h
  cases a with
  | deliver k =>
    cases hst
    refine ⟨{ x with up := s.up.deliver k }, ?_, ds, rx, as, h.setUp (s.up.deliver k)⟩
    rw [Spec.act, h.up]
  | io node garbage batch => exact sim_io h hst
  | push call junk node => exact sim_push h hst
  | poll => exact sim_poll h hst
  | sendReply data => exact sim_sendReply h hst
  | join => exact sim_join h hst
  | ghdl => exact sim_ghdl h hst

theorem Spec.step_of_act {x y : Spec} {a : Move} {e : Option Event}
    (h : Spec.act x a = some (y, e)) : Spec.step x a = some y ∧ Spec.event x a = e := by
  rw [Spec.step, Spec.event, h]
  exact ⟨rfl, rfl⟩

/-- **So is every run**, with the same trace. -/
theorem run_refines {s t : GlueState} {x : Spec} {moves : List Move} (h : Refines s x)
    (hrun : run step s moves = some t) :
    ∃ y, run Spec.step x moves = some y ∧ Refines t y ∧
      trace step event s moves = trace Spec.step Spec.event x moves := by
  refine run_refinement Refines ?_ h hrun
  intro s a t x h hst
  obtain ⟨e, hact, hevent⟩ := step_eq_some.mp hst
  obtain ⟨y, hy, hRy⟩ := act_refines h hact
  obtain ⟨hstep, hspecEvent⟩ := Spec.step_of_act hy
  exact ⟨y, hstep, hRy, hevent.trans hspecEvent.symm⟩

/-- A run of the glue from its start, seen from the abstract glue. -/
theorem run_init_refines {dev : PcieDev (Fin barCount)} {buf : Mem} {bytes : List Byte}
    {t : GlueState} {moves : List Move}
    (hrun : run step (GlueState.init dev buf bytes) moves = some t) :
    ∃ y, run Spec.step (Spec.init dev buf bytes) moves = some y ∧ Refines t y ∧
      trace step event (GlueState.init dev buf bytes) moves
        = trace Spec.step Spec.event (Spec.init dev buf bytes) moves :=
  run_refines (refines_init dev buf bytes) hrun

end VPcie.Glue
