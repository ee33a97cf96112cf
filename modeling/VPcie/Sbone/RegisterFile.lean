import VPcie.Sbone.Main

/-!
# sbone as a register file

An access that is popped is on the request ports after the edge, in the registers after the next
one, its reply in the multiplexer after the third, and sent on the fourth.  One request a cycle goes
through each stage, so nothing is lost and no two replies meet.

* `lastWritten`, `expectedReplies` — the register file;
* `Conserved` — what has been sent and what the stages hold is what was expected;
* `registers_consistent` — every access has been answered three edges later, and its MSI sent after
  two.
-/

namespace VPcie.Sbone

open VPcie.Lib VPcie.Glue
open VPcie.Vhdl (Req Endpoint EndpointIn GlueCall pollRxFifo)

/-! ### The register file -/

/-- An access as the host makes it: `bar` in [0:5], and of some size. -/
structure HostAccess (a : AccessView) : Prop where
  bar : a.bar.toNat < Device.barCount
  size : a.size ≠ 0

/-- The access is for this offset of BAR 1. -/
def IsFor (addr : ℕ) (a : AccessView) : Prop := a.bar.toNat = 1 ∧ a.addr.toNat = addr

instance (addr : ℕ) (a : AccessView) : Decidable (IsFor addr a) :=
  inferInstanceAs (Decidable (_ ∧ _))

/-- The last value written to a register, 0 if there is none. -/
def lastWritten (addr : ℕ) (as : List AccessView) : BitVec 64 :=
  as.foldl (fun v a => if a.isRead = false ∧ IsFor addr a then a.data.getD 0 else v) 0

/-- The reply to an access after others. -/
def replyTo (done : List AccessView) (a : AccessView) : List (BitVec 64) :=
  if a.isRead = true ∧ IsFor 0x10 a then [lastWritten 0x10 done]
  else if a.isRead = true ∧ IsFor 0x18 a then [lastWritten 0x18 done]
  else []

/-- The replies to a list of accesses, after others. -/
def expectedReplies : List AccessView → List AccessView → List (BitVec 64)
  | _, [] => []
  | done, a :: as => replyTo done a ++ expectedReplies (done ++ [a]) as

/-- The writes that cause a MSI. -/
def msiWrites (as : List AccessView) : ℕ :=
  as.countP fun a => decide (a.isRead = false ∧ IsFor 0x20 a)

theorem expectedReplies_snoc (done as : List AccessView) (a : AccessView) :
    expectedReplies done (as ++ [a]) = expectedReplies done as ++ replyTo (done ++ as) a := by
  induction as generalizing done with
  | nil =>
    rw [List.nil_append, List.append_nil]
    exact List.append_nil _
  | cons b as ih =>
    rw [List.cons_append, expectedReplies, ih, expectedReplies, List.append_assoc,
      List.append_assoc]
    rfl

theorem msiWrites_snoc (as : List AccessView) (a : AccessView) : msiWrites (as ++ [a])
    = msiWrites as + if decide (a.isRead = false ∧ IsFor 0x20 a) then 1 else 0 := by
  rw [msiWrites, List.countP_append, List.countP_singleton]
  rfl

theorem lastWritten_snoc (addr : ℕ) (as : List AccessView) (a : AccessView) :
    lastWritten addr (as ++ [a]) = if a.isRead = false ∧ IsFor addr a then a.data.getD 0
      else lastWritten addr as := by
  rw [lastWritten, List.foldl_append]
  rfl

/-! ### What has been popped and sent -/

/-- The access popped on an edge; the endpoint polls on every one. -/
def System.popped (s : System) (arrivals : List AccessView) : Option AccessView :=
  (s.fifo ++ arrivals).head?

/-- The accesses popped before edge `n`. -/
def poppedBefore (arr : ℕ → List AccessView) : ℕ → List AccessView
  | 0 => []
  | n + 1 => poppedBefore arr n ++ ((System.after arr n).popped (arr n)).toList

/-- The calls into the glue before edge `n`. -/
def callsBefore (arr : ℕ → List AccessView) : ℕ → List GlueCall
  | 0 => []
  | n + 1 => callsBefore arr n ++ (System.after arr n).calls

/-- The data of the calls of `glue_send_reply`. -/
def replies (cs : List GlueCall) : List (BitVec 64) :=
  cs.filterMap fun c =>
    match c with
    | .sendReply data => some data
    | _ => none

/-- The calls of `glue_send_msi`. -/
def msis (cs : List GlueCall) : ℕ := cs.count .sendMsi

theorem replies_append (as bs : List GlueCall) : replies (as ++ bs) = replies as ++ replies bs :=
  List.filterMap_append

/-! ### The stages -/

/-- The reply the request ports ask for. -/
def reqReply (d : Dev) (r : Req) : List (BitVec 64) :=
  if selects 0x10 r = true ∧ r.wr = false then [d.rw0.data]
  else if selects 0x18 r = true ∧ r.wr = false then [d.rw1.data]
  else []

/-- The reply of a register. -/
def RegRw.reply (r : RegRw) : List (BitVec 64) := if r.repEn then [r.repData] else []

/-- The reply of the multiplexer. -/
def RepMux.reply (m : RepMux) : List (BitVec 64) := if m.repEn then [m.repData] else []

/-- At most one register replies. -/
def OneReply (d : Dev) : Prop := d.rw0.repEn = false ∨ d.rw1.repEn = false

theorem selects_unique {addr addr' : ℕ} (hne : addr ≠ addr') {r : Req}
    (h : selects addr r = true) : selects addr' r = false := by
  rw [selects, rwEn, barAddrCmp, Bool.and_eq_true, decide_eq_true_eq] at h
  have hcmp : barAddrCmp addr' (r.bar, r.addr) = false :=
    decide_eq_false fun h' => hne (h.1.2.symm.trans h'.2)
  rw [selects, rwEn, hcmp, Bool.false_and]

theorem writes_eq (addr : ℕ) (r : Req) : writes addr r = (selects addr r && r.wr) := rfl

theorem calls_replies (s : System) : replies s.calls = s.dev.mux.reply := by
  unfold System.calls EndpointIn.calls RepMux.reply
  cases s.dev.msi.msiEn <;> cases s.dev.mux.repEn <;> rfl

theorem calls_msis (s : System) : msis s.calls = if s.dev.msi.msiEn then 1 else 0 := by
  unfold System.calls EndpointIn.calls
  cases s.dev.msi.msiEn <;> cases s.dev.mux.repEn <;> rfl

/-- **The multiplexer passes the reply on**, if there is no other. -/
theorem edge_mux {d : Dev} (h : OneReply d) (r : Req) :
    (d.edge r).mux.reply = d.rw0.reply ++ d.rw1.reply := by
  show (repMuxClock d.rw0 d.rw1).reply = _
  unfold RepMux.reply repMuxClock RegRw.reply
  rcases h with h | h
  · rw [h]
    cases d.rw1.repEn <;> rfl
  · rw [h]
    cases d.rw0.repEn <;> rfl

/-- **The register that is selected replies.** -/
theorem clock_reply (rw : RegRw) (isEn wr : Bool) (data : BitVec 64) :
    (rw.clock isEn wr data).reply = if isEn = true ∧ wr = false then [rw.data] else [] := by
  cases isEn <;> cases wr <;> rfl

theorem edge_reply (d : Dev) (r : Req) :
    (d.edge r).rw0.reply ++ (d.edge r).rw1.reply = reqReply d r := by
  show (d.rw0.clock (selects 0x10 r) r.wr r.data).reply ++
    (d.rw1.clock (selects 0x18 r) r.wr r.data).reply = _
  rw [clock_reply, clock_reply, reqReply]
  by_cases h0 : selects 0x10 r = true ∧ r.wr = false
  · have hother : selects 0x18 r = false := selects_unique (by decide) h0.1
    rw [if_pos h0, if_pos h0, hother, if_neg (fun hc => by cases hc.1)]
    rfl
  · rw [if_neg h0, if_neg h0]
    rfl

theorem edge_oneReply (d : Dev) (r : Req) : OneReply (d.edge r) := by
  by_cases h0 : selects 0x10 r = true
  · right
    show (d.rw1.clock (selects 0x18 r) r.wr r.data).repEn = false
    rw [selects_unique (by decide) h0]
    rfl
  · left
    show (d.rw0.clock (selects 0x10 r) r.wr r.data).repEn = false
    rw [Bool.eq_false_iff.mpr h0]
    rfl

/-- A write changes the register it is for. -/
theorem clock_data (rw : RegRw) (addr : ℕ) (r : Req) : (rw.clock (selects addr r) r.wr r.data).data
    = if writes addr r then r.data else rw.data := by
  rw [writes_eq]
  cases selects addr r <;> cases r.wr <;> rfl

theorem edge_msi (d : Dev) (r : Req) : (d.edge r).msi.msiEn = writes 0x20 r := by
  show (d.msi.clock (writes 0x20 r) r.data).msiEn = _
  cases writes 0x20 r <;> rfl

/-! ### The request of an access -/

/-- Without a request no register is selected. -/
theorem selects_idle (addr : ℕ) {r : Req} (h : r.en = false) : selects addr r = false := by
  rw [selects, rwEn, h]
  exact Bool.and_false _

theorem selects_none (addr : ℕ) (data : BitVec 64) : selects addr (Req.none data) = false :=
  selects_idle addr rfl

theorem selects_ofAccess (addr : ℕ) {a : AccessView} (h : HostAccess a) (data : BitVec 64) :
    selects addr (Req.ofAccess a data) = decide (IsFor addr a) := by
  have hbar := h.bar
  have hlow : (a.bar.setWidth 3).toNat = a.bar.toNat := by
    rw [BitVec.toNat_setWidth]
    exact Nat.mod_eq_of_lt (Nat.lt_trans hbar (by decide))
  rw [selects, rwEn, Req.ofAccess]
  show (barAddrCmp addr (a.bar.setWidth 3, a.addr) && true) = _
  rw [Bool.and_true, barAddrCmp, hlow]
  rfl

theorem writes_ofAccess (addr : ℕ) {a : AccessView} (h : HostAccess a) (data : BitVec 64) :
    writes addr (Req.ofAccess a data) = decide (a.isRead = false ∧ IsFor addr a) := by
  rw [writes_eq, selects_ofAccess addr h]
  show (decide (IsFor addr a) && !a.isRead) = _
  cases a.isRead with
  | false => simp
  | true => simp

/-- The write of an access, as the registers see it. -/
theorem data_ofAccess (addr : ℕ) {a : AccessView} (h : HostAccess a) (data v : BitVec 64) :
    (if writes addr (Req.ofAccess a data) then (Req.ofAccess a data).data else v)
      = if a.isRead = false ∧ IsFor addr a then a.data.getD 0 else v := by
  rw [writes_ofAccess addr h]
  by_cases hw : a.isRead = false ∧ IsFor addr a
  · rw [if_pos (decide_eq_true hw), if_pos hw]
    show (if a.isRead then data else a.data.getD 0) = a.data.getD 0
    rw [hw.1]
    rfl
  · rw [if_neg (fun hc => hw (of_decide_eq_true hc)), if_neg hw]

/-- The read of an access. -/
theorem reqReply_ofAccess {a : AccessView} (h : HostAccess a) (data : BitVec 64) {d : Dev}
    {as : List AccessView} (hrw0 : d.rw0.data = lastWritten 0x10 as)
    (hrw1 : d.rw1.data = lastWritten 0x18 as) :
    reqReply d (Req.ofAccess a data) = replyTo as a := by
  rw [reqReply, selects_ofAccess 0x10 h, selects_ofAccess 0x18 h, hrw0, hrw1, replyTo]
  show (if decide (IsFor 0x10 a) = true ∧ (!a.isRead) = false then _ else
    if decide (IsFor 0x18 a) = true ∧ (!a.isRead) = false then _ else _) = _
  cases a.isRead with
  | false => simp
  | true => simp

section Clock

variable {s : System} {arrivals : List AccessView}

/-- **What an edge puts on the request ports** is the access it pops. -/
theorem clock_some {a : AccessView} (h : HostAccess a) (hpop : s.popped arrivals = some a) :
    (s.clock arrivals).req = Req.ofAccess a s.req.data ∧
      s.fifo ++ arrivals = a :: (s.clock arrivals).fifo := by
  have hfree := Endpoint.clock_free (e := s.ep) (fun _ => rfl) s.req.data (s.fifo ++ arrivals)
  cases hfifo : s.fifo ++ arrivals with
  | nil =>
    rw [System.popped, hfifo] at hpop
    cases hpop
  | cons b fifo =>
    rw [System.popped, hfifo, List.head?_cons, Option.some.injEq] at hpop
    subst hpop
    rw [hfifo] at hfree
    have hreq := congrArg (fun r => r.2.1) hfree
    have hrest := congrArg (fun r => r.2.2) hfree
    refine ⟨?_, ?_⟩
    · show (s.ep.clock true s.req.data (s.fifo ++ arrivals)).2.1 = _
      rw [hfifo]
      exact hreq.trans (if_neg h.size)
    · show b :: fifo = b :: (s.ep.clock true s.req.data (s.fifo ++ arrivals)).2.2
      rw [hfifo]
      exact congrArg (List.cons b) hrest.symm

theorem clock_none (hpop : s.popped arrivals = none) :
    (s.clock arrivals).req = Req.none s.req.data ∧ (s.clock arrivals).fifo = [] := by
  have hnil : s.fifo ++ arrivals = [] := List.head?_eq_none_iff.mp hpop
  have hfree := Endpoint.clock_free (e := s.ep) (fun _ => rfl) s.req.data (s.fifo ++ arrivals)
  rw [hnil] at hfree
  refine ⟨?_, ?_⟩
  · show (s.ep.clock true s.req.data (s.fifo ++ arrivals)).2.1 = _
    rw [hnil]
    exact congrArg (fun r => r.2.1) hfree
  · show (s.ep.clock true s.req.data (s.fifo ++ arrivals)).2.2 = _
    rw [hnil]
    exact congrArg (fun r => r.2.2) hfree

end Clock

/-! ### Nothing is lost -/

/-- **What has been sent and what the stages hold is what was expected.** -/
structure Conserved (cs : List GlueCall) (as : List AccessView) (s : System) : Prop where
  one : OneReply s.dev
  rw0 : (if writes 0x10 s.req then s.req.data else s.dev.rw0.data) = lastWritten 0x10 as
  rw1 : (if writes 0x18 s.req then s.req.data else s.dev.rw1.data) = lastWritten 0x18 as
  replies : replies cs ++ s.dev.mux.reply ++ (s.dev.rw0.reply ++ s.dev.rw1.reply) ++
    reqReply s.dev s.req = expectedReplies [] as
  msis : msis cs + (if s.dev.msi.msiEn then 1 else 0) + (if writes 0x20 s.req then 1 else 0)
    = msiWrites as
  fifo : ∀ a ∈ s.fifo, HostAccess a

theorem reset_conserved : Conserved [] [] System.reset := by
  refine ⟨Or.inl rfl, rfl, rfl, rfl, rfl, ?_⟩
  intro a ha
  exact absurd ha List.not_mem_nil

/-- **Step lemma.** -/
theorem Conserved.clock {cs : List GlueCall} {as arrivals : List AccessView} {s : System}
    (h : Conserved cs as s) (harr : ∀ a ∈ arrivals, HostAccess a) :
    Conserved (cs ++ s.calls) (as ++ (s.popped arrivals).toList) (s.clock arrivals) := by
  have hfifo : ∀ a ∈ s.fifo ++ arrivals, HostAccess a := by
    intro a ha
    rcases List.mem_append.mp ha with ha | ha
    · exact h.fifo a ha
    · exact harr a ha
  have hdev : (s.clock arrivals).dev = s.dev.edge s.req := rfl
  -- the stages move up
  have hmoved : Sbone.replies (cs ++ s.calls) ++ (s.clock arrivals).dev.mux.reply ++
      ((s.clock arrivals).dev.rw0.reply ++ (s.clock arrivals).dev.rw1.reply)
        = expectedReplies [] as := by
    rw [hdev, replies_append, calls_replies, edge_mux h.one, edge_reply, ← h.replies]
  have hcount : Sbone.msis (cs ++ s.calls) + (if (s.clock arrivals).dev.msi.msiEn then 1 else 0)
      = msiWrites as := by
    rw [hdev, edge_msi, ← h.msis, Sbone.msis, List.count_append]
    exact congrArg (fun k => _ + k + _) (calls_msis s)
  have hrw0 : (s.clock arrivals).dev.rw0.data = lastWritten 0x10 as :=
    (clock_data s.dev.rw0 0x10 s.req).trans h.rw0
  have hrw1 : (s.clock arrivals).dev.rw1.data = lastWritten 0x18 as :=
    (clock_data s.dev.rw1 0x18 s.req).trans h.rw1
  cases hpop : s.popped arrivals with
  | none =>
    obtain ⟨hreq, hrest⟩ := clock_none hpop
    have hno : ∀ addr, writes addr (Req.none s.req.data) = false := by
      intro addr
      rw [writes_eq, selects_none, Bool.false_and]
    rw [Option.toList_none, List.append_nil]
    refine ⟨edge_oneReply _ _, ?_, ?_, ?_, ?_, ?_⟩
    · rw [hreq, hno]
      exact hrw0
    · rw [hreq, hno]
      exact hrw1
    · rw [hmoved, hreq, reqReply, selects_none, selects_none, if_neg (fun hc => by cases hc.1),
        if_neg (fun hc => by cases hc.1), List.append_nil]
    · rw [hcount, hreq, hno]
      rfl
    · rw [hrest]
      intro a ha
      exact absurd ha List.not_mem_nil
  | some a =>
    have ha : HostAccess a := hfifo a (List.mem_of_mem_head? hpop)
    obtain ⟨hreq, hrest⟩ := clock_some ha hpop
    rw [Option.toList_some]
    refine ⟨edge_oneReply _ _, ?_, ?_, ?_, ?_, ?_⟩
    · rw [hreq, data_ofAccess 0x10 ha, hrw0, lastWritten_snoc]
    · rw [hreq, data_ofAccess 0x18 ha, hrw1, lastWritten_snoc]
    · rw [hmoved, hreq, reqReply_ofAccess ha _ hrw0 hrw1, expectedReplies_snoc, List.nil_append]
    · rw [hcount, hreq, writes_ofAccess 0x20 ha, msiWrites_snoc]
    · intro b hb
      exact hfifo b (hrest ▸ List.mem_cons_of_mem a hb)

section Run

variable {arr : ℕ → List AccessView}

theorem conserved_after (harr : ∀ k, ∀ a ∈ arr k, HostAccess a) (n : ℕ) :
    Conserved (callsBefore arr n) (poppedBefore arr n) (System.after arr n) := by
  induction n with
  | zero => exact reset_conserved
  | succ n ih => exact ih.clock (harr n)

theorem callsBefore_replies (n : ℕ) : replies (callsBefore arr (n + 1))
    = replies (callsBefore arr n) ++ (System.after arr n).dev.mux.reply := by
  rw [callsBefore, replies_append, calls_replies]

theorem callsBefore_msis (n : ℕ) : msis (callsBefore arr (n + 1))
    = msis (callsBefore arr n) + if (System.after arr n).dev.msi.msiEn then 1 else 0 := by
  rw [callsBefore, msis, List.count_append]
  exact congrArg (msis (callsBefore arr n) + ·) (calls_msis _)

/-- **sbone is a register file**: the replies to the accesses popped before edge `n`, each read of
0x10 or 0x18 with the last value written to it, have been sent three edges later, and no others; so
has been a MSI for each write of 0x20, two edges later. -/
theorem registers_consistent (harr : ∀ k, ∀ a ∈ arr k, HostAccess a) (n : ℕ) :
    replies (callsBefore arr (n + 3)) = expectedReplies [] (poppedBefore arr n) ∧
      msis (callsBefore arr (n + 2)) = msiWrites (poppedBefore arr n) := by
  have h := conserved_after harr n
  have h1 := conserved_after harr (n + 1)
  have hdev : (System.after arr (n + 1)).dev
      = (System.after arr n).dev.edge (System.after arr n).req := rfl
  have hdev' : (System.after arr (n + 2)).dev
      = (System.after arr (n + 1)).dev.edge (System.after arr (n + 1)).req := rfl
  refine ⟨?_, ?_⟩
  · rw [callsBefore_replies, callsBefore_replies, callsBefore_replies, hdev', edge_mux h1.one, hdev,
      edge_mux h.one, edge_reply, ← h.replies]
  · rw [callsBefore_msis, callsBefore_msis, hdev, edge_msi, ← h.msis]

end Run

/-- A write and a read of the register at 0x10, popped back to back. -/
def writeThenRead (k : ℕ) : List AccessView :=
  if k = 0 then [⟨false, 1, 0x10, 4, some 0x2a⟩, ⟨true, 1, 0x10, 4, none⟩] else []

theorem registers_consistent_writeThenRead : replies (callsBefore writeThenRead 5) = [0x2a] := by
  have harr : ∀ k, ∀ a ∈ writeThenRead k, HostAccess a := by
    intro k a ha
    rw [writeThenRead] at ha
    split at ha
    · rcases List.mem_cons.mp ha with rfl | ha
      · exact ⟨by decide, by decide⟩
      · rw [List.mem_singleton.mp ha]
        exact ⟨by decide, by decide⟩
    · exact absurd ha List.not_mem_nil
  rw [(registers_consistent harr 2).1]
  decide

end VPcie.Sbone
