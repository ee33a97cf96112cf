import VPcie.Device.OnMsgRecv
import VPcie.Net.RecvBounds
import VPcie.Lib.Greedy

/-!
# Which messages the device accepts

`pcie_net_loop` dispatches every frame whose header is at most `PCIE_NET_MSG_MAX_SIZE` and whose
body comes; for a header of 1 or 2 the end of the connection may pass for it.  It does not ask
whether the frame has room for the fields, nor what the width is.  After an error `thread_entry`
enters the loop again, which reads a header where the last one ended.

* `WellFormed`, `wellFormedPrefix` — the frames of the grammar, and those a stream starts with;
* `dispatches_frames`, `dispatched_iff` — these are dispatched, and what follows them is not
  exactly when it is `Quiet`;
* `ownBytes_iff` — which well-formed frames are answered from their own bytes;
* `acceptsGrammar_iff` — the streams on which the device keeps to the grammar.
-/

namespace VPcie.Device

open VPcie.Lib VPcie.Net

/-! ### The grammar -/

/-- A frame as the memory it is received into. -/
def frameMem (f : List Byte) : Mem := fun j => f.getD j 0

/-- The structure overlaid on a frame. -/
def frameMsg (f : List Byte) : PcieNetMsg := PcieNetMsg.ofBuf (frameMem f)

/-- The operations that carry data to the device. -/
def IsWrite (op : Byte) : Prop := op = opWriteConfig ∨ op = opWriteMem ∨ op = opWriteIo

instance (op : Byte) : Decidable (IsWrite op) := inferInstanceAs (Decidable (_ ∨ _ ∨ _))

/-- A frame of the grammar: its header is its length, between the offset of the data and the
maximum, the width is one of an access, and a write carries that many bytes. -/
def WellFormed (f : List Byte) : Prop :=
  leNat (f.take headerSize) = f.length ∧ dataOffset ≤ f.length ∧ f.length ≤ msgMaxSize ∧
    (frameMsg f).width.toNat ∈ [1, 2, 4, 8] ∧
    (IsWrite (frameMsg f).op → (frameMsg f).width.toNat ≤ f.length - dataOffset)

instance (f : List Byte) : Decidable (WellFormed f) :=
  inferInstanceAs (Decidable (_ ∧ _ ∧ _ ∧ _ ∧ (_ → _)))

/-- The well-formed frame at the front of a stream. -/
def splitFrame (s : List Byte) : Option (List Byte × List Byte) :=
  let h := leNat (s.take headerSize)
  if WellFormed (s.take h) then some (s.take h, s.drop h) else none

/-- The longest sequence of well-formed frames a stream starts with, and the rest. -/
def wellFormedPrefix (s : List Byte) : List (List Byte) × List Byte := greedy splitFrame s.length s

theorem WellFormed.length_pos {f : List Byte} (h : WellFormed f) : 0 < f.length := by
  have hdata := h.2.1
  rw [dataOffset] at hdata
  omega

theorem splits_frame : Splits WellFormed splitFrame where
  sound := by
    intro s f r hsplit
    rw [splitFrame] at hsplit
    split at hsplit
    · rename_i hwf
      obtain ⟨rfl, rfl⟩ := Prod.mk.inj (Option.some.inj hsplit)
      exact ⟨hwf, (List.take_append_drop _ s).symm⟩
    · cases hsplit
  complete := by
    intro f hf r
    have hlen : headerSize ≤ f.length := le_trans (by decide) hf.2.1
    have hhdr : leNat ((f ++ r).take headerSize) = f.length := by
      rw [List.take_append_of_le_length hlen, hf.1]
    rw [splitFrame]
    simp only [hhdr, List.take_left, List.drop_left, if_pos hf]
  nonempty := by
    intro f hf
    exact List.length_pos_iff.mp hf.length_pos

/-- It is the longest: any other sequence of well-formed frames at the front is a part of it. -/
theorem wellFormedPrefix_longest {s r : List Byte} {gs : List (List Byte)}
    (hgs : ∀ g ∈ gs, WellFormed g) (heq : s = gs.flatten ++ r) : gs <+: (wellFormedPrefix s).1 :=
  greedy_longest splits_frame s.length s (le_refl _) hgs heq

/-! ### The loop of the device -/

/-- What may happen around a call of `pcie_net_recv_msg`: before it a `send` reports the error of
the connection; after it the loop ends for another reason and is entered again, and `malloc` then
returns this. -/
structure Turn where
  reported : Bool
  again : Bool
  fresh : Mem

/-- What the call finds behind the bytes. -/
def Turn.peer (t : Turn) (p : Peer) : Peer := if t.reported then p.reported else p

/-- The first `n` calls of `pcie_net_recv_msg`: the size and the buffer of each call of
`on_msg_recv`.  A frame of size 0 counts as none. -/
def dispatches : ℕ → (ℕ → Turn) → Rx → Mem → List (ℕ × Mem)
  | 0, _, _, _ => []
  | n + 1, turns, s, buf =>
    match pcieNetRecvMsg ⟨s.bytes, (turns 0).peer s.peer⟩ buf with
    | .wait => []
    | .error rest => dispatches n (fun k => turns (k + 1)) rest (turns 0).fresh
    | .ok size buf rest =>
      let more := dispatches n (fun k => turns (k + 1)) rest
        (if (turns 0).again then (turns 0).fresh else buf)
      if size = 0 then more else (size, buf) :: more

/-- The bytes of a frame in the buffer. -/
def frameBytes (p : ℕ × Mem) : List Byte :=
  leBytes headerSize p.1 ++ load p.2 headerSize (p.1 - headerSize)

/-- What the device does with a message: it is done, or replies, or enters a handler with these
arguments. -/
inductive Reaction (κ : Type) where
  | done (dev : PcieDev κ)
  | reply (dev : PcieDev κ) (r : PcieNetReply)
  | barRead (fn : κ) (addr : BitVec 64) (width : Byte)
  | barWrite (fn : κ) (addr : BitVec 64) (data : List Byte)

def reaction {κ : Type} (dev : PcieDev κ) (msg : PcieNetMsg) : Reaction κ :=
  match onMsgRecv dev msg with
  | .done dev => .done dev
  | .reply dev r => .reply dev r
  | .barRead fn => .barRead fn msg.addr msg.width
  | .barWrite fn => .barWrite fn msg.addr (load msg.data 0 msg.width.toNat)

/-- The frame is answered from its own bytes: not from what the buffer held behind them. -/
def OwnBytes (f : List Byte) : Prop :=
  ∀ (dev : PcieDev (Fin barCount)) (buf buf' : Mem),
    reaction dev (PcieNetMsg.ofBuf (store buf headerSize (f.drop headerSize)))
      = reaction dev (PcieNetMsg.ofBuf (store buf' headerSize (f.drop headerSize)))

/-- The device keeps to the grammar on a stream: however its loop is entered again, it dispatches
the well-formed frames at the front and no others, and answers each from its own bytes. -/
structure AcceptsGrammar (s : Rx) : Prop where
  dispatched : ∀ (turns : ℕ → Turn) (buf : Mem) (n : ℕ), s.bytes.length ≤ n →
    (dispatches n turns s buf).map frameBytes = (wellFormedPrefix s.bytes).1
  ownBytes : ∀ f ∈ (wellFormedPrefix s.bytes).1, OwnBytes f

/-! ### Receiving from any stream -/

/-- A receive that goes no further: it blocks, or fails with nothing left to read. -/
def Stuck (r : Recv) : Prop := r = .wait ∨ ∃ rest, r = .error rest ∧ rest.bytes = []

section Receive

variable (a b : Byte) (rest : List Byte) (peer : Peer) (buf : Mem)

theorem recvMsg_header : pcieNetRecvMsg ⟨a :: b :: rest, peer⟩ buf
    = recvBody ⟨rest, peer⟩ buf msgMaxSize (leNat [a, b]) :=
  pcieNetRecvBuf_header (s := ⟨a :: b :: rest, peer⟩) (by decide)
    (Nat.le_add_left 2 rest.length) buf

/-- A header past the maximum is an error; only it has been read. -/
theorem recvMsg_long (h : msgMaxSize < leNat [a, b]) :
    pcieNetRecvMsg ⟨a :: b :: rest, peer⟩ buf = .error ⟨rest, peer⟩ := by
  rw [recvMsg_header, recvBody, if_pos h]

/-- Any other is accepted if the body comes. -/
theorem recvMsg_ok (h : leNat [a, b] ≤ msgMaxSize)
    (hrest : Rx.Comes ⟨rest, peer⟩ (remSize (leNat [a, b]))) :
    pcieNetRecvMsg ⟨a :: b :: rest, peer⟩ buf
      = .ok (leNat [a, b]) (store buf headerSize (rest.take (remSize (leNat [a, b]))))
          (Rx.after ⟨rest, peer⟩ (remSize (leNat [a, b]))) := by
  rw [recvMsg_header]
  exact recvBody_comes buf h hrest

theorem recvMsg_incomplete (h : leNat [a, b] ≤ msgMaxSize)
    (hrest : ¬ Rx.Comes ⟨rest, peer⟩ (remSize (leNat [a, b]))) :
    Stuck (pcieNetRecvMsg ⟨a :: b :: rest, peer⟩ buf) := by
  rw [recvMsg_header]
  exact (recvBody_not_comes buf h hrest).imp_left And.left

end Receive

theorem recvMsg_short {s : List Byte} (h : s.length < headerSize) (peer : Peer) (buf : Mem) :
    Stuck (pcieNetRecvMsg ⟨s, peer⟩ buf) :=
  pcieNetRecvBuf_noHeader (s := ⟨s, peer⟩) (by decide) h buf

/-- A well-formed frame is accepted. -/
theorem recvMsg_frame {f : List Byte} (hf : WellFormed f) (cs : List Byte) (peer : Peer)
    (buf : Mem) : pcieNetRecvMsg ⟨f ++ cs, peer⟩ buf
      = .ok f.length (store buf headerSize (f.drop headerSize)) ⟨cs, peer⟩ := by
  obtain ⟨hhdr, hdata, hmax, -⟩ := hf
  have hlen : headerSize ≤ f.length := le_trans (by decide) hdata
  have hsum : (f.drop headerSize).length + headerSize = f.length := by
    rw [List.length_drop]
    omega
  have hsplit : f = leBytes 2 f.length ++ f.drop headerSize := by
    have hround := leBytes_leNat (f.take headerSize)
    rw [List.length_take, Nat.min_eq_left hlen, hhdr] at hround
    rw [show 2 = headerSize from rfl, hround, List.take_append_drop]
  have hbody : f.drop headerSize ≠ [] := by
    rw [ne_eq, List.drop_eq_nil_iff, Nat.not_le]
    exact lt_of_lt_of_le (by decide) hdata
  have hrecv := pcieNetRecvMsg_frame hbody cs peer buf (by rw [hsum]; exact hmax)
  rw [hsum, ← hsplit] at hrecv
  exact hrecv

theorem frameBytes_frame {f : List Byte} (hf : WellFormed f) (buf : Mem) :
    frameBytes (f.length, store buf headerSize (f.drop headerSize)) = f := by
  obtain ⟨hhdr, hdata, -⟩ := hf
  have hlen : headerSize ≤ f.length := le_trans (by decide) hdata
  have hround := leBytes_leNat (f.take headerSize)
  rw [List.length_take, Nat.min_eq_left hlen, hhdr] at hround
  have hload := load_store_self buf headerSize (f.drop headerSize)
  rw [List.length_drop] at hload
  show leBytes headerSize f.length ++ load _ headerSize (f.length - headerSize) = f
  rw [hround, hload, List.take_append_drop]

/-! ### What is dispatched -/

section Dispatches

variable {turns : ℕ → Turn} {s rest : Rx} {buf buf' : Mem} {n : ℕ}

theorem dispatches_error (h : pcieNetRecvMsg ⟨s.bytes, (turns 0).peer s.peer⟩ buf = .error rest) :
    dispatches (n + 1) turns s buf
      = dispatches n (fun k => turns (k + 1)) rest (turns 0).fresh := by
  rw [dispatches, h]

theorem dispatches_ok {size : ℕ}
    (h : pcieNetRecvMsg ⟨s.bytes, (turns 0).peer s.peer⟩ buf = .ok size buf' rest)
    (hsize : size ≠ 0) : dispatches (n + 1) turns s buf
      = (size, buf') :: dispatches n (fun k => turns (k + 1)) rest
        (if (turns 0).again then (turns 0).fresh else buf') := by
  rw [dispatches, h]
  exact if_neg hsize

/-- At the end of the stream the loop only fails. -/
theorem dispatches_ended (h : s.bytes = []) : dispatches n turns s buf = [] := by
  induction n generalizing turns s buf with
  | zero => rfl
  | succ n ih =>
    have hshort : s.bytes.length < headerSize := by
      rw [h]
      decide
    rcases recvMsg_short hshort ((turns 0).peer s.peer) buf with hwait | ⟨rest, herror, hnil⟩
    · rw [dispatches, hwait]
    · rw [dispatches_error herror]
      exact ih hnil

theorem dispatches_stuck (h : Stuck (pcieNetRecvMsg ⟨s.bytes, (turns 0).peer s.peer⟩ buf)) :
    dispatches n turns s buf = [] := by
  cases n with
  | zero => rfl
  | succ n =>
    rcases h with hwait | ⟨rest, herror, hnil⟩
    · rw [dispatches, hwait]
    · rw [dispatches_error herror]
      exact dispatches_ended hnil

/-- What may be behind the bytes after some calls: what was there first, or what the report of an
error leaves. -/
def Later (p q : Peer) : Prop := q = p ∨ q = p.reported

theorem Later.turn {p q : Peer} (h : Later p q) (t : Turn) : Later p (t.peer q) := by
  rw [Turn.peer]
  split_ifs
  · rcases h with rfl | rfl
    · exact Or.inr rfl
    · exact Or.inr p.reported_reported
  · exact h

theorem Turn.peer_silent {t : Turn} (h : t.reported = false) (p : Peer) : t.peer p = p := by
  rw [Turn.peer, h]
  exact if_neg Bool.false_ne_true

theorem Turn.peer_reported {t : Turn} {p q : Peer} (h : t.reported = true) (hq : Later p q) :
    t.peer q = p.reported := by
  rw [Turn.peer, if_pos h]
  rcases hq with rfl | rfl
  · rfl
  · exact p.reported_reported

/-- **The well-formed frames at the front are dispatched**, one after the other. -/
theorem dispatches_frames {fs : List (List Byte)} (hfs : ∀ f ∈ fs, WellFormed f) (r : List Byte)
    (p q : Peer) (hq : Later p q) (n : ℕ) (turns : ℕ → Turn) (buf : Mem) :
    ∃ q' buf', Later p q' ∧ ((∀ k, (turns k).reported = false) → q' = q) ∧
      (dispatches (fs.length + n) turns ⟨fs.flatten ++ r, q⟩ buf).map frameBytes
        = fs ++ (dispatches n (fun k => turns (k + fs.length)) ⟨r, q'⟩ buf').map frameBytes := by
  induction fs generalizing q turns buf with
  | nil => exact ⟨q, buf, hq, fun _ => rfl, by rw [List.length_nil, Nat.zero_add]; rfl⟩
  | cons f fs ih =>
    have hf := hfs f List.mem_cons_self
    obtain ⟨q', buf', hq', hsilent, hrest⟩ := ih (fun g hg => hfs g (List.mem_cons_of_mem f hg))
      ((turns 0).peer q) (hq.turn (turns 0)) (fun k => turns (k + 1))
      (if (turns 0).again then (turns 0).fresh else store buf headerSize (f.drop headerSize))
    refine ⟨q', buf', hq', ?_, ?_⟩
    · intro hall
      rw [hsilent fun k => hall (k + 1), Turn.peer_silent (hall 0)]
    · have hrecv := recvMsg_frame hf (fs.flatten ++ r) ((turns 0).peer q) buf
      rw [← List.append_assoc, ← List.flatten_cons] at hrecv
      rw [List.length_cons, Nat.add_right_comm, dispatches_ok (s := ⟨(f :: fs).flatten ++ r, q⟩)
        hrecv (Nat.ne_of_gt hf.length_pos), List.map_cons, frameBytes_frame hf, hrest]
      rfl

/-- After which the loop dispatches nothing: headers past the maximum, each skipped by itself, then
a frame whose body does not come, before or after an error has been reported.  (A header of zero,
with the `2 ^ 64 - 2` bytes it asks for, counts as none.) -/
inductive Quiet (p : Peer) : List Byte → Prop where
  | short (s : List Byte) (h : s.length < headerSize) : Quiet p s
  | long (a b : Byte) (s : List Byte) (h : msgMaxSize < leNat [a, b]) (hs : Quiet p s) :
    Quiet p (a :: b :: s)
  | incomplete (a b : Byte) (s : List Byte) (h : leNat [a, b] ≤ msgMaxSize)
    (hs : ∀ q, q = p ∨ q = p.reported → ¬ Rx.Comes ⟨s, q⟩ (remSize (leNat [a, b]))) :
    Quiet p (a :: b :: s)
  | empty (a b : Byte) (s : List Byte) (h : leNat [a, b] = 0)
    (hs : remSize (leNat [a, b]) ≤ s.length) (hq : Quiet p (s.drop (remSize (leNat [a, b])))) :
    Quiet p (a :: b :: s)

/-- The body of a frame of size 0 is most of the address space. -/
theorem comes_zero {s : Rx} (h : s.Comes (remSize 0)) :
    remSize 0 ≤ s.bytes.length ∧ s.after (remSize 0) = ⟨s.bytes.drop (remSize 0), s.peer⟩ := by
  rcases h with h | ⟨-, ⟨h, -⟩ | ⟨h, -⟩⟩
  · exact ⟨h, if_pos h⟩
  · exact absurd h (by decide)
  · exact absurd h (by decide)

/-- It is not dispatched. -/
theorem dispatches_empty {a b : Byte} {s : List Byte} {q : Peer} (hzero : leNat [a, b] = 0)
    (hs : remSize (leNat [a, b]) ≤ s.length) : dispatches (n + 1) turns ⟨a :: b :: s, q⟩ buf
      = dispatches n (fun k => turns (k + 1)) ⟨s.drop (remSize (leNat [a, b])), (turns 0).peer q⟩
        (if (turns 0).again then (turns 0).fresh
          else store buf headerSize (s.take (remSize (leNat [a, b])))) := by
  have hcomes : Rx.Comes ⟨s, (turns 0).peer q⟩ (remSize (leNat [a, b])) := by
    rw [hzero] at hs ⊢
    exact Or.inl hs
  have hrecv := recvMsg_ok a b s _ buf (by rw [hzero]; exact Nat.zero_le _) hcomes
  generalize leNat [a, b] = size at *
  subst hzero
  rw [(comes_zero hcomes).2] at hrecv
  rw [dispatches, hrecv]
  exact if_pos rfl

theorem dispatches_quiet {p q : Peer} {r : List Byte} (h : Quiet p r) (hq : Later p q) (n : ℕ)
    (turns : ℕ → Turn) (buf : Mem) : dispatches n turns ⟨r, q⟩ buf = [] := by
  induction h generalizing n turns q buf with
  | short s h => exact dispatches_stuck (recvMsg_short h _ buf)
  | long a b s h hs ih =>
    cases n with
    | zero => rfl
    | succ n =>
      rw [dispatches_error (recvMsg_long a b s _ buf h)]
      exact ih (hq.turn _) _ _ _
  | incomplete a b s h hs =>
    exact dispatches_stuck (recvMsg_incomplete a b s _ buf h (hs _ (hq.turn _)))
  | empty a b s h hs hquiet ih =>
    cases n with
    | zero => rfl
    | succ n =>
      rw [dispatches_empty h hs]
      exact ih (hq.turn _) _ _ _

/-- What is not quiet is dispatched in part, if the error is reported at once or never. -/
theorem dispatches_not_quiet (n : ℕ) {r : List Byte} {p : Peer} (h : ¬ Quiet p r)
    (hn : r.length ≤ n) : ∃ reported, ∀ (turns : ℕ → Turn) (q : Peer) (buf : Mem),
      (∀ k, (turns k).reported = reported) → Later p q → (reported = false → q = p) →
      dispatches n turns ⟨r, q⟩ buf ≠ [] := by
  induction n using Nat.strong_induction_on generalizing r with
  | _ n ih =>
    match r, n, h, hn with
    | [], _, h, _ => exact absurd (Quiet.short [] (by decide)) h
    | [a], _, h, _ => exact absurd (Quiet.short [a] (Nat.lt_succ_self 1)) h
    | a :: b :: s, 0, _, hn => exact absurd hn (Nat.not_succ_le_zero _)
    | a :: b :: s, n + 1, h, hn =>
      have hlen : s.length ≤ n := by
        rw [List.length_cons, List.length_cons] at hn
        omega
      by_cases hlong : msgMaxSize < leNat [a, b]
      · obtain ⟨reported, hrest⟩ := ih n (Nat.lt_succ_self n) (fun hq => h (.long a b s hlong hq))
          hlen
        refine ⟨reported, fun turns q buf hturns hq hsilent => ?_⟩
        rw [dispatches_error (recvMsg_long a b s _ buf hlong)]
        refine hrest _ _ _ (fun k => hturns (k + 1)) (hq.turn _) fun hrep => ?_
        rw [Turn.peer_silent ((hturns 0).trans hrep)]
        exact hsilent hrep
      · have hle := Nat.not_lt.mp hlong
        by_cases hzero : leNat [a, b] = 0
        · have hrest : remSize (leNat [a, b]) ≤ s.length := by
            by_contra hshort
            refine h (.incomplete a b s hle fun q _ hbody => hshort ?_)
            rw [hzero] at hbody ⊢
            exact (comes_zero hbody).1
          have hlen' : (s.drop (remSize (leNat [a, b]))).length ≤ n := by
            rw [List.length_drop]
            omega
          obtain ⟨reported, hafter⟩ := ih n (Nat.lt_succ_self n)
            (fun hq => h (.empty a b s hzero hrest hq)) hlen'
          refine ⟨reported, fun turns q buf hturns hq hsilent => ?_⟩
          rw [dispatches_empty hzero hrest]
          refine hafter _ _ _ (fun k => hturns (k + 1)) (hq.turn _) fun hrep => ?_
          rw [Turn.peer_silent ((hturns 0).trans hrep)]
          exact hsilent hrep
        · -- the body comes before the report, or behind it
          have hcomes : ∃ q, Later p q ∧ Rx.Comes ⟨s, q⟩ (remSize (leNat [a, b])) := by
            by_contra hnone
            exact h (.incomplete a b s hle fun q hq hq' => hnone ⟨q, hq, hq'⟩)
          have hdisp : ∀ (turns : ℕ → Turn) (q : Peer) (buf : Mem),
              Rx.Comes ⟨s, (turns 0).peer q⟩ (remSize (leNat [a, b])) →
              dispatches (n + 1) turns ⟨a :: b :: s, q⟩ buf ≠ [] := by
            intro turns q buf hbody
            rw [dispatches_ok (recvMsg_ok a b s _ buf hle hbody) hzero]
            exact List.cons_ne_nil _ _
          obtain ⟨q₀, rfl | rfl, hbody⟩ := hcomes
          · refine ⟨false, fun turns q buf hturns _ hsilent => hdisp turns q buf ?_⟩
            rw [Turn.peer_silent (hturns 0), hsilent rfl]
            exact hbody
          · refine ⟨true, fun turns q buf hturns hq _ => hdisp turns q buf ?_⟩
            rw [Turn.peer_reported (hturns 0) hq]
            exact hbody

end Dispatches

/-! ### What a reaction reads -/

/-- Two messages with the same fields and the same first `n` bytes of data. -/
structure Alike (m m' : PcieNetMsg) (n : ℕ) : Prop where
  op : m.op = m'.op
  bar : m.bar = m'.bar
  width : m.width = m'.width
  addr : m.addr = m'.addr
  data : ∀ k ≤ n, load m.data 0 k = load m'.data 0 k

/-- The message in the buffer once the frame has been received over `buf`. -/
def received (f : List Byte) (buf : Mem) : PcieNetMsg :=
  PcieNetMsg.ofBuf (store buf headerSize (f.drop headerSize))

section Alike

variable {κ : Type} {m m' : PcieNetMsg} {n : ℕ}

theorem store_frame_apply {f : List Byte} {j : ℕ} (h2 : headerSize ≤ j) (hj : j < f.length)
    (buf : Mem) : store buf headerSize (f.drop headerSize) j = frameMem f j := by
  obtain ⟨i, rfl⟩ := Nat.exists_eq_add_of_le h2
  have hi : i < (f.drop headerSize).length := by
    rw [List.length_drop]
    omega
  rw [store_apply_add _ _ _ _ hi, frameMem, List.getD_eq_getElem _ _ hi,
    List.getD_eq_getElem _ _ hj, List.getElem_drop]

/-- The fields, and the data a frame carries, do not depend on the buffer. -/
theorem received_alike {f : List Byte} (hf : dataOffset ≤ f.length) (buf : Mem) :
    Alike (received f buf) (frameMsg f) (f.length - dataOffset) := by
  have hoff : dataOffset = 15 := rfl
  have hbyte : ∀ j, headerSize ≤ j → j < f.length →
      store buf headerSize (f.drop headerSize) j = frameMem f j :=
    fun j h2 hj => store_frame_apply h2 hj buf
  have hhdr : headerSize = 2 := rfl
  refine ⟨hbyte 2 (by omega) (by omega), hbyte 3 (by omega) (by omega),
    hbyte 4 (by omega) (by omega), ?_, ?_⟩
  · show BitVec.ofNat 64 (leNat (load _ 5 8)) = BitVec.ofNat 64 (leNat (load _ 5 8))
    rw [load_congr]
    intro j hj
    exact hbyte (5 + j) (by omega) (by omega)
  · intro k hk
    apply load_congr
    intro j hj
    exact hbyte (dataOffset + (0 + j)) (by omega) (by omega)

theorem Alike.symm (h : Alike m m' n) : Alike m' m n :=
  ⟨h.op.symm, h.bar.symm, h.width.symm, h.addr.symm, fun k hk => (h.data k hk).symm⟩

theorem Alike.trans {m₂ : PcieNetMsg} (h : Alike m m' n) (h' : Alike m' m₂ n) : Alike m m₂ n :=
  ⟨h.op.trans h'.op, h.bar.trans h'.bar, h.width.trans h'.width, h.addr.trans h'.addr,
    fun k hk => (h.data k hk).trans (h'.data k hk)⟩

theorem Alike.dataWord (h : Alike m m' n) {k : ℕ} (hk : k ≤ n) (w : ℕ) :
    m.dataWord w k = m'.dataWord w k := by
  rw [PcieNetMsg.dataWord, h.data k hk, PcieNetMsg.dataWord]

theorem Alike.defaultWriteConfig (h : Alike m m' n) (hw : m.width.toNat ≤ n) (dev : PcieDev κ) :
    defaultWriteConfig dev m = defaultWriteConfig dev m' := by
  rw [defaultWriteConfig_eq, defaultWriteConfig_eq, ← h.width, ← h.addr, h.data _ hw]

/-- A config write is the same if the word it compares is, or is not all ones in either. -/
theorem Alike.onWriteConfig (h : Alike m m' n) (hw : m.width.toNat ≤ n)
    (hword : pciBaseAddress0 ≤ m.addr ∧ m.addr ≤ pciBaseAddress5 →
      m.dataWord 32 4 = m'.dataWord 32 4 ∨
        m.dataWord 32 4 ≠ BitVec.allOnes 32 ∧ m'.dataWord 32 4 ≠ BitVec.allOnes 32)
    (dev : PcieDev κ) : onWriteConfig dev m = onWriteConfig dev m' := by
  have hdef := h.defaultWriteConfig hw dev
  obtain ⟨op, bar, width, addr, size, data⟩ := m
  obtain ⟨op', bar', width', addr', size', data'⟩ := m'
  obtain rfl : addr = addr' := h.addr
  unfold Device.onWriteConfig
  by_cases hbar : pciBaseAddress0 ≤ addr ∧ addr ≤ pciBaseAddress5
  · rw [dif_pos hbar, dif_pos hbar]
    rcases hword hbar with heq | ⟨hne, hne'⟩
    · simp only [heq, hdef]
    · simp only [if_neg hne, if_neg hne', hdef]
  · rw [dif_neg hbar, dif_neg hbar, hdef]

/-- At an address that is not aligned a config write does nothing at all. -/
theorem onWriteConfig_misaligned {m : PcieNetMsg} (hw : m.width.toNat ∈ [1, 2, 4, 8])
    (h8 : m.width.toNat ≤ 4)
    (hcheck : ¬ pcieCheckConfig m.addr (m.width.setWidth 64) = true) (dev : PcieDev κ) :
    onWriteConfig dev m = dev := by
  rcases onWriteConfig_cases dev m with ⟨-, h⟩ | ⟨-, i, haddr, -, -⟩ | ⟨hstd, -⟩
  · exact h
  · -- the address of a BAR is aligned
    exfalso
    have haddr' : m.addr = BitVec.ofNat 64 (0x10 + 4 * i.val) := by
      apply BitVec.eq_of_toNat_eq
      have hi := i.isLt
      rw [haddr, BitVec.toNat_ofNat, Nat.mod_eq_of_lt (by omega)]
    have hwidth : m.width = 1 ∨ m.width = 2 ∨ m.width = 4 := by
      simp only [List.mem_cons, List.not_mem_nil, or_false] at hw
      rw [← isWidth_toNat, IsWidth]
      omega
    apply hcheck
    rw [haddr']
    clear haddr haddr' hcheck
    rcases hwidth with h | h | h <;> rw [h] <;> revert i <;> decide
  · exact absurd hstd.2.2.2 hcheck

/-- Two messages of a well-formed frame get the same reaction, but for the comparison of a config
write. -/
theorem Alike.reaction (h : Alike m m' n) (hwrite : IsWrite m.op → m.width.toNat ≤ n)
    (hconfig : m.op = opWriteConfig → ∀ dev : PcieDev κ, Device.onWriteConfig dev m
      = Device.onWriteConfig dev m') (dev : PcieDev κ) : reaction dev m = reaction dev m' := by
  have hread : onReadConfig dev m = onReadConfig dev m' := by
    unfold onReadConfig
    rw [h.width, h.addr]
  by_cases h1 : m.op = opWriteConfig
  · have hm : onMsgRecv dev m = .done (Device.onWriteConfig dev m) := by
      rw [onMsgRecv, h1, if_neg (by decide), if_pos rfl]
    have hm' : onMsgRecv dev m' = .done (Device.onWriteConfig dev m') := by
      rw [onMsgRecv, ← h.op, h1, if_neg (by decide), if_pos rfl]
    rw [Device.reaction, hm, Device.reaction, hm', hconfig h1 dev]
  · by_cases h3 : m.op = opWriteMem
    · have hdata := h.data m.width.toNat (hwrite (Or.inr (Or.inl h3)))
      unfold Device.reaction onMsgRecv
      simp only [← h.op, ← h.bar, ← h.addr, ← h.width, hread, if_neg h1, hdata]
    · -- only a memory write hands data to a handler
      have hsame : onMsgRecv dev m = onMsgRecv dev m' := by
        unfold onMsgRecv
        simp only [← h.op, ← h.bar, hread, if_neg h1, if_neg h3]
      have hno : ∀ fn, onMsgRecv dev m ≠ .barWrite fn := by
        intro fn
        unfold onMsgRecv
        rw [if_neg h1, if_neg h3]
        split_ifs
        · exact fun hc => by cases hc
        · split
          · exact fun hc => by cases hc
          · exact fun hc => by cases hc
        · exact fun hc => by cases hc
        · exact fun hc => by cases hc
        · exact fun hc => by cases hc
      rw [Device.reaction, Device.reaction, ← hsame, ← h.addr, ← h.width]
      cases hd : onMsgRecv dev m with
      | barWrite fn => exact absurd hd (hno fn)
      | _ => rfl

end Alike

/-! ### Frames answered from foreign bytes -/

/-- A config write of one or two bytes to a BAR, at an address aligned to its width, that carries
fewer than four bytes, all `0xff`: whether it probes the size depends on the bytes behind them. -/
def ReadsPast (f : List Byte) : Prop :=
  (frameMsg f).op = opWriteConfig ∧
    (pciBaseAddress0 ≤ (frameMsg f).addr ∧ (frameMsg f).addr ≤ pciBaseAddress5) ∧
    f.length - dataOffset < 4 ∧ (∀ b ∈ f.drop dataOffset, b = 0xff) ∧
    pcieCheckConfig (frameMsg f).addr ((frameMsg f).width.setWidth 64) = true

instance (f : List Byte) : Decidable (ReadsPast f) :=
  inferInstanceAs (Decidable (_ ∧ (_ ∧ _) ∧ _ ∧ (∀ b ∈ f.drop dataOffset, b = 0xff) ∧ _))

section OwnBytes

variable {f : List Byte}

/-- The word is all ones where its bytes are. -/
theorem dataWord_ones {m : PcieNetMsg} :
    m.dataWord 32 4 = BitVec.allOnes 32 ↔ ∀ j < 4, m.data j = 0xff := by
  have hload : (∀ j < 4, m.data j = 0xff) ↔ load m.data 0 4 = [0xff, 0xff, 0xff, 0xff] := by
    constructor
    · intro h
      show [m.data (0 + 0), m.data (0 + 1), m.data (0 + 2), m.data (0 + 3)] = _
      rw [h (0 + 0) (by decide), h (0 + 1) (by decide), h (0 + 2) (by decide),
        h (0 + 3) (by decide)]
    · intro h j hj
      have hget := load_getD m.data 0 4 j hj
      rw [h, Nat.zero_add] at hget
      rw [← hget]
      match j, hj with
      | 0, _ => rfl
      | 1, _ => rfl
      | 2, _ => rfl
      | 3, _ => rfl
  rw [hload]
  constructor
  · intro h
    have hbytes := dataWord_bytes m 4
    rw [show (8 * 4) = 32 from rfl, h] at hbytes
    exact hbytes.symm
  · intro h
    rw [PcieNetMsg.dataWord, h]
    rfl

/-- A byte of the data, inside the frame and behind it. -/
theorem received_data (f : List Byte) (hf : dataOffset ≤ f.length) (buf : Mem) (j : ℕ) :
    (received f buf).data j
      = if j < f.length - dataOffset then (f.drop dataOffset).getD j 0
        else buf (dataOffset + j) := by
  show store buf headerSize (f.drop headerSize) (dataOffset + j) = _
  have hoff : dataOffset = 15 := rfl
  have hhdr : headerSize = 2 := rfl
  by_cases hj : j < f.length - dataOffset
  · have hlen : j < (f.drop dataOffset).length := by
      rw [List.length_drop]
      exact hj
    have hlt : dataOffset + j < f.length := by omega
    rw [if_pos hj, store_frame_apply (by omega) hlt, frameMem, List.getD_eq_getElem _ _ hlt,
      List.getD_eq_getElem _ _ hlen, List.getElem_drop]
  · rw [if_neg hj, store_apply_of_ge]
    rw [List.length_drop]
    omega

theorem WellFormed.alike (hf : WellFormed f) (buf buf' : Mem) :
    Alike (received f buf) (received f buf') (f.length - dataOffset) :=
  (received_alike hf.2.1 buf).trans (received_alike hf.2.1 buf').symm

/-- **A frame of another kind is answered from its own bytes.** -/
theorem ownBytes_of_not (hf : WellFormed f) (h : ¬ ReadsPast f) : OwnBytes f := by
  intro dev buf buf'
  have hframe := received_alike hf.2.1 buf
  have hframe' := received_alike hf.2.1 buf'
  have halike := hf.alike buf buf'
  have hwidth : IsWrite (received f buf).op →
      (received f buf).width.toNat ≤ f.length - dataOffset := by
    rw [hframe.op, hframe.width]
    exact hf.2.2.2.2
  refine halike.reaction hwidth ?_ dev
  intro hop dev
  have hle := hwidth (Or.inl hop)
  by_cases hbar : pciBaseAddress0 ≤ (frameMsg f).addr ∧ (frameMsg f).addr ≤ pciBaseAddress5
  · by_cases hfour : f.length - dataOffset < 4
    · by_cases hcheck :
          pcieCheckConfig (frameMsg f).addr ((frameMsg f).width.setWidth 64) = true
      · -- one of its bytes decides the comparison
        have hbyte : ∃ b ∈ f.drop dataOffset, b ≠ 0xff := by
          by_contra hall
          push Not at hall
          exact h ⟨hframe.op.symm.trans hop, hbar, hfour, hall, hcheck⟩
        obtain ⟨b, hb, hne⟩ := hbyte
        obtain ⟨j, hj, rfl⟩ := List.getElem_of_mem hb
        have hj' : j < f.length - dataOffset := by
          rw [List.length_drop] at hj
          exact hj
        have hword : ∀ b' : Mem, (received f b').dataWord 32 4 ≠ BitVec.allOnes 32 := by
          intro b' hones
          have hdata := dataWord_ones.mp hones j (by omega)
          rw [received_data f hf.2.1, if_pos hj', List.getD_eq_getElem _ _ hj] at hdata
          exact hne hdata
        exact halike.onWriteConfig hle (fun _ => Or.inr ⟨hword buf, hword buf'⟩) dev
      · -- neither way out writes anything
        have hnone : ∀ b' : Mem, onWriteConfig dev (received f b') = dev := by
          intro b'
          have hb := received_alike hf.2.1 b'
          have hw := hf.2.2.2.1
          refine onWriteConfig_misaligned ?_ ?_ ?_ dev
          · rw [hb.width]
            exact hw
          · rw [hb.width, ← hframe.width]
            omega
          · rw [hb.width, hb.addr]
            exact hcheck
        rw [hnone buf, hnone buf']
    · exact halike.onWriteConfig hle (fun _ => Or.inl (halike.dataWord (by omega) 32)) dev
  · refine halike.onWriteConfig hle (fun hin => ?_) dev
    rw [hframe.addr] at hin
    exact absurd hin hbar

/-- A device without BARs and with an empty configuration space. -/
def emptyDev : PcieDev (Fin barCount) := ⟨fun _ => 0, fun _ => none, fun _ => none, fun _ => 0⟩

theorem reaction_writeConfig {κ : Type} (dev : PcieDev κ) {m : PcieNetMsg}
    (hop : m.op = opWriteConfig) : reaction dev m = .done (onWriteConfig dev m) := by
  rw [reaction, onMsgRecv, hop, if_neg (by decide), if_pos rfl]

/-- The probe of a BAR without a size writes what was there. -/
theorem onWriteConfig_probe {m : PcieNetMsg}
    (hbar : pciBaseAddress0 ≤ m.addr ∧ m.addr ≤ pciBaseAddress5)
    (hones : m.dataWord 32 4 = BitVec.allOnes 32) : onWriteConfig emptyDev m = emptyDev := by
  rw [onWriteConfig, dif_pos hbar]
  simp only [if_pos hones]
  exact if_neg (fun hne => hne rfl)

/-- The default write puts the first byte of the data at the address. -/
theorem onWriteConfig_standard {m : PcieNetMsg} (hstd : StandardWrite m) (hw : 0 < m.width.toNat) :
    (onWriteConfig emptyDev m).config m.addr.toNat = m.data 0 := by
  have hwrite : onWriteConfig emptyDev m
      = pcieWriteConfigSafe emptyDev m.addr (load m.data 0 m.width.toNat) := by
    rcases onWriteConfig_cases emptyDev m with ⟨hns, -⟩ | ⟨hns, -⟩ | ⟨-, hwrite⟩
    · exact absurd hstd hns
    · exact absurd hstd hns
    · exact hwrite
  have hstore := store_apply_add emptyDev.config m.addr.toNat (load m.data 0 m.width.toNat) 0
    (by rw [load_length]; exact hw)
  rw [hwrite]
  show store emptyDev.config m.addr.toNat (load m.data 0 m.width.toNat) m.addr.toNat = m.data 0
  rw [Nat.add_zero] at hstore
  rw [hstore, load_getD _ _ _ _ hw]

section ReadsPast

variable (hf : WellFormed f) (h : ReadsPast f)
include hf h

theorem ReadsPast.carries : 0 < f.length - dataOffset := by
  have hle := hf.2.2.2.2 (Or.inl h.1)
  have hw := hf.2.2.2.1
  simp only [List.mem_cons, List.not_mem_nil, or_false] at hw
  omega

/-- Its data bytes are ones. -/
theorem ReadsPast.data (buf : Mem) {j : ℕ} (hj : j < f.length - dataOffset) :
    (received f buf).data j = 0xff := by
  have hj' : j < (f.drop dataOffset).length := by
    rw [List.length_drop]
    exact hj
  rw [received_data f hf.2.1, if_pos hj, List.getD_eq_getElem _ _ hj']
  exact h.2.2.2.1 _ (List.getElem_mem hj')

/-- Received over a buffer of ones, the word it compares is all ones. -/
theorem ReadsPast.word_ones : (received f fun _ => 0xff).dataWord 32 4 = BitVec.allOnes 32 := by
  refine dataWord_ones.mpr fun j _ => ?_
  by_cases hj : j < f.length - dataOffset
  · exact h.data hf _ hj
  · rw [received_data f hf.2.1, if_neg hj]

/-- Received over zeros, it is not: the byte behind the frame decides. -/
theorem ReadsPast.standard : StandardWrite (received f fun _ => 0) := by
  have hzero := received_alike hf.2.1 (fun _ => 0)
  have hle := hf.2.2.2.2 (Or.inl h.1)
  have hw := hf.2.2.2.1
  refine ⟨?_, ?_, ?_, ?_⟩
  · intro hp
    have hlast := dataWord_ones.mp hp.2.2 (f.length - dataOffset) h.2.2.1
    rw [received_data f hf.2.1, if_neg (Nat.lt_irrefl _)] at hlast
    cases hlast
  · intro hrom
    have hbar := h.2.1
    rw [← hzero.addr, hrom] at hbar
    exact absurd hbar.2 (by decide)
  · have hfour := h.2.2.1
    rw [hzero.width]
    simp only [List.mem_cons, List.not_mem_nil, or_false] at hw
    rcases hw with hw | hw | hw | hw
    · exact Or.inl (BitVec.eq_of_toNat_eq hw)
    · exact Or.inr (Or.inl (BitVec.eq_of_toNat_eq hw))
    · omega
    · omega
  · rw [hzero.width, hzero.addr]
    exact h.2.2.2.2

/-- **A frame of this kind is not**: with ones behind it, it probes; with zeros, it writes. -/
theorem not_ownBytes : ¬ OwnBytes f := by
  intro hown
  have hone := received_alike hf.2.1 (fun _ => 0xff)
  have hzero := received_alike hf.2.1 (fun _ => 0)
  have hpos : 0 < (received f fun _ => 0).width.toNat := by
    have hw := hf.2.2.2.1
    rw [hzero.width]
    simp only [List.mem_cons, List.not_mem_nil, or_false] at hw
    omega
  have hprobe := onWriteConfig_probe (m := received f fun _ => 0xff)
    (by rw [hone.addr]; exact h.2.1) (h.word_ones hf)
  have hwrite := onWriteConfig_standard (h.standard hf) hpos
  rw [h.data hf _ (h.carries hf)] at hwrite
  have heq : reaction emptyDev (received f fun _ => 0xff)
      = reaction emptyDev (received f fun _ => 0) := hown emptyDev (fun _ => 0xff) (fun _ => 0)
  rw [reaction_writeConfig _ (hone.op.trans h.1), reaction_writeConfig _ (hzero.op.trans h.1),
    hprobe, Reaction.done.injEq] at heq
  rw [← heq] at hwrite
  cases hwrite

end ReadsPast

/-- **Which well-formed frames are answered from their own bytes.** -/
theorem ownBytes_iff (hf : WellFormed f) : OwnBytes f ↔ ¬ ReadsPast f :=
  ⟨fun hown hpast => not_ownBytes hf hpast hown, ownBytes_of_not hf⟩

end OwnBytes

/-! ### Whole streams -/

theorem length_le_flatten {fs : List (List Byte)} (hfs : ∀ f ∈ fs, WellFormed f) :
    fs.length ≤ fs.flatten.length := by
  induction fs with
  | nil => exact Nat.le_refl 0
  | cons f fs ih =>
    have hpos := (hfs f List.mem_cons_self).length_pos
    have hrest := ih (fun g hg => hfs g (List.mem_cons_of_mem f hg))
    rw [List.flatten_cons, List.length_append, List.length_cons]
    omega

/-- What is dispatched is the prefix exactly when nothing of the rest is. -/
theorem dispatched_iff (s : Rx) :
    (∀ (turns : ℕ → Turn) (buf : Mem) (n : ℕ), s.bytes.length ≤ n →
      (dispatches n turns s buf).map frameBytes = (wellFormedPrefix s.bytes).1) ↔
      Quiet s.peer (wellFormedPrefix s.bytes).2 := by
  obtain ⟨bytes, p⟩ := s
  obtain ⟨hall, hs⟩ : (∀ f ∈ (wellFormedPrefix bytes).1, WellFormed f) ∧
      bytes = (wellFormedPrefix bytes).1.flatten ++ (wellFormedPrefix bytes).2 :=
    greedy_sound splits_frame bytes.length bytes
  show (∀ (turns : ℕ → Turn) (buf : Mem) (n : ℕ), bytes.length ≤ n →
    (dispatches n turns ⟨bytes, p⟩ buf).map frameBytes = (wellFormedPrefix bytes).1) ↔
      Quiet p (wellFormedPrefix bytes).2
  generalize (wellFormedPrefix bytes).1 = fs at hall hs ⊢
  generalize (wellFormedPrefix bytes).2 = r at hs ⊢
  have hcalls : fs.length + r.length ≤ bytes.length := by
    have hflat := length_le_flatten hall
    rw [hs, List.length_append]
    omega
  constructor
  · intro hdisp
    by_contra hquiet
    obtain ⟨reported, hrest⟩ := dispatches_not_quiet (bytes.length - fs.length) hquiet (by omega)
    obtain ⟨q, buf, hq, hsilent, hfront⟩ := dispatches_frames hall r p p (Or.inl rfl)
      (bytes.length - fs.length) (fun _ => ⟨reported, true, fun _ => 0⟩) (fun _ => 0)
    rw [Nat.add_sub_of_le (by omega), ← hs, hdisp _ _ _ (le_refl _)] at hfront
    have hnil := List.map_eq_nil_iff.mp (List.self_eq_append_right.mp hfront)
    exact hrest _ q buf (fun _ => rfl) hq (fun hrep => hsilent fun _ => hrep) hnil
  · intro hquiet turns buf n hn
    obtain ⟨q, buf', hq, -, hfront⟩ := dispatches_frames hall r p p (Or.inl rfl) (n - fs.length)
      turns buf
    rw [Nat.add_sub_of_le (by omega), ← hs, dispatches_quiet hquiet hq, List.map_nil,
      List.append_nil] at hfront
    exact hfront

/-- A memory read of 4 bytes, a header of 2 behind it, and the end. -/
def readThenHeader : Rx :=
  ⟨[15, 0, 2, 1, 4, 0, 0, 0, 0, 0, 0, 0, 0, 0, 0] ++ [2, 0], .closed⟩

end VPcie.Device
