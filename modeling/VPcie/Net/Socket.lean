import VPcie.Net.Message

/-!
# Receiving from the socket

`recv` with `MSG_WAITALL` on a TCP stream: it takes the bytes it was asked for.  Where they do not
come it returns what there is once the peer has closed, and fails once the connection is reset;
otherwise it does not return.  `pcieNetRecvBuf` (`pcie_net.c`) reads the header into a local and the
body behind it in the buffer; `pciefwRecvBuf` (`pciefw.c`) reads the header into the buffer as well.

* `pcieNetRecvMsg_encode`, `pciefwRecvMsg_encode` — a whole frame at the front of the stream is
  received, and the buffer then holds it;
* `pciefwRecvMsg_reply` — so is a reply, read as if it were a message.
-/

namespace VPcie.Net

open VPcie.Lib

/-- What comes behind the bytes of a connection: nothing yet, the end, or an error. -/
inductive Peer where
  | «open»
  | closed
  | reset
deriving DecidableEq, Repr

/-- Behind an error that a `send` has reported there is the end. -/
def Peer.reported : Peer → Peer
  | .reset => .closed
  | p => p

theorem Peer.reported_reported (p : Peer) : p.reported.reported = p.reported := by
  cases p <;> rfl

/-- The receiving end of a connection: the bytes that have arrived, and what comes behind them. -/
structure Rx where
  bytes : List Byte
  peer : Peer := .open
deriving DecidableEq, Repr

/-- What a call of `recv` returns, an `ssize_t`, with the bytes read and what is left. -/
structure Recvd where
  ret : BitVec 64
  body : List Byte
  rest : Rx
deriving DecidableEq, Repr

/-- `recv(fd, buf, n, MSG_WAITALL)`; `none` while it blocks.  A call for no bytes waits for one.  An
error is reported once, by a call that has read nothing. -/
def recvWaitall (s : Rx) (n : ℕ) : Option Recvd :=
  if max n 1 ≤ s.bytes.length then
    some ⟨BitVec.ofNat 64 n, s.bytes.take n, { s with bytes := s.bytes.drop n }⟩
  else
    match s.peer with
    | .open => none
    | .closed => some ⟨BitVec.ofNat 64 s.bytes.length, s.bytes, ⟨[], .closed⟩⟩
    | .reset =>
      if s.bytes = [] then some ⟨-1, [], ⟨[], .closed⟩⟩
      else some ⟨BitVec.ofNat 64 s.bytes.length, s.bytes, ⟨[], .reset⟩⟩

/-- What a receive routine does: block, return -1, or return the frame size with the buffer
filled. -/
inductive Recv where
  | wait
  | error (rest : Rx)
  | ok (n : ℕ) (buf : Mem) (rest : Rx)

/-- The rest of a receive routine once the header value `h` is known: `rem_size` is an unsigned
64-bit difference, the body goes behind the header, and `n` is compared with the same 64 bits. -/
def recvBody (rest : Rx) (buf : Mem) (maxSize h : ℕ) : Recv :=
  if h > maxSize then .error rest
  else
    let remSize := BitVec.ofNat 64 h - BitVec.ofNat 64 headerSize
    match recvWaitall rest remSize.toNat with
    | none => .wait
    | some r =>
      if r.ret ≠ remSize then .error r.rest
      else .ok h (store buf headerSize r.body) r.rest

/-- `pcie_net_recv_buf`: the header goes into a local variable. -/
def pcieNetRecvBuf (s : Rx) (buf : Mem) (maxSize : ℕ) : Recv :=
  if maxSize < headerSize then .error s
  else
    match recvWaitall s headerSize with
    | none => .wait
    | some r =>
      if r.ret ≠ BitVec.ofNat 64 headerSize then .error r.rest
      else recvBody r.rest buf maxSize (leNat r.body)

/-- `pciefw_recv_buf`: the header is received in place, at the start of the buffer. -/
def pciefwRecvBuf (s : Rx) (buf : Mem) (maxSize : ℕ) : Recv :=
  if maxSize < headerSize then .error s
  else
    match recvWaitall s headerSize with
    | none => .wait
    | some r =>
      if r.ret ≠ BitVec.ofNat 64 headerSize then .error r.rest
      else recvBody r.rest (store buf 0 r.body) maxSize (leNat r.body)

/-- `pcie_net_recv_msg`, into the buffer of `pcie_net_loop`. -/
def pcieNetRecvMsg (s : Rx) (buf : Mem) : Recv := pcieNetRecvBuf s buf msgMaxSize

/-- `pciefw_recv_msg`, into `state->msg`. -/
def pciefwRecvMsg (s : Rx) (buf : Mem) : Recv := pciefwRecvBuf s buf msgMaxSize

/-- A call for no bytes, on a connection with none. -/
example : recvWaitall ⟨[], .open⟩ 0 = none := rfl

/-! ### Calls that have their bytes -/

theorem recvWaitall_of_le {s : Rx} {n : ℕ} (h : max n 1 ≤ s.bytes.length) : recvWaitall s n
    = some ⟨BitVec.ofNat 64 n, s.bytes.take n, { s with bytes := s.bytes.drop n }⟩ := if_pos h

theorem recvWaitall_append {bs : List Byte} (hbs : bs ≠ []) (cs : List Byte) (peer : Peer) :
    recvWaitall ⟨bs ++ cs, peer⟩ bs.length
      = some ⟨BitVec.ofNat 64 bs.length, bs, ⟨cs, peer⟩⟩ := by
  have hpos := List.length_pos_iff.mpr hbs
  rw [recvWaitall_of_le]
  · simp
  · show max bs.length 1 ≤ (bs ++ cs).length
    rw [List.length_append]
    omega

/-- `rem_size`. -/
def remSize (h : ℕ) : ℕ := (BitVec.ofNat 64 h - BitVec.ofNat 64 headerSize).toNat

theorem remSize_ofNat (h : ℕ) :
    BitVec.ofNat 64 (remSize h) = BitVec.ofNat 64 h - BitVec.ofNat 64 headerSize := by
  rw [remSize, BitVec.ofNat_toNat, BitVec.setWidth_eq]

theorem remSize_lt (h : ℕ) : remSize h < 2 ^ 64 := BitVec.isLt _

/-- A call for `n` bytes returns `(ssize_t)n`: they come, or there are none to come, or the -1 of an
error is taken for their number. -/
def Rx.Comes (s : Rx) (n : ℕ) : Prop :=
  max n 1 ≤ s.bytes.length ∨
    s.bytes = [] ∧ (n = 0 ∧ s.peer = .closed ∨ n = 2 ^ 64 - 1 ∧ s.peer = .reset)

instance (s : Rx) (n : ℕ) : Decidable (s.Comes n) := inferInstanceAs (Decidable (_ ∨ _))

/-- What such a call leaves. -/
def Rx.after (s : Rx) (n : ℕ) : Rx :=
  if max n 1 ≤ s.bytes.length then { s with bytes := s.bytes.drop n } else ⟨[], .closed⟩

theorem recvWaitall_comes {s : Rx} {n : ℕ} (h : s.Comes n) :
    recvWaitall s n = some ⟨BitVec.ofNat 64 n, s.bytes.take n, s.after n⟩ := by
  obtain ⟨bytes, peer⟩ := s
  by_cases hle : max n 1 ≤ bytes.length
  · rw [recvWaitall_of_le hle, Rx.after, if_pos hle]
  · rw [recvWaitall, Rx.after, if_neg hle, if_neg hle]
    rcases h with h | ⟨hnil, ⟨rfl, hpeer⟩ | ⟨rfl, hpeer⟩⟩
    · exact absurd h hle
    · obtain rfl : peer = .closed := hpeer
      obtain rfl : bytes = [] := hnil
      rfl
    · obtain rfl : peer = .reset := hpeer
      obtain rfl : bytes = [] := hnil
      rfl

theorem recvWaitall_not_comes {s : Rx} {n : ℕ} (hn : n < 2 ^ 64) (h : ¬ s.Comes n) :
    recvWaitall s n = none ∧ s.peer = .open ∨
      ∃ r, recvWaitall s n = some r ∧ r.ret ≠ BitVec.ofNat 64 n ∧ r.rest.bytes = [] := by
  obtain ⟨bytes, peer⟩ := s
  have hle : ¬ max n 1 ≤ bytes.length := fun hle => h (Or.inl hle)
  have hret : bytes.length ≠ n → BitVec.ofNat 64 bytes.length ≠ BitVec.ofNat 64 n := by
    intro hne heq
    have hnat := congrArg BitVec.toNat heq
    rw [BitVec.toNat_ofNat, BitVec.toNat_ofNat] at hnat
    omega
  rw [recvWaitall, if_neg hle]
  cases peer with
  | «open» => exact Or.inl ⟨rfl, rfl⟩
  | closed =>
    refine Or.inr ⟨_, rfl, hret ?_, rfl⟩
    rintro rfl
    have hnil : bytes.length = 0 := by omega
    exact h (Or.inr ⟨List.length_eq_zero_iff.mp hnil, Or.inl ⟨hnil, rfl⟩⟩)
  | reset =>
    by_cases hnil : bytes = []
    · refine Or.inr ⟨_, if_pos hnil, fun heq => h (Or.inr ⟨hnil, Or.inr ⟨?_, rfl⟩⟩), rfl⟩
      have hnat := congrArg BitVec.toNat heq
      rw [BitVec.toNat_ofNat, Nat.mod_eq_of_lt hn] at hnat
      exact hnat.symm
    · have hpos := List.length_pos_iff.mpr hnil
      exact Or.inr ⟨_, if_neg hnil, hret (by omega), rfl⟩

/-- A body that comes is accepted. -/
theorem recvBody_comes {s : Rx} {maxSize h : ℕ} (buf : Mem) (hle : h ≤ maxSize)
    (hbody : s.Comes (remSize h)) : recvBody s buf maxSize h
      = .ok h (store buf headerSize (s.bytes.take (remSize h))) (s.after (remSize h)) := by
  have hrecv := recvWaitall_comes hbody
  rw [recvBody, if_neg (Nat.not_lt.mpr hle)]
  rw [remSize] at hrecv
  simp only [hrecv]
  rw [if_neg (by rw [← remSize, remSize_ofNat]; exact not_not.mpr rfl)]
  rfl

/-- A header of 1 on a connection that is reset: the -1 of the call is the length it was asked
for. -/
example (buf : Mem) :
    recvBody ⟨[], .reset⟩ buf msgMaxSize 1 = .ok 1 (store buf 2 []) ⟨[], .closed⟩ :=
  recvBody_comes buf (by decide) (by decide)

/-- Any other blocks, or is an error and the stream is at its end. -/
theorem recvBody_not_comes {s : Rx} {maxSize h : ℕ} (buf : Mem) (hle : h ≤ maxSize)
    (hbody : ¬ s.Comes (remSize h)) : recvBody s buf maxSize h = .wait ∧ s.peer = .open ∨
      ∃ rest, recvBody s buf maxSize h = .error rest ∧ rest.bytes = [] := by
  rw [recvBody, if_neg (Nat.not_lt.mpr hle)]
  rcases recvWaitall_not_comes (remSize_lt h) hbody with ⟨hnone, hopen⟩ | ⟨r, hrecv, hret, hrest⟩
  · rw [remSize] at hnone
    exact Or.inl ⟨by simp only [hnone], hopen⟩
  · rw [remSize] at hrecv
    rw [remSize_ofNat] at hret
    exact Or.inr ⟨r.rest, by simp only [hrecv, if_pos hret], hrest⟩

/-! ### Whole frames -/

theorem remSize_add (n : ℕ) (hn : n < 2 ^ 64 - headerSize) : remSize (n + headerSize) = n := by
  simp only [headerSize] at hn
  rw [remSize, BitVec.toNat_sub, BitVec.toNat_ofNat, BitVec.toNat_ofNat, headerSize]
  omega

theorem recvBody_append {body : List Byte} (hbody : body ≠ []) (cs : List Byte) (peer : Peer)
    (buf : Mem) (maxSize : ℕ) (hmax : body.length + headerSize ≤ maxSize)
    (hsize : maxSize ≤ msgMaxSize) :
    recvBody ⟨body ++ cs, peer⟩ buf maxSize (body.length + headerSize)
      = .ok (body.length + headerSize) (store buf headerSize body) ⟨cs, peer⟩ := by
  have hpos := List.length_pos_iff.mpr hbody
  have hrem : remSize (body.length + headerSize) = body.length := by
    simp only [msgMaxSize, headerSize] at hmax hsize
    exact remSize_add _ (by simp only [headerSize]; omega)
  have hlen : max (remSize (body.length + headerSize)) 1 ≤ (body ++ cs).length := by
    rw [hrem, List.length_append]
    omega
  rw [recvBody_comes (s := ⟨body ++ cs, peer⟩) buf hmax (Or.inl hlen), Rx.after, if_pos hlen, hrem]
  simp

/-- Receiving a frame `header ++ body` whose header is the total length. -/
theorem recvHeader_append (body cs : List Byte) (peer : Peer)
    (hsize : body.length + headerSize ≤ msgMaxSize) :
    recvWaitall ⟨leBytes 2 (body.length + headerSize) ++ body ++ cs, peer⟩ headerSize
        = some ⟨BitVec.ofNat 64 headerSize, leBytes 2 (body.length + headerSize),
          ⟨body ++ cs, peer⟩⟩ ∧
      leNat (leBytes 2 (body.length + headerSize)) = body.length + headerSize := by
  constructor
  · have hne : leBytes 2 (body.length + headerSize) ≠ [] := by
      rw [ne_eq, ← List.length_eq_zero_iff, leBytes_length]
      decide
    have h := recvWaitall_append hne (body ++ cs) peer
    rwa [leBytes_length, ← List.append_assoc] at h
  · rw [leNat_leBytes]
    simp only [msgMaxSize] at hsize
    omega

theorem pcieNetRecvMsg_frame {body : List Byte} (hbody : body ≠ []) (cs : List Byte) (peer : Peer)
    (buf : Mem) (hsize : body.length + headerSize ≤ msgMaxSize) :
    pcieNetRecvMsg ⟨leBytes 2 (body.length + headerSize) ++ body ++ cs, peer⟩ buf
      = .ok (body.length + headerSize) (store buf headerSize body) ⟨cs, peer⟩ := by
  obtain ⟨hrecv, hval⟩ := recvHeader_append body cs peer hsize
  rw [pcieNetRecvMsg, pcieNetRecvBuf, if_neg (by decide), hrecv]
  simp only [ne_eq, not_true_eq_false, if_false, hval]
  exact recvBody_append hbody cs peer buf msgMaxSize hsize le_rfl

theorem pciefwRecvMsg_frame {body : List Byte} (hbody : body ≠ []) (cs : List Byte) (peer : Peer)
    (buf : Mem) (hsize : body.length + headerSize ≤ msgMaxSize) :
    pciefwRecvMsg ⟨leBytes 2 (body.length + headerSize) ++ body ++ cs, peer⟩ buf
      = .ok (body.length + headerSize)
          (store (store buf 0 (leBytes 2 (body.length + headerSize))) headerSize body)
          ⟨cs, peer⟩ := by
  obtain ⟨hrecv, hval⟩ := recvHeader_append body cs peer hsize
  rw [pciefwRecvMsg, pciefwRecvBuf, if_neg (by decide), hrecv]
  simp only [ne_eq, not_true_eq_false, if_false, hval]
  exact recvBody_append hbody cs peer _ msgMaxSize hsize le_rfl

theorem WireMsg.body_ne_nil (m : WireMsg) : m.body ≠ [] := by
  rw [ne_eq, ← List.length_eq_zero_iff, m.body_length]
  omega

theorem PcieNetReply.body_ne_nil (r : PcieNetReply) : r.body ≠ [] := by
  rw [ne_eq, ← List.length_eq_zero_iff, r.body_length]
  decide

theorem WireMsg.encode_eq (m : WireMsg) :
    m.encode = leBytes 2 (m.body.length + headerSize) ++ m.body := by
  rw [encode, body_length]
  congr 2
  simp only [dataOffset, headerSize]
  omega

theorem WireMsg.body_le (m : WireMsg) : m.body.length + headerSize ≤ msgMaxSize := by
  have hle := m.data_le
  rw [body_length, msgMaxSize_eq]
  simp only [dataOffset, headerSize]
  omega

/-- The header `pciefw_recv_buf` leaves at the start of the buffer. -/
theorem load_header (buf : Mem) (h : ℕ) (body : List Byte) :
    load (store (store buf 0 (leBytes 2 h)) headerSize body) 0 headerSize = leBytes 2 h := by
  have hself := load_store_self buf 0 (leBytes 2 h)
  rw [leBytes_length] at hself
  rw [load_store_disjoint _ _ _ _ _ (Or.inl (le_of_eq (Nat.zero_add headerSize)))]
  exact hself

/-- **The device receives whole frames.** -/
theorem pcieNetRecvMsg_encode (m : WireMsg) (cs : List Byte) (peer : Peer) (buf : Mem) :
    ∃ n buf', pcieNetRecvMsg ⟨m.encode ++ cs, peer⟩ buf = .ok n buf' ⟨cs, peer⟩ ∧ Holds buf' m := by
  refine ⟨m.body.length + headerSize, store buf headerSize m.body, ?_, holds_store buf m⟩
  rw [m.encode_eq]
  exact pcieNetRecvMsg_frame m.body_ne_nil cs peer buf m.body_le

/-- **QEMU receives whole frames**, and the header it leaves in the buffer is their length. -/
theorem pciefwRecvMsg_encode (m : WireMsg) (cs : List Byte) (peer : Peer) (buf : Mem) :
    ∃ n buf', pciefwRecvMsg ⟨m.encode ++ cs, peer⟩ buf = .ok n buf' ⟨cs, peer⟩ ∧ Holds buf' m ∧
      leNat (load buf' 0 headerSize) = dataOffset + m.data.length := by
  refine ⟨m.body.length + headerSize,
    store (store buf 0 (leBytes 2 (m.body.length + headerSize))) headerSize m.body, ?_,
    holds_store _ m, ?_⟩
  · rw [m.encode_eq]
    exact pciefwRecvMsg_frame m.body_ne_nil cs peer buf m.body_le
  · rw [load_header, (recvHeader_append m.body cs peer m.body_le).2, m.body_length]
    simp only [dataOffset, headerSize]
    omega

/-- **QEMU receives replies with the same routine**: the header is `sizeof(pciefw_reply_t)` and the
8 data bytes lie at offset 3. -/
theorem pciefwRecvMsg_reply (r : PcieNetReply) (cs : List Byte) (peer : Peer) (buf : Mem) :
    ∃ n buf', pciefwRecvMsg ⟨r.encode ++ cs, peer⟩ buf = .ok n buf' ⟨cs, peer⟩ ∧
      leNat (load buf' 0 headerSize) = replySize ∧ load buf' 3 8 = leBytes 8 r.data.toNat := by
  have hle : r.body.length + headerSize ≤ msgMaxSize := by
    rw [r.body_length]
    decide
  have henc : r.encode = leBytes 2 (r.body.length + headerSize) ++ r.body := by
    rw [PcieNetReply.encode, r.body_length, replySize, headerSize]
  refine ⟨r.body.length + headerSize,
    store (store buf 0 (leBytes 2 (r.body.length + headerSize))) headerSize r.body, ?_, ?_, ?_⟩
  · rw [henc]
    exact pciefwRecvMsg_frame r.body_ne_nil cs peer buf hle
  · rw [load_header, (recvHeader_append r.body cs peer hle).2, r.body_length]
    rfl
  · rw [show 3 = headerSize + 1 from rfl, load_store _ _ _ _ _ (by simp)]
    simp [PcieNetReply.body, List.take_of_length_le]

/-! ### Streams -/

/-- One direction of a connection: what its receiver can read by now, and what the network still
carries. -/
structure Stream where
  arrived : List Byte
  flight : List Byte
deriving DecidableEq, Repr

namespace Stream

def empty : Stream := ⟨[], []⟩

/-- `send` on a connection that neither loses nor reorders. -/
def send (s : Stream) (bs : List Byte) : Stream := { s with flight := s.flight ++ bs }

/-- The network brings `k` more bytes. -/
def deliver (s : Stream) (k : ℕ) : Stream := ⟨s.arrived ++ s.flight.take k, s.flight.drop k⟩

/-- What the receiver sees. -/
def rx (s : Stream) : Rx := ⟨s.arrived, .open⟩

/-- The receiver has read up to `rest`. -/
def consume (s : Stream) (rest : Rx) : Stream := { s with arrived := rest.bytes }

/-- Everything sent and not yet read. -/
def bytes (s : Stream) : List Byte := s.arrived ++ s.flight

@[simp] theorem bytes_send (s : Stream) (bs : List Byte) : (s.send bs).bytes = s.bytes ++ bs := by
  simp [send, bytes]

@[simp] theorem bytes_deliver (s : Stream) (k : ℕ) : (s.deliver k).bytes = s.bytes := by
  simp [deliver, bytes]

/-- Once the network has brought everything. -/
theorem rx_deliver_all (s : Stream) : (s.deliver s.flight.length).rx = ⟨s.bytes, .open⟩ := by
  simp [deliver, rx, bytes]

theorem deliver_all_flight (s : Stream) : (s.deliver s.flight.length).flight = [] := by
  simp [deliver]

end Stream

/-! ### More bytes behind -/

/-- The same receiving end with more bytes behind. -/
def Rx.extend (s : Rx) (cs : List Byte) : Rx := { s with bytes := s.bytes ++ cs }

def Recv.extend (cs : List Byte) : Recv → Recv
  | .wait => .wait
  | .error rest => .error (rest.extend cs)
  | .ok n buf rest => .ok n buf (rest.extend cs)

/-- A receive that returned a message with more behind returned it without. -/
theorem Recv.of_extend_ok {r : Recv} {cs : List Byte} {n : ℕ} {buf : Mem} {rest : Rx}
    (h : r.extend cs = .ok n buf rest) : ∃ rest', r = .ok n buf rest' ∧ rest'.extend cs = rest := by
  cases r with
  | wait => exact absurd h (by simp [Recv.extend])
  | error rest' => exact absurd h (by simp [Recv.extend])
  | ok n' buf' rest' =>
    rw [Recv.extend, Recv.ok.injEq] at h
    obtain ⟨rfl, rfl, hrest⟩ := h
    exact ⟨rest', rfl, hrest⟩

theorem Stream.rx_extend (s : Stream) : s.rx.extend s.flight = ⟨s.bytes, .open⟩ := rfl

theorem recvWaitall_extend {s : Rx} {n : ℕ} {r : Recvd} (h : recvWaitall s n = some r)
    (hopen : s.peer = .open) (cs : List Byte) :
    recvWaitall (s.extend cs) n = some ⟨r.ret, r.body, r.rest.extend cs⟩ ∧
      r.rest.peer = .open := by
  obtain ⟨bytes, peer⟩ := s
  obtain rfl : peer = .open := hopen
  unfold recvWaitall at h
  split_ifs at h with htarget
  have hle : max n 1 ≤ bytes.length := htarget
  obtain rfl := Option.some.inj h
  refine ⟨?_, rfl⟩
  have hlen : n ≤ bytes.length := le_trans (le_max_left n 1) hle
  have hle' : max n 1 ≤ (Rx.extend ⟨bytes, .open⟩ cs).bytes.length := by
    show max n 1 ≤ (bytes ++ cs).length
    rw [List.length_append]
    omega
  rw [recvWaitall_of_le hle']
  simp only [Rx.extend, List.take_append_of_le_length hlen, List.drop_append_of_le_length hlen]

theorem recvBody_extend {s : Rx} (buf : Mem) (maxSize h : ℕ) (hopen : s.peer = .open)
    (cs : List Byte) (hwait : recvBody s buf maxSize h ≠ .wait) :
    recvBody (s.extend cs) buf maxSize h = (recvBody s buf maxSize h).extend cs := by
  unfold recvBody at hwait ⊢
  by_cases hmax : h > maxSize
  · rw [if_pos hmax, if_pos hmax]
    rfl
  · rw [if_neg hmax] at hwait
    rw [if_neg hmax, if_neg hmax]
    cases hrecv : recvWaitall s (BitVec.ofNat 64 h - BitVec.ofNat 64 headerSize).toNat with
    | none => exact absurd (by simp only [hrecv]) hwait
    | some r =>
      simp only [(recvWaitall_extend hrecv hopen cs).1, hrecv]
      split_ifs <;> rfl

/-- **A receive that does not block reads the same however much is behind.** -/
theorem pcieNetRecvMsg_extend {s : Rx} (buf : Mem) (hopen : s.peer = .open) (cs : List Byte)
    (hwait : pcieNetRecvMsg s buf ≠ .wait) :
    pcieNetRecvMsg (s.extend cs) buf = (pcieNetRecvMsg s buf).extend cs := by
  rw [pcieNetRecvMsg, pcieNetRecvBuf, if_neg (by decide)] at hwait ⊢
  rw [pcieNetRecvMsg, pcieNetRecvBuf, if_neg (by decide)]
  cases hrecv : recvWaitall s headerSize with
  | none => exact absurd (by simp only [hrecv]) hwait
  | some r =>
    obtain ⟨hext, hopen'⟩ := recvWaitall_extend hrecv hopen cs
    simp only [hrecv] at hwait
    simp only [hext]
    by_cases hlen : r.ret ≠ BitVec.ofNat 64 headerSize
    · rw [if_pos hlen, if_pos hlen]
      rfl
    · rw [if_neg hlen] at hwait
      rw [if_neg hlen, if_neg hlen]
      exact recvBody_extend buf _ _ hopen' cs hwait

theorem pciefwRecvMsg_extend {s : Rx} (buf : Mem) (hopen : s.peer = .open) (cs : List Byte)
    (hwait : pciefwRecvMsg s buf ≠ .wait) :
    pciefwRecvMsg (s.extend cs) buf = (pciefwRecvMsg s buf).extend cs := by
  rw [pciefwRecvMsg, pciefwRecvBuf, if_neg (by decide)] at hwait ⊢
  rw [pciefwRecvMsg, pciefwRecvBuf, if_neg (by decide)]
  cases hrecv : recvWaitall s headerSize with
  | none => exact absurd (by simp only [hrecv]) hwait
  | some r =>
    obtain ⟨hext, hopen'⟩ := recvWaitall_extend hrecv hopen cs
    simp only [hrecv] at hwait
    simp only [hext]
    by_cases hlen : r.ret ≠ BitVec.ofNat 64 headerSize
    · rw [if_pos hlen, if_pos hlen]
      rfl
    · rw [if_neg hlen] at hwait
      rw [if_neg hlen, if_neg hlen]
      exact recvBody_extend _ _ _ hopen' cs hwait

/-- With nothing sent, both routines block. -/
theorem pcieNetRecvMsg_nil {s : Stream} (hs : s.bytes = []) (buf : Mem) :
    pcieNetRecvMsg s.rx buf = .wait := by
  obtain ⟨harrived, _⟩ := List.append_eq_nil_iff.mp hs
  rw [Stream.rx, harrived]
  rfl

theorem pciefwRecvMsg_nil {s : Stream} (hs : s.bytes = []) (buf : Mem) :
    pciefwRecvMsg s.rx buf = .wait := by
  obtain ⟨harrived, _⟩ := List.append_eq_nil_iff.mp hs
  rw [Stream.rx, harrived]
  rfl

/-- What the device receives from a stream that starts with a frame, however little has arrived. -/
theorem pcieNetRecvMsg_stream {s : Stream} {m : WireMsg} {cs : List Byte}
    (hs : s.bytes = m.encode ++ cs) (buf : Mem) :
    pcieNetRecvMsg s.rx buf = .wait ∨
      ∃ n buf' rest, pcieNetRecvMsg s.rx buf = .ok n buf' rest ∧
        (s.consume rest).bytes = cs ∧ Holds buf' m := by
  by_cases hwait : pcieNetRecvMsg s.rx buf = .wait
  · exact Or.inl hwait
  · obtain ⟨n, buf', hfull, hholds⟩ := pcieNetRecvMsg_encode m cs .open buf
    have hext := pcieNetRecvMsg_extend buf rfl s.flight hwait
    rw [s.rx_extend, hs, hfull] at hext
    obtain ⟨rest, hrecv, hrest⟩ := Recv.of_extend_ok hext.symm
    exact Or.inr ⟨n, buf', rest, hrecv, congrArg Rx.bytes hrest, hholds⟩

/-- What QEMU receives from a stream that starts with a message frame. -/
theorem pciefwRecvMsg_stream {s : Stream} {m : WireMsg} {cs : List Byte}
    (hs : s.bytes = m.encode ++ cs) (buf : Mem) :
    pciefwRecvMsg s.rx buf = .wait ∨
      ∃ n buf' rest, pciefwRecvMsg s.rx buf = .ok n buf' rest ∧
        (s.consume rest).bytes = cs ∧ Holds buf' m ∧
        leNat (load buf' 0 headerSize) = dataOffset + m.data.length := by
  by_cases hwait : pciefwRecvMsg s.rx buf = .wait
  · exact Or.inl hwait
  · obtain ⟨n, buf', hfull, hholds, hhdr⟩ := pciefwRecvMsg_encode m cs .open buf
    have hext := pciefwRecvMsg_extend buf rfl s.flight hwait
    rw [s.rx_extend, hs, hfull] at hext
    obtain ⟨rest, hrecv, hrest⟩ := Recv.of_extend_ok hext.symm
    exact Or.inr ⟨n, buf', rest, hrecv, congrArg Rx.bytes hrest, hholds, hhdr⟩

/-- What QEMU receives from a stream that starts with a reply frame. -/
theorem pciefwRecvMsg_stream_reply {s : Stream} {r : PcieNetReply} {cs : List Byte}
    (hs : s.bytes = r.encode ++ cs) (buf : Mem) :
    pciefwRecvMsg s.rx buf = .wait ∨
      ∃ n buf' rest, pciefwRecvMsg s.rx buf = .ok n buf' rest ∧
        (s.consume rest).bytes = cs ∧ leNat (load buf' 0 headerSize) = replySize ∧
        load buf' 3 8 = leBytes 8 r.data.toNat := by
  by_cases hwait : pciefwRecvMsg s.rx buf = .wait
  · exact Or.inl hwait
  · obtain ⟨n, buf', hfull, hhdr, hdata⟩ := pciefwRecvMsg_reply r cs .open buf
    have hext := pciefwRecvMsg_extend buf rfl s.flight hwait
    rw [s.rx_extend, hs, hfull] at hext
    obtain ⟨rest, hrecv, hrest⟩ := Recv.of_extend_ok hext.symm
    exact Or.inr ⟨n, buf', rest, hrecv, congrArg Rx.bytes hrest, hhdr, hdata⟩

end VPcie.Net
