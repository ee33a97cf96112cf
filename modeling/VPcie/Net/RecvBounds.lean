import VPcie.Net.Socket

/-!
# Where the receive routines store

The calls of `recv` that `pcie_net_recv_buf` and `pciefw_recv_buf` make, with the place in the
buffer, the length asked for and the bytes that the call has stored, a call that blocks included.
The check of the header is from above only, and `rem_size` is the unsigned difference.

* `pcieNetRecvBuf_beside`, `pciefwRecvBuf_beside`, `recvBufCalls_consumed` — the calls account for
  what the routines do to the buffer and to the stream;
* `recvInside_iff` — on which streams the routines stay inside the buffer.
-/

namespace VPcie.Net

open VPcie.Lib

/-! ### The calls -/

/-- A call of `recv`: the offset in the buffer, `none` for a local variable, the length it is asked
for, and the number of bytes it has stored. -/
structure RecvCall where
  off : Option ℕ
  asked : ℕ
  got : ℕ
deriving DecidableEq, Repr

/-- A call on a stream: the bytes that have arrived are stored, though it blocks for more. -/
def recvCall (off : Option ℕ) (s : Rx) (n : ℕ) : RecvCall := ⟨off, n, min n s.bytes.length⟩

/-- The calls of a receive routine whose header goes to `header`. -/
def recvBufCalls (header : Option ℕ) (s : Rx) (maxSize : ℕ) : List RecvCall :=
  if maxSize < headerSize then []
  else recvCall header s headerSize ::
    match recvWaitall s headerSize with
    | none => []
    | some r =>
      if r.ret ≠ BitVec.ofNat 64 headerSize then []
      else if leNat r.body > maxSize then []
      else [recvCall (some headerSize) r.rest (remSize (leNat r.body))]

/-- The calls of `pcie_net_recv_buf`. -/
def pcieNetRecvBufCalls (s : Rx) (maxSize : ℕ) : List RecvCall := recvBufCalls none s maxSize

/-- The calls of `pciefw_recv_buf`. -/
def pciefwRecvBufCalls (s : Rx) (maxSize : ℕ) : List RecvCall := recvBufCalls (some 0) s maxSize

/-- The indices of the buffer that a call has stored to. -/
def RecvCall.stored (c : RecvCall) : List ℕ :=
  match c.off with
  | none => []
  | some off => (List.range c.got).map (off + ·)

theorem RecvCall.mem_stored {c : RecvCall} {i : ℕ} :
    i ∈ c.stored ↔ ∃ off, c.off = some off ∧ off ≤ i ∧ i < off + c.got := by
  unfold RecvCall.stored
  cases c.off with
  | none => simp
  | some off =>
    simp only [List.mem_map, List.mem_range, Option.some.injEq, exists_eq_left']
    constructor
    · rintro ⟨j, hj, rfl⟩
      omega
    · rintro ⟨hlo, hhi⟩
      exact ⟨i - off, by omega, by omega⟩

/-! ### Whether there is a header -/

section Header

variable {s : Rx} {maxSize : ℕ}

/-- The header of a stream that has one. -/
def Rx.header (s : Rx) : List Byte := s.bytes.take headerSize

/-- The stream behind the header. -/
def Rx.behindHeader (s : Rx) : Rx := { s with bytes := s.bytes.drop headerSize }

theorem recvWaitall_header (h : headerSize ≤ s.bytes.length) :
    recvWaitall s headerSize
      = some ⟨BitVec.ofNat 64 headerSize, s.header, s.behindHeader⟩ := recvWaitall_of_le h

theorem Rx.header_length (h : headerSize ≤ s.bytes.length) : s.header.length = headerSize := by
  rw [Rx.header, List.length_take, Nat.min_eq_left h]

theorem Rx.header_lt (h : headerSize ≤ s.bytes.length) : leNat s.header < 65536 := by
  have hlt := leNat_lt s.header
  rw [s.header_length h] at hlt
  exact hlt

/-- Without a header, a routine blocks, or sees that it did not come. -/
theorem recvWaitall_noHeader (h : s.bytes.length < headerSize) :
    recvWaitall s headerSize = none ∨ ∃ r, recvWaitall s headerSize = some r ∧
      r.rest.bytes = [] ∧ r.ret ≠ BitVec.ofNat 64 headerSize := by
  have hcomes : ¬ s.Comes headerSize := by
    simp only [headerSize] at h
    rintro (hle | ⟨-, ⟨hzero, -⟩ | ⟨hmax, -⟩⟩)
    · simp only [headerSize] at hle
      omega
    · exact absurd hzero (by decide)
    · exact absurd hmax (by decide)
  rcases recvWaitall_not_comes (by decide) hcomes with ⟨hnone, -⟩ | ⟨r, hrecv, hret, hrest⟩
  · exact Or.inl hnone
  · exact Or.inr ⟨r, hrecv, hrest, hret⟩

/-- The calls on a stream with a header: one, or two where it passes the check. -/
theorem recvBufCalls_header (header : Option ℕ) (hmax : headerSize ≤ maxSize)
    (h : headerSize ≤ s.bytes.length) : recvBufCalls header s maxSize
      = ⟨header, headerSize, headerSize⟩ ::
        if leNat s.header > maxSize then []
        else [recvCall (some headerSize) s.behindHeader (remSize (leNat s.header))] := by
  rw [recvBufCalls, if_neg (Nat.not_lt.mpr hmax), recvWaitall_header h, recvCall,
    Nat.min_eq_left h]
  simp only [ne_eq, not_true_eq_false, if_false]

/-- The one call on a stream without a header. -/
theorem recvBufCalls_noHeader (header : Option ℕ) (hmax : headerSize ≤ maxSize)
    (h : s.bytes.length < headerSize) :
    recvBufCalls header s maxSize = [⟨header, headerSize, s.bytes.length⟩] := by
  rw [recvBufCalls, if_neg (Nat.not_lt.mpr hmax), recvCall, Nat.min_eq_right h.le]
  rcases recvWaitall_noHeader h with hrecv | ⟨r, hrecv, -, hret⟩
  · rw [hrecv]
  · rw [hrecv]
    simp only [if_pos hret]

theorem pcieNetRecvBuf_header (hmax : headerSize ≤ maxSize) (h : headerSize ≤ s.bytes.length)
    (buf : Mem) : pcieNetRecvBuf s buf maxSize
      = recvBody s.behindHeader buf maxSize (leNat s.header) := by
  rw [pcieNetRecvBuf, if_neg (Nat.not_lt.mpr hmax), recvWaitall_header h]
  exact if_neg (not_not.mpr rfl)

theorem pciefwRecvBuf_header (hmax : headerSize ≤ maxSize) (h : headerSize ≤ s.bytes.length)
    (buf : Mem) : pciefwRecvBuf s buf maxSize
      = recvBody s.behindHeader (store buf 0 s.header) maxSize (leNat s.header) := by
  rw [pciefwRecvBuf, if_neg (Nat.not_lt.mpr hmax), recvWaitall_header h]
  exact if_neg (not_not.mpr rfl)

theorem pcieNetRecvBuf_noHeader (hmax : headerSize ≤ maxSize) (h : s.bytes.length < headerSize)
    (buf : Mem) : pcieNetRecvBuf s buf maxSize = .wait ∨
      ∃ rest, pcieNetRecvBuf s buf maxSize = .error rest ∧ rest.bytes = [] := by
  rcases recvWaitall_noHeader h with hrecv | ⟨r, hrecv, hrest, hret⟩
  · left
    simp only [pcieNetRecvBuf, if_neg (Nat.not_lt.mpr hmax), hrecv]
  · refine Or.inr ⟨r.rest, ?_, hrest⟩
    simp only [pcieNetRecvBuf, if_neg (Nat.not_lt.mpr hmax), hrecv]
    exact if_pos hret

theorem pciefwRecvBuf_noHeader (hmax : headerSize ≤ maxSize) (h : s.bytes.length < headerSize)
    (buf : Mem) : pciefwRecvBuf s buf maxSize = .wait ∨
      ∃ rest, pciefwRecvBuf s buf maxSize = .error rest ∧ rest.bytes = [] := by
  rcases recvWaitall_noHeader h with hrecv | ⟨r, hrecv, hrest, hret⟩
  · left
    simp only [pciefwRecvBuf, if_neg (Nat.not_lt.mpr hmax), hrecv]
  · refine Or.inr ⟨r.rest, ?_, hrest⟩
    simp only [pciefwRecvBuf, if_neg (Nat.not_lt.mpr hmax), hrecv]
    exact if_pos hret

end Header

/-! ### The calls account for the routines -/

/-- What is left of the stream when a receive routine returns. -/
def Recv.rest : Recv → Option Rx
  | .wait => none
  | .error rest => some rest
  | .ok _ _ rest => some rest

section Account

variable {s rest : Rx} {buf buf' : Mem} {maxSize n : ℕ}

/-- The body is stored behind the header. -/
theorem recvBody_ok {h : ℕ} (hok : recvBody s buf maxSize h = .ok n buf' rest) :
    n = h ∧ h ≤ maxSize ∧ s.Comes (remSize h) ∧
      buf' = store buf headerSize (s.bytes.take (remSize h)) := by
  by_cases hmax : h > maxSize
  · rw [recvBody, if_pos hmax] at hok
    cases hok
  · have hle := Nat.not_lt.mp hmax
    by_cases hbody : s.Comes (remSize h)
    · rw [recvBody_comes buf hle hbody] at hok
      obtain ⟨rfl, rfl, -⟩ := Recv.ok.inj hok
      exact ⟨rfl, hle, hbody, rfl⟩
    · rcases recvBody_not_comes buf hle hbody with ⟨hwait, -⟩ | ⟨rest', herror, -⟩
      · rw [hwait] at hok
        cases hok
      · rw [herror] at hok
        cases hok

theorem Rx.after_bytes {n : ℕ} : (s.after n).bytes = s.bytes.drop n := by
  rw [Rx.after]
  split
  · rfl
  · rename_i hle
    rw [List.drop_eq_nil_of_le (by omega)]

/-- What the body takes from the stream: as much as has arrived of what is asked for. -/
theorem recvBody_rest {h : ℕ} (hrest : (recvBody s buf maxSize h).rest = some rest) :
    rest.bytes = if h > maxSize then s.bytes else s.bytes.drop (remSize h) := by
  by_cases hmax : h > maxSize
  · rw [recvBody, if_pos hmax] at hrest
    rw [if_pos hmax, ← Option.some.inj hrest]
  · have hle := Nat.not_lt.mp hmax
    rw [if_neg hmax]
    by_cases hbody : s.Comes (remSize h)
    · rw [recvBody_comes buf hle hbody] at hrest
      rw [← Option.some.inj hrest, Rx.after_bytes]
    · -- the stream was shorter
      have hshort : s.bytes.length ≤ remSize h := by
        by_contra hlong
        exact hbody (Or.inl (by omega))
      rcases recvBody_not_comes buf hle hbody with ⟨hwait, -⟩ | ⟨rest', herror, hnil⟩
      · rw [hwait] at hrest
        cases hrest
      · rw [herror] at hrest
        rw [← Option.some.inj hrest, hnil, List.drop_eq_nil_of_le hshort]

/-- The body goes to the place of the second call, whatever the first call is for. -/
theorem recvBody_beside (header : Option ℕ) (hmax : headerSize ≤ maxSize)
    (h : headerSize ≤ s.bytes.length)
    (hok : recvBody s.behindHeader buf maxSize (leNat s.header) = .ok n buf' rest) {i : ℕ}
    (hi : ∀ c ∈ recvBufCalls header s maxSize, i ∉ c.stored) : buf' i = buf i := by
  obtain ⟨-, hle, -, rfl⟩ := recvBody_ok hok
  rw [recvBufCalls_header header hmax h, if_neg (Nat.not_lt.mpr hle)] at hi
  have hbody := hi _ (List.mem_cons_of_mem _ List.mem_cons_self)
  rw [store, if_neg]
  rintro ⟨hlo, hhi⟩
  rw [List.length_take] at hhi
  exact hbody (RecvCall.mem_stored.mpr ⟨headerSize, rfl, hlo, hhi⟩)

/-- **Bytes beside the calls of `pcie_net_recv_buf` stay.** -/
theorem pcieNetRecvBuf_beside (hmax : headerSize ≤ maxSize)
    (hok : pcieNetRecvBuf s buf maxSize = .ok n buf' rest) {i : ℕ}
    (hi : ∀ c ∈ pcieNetRecvBufCalls s maxSize, i ∉ c.stored) : buf' i = buf i := by
  by_cases h : headerSize ≤ s.bytes.length
  · rw [pcieNetRecvBuf_header hmax h] at hok
    exact recvBody_beside none hmax h hok hi
  · rcases pcieNetRecvBuf_noHeader hmax (Nat.not_le.mp h) buf with hrecv | ⟨rest', hrecv, -⟩
    · rw [hrecv] at hok
      cases hok
    · rw [hrecv] at hok
      cases hok

/-- **Bytes beside the calls of `pciefw_recv_buf` stay.** -/
theorem pciefwRecvBuf_beside (hmax : headerSize ≤ maxSize)
    (hok : pciefwRecvBuf s buf maxSize = .ok n buf' rest) {i : ℕ}
    (hi : ∀ c ∈ pciefwRecvBufCalls s maxSize, i ∉ c.stored) : buf' i = buf i := by
  by_cases h : headerSize ≤ s.bytes.length
  · rw [pciefwRecvBuf_header hmax h] at hok
    refine (recvBody_beside (some 0) hmax h hok hi).trans ?_
    -- the first call is for the header
    rw [pciefwRecvBufCalls, recvBufCalls_header _ hmax h] at hi
    have hhdr := hi _ List.mem_cons_self
    rw [store, if_neg]
    rintro ⟨hlo, hhi⟩
    rw [s.header_length h] at hhi
    exact hhdr (RecvCall.mem_stored.mpr ⟨0, rfl, hlo, hhi⟩)
  · rcases pciefwRecvBuf_noHeader hmax (Nat.not_le.mp h) buf with hrecv | ⟨rest', hrecv, -⟩
    · rw [hrecv] at hok
      cases hok
    · rw [hrecv] at hok
      cases hok

/-- What both routines leave of a stream, by the calls. -/
theorem recvBody_consumed (header : Option ℕ) (hmax : headerSize ≤ maxSize)
    (h : headerSize ≤ s.bytes.length)
    (hrest : (recvBody s.behindHeader buf maxSize (leNat s.header)).rest = some rest) :
    rest.bytes = s.bytes.drop ((recvBufCalls header s maxSize).map RecvCall.got).sum := by
  rw [recvBody_rest hrest, recvBufCalls_header header hmax h]
  split_ifs with hlong
  · rfl
  · -- a drop beyond the end is a drop to the end
    have hdrop : ∀ (l : List Byte) (k : ℕ), l.drop (min k l.length) = l.drop k := by
      intro l k
      by_cases hk : k ≤ l.length
      · rw [Nat.min_eq_left hk]
      · rw [Nat.min_eq_right (by omega), List.drop_length, List.drop_eq_nil_of_le (by omega)]
    simp only [List.map_cons, List.map_nil, List.sum_cons, List.sum_nil, Nat.add_zero, recvCall,
      Rx.behindHeader]
    rw [← List.drop_drop, hdrop]

/-- **The calls account for what is read**, in both routines. -/
theorem recvBufCalls_consumed (hmax : headerSize ≤ maxSize) :
    ((pcieNetRecvBuf s buf maxSize).rest = some rest → rest.bytes
      = s.bytes.drop ((pcieNetRecvBufCalls s maxSize).map RecvCall.got).sum) ∧
    ((pciefwRecvBuf s buf maxSize).rest = some rest → rest.bytes
      = s.bytes.drop ((pciefwRecvBufCalls s maxSize).map RecvCall.got).sum) := by
  by_cases h : headerSize ≤ s.bytes.length
  · rw [pcieNetRecvBuf_header hmax h, pciefwRecvBuf_header hmax h]
    exact ⟨recvBody_consumed none hmax h, recvBody_consumed (some 0) hmax h⟩
  · have hnone := Nat.not_le.mp h
    rw [pcieNetRecvBufCalls, pciefwRecvBufCalls, recvBufCalls_noHeader none hmax hnone,
      recvBufCalls_noHeader (some 0) hmax hnone]
    simp only [List.map_cons, List.map_nil, List.sum_cons, List.sum_nil, Nat.add_zero,
      List.drop_length]
    have hend : ∀ r : Recv, (r = .wait ∨ ∃ rest', r = .error rest' ∧ rest'.bytes = []) →
        r.rest = some rest → rest.bytes = [] := by
      rintro r (rfl | ⟨rest', rfl, hnil⟩) hrest
      · cases hrest
      · rw [← Option.some.inj hrest, hnil]
    exact ⟨hend _ (pcieNetRecvBuf_noHeader hmax hnone buf),
      hend _ (pciefwRecvBuf_noHeader hmax hnone buf)⟩

end Account

/-! ### On which streams the routines stay inside -/

/-- A receive stays inside its buffer: the second call is for what the header has left of it, all
bytes are stored in it, and a header that counts less than itself is an error once it is read. -/
structure RecvInside (s : Rx) (maxSize : ℕ) (calls : List RecvCall) (r : Recv) : Prop where
  second : ∀ c, calls[1]? = some c → c.asked ≤ maxSize - headerSize
  stored : ∀ c ∈ calls, ∀ i ∈ c.stored, i < maxSize
  short : headerSize ≤ s.bytes.length → leNat s.header < headerSize →
    r = .error s.behindHeader ∧ calls.length = 1

/-- The stream does not start with a header that counts less than itself. -/
def CountsItself (s : Rx) : Prop := headerSize ≤ s.bytes.length → headerSize ≤ leNat s.header

instance (s : Rx) : Decidable (CountsItself s) := inferInstanceAs (Decidable (_ → _))

section Inside

variable {s : Rx} {maxSize : ℕ} {header : Option ℕ}

/-- Without the wrap, the calls stay inside. -/
theorem recvInside_of_countsItself (hmax : headerSize ≤ maxSize)
    (hheader : header = none ∨ header = some 0) (hcounts : CountsItself s) (r : Recv) :
    RecvInside s maxSize (recvBufCalls header s maxSize) r := by
  have hfirst : ∀ got, got ≤ headerSize →
      ∀ i ∈ (RecvCall.mk header headerSize got).stored, i < maxSize := by
    intro got hgot i hi
    obtain ⟨off, hoff, -, hhi⟩ := RecvCall.mem_stored.mp hi
    rcases hheader with rfl | rfl
    · cases hoff
    · obtain rfl := Option.some.inj hoff
      simp only at hhi
      omega
  by_cases h : headerSize ≤ s.bytes.length
  · have hcount := hcounts h
    have hlt := s.header_lt h
    have hrem : remSize (leNat s.header) = leNat s.header - headerSize := by
      simp only [headerSize] at hcount
      rw [remSize, headerSize, BitVec.toNat_sub, BitVec.toNat_ofNat, BitVec.toNat_ofNat]
      omega
    rw [recvBufCalls_header header hmax h, hrem]
    refine ⟨?_, ?_, fun _ hshort => absurd hcount (Nat.not_le.mpr hshort)⟩
    · intro c hc
      split_ifs at hc with hlong
      · cases hc
      · rw [← Option.some.inj hc]
        simp only [recvCall]
        omega
    · intro c hc i hi
      rcases List.mem_cons.mp hc with rfl | hc
      · exact hfirst headerSize le_rfl i hi
      · split_ifs at hc with hlong
        · cases hc
        · obtain rfl := List.mem_singleton.mp hc
          obtain ⟨off, hoff, -, hhi⟩ := RecvCall.mem_stored.mp hi
          obtain rfl := Option.some.inj hoff
          simp only [recvCall] at hhi
          omega
  · have hnone := Nat.not_le.mp h
    rw [recvBufCalls_noHeader header hmax hnone]
    refine ⟨fun c hc => (by cases hc), ?_, fun hlen => absurd hlen h⟩
    intro c hc i hi
    obtain rfl := List.mem_singleton.mp hc
    exact hfirst _ hnone.le i hi

/-- With the wrap, there is a second call. -/
theorem not_recvInside_of_short (hmax : headerSize ≤ maxSize) (h : headerSize ≤ s.bytes.length)
    (hshort : leNat s.header < headerSize) (r : Recv) :
    ¬ RecvInside s maxSize (recvBufCalls header s maxSize) r := by
  intro hinside
  have hone := (hinside.short h hshort).2
  rw [recvBufCalls_header header hmax h, if_neg (by omega)] at hone
  exact absurd hone (Nat.succ_ne_self 1)

end Inside

/-- **On which streams the receive routines stay inside their buffer**: those that do not start with
a header of a size below its own. -/
theorem recvInside_iff (s : Rx) (buf : Mem) (maxSize : BitVec 64)
    (hmax : headerSize ≤ maxSize.toNat) :
    (RecvInside s maxSize.toNat (pcieNetRecvBufCalls s maxSize.toNat)
        (pcieNetRecvBuf s buf maxSize.toNat) ∧
      RecvInside s maxSize.toNat (pciefwRecvBufCalls s maxSize.toNat)
        (pciefwRecvBuf s buf maxSize.toNat)) ↔ CountsItself s := by
  constructor
  · intro hinside h
    by_contra hshort
    exact not_recvInside_of_short hmax h (Nat.not_le.mp hshort) _ hinside.1
  · intro hcounts
    exact ⟨recvInside_of_countsItself hmax (Or.inl rfl) hcounts _,
      recvInside_of_countsItself hmax (Or.inr rfl) hcounts _⟩

/-- A reply, and a byte behind it. -/
def replyThenByte : Rx := ⟨PcieNetReply.encode ⟨0, 0x11⟩ ++ [0], .open⟩

theorem recvInside_replyThenByte :
    RecvInside replyThenByte replySize (pcieNetRecvBufCalls replyThenByte replySize)
      (pcieNetRecvBuf replyThenByte (fun _ => 0) replySize) :=
  ((recvInside_iff replyThenByte (fun _ => 0) 11 (by decide)).mpr (by decide)).1

/-- **A header of size 0** passes the check, and `recv` is asked for two bytes less than the whole
address space: a page and more behind it is stored beyond the end of the buffer. -/
theorem zeroHeader_beyond :
    let s : Rx := ⟨List.replicate 4200 0, .open⟩
    ¬ RecvInside s msgMaxSize (pcieNetRecvBufCalls s msgMaxSize)
        (pcieNetRecvBuf s (fun _ => 0) msgMaxSize) ∧
      ∃ c, (pcieNetRecvBufCalls s msgMaxSize)[1]? = some c ∧ c.asked = 2 ^ 64 - 2 ∧
        msgMaxSize ∈ c.stored := by
  intro s
  have hlen : headerSize ≤ s.bytes.length := by
    rw [List.length_replicate]
    decide
  have hzero : leNat s.header = 0 := rfl
  have hbehind : s.behindHeader.bytes.length = 4198 := by
    rw [Rx.behindHeader, List.length_drop, List.length_replicate]
    rfl
  have hmax : headerSize ≤ msgMaxSize := by decide
  have hcalls := recvBufCalls_header none hmax hlen
  rw [hzero, if_neg (Nat.not_lt_zero _), recvCall, hbehind] at hcalls
  refine ⟨not_recvInside_of_short (by decide) hlen (by rw [hzero]; decide) _, ?_⟩
  rw [pcieNetRecvBufCalls, hcalls]
  exact ⟨_, rfl, rfl, RecvCall.mem_stored.mpr ⟨headerSize, rfl, by decide, by decide⟩⟩

end VPcie.Net
