import VPcie.Glue.Threads

/-!
# Marshalling the writes of the VHDL side

`pcie_glue_send_write` takes a payload vector and two sizes, of the vector and of what the user
wants written; `pcie_glue_send_write_buf` takes an array of bytes, eight logic values each.  What a
call is to push is said with the values of the vectors, and compared with the node it pushes.

* `sendWrite_iff` — when the bytes of `pcie_glue_send_write` are the requested ones;
* `strideOne_iff` — when reading every element one value further reads every eighth value;
* `sendWriteBuf_iff` — when the bytes of `pcie_glue_send_write_buf` are those of the array.
-/

namespace VPcie.Glue

open VPcie.Lib VPcie.Net

/-- `PAYLOAD_WIDTH`. -/
def payloadWidth : ℕ := 1024

/-- The node pushed last is a write of `size` bytes to an address, and byte `i` is `byteAt i`. -/
structure WriteQueued (t : GlueState) (node : Ptr) (addr : BitVec 64) (size : ℕ)
    (byteAt : ℕ → Byte) : Prop where
  pushed : t.txFifo.tail = some node
  msg : ∃ m, (t.heap node).map Cell.val = some (.msg m) ∧ m.op = opWriteMem ∧ m.addr = addr ∧
    m.data.length = size ∧ ∀ i < size, m.data.getD i 0 = byteAt i

/-! ### The pushed node -/

/-- A send call pushes its message. -/
theorem act_push {s t : GlueState} {call : SendCall} {junk : Junk} {node : Ptr} {e : Option Event}
    (hcall : act s (.push call junk node) = some (t, e)) :
    t.txFifo.tail = some node ∧ (t.heap node).map Cell.val = some (.msg (call.msg junk)) := by
  have hpush : pushStep s call junk node = some (t, e) := hcall
  unfold pushStep at hpush
  split at hpush
  · split_ifs at hpush
    obtain ⟨rfl, -⟩ := Prod.mk.inj (Option.some.inj hpush)
    refine ⟨push_tail _ s.txFifo node, (push_val _ s.txFifo node node).trans ?_⟩
    rw [Function.update_self]
    rfl
  · cases hpush

theorem writeQueued_iff {s t : GlueState} {call : SendCall} {junk : Junk} {node : Ptr}
    {e : Option Event} (hcall : act s (.push call junk node) = some (t, e)) {addr : BitVec 64}
    {size : ℕ} {byteAt : ℕ → Byte} :
    WriteQueued t node addr size byteAt ↔
      (call.msg junk).op = opWriteMem ∧ (call.msg junk).addr = addr ∧
        (call.msg junk).data.length = size ∧
        ∀ i < size, (call.msg junk).data.getD i 0 = byteAt i := by
  obtain ⟨htail, hval⟩ := act_push hcall
  constructor
  · rintro ⟨-, m, hm, hrest⟩
    rw [hval] at hm
    obtain rfl : call.msg junk = m := by simpa using hm
    exact hrest
  · intro h
    exact ⟨htail, _, hval, h⟩

/-! ### The payload vector -/

theorem logicToUint_bit (w : ℕ) (buf : Mem) (i : ℕ) :
    (logicToUint w buf).getLsbD i
      = if i < w then decide (buf (w - 1 - i) = glueLevel true) else false := by
  rw [logicToUint, logicToUintFrom_bit w w le_rfl buf 0 (by simp)]
  simp

/-- The decoding of a vector reads its own values only. -/
theorem logicToUint_congr {w : ℕ} {buf buf' : Mem} (h : ∀ j < w, buf j = buf' j) :
    logicToUint w buf = logicToUint w buf' := by
  apply BitVec.eq_of_getLsbD_eq
  intro i hi
  rw [logicToUint_bit, logicToUint_bit, h (w - 1 - i) (by omega)]

/-- **The `i`-th group of eight from the right** is bits `8 i + 7` down to `8 i` of the vector. -/
theorem logicToUint_group (data : Mem) {n i : ℕ} (hi : i < n) :
    logicToUint 8 (fun j => data ((n - 1 - i) * 8 + j))
      = (logicToUint (8 * n) data).extractLsb' (8 * i) 8 := by
  apply BitVec.eq_of_getLsbD_eq
  intro b hb
  rw [logicToUint_bit, BitVec.getLsbD_extractLsb', logicToUint_bit, if_pos hb,
    if_pos (show 8 * i + b < 8 * n by omega), decide_eq_true hb, Bool.true_and]
  have hindex : (n - 1 - i) * 8 + (8 - 1 - b) = 8 * n - 1 - (8 * i + b) := by omega
  rw [hindex]

/-- Byte `i` of a message that is filled byte by byte. -/
theorem getD_map_range (byteAt : ℕ → Byte) {size i : ℕ} (hi : i < size) :
    ((List.range size).map byteAt).getD i 0 = byteAt i := by
  have hlen : i < ((List.range size).map byteAt).length := by
    rw [List.length_map, List.length_range]
    exact hi
  rw [List.getD_eq_getElem _ _ hlen, List.getElem_map, List.getElem_range]

/-- **When `pcie_glue_send_write` queues the requested bytes**: with the size of the user the same
as the size of the vector, since both are read from the latter. -/
theorem sendWrite_iff {s t : GlueState} {addr data dataSize size : Mem} {junk : Junk} {node : Ptr}
    {e : Option Event}
    (hcall : act s (.push (.write addr data dataSize size) junk node) = some (t, e))
    (htotal : (logicToUint 16 dataSize).toNat = payloadWidth / 8) :
    WriteQueued t node (logicToUint 64 addr) (logicToUint 16 size).toNat
        (fun i => (logicToUint payloadWidth data).extractLsb' (8 * i) 8) ↔
      (logicToUint 16 size).toNat = payloadWidth / 8 := by
  have hdata : ((SendCall.write addr data dataSize size).msg junk).data
      = logicToBuf data (payloadWidth / 8) (payloadWidth / 8) := by
    rw [← htotal]
    rfl
  rw [writeQueued_iff hcall, hdata]
  constructor
  · rintro ⟨-, -, hlen, -⟩
    rw [logicToBuf, List.length_map, List.length_range] at hlen
    exact hlen.symm
  · intro hsize
    rw [hsize]
    refine ⟨rfl, rfl, ?_, ?_⟩
    · rw [logicToBuf, List.length_map, List.length_range]
    · intro i hi
      exact (getD_map_range _ hi).trans (logicToUint_group data hi)

/-- The logic values of an integer, as the VHDL side passes them. -/
def levels {w : ℕ} (x : BitVec w) : Mem := fun j => (uintToLogic x).getD j 0

@[simp] theorem logicToUint_levels {w : ℕ} (x : BitVec w) : logicToUint w (levels x) = x :=
  logicToUint_uintToLogic x

/-- A write call before any other, for `size` bytes of a payload of `n` at `0x1000`. -/
abbrev firstWrite (n size : BitVec 16) : Option (GlueState × Option Event) :=
  act (GlueState.init plainDev (fun _ => 0) [])
    (.push (.write (levels (0x1000 : BitVec 64)) (levels (0x1234 : BitVec 1024)) (levels n)
      (levels size)) ⟨0, 0⟩ 0)

theorem sendWrite_whole :
    ∃ t e, firstWrite 128 128 = some (t, e) ∧
      WriteQueued t 0 (logicToUint 64 (levels (0x1000 : BitVec 64)))
        (logicToUint 16 (levels (128 : BitVec 16))).toNat
        (fun i =>
          (logicToUint payloadWidth (levels (0x1234 : BitVec 1024))).extractLsb' (8 * i) 8) := by
  have hsome : (firstWrite 128 128).isSome = true := rfl
  obtain ⟨⟨t, e⟩, hcall⟩ := Option.isSome_iff_exists.mp hsome
  have htotal : (logicToUint 16 (levels (128 : BitVec 16))).toNat = payloadWidth / 8 := by
    rw [logicToUint_levels]
    rfl
  exact ⟨t, e, hcall, (sendWrite_iff hcall htotal).mpr htotal⟩

/-- **A write of 8 bytes** is queued with the 128 of the payload. -/
theorem sendWrite_eight :
    ∃ t e, firstWrite 128 8 = some (t, e) ∧ ∀ byteAt,
      ¬ WriteQueued t 0 (logicToUint 64 (levels (0x1000 : BitVec 64))) 8 byteAt := by
  have hsome : (firstWrite 128 8).isSome = true := rfl
  obtain ⟨⟨t, e⟩, hcall⟩ := Option.isSome_iff_exists.mp hsome
  refine ⟨t, e, hcall, ?_⟩
  intro byteAt hqueued
  obtain ⟨-, -, hlen, -⟩ := (writeQueued_iff hcall).mp hqueued
  have hpayload : (logicToBuf (levels (0x1234 : BitVec 1024))
      (logicToUint 16 (levels (128 : BitVec 16))).toNat
      (logicToUint 16 (levels (128 : BitVec 16))).toNat).length = 8 := hlen
  rw [logicToBuf, List.length_map, List.length_range, logicToUint_levels] at hpayload
  exact absurd hpayload (by decide)

/-! ### The array of bytes -/

/-- The values that `logic_to_uint8` reads at an offset. -/
def logicToUint8Reads (off : ℕ) : List ℕ := (List.range 8).map (off + ·)

/-- The values that `pcie_glue_send_write_buf` reads of its array. -/
def sendWriteBufReads (size : ℕ) : List ℕ := (List.range size).flatMap logicToUint8Reads

theorem mem_sendWriteBufReads {size k : ℕ} :
    k ∈ sendWriteBufReads size ↔ ∃ i < size, i ≤ k ∧ k < i + 8 := by
  simp only [sendWriteBufReads, logicToUint8Reads, List.mem_flatMap, List.mem_map, List.mem_range]
  constructor
  · rintro ⟨i, hi, j, hj, rfl⟩
    exact ⟨i, hi, by omega, by omega⟩
  · rintro ⟨i, hi, hlo, hhi⟩
    exact ⟨i, hi, k - i, by omega, by omega⟩

/-- **The message depends on the listed values only.** -/
theorem writeBuf_congr (junk : Junk) (addr dataSize : Mem) {buf buf' : Mem}
    (h : ∀ k ∈ sendWriteBufReads (logicToUint 16 dataSize).toNat, buf k = buf' k) :
    (SendCall.writeBuf addr buf dataSize).msg junk
      = (SendCall.writeBuf addr buf' dataSize).msg junk := by
  have hdata : ∀ i ∈ List.range (logicToUint 16 dataSize).toNat,
      (logicToUint 8 fun j => buf (i + j)) = logicToUint 8 fun j => buf' (i + j) := by
    intro i hi
    apply logicToUint_congr
    intro j hj
    exact h _ (mem_sendWriteBufReads.mpr ⟨i, List.mem_range.mp hi, by omega, by omega⟩)
  simp only [SendCall.msg, List.map_congr_left hdata]

/-- None of them is behind the elements that are to be written. -/
theorem sendWriteBufReads_lt {size k : ℕ} (hk : k ∈ sendWriteBufReads size) : k < 8 * size := by
  obtain ⟨i, hi, -, hhi⟩ := mem_sendWriteBufReads.mp hk
  omega

/-- Going down by sevens does not change the value, where one such step does not. -/
theorem iff_down_by_sevens {B : ℕ → Prop} {n : ℕ}
    (hstep : ∀ k, 8 ≤ k → k < n → (B k ↔ B (k - 7))) {m : ℕ} (hm : 0 < m) (c : ℕ)
    (hn : m + 7 * c < n) : B m ↔ B (m + 7 * c) := by
  induction c with
  | zero => exact Iff.rfl
  | succ c ih =>
    have hdown := hstep (m + 7 * (c + 1)) (by omega) hn
    have hprev : m + 7 * (c + 1) - 7 = m + 7 * c := by omega
    rw [hdown, hprev]
    exact ih (by omega)

/-- **When a stride of one value reads like a stride of eight**: with a period of 7 from the second
value on. -/
theorem strideOne_iff (B : ℕ → Prop) (n : ℕ) :
    (∀ i < n, ∀ j < 8, (B (i + j) ↔ B (8 * i + j))) ↔
      ∀ k, 8 ≤ k → k < 8 * n → (B k ↔ B (k - 7)) := by
  constructor
  · intro hread k
    -- the last value of an element needs the value seven before its counterpart
    induction k using Nat.strong_induction_on with
    | _ k ih =>
      intro hlo hhi
      have hk : k = 8 * (k / 8) + k % 8 := (Nat.div_add_mod k 8).symm
      have hhere := hread (k / 8) (by omega) (k % 8) (by omega)
      rw [← hk] at hhere
      rw [← hhere]
      by_cases hlast : k % 8 = 7
      · have hfirst := hread (k / 8) (by omega) 0 (by omega)
        have hprev : 8 * (k / 8) + 0 = k - 7 := by omega
        rw [hprev] at hfirst
        rw [← hfirst, hlast]
        exact ih (k / 8 + 7) (by omega) (by omega) (by omega)
      · have hbefore := hread (k / 8 - 1) (by omega) (k % 8 + 1) (by omega)
        have hprev : 8 * (k / 8 - 1) + (k % 8 + 1) = k - 7 := by omega
        have hsame : k / 8 - 1 + (k % 8 + 1) = k / 8 + k % 8 := by omega
        rw [hprev, hsame] at hbefore
        exact hbefore
  · intro hperiod i hi j hj
    by_cases h0 : i = 0
    · subst h0
      rw [Nat.mul_zero]
    · have hdown := iff_down_by_sevens hperiod (m := i + j) (by omega) i (by omega)
      have hsum : i + j + 7 * i = 8 * i + j := by omega
      rw [hsum] at hdown
      exact hdown

/-- A byte read at another place is the same exactly if its bits are. -/
theorem logicToUint8_eq_iff (buf : Mem) (p q : ℕ) :
    (logicToUint 8 fun j => buf (p + j)) = (logicToUint 8 fun j => buf (q + j)) ↔
      ∀ j < 8, (buf (p + j) = glueLevel true ↔ buf (q + j) = glueLevel true) := by
  constructor
  · intro heq j hj
    have hbit := congrArg (fun x => x.getLsbD (8 - 1 - j)) heq
    simp only [logicToUint_bit, show 8 - 1 - j < 8 by omega, if_true,
      show 8 - 1 - (8 - 1 - j) = j by omega] at hbit
    exact decide_eq_decide.mp hbit
  · intro hbits
    apply BitVec.eq_of_getLsbD_eq
    intro b hb
    rw [logicToUint_bit, logicToUint_bit, if_pos hb, if_pos hb]
    exact decide_eq_decide.mpr (hbits (8 - 1 - b) (by omega))

/-- **When `pcie_glue_send_write_buf` queues the elements of its array**: when the values of these
elements, from the second value on, have a period of 7.  It never reads behind them. -/
theorem sendWriteBuf_iff {s t : GlueState} {addr buf dataSize : Mem} {junk : Junk} {node : Ptr}
    {e : Option Event}
    (hcall : act s (.push (.writeBuf addr buf dataSize) junk node) = some (t, e)) :
    let size := (logicToUint 16 dataSize).toNat
    (WriteQueued t node (logicToUint 64 addr) size
          (fun i => logicToUint 8 fun j => buf (8 * i + j)) ∧
        ∀ k ∈ sendWriteBufReads size, k < 8 * size) ↔
      ∀ k, 8 ≤ k → k < 8 * size → (buf k = glueLevel true ↔ buf (k - 7) = glueLevel true) := by
  intro size
  have hdata : ((SendCall.writeBuf addr buf dataSize).msg junk).data
      = (List.range size).map fun i => logicToUint 8 fun j => buf (i + j) := rfl
  rw [and_iff_left fun k => sendWriteBufReads_lt, writeQueued_iff hcall, hdata,
    ← strideOne_iff (fun k => buf k = glueLevel true) size]
  constructor
  · rintro ⟨-, -, -, hbytes⟩ i hi
    exact (logicToUint8_eq_iff buf i (8 * i)).mp ((getD_map_range _ hi).symm.trans (hbytes i hi))
  · intro hstride
    refine ⟨rfl, rfl, ?_, ?_⟩
    · rw [List.length_map, List.length_range]
    · intro i hi
      exact (getD_map_range _ hi).trans
        ((logicToUint8_eq_iff buf i (8 * i)).mpr (hstride i hi))

/-- A call of `pcie_glue_send_write_buf` before any other, for bytes at `0x1000`. -/
abbrev firstWriteBuf (bytes : List Byte) : Option (GlueState × Option Event) :=
  act (GlueState.init plainDev (fun _ => 0) [])
    (.push (.writeBuf (levels (0x1000 : BitVec 64))
      (fun k => levels (bytes.getD (k / 8) 0) (k % 8)) (levels (BitVec.ofNat 16 bytes.length)))
      ⟨0, 0⟩ 0)

theorem sendWriteBuf_zeros :
    ∃ t e, firstWriteBuf [0, 0] = some (t, e) ∧
      WriteQueued t 0 (logicToUint 64 (levels (0x1000 : BitVec 64)))
        (logicToUint 16 (levels (2 : BitVec 16))).toNat
        (fun i => logicToUint 8 fun j =>
          levels (([0, 0] : List Byte).getD ((8 * i + j) / 8) 0) ((8 * i + j) % 8)) := by
  have hsome : (firstWriteBuf [0, 0]).isSome = true := rfl
  obtain ⟨⟨t, e⟩, hcall⟩ := Option.isSome_iff_exists.mp hsome
  have hsize : (logicToUint 16 (levels (BitVec.ofNat 16 ([0, 0] : List Byte).length))).toNat = 2 :=
    by rw [logicToUint_levels]; rfl
  refine ⟨t, e, hcall, ((sendWriteBuf_iff hcall).mpr ?_).1⟩
  rw [hsize]
  decide

/-- **Of two bytes, the second is read one value behind the first**: a 1 and a 0 become a 1 and a
2. -/
theorem sendWriteBuf_second :
    let buf : Mem := fun k => levels (([1, 0] : List Byte).getD (k / 8) 0) (k % 8)
    (logicToUint 8 fun j => buf (8 * 1 + j)) = 0 ∧
      ∃ t e m, firstWriteBuf [1, 0] = some (t, e) ∧
        (t.heap 0).map Cell.val = some (.msg m) ∧ m.data = [1, 2] :=
  ⟨by decide, _, _, _, rfl, rfl, by decide⟩

end VPcie.Glue
