import VPcie.Lib.Runs
import VPcie.Net.Message

/-!
# Sending on the socket

`send` on a TCP socket may take any number of the bytes it is given, or fail.  `pcie_net_send_buf`
calls it once and only tells whether all bytes were taken, so a frame may be cut, and it is for the
caller to send nothing behind it.

A connection keeps the record of the sends made on it.

* `synchronized_send` — one more send keeps the stream in step exactly if it writes nothing once a
  send has been cut;
* `run_synchronized_iff` — the same for the runs of a program that sends;
* `FailStop` — a socket that takes nothing once a send has been cut: `FailStop.silent` and
  `failStop_of_sends` say that this is enough for such runs, and when it is necessary.
-/

namespace VPcie.Net

open VPcie.Lib

/-! ### The connection -/

/-- A call of `send`: its bytes, and what it returned; `none` is -1. -/
structure Sent where
  buf : List Byte
  ret : Option ℕ
deriving DecidableEq, Repr

/-- The bytes a call has written to the connection. -/
def Sent.written (x : Sent) : List Byte := x.buf.take (x.ret.getD 0)

/-- It took all bytes. -/
def Sent.Whole (x : Sent) : Prop := x.ret = some x.buf.length

instance (x : Sent) : Decidable x.Whole := inferInstanceAs (Decidable (_ = _))

/-- The sending end of a connection: what the calls of `send` will return, by their number and size,
and the calls so far. -/
structure Conn where
  ret : ℕ → (size : ℕ) → Option (Fin (size + 1))
  log : List Sent

/-- What the next `send` of so many bytes returns. -/
def Conn.next (c : Conn) (size : ℕ) : Option ℕ := (c.ret c.log.length size).map Fin.val

/-- `send(net->fd, buf, size, 0)`. -/
def Conn.send (c : Conn) (buf : List Byte) : Conn × Int :=
  ({ c with log := c.log ++ [⟨buf, c.next buf.length⟩] },
    match c.next buf.length with
    | some n => n
    | none => -1)

/-- `pcie_net_send_buf`. -/
def pcieNetSendBuf (c : Conn) (buf : List Byte) : Conn × Int :=
  let n := c.send buf
  if n.2 ≠ buf.length then (n.1, -1) else (n.1, 0)

/-- The frame of a message, as `WireMsg.encode`. -/
def Content.encode (m : Content) : List Byte :=
  leBytes 2 (dataOffset + m.data.length) ++
    (fields m.op m.bar m.width m.addr m.data.length ++ m.data)

/-- `pcie_net_send_msg`. -/
def pcieNetSendMsg (c : Conn) (m : Content) : Conn × Int := pcieNetSendBuf c m.encode

/-- `pcie_net_send_reply`. -/
def pcieNetSendReply (c : Conn) (r : PcieNetReply) : Conn × Int := pcieNetSendBuf c r.encode

theorem pcieNetSendBuf_fst (c : Conn) (buf : List Byte) :
    (pcieNetSendBuf c buf).1 = (c.send buf).1 := by
  show (if (c.send buf).2 ≠ buf.length then ((c.send buf).1, (-1 : Int)) else (_, 0)).1 = _
  split_ifs
  · rfl
  · rfl

/-- It tells whether all bytes were taken. -/
theorem pcieNetSendBuf_snd (c : Conn) (buf : List Byte) :
    (pcieNetSendBuf c buf).2 = -1 ↔ c.next buf.length ≠ some buf.length := by
  have hret : (c.send buf).2 = buf.length ↔ c.next buf.length = some buf.length := by
    rw [Conn.send]
    cases c.next buf.length with
    | none => exact iff_of_false (fun heq => nomatch heq) nofun
    | some n => simp
  show (if (c.send buf).2 ≠ buf.length then ((c.send buf).1, (-1 : Int)) else (_, 0)).2 = -1 ↔ _
  by_cases hall : (c.send buf).2 ≠ buf.length
  · rw [if_pos hall]
    exact iff_of_true rfl (mt hret.mpr hall)
  · rw [if_neg hall]
    have hne : (0 : Int) ≠ -1 := by decide
    exact iff_of_false hne (fun hshort => hshort (hret.mp (not_not.mp hall)))

theorem Content.encode_length (m : Content) : m.encode.length = dataOffset + m.data.length := by
  simp only [Content.encode, List.length_append, leBytes_length, fields_length, dataOffset]
  omega

theorem Content.encode_ne_nil (m : Content) : m.encode ≠ [] := by
  rw [← List.length_pos_iff, m.encode_length]
  exact Nat.add_pos_left (by decide) _

theorem PcieNetReply.encode_ne_nil (r : PcieNetReply) : r.encode ≠ [] := by
  rw [← List.length_pos_iff, r.encode_length]
  decide

/-! ### A stream in step -/

/-- The bytes on the connection. -/
def Conn.written (c : Conn) : List Byte := c.log.flatMap Sent.written

/-- The frames given to `send`, one after the other. -/
def Conn.frames (c : Conn) : List Byte := c.log.flatMap Sent.buf

/-- Some send was short, or failed. -/
def Conn.Cut (c : Conn) : Prop := ∃ x ∈ c.log, ¬ x.Whole

instance (c : Conn) : Decidable c.Cut := inferInstanceAs (Decidable (∃ x ∈ c.log, ¬ x.Whole))

/-- The bytes on the connection are a prefix of the frames, and after a send that was short or
failed no byte of a later frame is written. -/
structure Conn.Synchronized (c : Conn) : Prop where
  prefixed : c.written <+: c.frames
  quiet : ∀ pre x post, c.log = pre ++ x :: post → ¬ x.Whole → post.flatMap Sent.written = []

section Send

variable (c : Conn) (buf : List Byte)

@[simp] theorem written_send : (c.send buf).1.written
    = c.written ++ buf.take ((c.next buf.length).getD 0) := by
  simp [Conn.send, Conn.written, Sent.written]

@[simp] theorem frames_send : (c.send buf).1.frames = c.frames ++ buf := by
  simp [Conn.send, Conn.frames]

/-- A call writes no more than its bytes. -/
theorem Sent.written_length_le (x : Sent) : x.written.length ≤ x.buf.length := by
  rw [Sent.written, List.length_take]
  exact Nat.min_le_right _ _

theorem written_length_le : c.written.length ≤ c.frames.length := by
  unfold Conn.written Conn.frames
  induction c.log with
  | nil => exact le_rfl
  | cons x log ih =>
    rw [List.flatMap_cons, List.flatMap_cons, List.length_append, List.length_append]
    exact Nat.add_le_add x.written_length_le ih

/-- As long as every send took all bytes, the connection has the frames. -/
theorem written_of_whole (h : ¬ c.Cut) : c.written = c.frames := by
  have hwhole : ∀ x ∈ c.log, x.written = x.buf := by
    intro x hx
    have hret : x.Whole := by
      by_contra hcut
      exact h ⟨x, hx, hcut⟩
    rw [Sent.written, hret, Option.getD_some, List.take_length]
  rw [Conn.written, Conn.frames, List.flatMap_def, List.flatMap_def, List.map_congr_left hwhole]

theorem synchronized_nil (ret : ℕ → (size : ℕ) → Option (Fin (size + 1))) :
    Conn.Synchronized ⟨ret, []⟩ where
  prefixed := List.prefix_rfl
  quiet _ _ _ heq := absurd heq (by simp)

/-- What the quiet part says of a connection with one more send. -/
theorem quiet_send (hquiet : ∀ pre x post, c.log = pre ++ x :: post → ¬ x.Whole →
      post.flatMap Sent.written = [])
    (hlast : c.Cut → buf.take ((c.next buf.length).getD 0) = []) :
    ∀ pre x post, (c.send buf).1.log = pre ++ x :: post → ¬ x.Whole →
      post.flatMap Sent.written = [] := by
  intro pre x post heq hcut
  rcases List.eq_nil_or_concat post with rfl | ⟨post', y, rfl⟩
  · rfl
  · rw [List.concat_eq_append, ← List.cons_append, ← List.append_assoc] at heq
    obtain ⟨hlog, hy⟩ := List.append_inj' heq rfl
    have hmem : x ∈ c.log := hlog ▸ List.mem_append_right _ List.mem_cons_self
    rw [List.concat_eq_append, List.flatMap_append, hquiet pre x post' hlog hcut,
      ← List.singleton_inj.mp hy, List.nil_append, List.flatMap_singleton]
    exact hlast ⟨x, hmem, hcut⟩

/-- **One more send keeps the stream in step exactly if it writes nothing once one was cut.** -/
theorem synchronized_send (hbuf : buf ≠ []) : (c.send buf).1.Synchronized ↔
    c.Synchronized ∧ (c.Cut → (c.next buf.length).getD 0 = 0) := by
  constructor
  · rintro ⟨hpre, hquiet⟩
    have hbefore : ∀ pre x post, c.log = pre ++ x :: post → ¬ x.Whole →
        post.flatMap Sent.written = [] ∧ buf.take ((c.next buf.length).getD 0) = [] := by
      intro pre x post hlog hcut
      have hnil := hquiet pre x (post ++ [⟨buf, c.next buf.length⟩])
        (by rw [Conn.send, hlog, List.append_assoc, List.cons_append]) hcut
      rw [List.flatMap_append, List.flatMap_singleton] at hnil
      exact List.append_eq_nil_iff.mp hnil
    have hlast : c.Cut → buf.take ((c.next buf.length).getD 0) = [] := by
      rintro ⟨x, hx, hcut⟩
      obtain ⟨pre, post, hlog⟩ := List.append_of_mem hx
      exact (hbefore pre x post hlog hcut).2
    refine ⟨⟨?_, fun pre x post hlog hcut => (hbefore pre x post hlog hcut).1⟩, ?_⟩
    · by_cases hcut : c.Cut
      · rw [written_send, frames_send, hlast hcut, List.append_nil] at hpre
        -- the bytes so far are no more than the frames so far
        exact List.prefix_of_prefix_length_le hpre (List.prefix_append _ _)
          (written_length_le c)
      · exact ⟨[], by rw [List.append_nil, written_of_whole c hcut]⟩
    · intro hcut
      rcases List.take_eq_nil_iff.mp (hlast hcut) with hzero | hnil
      · exact hzero
      · exact absurd hnil hbuf
  · rintro ⟨⟨hpre, hquiet⟩, hlast⟩
    have htake : c.Cut → buf.take ((c.next buf.length).getD 0) = [] := by
      intro hcut
      rw [hlast hcut, List.take_zero]
    refine ⟨?_, quiet_send c buf hquiet htake⟩
    rw [written_send, frames_send]
    by_cases hcut : c.Cut
    · rw [htake hcut, List.append_nil]
      exact hpre.trans (List.prefix_append _ _)
    · rw [written_of_whole c hcut]
      exact (List.prefix_append_right_inj _).mpr (List.take_prefix _ _)

end Send

/-! ### Programs that send -/

/-- A step of a program, as far as the connection goes: it sends a frame, or nothing. -/
def Conn.sendFrame (c : Conn) : Option (List Byte) → Conn
  | none => c
  | some f => (c.send f).1

/-- Once a send has been cut, the next one of the step writes nothing. -/
def Conn.SilentOnceCut (c : Conn) (frame : Option (List Byte)) : Prop :=
  ∀ f ∈ frame, c.Cut → (c.next f.length).getD 0 = 0

/-- Some message was cut; a message is longer than a reply. -/
def Conn.CutMessage (c : Conn) : Prop := ∃ x ∈ c.log, ¬ x.Whole ∧ dataOffset ≤ x.buf.length

/-- The same, once the send of a message has been cut. -/
def Conn.SilentOnceMessageCut (c : Conn) (frame : Option (List Byte)) : Prop :=
  ∀ f ∈ frame, c.CutMessage → (c.next f.length).getD 0 = 0

theorem Conn.CutMessage.cut {c : Conn} (h : c.CutMessage) : c.Cut := by
  obtain ⟨x, hx, hcut, -⟩ := h
  exact ⟨x, hx, hcut⟩

theorem Conn.CutMessage.send {c : Conn} (h : c.CutMessage) (f : List Byte) :
    (c.send f).1.CutMessage := by
  obtain ⟨x, hx, hcut⟩ := h
  exact ⟨x, List.mem_append_left _ hx, hcut⟩

/-- A send that adds the first cut call was not whole itself. -/
theorem cut_send {c : Conn} {f : List Byte} (h : (c.send f).1.Cut) :
    c.Cut ∨ c.next f.length ≠ some f.length := by
  obtain ⟨x, hx, hcut⟩ := h
  rcases List.mem_append.mp hx with hx | hx
  · exact Or.inl ⟨x, hx, hcut⟩
  · rw [List.mem_singleton.mp hx] at hcut
    exact Or.inr hcut

theorem cutMessage_send {c : Conn} {f : List Byte} (hf : dataOffset ≤ f.length)
    (h : (c.send f).1.Cut) : c.Cut ∨ (c.send f).1.CutMessage := by
  refine (cut_send h).imp_right fun hcut => ?_
  exact ⟨⟨f, c.next f.length⟩, List.mem_append_right _ List.mem_cons_self, hcut, hf⟩

theorem synchronized_sendFrame (c : Conn) {frame : Option (List Byte)} (hne : ∀ f ∈ frame, f ≠ []) :
    (c.sendFrame frame).Synchronized ↔ c.Synchronized ∧ c.SilentOnceCut frame := by
  cases frame with
  | none => exact (and_iff_left fun f hf => nomatch hf).symm
  | some f =>
    show (c.send f).1.Synchronized ↔ _
    rw [synchronized_send c f (hne f rfl)]
    refine and_congr_right fun _ => ?_
    constructor
    · rintro hsilent g hg
      rw [Option.mem_some.mp hg] at hsilent
      exact hsilent
    · intro hsilent
      exact hsilent f rfl

/-- **The stream is in step at the end of a run exactly if every send after a cut one writes
nothing.** -/
theorem run_synchronized_iff {σ α : Type*} {step : σ → α → Option σ} {conn : σ → Conn}
    {frame : σ → α → Option (List Byte)} (hne : ∀ s a, ∀ f ∈ frame s a, f ≠ [])
    (hconn : ∀ s a t, step s a = some t → conn t = (conn s).sendFrame (frame s a)) {s t : σ}
    {as : List α} (hs : (conn s).Synchronized) (hrun : run step s as = some t) :
    (conn t).Synchronized ↔ EachStep step (fun s a => (conn s).SilentOnceCut (frame s a)) s as := by
  have hstep : ∀ s a t, True → True → step s a = some t →
      ((conn t).Synchronized ↔ (conn s).Synchronized ∧ (conn s).SilentOnceCut (frame s a)) := by
    intro s a t _ _ hstep
    rw [hconn s a t hstep, synchronized_sendFrame _ (hne s a)]
  rw [run_iff_eachStep (fun _ => True) (fun s => (conn s).Synchronized) (fun _ _ _ _ _ => trivial)
    hstep trivial (eachStep_of_forall (fun _ _ => trivial) s as) hrun]
  exact and_iff_right hs

/-! ### A socket that fails for good -/

/-- Once a call has been short or has failed, no later one takes a byte; `P` tells the sizes of the
frames. -/
def FailStop (P : ℕ → Prop) (ret : ℕ → (size : ℕ) → Option (Fin (size + 1))) : Prop :=
  ∀ i j a b, i < j → P a → P b → (ret i a).map Fin.val ≠ some a →
    ((ret j b).map Fin.val).getD 0 = 0

/-- The record is of frames of the sizes `P`, and of what `ret` says. -/
structure Conn.Recorded (P : ℕ → Prop) (ret : ℕ → (size : ℕ) → Option (Fin (size + 1)))
    (c : Conn) : Prop where
  behaves : c.ret = ret
  logged : ∀ (i : ℕ) (x : Sent), c.log[i]? = some x →
    P x.buf.length ∧ x.ret = (ret i x.buf.length).map Fin.val

section FailStop

variable {P : ℕ → Prop} {ret : ℕ → (size : ℕ) → Option (Fin (size + 1))} {c : Conn}

theorem recorded_nil (P : ℕ → Prop) (ret : ℕ → (size : ℕ) → Option (Fin (size + 1))) :
    Conn.Recorded P ret ⟨ret, []⟩ :=
  ⟨rfl, fun _ _ hx => absurd hx (by simp)⟩

theorem Conn.Recorded.send (h : c.Recorded P ret) {f : List Byte} (hf : P f.length) :
    (c.send f).1.Recorded P ret := by
  refine ⟨h.behaves, ?_⟩
  intro i x hx
  show P x.buf.length ∧ _
  rw [Conn.send, List.getElem?_append] at hx
  split_ifs at hx with hi
  · exact h.logged i x hx
  · obtain ⟨hlast, rfl⟩ := List.getElem?_eq_some_iff.mp hx
    have hlen : i = c.log.length := by
      rw [List.length_singleton] at hlast
      omega
    rw [List.getElem_singleton, hlen, ← h.behaves]
    exact ⟨hf, rfl⟩

theorem Conn.Recorded.sendFrame (h : c.Recorded P ret) {frame : Option (List Byte)}
    (hf : ∀ f ∈ frame, P f.length) : (c.sendFrame frame).Recorded P ret := by
  cases frame with
  | none => exact h
  | some f => exact h.send (hf f rfl)

/-- **Such a socket keeps every stream in step.** -/
theorem FailStop.silent (hret : FailStop P ret) (h : c.Recorded P ret)
    {frame : Option (List Byte)} (hf : ∀ f ∈ frame, P f.length) : c.SilentOnceCut frame := by
  rintro f hfr ⟨x, hx, hcut⟩
  obtain ⟨i, hi, hget⟩ := List.getElem_of_mem hx
  obtain ⟨hP, hxret⟩ := h.logged i x (List.getElem?_eq_some_iff.mpr ⟨hi, hget⟩)
  rw [Conn.next, h.behaves]
  refine hret i c.log.length _ _ hi hP (hf f hfr) ?_
  rw [← hxret]
  exact hcut

/-- Sends one after the other, whatever they return. -/
def Conn.sendAll (c : Conn) (fs : List (List Byte)) : Conn := fs.foldl (fun c f => (c.send f).1) c

theorem sendAll_append (c : Conn) (fs gs : List (List Byte)) :
    c.sendAll (fs ++ gs) = (c.sendAll fs).sendAll gs := List.foldl_append

theorem sendAll_length (c : Conn) (fs : List (List Byte)) :
    (c.sendAll fs).log.length = c.log.length + fs.length := by
  induction fs generalizing c with
  | nil => rfl
  | cons f fs ih =>
    show ((c.send f).1.sendAll fs).log.length = _
    rw [ih, Conn.send, List.length_append, List.length_singleton, List.length_cons]
    omega

theorem Conn.Recorded.sendAll (h : c.Recorded P ret) {fs : List (List Byte)}
    (hfs : ∀ f ∈ fs, P f.length) : (c.sendAll fs).Recorded P ret := by
  induction fs generalizing c with
  | nil => exact h
  | cons f fs ih =>
    obtain ⟨hf, hfs⟩ := List.forall_mem_cons.mp hfs
    exact ih (h.send hf) hfs

/-- **No other socket does** for a program that sends on whatever the calls return: if, for any
sizes, frames of these sizes can be sent and the stream is then in step, the socket fails for
good. -/
theorem failStop_of_sends (hpos : ∀ n, P n → 0 < n)
    (h : ∀ sizes : List ℕ, (∀ n ∈ sizes, P n) →
      ∃ fs : List (List Byte), fs.map List.length = sizes ∧
        (Conn.sendAll ⟨ret, []⟩ fs).Synchronized) : FailStop P ret := by
  intro i j a b hij ha hb hcut
  -- so many frames of the one size, and then one of the other
  have hsizes : ∀ n ∈ List.replicate j a ++ [b], P n := by
    intro n hn
    rcases List.mem_append.mp hn with hn | hn
    · rw [List.eq_of_mem_replicate hn]
      exact ha
    · rw [List.mem_singleton.mp hn]
      exact hb
  obtain ⟨fs, hfs, hsync⟩ := h _ hsizes
  obtain ⟨first, last, rfl, hfirst, hlast⟩ := List.map_eq_append_iff.mp hfs
  obtain ⟨f, rfl, hf⟩ := List.map_eq_singleton_iff.mp hlast
  have hall : ∀ g ∈ first, g.length = a := by
    intro g hg
    refine List.eq_of_mem_replicate (n := j) ?_
    rw [← hfirst]
    exact List.mem_map_of_mem hg
  have hlength : first.length = j := by
    have hmap := congrArg List.length hfirst
    rwa [List.length_map, List.length_replicate] at hmap
  have hrecorded := (recorded_nil (fun n => n = a) ret).sendAll hall
  have hlog : (Conn.sendAll ⟨ret, []⟩ first).log.length = j := by
    rw [sendAll_length, hlength]
    exact Nat.zero_add j
  have hne : f ≠ [] := List.length_pos_iff.mp (hf ▸ hpos b hb)
  rw [sendAll_append] at hsync
  have hsilent := ((synchronized_send _ f hne).mp hsync).2
  rw [Conn.next, hrecorded.behaves, hlog, hf] at hsilent
  refine hsilent ?_
  have hi : i < (Conn.sendAll ⟨ret, []⟩ first).log.length := by
    rw [hlog]
    exact hij
  obtain ⟨hsize, hxret⟩ := hrecorded.logged i _ (List.getElem?_eq_getElem hi)
  refine ⟨_, List.getElem_mem hi, ?_⟩
  rw [Sent.Whole, hxret, hsize]
  exact hcut

end FailStop

end VPcie.Net
