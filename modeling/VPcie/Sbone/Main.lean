import VPcie.Vhdl.Endpoint

/-!
# The sbone device

The entities of `sbone/d` and their composition in `main.vhdl`: two `reg_wo`, two `reg_rw`, a
`reg_wo_msi` and the multiplexer of the replies, behind an endpoint whose `req_ack` is tied to
`'1'`.

* `Dev` — the registers, `Sig` — all signals;
* `Dev.edge` — what a rising edge leaves, and `settle_edge` — this is what the delta cycles compute;
* `System.clock` — an edge for endpoint and device together.
-/

namespace VPcie.Sbone

open VPcie.Lib VPcie.Glue
open VPcie.Vhdl (Req Sel Endpoint EndpointIn GlueCall)

/-! ### Signals -/

/-- The clocked signal of a `reg_wo`. -/
structure RegWo where
  data : BitVec 64
deriving DecidableEq, Repr

/-- The clocked signals of a `reg_rw`. -/
structure RegRw where
  data : BitVec 64
  repEn : Bool
  repData : BitVec 64
deriving DecidableEq, Repr

/-- The clocked signals of a `reg_wo_msi`. -/
structure RegWoMsi where
  data : BitVec 64
  msiEn : Bool
deriving DecidableEq, Repr

/-- The outputs of `rep_mux`. -/
structure RepMux where
  repEn : Bool
  repData : BitVec 64
deriving DecidableEq, Repr

/-- The signals that keep a value from one edge to the next. -/
structure Dev where
  wo0 : RegWo
  wo1 : RegWo
  rw0 : RegRw
  rw1 : RegRw
  msi : RegWoMsi
  mux : RepMux
deriving DecidableEq, Repr

/-- All signals. -/
structure Sig where
  clk : Bool
  req : Req
  dev : Dev
  wo0Sel : Sel
  wo1Sel : Sel
  rw0Sel : Sel
  rw1Sel : Sel
  msiSel : Sel

/-! ### The logic of the processes -/

/-- `bar_addr_cmp`; `GENERIC_BAR` is 1 in all instances. -/
def barAddrCmp (addr : ℕ) (req : BitVec 3 × BitVec 64) : Bool :=
  decide (req.1.toNat = 1 ∧ req.2.toNat = addr)

/-- `is_en` of a `reg_wo` or a `reg_wo_msi`. -/
def woEn (r : Bool × Bool × Bool) : Bool := r.1 && r.2.1 && r.2.2

/-- `is_en` of a `reg_rw`. -/
def rwEn (r : Bool × Bool) : Bool := r.1 && r.2

/-- `reg_wo` on a rising edge. -/
def RegWo.clock (r : RegWo) (isEn : Bool) (reqData : BitVec 64) : RegWo :=
  if isEn then ⟨reqData⟩ else r

/-- `reg_rw` on a rising edge. -/
def RegRw.clock (r : RegRw) (isEn reqWr : Bool) (reqData : BitVec 64) : RegRw :=
  let r := { r with repEn := false }
  if isEn then
    if reqWr then { r with data := reqData, repData := 0 }
    else { r with repData := r.data, repEn := true }
  else r

/-- `reg_wo_msi` on a rising edge. -/
def RegWoMsi.clock (r : RegWoMsi) (isEn : Bool) (reqData : BitVec 64) : RegWoMsi :=
  if isEn then ⟨reqData, true⟩ else ⟨r.data, false⟩

/-- `rep_mux` on a rising edge. -/
def repMuxClock (rw0 rw1 : RegRw) : RepMux where
  repEn := rw0.repEn || rw1.repEn
  repData :=
    match rw1.repEn, rw0.repEn with
    | false, true => rw0.repData
    | true, false => rw1.repData
    | _, _ => BitVec.allOnes 64

/-! ### The processes -/

/-- What `bar_addr_cmp` is sensitive to. -/
def Sig.barAddr (s : Sig) : BitVec 3 × BitVec 64 := (s.req.bar, s.req.addr)

/-- What `is_en` of a `reg_wo` with this `is_eq` is sensitive to. -/
def Sig.woIn (sel : Sel) (s : Sig) : Bool × Bool × Bool := (sel.isEq, s.req.en, s.req.wr)

/-- What `is_en` of a `reg_rw` with this `is_eq` is sensitive to. -/
def Sig.rwIn (sel : Sel) (s : Sig) : Bool × Bool := (sel.isEq, s.req.en)

/-- The processes of `main.vhdl`; the endpoint as the one that drives the request ports. -/
def processes (drive : Sig → Req) : List (Process Sig) :=
  [clocked Sig.clk ⟨Sig.req, fun s v => { s with req := v }, fun _ => rfl⟩ drive,
    -- the registers and the multiplexer
    clocked Sig.clk ⟨fun s => s.dev.wo0, fun s v => { s with dev.wo0 := v }, fun _ => rfl⟩
      fun s => s.dev.wo0.clock s.wo0Sel.isEn s.req.data,
    clocked Sig.clk ⟨fun s => s.dev.wo1, fun s v => { s with dev.wo1 := v }, fun _ => rfl⟩
      fun s => s.dev.wo1.clock s.wo1Sel.isEn s.req.data,
    clocked Sig.clk ⟨fun s => s.dev.rw0, fun s v => { s with dev.rw0 := v }, fun _ => rfl⟩
      fun s => s.dev.rw0.clock s.rw0Sel.isEn s.req.wr s.req.data,
    clocked Sig.clk ⟨fun s => s.dev.rw1, fun s v => { s with dev.rw1 := v }, fun _ => rfl⟩
      fun s => s.dev.rw1.clock s.rw1Sel.isEn s.req.wr s.req.data,
    clocked Sig.clk ⟨fun s => s.dev.msi, fun s v => { s with dev.msi := v }, fun _ => rfl⟩
      fun s => s.dev.msi.clock s.msiSel.isEn s.req.data,
    clocked Sig.clk ⟨fun s => s.dev.mux, fun s v => { s with dev.mux := v }, fun _ => rfl⟩
      fun s => repMuxClock s.dev.rw0 s.dev.rw1,
    -- the comparators
    process Sig.barAddr
      ⟨fun s => s.wo0Sel.isEq, fun s v => { s with wo0Sel.isEq := v }, fun _ => rfl⟩
      fun s => barAddrCmp 0x00 s.barAddr,
    process Sig.barAddr
      ⟨fun s => s.wo1Sel.isEq, fun s v => { s with wo1Sel.isEq := v }, fun _ => rfl⟩
      fun s => barAddrCmp 0x08 s.barAddr,
    process Sig.barAddr
      ⟨fun s => s.rw0Sel.isEq, fun s v => { s with rw0Sel.isEq := v }, fun _ => rfl⟩
      fun s => barAddrCmp 0x10 s.barAddr,
    process Sig.barAddr
      ⟨fun s => s.rw1Sel.isEq, fun s v => { s with rw1Sel.isEq := v }, fun _ => rfl⟩
      fun s => barAddrCmp 0x18 s.barAddr,
    process Sig.barAddr
      ⟨fun s => s.msiSel.isEq, fun s v => { s with msiSel.isEq := v }, fun _ => rfl⟩
      fun s => barAddrCmp 0x20 s.barAddr,
    -- the enables
    process (fun s => s.woIn s.wo0Sel)
      ⟨fun s => s.wo0Sel.isEn, fun s v => { s with wo0Sel.isEn := v }, fun _ => rfl⟩
      fun s => woEn (s.woIn s.wo0Sel),
    process (fun s => s.woIn s.wo1Sel)
      ⟨fun s => s.wo1Sel.isEn, fun s v => { s with wo1Sel.isEn := v }, fun _ => rfl⟩
      fun s => woEn (s.woIn s.wo1Sel),
    process (fun s => s.rwIn s.rw0Sel)
      ⟨fun s => s.rw0Sel.isEn, fun s v => { s with rw0Sel.isEn := v }, fun _ => rfl⟩
      fun s => rwEn (s.rwIn s.rw0Sel),
    process (fun s => s.rwIn s.rw1Sel)
      ⟨fun s => s.rw1Sel.isEn, fun s v => { s with rw1Sel.isEn := v }, fun _ => rfl⟩
      fun s => rwEn (s.rwIn s.rw1Sel),
    process (fun s => s.woIn s.msiSel)
      ⟨fun s => s.msiSel.isEn, fun s v => { s with msiSel.isEn := v }, fun _ => rfl⟩
      fun s => woEn (s.woIn s.msiSel)]

/-- The selection signals of a `reg_wo` after a delta cycle. -/
def woNext (sel : Sel) (addr : ℕ) (old cur : Sig) (oldSel : Sel) : Sel where
  isEq := onEvent old.barAddr cur.barAddr (barAddrCmp addr cur.barAddr) sel.isEq
  isEn := onEvent (old.woIn oldSel) (cur.woIn sel) (woEn (cur.woIn sel)) sel.isEn

/-- Those of a `reg_rw`. -/
def rwNext (sel : Sel) (addr : ℕ) (old cur : Sig) (oldSel : Sel) : Sel where
  isEq := onEvent old.barAddr cur.barAddr (barAddrCmp addr cur.barAddr) sel.isEq
  isEn := onEvent (old.rwIn oldSel) (cur.rwIn sel) (rwEn (cur.rwIn sel)) sel.isEn

/-- One delta cycle, signal by signal. -/
def Sig.next (drive : Sig → Req) (old cur : Sig) : Sig where
  clk := cur.clk
  req := onEdge old.clk cur.clk (drive cur) cur.req
  dev :=
    { wo0 := onEdge old.clk cur.clk (cur.dev.wo0.clock cur.wo0Sel.isEn cur.req.data) cur.dev.wo0
      wo1 := onEdge old.clk cur.clk (cur.dev.wo1.clock cur.wo1Sel.isEn cur.req.data) cur.dev.wo1
      rw0 := onEdge old.clk cur.clk
        (cur.dev.rw0.clock cur.rw0Sel.isEn cur.req.wr cur.req.data) cur.dev.rw0
      rw1 := onEdge old.clk cur.clk
        (cur.dev.rw1.clock cur.rw1Sel.isEn cur.req.wr cur.req.data) cur.dev.rw1
      msi := onEdge old.clk cur.clk (cur.dev.msi.clock cur.msiSel.isEn cur.req.data) cur.dev.msi
      mux := onEdge old.clk cur.clk (repMuxClock cur.dev.rw0 cur.dev.rw1) cur.dev.mux }
  wo0Sel := woNext cur.wo0Sel 0x00 old cur old.wo0Sel
  wo1Sel := woNext cur.wo1Sel 0x08 old cur old.wo1Sel
  rw0Sel := rwNext cur.rw0Sel 0x10 old cur old.rw0Sel
  rw1Sel := rwNext cur.rw1Sel 0x18 old cur old.rw1Sel
  msiSel := woNext cur.msiSel 0x20 old cur old.msiSel

theorem delta_processes (drive : Sig → Req) (old cur : Sig) :
    delta (processes drive) old cur = Sig.next drive old cur := by
  simp only [delta, processes, List.foldl_cons, List.foldl_nil, process_apply, clocked_apply]
  rfl

/-! ### Between edges -/

/-- The request is for the register at this address. -/
def selects (addr : ℕ) (r : Req) : Bool := rwEn (barAddrCmp addr (r.bar, r.addr), r.en)

/-- It writes it. -/
def writes (addr : ℕ) (r : Req) : Bool := woEn (barAddrCmp addr (r.bar, r.addr), r.en, r.wr)

/-- All signals once the combinational ones have followed the request ports. -/
def Dev.signals (d : Dev) (req : Req) (clk : Bool) : Sig where
  clk := clk
  req := req
  dev := d
  wo0Sel := ⟨barAddrCmp 0x00 (req.bar, req.addr), writes 0x00 req⟩
  wo1Sel := ⟨barAddrCmp 0x08 (req.bar, req.addr), writes 0x08 req⟩
  rw0Sel := ⟨barAddrCmp 0x10 (req.bar, req.addr), selects 0x10 req⟩
  rw1Sel := ⟨barAddrCmp 0x18 (req.bar, req.addr), selects 0x18 req⟩
  msiSel := ⟨barAddrCmp 0x20 (req.bar, req.addr), writes 0x20 req⟩

/-- What a rising edge leaves. -/
def Dev.edge (d : Dev) (req : Req) : Dev where
  wo0 := d.wo0.clock (writes 0x00 req) req.data
  wo1 := d.wo1.clock (writes 0x08 req) req.data
  rw0 := d.rw0.clock (selects 0x10 req) req.wr req.data
  rw1 := d.rw1.clock (selects 0x18 req) req.wr req.data
  msi := d.msi.clock (writes 0x20 req) req.data
  mux := repMuxClock d.rw0 d.rw1

section Settle

variable (drive : Sig → Req) (d : Dev) (req req' : Req)

/-- In the first delta cycle after an edge the registers and the request ports have changed. -/
def Dev.latched : Sig := { d.signals req true with req := req', dev := d.edge req }

/-- Once `is_eq` has followed the new request and `is_en` not yet. -/
def woGlitch (addr : ℕ) (req req' : Req) : Sel where
  isEq := barAddrCmp addr (req'.bar, req'.addr)
  isEn := woEn (barAddrCmp addr (req.bar, req.addr), req'.en, req'.wr)

def rwGlitch (addr : ℕ) (req req' : Req) : Sel where
  isEq := barAddrCmp addr (req'.bar, req'.addr)
  isEn := rwEn (barAddrCmp addr (req.bar, req.addr), req'.en)

/-- In the second the comparators have followed, not yet the enables. -/
def Dev.followed : Sig :=
  { (d.edge req).signals req' true with
    wo0Sel := woGlitch 0x00 req req'
    wo1Sel := woGlitch 0x08 req req'
    rw0Sel := rwGlitch 0x10 req req'
    rw1Sel := rwGlitch 0x18 req req'
    msiSel := woGlitch 0x20 req req' }

theorem next_rising : Sig.next drive (d.signals req false) (d.signals req true)
    = d.latched req (drive (d.signals req true)) := by
  simp only [Sig.next, Dev.signals, onEdge_rising, onEvent_self, woNext, rwNext, Sig.barAddr,
    Sig.woIn, Sig.rwIn, Dev.latched, Dev.edge]

theorem next_latched :
    Sig.next drive (d.signals req true) (d.latched req req') = d.followed req req' := by
  simp only [Sig.next, Dev.signals, onEdge_self, woNext, rwNext, Sig.barAddr, Sig.woIn, Sig.rwIn,
    woGlitch, rwGlitch, Dev.latched, Dev.followed, writes, selects, onEvent_comb (barAddrCmp _),
    onEvent_comb woEn, onEvent_comb rwEn]

theorem next_followed :
    Sig.next drive (d.latched req req') (d.followed req req') = (d.edge req).signals req' true := by
  simp only [Sig.next, Dev.signals, onEdge_self, woNext, rwNext, Sig.barAddr, Sig.woIn, Sig.rwIn,
    woGlitch, rwGlitch, Dev.latched, Dev.followed, onEvent_self, writes, selects,
    onEvent_comb woEn, onEvent_comb rwEn]

theorem next_settled : Sig.next drive (d.followed req req') ((d.edge req).signals req' true)
    = (d.edge req).signals req' true := by
  simp only [Sig.next, Dev.signals, onEdge_self, woNext, rwNext, Sig.barAddr, Sig.woIn, Sig.rwIn,
    woGlitch, rwGlitch, Dev.followed, onEvent_self]

theorem processes_irrefl : ∀ p ∈ processes drive, ∀ s, p.event s s = false := by
  simp [processes, process, clocked]

/-- **What the delta cycles after a rising edge compute** is the step of the registers. -/
theorem settle_edge (n : ℕ) :
    settle (processes drive) (n + 3) (d.signals req false) (d.signals req true)
      = (d.edge req).signals (drive (d.signals req true)) true := by
  simp only [settle_succ, delta_processes, next_rising, next_latched, next_followed]
  apply settle_of_quiet (processes_irrefl drive)
  rw [delta_processes, next_settled]

/-- A falling edge changes nothing else. -/
theorem settle_falling (n : ℕ) :
    settle (processes drive) n (d.signals req true) (d.signals req false)
      = d.signals req false := by
  apply settle_of_quiet (processes_irrefl drive)
  rw [delta_processes]
  simp only [Sig.next, Dev.signals, onEdge_falling, woNext, rwNext, Sig.barAddr, Sig.woIn, Sig.rwIn,
    onEvent_self]

end Settle

/-! ### The composition -/

/-- The endpoint, the request ports, the device, and the fifo of the glue. -/
structure System where
  ep : Endpoint
  req : Req
  dev : Dev
  fifo : List AccessView
deriving DecidableEq, Repr

/-- The state a reset leaves, with `'0'` for what it does not assign. -/
def System.reset : System where
  ep := ⟨⟨false, 0, 0, 0, none⟩, false⟩
  req := Req.none 0
  dev := ⟨⟨0⟩, ⟨0⟩, ⟨0, false, 0⟩, ⟨0, false, 0⟩, ⟨0, false⟩, ⟨false, 0⟩⟩
  fifo := []

/-- The endpoint on an edge before which these accesses have arrived; `req_ack` is `'1'`. -/
def System.endpoint (s : System) (arrivals : List AccessView) :
    Endpoint × Req × List AccessView :=
  s.ep.clock true s.req.data (s.fifo ++ arrivals)

/-- A rising edge. -/
def System.clock (s : System) (arrivals : List AccessView) : System where
  ep := (s.endpoint arrivals).1
  req := (s.endpoint arrivals).2.1
  dev := s.dev.edge s.req
  fifo := (s.endpoint arrivals).2.2

/-- The calls into the glue on that edge. -/
def System.calls (s : System) : List GlueCall :=
  EndpointIn.calls
    { repEn := s.dev.mux.repEn
      repData := s.dev.mux.repData
      mwrEn := false
      mwrAddr := 0
      mwrData := 0
      mwrSize := 0
      msiEn := s.dev.msi.msiEn }

/-- The system after `n` edges from a reset. -/
def System.after (arr : ℕ → List AccessView) (n : ℕ) : System :=
  drive System.clock System.reset arr n

/-- What the endpoint puts on the request ports, from the signals it reads. -/
def System.driveReq (s : System) (arrivals : List AccessView) (sig : Sig) : Req :=
  (s.ep.clock true sig.req.data (s.fifo ++ arrivals)).2.1

/-- **The delta cycles after a rising edge** leave the signals of the new state. -/
theorem clock_settles (s : System) (arrivals : List AccessView) (n : ℕ) :
    settle (processes (s.driveReq arrivals)) (n + 3) (s.dev.signals s.req false)
      (s.dev.signals s.req true) = (s.clock arrivals).dev.signals (s.clock arrivals).req true :=
  settle_edge (s.driveReq arrivals) s.dev s.req n

end VPcie.Sbone
