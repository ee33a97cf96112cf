import VPcie.Lib.Runs
import VPcie.Qemu.Probe

/-!
# The memory regions across connections

`pciefw_unprobe_device` undoes what the previous connection registered, as `bar_size[]` and
`io_regions[]` say; `pciefw_probe_device` clears `bar_size[i]` for a BAR the new device does not
have, but nothing clears `io_regions[i]`.

Each of the seven regions is a `Region`: what the code keeps of it, the state of its `MemoryRegion`,
and the calls on it.  The devices are arbitrary: a connection is given by the words they answer.

* `step_inv` — `bar_size[i]` tells whether region `i` is initialised, over every run;
* `destroyed_once` — so a region is destroyed exactly once before it is initialised again;
* `balanced_iff` — the runs in which no region is removed that is not there;
* `pciefwProbeDevice_agrees` — the probe over the wire does to the regions what the one here does.
-/

namespace VPcie.Qemu.Regions

open VPcie.Lib VPcie.Net

/-! ### A region -/

/-- A `MemoryRegion`: initialised, and a subregion of an address space. -/
structure Memory where
  initialised : Bool
  mapped : Bool
deriving DecidableEq, Repr

/-- The calls of `pciefw.c` on a region. -/
inductive Call where
  | delSubregion
  | destroy
  | initIo
deriving DecidableEq, Repr

/-- What a call does to the region. -/
def Call.effect (m : Memory) : Call → Memory
  | .delSubregion => { m with mapped := false }
  | .destroy => { m with initialised := false }
  | .initIo => ⟨true, false⟩

/-- `bar_size[i]`, `io_regions[i]` and `bar_region[i]`, and the calls so far, each with what the
region was before it. -/
structure Region where
  barSize : BitVec 64
  io : PciIoRegion
  memory : Memory
  calls : List (Call × Memory)
deriving DecidableEq, Repr

def Region.call (r : Region) (c : Call) : Region :=
  { r with memory := c.effect r.memory, calls := r.calls ++ [(c, r.memory)] }

/-- The turn of the loop of `pciefw_unprobe_device` for a region. -/
def unprobe (r : Region) : Region :=
  let r := if r.io.size ≠ 0 ∧ r.io.mapped then r.call .delSubregion else r
  if r.barSize ≠ 0 then r.call .destroy else r

/-- `memory_region_init_io` and `pci_register_bar`. -/
def register (r : Region) (size : BitVec 64) : Region :=
  let r := Region.call { r with barSize := size } .initIo
  { r with io := ⟨size, false⟩ }

/-- The turn of the loop of `pciefw_probe_device` for a region; `word` is the register read back,
`none` if a request fails. -/
def probe (word : Option (BitVec 32)) (r : Region) : Region :=
  let r := { r with barSize := 0 }
  match word with
  | none => r
  | some word =>
    let barSize := recoverSize word
    if barSize = 0 then r else register r (barSize.setWidth 64)

/-- A write of the guest that makes `pci_update_mappings` map a registered region. -/
def guestMap (r : Region) : Region :=
  { r with io := { r.io with mapped := true }, memory := { r.memory with mapped := true } }

/-- One that makes it unmap it. -/
def guestUnmap (r : Region) : Region :=
  { r with io := { r.io with mapped := false }, memory := { r.memory with mapped := false } }

/-! ### The system -/

/-- Whether the socket is open, `has_probed`, and the regions. -/
structure State where
  connected : Bool
  hasProbed : Bool
  region : Fin numRegions → Region

/-- `pciefw_pci_init`. -/
def pciefwPciInit : State := ⟨false, false, fun _ => ⟨0, ⟨0, false⟩, ⟨false, false⟩, []⟩⟩

/-- A loop over the regions. -/
def forRegions (f : Fin numRegions → Region → Region) (g : Fin numRegions → Region) :
    Fin numRegions → Region :=
  (List.finRange numRegions).foldl (fun g i => Function.update g i (f i (g i))) g

/-- `pciefw_unprobe_device`. -/
def pciefwUnprobeDevice (s : State) : State :=
  if s.hasProbed then
    { s with region := forRegions (fun _ => unprobe) s.region, hasProbed := false }
  else s

/-- `pciefw_probe_device`, with what the device answers. -/
def pciefwProbeDevice (word : Fin numRegions → Option (BitVec 32)) (s : State) : State :=
  let s := pciefwUnprobeDevice s
  { s with region := forRegions (fun i => probe (word i)) s.region, hasProbed := true }

/-- A connection to a device, the disconnection that `pciefw_on_read` finds, and the writes of the
guest. -/
inductive Step where
  | connect (word : Fin numRegions → Option (BitVec 32))
  | disconnect
  | guestMap (i : Fin numRegions)
  | guestUnmap (i : Fin numRegions)

def step (s : State) : Step → Option State
  | .connect word =>
    -- `pciefw_connect_if_unconnected`
    if s.connected then none else some { pciefwProbeDevice word s with connected := true }
  | .disconnect => if s.connected then some { s with connected := false } else none
  | .guestMap i =>
    if (s.region i).io.size ≠ 0 then
      some { s with region := Function.update s.region i (guestMap (s.region i)) }
    else none
  | .guestUnmap i =>
    if (s.region i).io.size ≠ 0 then
      some { s with region := Function.update s.region i (guestUnmap (s.region i)) }
    else none

/-! ### What is wanted -/

/-- The initialisations and destructions of a region. -/
def Region.life (r : Region) : List Call := (r.calls.map Prod.fst).filter fun c => c ≠ .delSubregion

/-- Every region that is removed is initialised and mapped, and every region that is initialised is
destroyed exactly once before it is initialised again. -/
structure Region.Balanced (r : Region) : Prop where
  removed : ∀ m, (.delSubregion, m) ∈ r.calls → m.initialised ∧ m.mapped
  destroyed : ∀ pre mid post, r.life = pre ++ .initIo :: (mid ++ .initIo :: post) →
    .initIo ∉ mid → mid = [.destroy]

/-- Of every region. -/
def Balanced (s : State) : Prop := ∀ i, (s.region i).Balanced

/-- A region that `io_regions` has as mapped is one that the last probe registered. -/
def Region.Fresh (r : Region) : Prop := r.io.size ≠ 0 ∧ r.io.mapped → r.barSize ≠ 0

/-- At a connection, all regions are so. -/
def FreshAtConnect (s : State) : Step → Prop
  | .connect _ => ∀ i, (s.region i).Fresh
  | _ => True

/-! ### The loops -/

/-- A loop treats each region once, and by itself. -/
theorem foldl_update (f : Fin numRegions → Region → Region) (g : Fin numRegions → Region)
    (is : List (Fin numRegions)) (hnodup : is.Nodup) (j : Fin numRegions) :
    is.foldl (fun g i => Function.update g i (f i (g i))) g j
      = if j ∈ is then f j (g j) else g j := by
  induction is generalizing g with
  | nil => rfl
  | cons i is ih =>
    obtain ⟨hi, hnodup⟩ := List.nodup_cons.mp hnodup
    rw [List.foldl_cons, ih _ hnodup]
    by_cases hj : j = i
    · subst hj
      rw [if_neg hi, if_pos List.mem_cons_self, Function.update_self]
    · rw [Function.update_of_ne hj]
      simp only [List.mem_cons, hj, false_or]

theorem forRegions_apply (f : Fin numRegions → Region → Region) (g : Fin numRegions → Region)
    (i : Fin numRegions) : forRegions f g i = f i (g i) := by
  rw [forRegions, foldl_update f g _ (List.nodup_finRange _) i, if_pos (List.mem_finRange i)]

/-- A region after a connection. -/
theorem pciefwProbeDevice_region (word : Fin numRegions → Option (BitVec 32)) (s : State)
    (i : Fin numRegions) : (pciefwProbeDevice word s).region i
      = probe (word i) (if s.hasProbed then unprobe (s.region i) else s.region i) := by
  show forRegions (fun i => probe (word i)) (pciefwUnprobeDevice s).region i = _
  rw [forRegions_apply, pciefwUnprobeDevice]
  by_cases hprobed : s.hasProbed = true
  · rw [if_pos hprobed, if_pos hprobed]
    show probe (word i) (forRegions (fun _ => unprobe) s.region i) = _
    rw [forRegions_apply]
  · rw [if_neg hprobed, if_neg hprobed]

/-! ### The probe over the wire -/

/-- The calls on region `i` in a history. -/
def callsOf (i : Fin numRegions) (calls : List RegionCall) : List Call :=
  calls.filterMap fun c =>
    match c with
    | .delSubregion j => if j = i then some .delSubregion else none
    | .destroy j => if j = i then some .destroy else none
    | .initIo j _ => if j = i then some .initIo else none
    | .registerBar _ => none

/-- A state of `pciefw_state_t` says of a region what is kept here. -/
structure Agrees (q : PciefwState) (i : Fin numRegions) (r : Region) : Prop where
  barSize : q.barSize i = r.barSize
  io : q.ioRegions i = r.io
  calls : callsOf i q.calls = r.calls.map Prod.fst

theorem callsOf_append (i : Fin numRegions) (l l' : List RegionCall) :
    callsOf i (l ++ l') = callsOf i l ++ callsOf i l' := List.filterMap_append

section Wire

variable {κ : Type} {q : QemuPci} {l : Link κ}

/-- A request changes nothing of the regions. -/
theorem Agrees.writeConfig {i : Fin numRegions} {r : Region} (h : Agrees l.qemu i r)
    (addr : BitVec 64) (width : ℕ) (data : BitVec 64) :
    Agrees (l.writeConfig addr width data).1.qemu i r := by
  unfold Link.writeConfig
  dsimp only
  split
  · exact ⟨h.barSize, h.io, h.calls⟩
  · exact ⟨h.barSize, h.io, h.calls⟩

theorem Agrees.readConfig {i : Fin numRegions} {r : Region} (h : Agrees l.qemu i r)
    (addr : BitVec 64) (width : ℕ) : Agrees (l.readConfig addr width).1.qemu i r := by
  unfold Link.readConfig
  dsimp only
  split
  · split
    · exact ⟨h.barSize, h.io, h.calls⟩
    · exact ⟨h.barSize, h.io, h.calls⟩
  · exact ⟨h.barSize, h.io, h.calls⟩

/-- What a turn of the probe over the wire reads of region `i`. -/
def wordRead (l : Link κ) (i : Fin numRegions) : Option (BitVec 32) :=
  let l : Link κ := ⟨{ l.qemu with barSize := Function.update l.qemu.barSize i 0 }, l.peer⟩
  let (l, ok) := l.writeConfig (configAddr i) 4 (BitVec.allOnes 64)
  if !ok then none
  else (l.readConfig (configAddr i) 4).2.map fun bs => BitVec.ofNat 32 (leNat bs)

/-- The registration of a region. -/
theorem Agrees.register {i : Fin numRegions} {r : Region} {s : PciefwState} (h : Agrees s i r)
    (size : BitVec 64) : Agrees (registerRegion q s i size) i (register r size) := by
  refine ⟨Function.update_self i _ _, Function.update_self i _ _, ?_⟩
  show callsOf i (s.calls ++ [.initIo i size, .registerBar i]) = (r.calls ++ [_]).map Prod.fst
  rw [callsOf_append, h.calls, List.map_append]
  simp [callsOf]

theorem Agrees.register_of_ne {i j : Fin numRegions} {r : Region} {s : PciefwState} (hj : j ≠ i)
    (h : Agrees s j r) (size : BitVec 64) : Agrees (registerRegion q s i size) j r := by
  refine ⟨(Function.update_of_ne hj _ _).trans h.barSize,
    (Function.update_of_ne hj _ _).trans h.io, ?_⟩
  show callsOf j (s.calls ++ [.initIo i size, .registerBar i]) = _
  rw [callsOf_append, h.calls]
  simp [callsOf, Ne.symm hj]

/-- A turn of the probe over the wire, for the region it is about. -/
theorem probeRegion_self {i : Fin numRegions} {r : Region} (h : Agrees l.qemu i r) :
    Agrees (probeRegion q l i).qemu i (probe (wordRead l i) r) := by
  have hcleared : Agrees { l.qemu with barSize := Function.update l.qemu.barSize i 0 } i
      { r with barSize := 0 } := ⟨Function.update_self i _ _, h.io, h.calls⟩
  have hwrite := Agrees.writeConfig (l := ⟨_, l.peer⟩) hcleared (configAddr i) 4 (BitVec.allOnes 64)
  unfold probeRegion wordRead probe
  dsimp only
  generalize Link.writeConfig _ (configAddr i) 4 (BitVec.allOnes 64) = w at hwrite ⊢
  cases hok : w.2 with
  | false =>
    simp only [Bool.not_false, if_true]
    exact hwrite
  | true =>
    simp only [Bool.not_true, Bool.false_eq_true, if_false]
    have hread := hwrite.readConfig (configAddr i) 4
    generalize w.1.readConfig (configAddr i) 4 = out at hread ⊢
    cases hbytes : out.2 with
    | none =>
      simp only [Option.map_none]
      exact hread
    | some bs =>
      simp only [Option.map_some]
      by_cases hzero : recoverSize (BitVec.ofNat 32 (leNat bs)) = 0
      · simp only [if_pos hzero]
        exact hread.writeConfig _ _ _
      · simp only [if_neg hzero]
        exact Agrees.writeConfig (l := ⟨_, _⟩) ((hread.writeConfig _ _ _).register _) _ _ _

/-- And for the others. -/
theorem probeRegion_of_ne {i j : Fin numRegions} {r : Region} (hj : j ≠ i)
    (h : Agrees l.qemu j r) : Agrees (probeRegion q l i).qemu j r := by
  have hcleared : Agrees { l.qemu with barSize := Function.update l.qemu.barSize i 0 } j r :=
    ⟨(Function.update_of_ne hj _ _).trans h.barSize, h.io, h.calls⟩
  have hwrite := Agrees.writeConfig (l := ⟨_, l.peer⟩) hcleared (configAddr i) 4 (BitVec.allOnes 64)
  unfold probeRegion
  dsimp only
  split
  · exact hwrite
  · have hread := hwrite.readConfig (configAddr i) 4
    split
    · exact hread
    · split
      · exact hread.writeConfig _ _ _
      · exact Agrees.writeConfig (l := ⟨_, _⟩)
          ((hread.writeConfig _ _ _).register_of_ne hj _) _ _ _

/-- The loop of the probe over the wire. -/
theorem probeLoop_agrees (is : List (Fin numRegions)) (hnodup : is.Nodup)
    {g : Fin numRegions → Region} (h : ∀ j, Agrees l.qemu j (g j)) :
    ∃ word : Fin numRegions → Option (BitVec 32), ∀ j,
      Agrees (is.foldl (VPcie.Qemu.probeRegion q) l).qemu j
        (if j ∈ is then probe (word j) (g j) else g j) := by
  induction is generalizing l g with
  | nil => exact ⟨fun _ => none, h⟩
  | cons i is ih =>
    obtain ⟨hi, hnodup⟩ := List.nodup_cons.mp hnodup
    have hturn : ∀ j, Agrees (probeRegion q l i).qemu j
        (if j = i then probe (wordRead l i) (g j) else g j) := by
      intro j
      by_cases hj : j = i
      · rw [if_pos hj, hj]
        exact probeRegion_self (h i)
      · rw [if_neg hj]
        exact probeRegion_of_ne hj (h j)
    obtain ⟨word, hword⟩ := ih hnodup hturn
    refine ⟨Function.update word i (wordRead l i), ?_⟩
    intro j
    have hj := hword j
    rw [List.foldl_cons]
    by_cases hji : j = i
    · subst hji
      rw [if_neg hi, if_pos rfl] at hj
      rw [if_pos List.mem_cons_self, Function.update_self]
      exact hj
    · rw [if_neg hji] at hj
      rw [Function.update_of_ne hji]
      simp only [List.mem_cons, hji, false_or]
      exact hj

/-- A call on region `j`. -/
theorem Agrees.call {s : PciefwState} {j : Fin numRegions} {r : Region} (h : Agrees s j r)
    {c : RegionCall} {k : Call} (hc : callsOf j [c] = [k]) :
    Agrees { s with calls := s.calls ++ [c] } j (r.call k) := by
  refine ⟨h.barSize, h.io, ?_⟩
  show callsOf j (s.calls ++ [c]) = (r.calls ++ [_]).map Prod.fst
  rw [callsOf_append, h.calls, hc, List.map_append]
  rfl

/-- A call on another one. -/
theorem Agrees.call_other {s : PciefwState} {j : Fin numRegions} {r : Region} (h : Agrees s j r)
    {c : RegionCall} (hc : callsOf j [c] = []) :
    Agrees { s with calls := s.calls ++ [c] } j r := by
  refine ⟨h.barSize, h.io, ?_⟩
  show callsOf j (s.calls ++ [c]) = _
  rw [callsOf_append, h.calls, hc, List.append_nil]

/-- A turn of the loop of `pciefw_unprobe_device`. -/
theorem unprobeRegion_agrees {s : PciefwState} {i j : Fin numRegions} {r : Region}
    (h : Agrees s j r) : Agrees (unprobeRegion s i) j (if j = i then unprobe r else r) := by
  -- `memory_region_destroy`, in a state that agrees
  have hlast : ∀ (s : PciefwState) (r : Region), Agrees s j r →
      Agrees (if s.barSize i ≠ 0 then { s with calls := s.calls ++ [.destroy i] } else s) j
        (if j = i then if r.barSize ≠ 0 then r.call .destroy else r else r) := by
    intro s r h
    by_cases hj : j = i
    · subst hj
      rw [if_pos rfl, h.barSize]
      split_ifs
      · exact h.call (by simp [callsOf])
      · exact h
    · rw [if_neg hj]
      split_ifs
      · exact h.call_other (by simp [callsOf, Ne.symm hj])
      · exact h
  by_cases hj : j = i
  · subst hj
    simp only [if_pos] at hlast ⊢
    unfold unprobeRegion unprobe
    rw [h.io]
    by_cases hdel : r.io.size ≠ 0 ∧ r.io.mapped = true
    · simp only [if_pos hdel]
      exact hlast _ _ (h.call (by simp [callsOf]))
    · simp only [if_neg hdel]
      exact hlast _ _ h
  · simp only [if_neg hj] at hlast ⊢
    unfold unprobeRegion
    by_cases hdel : (s.ioRegions i).size ≠ 0 ∧ (s.ioRegions i).mapped = true
    · simp only [if_pos hdel]
      exact hlast _ _ (h.call_other (by simp [callsOf, Ne.symm hj]))
    · simp only [if_neg hdel]
      exact hlast _ _ h

/-- The loop of `pciefw_unprobe_device`. -/
theorem unprobeLoop_agrees (is : List (Fin numRegions)) (hnodup : is.Nodup) {s : PciefwState}
    {g : Fin numRegions → Region} (h : ∀ j, Agrees s j (g j)) (j : Fin numRegions) :
    Agrees (is.foldl unprobeRegion s) j (if j ∈ is then unprobe (g j) else g j) := by
  induction is generalizing s g with
  | nil => exact h j
  | cons i is ih =>
    obtain ⟨hi, hnodup⟩ := List.nodup_cons.mp hnodup
    have hj := ih hnodup fun j => unprobeRegion_agrees (i := i) (h j)
    rw [List.foldl_cons]
    by_cases hji : j = i
    · subst hji
      rw [if_neg hi, if_pos rfl] at hj
      rw [if_pos List.mem_cons_self]
      exact hj
    · rw [if_neg hji] at hj
      simp only [List.mem_cons, hji, false_or]
      exact hj

theorem unprobeDevice_agrees {s : PciefwState} {g : Fin numRegions → Region}
    (h : ∀ j, Agrees s j (g j)) (i : Fin numRegions) :
    Agrees (VPcie.Qemu.pciefwUnprobeDevice q s) i
      (if s.hasProbed then unprobe (g i) else g i) := by
  unfold VPcie.Qemu.pciefwUnprobeDevice
  by_cases hprobed : s.hasProbed = true
  · have hloop := unprobeLoop_agrees (s := { s with pciConf := q.msiUninit s.pciConf })
      (List.finRange numRegions) (List.nodup_finRange _)
      (fun j => ⟨(h j).barSize, (h j).io, (h j).calls⟩) i
    simp only [List.mem_finRange, if_true] at hloop
    rw [if_pos hprobed, if_pos hprobed]
    dsimp only
    generalize (List.finRange numRegions).foldl unprobeRegion
      { s with pciConf := q.msiUninit s.pciConf } = s' at hloop ⊢
    exact ⟨hloop.barSize, hloop.io, hloop.calls⟩
  · rw [if_neg hprobed, if_neg hprobed]
    exact h i

/-- **The probe over the wire does to the regions what the one here does**, with the words it
reads. -/
theorem pciefwProbeDevice_agrees {s : State} (hprobed : l.qemu.hasProbed = s.hasProbed)
    (h : ∀ i, Agrees l.qemu i (s.region i)) : ∃ word : Fin numRegions → Option (BitVec 32),
      (VPcie.Qemu.pciefwProbeDevice q l).qemu.hasProbed = (pciefwProbeDevice word s).hasProbed ∧
        ∀ i, Agrees (VPcie.Qemu.pciefwProbeDevice q l).qemu i
          ((pciefwProbeDevice word s).region i) := by
  have hstart : ∀ i, Agrees (probeStart q l).qemu i
      (if s.hasProbed then unprobe (s.region i) else s.region i) := by
    intro i
    have hundone := unprobeDevice_agrees (q := q) h i
    rw [hprobed] at hundone
    unfold probeStart
    generalize VPcie.Qemu.pciefwUnprobeDevice q l.qemu = q' at hundone ⊢
    exact ⟨hundone.barSize, hundone.io, hundone.calls⟩
  obtain ⟨word, hword⟩ := probeLoop_agrees (q := q) (List.finRange numRegions)
    (List.nodup_finRange _) hstart
  refine ⟨word, rfl, ?_⟩
  intro i
  have hi := hword i
  simp only [List.mem_finRange, if_true] at hi
  rw [pciefwProbeDevice_region]
  unfold VPcie.Qemu.pciefwProbeDevice
  generalize (List.finRange numRegions).foldl (VPcie.Qemu.probeRegion q) (probeStart q l) = l'
    at hi ⊢
  exact ⟨hi.barSize, hi.io, hi.calls⟩

end Wire

/-! ### The life of a region -/

/-- Initialised, or not, in turn. -/
def lifeStep : Bool → Call → Option Bool
  | false, .initIo => some true
  | true, .destroy => some false
  | _, _ => none

/-- What takes turns is destroyed exactly once between two initialisations. -/
theorem destroyed_once {b e : Bool} {life : List Call} (hrun : run lifeStep b life = some e)
    (pre mid post : List Call) (heq : life = pre ++ .initIo :: (mid ++ .initIo :: post))
    (hmid : .initIo ∉ mid) : mid = [.destroy] := by
  subst heq
  obtain ⟨b₁, _, hrun⟩ := run_append_eq_some.mp hrun
  obtain ⟨b₂, hinit, hrun⟩ := run_cons_eq_some.mp hrun
  have hb₂ : b₂ = true := by
    cases b₁
    · exact (Option.some.inj hinit).symm
    · exact nomatch hinit
  subst hb₂
  cases mid with
  | nil =>
    obtain ⟨b₃, hagain, _⟩ := run_cons_eq_some.mp hrun
    exact nomatch hagain
  | cons c mid =>
    obtain ⟨b₃, hc, hrun⟩ := run_cons_eq_some.mp hrun
    cases c with
    | initIo => exact absurd List.mem_cons_self hmid
    | delSubregion => exact nomatch hc
    | destroy =>
      obtain rfl := Option.some.inj hc
      cases mid with
      | nil => rfl
      | cons d mid =>
        obtain ⟨b₄, hd, _⟩ := run_cons_eq_some.mp hrun
        cases d with
        | initIo => exact absurd (List.mem_cons_of_mem _ List.mem_cons_self) hmid
        | delSubregion => exact nomatch hd
        | destroy => exact nomatch hd

/-! ### The invariant -/

/-- What `bar_size[i]` and `io_regions[i]` say of region `i`. -/
structure Inv (hasProbed : Bool) (r : Region) : Prop where
  initialised : r.memory.initialised = true ↔ r.barSize ≠ 0
  registered : r.barSize ≠ 0 → r.io.size ≠ 0 ∧ r.memory.mapped = r.io.mapped
  first : hasProbed = false → r.barSize = 0 ∧ r.io.size = 0
  life : run lifeStep false r.life = some r.memory.initialised

/-- Every region that was removed was initialised and mapped. -/
def Region.Removed (r : Region) : Prop :=
  ∀ m, (.delSubregion, m) ∈ r.calls → m.initialised ∧ m.mapped

section Region

variable {hp : Bool} {r : Region}

@[simp] theorem call_life_del : (r.call .delSubregion).life = r.life := by
  simp [Region.life, Region.call]

@[simp] theorem call_life_destroy : (r.call .destroy).life = r.life ++ [.destroy] := by
  simp [Region.life, Region.call]

@[simp] theorem call_life_init : (r.call .initIo).life = r.life ++ [.initIo] := by
  simp [Region.life, Region.call]

theorem removed_call {c : Call} : (r.call c).Removed ↔
    r.Removed ∧ (c = .delSubregion → r.memory.initialised ∧ r.memory.mapped) := by
  constructor
  · intro h
    refine ⟨fun m hm => h m (List.mem_append_left _ hm), ?_⟩
    rintro rfl
    exact h r.memory (List.mem_append_right _ List.mem_cons_self)
  · rintro ⟨hbefore, hlast⟩ m hm
    rcases List.mem_append.mp hm with hm | hm
    · exact hbefore m hm
    · obtain ⟨hc, rfl⟩ := Prod.mk.inj (List.mem_singleton.mp hm)
      exact hlast hc.symm

/-- The first half of `unprobe`. -/
theorem unprobe_del (h : Inv hp r) :
    let r' := if r.io.size ≠ 0 ∧ r.io.mapped then r.call .delSubregion else r
    r'.barSize = r.barSize ∧ r'.io = r.io ∧ r'.memory.initialised = r.memory.initialised ∧
      r'.life = r.life ∧ (r'.Removed ↔ r.Removed ∧ r.Fresh) := by
  intro r'
  by_cases hdel : r.io.size ≠ 0 ∧ r.io.mapped
  · have hr' : r' = r.call .delSubregion := if_pos hdel
    rw [hr', removed_call]
    refine ⟨rfl, rfl, rfl, call_life_del, and_congr_right fun _ => ?_⟩
    constructor
    · intro hlast _
      exact h.initialised.mp (hlast rfl).1
    · intro hfresh _
      obtain ⟨_, hmapped⟩ := h.registered (hfresh hdel)
      exact ⟨h.initialised.mpr (hfresh hdel), hmapped.trans hdel.2⟩
  · have hr' : r' = r := if_neg hdel
    rw [hr']
    exact ⟨rfl, rfl, rfl, rfl, (and_iff_left fun hmapped => absurd hmapped hdel).symm⟩

/-- **Undoing a region**: it is not initialised any more, and removed well exactly if it is one that
the last probe registered. -/
theorem unprobe_spec (h : Inv hp r) : (unprobe r).memory.initialised = false ∧
    (unprobe r).io = r.io ∧ run lifeStep false (unprobe r).life = some false ∧
    ((unprobe r).Removed ↔ r.Removed ∧ r.Fresh) := by
  obtain ⟨hbar, hio, hinit, hlife, hremoved⟩ := unprobe_del h
  unfold unprobe
  generalize (if r.io.size ≠ 0 ∧ r.io.mapped then r.call .delSubregion else r) = r' at *
  rw [← hremoved]
  by_cases hzero : r'.barSize ≠ 0
  · rw [if_pos hzero]
    have hon : r.memory.initialised = true := h.initialised.mpr (hbar ▸ hzero)
    refine ⟨rfl, hio, ?_, ?_⟩
    · rw [call_life_destroy, hlife, run_append, h.life, hon]
      rfl
    · rw [removed_call]
      exact and_iff_left fun heq => nomatch heq
  · rw [if_neg hzero]
    have hoff : r.memory.initialised = false := by
      rw [← Bool.not_eq_true, h.initialised, ← hbar]
      exact hzero
    refine ⟨hinit.trans hoff, hio, ?_, Iff.rfl⟩
    rw [hlife, h.life, hoff]

/-- **Probing a region** that is not initialised. -/
theorem probe_inv (word : Option (BitVec 32)) (hoff : r.memory.initialised = false)
    (hlife : run lifeStep false r.life = some false) :
    Inv true (probe word r) ∧ ((probe word r).Removed ↔ r.Removed) := by
  have hcleared : Inv true { r with barSize := 0 } := by
    refine ⟨?_, fun hne => absurd rfl hne, nofun, ?_⟩
    · exact iff_of_false (by rw [hoff]; exact Bool.false_ne_true) (fun hne => hne rfl)
    · rw [hoff]
      exact hlife
  unfold probe
  cases word with
  | none => exact ⟨hcleared, Iff.rfl⟩
  | some word =>
    by_cases hzero : recoverSize word = 0
    · simp only [if_pos hzero]
      exact ⟨hcleared, Iff.rfl⟩
    · simp only [if_neg hzero]
      have hsize : (recoverSize word).setWidth 64 ≠ 0 := by
        intro heq
        apply hzero
        have hnat := congrArg BitVec.toNat heq
        rw [BitVec.toNat_setWidth_of_le (by decide)] at hnat
        exact BitVec.eq_of_toNat_eq hnat
      refine ⟨⟨iff_of_true rfl hsize, fun _ => ⟨hsize, rfl⟩, nofun, ?_⟩, ?_⟩
      · show run lifeStep false (Region.call { r with barSize := _ } .initIo).life = some true
        rw [call_life_init, run_append]
        show (run lifeStep false r.life).bind _ = _
        rw [hlife]
        rfl
      · show (Region.call { r with barSize := _ } .initIo).Removed ↔ _
        rw [removed_call]
        exact and_iff_left fun heq => nomatch heq

/-- The guest may do what it likes with a registered region. -/
theorem guestMap_inv (h : Inv hp r) : Inv hp (guestMap r) where
  initialised := h.initialised
  registered hne := ⟨(h.registered hne).1, rfl⟩
  first := h.first
  life := h.life

theorem guestUnmap_inv (h : Inv hp r) : Inv hp (guestUnmap r) where
  initialised := h.initialised
  registered hne := ⟨(h.registered hne).1, rfl⟩
  first := h.first
  life := h.life

/-- In a reachable state only the removals are in question. -/
theorem balanced_iff_removed (h : Inv hp r) : r.Balanced ↔ r.Removed :=
  ⟨fun hb => hb.removed, fun hr => ⟨hr, destroyed_once h.life⟩⟩

end Region

/-! ### Each step -/

section Step

variable {s t : State} {a : Step}

/-- The invariant of all regions. -/
def AllInv (s : State) : Prop := ∀ i, Inv s.hasProbed (s.region i)

theorem allInv_init : AllInv pciefwPciInit := by
  intro i
  exact ⟨iff_of_false Bool.false_ne_true fun hne => hne rfl, fun hne => absurd rfl hne,
    fun _ => ⟨rfl, rfl⟩, rfl⟩

/-- A region after a connection, and its removals. -/
theorem connect_region (word : Fin numRegions → Option (BitVec 32)) (h : AllInv s)
    (i : Fin numRegions) : Inv true ((pciefwProbeDevice word s).region i) ∧
      (((pciefwProbeDevice word s).region i).Removed ↔
        (s.region i).Removed ∧ (s.region i).Fresh) := by
  rw [pciefwProbeDevice_region]
  by_cases hprobed : s.hasProbed = true
  · rw [if_pos hprobed]
    obtain ⟨hoff, _, hlife, hremoved⟩ := unprobe_spec (h i)
    obtain ⟨hinv, hsame⟩ := probe_inv (word i) hoff hlife
    exact ⟨hinv, hsame.trans hremoved⟩
  · rw [if_neg hprobed]
    -- at the first connection nothing is registered
    obtain ⟨hbar, hio⟩ := (h i).first (Bool.not_eq_true _ ▸ hprobed)
    have hoff : (s.region i).memory.initialised = false := by
      rw [← Bool.not_eq_true, (h i).initialised]
      exact fun hne => hne hbar
    obtain ⟨hinv, hsame⟩ := probe_inv (word i) hoff (hoff ▸ (h i).life)
    exact ⟨hinv, hsame.trans (and_iff_left fun hmapped => absurd hio hmapped.1).symm⟩

/-- A write of the guest to one region. -/
theorem update_region {f : Region → Region} {i : Fin numRegions} {P : Region → Region → Prop}
    (hsame : ∀ r, P r r) (hf : P (s.region i) (f (s.region i))) (j : Fin numRegions) :
    P (s.region j) (Function.update s.region i (f (s.region i)) j) := by
  by_cases hj : j = i
  · subst hj
    rw [Function.update_self]
    exact hf
  · rw [Function.update_of_ne hj]
    exact hsame _

/-- A write of the guest removes no subregion. -/
theorem removed_update {f : Region → Region} {i : Fin numRegions}
    (hf : ∀ r, (f r).Removed ↔ r.Removed) :
    (∀ j, (Function.update s.region i (f (s.region i)) j).Removed) ↔ ∀ j, (s.region j).Removed :=
  forall_congr' fun j =>
    update_region (P := fun r r' => r'.Removed ↔ r.Removed) (fun _ => Iff.rfl) (hf _) j

/-- **Every step keeps the invariant.** -/
theorem step_inv (h : AllInv s) (hstep : step s a = some t) : AllInv t := by
  cases a with
  | connect word =>
    simp only [step] at hstep
    split_ifs at hstep
    obtain rfl := Option.some.inj hstep
    intro i
    exact (connect_region word h i).1
  | disconnect =>
    simp only [step] at hstep
    split_ifs at hstep
    obtain rfl := Option.some.inj hstep
    exact h
  | guestMap i =>
    simp only [step] at hstep
    split_ifs at hstep
    obtain rfl := Option.some.inj hstep
    intro j
    exact update_region (P := fun r r' => Inv s.hasProbed r → Inv s.hasProbed r')
      (fun _ hr => hr) guestMap_inv j (h j)
  | guestUnmap i =>
    simp only [step] at hstep
    split_ifs at hstep
    obtain rfl := Option.some.inj hstep
    intro j
    exact update_region (P := fun r r' => Inv s.hasProbed r → Inv s.hasProbed r')
      (fun _ hr => hr) guestUnmap_inv j (h j)

/-- **What a step does to the balance**: it keeps it exactly if the regions are fresh at a
connection. -/
theorem step_balanced (h : AllInv s) (hstep : step s a = some t) :
    Balanced t ↔ Balanced s ∧ FreshAtConnect s a := by
  have ht := step_inv h hstep
  have hbalanced : ∀ u, AllInv u → (Balanced u ↔ ∀ i, (u.region i).Removed) := fun u hu =>
    forall_congr' fun i => balanced_iff_removed (hu i)
  rw [hbalanced t ht, hbalanced s h]
  cases a with
  | connect word =>
    simp only [step] at hstep
    split_ifs at hstep
    obtain rfl := Option.some.inj hstep
    exact (forall_congr' fun i => (connect_region word h i).2).trans forall_and
  | disconnect =>
    simp only [step] at hstep
    split_ifs at hstep
    obtain rfl := Option.some.inj hstep
    exact (and_iff_left trivial).symm
  | guestMap i =>
    simp only [step] at hstep
    split_ifs at hstep
    obtain rfl := Option.some.inj hstep
    have hsame := removed_update (s := s) (f := guestMap) (i := i) fun _ => Iff.rfl
    exact hsame.trans (and_iff_left trivial).symm
  | guestUnmap i =>
    simp only [step] at hstep
    split_ifs at hstep
    obtain rfl := Option.some.inj hstep
    have hsame := removed_update (s := s) (f := guestUnmap) (i := i) fun _ => Iff.rfl
    exact hsame.trans (and_iff_left trivial).symm

end Step

/-! ### Every run -/

/-- **In which runs the regions stay balanced**: those in which, at every connection, each region
that `io_regions` has as mapped is one that the probe before registered. -/
theorem balanced_iff {steps : List Step} {s : State}
    (hrun : run step pciefwPciInit steps = some s) :
    Balanced s ↔ EachStep step FreshAtConnect pciefwPciInit steps := by
  have hstart : Balanced pciefwPciInit := by
    intro i
    refine ⟨fun m hm => absurd hm List.not_mem_nil, ?_⟩
    intro pre mid post heq
    exact absurd heq (by simp [Region.life, pciefwPciInit])
  rw [run_iff_eachStep AllInv Balanced (fun _ _ _ h hstep => step_inv h hstep)
    (fun _ _ _ h _ hstep => step_balanced h hstep) allInv_init
    (eachStep_of_forall (fun _ _ => trivial) _ _) hrun]
  exact and_iff_right hstart

/-- A device with BAR 0 of 256 bytes, and one with no BAR.  The word behind the registers of the
BARs keeps the ones that are written to it. -/
def oneBar (i : Fin numRegions) : Option (BitVec 32) :=
  some (if i.val = 0 then 0xffffff00 else if i.val = 6 then 0xffffffff else 0)

def noBar (i : Fin numRegions) : Option (BitVec 32) := some (if i.val = 6 then 0xffffffff else 0)

/-- BAR 0 is mapped, and unmapped again before the device is changed. -/
theorem balanced_iff_unmapped : ∃ s, run step pciefwPciInit
      [.connect oneBar, .guestMap 0, .guestUnmap 0, .disconnect, .connect noBar] = some s ∧
    (Balanced s ↔ EachStep step FreshAtConnect pciefwPciInit
      [.connect oneBar, .guestMap 0, .guestUnmap 0, .disconnect, .connect noBar]) := by
  have hiff := fun s => @balanced_iff
    [.connect oneBar, .guestMap 0, .guestUnmap 0, .disconnect, .connect noBar] s
  exact ⟨_, rfl, hiff _ rfl⟩

/-- **A region that is gone is removed again**: BAR 0 of the first device is mapped, the second
device has no BAR, and at the third connection the region is removed although it was destroyed at
the second. -/
theorem staleRegion_removed : ∃ s, run step pciefwPciInit
      [.connect oneBar, .guestMap 0, .disconnect, .connect noBar, .disconnect, .connect noBar]
        = some s ∧ ¬ Balanced s := by
  refine ⟨_, rfl, ?_⟩
  intro h
  have hstale := (h 0).removed ⟨false, false⟩ (by decide)
  exact Bool.false_ne_true hstale.1

end VPcie.Qemu.Regions
