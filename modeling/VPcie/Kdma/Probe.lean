import Mathlib.Data.BitVec
import Mathlib.Data.Multiset.AddSub
import Mathlib.Data.Multiset.Filter
import Mathlib.Logic.Function.Basic
import Mathlib.Tactic.Common
import VPcie.Kdma.BarAccess
import VPcie.Kdma.Pmem

/-!
# The probe of the kdma driver

`kdma_pci_probe` with its `goto` chain, `kdma_dev_alloc` and the loops that map and unmap the BARs
(`sbone.c` has the same two loops).  Each kernel call that can fail takes its result from an
argument.

* `kdmaDevAlloc_free` — the bit that the allocation takes is the one that the free gives back;
* `unmapLoop_spec`, `mapLoop_spec` — what the two loops do to the regions and the mappings;
* `unmapBars_mapBars` — one after the other leaves the regions whose `ioremap` failed;
* `probe_noTrace_iff` — when a failed probe leaves the state as it was.
-/

namespace VPcie.Kdma

/-! ### The kernel's state of a device -/

/-- The allocation bitmap of the driver, and what the kernel holds for the device: the requested
regions, the mappings, `enable_cnt`, whether MSI is on, the `dev_id` of each handler, and the driver
data. -/
structure PciState where
  bits : BitVec 32
  regions : Fin nbar → Bool
  mappings : Multiset (BitVec 64)
  enableCnt : ℕ
  msi : Bool
  handlers : List ℕ
  drvdata : Option ℕ

/-- A region of the device: `pci_resource_flags`, `pci_resource_start` and `pci_resource_len`. -/
structure Resource where
  flags : BitVec 64
  start : BitVec 64
  len : BitVec 64

/-- The results of the kernel calls of a probe. -/
structure ProbeEnv where
  enableDevice : Int
  requestRegion : Fin nbar → Int
  ioremap : Fin nbar → BitVec 64
  enableMsi : Int
  requestIrq : Int
  cdevAdd : Int

/-- `pci_request_region`: a region that is requested is busy. -/
def pciRequestRegion (env : ProbeEnv) (i : Fin nbar) (s : PciState) : Int × PciState :=
  if s.regions i then (-16, s)
  else if env.requestRegion i ≠ 0 then (env.requestRegion i, s)
  else (0, { s with regions := Function.update s.regions i true })

def pciReleaseRegion (i : Fin nbar) (s : PciState) : PciState :=
  { s with regions := Function.update s.regions i false }

/-- `ioremap_nocache`: the address, 0 if there is none. -/
def ioremapNocache (env : ProbeEnv) (i : Fin nbar) (s : PciState) : BitVec 64 × PciState :=
  if env.ioremap i = 0 then (0, s)
  else (env.ioremap i, { s with mappings := env.ioremap i ::ₘ s.mappings })

def iounmap (vadr : BitVec 64) (s : PciState) : PciState :=
  { s with mappings := s.mappings.erase vadr }

/-- `pci_enable_device`, which counts only when it succeeds. -/
def pciEnableDevice (env : ProbeEnv) (s : PciState) : Int × PciState :=
  if env.enableDevice ≠ 0 then (env.enableDevice, s)
  else (0, { s with enableCnt := s.enableCnt + 1 })

def pciDisableDevice (s : PciState) : PciState := { s with enableCnt := s.enableCnt - 1 }

/-! ### The driver -/

/-- The loop of `kdma_dev_alloc` from device `i` on, `n` devices before the end; `x` is the captured
value of the bitmap, shifted.  The device, and the bitmap with its bit. -/
def kdmaDevAllocLoop (bits : BitVec 32) : ℕ → ℕ → BitVec 32 → Option (ℕ × BitVec 32)
  | 0, _, _ => none
  | n + 1, i, x =>
    let mask : BitVec 32 := (1 <<< (n + 1)) - 1
    -- no more bit avail
    if x &&& mask = mask then none
    -- current bit avail
    else if x &&& 1 = 0 then
      let bit : BitVec 32 := 1 <<< i
      -- set and check for lost race
      if bits &&& bit = 0 then some (i, bits ||| bit)
      else kdmaDevAllocLoop bits n (i + 1) (x >>> 1)
    else kdmaDevAllocLoop bits n (i + 1) (x >>> 1)

/-- `kdma_dev_alloc`. -/
def kdmaDevAlloc (bits : BitVec 32) : Option (ℕ × BitVec 32) :=
  kdmaDevAllocLoop bits kdmaDevCount 0 bits

/-- `kdma_dev_init`. -/
def kdmaDevInit : KdmaDev := ⟨fun _ => 0, fun _ => 0⟩

/-- `kdma_dev_free`. -/
def kdmaDevFree (dev : ℕ) (s : PciState) : PciState :=
  { s with bits := s.bits &&& ~~~((1 : BitVec 32) <<< dev) }

/-- `dev->vadr[i]` and `dev->len[i]` set. -/
def KdmaDev.setBar (dev : KdmaDev) (i : Fin nbar) (vadr len : BitVec 64) : KdmaDev :=
  ⟨Function.update dev.vadr i vadr, Function.update dev.len i len⟩

/-- The loop of `kdma_dev_unmap_bars`. -/
def unmapLoop : List (Fin nbar) → KdmaDev → PciState → KdmaDev × PciState
  | [], dev, s => (dev, s)
  | i :: is, dev, s =>
    if dev.vadr i ≠ 0 then
      unmapLoop is (dev.setBar i 0 0) (iounmap (dev.vadr i) (pciReleaseRegion i s))
    else unmapLoop is dev s

/-- `kdma_dev_unmap_bars`. -/
def kdmaDevUnmapBars (dev : KdmaDev) (s : PciState) : KdmaDev × PciState :=
  unmapLoop (List.finRange nbar) dev s

/-- `(flags & IORESOURCE_MEM) && (addr && len)`. -/
def MemRegion (pci : Fin nbar → Resource) (i : Fin nbar) : Prop :=
  (pci i).flags &&& 0x200 ≠ 0 ∧ (pci i).start ≠ 0 ∧ (pci i).len ≠ 0

instance (pci : Fin nbar → Resource) (i : Fin nbar) : Decidable (MemRegion pci i) :=
  inferInstanceAs (Decidable (_ ∧ _))

/-- The loop of `kdma_dev_map_bars`. -/
def mapLoop (pci : Fin nbar → Resource) (env : ProbeEnv) :
    List (Fin nbar) → Int → KdmaDev → PciState → Int × KdmaDev × PciState
  | [], err, dev, s => (err, dev, s)
  | i :: is, err, dev, s =>
    if err = 0 ∧ MemRegion pci i then
      let requested := pciRequestRegion env i s
      if requested.1 ≠ 0 then
        -- continue with error set
        mapLoop pci env is requested.1 (dev.setBar i 0 0) requested.2
      else
        let mapped := ioremapNocache env i requested.2
        if mapped.1 = 0 then
          -- continue but zero remaining entries for unmapping
          mapLoop pci env is (-12) (dev.setBar i 0 0) mapped.2
        else mapLoop pci env is 0 (dev.setBar i mapped.1 (pci i).len) mapped.2
    else mapLoop pci env is err (dev.setBar i 0 0) s

/-- `kdma_dev_map_bars`. -/
def kdmaDevMapBars (pci : Fin nbar → Resource) (env : ProbeEnv) (dev : KdmaDev) (s : PciState) :
    Int × KdmaDev × PciState :=
  let mapped := mapLoop pci env (List.finRange nbar) 0 dev s
  if mapped.1 ≠ 0 then (mapped.1, kdmaDevUnmapBars mapped.2.1 mapped.2.2) else mapped

/-- `on_error_1`. -/
def onError1 (dev : ℕ) (s : PciState) : PciState := { kdmaDevFree dev s with drvdata := none }

/-- `on_error_2`. -/
def onError2 (dev : ℕ) (bars : KdmaDev) (s : PciState) : PciState :=
  onError1 dev (pciDisableDevice (kdmaDevUnmapBars bars s).2)

/-- `on_error_3`. -/
def onError3 (dev : ℕ) (bars : KdmaDev) (s : PciState) : PciState :=
  onError2 dev bars { s with msi := false }

/-- `on_error_4`. -/
def onError4 (dev : ℕ) (bars : KdmaDev) (s : PciState) : PciState :=
  onError3 dev bars { s with handlers := s.handlers.erase dev }

/-- `kdma_pci_probe` from the mapping of the BARs on. -/
def probeEnabled (pci : Fin nbar → Resource) (env : ProbeEnv) (dev : ℕ) (s : PciState) :
    Int × PciState :=
  let mapped := kdmaDevMapBars pci env kdmaDevInit s
  if mapped.1 ≠ 0 then (mapped.1, onError2 dev mapped.2.1 mapped.2.2)
  else if env.enableMsi ≠ 0 then (env.enableMsi, onError2 dev mapped.2.1 mapped.2.2)
  else
    let withMsi := { mapped.2.2 with msi := true }
    if env.requestIrq ≠ 0 then (env.requestIrq, onError3 dev mapped.2.1 withMsi)
    else
      let withIrq := { withMsi with handlers := dev :: withMsi.handlers }
      if env.cdevAdd ≠ 0 then (env.cdevAdd, onError4 dev mapped.2.1 withIrq)
      else (0, withIrq)

/-- `kdma_pci_probe`: the result and the state after it. -/
def kdmaPciProbe (pci : Fin nbar → Resource) (env : ProbeEnv) (s : PciState) : Int × PciState :=
  match kdmaDevAlloc s.bits with
  | none => (-12, s)
  | some (dev, bits) =>
    let allocated := { s with bits := bits, drvdata := some dev }
    -- do not enable twice
    if s.enableCnt = 0 then
      let enabled := pciEnableDevice env allocated
      if enabled.1 ≠ 0 then (enabled.1, onError1 dev enabled.2)
      else probeEnabled pci env dev enabled.2
    else probeEnabled pci env dev allocated

/-! ### The bitmap -/

theorem or_and_not {bits mask : BitVec 32} (h : bits &&& mask = 0) :
    (bits ||| mask) &&& ~~~mask = bits := by
  ext i hi
  have hbit := congrArg (fun x => x[i]) h
  simp only [BitVec.getElem_and, BitVec.getElem_or, BitVec.getElem_not] at hbit ⊢
  cases hb : bits[i] <;> cases hm : mask[i] <;> simp_all

theorem kdmaDevAllocLoop_eq {bits b : BitVec 32} {n i dev : ℕ} {x : BitVec 32}
    (h : kdmaDevAllocLoop bits n i x = some (dev, b)) :
    bits &&& (1 : BitVec 32) <<< dev = 0 ∧ b = bits ||| (1 : BitVec 32) <<< dev := by
  induction n generalizing i x with
  | zero => cases h
  | succ n ih =>
    simp only [kdmaDevAllocLoop] at h
    split_ifs at h with hmask hfree hbit
    · obtain ⟨rfl, rfl⟩ := Prod.mk.inj (Option.some.inj h)
      exact ⟨hbit, rfl⟩
    · exact ih h
    · exact ih h

/-- **What `kdma_dev_alloc` takes, `kdma_dev_free` gives back.** -/
theorem kdmaDevAlloc_free {bits b : BitVec 32} {dev : ℕ} (h : kdmaDevAlloc bits = some (dev, b)) :
    b &&& ~~~((1 : BitVec 32) <<< dev) = bits := by
  obtain ⟨hfree, rfl⟩ := kdmaDevAllocLoop_eq h
  exact or_and_not hfree

/-! ### The loops over the BARs -/

/-- The mapped addresses of some BARs. -/
def mappedAt (dev : KdmaDev) (is : List (Fin nbar)) : List (BitVec 64) :=
  (is.map dev.vadr).filter fun v => v ≠ 0

theorem mappedAt_cons (dev : KdmaDev) (i : Fin nbar) (is : List (Fin nbar)) :
    mappedAt dev (i :: is) = if dev.vadr i = 0 then mappedAt dev is
      else dev.vadr i :: mappedAt dev is := by
  unfold mappedAt
  rw [List.map_cons, List.filter_cons]
  by_cases h : dev.vadr i = 0
  · rw [if_pos h, if_neg (by simpa using h)]
  · rw [if_neg h, if_pos (by simpa using h)]

theorem mappedAt_congr {dev dev' : KdmaDev} {is : List (Fin nbar)}
    (h : ∀ i ∈ is, dev.vadr i = dev'.vadr i) : mappedAt dev is = mappedAt dev' is := by
  unfold mappedAt
  rw [List.map_congr_left h]

theorem mappedAt_eq_nil {dev : KdmaDev} {is : List (Fin nbar)} (h : ∀ i ∈ is, dev.vadr i = 0) :
    mappedAt dev is = [] := by
  refine List.filter_eq_nil_iff.mpr ?_
  intro v hv
  obtain ⟨i, hi, rfl⟩ := List.mem_map.mp hv
  simpa using h i hi

theorem setBar_vadr_self (dev : KdmaDev) (i : Fin nbar) (vadr len : BitVec 64) :
    (dev.setBar i vadr len).vadr i = vadr := by
  show Function.update dev.vadr i vadr i = vadr
  rw [Function.update_self]

theorem setBar_vadr_of_ne {i j : Fin nbar} (h : j ≠ i) (dev : KdmaDev) (vadr len : BitVec 64) :
    (dev.setBar i vadr len).vadr j = dev.vadr j := by
  show Function.update dev.vadr i vadr j = dev.vadr j
  rw [Function.update_of_ne h]

/-- What the unmapping of some BARs does: their regions are released, their mappings undone. -/
theorem unmapLoop_spec (is : List (Fin nbar)) (hnodup : is.Nodup) (dev : KdmaDev) (s : PciState) :
    (∀ j, (unmapLoop is dev s).1.vadr j = if j ∈ is then 0 else dev.vadr j) ∧
    (unmapLoop is dev s).2 = { s with
      regions := fun j => if j ∈ is ∧ dev.vadr j ≠ 0 then false else s.regions j
      mappings := s.mappings - (mappedAt dev is : Multiset (BitVec 64)) } := by
  induction is generalizing dev s with
  | nil => simp [unmapLoop, mappedAt]
  | cons i is ih =>
    obtain ⟨hi, hnodup⟩ := List.nodup_cons.mp hnodup
    have hother : ∀ j ∈ is, j ≠ i := fun j hj heq => hi (heq ▸ hj)
    by_cases hvadr : dev.vadr i = 0
    · obtain ⟨ihvadr, ihstate⟩ := ih hnodup dev s
      simp only [unmapLoop, hvadr, ne_eq, not_true_eq_false, if_false]
      refine ⟨?_, ?_⟩
      · intro j
        rw [ihvadr]
        by_cases hj : j = i
        · simp [hj, hi, hvadr]
        · simp [hj]
      · rw [ihstate, mappedAt_cons, if_pos hvadr]
        congr 1
        funext j
        by_cases hj : j = i
        · simp [hj, hi, hvadr]
        · simp [hj]
    · obtain ⟨ihvadr, ihstate⟩ := ih hnodup (dev.setBar i 0 0)
        (iounmap (dev.vadr i) (pciReleaseRegion i s))
      have hrest : mappedAt (dev.setBar i 0 0) is = mappedAt dev is :=
        mappedAt_congr fun j hj => setBar_vadr_of_ne (hother j hj) dev 0 0
      simp only [unmapLoop, ne_eq, hvadr, not_false_eq_true, if_true]
      refine ⟨?_, ?_⟩
      · intro j
        rw [ihvadr]
        by_cases hj : j = i
        · simp [hj, hi, setBar_vadr_self]
        · simp [hj, setBar_vadr_of_ne]
      · rw [ihstate, hrest, mappedAt_cons, if_neg hvadr]
        simp only [iounmap, pciReleaseRegion, ← Multiset.cons_coe, Multiset.sub_cons]
        congr 1
        funext j
        by_cases hj : j = i
        · subst hj
          simp only [hi, hvadr, List.mem_cons, true_or, ne_eq, not_false_eq_true, and_self,
            false_and, if_false, if_true, Function.update_self]
        · simp only [hj, List.mem_cons, false_or, setBar_vadr_of_ne hj, Function.update_of_ne hj]

/-- The request of a region succeeds. -/
def Requested (env : ProbeEnv) (s : PciState) (i : Fin nbar) : Prop :=
  s.regions i = false ∧ env.requestRegion i = 0

/-- The first of some regions that cannot be mapped is one that is requested, but not remapped. -/
def Lost (pci : Fin nbar → Resource) (env : ProbeEnv) (s : PciState) (is : List (Fin nbar))
    (j : Fin nbar) : Prop :=
  ∃ pre post, is = pre ++ j :: post ∧ (MemRegion pci j ∧ Requested env s j ∧ env.ioremap j = 0) ∧
    ∀ i ∈ pre, MemRegion pci i → Requested env s i ∧ env.ioremap i ≠ 0

section MapLoop

variable {pci : Fin nbar → Resource} {env : ProbeEnv} {s₀ : PciState}

theorem not_lost_nil (j : Fin nbar) : ¬ Lost pci env s₀ [] j := by
  rintro ⟨pre, post, heq, -⟩
  exact absurd heq (by simp)

theorem lost_cons (i : Fin nbar) (is : List (Fin nbar)) (j : Fin nbar) :
    Lost pci env s₀ (i :: is) j ↔
      (j = i ∧ MemRegion pci i ∧ Requested env s₀ i ∧ env.ioremap i = 0) ∨
      (MemRegion pci i → Requested env s₀ i ∧ env.ioremap i ≠ 0) ∧ Lost pci env s₀ is j := by
  constructor
  · rintro ⟨pre, post, heq, hj, hpre⟩
    cases pre with
    | nil =>
      obtain ⟨rfl, -⟩ := List.cons.inj heq
      exact Or.inl ⟨rfl, hj⟩
    | cons i' pre =>
      obtain ⟨rfl, htail⟩ := List.cons.inj heq
      exact Or.inr ⟨hpre i List.mem_cons_self,
        pre, post, htail, hj, fun k hk => hpre k (List.mem_cons_of_mem i hk)⟩
  · rintro (⟨rfl, hj⟩ | ⟨hi, pre, post, rfl, hj, hpre⟩)
    · exact ⟨[], is, rfl, hj, fun k hk => nomatch hk⟩
    · refine ⟨i :: pre, post, rfl, hj, ?_⟩
      intro k hk
      rcases List.mem_cons.mp hk with rfl | hk
      · exact hi
      · exact hpre k hk

/-- A BAR that can be passed loses none. -/
theorem lost_cons_of_go {i : Fin nbar}
    (hgo : MemRegion pci i → Requested env s₀ i ∧ env.ioremap i ≠ 0) (is : List (Fin nbar))
    (j : Fin nbar) :
    Lost pci env s₀ (i :: is) j ↔ Lost pci env s₀ is j := by
  rw [lost_cons]
  constructor
  · rintro (⟨-, hmemRegion, -, hzero⟩ | ⟨-, hj⟩)
    · exact absurd hzero (hgo hmemRegion).2
    · exact hj
  · intro hj
    exact Or.inr ⟨hgo, hj⟩

/-- A BAR that stops the loop is the only one that may be lost. -/
theorem lost_cons_of_stop {i : Fin nbar}
    (hstop : ¬ (MemRegion pci i → Requested env s₀ i ∧ env.ioremap i ≠ 0)) (is : List (Fin nbar))
    (j : Fin nbar) : Lost pci env s₀ (i :: is) j ↔
      j = i ∧ MemRegion pci i ∧ Requested env s₀ i ∧ env.ioremap i = 0 := by
  rw [lost_cons]
  exact or_iff_left fun h => hstop h.1

theorem Lost.mem {is : List (Fin nbar)} {j : Fin nbar} (h : Lost pci env s₀ is j) : j ∈ is := by
  obtain ⟨pre, post, rfl, -⟩ := h
  simp

/-- After an error, the loop maps nothing. -/
theorem mapLoop_err (pci : Fin nbar → Resource) (env : ProbeEnv) {err : Int} (herr : err ≠ 0)
    (is : List (Fin nbar)) (dev : KdmaDev) (s : PciState) :
    (mapLoop pci env is err dev s).1 = err ∧ (mapLoop pci env is err dev s).2.2 = s ∧
      ∀ j, (mapLoop pci env is err dev s).2.1.vadr j = if j ∈ is then 0 else dev.vadr j := by
  induction is generalizing dev with
  | nil => simp [mapLoop]
  | cons i is ih =>
    obtain ⟨ihres, ihstate, ihvadr⟩ := ih (dev.setBar i 0 0)
    simp only [mapLoop, herr, false_and, if_false]
    refine ⟨ihres, ihstate, ?_⟩
    intro j
    rw [ihvadr]
    by_cases hj : j = i
    · simp [hj, setBar_vadr_self]
    · simp [hj, setBar_vadr_of_ne]

/-- What the mapping of some BARs has done, from a state in which these are as at first. -/
structure MapResult (pci : Fin nbar → Resource) (env : ProbeEnv) (s₀ : PciState)
    (is : List (Fin nbar)) (dev : KdmaDev) (s : PciState) (r : Int × KdmaDev × PciState) :
    Prop where
  state : r.2.2 = { s with
    regions := r.2.2.regions
    mappings := s.mappings + (mappedAt r.2.1 is : Multiset (BitVec 64)) }
  other : ∀ j ∉ is, r.2.1.vadr j = dev.vadr j ∧ r.2.2.regions j = s.regions j
  mapped : ∀ j ∈ is, r.2.1.vadr j ≠ 0 → s₀.regions j = false ∧ ¬ Lost pci env s₀ is j
  regions : ∀ j ∈ is,
    (r.2.2.regions j = true ↔ s₀.regions j = true ∨ r.2.1.vadr j ≠ 0 ∨ Lost pci env s₀ is j)
  success : r.1 = 0 → ∀ j, ¬ Lost pci env s₀ is j

/-- The loop stops mapping at a BAR: what became of this one is the result. -/
theorem MapResult.stop {i : Fin nbar} {is : List (Fin nbar)} {dev : KdmaDev} {s t : PciState}
    {err : Int} (herr : err ≠ 0) (hsame : ∀ j ∈ i :: is, s.regions j = s₀.regions j)
    (hstate : t = { s with regions := t.regions })
    (hregions : ∀ j, j ≠ i → t.regions j = s.regions j)
    (hi : t.regions i = true ↔ s₀.regions i = true ∨ Lost pci env s₀ (i :: is) i)
    (hrest : ∀ j, j ≠ i → ¬ Lost pci env s₀ (i :: is) j) :
    MapResult pci env s₀ (i :: is) dev s (mapLoop pci env is err (dev.setBar i 0 0) t) := by
  obtain ⟨hres, hafter, hvadr⟩ := mapLoop_err pci env herr is (dev.setBar i 0 0) t
  generalize mapLoop pci env is err (dev.setBar i 0 0) t = r at hres hafter hvadr
  have hzero : ∀ j ∈ i :: is, r.2.1.vadr j = 0 := by
    intro j hj
    rw [hvadr]
    by_cases hmem : j ∈ is
    · rw [if_pos hmem]
    · obtain rfl : j = i := (List.mem_cons.mp hj).resolve_right hmem
      rw [if_neg hmem, setBar_vadr_self]
  constructor
  case state =>
    rw [hafter, mappedAt_eq_nil hzero, Multiset.coe_nil, Multiset.add_zero]
    exact hstate
  case other =>
    intro j hj
    obtain ⟨hne, hmem⟩ := not_or.mp (fun h => hj (List.mem_cons.mpr h))
    rw [hvadr, if_neg hmem, setBar_vadr_of_ne hne, hafter, hregions j hne]
    exact ⟨rfl, rfl⟩
  case mapped =>
    intro j hj hne
    exact absurd (hzero j hj) hne
  case regions =>
    intro j hj
    rw [hafter]
    by_cases hji : j = i
    · rw [hji, hi, hzero i List.mem_cons_self]
      simp
    · rw [hregions j hji, hsame j hj, hzero j hj]
      simp [hrest j hji]
  case success =>
    intro hok
    exact absurd (hres ▸ hok) herr

/-- The loop goes on after a BAR, mapped at `vadr` or not used. -/
theorem MapResult.next {i : Fin nbar} {is : List (Fin nbar)} (hnodup : (i :: is).Nodup)
    {dev : KdmaDev} {s t : PciState} {vadr len : BitVec 64} {r : Int × KdmaDev × PciState}
    (hstate : t = { s with
      regions := t.regions
      mappings := s.mappings + ((if vadr = 0 then [] else [vadr] : List (BitVec 64))) })
    (hregions : ∀ j, j ≠ i → t.regions j = s.regions j)
    (hi : t.regions i = true ↔ s₀.regions i = true ∨ vadr ≠ 0)
    (hfree : vadr ≠ 0 → s₀.regions i = false)
    (hgo : MemRegion pci i → Requested env s₀ i ∧ env.ioremap i ≠ 0)
    (h : MapResult pci env s₀ is (dev.setBar i vadr len) t r) :
    MapResult pci env s₀ (i :: is) dev s r := by
  obtain ⟨hmem, -⟩ := List.nodup_cons.mp hnodup
  obtain ⟨hvadr, hregion⟩ := h.other i hmem
  rw [setBar_vadr_self] at hvadr
  have hlost := lost_cons_of_go hgo is
  have hnot : ¬ Lost pci env s₀ is i := fun hi => hmem hi.mem
  constructor
  case state =>
    have hsum : s.mappings + ((if vadr = 0 then [] else [vadr] : List (BitVec 64))) +
        (mappedAt r.2.1 is : Multiset (BitVec 64))
        = s.mappings + (mappedAt r.2.1 (i :: is) : Multiset (BitVec 64)) := by
      rw [Multiset.add_assoc, Multiset.coe_add, mappedAt_cons, hvadr]
      by_cases hzero : vadr = 0
      · rw [if_pos hzero, if_pos hzero]
        rfl
      · rw [if_neg hzero, if_neg hzero]
        rfl
    calc r.2.2 = { t with
          regions := r.2.2.regions
          mappings := t.mappings + (mappedAt r.2.1 is : Multiset (BitVec 64)) } := h.state
      _ = { s with
          regions := r.2.2.regions
          mappings := s.mappings + (mappedAt r.2.1 (i :: is) : Multiset (BitVec 64)) } := by
        rw [← hsum, hstate]
  case other =>
    intro j hj
    obtain ⟨hne, hnotin⟩ := not_or.mp (fun h => hj (List.mem_cons.mpr h))
    obtain ⟨hv, hr⟩ := h.other j hnotin
    rw [hv, hr, setBar_vadr_of_ne hne, hregions j hne]
    exact ⟨rfl, rfl⟩
  case mapped =>
    intro j hj hne
    rw [hlost]
    rcases List.mem_cons.mp hj with rfl | hj
    · exact ⟨hfree (hvadr ▸ hne), hnot⟩
    · exact h.mapped j hj hne
  case regions =>
    intro j hj
    rw [hlost]
    rcases List.mem_cons.mp hj with rfl | hj
    · rw [hregion, hi, hvadr]
      simp [hnot]
    · exact h.regions j hj
  case success =>
    intro hok j
    rw [hlost]
    exact h.success hok j

theorem pciRequestRegion_ok {i : Fin nbar} {s : PciState} (h : Requested env s i) :
    pciRequestRegion env i s = (0, { s with regions := Function.update s.regions i true }) := by
  obtain ⟨hfree, hzero⟩ := h
  rw [pciRequestRegion, hfree, if_neg Bool.false_ne_true, if_neg (not_not.mpr hzero)]

theorem pciRequestRegion_fails {i : Fin nbar} {s : PciState} (h : ¬ Requested env s i) :
    ∃ err ≠ 0, pciRequestRegion env i s = (err, s) := by
  unfold pciRequestRegion
  by_cases hbusy : s.regions i = true
  · exact ⟨-16, by decide, if_pos hbusy⟩
  · have herr : env.requestRegion i ≠ 0 := fun hzero => h ⟨Bool.not_eq_true _ ▸ hbusy, hzero⟩
    exact ⟨env.requestRegion i, herr, by rw [if_neg hbusy, if_pos herr]⟩

/-- **What the loop of `kdma_dev_map_bars` does with a BAR**: it is not used; its request fails; it
is requested, but not remapped; or it is mapped. -/
theorem mapLoop_cases (pci : Fin nbar → Resource) (env : ProbeEnv) (i : Fin nbar)
    (is : List (Fin nbar)) (dev : KdmaDev) (s : PciState) :
    let held := { s with regions := Function.update s.regions i true }
    let next := mapLoop pci env (i :: is) 0 dev s
    ¬ MemRegion pci i ∧ next = mapLoop pci env is 0 (dev.setBar i 0 0) s ∨
    MemRegion pci i ∧ ¬ Requested env s i ∧
      (∃ err ≠ 0, next = mapLoop pci env is err (dev.setBar i 0 0) s) ∨
    MemRegion pci i ∧ Requested env s i ∧ env.ioremap i = 0 ∧
      next = mapLoop pci env is (-12) (dev.setBar i 0 0) held ∨
    MemRegion pci i ∧ Requested env s i ∧ env.ioremap i ≠ 0 ∧
      next = mapLoop pci env is 0 (dev.setBar i (env.ioremap i) (pci i).len)
        { held with mappings := env.ioremap i ::ₘ s.mappings } := by
  intro held next
  by_cases hmem : MemRegion pci i
  · by_cases hrequested : Requested env s i
    · by_cases hzero : env.ioremap i = 0
      · refine Or.inr (Or.inr (Or.inl ⟨hmem, hrequested, hzero, ?_⟩))
        simp only [next, mapLoop, hmem, and_self, if_true, pciRequestRegion_ok hrequested, ne_eq,
          not_true_eq_false, if_false, ioremapNocache, if_pos hzero, held]
      · refine Or.inr (Or.inr (Or.inr ⟨hmem, hrequested, hzero, ?_⟩))
        simp only [next, mapLoop, hmem, and_self, if_true, pciRequestRegion_ok hrequested, ne_eq,
          not_true_eq_false, if_false, ioremapNocache, if_neg hzero, held]
    · obtain ⟨err, herr, hfails⟩ := pciRequestRegion_fails hrequested
      refine Or.inr (Or.inl ⟨hmem, hrequested, err, herr, ?_⟩)
      simp only [next, mapLoop, hmem, and_self, if_true, hfails, ne_eq, herr, not_false_eq_true]
  · refine Or.inl ⟨hmem, ?_⟩
    simp only [next, mapLoop, hmem, and_false, if_false]

/-- **What the loop of `kdma_dev_map_bars` does**: it maps BARs up to the first that cannot be
mapped, and of this one it may keep the region. -/
theorem mapLoop_spec (is : List (Fin nbar)) (hnodup : is.Nodup) (dev : KdmaDev) (s : PciState)
    (hsame : ∀ j ∈ is, s.regions j = s₀.regions j) :
    MapResult pci env s₀ is dev s (mapLoop pci env is 0 dev s) := by
  induction is generalizing dev s with
  | nil =>
    constructor
    case state => simp [mapLoop, mappedAt]
    case other => exact fun j _ => ⟨rfl, rfl⟩
    case mapped => exact fun j hj => nomatch hj
    case regions => exact fun j hj => nomatch hj
    case success => exact fun _ j => not_lost_nil j
  | cons i is ih =>
    obtain ⟨hmem, htail⟩ := List.nodup_cons.mp hnodup
    have hi : s.regions i = s₀.regions i := hsame i List.mem_cons_self
    have hreq : Requested env s i ↔ Requested env s₀ i := by
      rw [Requested, Requested, hi]
    have hrest : ∀ j ∈ is, s.regions j = s₀.regions j :=
      fun j hj => hsame j (List.mem_cons_of_mem i hj)
    have hheld : ∀ j, j ≠ i → Function.update s.regions i true j = s.regions j :=
      fun j hj => Function.update_of_ne hj true s.regions
    rcases mapLoop_cases pci env i is dev s with ⟨hunused, heq⟩ |
      ⟨hregion, hrefused, err, herr, heq⟩ | ⟨hregion, hrequested, hzero, heq⟩ |
      ⟨hregion, hrequested, hzero, heq⟩
    · rw [heq]
      refine MapResult.next hnodup ?_ (fun _ _ => rfl) ?_ (fun h => absurd rfl h)
        (fun h => absurd h hunused) (ih htail _ s hrest)
      · simp
      · simp [hi]
    · rw [heq]
      have hlost := lost_cons_of_stop (fun hgo => hrefused (hreq.mpr (hgo hregion).1)) is
      refine MapResult.stop herr hsame rfl (fun _ _ => rfl) ?_ ?_
      · rw [hi, hlost]
        exact (or_iff_left fun h => hrefused (hreq.mpr h.2.2.1)).symm
      · intro j hj
        rw [hlost]
        exact fun h => hj h.1
    · rw [heq]
      have hstop : ¬ (MemRegion pci i → Requested env s₀ i ∧ env.ioremap i ≠ 0) :=
        fun hgo => (hgo hregion).2 hzero
      have hlost := lost_cons_of_stop hstop is
      refine MapResult.stop (by decide) hsame rfl hheld ?_ ?_
      · rw [hlost]
        exact iff_of_true (Function.update_self i true s.regions)
          (Or.inr ⟨rfl, hregion, hreq.mp hrequested, hzero⟩)
      · intro j hj
        rw [hlost]
        exact fun h => hj h.1
    · rw [heq]
      refine MapResult.next hnodup ?_ hheld ?_ (fun _ => (hreq.mp hrequested).1)
        (fun _ => ⟨hreq.mp hrequested, hzero⟩) (ih htail _ _ ?_)
      · rw [if_neg hzero, Multiset.add_comm]
        rfl
      · exact iff_of_true (Function.update_self i true s.regions) (Or.inr hzero)
      · intro j hj
        exact (hheld j fun heq => hmem (heq ▸ hj)).trans (hrest j hj)

/-- The unmapping of all BARs. -/
theorem kdmaDevUnmapBars_spec (dev : KdmaDev) (s : PciState) :
    (∀ j, (kdmaDevUnmapBars dev s).1.vadr j = 0) ∧
    (kdmaDevUnmapBars dev s).2 = { s with
      regions := fun j => if dev.vadr j ≠ 0 then false else s.regions j
      mappings := s.mappings - (mappedAt dev (List.finRange nbar) : Multiset (BitVec 64)) } := by
  obtain ⟨hvadr, hstate⟩ := unmapLoop_spec (List.finRange nbar) (List.nodup_finRange nbar) dev s
  simp only [List.mem_finRange, if_true, true_and] at hvadr hstate
  exact ⟨hvadr, hstate⟩

/-- To unmap twice is to unmap once. -/
theorem kdmaDevUnmapBars_twice (dev : KdmaDev) (s : PciState) :
    (kdmaDevUnmapBars (kdmaDevUnmapBars dev s).1 (kdmaDevUnmapBars dev s).2).2
      = (kdmaDevUnmapBars dev s).2 := by
  obtain ⟨hzero, -⟩ := kdmaDevUnmapBars_spec dev s
  generalize kdmaDevUnmapBars dev s = r at hzero
  rw [(kdmaDevUnmapBars_spec r.1 r.2).2, mappedAt_eq_nil fun j _ => hzero j, Multiset.coe_nil,
    Multiset.sub_zero]
  simp only [hzero, ne_eq, not_true_eq_false, if_false]

/-- **The BARs mapped and unmapped**: all is as before, but for the regions that are lost; and none
is lost if the mapping succeeds. -/
theorem unmapBars_mapBars (pci : Fin nbar → Resource) (env : ProbeEnv) (dev : KdmaDev)
    (s : PciState) :
    let mapped := kdmaDevMapBars pci env dev s
    ∃ regions, (kdmaDevUnmapBars mapped.2.1 mapped.2.2).2 = { s with regions := regions } ∧
      (∀ j, regions j = true ↔ s.regions j = true ∨ Lost pci env s (List.finRange nbar) j) ∧
      (mapped.1 = 0 → ∀ j, ¬ Lost pci env s (List.finRange nbar) j) := by
  intro mapped
  have hresult : MapResult pci env s (List.finRange nbar) dev s
      (mapLoop pci env (List.finRange nbar) 0 dev s) :=
    mapLoop_spec (List.finRange nbar) (List.nodup_finRange nbar) dev s fun _ _ => rfl
  have hmapped : mapped = kdmaDevMapBars pci env dev s := rfl
  unfold kdmaDevMapBars at hmapped
  generalize mapLoop pci env (List.finRange nbar) 0 dev s = r at hresult hmapped
  have honce : (kdmaDevUnmapBars mapped.2.1 mapped.2.2).2 = (kdmaDevUnmapBars r.2.1 r.2.2).2 := by
    by_cases herr : r.1 = 0
    · rw [hmapped, if_neg (not_not.mpr herr)]
    · rw [hmapped, if_pos herr]
      exact kdmaDevUnmapBars_twice r.2.1 r.2.2
  have hres : mapped.1 = r.1 := by
    by_cases herr : r.1 = 0
    · rw [hmapped, if_neg (not_not.mpr herr)]
    · rw [hmapped, if_pos herr]
  refine ⟨fun j => if r.2.1.vadr j ≠ 0 then false else r.2.2.regions j, ?_, ?_, ?_⟩
  · rw [honce, (kdmaDevUnmapBars_spec r.2.1 r.2.2).2]
    have hstate := hresult.state
    generalize r.2.2 = t at hstate
    rw [hstate, Multiset.add_sub_cancel_right]
  · intro j
    have hmapped := hresult.mapped j (List.mem_finRange j)
    have hregions := hresult.regions j (List.mem_finRange j)
    by_cases hzero : r.2.1.vadr j = 0
    · simp only [hzero, ne_eq, not_true_eq_false, if_false, hregions, false_or]
    · obtain ⟨hfree, hlost⟩ := hmapped hzero
      simp only [hzero, ne_eq, not_false_eq_true, if_true, hfree, hlost, Bool.false_eq_true,
        or_self]
  · intro hok
    exact hresult.success (hres ▸ hok)

end MapLoop

/-! ### The probe -/

/-- A device that is bound to no driver. -/
structure Unbound (s : PciState) : Prop where
  drvdata : s.drvdata = none
  msi : s.msi = false

/-- The unmapping leaves MSI and the handlers alone. -/
theorem kdmaDevUnmapBars_irq (dev : KdmaDev) (s : PciState) (msi : Bool) (handlers : List ℕ) :
    (kdmaDevUnmapBars dev { s with msi := msi, handlers := handlers }).2
      = { (kdmaDevUnmapBars dev s).2 with msi := msi, handlers := handlers } := by
  rw [(kdmaDevUnmapBars_spec dev _).2, (kdmaDevUnmapBars_spec dev s).2]

/-- **A probe that fails after the device is enabled** undoes all but the regions that are lost, and
disables the device. -/
theorem probeEnabled_error {pci : Fin nbar → Resource} {env : ProbeEnv} {dev : ℕ} {s : PciState}
    (hmsi : s.msi = false) (herr : (probeEnabled pci env dev s).1 ≠ 0) :
    ∃ regions, (probeEnabled pci env dev s).2
        = onError1 dev (pciDisableDevice { s with regions := regions }) ∧
      ∀ j, regions j = true ↔ s.regions j = true ∨ Lost pci env s (List.finRange nbar) j := by
  obtain ⟨regions, hunmap, hregions, -⟩ := unmapBars_mapBars pci env kdmaDevInit s
  generalize hmapped : kdmaDevMapBars pci env kdmaDevInit s = mapped at hunmap
  refine ⟨regions, ?_, hregions⟩
  have hhandlers : mapped.2.2.handlers = s.handlers := by
    have hafter := congrArg PciState.handlers hunmap
    rw [(kdmaDevUnmapBars_spec mapped.2.1 mapped.2.2).2] at hafter
    exact hafter
  -- the way from on_error_2 on, whatever was set before it
  have hundo : onError2 dev mapped.2.1
      { mapped.2.2 with msi := false, handlers := mapped.2.2.handlers }
        = onError1 dev (pciDisableDevice { s with regions := regions }) := by
    rw [onError2, kdmaDevUnmapBars_irq, hunmap, hhandlers]
    simp only [← hmsi]
  have hundo₂ : onError2 dev mapped.2.1 mapped.2.2
      = onError1 dev (pciDisableDevice { s with regions := regions }) := by
    rw [onError2, hunmap]
  simp only [probeEnabled, hmapped] at herr ⊢
  split_ifs at herr ⊢ with h₁ h₂ h₃ h₄
  · exact hundo₂
  · exact hundo₂
  · exact hundo
  · rw [onError4, onError3, List.erase_cons_head]
    exact hundo
  · exact absurd rfl herr

/-- The device given back, the driver data cleared. -/
theorem onError1_allocated {s : PciState} {bits : BitVec 32} {dev : ℕ} (hdrvdata : s.drvdata = none)
    (hbits : bits &&& ~~~((1 : BitVec 32) <<< dev) = s.bits) (regions : Fin nbar → Bool) (cnt : ℕ) :
    onError1 dev
        { s with bits := bits, drvdata := some dev, regions := regions, enableCnt := cnt }
      = { s with regions := regions, enableCnt := cnt } := by
  simp only [onError1, kdmaDevFree, hbits, ← hdrvdata]

/-- The regions that a failed mapping leaves are those before exactly if none is lost. -/
theorem regions_eq_iff {pci : Fin nbar → Resource} {env : ProbeEnv} {s : PciState}
    {is : List (Fin nbar)} {regions : Fin nbar → Bool}
    (h : ∀ j, regions j = true ↔ s.regions j = true ∨ Lost pci env s is j) :
    regions = s.regions ↔ ∀ j, ¬ Lost pci env s is j := by
  constructor
  · intro heq j hlost
    have hheld := (h j).mpr (Or.inr hlost)
    obtain ⟨-, -, -, ⟨-, hrequested, -⟩, -⟩ := hlost
    rw [heq, hrequested.1] at hheld
    exact Bool.false_ne_true hheld
  · intro hnone
    funext j
    exact Bool.eq_iff_iff.mpr ((h j).trans (or_iff_left (hnone j)))

/-- **When a failed probe leaves no trace**: there is no free device, or the device was not enabled
and either stays so or loses no region. -/
theorem probe_noTrace_iff {pci : Fin nbar → Resource} {env : ProbeEnv} {s : PciState}
    (hs : Unbound s) (herr : (kdmaPciProbe pci env s).1 ≠ 0) :
    (kdmaPciProbe pci env s).2 = s ↔
      kdmaDevAlloc s.bits = none ∨
      s.enableCnt = 0 ∧ (env.enableDevice ≠ 0 ∨ ∀ j, ¬ Lost pci env s (List.finRange nbar) j) := by
  cases halloc : kdmaDevAlloc s.bits with
  | none => simp only [kdmaPciProbe, halloc, true_or]
  | some p =>
    obtain ⟨dev, bits⟩ := p
    have hbits := kdmaDevAlloc_free halloc
    simp only [kdmaPciProbe, halloc, reduceCtorEq, false_or] at herr ⊢
    by_cases hcnt : s.enableCnt = 0
    · rw [if_pos hcnt] at herr ⊢
      by_cases henable : env.enableDevice = 0
      · -- enabled by the probe, and disabled again
        simp only [pciEnableDevice, henable, ne_eq, not_true_eq_false, if_false, false_or,
          hcnt, true_and] at herr ⊢
        obtain ⟨regions, hstate, hregions⟩ := probeEnabled_error (by exact hs.msi) herr
        have hnone : regions = s.regions ↔ ∀ j, ¬ Lost pci env s (List.finRange nbar) j :=
          regions_eq_iff hregions
        rw [hstate, pciDisableDevice, onError1_allocated hs.drvdata hbits, ← hnone]
        constructor
        · intro h
          exact congrArg PciState.regions h
        · intro h
          rw [h]
          simp only [← hcnt]
          rfl
      · -- not enabled
        simp only [pciEnableDevice, henable, ne_eq, not_false_eq_true, if_true, true_or, and_true]
        exact iff_of_true (onError1_allocated hs.drvdata hbits s.regions s.enableCnt) hcnt
    · -- enabled before, and disabled by the probe
      rw [if_neg hcnt] at herr ⊢
      obtain ⟨regions, hstate, -⟩ := probeEnabled_error (by exact hs.msi) herr
      rw [hstate, pciDisableDevice, onError1_allocated hs.drvdata hbits]
      refine iff_of_false ?_ fun h => hcnt h.1
      intro h
      have hsame : s.enableCnt - 1 = s.enableCnt := congrArg PciState.enableCnt h
      omega

/-- A device with a region of 256 bytes for BAR 1. -/
def oneRegion (i : Fin nbar) : Resource :=
  if i.val = 1 then ⟨0x200, 0xfe000000, 0x100⟩ else ⟨0, 0, 0⟩

/-- All calls succeed but one or two. -/
def allSucceed : ProbeEnv where
  enableDevice := 0
  requestRegion _ := 0
  ioremap _ := 0xffffc90000000000
  enableMsi := 0
  requestIrq := 0
  cdevAdd := 0

/-- No device is allocated, and this one is not enabled. -/
def noDevice : PciState := ⟨0, fun _ => false, 0, 0, false, [], none⟩

theorem probe_noTrace_requestIrq :
    (kdmaPciProbe oneRegion { allSucceed with requestIrq := -16 } noDevice).2 = noDevice := by
  refine (probe_noTrace_iff ⟨rfl, rfl⟩ (by decide +kernel)).mpr (Or.inr ⟨rfl, Or.inr ?_⟩)
  rintro j ⟨-, -, -, ⟨-, -, hzero⟩, -⟩
  have hsome : (0xffffc90000000000 : BitVec 64) ≠ 0 := by decide
  exact hsome hzero

/-- **A region is lost**: BAR 1 is requested and cannot be remapped. -/
theorem failedIoremap_keepsRegion :
    (kdmaPciProbe oneRegion { allSucceed with ioremap := fun _ => 0 } noDevice).1 = -12 ∧
    (kdmaPciProbe oneRegion { allSucceed with ioremap := fun _ => 0 } noDevice).2 ≠ noDevice := by
  refine ⟨by decide +kernel, ?_⟩
  intro h
  have hregion := congrFun (congrArg PciState.regions h) 1
  revert hregion
  decide +kernel

end VPcie.Kdma
