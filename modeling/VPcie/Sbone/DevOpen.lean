import Mathlib.Data.BitVec
import Mathlib.Data.List.FinRange
import Mathlib.Data.List.Perm.Basic
import Mathlib.Tactic.Common

/-!
# Opening the sbone device

`sbone_dev_open_pcie` and `sbone_dev_close` (`sbone_dev.c`): the user program maps the BARs of the
device through `/dev/mem`.  What libpci and the kernel return is the environment of a call; the
calls of `mmap` that succeed and all calls of `munmap` are recorded with their address and size.

* `mapBars_cases` — the loop over the BARs maps all, or stops at the first `mmap` that fails;
* `sboneDevClose_open` — the close unmaps what a successful open has mapped;
* `openPcie_unmaps_iff` — the failures after which the calls of `munmap` are for the mappings.
-/

namespace VPcie.Sbone

/-- The length of `bar_addrs` and `bar_sizes`. -/
abbrev nbar : ℕ := 6

/-- BAR 0. -/
def bar0 : Fin nbar := ⟨0, by decide⟩

/-- `sbone_dev_t`. -/
structure SboneDev where
  fd : Int
  nid : Int
  barAddrs : Fin nbar → BitVec 64
  barSizes : Fin nbar → BitVec 64

/-- `MAP_FAILED`, as an address. -/
def mapFailed : BitVec 64 := BitVec.allOnes 64

/-- What libpci says of a BAR: `base_addr` and `size` as `pci_fill_info` leaves them, and the
register as it reads after all ones have been written to it. -/
structure PciBar where
  baseAddr : BitVec 64
  size : BitVec 64
  probed : BitVec 32

/-- What the calls of an open return: whether there is memory for a `pci_access`, the device if it
is found, the descriptors of `/dev/mem` and `/dev/sbone`, -1 for an error, and the address of each
`mmap`. -/
structure OpenEnv where
  pciAlloc : Bool
  pciGetDev : Option (Fin nbar → PciBar)
  openMem : Int
  mmap : Fin nbar → BitVec 64
  openSbone : Int

/-- What the open gives back before it returns. -/
inductive Resource where
  | pciAccess
  | pciDev
  | memFd
deriving DecidableEq, Repr

/-- An address and a size, of a mapping or of a call of `munmap`. -/
abbrev Mapping := BitVec 64 × BitVec 64

/-- The result of an open, the device, the mappings made, the calls of `munmap`, and the cleanup. -/
structure OpenResult where
  err : Int
  dev : SboneDev
  mmaps : List Mapping
  munmaps : List Mapping
  released : List Resource

/-- `get_bar_size`. -/
def getBarSize (probed : BitVec 32) : BitVec 32 :=
  -- `PCI_ADDR_FLAG_MASK`
  let size := probed &&& ~~~0xf
  ~~~size + 1

/-- `pci_dev->size[i]` after the probe. -/
def PciBar.barSize (bar : PciBar) : BitVec 64 :=
  if bar.baseAddr ≠ 0 then (getBarSize bar.probed).setWidth 64 else bar.size

/-- The device and the calls, while the BARs are mapped. -/
structure MapState where
  dev : SboneDev
  mmaps : List Mapping
  munmaps : List Mapping

/-- The loop over `j` when the `mmap` of BAR `i` has failed. -/
def unmapBars (i : Fin nbar) (s : MapState) : MapState :=
  -- the address and the size are those of `i`, not of `j`
  { s with
    munmaps := s.munmaps ++ (List.range i).map fun _ => (s.dev.barAddrs i, s.dev.barSizes i) }

/-- The loop over the BARs: whether it goes to its end, and the state after it. -/
def mapBars (bars : Fin nbar → PciBar) (mmap : Fin nbar → BitVec 64) :
    List (Fin nbar) → MapState → Bool × MapState
  | [], s => (true, s)
  | i :: is, s =>
    let size := (bars i).barSize
    let s := { s with dev := { s.dev with barSizes := Function.update s.dev.barSizes i size } }
    if size = 0 then mapBars bars mmap is s
    else
      let addr := mmap i
      let s := { s with dev := { s.dev with barAddrs := Function.update s.dev.barAddrs i addr } }
      if addr = mapFailed then (false, unmapBars i s)
      else mapBars bars mmap is { s with mmaps := s.mmaps ++ [(addr, size)] }

/-- `sbone_dev_open_pcie`. -/
def sboneDevOpenPcie (env : OpenEnv) (dev : SboneDev) : OpenResult :=
  -- zero device
  let dev := { dev with barSizes := fun _ => 0, nid := -1 }
  if env.pciAlloc then
    match env.pciGetDev with
    | none => ⟨-1, dev, [], [], [.pciAccess]⟩
    | some bars =>
      if env.openMem = -1 then ⟨-1, dev, [], [], [.pciDev, .pciAccess]⟩
      else
        let m := mapBars bars env.mmap (List.finRange nbar) ⟨dev, [], []⟩
        let released := [.memFd, .pciDev, .pciAccess]
        if m.1 then
          let dev := { m.2.dev with fd := env.openSbone }
          if env.openSbone = -1 then ⟨-1, dev, m.2.mmaps, m.2.munmaps, released⟩
          else ⟨0, dev, m.2.mmaps, m.2.munmaps, released⟩
        else ⟨-1, m.2.dev, m.2.mmaps, m.2.munmaps, released⟩
  else ⟨-1, dev, [], [], []⟩

/-- The calls of `munmap` of `sbone_dev_close`. -/
def sboneDevClose (dev : SboneDev) : List Mapping :=
  (List.finRange nbar).filterMap fun i =>
    if dev.barSizes i = 0 then none else some (dev.barAddrs i, dev.barSizes i)

/-! ### The loop over the BARs -/

section MapBars

variable {bars : Fin nbar → PciBar} {mmap : Fin nbar → BitVec 64}

/-- The `mmap` of a BAR fails. -/
def MmapFails (bars : Fin nbar → PciBar) (mmap : Fin nbar → BitVec 64) (i : Fin nbar) : Prop :=
  (bars i).barSize ≠ 0 ∧ mmap i = mapFailed

instance (bars : Fin nbar → PciBar) (mmap : Fin nbar → BitVec 64) (i : Fin nbar) :
    Decidable (MmapFails bars mmap i) := inferInstanceAs (Decidable (_ ∧ _))

/-- The mappings of a list of BARs none of which fails. -/
def mappingsOf (bars : Fin nbar → PciBar) (mmap : Fin nbar → BitVec 64) (is : List (Fin nbar)) :
    List Mapping :=
  is.filterMap fun i => if (bars i).barSize = 0 then none else some (mmap i, (bars i).barSize)

theorem mem_mappingsOf {is : List (Fin nbar)} {m : Mapping} :
    m ∈ mappingsOf bars mmap is ↔
      ∃ i ∈ is, (bars i).barSize ≠ 0 ∧ m = (mmap i, (bars i).barSize) := by
  simp only [mappingsOf, List.mem_filterMap, Option.ite_none_left_eq_some, Option.some.injEq, ne_eq,
    eq_comm (a := m)]

/-- The state after a BAR that is not there: its size is recorded. -/
theorem mapBars_absent {i : Fin nbar} {is : List (Fin nbar)} {s : MapState}
    (habsent : (bars i).barSize = 0) :
    mapBars bars mmap (i :: is) s
      = mapBars bars mmap is
          { s with dev := { s.dev with barSizes := Function.update s.dev.barSizes i 0 } } := by
  simp only [mapBars, habsent, if_true]

/-- The state when an `mmap` fails: what it returned is recorded, and unmapped. -/
theorem mapBars_failed {i : Fin nbar} {is : List (Fin nbar)} {s : MapState}
    (hfail : MmapFails bars mmap i) :
    mapBars bars mmap (i :: is) s
      = (false, unmapBars i
          { s with
            dev := { s.dev with
              barSizes := Function.update s.dev.barSizes i (bars i).barSize
              barAddrs := Function.update s.dev.barAddrs i mapFailed } }) := by
  simp only [mapBars, hfail.1, hfail.2, if_false, if_true]

/-- The state after a BAR that is mapped. -/
theorem mapBars_mapped {i : Fin nbar} {is : List (Fin nbar)} {s : MapState}
    (hpresent : (bars i).barSize ≠ 0) (hpass : mmap i ≠ mapFailed) :
    mapBars bars mmap (i :: is) s
      = mapBars bars mmap is
          { s with
            dev := { s.dev with
              barSizes := Function.update s.dev.barSizes i (bars i).barSize
              barAddrs := Function.update s.dev.barAddrs i (mmap i) }
            mmaps := s.mmaps ++ [(mmap i, (bars i).barSize)] } := by
  simp only [mapBars, hpresent, hpass, if_false]

variable (bars mmap) in
/-- **What the loop does**: it maps every BAR that is there, or it stops at the first `mmap` that
fails and then calls `munmap` once for each BAR before, with what that `mmap` returned. -/
theorem mapBars_cases (is : List (Fin nbar)) (s : MapState) :
    ((∀ i ∈ is, ¬ MmapFails bars mmap i) ∧ (mapBars bars mmap is s).1 = true ∧
        (mapBars bars mmap is s).2.mmaps = s.mmaps ++ mappingsOf bars mmap is ∧
        (mapBars bars mmap is s).2.munmaps = s.munmaps) ∨
      ∃ pre i post, is = pre ++ i :: post ∧ (∀ j ∈ pre, ¬ MmapFails bars mmap j) ∧
        MmapFails bars mmap i ∧ (mapBars bars mmap is s).1 = false ∧
        (mapBars bars mmap is s).2.mmaps = s.mmaps ++ mappingsOf bars mmap pre ∧
        (mapBars bars mmap is s).2.munmaps
          = s.munmaps ++ List.replicate i (mapFailed, (bars i).barSize) := by
  induction is generalizing s with
  | nil => exact Or.inl ⟨fun i hi => absurd hi List.not_mem_nil, rfl, (List.append_nil _).symm, rfl⟩
  | cons i is ih =>
    by_cases habsent : (bars i).barSize = 0
    · have hpass : ¬ MmapFails bars mmap i := fun h => h.1 habsent
      have hskip : ∀ l, mappingsOf bars mmap (i :: l) = mappingsOf bars mmap l := by
        intro l
        exact List.filterMap_cons_none (if_pos habsent)
      rw [mapBars_absent habsent]
      rcases ih { s with dev := { s.dev with barSizes := Function.update s.dev.barSizes i 0 } }
        with ⟨hall, hdone, hmaps, hunmaps⟩ | ⟨pre, k, post, rfl, hpre, hfail, hdone, hmaps, hunmaps⟩
      · refine Or.inl ⟨List.forall_mem_cons.mpr ⟨hpass, hall⟩, hdone, ?_, hunmaps⟩
        rw [hmaps, hskip]
      · refine Or.inr ⟨i :: pre, k, post, rfl, List.forall_mem_cons.mpr ⟨hpass, hpre⟩, hfail, hdone,
          ?_, hunmaps⟩
        rw [hmaps, hskip]
    · by_cases hfail : mmap i = mapFailed
      · refine Or.inr ⟨[], i, is, rfl, fun j hj => absurd hj List.not_mem_nil, ⟨habsent, hfail⟩, ?_⟩
        rw [mapBars_failed ⟨habsent, hfail⟩]
        simp only [unmapBars, Function.update_self, List.map_const', List.length_range]
        exact ⟨trivial, (List.append_nil _).symm, trivial⟩
      · have hpass : ¬ MmapFails bars mmap i := fun h => hfail h.2
        have hmap : ∀ l, mappingsOf bars mmap (i :: l)
            = (mmap i, (bars i).barSize) :: mappingsOf bars mmap l := by
          intro l
          exact List.filterMap_cons_some (if_neg habsent)
        rw [mapBars_mapped habsent hfail]
        rcases ih _ with ⟨hall, hdone, hmaps, hunmaps⟩ |
          ⟨pre, k, post, rfl, hpre, hlast, hdone, hmaps, hunmaps⟩
        · refine Or.inl ⟨List.forall_mem_cons.mpr ⟨hpass, hall⟩, hdone, ?_, hunmaps⟩
          rw [hmaps, hmap, List.append_assoc]
          rfl
        · refine Or.inr ⟨i :: pre, k, post, rfl, List.forall_mem_cons.mpr ⟨hpass, hpre⟩, hlast,
            hdone, ?_, hunmaps⟩
          rw [hmaps, hmap, List.append_assoc]
          rfl

/-- The device knows the size of a BAR, and where it is mapped. -/
def Recorded (bars : Fin nbar → PciBar) (mmap : Fin nbar → BitVec 64) (dev : SboneDev)
    (i : Fin nbar) : Prop :=
  dev.barSizes i = (bars i).barSize ∧ ((bars i).barSize ≠ 0 → dev.barAddrs i = mmap i)

/-- A loop that goes to its end records every BAR. -/
theorem mapBars_recorded {is : List (Fin nbar)} {s : MapState} {i : Fin nbar}
    (hi : i ∈ is ∨ Recorded bars mmap s.dev i) (hdone : (mapBars bars mmap is s).1 = true) :
    Recorded bars mmap (mapBars bars mmap is s).2.dev i := by
  induction is generalizing s with
  | nil => exact hi.resolve_left List.not_mem_nil
  | cons k is ih =>
    by_cases habsent : (bars k).barSize = 0
    · rw [mapBars_absent habsent] at hdone ⊢
      refine ih ?_ hdone
      by_cases hik : i = k
      · subst hik
        refine Or.inr ⟨?_, fun hsize => absurd habsent hsize⟩
        rw [habsent]
        exact Function.update_self ..
      · rcases hi with hmem | ⟨hsize, haddr⟩
        · exact Or.inl ((List.mem_cons.mp hmem).resolve_left hik)
        · exact Or.inr ⟨(Function.update_of_ne hik ..).trans hsize, haddr⟩
    · by_cases hfail : mmap k = mapFailed
      · rw [mapBars_failed ⟨habsent, hfail⟩] at hdone
        cases hdone
      · rw [mapBars_mapped habsent hfail] at hdone ⊢
        refine ih ?_ hdone
        by_cases hik : i = k
        · subst hik
          exact Or.inr ⟨Function.update_self .., fun _ => Function.update_self ..⟩
        · rcases hi with hmem | ⟨hsize, haddr⟩
          · exact Or.inl ((List.mem_cons.mp hmem).resolve_left hik)
          · exact Or.inr ⟨(Function.update_of_ne hik ..).trans hsize,
              fun hpresent => (Function.update_of_ne hik ..).trans (haddr hpresent)⟩

variable (bars mmap) in
/-- **The close unmaps what is recorded.** -/
theorem sboneDevClose_recorded {dev : SboneDev} (h : ∀ i, Recorded bars mmap dev i) :
    sboneDevClose dev = mappingsOf bars mmap (List.finRange nbar) := by
  unfold sboneDevClose mappingsOf
  apply List.filterMap_congr
  intro i _
  obtain ⟨hsize, haddr⟩ := h i
  rw [hsize]
  split_ifs with habsent
  · rfl
  · rw [haddr habsent]

end MapBars

/-! ### The calls of an open -/

section Open

variable {env : OpenEnv} {dev : SboneDev}

/-- The open from the loop on. -/
theorem sboneDevOpenPcie_loop {bars : Fin nbar → PciBar} (halloc : env.pciAlloc = true)
    (hdev : env.pciGetDev = some bars) (hmem : env.openMem ≠ -1) (dev : SboneDev) :
    let m := mapBars bars env.mmap (List.finRange nbar)
      ⟨{ dev with barSizes := fun _ => 0, nid := -1 }, [], []⟩
    sboneDevOpenPcie env dev =
      { err := if m.1 = true ∧ env.openSbone ≠ -1 then 0 else -1
        dev := if m.1 then { m.2.dev with fd := env.openSbone } else m.2.dev
        mmaps := m.2.mmaps
        munmaps := m.2.munmaps
        released := [.memFd, .pciDev, .pciAccess] } := by
  intro m
  have hloop : mapBars bars env.mmap (List.finRange nbar)
      ⟨{ dev with barSizes := fun _ => 0, nid := -1 }, [], []⟩ = m := rfl
  simp only [sboneDevOpenPcie, halloc, hdev, hmem, if_true, if_false, hloop]
  cases m.1 with
  | false => rfl
  | true =>
    by_cases hopen : env.openSbone = -1
    · simp only [hopen, if_true, ne_eq, not_true_eq_false, and_false, if_false]
    · simp only [hopen, if_true, ne_eq, not_false_eq_true, and_true, if_false]

/-- **The calls of an open**: none if it fails before the loop; those of the loop up to the `mmap`
that fails; or a mapping of every BAR that is there. -/
theorem openPcie_cases (env : OpenEnv) (dev : SboneDev) :
    let r := sboneDevOpenPcie env dev
    ((env.pciAlloc = false ∨ env.pciGetDev = none ∨ env.openMem = -1) ∧ r.err = -1 ∧
        r.mmaps = [] ∧ r.munmaps = []) ∨
      ∃ bars, (env.pciAlloc = true ∧ env.pciGetDev = some bars ∧ env.openMem ≠ -1) ∧
        ((∃ pre i post, List.finRange nbar = pre ++ i :: post ∧
            (∀ j ∈ pre, ¬ MmapFails bars env.mmap j) ∧ MmapFails bars env.mmap i ∧ r.err = -1 ∧
            r.mmaps = mappingsOf bars env.mmap pre ∧
            r.munmaps = List.replicate i (mapFailed, (bars i).barSize)) ∨
          ((∀ i, ¬ MmapFails bars env.mmap i) ∧
            r.err = (if env.openSbone = -1 then -1 else 0) ∧
            r.mmaps = mappingsOf bars env.mmap (List.finRange nbar) ∧ r.munmaps = [] ∧
            (r.err = 0 → sboneDevClose r.dev = r.mmaps))) := by
  intro r
  cases halloc : env.pciAlloc with
  | false => exact Or.inl ⟨Or.inl rfl, by simp [r, sboneDevOpenPcie, halloc]⟩
  | true =>
    cases hdev : env.pciGetDev with
    | none => exact Or.inl ⟨Or.inr (Or.inl rfl), by simp [r, sboneDevOpenPcie, halloc, hdev]⟩
    | some bars =>
      by_cases hmem : env.openMem = -1
      · exact Or.inl ⟨Or.inr (Or.inr hmem), by simp [r, sboneDevOpenPcie, halloc, hdev, hmem]⟩
      refine Or.inr ⟨bars, ⟨rfl, rfl, hmem⟩, ?_⟩
      have hopen : r = _ := sboneDevOpenPcie_loop halloc hdev hmem dev
      rcases mapBars_cases bars env.mmap (List.finRange nbar)
        ⟨{ dev with barSizes := fun _ => 0, nid := -1 }, [], []⟩ with
        ⟨hall, hdone, hmaps, hunmaps⟩ | ⟨pre, i, post, hsplit, hpre, hfail, hdone, hmaps, hunmaps⟩
      · have hclose : sboneDevClose r.dev = r.mmaps := by
          rw [hopen]
          refine (sboneDevClose_recorded bars env.mmap fun i => ?_).trans hmaps.symm
          have hrecorded := mapBars_recorded (Or.inl (List.mem_finRange i)) hdone
          rw [hdone]
          exact hrecorded
        refine Or.inr ⟨fun i => hall i (List.mem_finRange i), ?_, ?_, ?_, fun _ => hclose⟩
        · rw [hopen, hdone]
          by_cases hsbone : env.openSbone = -1
          · rw [if_pos hsbone]
            exact if_neg fun h => h.2 hsbone
          · rw [if_neg hsbone]
            exact if_pos ⟨rfl, hsbone⟩
        · rw [hopen]
          exact hmaps
        · rw [hopen]
          exact hunmaps
      · refine Or.inl ⟨pre, i, post, hsplit, hpre, hfail, ?_⟩
        have herr : r.err = -1 := by
          rw [hopen, hdone]
          simp only [Bool.false_eq_true, false_and, if_false]
        rw [hopen] at herr ⊢
        exact ⟨herr, hmaps, hunmaps⟩

/-- **The close undoes a successful open.** -/
theorem sboneDevClose_open (hok : (sboneDevOpenPcie env dev).err = 0) :
    sboneDevClose (sboneDevOpenPcie env dev).dev = (sboneDevOpenPcie env dev).mmaps := by
  rcases openPcie_cases env dev with ⟨-, herr, -⟩ | ⟨bars, -, ⟨_, _, _, -, -, -, herr, -⟩ | hopen⟩
  · exact absurd (hok.symm.trans herr) (by decide)
  · exact absurd (hok.symm.trans herr) (by decide)
  · exact hopen.2.2.2.2 hok

/-- **What an open holds of libpci and of `/dev/mem` is given back**, once, on every path. -/
theorem openPcie_released (env : OpenEnv) (dev : SboneDev) :
    let r := sboneDevOpenPcie env dev
    r.released.Nodup ∧ (Resource.pciAccess ∈ r.released ↔ env.pciAlloc = true) ∧
      (Resource.pciDev ∈ r.released ↔ env.pciAlloc = true ∧ env.pciGetDev ≠ none) ∧
      (Resource.memFd ∈ r.released ↔
        env.pciAlloc = true ∧ env.pciGetDev ≠ none ∧ env.openMem ≠ -1) := by
  intro r
  cases halloc : env.pciAlloc with
  | false => simp [r, sboneDevOpenPcie, halloc]
  | true =>
    cases hdev : env.pciGetDev with
    | none => simp [r, sboneDevOpenPcie, halloc, hdev]
    | some bars =>
      by_cases hmem : env.openMem = -1
      · simp [r, sboneDevOpenPcie, halloc, hdev, hmem]
      · have hopen : r = _ := sboneDevOpenPcie_loop halloc hdev hmem dev
        rw [hopen]
        simp [hmem]

/-- No mapping is where an `mmap` has failed, and every call of `munmap` is. -/
theorem openPcie_addrs (env : OpenEnv) (dev : SboneDev) :
    let r := sboneDevOpenPcie env dev
    (∀ m ∈ r.mmaps, m.1 ≠ mapFailed) ∧ ∀ m ∈ r.munmaps, m.1 = mapFailed := by
  intro r
  have hmapped : ∀ (bars : Fin nbar → PciBar) (is : List (Fin nbar)),
      (∀ i ∈ is, ¬ MmapFails bars env.mmap i) →
        ∀ m ∈ mappingsOf bars env.mmap is, m.1 ≠ mapFailed := by
    intro bars is hall m hm
    obtain ⟨i, hi, hpresent, rfl⟩ := mem_mappingsOf.mp hm
    exact fun hfailed => hall i hi ⟨hpresent, hfailed⟩
  rcases openPcie_cases env dev with ⟨-, -, hmaps, hunmaps⟩ |
    ⟨bars, -, ⟨pre, i, _, -, hpre, -, -, hmaps, hunmaps⟩ | ⟨hall, -, hmaps, hunmaps, -⟩⟩
  · rw [hmaps, hunmaps]
    exact ⟨fun m hm => absurd hm List.not_mem_nil, fun m hm => absurd hm List.not_mem_nil⟩
  · rw [hmaps, hunmaps]
    exact ⟨hmapped bars pre hpre, fun m hm => congrArg Prod.fst (List.eq_of_mem_replicate hm)⟩
  · rw [hmaps, hunmaps]
    exact ⟨hmapped bars _ fun i _ => hall i, fun m hm => absurd hm List.not_mem_nil⟩

/-- **No mapping of an open is ever unmapped by it.** -/
theorem openPcie_leaks {m : Mapping} (hm : m ∈ (sboneDevOpenPcie env dev).mmaps) :
    m ∉ (sboneDevOpenPcie env dev).munmaps := by
  obtain ⟨hmaps, hunmaps⟩ := openPcie_addrs env dev
  exact fun hun => hmaps m hm (hunmaps m hun)

/-- So the calls of `munmap` are for the mappings only where there is neither. -/
theorem openPcie_perm_iff :
    (sboneDevOpenPcie env dev).munmaps.Perm (sboneDevOpenPcie env dev).mmaps ↔
      (sboneDevOpenPcie env dev).mmaps = [] ∧ (sboneDevOpenPcie env dev).munmaps = [] := by
  constructor
  · intro hperm
    have hmaps : (sboneDevOpenPcie env dev).mmaps = [] := by
      refine List.eq_nil_iff_forall_not_mem.mpr ?_
      intro m hm
      exact openPcie_leaks hm (hperm.mem_iff.mpr hm)
    rw [hmaps] at hperm
    exact ⟨hmaps, hperm.eq_nil⟩
  · rintro ⟨hmaps, hunmaps⟩
    rw [hmaps, hunmaps]

/-- The place of a BAR in the loop is its index. -/
theorem finRange_split {pre post : List (Fin nbar)} {i : Fin nbar}
    (h : List.finRange nbar = pre ++ i :: post) : pre.length = i.val := by
  have hlt : pre.length < (List.finRange nbar).length := by
    rw [h, List.length_append, List.length_cons]
    omega
  have hget : (List.finRange nbar)[pre.length] = i := by
    simp only [h, List.getElem_append_right le_rfl, Nat.sub_self, List.getElem_cons_zero]
  rw [List.getElem_finRange] at hget
  exact congrArg Fin.val hget

theorem mappingsOf_finRange_eq_nil {bars : Fin nbar → PciBar} {mmap : Fin nbar → BitVec 64} :
    mappingsOf bars mmap (List.finRange nbar) = [] ↔ ∀ i, (bars i).barSize = 0 := by
  rw [List.eq_nil_iff_forall_not_mem]
  constructor
  · intro hnone i
    by_contra hpresent
    exact hnone _ (mem_mappingsOf.mpr ⟨i, List.mem_finRange i, hpresent, rfl⟩)
  · intro habsent m hm
    obtain ⟨i, -, hpresent, -⟩ := mem_mappingsOf.mp hm
    exact hpresent (habsent i)

/-- The open fails before the loop, at the `mmap` of BAR 0, or with no BAR to map. -/
def FailsClean (env : OpenEnv) : Prop :=
  env.pciAlloc = false ∨ env.openMem = -1 ∨
    ∀ bars, env.pciGetDev = some bars →
      MmapFails bars env.mmap bar0 ∨ ∀ i, (bars i).barSize = 0

/-- All calls succeed. -/
def Opens (env : OpenEnv) : Prop :=
  env.pciAlloc = true ∧ env.openMem ≠ -1 ∧ env.openSbone ≠ -1 ∧
    ∃ bars, env.pciGetDev = some bars ∧ ∀ i, ¬ MmapFails bars env.mmap i

theorem openPcie_err_iff : (sboneDevOpenPcie env dev).err = -1 ↔ ¬ Opens env := by
  rcases openPcie_cases env dev with ⟨hearly, herr, -⟩ | ⟨bars, ⟨halloc, hdev, hmem⟩,
    ⟨pre, i, post, -, -, hfail, herr, -⟩ | ⟨hall, herr, -⟩⟩
  · refine iff_of_true herr ?_
    rintro ⟨halloc, hmem, -, bars, hbars, -⟩
    rcases hearly with hfalse | hfalse | hfalse
    · exact Bool.false_ne_true (hfalse.symm.trans halloc)
    · exact Option.some_ne_none bars (hbars.symm.trans hfalse)
    · exact hmem hfalse
  · refine iff_of_true herr ?_
    rintro ⟨-, -, -, bars', hbars', hall⟩
    obtain rfl := Option.some.inj (hdev.symm.trans hbars')
    exact hall i hfail
  · rw [herr]
    by_cases hopen : env.openSbone = -1
    · rw [if_pos hopen]
      exact iff_of_true rfl fun h => h.2.2.1 hopen
    · rw [if_neg hopen]
      exact iff_of_false (by decide) fun h => h ⟨halloc, hmem, hopen, bars, hdev, hall⟩

/-- The calls of `munmap` are for the mappings made, where there is nothing to unmap and no call. -/
theorem openPcie_perm_iff_failsClean (env : OpenEnv) (dev : SboneDev) :
    (sboneDevOpenPcie env dev).munmaps.Perm (sboneDevOpenPcie env dev).mmaps ↔ FailsClean env := by
  rw [openPcie_perm_iff]
  rcases openPcie_cases env dev with ⟨hearly, -, hnone⟩ | ⟨bars, ⟨halloc, hdev, hmem⟩, hloop⟩
  · refine iff_of_true hnone ?_
    rcases hearly with halloc | hdev | hmem
    · exact Or.inl halloc
    · refine Or.inr (Or.inr ?_)
      intro bars hbars
      exact absurd (hdev.symm.trans hbars) (Option.some_ne_none bars).symm
    · exact Or.inr (Or.inl hmem)
  have hclean : FailsClean env ↔ MmapFails bars env.mmap bar0 ∨ ∀ i, (bars i).barSize = 0 := by
    constructor
    · rintro (hfalse | hfalse | h)
      · exact absurd (hfalse.symm.trans halloc) Bool.false_ne_true
      · exact absurd hfalse hmem
      · exact h bars hdev
    · intro h
      refine Or.inr (Or.inr ?_)
      intro bars' hbars'
      obtain rfl := Option.some.inj (hdev.symm.trans hbars')
      exact h
  rw [hclean]
  rcases hloop with ⟨pre, i, post, hsplit, hpre, hfail, -, hmaps, hunmaps⟩ |
    ⟨hall, -, hmaps, hunmaps, -⟩
  · have hindex := finRange_split hsplit
    rw [hmaps, hunmaps]
    constructor
    · rintro ⟨-, hcalls⟩
      have hi : i = bar0 := Fin.ext ((List.replicate_eq_nil_iff _).mp hcalls)
      exact Or.inl (hi ▸ hfail)
    · rintro (hfirst | habsent)
      · -- BAR 0 is not before the BAR that fails
        have hpre0 : pre = [] := by
          cases pre with
          | nil => rfl
          | cons k pre =>
            have hk : (List.finRange nbar)[0] = k := by simp only [hsplit]; rfl
            rw [List.getElem_finRange] at hk
            exact absurd (hk ▸ hfirst) (hpre k List.mem_cons_self)
        rw [hpre0] at hindex ⊢
        rw [← hindex]
        exact ⟨rfl, rfl⟩
      · exact absurd (habsent i) hfail.1
  · rw [hmaps, hunmaps, mappingsOf_finRange_eq_nil, and_iff_left rfl]
    exact (or_iff_right (hall bar0)).symm

/-- **After which failures every mapping has been unmapped once, and nothing else**: those before
which nothing was mapped. -/
theorem openPcie_unmaps_iff (env : OpenEnv) (dev : SboneDev) :
    let r := sboneDevOpenPcie env dev
    (r.err = -1 → r.munmaps.Perm r.mmaps) ↔ Opens env ∨ FailsClean env := by
  intro r
  rw [openPcie_err_iff, openPcie_perm_iff_failsClean]
  exact or_iff_not_imp_left.symm

end Open

/-- BARs of a page at the given places. -/
def pageBars (present : Fin nbar → Bool) : Fin nbar → PciBar := fun i =>
  ⟨if present i then 0xfe000000 else 0, 0, 0xfffff000⟩

/-- A device whose BARs 0 and 2 are there, and an `mmap` that fails for some. -/
def twoBars (fails : Fin nbar → Bool) (openSbone : Int) : OpenEnv where
  pciAlloc := true
  pciGetDev := some (pageBars fun i => i.val = 0 || i.val = 2)
  openMem := 3
  mmap i := if fails i then mapFailed else 0x7f0000000000 + 0x1000 * BitVec.ofNat 64 i
  openSbone := openSbone

/-- A device before it is opened. -/
def closedDev : SboneDev := ⟨-1, -1, fun _ => 0, fun _ => 0⟩

/-- **With BAR 0 mapped**, a failure at BAR 2 calls `munmap` twice at `MAP_FAILED`, and one of
`/dev/sbone` does not call it: in both cases the mappings stay. -/
theorem openPcie_secondBar :
    let r := sboneDevOpenPcie (twoBars (fun i => i.val = 2) 4) closedDev
    let r' := sboneDevOpenPcie (twoBars (fun _ => false) (-1)) closedDev
    r.err = -1 ∧ r.mmaps = [(0x7f0000000000, 0x1000)] ∧
      r.munmaps = [(mapFailed, 0x1000), (mapFailed, 0x1000)] ∧
      r'.err = -1 ∧ r'.mmaps = [(0x7f0000000000, 0x1000), (0x7f0000002000, 0x1000)] ∧
      r'.munmaps = [] := by
  decide

end VPcie.Sbone
