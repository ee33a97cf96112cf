import VPcie.Ebone.RegsBus
import Mathlib.Data.List.Forall2

/-!
# Bursts to a register slave

Any master may address the slave, or another one, with bursts of any length.  The address is held
for two cycles or longer, and the bus is released between two bursts.

* `RegBurst` — a burst, `RegBurst.lines` — what it drives;
* `RegBurst.after`, `RegBurst.answer` — what it does to the registers, and what the slave answers;
* `RegBurst.after_of_roSize_zero` — a slave without read only registers takes no write;
* `write_words`, `read_words` — the data phase, word by word;
* `bursts_served` — the slave after any sequence of bursts.
-/

namespace VPcie.Ebone

variable {g : RegsGenerics}

/-! ### Bursts -/

/-- A burst, after `gap + 1` cycles in which the bus is free. -/
structure RegBurst where
  gap : ℕ
  addr : BitVec 32
  hold : ℕ
  words : List (BitVec 32)
  nonempty : words ≠ []

/-- The free bus. -/
def Lines.free : Lines := ⟨false, false, false, 0⟩

/-- The data phase; the last word has the end of frame. -/
def dataLines : List (BitVec 32) → List Lines
  | [] => []
  | w :: ws => ⟨true, false, ws.isEmpty, w⟩ :: dataLines ws

/-- All that the burst drives. -/
def RegBurst.lines (r : RegBurst) : List Lines :=
  List.replicate (r.gap + 1) .free ++
    (List.replicate (r.hold + 2) ⟨true, true, false, r.addr⟩ ++ dataLines r.words)

/-- Words are stored one after another. -/
def RegsGenerics.store (g : RegsGenerics) (rw : ℕ → BitVec 32) (a : ℕ) :
    List (BitVec 32) → ℕ → BitVec 32
  | [] => rw
  | w :: ws => g.store (g.put rw a w) (a + 1) ws

/-- The registers after a burst. -/
def RegBurst.after (g : RegsGenerics) (sclr : Bool) (rw : ℕ → BitVec 32) (r : RegBurst) :
    ℕ → BitVec 32 :=
  if g.selects r.addr && !r.addr.getLsbD 31 && !g.ovfWr r.addr then
    g.tick sclr (g.store rw (g.offset r.addr).toNat r.words)
  else rw

/-- The number of read and write registers has one bit more than an offset. -/
theorem ovfWr_of_roSize_zero (hro : g.roSize = 0) {addr : BitVec 32}
    (hdir : addr.getLsbD 31 = false) : g.ovfWr addr = true := by
  have hwraps : BitVec.ofNat g.adLog g.rwSize = 0 := by
    apply BitVec.eq_of_toNat_eq
    rw [RegsGenerics.rwSize, hro, Nat.sub_zero, RegsGenerics.adSize, BitVec.toNat_ofNat,
      Nat.mod_self]
    rfl
  have hle : (0 : BitVec g.adLog) ≤ g.offset addr := by
    rw [BitVec.le_def]
    exact Nat.zero_le _
  rw [RegsGenerics.ovfWr, hdir, hwraps, decide_eq_true hle]
  rfl

/-- A slave without read only registers stores nothing. -/
theorem RegBurst.after_of_roSize_zero (hro : g.roSize = 0) (sclr : Bool) (rw : ℕ → BitVec 32)
    (r : RegBurst) : r.after g sclr rw = rw := by
  rw [RegBurst.after]
  cases hdir : r.addr.getLsbD 31 with
  | true => simp
  | false => simp [ovfWr_of_roSize_zero hro hdir]

/-- What the slave drives in a cycle of the data phase, as far as that is known. -/
structure Answer where
  dk : Option Bool
  dat : Option (BitVec 32)

def Answer.Fits (a : Answer) (o : Bool × BitVec 32) : Prop :=
  (∀ dk ∈ a.dk, o.1 = dk) ∧ ∀ dat ∈ a.dat, o.2 = dat

/-- The answer to each word.  While the address is held longer a burst read has begun already, so it
starts `hold` registers further on.  A write that runs into the read only registers is acknowledged
there as before. -/
def RegBurst.answer (g : RegsGenerics) (ro : (ℕ → BitVec 32) → ℕ → BitVec 32)
    (rw : ℕ → BitVec 32) (r : RegBurst) (j : ℕ) : Answer :=
  if g.selects r.addr then
    if r.addr.getLsbD 31 then
      if (g.offset r.addr).toNat + r.hold + j < g.adSize then
        ⟨some true, g.readAt rw (ro rw) ((g.offset r.addr).toNat + r.hold + j)⟩
      else ⟨none, none⟩
    else if g.ovfWr r.addr then ⟨some false, none⟩
    else if (g.offset r.addr).toNat + j ≤ g.adSize then ⟨some true, none⟩
    else ⟨none, none⟩
  else ⟨some false, some 0⟩

/-! ### The slave on a bus -/

section Slave

variable (ro : (ℕ → BitVec 32) → ℕ → BitVec 32) (sclr : Bool)

/-- An edge; the read only registers are a function of the others. -/
def Regs.edge (s : Regs g) (i : Lines × Bool) : Regs g :=
  s.clock ⟨false, i.1, ro s.rwRegs, i.2, sclr⟩

/-- Edges in a row. -/
def Regs.edges (s : Regs g) : List (Lines × Bool) → Regs g
  | [] => s
  | i :: is => (s.edge ro sclr i).edges is

/-- What the slave drives in the data phases. -/
def Regs.samples (s : Regs g) : List (Lines × Bool) → List (Bool × BitVec 32)
  | [] => []
  | i :: is =>
    (if i.1.bmx && !i.1.as then [(s.dkO, s.datO)] else []) ++ (s.edge ro sclr i).samples is

theorem Regs.edges_append (s : Regs g) (is js : List (Lines × Bool)) :
    s.edges ro sclr (is ++ js) = (s.edges ro sclr is).edges ro sclr js := by
  induction is generalizing s with
  | nil => rfl
  | cons i is ih => exact ih _

theorem Regs.samples_append (s : Regs g) (is js : List (Lines × Bool)) :
    s.samples ro sclr (is ++ js)
      = s.samples ro sclr is ++ (s.edges ro sclr is).samples ro sclr js := by
  induction is generalizing s with
  | nil => rfl
  | cons i is ih => rw [List.cons_append, samples, ih, samples, List.append_assoc, edges]

/-- No word is sampled while the bus is free or the address is held. -/
theorem Regs.samples_nil (s : Regs g) (is : List (Lines × Bool))
    (h : ∀ i ∈ is, (i.1.bmx && !i.1.as) = false) : s.samples ro sclr is = [] := by
  induction is generalizing s with
  | nil => rfl
  | cons i is ih =>
    rw [samples, h i List.mem_cons_self, ih _ fun j hj => h j (List.mem_cons_of_mem _ hj)]
    rfl

theorem Regs.samples_length (s : Regs g) (is : List (Lines × Bool)) (ws : List (BitVec 32))
    (h : is.map Prod.fst = dataLines ws) : (s.samples ro sclr is).length = ws.length := by
  induction ws generalizing s is with
  | nil =>
    rw [dataLines, List.map_eq_nil_iff] at h
    rw [h]
    rfl
  | cons w ws ih =>
    obtain ⟨i, is', rfl, hi, his⟩ := List.map_eq_cons_iff.mp h
    rw [samples, hi, List.length_append, ih _ _ his]
    exact Nat.add_comm 1 _

end Slave

/-! ### The self clear and the stores -/

/-- A store does not see whether the bits had cleared themselves before. -/
theorem tick_put_tick (sclr : Bool) (rw : ℕ → BitVec 32) (a : ℕ) (w : BitVec 32) :
    g.tick sclr (g.put (g.tick sclr rw) a w) = g.tick sclr (g.put rw a w) := by
  cases sclr with
  | false => rfl
  | true =>
    by_cases hlt : a < g.rwSize
    · rw [RegsGenerics.put, RegsGenerics.put, if_pos hlt, if_pos hlt]
      funext x
      by_cases hx : x = 0
      · by_cases ha : a = 0
        · simp [RegsGenerics.tick, hx, ha]
        · simp [RegsGenerics.tick, hx, Ne.symm ha, selfClear_idem]
      · by_cases hxa : x = a
        · subst hxa
          simp [RegsGenerics.tick, hx]
        · simp [RegsGenerics.tick, hx, hxa]
    · rw [RegsGenerics.put, RegsGenerics.put, if_neg hlt, if_neg hlt, tick_tick]

theorem tick_store_tick (sclr : Bool) (rw : ℕ → BitVec 32) (a : ℕ) (ws : List (BitVec 32))
    (rw' : ℕ → BitVec 32) (h : g.tick sclr rw = g.tick sclr rw') :
    g.tick sclr (g.store rw a ws) = g.tick sclr (g.store rw' a ws) := by
  induction ws generalizing rw rw' a with
  | nil => exact h
  | cons w ws ih =>
    refine ih _ _ _ ?_
    rw [← tick_put_tick, h, tick_put_tick]

/-! ### The data phase -/

section Words

variable (ro : (ℕ → BitVec 32) → ℕ → BitVec 32) (sclr : Bool) {s : Regs g}

/-- **The words of a burst write are stored**, and the slave is quiet again. -/
theorem write_words {a : ℕ} {is : List (Lines × Bool)} {ws : List (BitVec 32)} (h : s.WriteAt a)
    (hne : ws ≠ []) (his : is.map Prod.fst = dataLines ws) :
    (s.edges ro sclr is).Quiet ∧
      g.tick sclr (s.edges ro sclr is).rwRegs = g.tick sclr (g.store s.rwRegs a ws) ∧
      ∀ j o, a + j ≤ g.adSize → (s.samples ro sclr is)[j]? = some o → o.1 = true := by
  induction ws generalizing s a is with
  | nil => exact absurd rfl hne
  | cons w ws ih =>
    obtain ⟨i, is', rfl, hi, his'⟩ := List.map_eq_cons_iff.mp his
    obtain ⟨hstore, hgoes⟩ := h.word (i := ⟨false, i.1, ro s.rwRegs, i.2, sclr⟩) rfl
      (by rw [hi]) (by rw [hi])
    have heof : i.1.eof = ws.isEmpty := by rw [hi]
    have hfirst : g.tick sclr (s.edge ro sclr i).rwRegs = g.tick sclr (g.put s.rwRegs a w) := by
      rw [← tick_put_tick]
      have hdat : i.1.dat = w := by rw [hi]
      rw [← hdat]
      exact congrArg (g.tick sclr) hstore
    have hgoes' : if ws.isEmpty then (s.edge ro sclr i).Quiet
        else (s.edge ro sclr i).WriteAt (a + 1) := by
      rw [← heof]
      exact hgoes
    have hsample : s.samples ro sclr (i :: is')
        = (s.dkO, s.datO) :: (s.edge ro sclr i).samples ro sclr is' := by
      rw [Regs.samples, hi]
      rfl
    have hzero : a ≤ g.adSize → s.dkO = true := by
      intro ha
      obtain ⟨hmyself, hdk, -⟩ := h.acks ha
      rw [Regs.dkO, hmyself, hdk]
      rfl
    rw [hsample]
    cases ws with
    | nil =>
      rw [dataLines, List.map_eq_nil_iff] at his'
      rw [his']
      refine ⟨hgoes', hfirst, fun j o hj ho => ?_⟩
      cases j with
      | zero =>
        rw [← Option.some.inj ho]
        exact hzero hj
      | succ j => simp [Regs.samples] at ho
    | cons w' ws =>
      obtain ⟨hquiet, hrest, hacks⟩ :=
        ih (s := s.edge ro sclr i) hgoes' (List.cons_ne_nil _ _) his'
      refine ⟨hquiet, hrest.trans (tick_store_tick sclr _ _ (w' :: ws) _ hfirst),
        fun j o hj ho => ?_⟩
      cases j with
      | zero =>
        rw [← Option.some.inj ho]
        exact hzero hj
      | succ j => exact hacks j o (by omega) ho

/-- **The words of a burst read are those of the registers**, one after another. -/
theorem read_words {a : ℕ} {is : List (Lines × Bool)} {ws : List (BitVec 32)}
    (h : s.ReadAt (ro s.rwRegs) a) (hrw : g.tick sclr s.rwRegs = s.rwRegs) (hne : ws ≠ [])
    (his : is.map Prod.fst = dataLines ws) :
    (s.edges ro sclr is).Quiet ∧ (s.edges ro sclr is).rwRegs = s.rwRegs ∧
      ∀ j o, a + j < g.adSize → (s.samples ro sclr is)[j]? = some o →
        o.1 = true ∧ g.readAt s.rwRegs (ro s.rwRegs) (a + j) = some o.2 := by
  induction ws generalizing s a is with
  | nil => exact absurd rfl hne
  | cons w ws ih =>
    obtain ⟨i, is', rfl, hi, his'⟩ := List.map_eq_cons_iff.mp his
    obtain ⟨hkeep, hgoes⟩ := h.word (i := ⟨false, i.1, ro s.rwRegs, i.2, sclr⟩) rfl
      (by rw [hi]) hrw
    have heof : i.1.eof = ws.isEmpty := by rw [hi]
    have hgoes' : if ws.isEmpty then (s.edge ro sclr i).Quiet
        else (s.edge ro sclr i).ReadAt (ro s.rwRegs) (a + 1) := by
      rw [← heof]
      exact hgoes
    have hsame : (s.edge ro sclr i).rwRegs = s.rwRegs := hkeep
    have hsample : s.samples ro sclr (i :: is')
        = (s.dkO, s.datO) :: (s.edge ro sclr i).samples ro sclr is' := by
      rw [Regs.samples, hi]
      rfl
    have hzero : a < g.adSize →
        s.dkO = true ∧ g.readAt s.rwRegs (ro s.rwRegs) a = some s.datO := by
      intro ha
      obtain ⟨hmyself, hdk, -, hword⟩ := h.acks ha
      rw [Regs.dkO, Regs.datO, hmyself, hdk]
      exact ⟨rfl, hword⟩
    rw [hsample]
    cases ws with
    | nil =>
      rw [dataLines, List.map_eq_nil_iff] at his'
      rw [his']
      refine ⟨hgoes', hsame, fun j o hj ho => ?_⟩
      cases j with
      | zero =>
        rw [← Option.some.inj ho]
        exact hzero hj
      | succ j => simp [Regs.samples] at ho
    | cons w' ws =>
      obtain ⟨hquiet, hrest, hwords⟩ := ih (s := s.edge ro sclr i) (by rw [hsame]; exact hgoes')
        (by rw [hsame, hrw]) (List.cons_ne_nil _ _) his'
      refine ⟨hquiet, hrest.trans hsame, fun j o hj ho => ?_⟩
      cases j with
      | zero =>
        rw [← Option.some.inj ho]
        exact hzero hj
      | succ j =>
        have hnext := hwords j o (by omega) ho
        rw [hsame] at hnext
        rw [Nat.add_comm j 1, ← Nat.add_assoc]
        exact hnext

end Words

/-! ### The phases before it -/

section Phases

variable (ro : (ℕ → BitVec 32) → ℕ → BitVec 32) {sclr : Bool} {s : Regs g}

/-- What each edge keeps, and so is true whenever the bus is sampled. -/
theorem edges_invariant (P : Regs g → Prop) (Q : Lines → Prop)
    (hstep : ∀ (s : Regs g) i, P s → Q i.1 → P (s.edge ro sclr i)) {is : List (Lines × Bool)}
    (hs : P s) (his : ∀ l ∈ is.map Prod.fst, Q l) :
    P (s.edges ro sclr is) ∧
      ∀ o ∈ s.samples ro sclr is, ∃ t : Regs g, P t ∧ o = (t.dkO, t.datO) := by
  induction is generalizing s with
  | nil => exact ⟨hs, fun o ho => absurd ho List.not_mem_nil⟩
  | cons i is ih =>
    rw [List.map_cons] at his
    obtain ⟨hrest, hsamples⟩ := ih (hstep s i hs (his _ List.mem_cons_self)) fun l hl =>
      his l (List.mem_cons_of_mem _ hl)
    refine ⟨hrest, fun o ho => ?_⟩
    rcases List.mem_append.mp ho with hnow | hlater
    · split at hnow
      · exact ⟨s, hs, List.mem_singleton.mp hnow⟩
      · exact absurd hnow List.not_mem_nil
    · exact hsamples o hlater

/-- Once the bus is free the slave is quiet, and its bits have cleared themselves. -/
theorem free_edges {m : ℕ} {is : List (Lines × Bool)} (hs : s.Quiet ∨ s.Refused)
    (his : is.map Prod.fst = List.replicate (m + 1) .free) :
    (s.edges ro sclr is).Quiet ∧ (s.edges ro sclr is).ovfErr = false ∧
      (s.edges ro sclr is).rwRegs = g.tick sclr s.rwRegs := by
  obtain ⟨i, is', rfl, hi, his'⟩ := List.map_eq_cons_iff.mp his
  have hfirst : (s.edge ro sclr i).Quiet ∧ (s.edge ro sclr i).ovfErr = false ∧
      (s.edge ro sclr i).rwRegs = g.tick sclr s.rwRegs := by
    rcases hs with hquiet | hrefused
    · exact hquiet.away (i := ⟨false, i.1, ro s.rwRegs, i.2, sclr⟩) rfl (Or.inl (by rw [hi]; rfl))
    · exact hrefused.released (i := ⟨false, i.1, ro s.rwRegs, i.2, sclr⟩) (by rw [hi]; rfl)
  refine (edges_invariant ro (s := s.edge ro sclr i) (fun t : Regs g => t.Quiet ∧ t.ovfErr = false ∧
    t.rwRegs = g.tick sclr s.rwRegs) (fun l => l = .free) ?_ hfirst ?_).1
  · intro t i ⟨hquiet, _, hrw⟩ hl
    obtain ⟨hquiet', hovf, hrw'⟩ := hquiet.away (i := ⟨false, i.1, ro t.rwRegs, i.2, sclr⟩) rfl
      (Or.inl (by rw [hl]; rfl))
    refine ⟨hquiet', hovf, ?_⟩
    rw [← tick_tick, ← hrw]
    exact hrw'
  · intro l hl
    rw [his'] at hl
    exact List.eq_of_mem_replicate hl

/-- A burst that is not for the slave leaves it alone, and the slave drives nothing. -/
theorem away_edges {is : List (Lines × Bool)} (hs : s.Quiet)
    (hrw : g.tick sclr s.rwRegs = s.rwRegs) (his : ∀ l ∈ is.map Prod.fst, (l.bmx && l.as) = false ∨
      l.eof = false ∧ g.selects l.dat = false) :
    (s.edges ro sclr is).Quiet ∧ (s.edges ro sclr is).rwRegs = s.rwRegs ∧
      ∀ o ∈ s.samples ro sclr is, o = (false, 0) := by
  have hstep : ∀ (t : Regs g) i, t.Quiet ∧ t.rwRegs = s.rwRegs →
      (i.1.bmx && i.1.as) = false ∨ i.1.eof = false ∧ g.selects i.1.dat = false →
      (t.edge ro sclr i).Quiet ∧ (t.edge ro sclr i).rwRegs = s.rwRegs := by
    intro t i ⟨hquiet, hsame⟩ hl
    obtain ⟨hquiet', -, hrw'⟩ := hquiet.away (i := ⟨false, i.1, ro t.rwRegs, i.2, sclr⟩) rfl hl
    refine ⟨hquiet', ?_⟩
    rw [← hrw, ← hsame]
    exact hrw'
  obtain ⟨⟨hquiet, hsame⟩, hsamples⟩ := edges_invariant ro _ _ hstep ⟨hs, rfl⟩ his
  refine ⟨hquiet, hsame, fun o ho => ?_⟩
  obtain ⟨t, ⟨ht, -⟩, rfl⟩ := hsamples o ho
  rw [ht.dkO, ht.datO]

/-- A burst that is refused leaves the registers alone, and is never acknowledged. -/
theorem refused_edges {is : List (Lines × Bool)} (hs : s.Refused)
    (hrw : g.tick sclr s.rwRegs = s.rwRegs) (his : ∀ l ∈ is.map Prod.fst, l.bmx = true) :
    (s.edges ro sclr is).Refused ∧ (s.edges ro sclr is).rwRegs = s.rwRegs ∧
      ∀ o ∈ s.samples ro sclr is, o.1 = false := by
  have hstep : ∀ (t : Regs g) i, t.Refused ∧ t.rwRegs = s.rwRegs → i.1.bmx = true →
      (t.edge ro sclr i).Refused ∧ (t.edge ro sclr i).rwRegs = s.rwRegs := by
    intro t i ⟨hrefused, hsame⟩ hl
    obtain ⟨hrefused', hrw'⟩ := hrefused.stays (i := ⟨false, i.1, ro t.rwRegs, i.2, sclr⟩) rfl hl
    refine ⟨hrefused', ?_⟩
    rw [← hrw, ← hsame]
    exact hrw'
  obtain ⟨⟨hrefused, hsame⟩, hsamples⟩ :=
    edges_invariant ro _ (fun l => l.bmx = true) hstep ⟨hs, rfl⟩ his
  refine ⟨hrefused, hsame, fun o ho => ?_⟩
  obtain ⟨t, ⟨ht, -⟩, rfl⟩ := hsamples o ho
  show t.dkO = false
  rw [Regs.dkO, ht.sDk, Bool.and_false]

variable {addr : BitVec 32} {m : ℕ} {is : List (Lines × Bool)} (hs : s.Quiet)
  (hovf : s.ovfErr = false) (hrw : g.tick sclr s.rwRegs = s.rwRegs)
  (hsel : g.selects addr = true)
  (his : is.map Prod.fst = List.replicate (m + 2) ⟨true, true, false, addr⟩)
include hs hovf hrw hsel his

/-- The address of a burst write. -/
theorem address_write (hwr : g.ovfWr addr = false) (hdir : addr.getLsbD 31 = false) :
    (s.edges ro sclr is).WriteAt (g.offset addr).toNat ∧
      (s.edges ro sclr is).rwRegs = s.rwRegs := by
  obtain ⟨i, is', rfl, hi, his'⟩ := List.map_eq_cons_iff.mp his
  obtain ⟨j, is', rfl, hj, his'⟩ := List.map_eq_cons_iff.mp his'
  obtain ⟨haddressed, hrw1⟩ := hs.addressed (i := ⟨false, i.1, ro s.rwRegs, i.2, sclr⟩) rfl hovf
    (by rw [hi]) (by rw [hi]) (by rw [hi]) (by rw [hi]; exact hsel) (by rw [hi]; exact hwr)
  have hsame1 : (s.edge ro sclr i).rwRegs = s.rwRegs := Eq.trans hrw1 hrw
  have haddr : i.1.dat = addr := by rw [hi]
  obtain ⟨hwrites, hrw2⟩ := haddressed.write
    (i := ⟨false, j.1, ro (s.edge ro sclr i).rwRegs, j.2, sclr⟩) rfl (g.offset i.1.dat).isLt
    (by rw [hj]; exact hdir)
  have hsame2 : ((s.edge ro sclr i).edge ro sclr j).rwRegs = s.rwRegs := by
    rw [← hrw, ← hsame1]
    exact hrw2
  rw [← haddr]
  refine (edges_invariant ro (s := (s.edge ro sclr i).edge ro sclr j)
    (fun t : Regs g => t.WriteAt (g.offset i.1.dat).toNat ∧ t.rwRegs = s.rwRegs)
    (fun l => l = ⟨true, true, false, addr⟩) ?_ ⟨hwrites, hsame2⟩ ?_).1
  · intro t l ⟨hat, hsame⟩ hl
    obtain ⟨hat', hrw'⟩ := hat.holds (i := ⟨false, l.1, ro t.rwRegs, l.2, sclr⟩) rfl (by rw [hl])
      (by rw [hl]) (by rw [hl])
    refine ⟨hat', ?_⟩
    rw [← hrw, ← hsame]
    exact hrw'
  · intro l hl
    rw [his'] at hl
    exact List.eq_of_mem_replicate hl

omit hs hovf hsel his in
/-- While the address is held a burst read goes on. -/
theorem hold_read {a k : ℕ} {js : List (Lines × Bool)} (hat : s.ReadAt (ro s.rwRegs) a)
    (hjs : js.map Prod.fst = List.replicate k ⟨true, true, false, addr⟩) :
    (s.edges ro sclr js).ReadAt (ro s.rwRegs) (a + k) ∧
      (s.edges ro sclr js).rwRegs = s.rwRegs := by
  induction k generalizing s a js with
  | zero =>
    rw [List.replicate_zero, List.map_eq_nil_iff] at hjs
    rw [hjs]
    exact ⟨hat, rfl⟩
  | succ k ih =>
    obtain ⟨j, js', rfl, hj, hjs'⟩ := List.map_eq_cons_iff.mp hjs
    obtain ⟨hkeep, hgoes⟩ := hat.word (i := ⟨false, j.1, ro s.rwRegs, j.2, sclr⟩) rfl
      (by rw [hj]) hrw
    have heof : j.1.eof = false := by rw [hj]
    have hgoes' : (s.edge ro sclr j).ReadAt (ro s.rwRegs) (a + 1) := by
      rw [show (⟨false, j.1, ro s.rwRegs, j.2, sclr⟩ : RegsIn).lines.eof = false from heof,
        if_neg (by decide)] at hgoes
      exact hgoes
    have hsame : (s.edge ro sclr j).rwRegs = s.rwRegs := hkeep
    obtain ⟨hat', hrw'⟩ := ih (s := s.edge ro sclr j) (by rw [hsame, hrw])
      (by rw [hsame]; exact hgoes') hjs'
    rw [hsame] at hat' hrw'
    rw [Nat.add_comm k 1, ← Nat.add_assoc]
    exact ⟨hat', hrw'⟩

/-- The address of a burst read. -/
theorem address_read (hwr : g.ovfWr addr = false) (hdir : addr.getLsbD 31 = true) :
    (s.edges ro sclr is).ReadAt (ro s.rwRegs) ((g.offset addr).toNat + m) ∧
      (s.edges ro sclr is).rwRegs = s.rwRegs := by
  obtain ⟨i, is', rfl, hi, his'⟩ := List.map_eq_cons_iff.mp his
  obtain ⟨j, is', rfl, hj, his'⟩ := List.map_eq_cons_iff.mp his'
  obtain ⟨haddressed, hrw1⟩ := hs.addressed (i := ⟨false, i.1, ro s.rwRegs, i.2, sclr⟩) rfl hovf
    (by rw [hi]) (by rw [hi]) (by rw [hi]) (by rw [hi]; exact hsel) (by rw [hi]; exact hwr)
  have hsame1 : (s.edge ro sclr i).rwRegs = s.rwRegs := Eq.trans hrw1 hrw
  have haddr : i.1.dat = addr := by rw [hi]
  obtain ⟨hreads, hrw2⟩ := haddressed.read
    (i := ⟨false, j.1, ro (s.edge ro sclr i).rwRegs, j.2, sclr⟩) rfl (g.offset i.1.dat).isLt
    (by rw [hj]; exact hdir) (by rw [show (s.clock _).rwRegs = s.rwRegs from hsame1, hrw])
  have hsame2 : ((s.edge ro sclr i).edge ro sclr j).rwRegs = s.rwRegs := Eq.trans hrw2 hsame1
  have hat : ((s.edge ro sclr i).edge ro sclr j).ReadAt
      (ro ((s.edge ro sclr i).edge ro sclr j).rwRegs) (g.offset addr).toNat := by
    rw [hsame2, ← hsame1, ← haddr]
    exact hreads
  have hhold := hold_read ro (by rw [hsame2, hrw]) hat his'
  rw [hsame2] at hhold
  exact hhold

omit hovf in
/-- The address of a burst write that is refused. -/
theorem address_refused (hwr : g.ovfWr addr = true) :
    (s.edges ro sclr is).Refused ∧ (s.edges ro sclr is).rwRegs = s.rwRegs := by
  obtain ⟨i, is', rfl, hi, his'⟩ := List.map_eq_cons_iff.mp his
  obtain ⟨hrefused, hrw1⟩ := hs.refuses (i := ⟨false, i.1, ro s.rwRegs, i.2, sclr⟩) rfl
    (by rw [hi]) (by rw [hi]) (by rw [hi]) (by rw [hi]; exact hsel) (by rw [hi]; exact hwr)
  have hsame : (s.edge ro sclr i).rwRegs = s.rwRegs := Eq.trans hrw1 hrw
  have hbusy : ∀ l ∈ is'.map Prod.fst, l.bmx = true := by
    intro l hl
    rw [his'] at hl
    rw [List.eq_of_mem_replicate hl]
  obtain ⟨hrefused', hrw', -⟩ :=
    refused_edges ro (s := s.edge ro sclr i) hrefused (by rw [hsame, hrw]) hbusy
  exact ⟨hrefused', hrw'.trans hsame⟩

end Phases

/-! ### Any sequence of bursts -/

section Bursts

variable (ro : (ℕ → BitVec 32) → ℕ → BitVec 32) (sclr : Bool)

/-- What the slave answers to a burst. -/
def RegBurst.answers (r : RegBurst) (rw : ℕ → BitVec 32) : List Answer :=
  (List.range r.words.length).map (r.answer g ro rw)

/-- What it answers to bursts in a row. -/
def answersOf (g : RegsGenerics) : (ℕ → BitVec 32) → List RegBurst → List Answer
  | _, [] => []
  | rw, r :: rs => r.answers (g := g) ro rw ++ answersOf g (r.after g sclr rw) rs

variable {sclr} {s : Regs g} {is : List (Lines × Bool)}

/-- Only the words of the data phase are sampled. -/
theorem lines_samples {r : RegBurst} {free address words : List (Lines × Bool)}
    (hfree : free.map Prod.fst = List.replicate (r.gap + 1) .free)
    (haddress : address.map Prod.fst = List.replicate (r.hold + 2) ⟨true, true, false, r.addr⟩) :
    s.samples ro sclr (free ++ (address ++ words))
      = ((s.edges ro sclr free).edges ro sclr address).samples ro sclr words := by
  rw [Regs.samples_append, Regs.samples_append, Regs.samples_nil, Regs.samples_nil]
  · rfl
  · intro i hi
    have hline : i.1 ∈ address.map Prod.fst := List.mem_map_of_mem hi
    rw [haddress] at hline
    rw [List.eq_of_mem_replicate hline]
    rfl
  · intro i hi
    have hline : i.1 ∈ free.map Prod.fst := List.mem_map_of_mem hi
    rw [hfree] at hline
    rw [List.eq_of_mem_replicate hline]
    rfl

theorem dataLines_busy {ws : List (BitVec 32)} {l : Lines} (hl : l ∈ dataLines ws) :
    l.bmx = true ∧ l.as = false := by
  induction ws with
  | nil => exact absurd hl List.not_mem_nil
  | cons w ws ih =>
    rcases List.mem_cons.mp hl with rfl | hrest
    · exact ⟨rfl, rfl⟩
    · exact ih hrest

/-- **The address and the words of a burst**, once the bus has been free. -/
theorem phases_served (r : RegBurst) {address words : List (Lines × Bool)} (hs : s.Quiet)
    (hovf : s.ovfErr = false) (hrw : g.tick sclr s.rwRegs = s.rwRegs)
    (haddress : address.map Prod.fst = List.replicate (r.hold + 2) ⟨true, true, false, r.addr⟩)
    (hwords : words.map Prod.fst = dataLines r.words) :
    (((s.edges ro sclr address).edges ro sclr words).Quiet ∨
        ((s.edges ro sclr address).edges ro sclr words).Refused) ∧
      g.tick sclr ((s.edges ro sclr address).edges ro sclr words).rwRegs
        = r.after g sclr s.rwRegs ∧
      ∀ j o, ((s.edges ro sclr address).samples ro sclr words)[j]? = some o →
        (r.answer g ro s.rwRegs j).Fits o := by
  cases hsel : g.selects r.addr with
  | false =>
    have haway1 : ∀ l ∈ address.map Prod.fst, (l.bmx && l.as) = false ∨
        l.eof = false ∧ g.selects l.dat = false := by
      intro l hl
      rw [haddress] at hl
      rw [List.eq_of_mem_replicate hl]
      exact Or.inr ⟨rfl, hsel⟩
    obtain ⟨hquiet, hsame, -⟩ := away_edges ro hs hrw haway1
    have haway2 : ∀ l ∈ words.map Prod.fst, (l.bmx && l.as) = false ∨
        l.eof = false ∧ g.selects l.dat = false := by
      intro l hl
      rw [hwords] at hl
      rw [(dataLines_busy hl).2, Bool.and_false]
      exact Or.inl rfl
    obtain ⟨hquiet', hsame', hsamples⟩ := away_edges ro hquiet (by rw [hsame, hrw]) haway2
    refine ⟨Or.inl hquiet', ?_, fun j o ho => ?_⟩
    · rw [hsame', hsame, hrw, RegBurst.after, hsel]
      rfl
    · rw [hsamples o (List.mem_of_getElem? ho), RegBurst.answer, hsel]
      simp [Answer.Fits]
  | true =>
    cases hdir : r.addr.getLsbD 31 with
    | true =>
      have hwr : g.ovfWr r.addr = false := by rw [RegsGenerics.ovfWr, hdir]; rfl
      obtain ⟨hat, hsame⟩ := address_read ro hs hovf hrw hsel haddress hwr hdir
      rw [← hsame] at hat
      obtain ⟨hquiet, hsame', hsamples⟩ :=
        read_words ro sclr hat (by rw [hsame, hrw]) r.nonempty hwords
      refine ⟨Or.inl hquiet, ?_, fun j o ho => ?_⟩
      · rw [hsame', hsame, hrw, RegBurst.after, hsel, hdir]
        rfl
      · rw [RegBurst.answer, hsel, hdir]
        by_cases hj : (g.offset r.addr).toNat + r.hold + j < g.adSize
        · obtain ⟨hdk, hdat⟩ := hsamples j o hj ho
          rw [hsame] at hdat
          simp [Answer.Fits, hj, hdk, hdat]
        · simp [Answer.Fits, hj]
    | false =>
      cases hwr : g.ovfWr r.addr with
      | true =>
        obtain ⟨hrefused, hsame⟩ := address_refused ro hs hrw hsel haddress hwr
        have hbusy : ∀ l ∈ words.map Prod.fst, l.bmx = true := by
          intro l hl
          rw [hwords] at hl
          exact (dataLines_busy hl).1
        obtain ⟨hrefused', hsame', hsamples⟩ :=
          refused_edges ro hrefused (by rw [hsame, hrw]) hbusy
        refine ⟨Or.inr hrefused', ?_, fun j o ho => ?_⟩
        · rw [hsame', hsame, hrw, RegBurst.after, hwr]
          simp
        · rw [RegBurst.answer, hsel, hdir, hwr]
          simp [Answer.Fits, hsamples o (List.mem_of_getElem? ho)]
      | false =>
        obtain ⟨hat, hsame⟩ := address_write ro hs hovf hrw hsel haddress hwr hdir
        obtain ⟨hquiet, hstore, hsamples⟩ := write_words ro sclr hat r.nonempty hwords
        refine ⟨Or.inl hquiet, ?_, fun j o ho => ?_⟩
        · rw [hstore, hsame, RegBurst.after, hsel, hdir, hwr]
          rfl
        · rw [RegBurst.answer, hsel, hdir, hwr]
          by_cases hj : (g.offset r.addr).toNat + j ≤ g.adSize
          · simp [Answer.Fits, hj, hsamples j o hj ho]
          · simp [Answer.Fits, hj]

/-- **Step lemma.**  A burst does what it should, and the slave is ready for the next one. -/
theorem burst_served (r : RegBurst) (hs : s.Quiet ∨ s.Refused) (his : is.map Prod.fst = r.lines) :
    ((s.edges ro sclr is).Quiet ∨ (s.edges ro sclr is).Refused) ∧
      g.tick sclr (s.edges ro sclr is).rwRegs = r.after g sclr (g.tick sclr s.rwRegs) ∧
      List.Forall₂ Answer.Fits (r.answers (g := g) ro (g.tick sclr s.rwRegs))
        (s.samples ro sclr is) := by
  obtain ⟨free, busy, rfl, hfree, hbusy⟩ := List.map_eq_append_iff.mp his
  obtain ⟨address, words, rfl, haddress, hwords⟩ := List.map_eq_append_iff.mp hbusy
  obtain ⟨hquiet, hovf, hrw⟩ := free_edges ro hs hfree
  have hclear : g.tick sclr (s.edges ro sclr free).rwRegs = (s.edges ro sclr free).rwRegs := by
    rw [hrw, tick_tick]
  obtain ⟨hready, hafter, hfits⟩ := phases_served ro r hquiet hovf hclear haddress hwords
  rw [hrw] at hafter hfits
  rw [Regs.edges_append, Regs.edges_append, lines_samples ro hfree haddress]
  refine ⟨hready, hafter, ?_⟩
  rw [List.forall₂_iff_get]
  refine ⟨?_, fun j hj hj' => ?_⟩
  · rw [Regs.samples_length _ _ _ _ _ hwords, RegBurst.answers, List.length_map, List.length_range]
  · have hanswer : (r.answers (g := g) ro (g.tick sclr s.rwRegs)).get ⟨j, hj⟩
        = r.answer g ro (g.tick sclr s.rwRegs) j := by
      simp [RegBurst.answers]
    rw [hanswer]
    exact hfits j _ (List.getElem?_eq_getElem hj')

/-- **Bursts to a register slave are served** in their order: each read is answered with what the
writes before it have stored, from `hold` registers behind the addressed one on; a write that begins
in the read only registers is refused, and where there are none, every write is; of the bursts for
another slave this one takes no notice. -/
theorem bursts_served (rs : List RegBurst) (hs : s.Quiet)
    (his : is.map Prod.fst = rs.flatMap RegBurst.lines) :
    g.tick sclr (s.edges ro sclr is).rwRegs
        = rs.foldl (RegBurst.after g sclr) (g.tick sclr s.rwRegs) ∧
      List.Forall₂ Answer.Fits (answersOf ro sclr g (g.tick sclr s.rwRegs) rs)
        (s.samples ro sclr is) := by
  have hready : s.Quiet ∨ s.Refused := Or.inl hs
  clear hs
  induction rs generalizing s is with
  | nil =>
    have hnil : is = [] := List.map_eq_nil_iff.mp his
    rw [hnil]
    exact ⟨rfl, List.Forall₂.nil⟩
  | cons r rs ih =>
    obtain ⟨now, later, rfl, hnow, hlater⟩ := List.map_eq_append_iff.mp his
    obtain ⟨hready', hafter, hfits⟩ := burst_served ro r hready hnow
    obtain ⟨hregs, hrest⟩ := ih hlater hready'
    rw [hafter] at hregs hrest
    rw [Regs.edges_append, Regs.samples_append]
    exact ⟨hregs, List.rel_append hfits hrest⟩

/-- The descriptor fifo is given a control word and two words, which are then read back. -/
def descriptorBursts : List RegBurst :=
  [⟨0, 0x20000000, 0, [0x00000001, 0x0000cafe, 0x0000f00d], by decide⟩,
    ⟨2, 0xa0000000, 0, [0, 0, 0], by decide⟩]

/-- The registers before that. -/
def clearedRegs : Regs ebsBtdRegs :=
  ⟨.iddle, false, false, 0, false, fun _ => 0, 0, ⟨false, false, false, false, false, 0, false⟩,
    false⟩

/-- The control word has cleared itself. -/
theorem bursts_served_descriptor :
    List.Forall₂ Answer.Fits
      [⟨some true, none⟩, ⟨some true, none⟩, ⟨some true, none⟩, ⟨some true, some 0⟩,
        ⟨some true, some 0x0000cafe⟩, ⟨some true, some 0x0000f00d⟩]
      (clearedRegs.samples (fun _ _ => 0) true
        ((descriptorBursts.flatMap RegBurst.lines).map fun l => (l, false))) := by
  have hquiet : clearedRegs.Quiet := ⟨rfl, rfl, rfl, rfl⟩
  have hlines : ((descriptorBursts.flatMap RegBurst.lines).map fun l => (l, false)).map Prod.fst
      = descriptorBursts.flatMap RegBurst.lines := by
    rw [List.map_map]
    exact List.map_id _
  obtain ⟨-, hfits⟩ := @bursts_served _ (fun _ _ => 0) true _ _ descriptorBursts hquiet hlines
  exact hfits

end Bursts

end VPcie.Ebone
