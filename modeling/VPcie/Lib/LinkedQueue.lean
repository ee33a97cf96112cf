import Mathlib.Logic.Function.Basic
import Mathlib.Data.List.Nodup

/-!
# A singly linked queue in a heap

Cells live in a heap that other structures share, and a queue is a pair of pointers into it.
`IsQueue h q l` says that following `next` from the head of `q` visits exactly the cells `l`, and
that the tail pointer is the last of them.  `push`, `pop` and `detach` are the pointer operations;
their lemmas say what they do to `l`, and that they leave alone every queue whose cells they do not
touch.

* `IsQueue.push`, `IsQueue.pop`, `IsQueue.detach` — the operations refine the list operations;
* `IsQueue.frame` — a heap that agrees on the cells of a queue holds the same queue;
* `Carries` — what the cells of a list carry.
-/

namespace VPcie.Lib

/-- A heap cell: the link and what it carries. -/
structure Cell (ℓ α : Type*) where
  next : Option ℓ
  val : α
deriving DecidableEq, Repr

/-- A heap; `none` is an address that is not allocated. -/
abbrev Heap (ℓ α : Type*) := ℓ → Option (Cell ℓ α)

/-- The two pointers of a queue. -/
structure Queue (ℓ : Type*) where
  head : Option ℓ
  tail : Option ℓ
deriving DecidableEq, Repr

variable {ℓ α : Type*}

/-- Following the links from `a` visits exactly the cells `l`. -/
def Chain (h : Heap ℓ α) : Option ℓ → List ℓ → Prop
  | a, [] => a = none
  | a, p :: l => a = some p ∧ ∃ c, h p = some c ∧ Chain h c.next l

/-- The queue `q` holds the cells `l`, oldest first. -/
structure IsQueue (h : Heap ℓ α) (q : Queue ℓ) (l : List ℓ) : Prop where
  chain : Chain h q.head l
  tail : q.tail = l.getLast?
  nodup : l.Nodup

/-- The cells `l` are allocated and carry the values `vs`, in this order. -/
def Carries (h : Heap ℓ α) (l : List ℓ) (vs : List α) : Prop :=
  l.map (fun p => (h p).map Cell.val) = vs.map some

/-! ### Chains -/

@[simp] theorem chain_nil (h : Heap ℓ α) (a : Option ℓ) : Chain h a [] ↔ a = none := Iff.rfl

/-- A heap with the same links on the cells of a chain holds the same chain. -/
theorem Chain.frame {h h' : Heap ℓ α} {a : Option ℓ} {l : List ℓ} (hl : Chain h a l)
    (hsame : ∀ p ∈ l, (h' p).map Cell.next = (h p).map Cell.next) : Chain h' a l := by
  induction l generalizing a with
  | nil => exact hl
  | cons p l ih =>
    obtain ⟨ha, c, hc, hl⟩ := hl
    have hp := hsame p List.mem_cons_self
    rw [hc, Option.map_some, Option.map_eq_some_iff] at hp
    obtain ⟨c', hc', hnext⟩ := hp
    refine ⟨ha, c', hc', ?_⟩
    rw [hnext]
    exact ih hl fun q hq => hsame q (List.mem_cons_of_mem p hq)

theorem Chain.allocated {h : Heap ℓ α} {a : Option ℓ} {l : List ℓ} (hl : Chain h a l) {p : ℓ}
    (hp : p ∈ l) : ∃ c, h p = some c := by
  induction l generalizing a with
  | nil => exact absurd hp List.not_mem_nil
  | cons q l ih =>
    obtain ⟨_, c, hc, hl⟩ := hl
    rcases List.mem_cons.mp hp with rfl | hp
    · exact ⟨c, hc⟩
    · exact ih hl hp

/-- Linking a fresh last cell behind the last cell of a chain appends it. -/
theorem Chain.snoc [DecidableEq ℓ] {h : Heap ℓ α} {a : Option ℓ} {l : List ℓ} {t n : ℓ}
    {c : Cell ℓ α} {v : α} (hl : Chain h a (l ++ [t])) (hnodup : (l ++ [t]).Nodup)
    (ht : h t = some c) (hn : h n = some ⟨none, v⟩) (hfresh : n ∉ l ++ [t]) :
    Chain (Function.update h t (some { c with next := some n })) a (l ++ [t] ++ [n]) := by
  have hnt : n ≠ t := fun e => hfresh (by simp [e])
  induction l generalizing a with
  | nil =>
    obtain ⟨ha, c', hc', hl⟩ := hl
    refine ⟨ha, { c with next := some n }, Function.update_self t _ h, rfl, ⟨none, v⟩, ?_, rfl⟩
    rw [Function.update_of_ne hnt, hn]
  | cons p l ih =>
    obtain ⟨ha, c', hc', hl⟩ := hl
    have hpt : p ≠ t := by
      rintro rfl
      simp at hnodup
    refine ⟨ha, c', ?_, ih hl (List.nodup_cons.mp hnodup).2 fun hm => hfresh ?_⟩
    · rw [Function.update_of_ne hpt, hc']
    · exact List.mem_cons_of_mem p hm

/-! ### Queues -/

theorem isQueue_empty (h : Heap ℓ α) : IsQueue h ⟨none, none⟩ [] := ⟨rfl, rfl, List.nodup_nil⟩

/-- **Frame rule.**  A heap with the same links on the cells of a queue holds the same queue. -/
theorem IsQueue.frame {h h' : Heap ℓ α} {q : Queue ℓ} {l : List ℓ} (hl : IsQueue h q l)
    (hsame : ∀ p ∈ l, (h' p).map Cell.next = (h p).map Cell.next) : IsQueue h' q l :=
  ⟨hl.chain.frame hsame, hl.tail, hl.nodup⟩

/-- Updating a cell outside a queue leaves the queue alone. -/
theorem IsQueue.update_of_not_mem [DecidableEq ℓ] {h : Heap ℓ α} {q : Queue ℓ} {l : List ℓ}
    (hl : IsQueue h q l) {p : ℓ} (hp : p ∉ l) (c : Option (Cell ℓ α)) :
    IsQueue (Function.update h p c) q l := by
  apply hl.frame
  intro p' hp'
  rw [Function.update_of_ne]
  rintro rfl
  exact hp hp'

theorem IsQueue.head_eq {h : Heap ℓ α} {q : Queue ℓ} {l : List ℓ} (hl : IsQueue h q l) :
    q.head = l.head? := by
  cases l with
  | nil => exact hl.chain
  | cons p l => exact hl.chain.1

/-- Append the cell `n`: link it behind the tail, or make it the head of an empty queue. -/
def push [DecidableEq ℓ] (h : Heap ℓ α) (q : Queue ℓ) (n : ℓ) : Heap ℓ α × Queue ℓ :=
  match q.head with
  | none => (h, ⟨some n, some n⟩)
  | some _ =>
    match q.tail with
    | none => (h, ⟨q.head, some n⟩)
    | some t =>
      (Function.update h t ((h t).map fun c => { c with next := some n }), ⟨q.head, some n⟩)

/-- Take the oldest cell off. -/
def pop (h : Heap ℓ α) (q : Queue ℓ) : Option ℓ × Queue ℓ :=
  match q.head with
  | none => (none, q)
  | some p =>
    let next := (h p).bind Cell.next
    (some p, ⟨next, if next.isNone then none else q.tail⟩)

/-- Take the whole list off. -/
def detach (q : Queue ℓ) : Option ℓ × Queue ℓ := (q.head, ⟨none, none⟩)

section Push

variable [DecidableEq ℓ] {h : Heap ℓ α} {q : Queue ℓ} {l : List ℓ} {n : ℓ}

/-- A push changes links only. -/
theorem push_val (h : Heap ℓ α) (q : Queue ℓ) (n p : ℓ) :
    ((push h q n).1 p).map Cell.val = (h p).map Cell.val := by
  unfold push
  split
  · rfl
  · split
    · rfl
    · rename_i t _
      by_cases hp : p = t
      · subst hp
        simp [Option.map_map, Function.comp_def]
      · exact congrArg (Option.map Cell.val) (Function.update_of_ne hp _ h)

/-- The pushed cell is the last one. -/
theorem push_tail (h : Heap ℓ α) (q : Queue ℓ) (n : ℓ) : (push h q n).2.tail = some n := by
  unfold push
  split
  · rfl
  · split <;> rfl

theorem push_allocated (h : Heap ℓ α) (q : Queue ℓ) (n p : ℓ) :
    (push h q n).1 p = none ↔ h p = none := by
  have hval := push_val h q n p
  constructor
  · intro hp
    rw [hp, Option.map_none] at hval
    exact Option.map_eq_none_iff.mp hval.symm
  · intro hp
    rw [hp, Option.map_none] at hval
    exact Option.map_eq_none_iff.mp hval

/-- A push touches no cell outside the queue. -/
theorem IsQueue.push_heap_of_not_mem (hl : IsQueue h q l) {p : ℓ} (hp : p ∉ l) :
    (Lib.push h q n).1 p = h p := by
  unfold Lib.push
  split
  · rfl
  · split
    · rfl
    · rename_i t ht
      refine Function.update_of_ne ?_ _ h
      rintro rfl
      rw [hl.tail] at ht
      exact hp (List.mem_of_mem_getLast? ht)

/-- **Push appends.** -/
theorem IsQueue.push (hl : IsQueue h q l) {v : α} (hn : h n = some ⟨none, v⟩) (hfresh : n ∉ l) :
    IsQueue (Lib.push h q n).1 (Lib.push h q n).2 (l ++ [n]) := by
  rcases List.eq_nil_or_concat l with rfl | ⟨l₀, t, rfl⟩
  · have hhead : q.head = none := hl.chain
    simp only [Lib.push, hhead]
    exact ⟨⟨rfl, ⟨none, v⟩, hn, rfl⟩, rfl, List.nodup_singleton n⟩
  · rw [List.concat_eq_append] at hl hfresh ⊢
    obtain ⟨c, hc⟩ := hl.chain.allocated (p := t) (by simp)
    have htail : q.tail = some t := by rw [hl.tail]; simp
    have hhead : ∃ p, q.head = some p := by
      rw [hl.head_eq]
      cases l₀ <;> simp
    obtain ⟨p, hp⟩ := hhead
    simp only [Lib.push, hp, htail, hc, Option.map_some]
    refine ⟨?_, by simp, ?_⟩
    · rw [← hp]
      exact hl.chain.snoc hl.nodup hc hn hfresh
    · exact List.nodup_append.mpr ⟨hl.nodup, List.nodup_singleton n, by
        intro a ha b hb
        rw [List.mem_singleton] at hb
        rintro rfl
        exact hfresh (hb ▸ ha)⟩

end Push

section Pop

variable {h : Heap ℓ α} {q : Queue ℓ}

theorem IsQueue.pop_nil (hl : IsQueue h q []) : Lib.pop h q = (none, q) := by
  have hhead : q.head = none := hl.chain
  simp [Lib.pop, hhead]

/-- **Pop takes the oldest cell.** -/
theorem IsQueue.pop {p : ℓ} {l : List ℓ} (hl : IsQueue h q (p :: l)) :
    (Lib.pop h q).1 = some p ∧ IsQueue h (Lib.pop h q).2 l := by
  obtain ⟨hhead, c, hc, hchain⟩ := hl.chain
  have hnodup := (List.nodup_cons.mp hl.nodup).2
  simp only [Lib.pop, hhead, hc, Option.bind_some, true_and]
  refine ⟨hchain, ?_, hnodup⟩
  cases l with
  | nil =>
    have hnext : c.next = none := hchain
    simp [hnext]
  | cons p' l =>
    rw [hchain.1, hl.tail]
    simp

/-- **Detach takes every cell.** -/
theorem IsQueue.detach {l : List ℓ} (hl : IsQueue h q l) :
    Chain h (Lib.detach q).1 l ∧ IsQueue h (Lib.detach q).2 [] :=
  ⟨hl.chain, isQueue_empty h⟩

end Pop

/-! ### What the cells carry -/

section Carries

variable {h h' : Heap ℓ α} {l l' : List ℓ} {vs vs' : List α} {p : ℓ} {v : α}

theorem carries_nil (h : Heap ℓ α) : Carries h [] [] := rfl

theorem carries_cons : Carries h (p :: l) (v :: vs) ↔
    (h p).map Cell.val = some v ∧ Carries h l vs := by
  simp [Carries]

theorem carries_singleton : Carries h [p] [v] ↔ (h p).map Cell.val = some v := by
  simp [Carries]

theorem Carries.length (hl : Carries h l vs) : l.length = vs.length := by
  have hlen := congrArg List.length hl
  rwa [List.length_map, List.length_map] at hlen

theorem Carries.append (hl : Carries h l vs) (hl' : Carries h l' vs') :
    Carries h (l ++ l') (vs ++ vs') := by
  rw [Carries, List.map_append, List.map_append, hl, hl']

theorem Carries.congr (hl : Carries h l vs)
    (hsame : ∀ p ∈ l, (h' p).map Cell.val = (h p).map Cell.val) : Carries h' l vs := by
  rw [Carries, List.map_congr_left hsame]
  exact hl

/-- Every cell carries one of the values. -/
theorem Carries.exists_of_mem (hl : Carries h l vs) (hp : p ∈ l) :
    ∃ v ∈ vs, (h p).map Cell.val = some v := by
  have hmem : (h p).map Cell.val ∈ vs.map some := hl ▸ List.mem_map_of_mem hp
  obtain ⟨v, hv, heq⟩ := List.mem_map.mp hmem
  exact ⟨v, hv, heq.symm⟩

theorem Carries.update_of_not_mem [DecidableEq ℓ] (hl : Carries h l vs) (hp : p ∉ l)
    (c : Option (Cell ℓ α)) : Carries (Function.update h p c) l vs := by
  apply hl.congr
  intro p' hp'
  rw [Function.update_of_ne]
  rintro rfl
  exact hp hp'

end Carries

end VPcie.Lib
