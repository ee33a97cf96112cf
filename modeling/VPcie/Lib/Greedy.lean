import Mathlib.Data.List.Basic
import Mathlib.Tactic.Common

/-!
# Items at the front of a stream

A set of non-empty words, the items, of which at most one is at the front of any stream: a function
`split` finds it and takes it off.  `greedy` does so while it can.

* `greedy_sound` — the stream is the items that were taken and a rest;
* `greedy_longest` — no sequence of items at the front of the stream goes further.
-/

namespace VPcie.Lib

variable {α : Type*}

/-- `split` takes the item off the front of a stream, if there is one. -/
structure Splits (Item : List α → Prop) (split : List α → Option (List α × List α)) : Prop where
  sound : ∀ {s f r}, split s = some (f, r) → Item f ∧ s = f ++ r
  complete : ∀ {f}, Item f → ∀ r, split (f ++ r) = some (f, r)
  nonempty : ∀ {f}, Item f → f ≠ []

/-- The items at the front of a stream, at most `n` of them, and the rest. -/
def greedy (split : List α → Option (List α × List α)) : ℕ → List α → List (List α) × List α
  | 0, s => ([], s)
  | n + 1, s =>
    match split s with
    | none => ([], s)
    | some (f, r) => (f :: (greedy split n r).1, (greedy split n r).2)

section Greedy

variable {Item : List α → Prop} {split : List α → Option (List α × List α)}

theorem greedy_none {s : List α} (h : split s = none) (n : ℕ) : greedy split n s = ([], s) := by
  cases n with
  | zero => rfl
  | succ n =>
    show (match split s with
      | none => ([], s)
      | some (f, r) => (f :: (greedy split n r).1, (greedy split n r).2)) = ([], s)
    rw [h]

theorem greedy_some {s f r : List α} (h : split s = some (f, r)) (n : ℕ) :
    greedy split (n + 1) s = (f :: (greedy split n r).1, (greedy split n r).2) := by
  show (match split s with
    | none => ([], s)
    | some (f, r) => (f :: (greedy split n r).1, (greedy split n r).2)) = _
  rw [h]

/-- **What was taken are items**, and with the rest they are the stream. -/
theorem greedy_sound (hs : Splits Item split) (n : ℕ) (s : List α) :
    (∀ f ∈ (greedy split n s).1, Item f) ∧
      s = (greedy split n s).1.flatten ++ (greedy split n s).2 := by
  induction n generalizing s with
  | zero => exact ⟨fun f hf => absurd hf (List.not_mem_nil), rfl⟩
  | succ n ih =>
    cases hsplit : split s with
    | none =>
      rw [greedy_none hsplit]
      exact ⟨fun f hf => absurd hf (List.not_mem_nil), rfl⟩
    | some p =>
      obtain ⟨hitem, happ⟩ := hs.sound hsplit
      obtain ⟨hall, hrest⟩ := ih p.2
      rw [greedy_some hsplit]
      refine ⟨?_, ?_⟩
      · intro f hf
        rcases List.mem_cons.mp hf with rfl | hf
        · exact hitem
        · exact hall f hf
      · rw [List.flatten_cons, List.append_assoc, ← hrest]
        exact happ

/-- **No sequence of items at the front goes further.** -/
theorem greedy_longest (hs : Splits Item split) (n : ℕ) (s : List α) (hn : s.length ≤ n)
    {gs : List (List α)} {r : List α} (hitems : ∀ g ∈ gs, Item g) (heq : s = gs.flatten ++ r) :
    gs <+: (greedy split n s).1 := by
  induction gs generalizing n s with
  | nil => exact List.nil_prefix
  | cons g gs ih =>
    have hitem := hitems g List.mem_cons_self
    rw [List.flatten_cons, List.append_assoc] at heq
    have hpos := List.length_pos_iff.mpr (hs.nonempty hitem)
    have hlen := congrArg List.length heq
    rw [List.length_append] at hlen
    obtain ⟨k, rfl⟩ : ∃ k, n = k + 1 := ⟨n - 1, by omega⟩
    have hsplit := hs.complete hitem (gs.flatten ++ r)
    rw [← heq] at hsplit
    rw [greedy_some hsplit]
    refine List.cons_prefix_cons.mpr ⟨rfl, ?_⟩
    exact ih k _ (by omega) (fun x hx => hitems x (List.mem_cons_of_mem g hx)) rfl

end Greedy

end VPcie.Lib
