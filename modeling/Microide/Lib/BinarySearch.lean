/-
Binary search.

The halving loop behind a lower and an upper bound: where the first elements of a list pass a
test and the rest do not, it finds the place between them.

**Main results.** `partitionPoint_append`: the search finds the cut; `exists_cut`: a list whose
passing elements all come first has one.
-/

import Mathlib.Data.List.Basic
import Mathlib.Data.List.Pairwise
import Mathlib.Data.List.TakeWhile

namespace Microide.Lib

open List

variable {α : Type}

/-- The loop over the `len` elements from `first` on. A round leaves at most half of them, so
`len` rounds are enough. -/
def partitionPointFrom (below : α → Bool) (l : List α) : Nat → Nat → Nat → Nat
  | 0, first, _ => first
  | rounds + 1, first, len =>
    if len = 0 then first
    else
      match l[first + len / 2]? with
      | some a =>
        if below a then partitionPointFrom below l rounds (first + len / 2 + 1) (len - len / 2 - 1)
        else partitionPointFrom below l rounds first (len / 2)
      | none => first

/-- The first index whose element does not pass. -/
def partitionPoint (below : α → Bool) (l : List α) : Nat :=
  partitionPointFrom below l l.length 0 l.length

/-- On any list, the element before the search's answer passes. -/
theorem partitionPointFrom_passing {below : α → Bool} {l : List α} (rounds first len : Nat)
    (start : first = 0 ∨ ∃ a, l[first - 1]? = some a ∧ below a = true) :
    partitionPointFrom below l rounds first len = 0 ∨
      ∃ a, l[partitionPointFrom below l rounds first len - 1]? = some a ∧ below a = true := by
  induction rounds generalizing first len with
  | zero => exact start
  | succ rounds ih =>
    rw [partitionPointFrom]
    split
    · exact start
    · split
      next a found =>
        split
        next passes =>
          exact ih _ _ (.inr ⟨a, found, passes⟩)
        · exact ih _ _ start
      · exact start

theorem passing_of_partitionPoint {below : α → Bool} {l : List α} {i : Nat}
    (found : partitionPoint below l = i + 1) : ∃ a, l[i]? = some a ∧ below a = true := by
  have passing := partitionPointFrom_passing l.length 0 l.length
    (.inl rfl : 0 = 0 ∨ ∃ a, l[0 - 1]? = some a ∧ below a = true)
  rw [← partitionPoint, found] at passing
  rcases passing with none_ | some_
  · exact absurd none_ (Nat.succ_ne_zero i)
  · exact some_

section Cut

variable {below : α → Bool} {before rest : List α}

theorem partitionPointFrom_append (passing : ∀ a ∈ before, below a = true)
    (failing : ∀ a ∈ rest, below a = false) (rounds first len : Nat) (enough : len ≤ rounds)
    (low : first ≤ before.length) (high : before.length ≤ first + len)
    (inside : first + len ≤ (before ++ rest).length) :
    partitionPointFrom below (before ++ rest) rounds first len = before.length := by
  induction rounds generalizing first len with
  | zero =>
    rw [partitionPointFrom]
    omega
  | succ rounds ih =>
    rw [partitionPointFrom]
    by_cases empty : len = 0
    · rw [if_pos empty]
      omega
    · rw [if_neg empty]
      rcases Nat.lt_or_ge (first + len / 2) before.length with left | right
      · have found : (before ++ rest)[first + len / 2]? = some (before[first + len / 2]) := by
          rw [getElem?_append_left left, getElem?_eq_getElem left]
        rw [found]
        dsimp only
        rw [if_pos (passing _ (getElem_mem left))]
        exact ih _ _ (by omega) (by omega) (by omega) (by omega)
      · have bound : first + len / 2 - before.length < rest.length := by
          rw [length_append] at inside
          omega
        have found : (before ++ rest)[first + len / 2]? =
            some (rest[first + len / 2 - before.length]) := by
          rw [getElem?_append_right right, getElem?_eq_getElem bound]
        rw [found]
        dsimp only
        rw [failing _ (getElem_mem bound), if_neg Bool.false_ne_true]
        exact ih _ _ (by omega) low (by omega) (by omega)

theorem partitionPoint_append (passing : ∀ a ∈ before, below a = true)
    (failing : ∀ a ∈ rest, below a = false) :
    partitionPoint below (before ++ rest) = before.length := by
  refine partitionPointFrom_append passing failing _ 0 _ (Nat.le_refl _) (Nat.zero_le _) ?_ ?_
  · rw [length_append]
    omega
  · omega

/-- A list whose passing elements come before the others is cut at the search's answer. -/
theorem exists_cut {l : List α} (ordered : l.Pairwise fun a b => below b → below a) :
    ∃ before rest, l = before ++ rest ∧ partitionPoint below l = before.length ∧
      (∀ a ∈ before, below a = true) ∧ ∀ a ∈ rest, below a = false := by
  have failing : ∀ a ∈ l.dropWhile below, below a = false := by
    intro a mem
    obtain ⟨first, more, shape⟩ := exists_cons_of_ne_nil (ne_nil_of_mem mem)
    have stops : below first = false := by
      have := head?_dropWhile_not below l
      rw [shape] at this
      simpa using this
    have suffix : (first :: more).Pairwise fun a b => below b → below a :=
      ordered.sublist (shape ▸ dropWhile_sublist below)
    rw [shape] at mem
    rcases mem_cons.mp mem with rfl | mem
    · exact stops
    · by_contra passes
      have back := rel_of_pairwise_cons suffix mem (by simpa using passes)
      rw [stops] at back
      exact Bool.false_ne_true back
  refine ⟨l.takeWhile below, l.dropWhile below, takeWhile_append_dropWhile.symm, ?_,
    fun a => mem_takeWhile_imp, failing⟩
  calc partitionPoint below l
      = partitionPoint below (l.takeWhile below ++ l.dropWhile below) := by
        rw [takeWhile_append_dropWhile]
    _ = (l.takeWhile below).length :=
        partitionPoint_append (fun a => mem_takeWhile_imp) failing

end Cut

end Microide.Lib
