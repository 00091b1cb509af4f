/-
Cached states of a fold.

A machine reads a list from the left; its states before each element make a chain. A cache
holds some of them up to a frontier: what is below the frontier is to be the machine's own
state, what is above it says nothing.

**Main results.** `stateBefore_congr`: the chain up to a place depends on what is before it;
`Agrees` and its rules: how a cache grows, is cut and overwritten.
-/

import Mathlib.Data.List.Basic
import Mathlib.Order.Basic

namespace Microide.Lib

open List

/-! ### The chain -/

section Chain

variable {α σ : Type} (step : σ → α → σ) (first : σ)

/-- The state before element `n`. -/
def stateBefore (l : List α) (n : Nat) : σ := (l.take n).foldl step first

@[simp] theorem stateBefore_zero (l : List α) : stateBefore step first l 0 = first := rfl

theorem stateBefore_succ {l : List α} {n : Nat} (inside : n < l.length) :
    stateBefore step first l (n + 1) = step (stateBefore step first l n) l[n] := by
  rw [stateBefore, take_succ_eq_append_getElem inside, foldl_append]
  rfl

theorem stateBefore_congr {l l' : List α} {n : Nat} (same : l.take n = l'.take n) :
    stateBefore step first l n = stateBefore step first l' n := by
  rw [stateBefore, same, stateBefore]

end Chain

/-! ### Caches -/

section Agrees

variable {σ : Type} {f : Nat → σ} {cached : List σ} {valid : Nat}

/-- The first `valid` entries are the function's values. -/
structure Agrees (f : Nat → σ) (cached : List σ) (valid : Nat) : Prop where
  stored : valid ≤ cached.length
  exact : ∀ k < valid, cached[k]? = some (f k)

theorem Agrees.nothing (f : Nat → σ) (cached : List σ) : Agrees f cached 0 :=
  ⟨Nat.zero_le _, fun k below => absurd below (Nat.not_lt_zero k)⟩

section

variable (agrees : Agrees f cached valid)

include agrees

theorem Agrees.mono {less : Nat} (le : less ≤ valid) : Agrees f cached less :=
  ⟨Nat.le_trans le agrees.stored, fun k below => agrees.exact k (Nat.lt_of_lt_of_le below le)⟩

/-- The cache of one function is one of another that agrees below the frontier. -/
theorem Agrees.congr {g : Nat → σ} (same : ∀ k < valid, f k = g k) : Agrees g cached valid :=
  ⟨agrees.stored, fun k below => by rw [agrees.exact k below, same k below]⟩

/-- The function's own value may be written anywhere. -/
theorem Agrees.set (k : Nat) : Agrees f (cached.set k (f k)) valid := by
  refine ⟨by rw [length_set]; exact agrees.stored, fun j below => ?_⟩
  rw [getElem?_set]
  split
  next same =>
    subst same
    rw [if_pos (Nat.lt_of_lt_of_le below agrees.stored)]
  · exact agrees.exact j below

theorem Agrees.append (more : List σ) : Agrees f (cached ++ more) valid := by
  refine ⟨by rw [length_append]; exact Nat.le_add_right_of_le agrees.stored, ?_⟩
  intro k below
  rw [getElem?_append_left (Nat.lt_of_lt_of_le below agrees.stored)]
  exact agrees.exact k below

theorem Agrees.take (n : Nat) : Agrees f (cached.take n) (min valid n) := by
  have stored := agrees.stored
  refine ⟨by rw [length_take]; omega, fun k below => ?_⟩
  rw [getElem?_take_of_lt (by omega)]
  exact agrees.exact k (by omega)

/-- The frontier moves one up over the function's value. -/
theorem Agrees.succ (next : cached[valid]? = some (f valid)) : Agrees f cached (valid + 1) := by
  obtain ⟨inside, -⟩ := List.getElem?_eq_some_iff.mp next
  refine ⟨inside, fun k below => ?_⟩
  rcases Nat.lt_succ_iff_lt_or_eq.mp below with below | rfl
  · exact agrees.exact k below
  · exact next

end

end Agrees

end Microide.Lib
