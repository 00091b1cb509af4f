/-
Greatest values and where they stand.

A peak of a range is its greatest value with a place it stands at. Two neighbouring ranges have the
higher of their peaks; and where part of a range is replaced, the old peak stays one as long as it
is outside of that part and nothing in it is higher, and a higher one inside takes its place.

**Main results.** `bestFrom_spec`: a scan that keeps the better value; `IsPeak.join`;
`IsPeak.spliced_kept`, `IsPeak.spliced_wider`.
-/

import Mathlib.Order.BoundedOrder.Basic
import Mathlib.Order.Lattice

namespace Microide.Lib

variable {α : Type*} [LinearOrder α] [OrderBot α] {value value' : Nat → α} {lo mid hi : Nat}
  {peak other : α × Nat}

/-- The greatest value of a range, and a place where it stands. The least value of all may be said to
stand anywhere. -/
structure IsPeak (value : Nat → α) (lo hi : Nat) (peak : α × Nat) : Prop where
  bound : ∀ i, lo ≤ i → i < hi → value i ≤ peak.1
  attained : peak.1 = ⊥ ∨ lo ≤ peak.2 ∧ peak.2 < hi ∧ value peak.2 = peak.1

theorem isPeak_empty (index : Nat) : IsPeak value lo lo (⊥, index) :=
  ⟨fun _ low high => absurd high (Nat.not_lt_of_le low), .inl rfl⟩

theorem isPeak_single (index : Nat) : IsPeak value index (index + 1) (value index, index) := by
  refine ⟨fun i low high => ?_, .inr ⟨le_rfl, Nat.lt_succ_self index, rfl⟩⟩
  obtain rfl : i = index := by omega
  exact le_rfl

theorem IsPeak.congr (first : IsPeak value lo hi peak)
    (same : ∀ i, lo ≤ i → i < hi → value' i = value i) : IsPeak value' lo hi peak where
  bound i low high := (same i low high).trans_le (first.bound i low high)
  attained := first.attained.imp id fun ⟨low, high, here⟩ =>
    ⟨low, high, (same _ low high).trans here⟩

/-- **The higher of the peaks of two neighbours** is the peak of both, on a tie either. -/
theorem IsPeak.join (first : IsPeak value lo mid peak) (second : IsPeak value mid hi other)
    (le : lo ≤ mid) (le' : mid ≤ hi) {best : α × Nat}
    (best_ : best = peak ∧ other.1 ≤ peak.1 ∨ best = other ∧ peak.1 ≤ other.1) :
    IsPeak value lo hi best := by
  rcases best_ with ⟨rfl, higher⟩ | ⟨rfl, higher⟩
  · constructor
    · intro i low high
      rcases Nat.lt_or_ge i mid with left | right
      · exact first.bound i low left
      · exact (second.bound i right high).trans higher
    · exact first.attained.imp id fun ⟨low, high, here⟩ => ⟨low, high.trans_le le', here⟩
  · constructor
    · intro i low high
      rcases Nat.lt_or_ge i mid with left | right
      · exact (first.bound i low left).trans higher
      · exact second.bound i right high
    · exact second.attained.imp id fun ⟨low, high, here⟩ => ⟨le.trans low, high, here⟩

/-! ### Scans -/

/-- A scan of values that stand from `index` on: a value that beats the best so far takes its
place. -/
def bestFrom (beats : α → α → Bool) : α × Nat → Nat → List α → α × Nat
  | best, _, [] => best
  | best, index, value :: values =>
    bestFrom beats (if beats value best.1 then (value, index) else best) (index + 1) values

/-- What beats another is no lower, and what does not is no higher. -/
structure Prefers (beats : α → α → Bool) : Prop where
  higher : ∀ value best, beats value best = true → best ≤ value
  lower : ∀ value best, beats value best = false → value ≤ best

omit [OrderBot α] in
theorem prefers_le : Prefers fun value best : α => decide (best ≤ value) where
  higher _ _ := of_decide_eq_true
  lower _ _ higher := le_of_not_ge (of_decide_eq_false higher)

omit [OrderBot α] in
theorem prefers_lt : Prefers fun value best : α => decide (best < value) where
  higher _ _ higher := (of_decide_eq_true higher).le
  lower _ _ lower := le_of_not_gt (of_decide_eq_false lower)

section Scans

variable {beats : α → α → Bool} {best : α × Nat} {index : Nat} {values : List α}

/-- A scan goes on from the peak of what it has seen. -/
theorem bestFrom_isPeak (prefers : Prefers beats) (seen : IsPeak value lo index best) (le : lo ≤ index)
    (values_ : ∀ k, ∀ v ∈ values[k]?, value (index + k) = v) :
    IsPeak value lo (index + values.length) (bestFrom beats best index values) := by
  induction values generalizing best index with
  | nil => exact seen
  | cons first rest ih =>
    have here : value index = first := values_ 0 first rfl
    rw [bestFrom, List.length_cons, ← Nat.add_assoc, Nat.add_right_comm]
    refine ih (seen.join (isPeak_single index) le (Nat.le_succ index) ?_) (le.trans (Nat.le_succ _)) ?_
    · rw [here]
      split
      next beaten =>
        exact .inr ⟨rfl, prefers.higher _ _ beaten⟩
      next stays =>
        exact .inl ⟨rfl, prefers.lower _ _ (eq_false_of_ne_true stays)⟩
    · intro k v mem
      rw [Nat.add_assoc, Nat.add_comm 1]
      exact values_ (k + 1) v mem

/-- **A scan keeps what it started with, or finds the peak of what it scans.** -/
theorem bestFrom_spec (prefers : Prefers beats) (values_ : ∀ k, ∀ v ∈ values[k]?, value (index + k) = v) :
    (bestFrom beats best index values = best ∧
        ∀ i, index ≤ i → i < index + values.length → value i ≤ best.1) ∨
      (IsPeak value index (index + values.length) (bestFrom beats best index values) ∧
        best.1 ≤ (bestFrom beats best index values).1) := by
  induction values generalizing best index with
  | nil => exact .inl ⟨rfl, fun i low high => absurd high (Nat.not_lt_of_le low)⟩
  | cons first rest ih =>
    have here : value index = first := values_ 0 first rfl
    have later : ∀ k, ∀ v ∈ rest[k]?, value (index + 1 + k) = v := fun k v mem => by
      rw [Nat.add_assoc, Nat.add_comm 1]
      exact values_ (k + 1) v mem
    have single := @isPeak_single _ _ _ value index
    rw [here] at single
    rw [bestFrom, List.length_cons, ← Nat.add_assoc, Nat.add_right_comm]
    by_cases beaten : beats first best.1 = true
    · rw [if_pos beaten]
      have peak := bestFrom_isPeak prefers single (Nat.le_succ index) later
      have reached := peak.bound index le_rfl (by omega)
      rw [here] at reached
      exact .inr ⟨peak, (prefers.higher _ _ beaten).trans reached⟩
    · have lower := prefers.lower _ _ (eq_false_of_ne_true beaten)
      rw [if_neg beaten]
      rcases ih later with ⟨stays, bound⟩ | ⟨peak, higher⟩
      · refine .inl ⟨stays, fun i low high => ?_⟩
        rcases Nat.eq_or_lt_of_le low with rfl | more
        · rwa [here]
        · exact bound i more high
      · exact .inr ⟨single.join peak (Nat.le_succ index) (Nat.le_add_right _ _)
          (.inr ⟨rfl, lower.trans higher⟩), higher⟩

end Scans

/-! ### Replacing a part -/

/-- In the range from `lo` on, the values from `start` to `stop` are replaced by those from `start` to
`stop'`, and `count` values follow. -/
structure Replaced (value value' : Nat → α) (lo start stop stop' count : Nat) : Prop where
  lo_le : lo ≤ start
  start_le : start ≤ stop
  start_le' : start ≤ stop'
  before : ∀ i, lo ≤ i → i < start → value' i = value i
  behind : ∀ k < count, value' (stop' + k) = value (stop + k)

/-- Where a place behind the replaced part comes to stand. -/
def movedPlace (stop stop' i : Nat) : Nat := if stop ≤ i then i + stop' - stop else i

section Replacing

variable {start stop stop' count : Nat}

section

variable (replaced : Replaced value value' lo start stop stop' count)

include replaced

theorem Replaced.bound (seen : IsPeak value lo (stop + count) peak) {height : α}
    (higher : peak.1 ≤ height) (inner : ∀ i, start ≤ i → i < stop' → value' i ≤ height) {i : Nat}
    (low : lo ≤ i) (high : i < stop' + count) : value' i ≤ height := by
  have from_ := replaced.lo_le
  have order := replaced.start_le
  rcases Nat.lt_or_ge i start with before | part
  · rw [replaced.before i low before]
    exact (seen.bound i low (by omega)).trans higher
  · rcases Nat.lt_or_ge i stop' with inside | behind
    · exact inner i part inside
    · obtain ⟨k, rfl⟩ := Nat.exists_eq_add_of_le behind
      rw [replaced.behind k (by omega)]
      exact (seen.bound _ (by omega) (by omega)).trans higher

/-- **A peak outside of the replaced part stays one** if the part has nothing higher. -/
theorem IsPeak.replaced_kept (seen : IsPeak value lo (stop + count) peak)
    (outside : start ≤ peak.2 → stop ≤ peak.2)
    (inner : ∀ i, start ≤ i → i < stop' → value' i ≤ peak.1) :
    IsPeak value' lo (stop' + count) (peak.1, movedPlace stop stop' peak.2) := by
  have from_ := replaced.lo_le
  have order := replaced.start_le
  have order' := replaced.start_le'
  refine ⟨fun i => replaced.bound seen le_rfl inner, seen.attained.imp id ?_⟩
  rintro ⟨low, high, here⟩
  rcases Nat.lt_or_ge peak.2 start with before | part
  · rw [movedPlace, if_neg (by omega), replaced.before _ low before]
    exact ⟨low, by omega, here⟩
  · obtain ⟨k, place⟩ := Nat.exists_eq_add_of_le (outside part)
    have moved : movedPlace stop stop' peak.2 = stop' + k := by
      rw [movedPlace, if_pos (outside part)]
      omega
    rw [moved, replaced.behind k (by omega), ← place]
    exact ⟨by omega, by omega, here⟩

/-- **A peak of the new part that is no lower** than the old one is the peak of the whole. -/
theorem IsPeak.replaced_wider (seen : IsPeak value lo (stop + count) peak)
    (inner : IsPeak value' start stop' other) (higher : peak.1 ≤ other.1) :
    IsPeak value' lo (stop' + count) other := by
  refine ⟨fun i => replaced.bound seen higher inner.bound, inner.attained.imp id ?_⟩
  rintro ⟨low, high, here⟩
  exact ⟨replaced.lo_le.trans low, by omega, here⟩

end

end Replacing

end Microide.Lib
