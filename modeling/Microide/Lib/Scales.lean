/-
Two scales along one walk.

A walk over something of a given length passes places, and counts units as it goes. Both rise with
every step until the walk is over, and stand still from then on.

**Main results.** `Scale.unit_eq`: equal places have equal units; `Scale.Marks.eq`: a number of
units marks one place; `Scale.Marks.mono`.
-/

import Mathlib.Order.Lattice

namespace Microide.Lib

/-- The places and the units of a walk over `length`. -/
structure Scale (length : Nat) (place unit : Nat → Nat) : Prop where
  rises : Monotone place
  within : ∀ k, place k ≤ length
  step : ∀ k, place k < length → place k < place (k + 1) ∧ unit k < unit (k + 1)
  still : ∀ k, place k = length → unit (k + 1) = unit k
  ends : ∃ k, place k = length

namespace Scale

variable {length : Nat} {place unit : Nat → Nat}

/-- `units` marks a place: the last one that asks for no more. -/
def Marks (length : Nat) (place unit : Nat → Nat) (units spot : Nat) : Prop :=
  ∃ k, place k = spot ∧ unit k ≤ units ∧ (spot = length ∨ units < unit (k + 1))

variable (scale : Scale length place unit)
include scale

theorem unit_mono : Monotone unit := by
  refine monotone_nat_of_le_succ fun k => ?_
  rcases Nat.lt_or_eq_of_le (scale.within k) with inside | over_
  · exact (scale.step k inside).2.le
  · exact (scale.still k over_).ge

/-- A place before another has fewer units. -/
theorem unit_lt {j k : Nat} (before : place j < place k) : unit j < unit k := by
  have inside : place j < length := lt_of_lt_of_le before (scale.within k)
  exact lt_of_lt_of_le (scale.step j inside).2 (scale.unit_mono (scale.rises.reflect_lt before))

theorem unit_le {j k : Nat} (le : place j ≤ place k) : unit j ≤ unit k := by
  rcases Nat.lt_or_eq_of_le le with before | same
  · exact (scale.unit_lt before).le
  · rcases Nat.le_total j k with less | more
    · exact scale.unit_mono less
    · have flat : ∀ m, k ≤ m → m ≤ j → unit m = unit k := by
        intro m from_
        induction m, from_ using Nat.le_induction with
        | base => exact fun _ => rfl
        | succ m from_ ih =>
          intro before
          have here : place m = place k := by
            refine le_antisymm ?_ (scale.rises from_)
            exact (scale.rises (Nat.le_of_succ_le before)).trans same.le
          have over_ : place m = length := by
            by_contra inside
            have up := (scale.step m (lt_of_le_of_ne (scale.within m) inside)).1
            have down := scale.rises before
            omega
          rw [scale.still m over_, ih (Nat.le_of_succ_le before)]
      exact (flat j more le_rfl).le

theorem unit_eq {j k : Nat} (same : place j = place k) : unit j = unit k :=
  le_antisymm (scale.unit_le same.le) (scale.unit_le same.ge)

/-- **A number of units marks the place whose units it reaches but not the next one's.** -/
theorem Marks.eq {units spot k : Nat} (marks : Marks length place unit units spot)
    (reached : unit k ≤ units) (last : place k = length ∨ units < unit (k + 1)) :
    spot = place k := by
  obtain ⟨j, rfl, reached', last'⟩ := marks
  rcases Nat.lt_trichotomy (place j) (place k) with before | same | behind
  · have more : unit (j + 1) ≤ unit k := scale.unit_mono (scale.rises.reflect_lt before)
    have := scale.within k
    omega
  · exact same
  · have more : unit (k + 1) ≤ unit j := scale.unit_mono (scale.rises.reflect_lt behind)
    have := scale.within j
    omega

/-- More units mark no earlier place. -/
theorem Marks.mono {units more spot spot' : Nat} (marks : Marks length place unit units spot)
    (marks' : Marks length place unit more spot') (le : units ≤ more) : spot ≤ spot' := by
  obtain ⟨j, rfl, reached, last⟩ := marks
  obtain ⟨k, rfl, reached', last'⟩ := marks'
  by_contra behind
  have before : unit (k + 1) ≤ unit j :=
    scale.unit_mono (scale.rises.reflect_lt (Nat.not_le.mp behind))
  have := scale.within j
  omega

end Scale

end Microide.Lib
