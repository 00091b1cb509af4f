/-
Merging ranges in the order of their starts.

Half-open ranges over a linear order, some of them empty: a run of ranges that meet becomes one.
Two ranges with elements meet where they share one; an empty range meets what it touches.

**Main results.** `MergeRule.clear`: no two of the merged ranges meet; `MergeRule.covered`: they
hold the elements the ranges held; `MergeRule.contained`: every range is inside a merged one;
`MergeRule.unmerged`: ranges of which none meet are left alone.
-/

import Mathlib.Order.MinMax
import Mathlib.Data.List.Pairwise

namespace Microide.Lib

open List

variable {ε κ : Type}

/-- The ranges left of a run, `prev` the one being grown, and whether any were merged. -/
def mergeRuns (meets : ε → ε → Bool) (absorb : ε → ε → ε) (prev : ε) : List ε → List ε × Bool
  | [] => ([prev], false)
  | next :: ranges =>
    if meets prev next then ((mergeRuns meets absorb (absorb prev next) ranges).1, true)
    else
      let rest := mergeRuns meets absorb next ranges
      (prev :: rest.1, rest.2)

section Ranges

variable [LinearOrder κ] (start stop : ε → κ)

/-- `a` ends where `b` begins or above; strictly so where one of them is empty. -/
def Before (a b : ε) : Prop :=
  stop a ≤ start b ∧ (start a = stop a ∨ start b = stop b → stop a < start b)

/-- The two do not meet. -/
def Clear (a b : ε) : Prop := Before start stop a b ∨ Before start stop b a

/-- The element is in one of the ranges. -/
def Held (ranges : List ε) (k : κ) : Prop := ∃ range ∈ ranges, start range ≤ k ∧ k < stop range

variable {start stop}

theorem held_cons {range : ε} {ranges : List ε} {k : κ} : Held start stop (range :: ranges) k ↔
    (start range ≤ k ∧ k < stop range) ∨ Held start stop ranges k := by
  simp [Held]

theorem Clear.symm {a b : ε} (clear : Clear start stop a b) : Clear start stop b a := Or.symm clear

/-- A range meets itself. -/
theorem not_clear_self {a b : ε} (starts : start a = start b) (stops : stop a = stop b)
    (ordered : start a ≤ stop a) : ¬Clear start stop a b := by
  rintro (⟨le, lt⟩ | ⟨le, lt⟩)
  · rw [← starts] at le lt
    have empty := le_antisymm ordered le
    exact absurd (lt (.inl empty)) (not_lt.mpr ordered)
  · rw [← stops] at le lt
    have empty := le_antisymm ordered le
    exact absurd (lt (.inr empty)) (not_lt.mpr ordered)

end Ranges

/-- How a merge tells the ranges that meet and makes one of them. -/
structure MergeRule [LinearOrder κ] (start stop : ε → κ) (meets : ε → ε → Bool)
    (absorb : ε → ε → ε) : Prop where
  meets_iff : ∀ prev next, meets prev next = true ↔
    start next ≤ stop prev ∧ (start prev ≠ stop prev → start next ≠ stop next → start next < stop prev)
  absorb_start : ∀ prev next, start (absorb prev next) = start prev
  absorb_stop : ∀ prev next, stop (absorb prev next) = max (stop prev) (stop next)

namespace MergeRule

variable [LinearOrder κ] {start stop : ε → κ} {meets : ε → ε → Bool} {absorb : ε → ε → ε}
  (rule : MergeRule start stop meets absorb)

include rule

/-- Ranges in the order of their starts that do not meet come one before the other. -/
theorem before_of_not_meets {prev next : ε} (stays : meets prev next = false) :
    Before start stop prev next := by
  have apart := (rule.meets_iff prev next).not.mp (ne_true_of_eq_false stays)
  rw [not_and_or, not_le] at apart
  rcases apart with lt | apart
  · exact ⟨lt.le, fun _ => lt⟩
  · push Not at apart
    obtain ⟨some_, someNext, le⟩ := apart
    exact ⟨le, fun empty => (empty.elim some_ someNext).elim⟩

theorem not_meets_of_before {prev next : ε} (before : Before start stop prev next) :
    meets prev next = false := by
  rw [Bool.eq_false_iff, ne_eq, rule.meets_iff]
  rintro ⟨le, lt⟩
  by_cases empty : start prev = stop prev ∨ start next = stop next
  · exact absurd (before.2 empty) (not_lt.mpr le)
  · push Not at empty
    exact absurd (lt empty.1 empty.2) (not_lt.mpr before.1)

theorem unmerged {ranges : List ε} {prev : ε}
    (before : (prev :: ranges).Pairwise (Before start stop)) :
    mergeRuns meets absorb prev ranges = (prev :: ranges, false) := by
  induction ranges generalizing prev with
  | nil => rfl
  | cons next ranges ih =>
    obtain ⟨here, later⟩ := pairwise_cons.mp before
    have stays := rule.not_meets_of_before (here next mem_cons_self)
    rw [mergeRuns, if_neg (ne_true_of_eq_false stays), ih later]

variable {ranges : List ε} {prev : ε}
  (sorted : (prev :: ranges).Pairwise fun a b => start a ≤ start b)
  (ordered : ∀ range ∈ prev :: ranges, start range ≤ stop range)

include sorted ordered

omit rule ordered in
/-- The range being grown stands where it stood among the others. -/
theorem absorbed_sorted (absorb_start : ∀ prev next, start (absorb prev next) = start prev)
    {next : ε} {rest : List ε} (cut : ranges = next :: rest) :
    (absorb prev next :: rest).Pairwise fun a b => start a ≤ start b := by
  subst cut
  obtain ⟨from_, later⟩ := pairwise_cons.mp sorted
  refine pairwise_cons.mpr ⟨fun other mem => ?_, (pairwise_cons.mp later).2⟩
  rw [absorb_start]
  exact from_ other (mem_cons_of_mem _ mem)

/-- The merged ranges: the first grew from `prev`, and each comes before the next. -/
theorem merged : ∃ head tail, (mergeRuns meets absorb prev ranges).1 = head :: tail ∧
    start head = start prev ∧ stop prev ≤ stop head ∧
    (head :: tail).Pairwise (Before start stop) ∧ ∀ range ∈ head :: tail, start range ≤ stop range := by
  induction ranges generalizing prev with
  | nil => exact ⟨prev, [], rfl, rfl, le_rfl, pairwise_singleton _ _, ordered⟩
  | cons next ranges ih =>
    obtain ⟨from_, later⟩ := pairwise_cons.mp sorted
    obtain ⟨here, orderedLater⟩ := forall_mem_cons.mp ordered
    rw [mergeRuns]
    split
    next joins =>
      obtain ⟨head, tail, cut, starts, stops, clear, orderedOut⟩ := ih
        (absorbed_sorted sorted rule.absorb_start rfl) (by
          refine forall_mem_cons.mpr ⟨?_, fun other mem =>
            orderedLater other (mem_cons_of_mem _ mem)⟩
          rw [rule.absorb_start, rule.absorb_stop]
          exact here.trans (le_max_left _ _))
      rw [rule.absorb_stop] at stops
      rw [rule.absorb_start] at starts
      exact ⟨head, tail, cut, starts, (le_max_left _ _).trans stops, clear, orderedOut⟩
    next apart =>
      rw [Bool.not_eq_true] at apart
      obtain ⟨head, tail, cut, starts, stops, clear, orderedOut⟩ := ih later orderedLater
      have before := rule.before_of_not_meets apart
      refine ⟨prev, head :: tail, congrArg (prev :: ·) cut, rfl, le_rfl, pairwise_cons.mpr ⟨?_, clear⟩,
        forall_mem_cons.mpr ⟨here, orderedOut⟩⟩
      have orderedHead := orderedOut head mem_cons_self
      have beforeHead : Before start stop prev head := by
        refine ⟨before.1.trans_eq starts.symm, fun empty => ?_⟩
        rw [starts]
        refine before.2 (empty.imp_right fun emptyHead => ?_)
        refine le_antisymm (orderedLater next mem_cons_self) ?_
        rw [← starts, emptyHead]
        exact stops
      refine forall_mem_cons.mpr ⟨beforeHead, fun other mem => ?_⟩
      obtain ⟨le, lt⟩ := rel_of_pairwise_cons clear mem
      have strictly : stop prev < start other := by
        by_cases empty : start head = stop head
        · exact (beforeHead.1.trans_eq empty).trans_lt (lt (.inl empty))
        · exact beforeHead.1.trans_lt ((lt_of_le_of_ne orderedHead empty).trans_le le)
      exact ⟨strictly.le, fun _ => strictly⟩

/-- **No two of the merged ranges meet.** -/
theorem clear : ((mergeRuns meets absorb prev ranges).1).Pairwise (Before start stop) := by
  obtain ⟨head, tail, cut, -, -, clear, -⟩ := rule.merged sorted ordered
  rw [cut]
  exact clear

/-- **The merged ranges hold what the ranges held.** -/
theorem covered (k : κ) :
    Held start stop (mergeRuns meets absorb prev ranges).1 k ↔ Held start stop (prev :: ranges) k := by
  induction ranges generalizing prev with
  | nil => rfl
  | cons next ranges ih =>
    obtain ⟨from_, later⟩ := pairwise_cons.mp sorted
    obtain ⟨here, orderedLater⟩ := forall_mem_cons.mp ordered
    rw [mergeRuns]
    split
    next joins =>
      obtain ⟨le, -⟩ := (rule.meets_iff prev next).mp joins
      refine (ih (absorbed_sorted sorted rule.absorb_start rfl) ?_).trans ?_
      · refine forall_mem_cons.mpr ⟨?_, fun other mem =>
          orderedLater other (mem_cons_of_mem _ mem)⟩
        rw [rule.absorb_start, rule.absorb_stop]
        exact here.trans (le_max_left _ _)
      · rw [held_cons, held_cons, held_cons, rule.absorb_start, rule.absorb_stop, ← or_assoc]
        refine or_congr_left ?_
        constructor
        · rintro ⟨from_, within⟩
          rcases lt_or_ge k (stop prev) with inside | past
          · exact .inl ⟨from_, inside⟩
          · exact .inr ⟨le.trans past, (lt_max_iff.mp within).resolve_left (not_lt.mpr past)⟩
        · rintro (⟨begins, within⟩ | ⟨begins, within⟩)
          · exact ⟨begins, within.trans_le (le_max_left _ _)⟩
          · exact ⟨(from_ next mem_cons_self).trans begins, within.trans_le (le_max_right _ _)⟩
    · exact held_cons.trans ((or_congr_right (ih later orderedLater)).trans held_cons.symm)

/-- **Every range is inside a merged one**, which has the marks it has. -/
theorem contained {mark : ε → Bool}
    (marks : ∀ prev next, mark (absorb prev next) = (mark prev || mark next)) {range : ε}
    (mem : range ∈ prev :: ranges) : ∃ whole ∈ (mergeRuns meets absorb prev ranges).1,
      start whole ≤ start range ∧ stop range ≤ stop whole ∧ (mark range = true → mark whole = true) := by
  induction ranges generalizing prev range with
  | nil => exact ⟨range, mem, le_rfl, le_rfl, id⟩
  | cons next ranges ih =>
    obtain ⟨from_, later⟩ := pairwise_cons.mp sorted
    obtain ⟨here, orderedLater⟩ := forall_mem_cons.mp ordered
    rw [mergeRuns]
    split
    · have grown : ∃ inner ∈ absorb prev next :: ranges, start inner ≤ start range ∧
          stop range ≤ stop inner ∧ (mark range = true → mark inner = true) := by
        rcases mem_cons.mp mem with rfl | mem
        · refine ⟨_, mem_cons_self, (rule.absorb_start _ _).le, ?_, fun marked => ?_⟩
          · rw [rule.absorb_stop]
            exact le_max_left _ _
          · rw [marks, marked, Bool.true_or]
        · rcases mem_cons.mp mem with rfl | mem
          · refine ⟨_, mem_cons_self, ?_, ?_, fun marked => ?_⟩
            · rw [rule.absorb_start]
              exact from_ _ mem_cons_self
            · rw [rule.absorb_stop]
              exact le_max_right _ _
            · rw [marks, marked, Bool.or_true]
          · exact ⟨range, mem_cons_of_mem _ mem, le_rfl, le_rfl, id⟩
      obtain ⟨inner, memInner, starts, stops, marked⟩ := grown
      obtain ⟨whole, memWhole, startsWhole, stopsWhole, markedWhole⟩ := ih
        (absorbed_sorted sorted rule.absorb_start rfl) (by
          refine forall_mem_cons.mpr ⟨?_, fun other mem =>
            orderedLater other (mem_cons_of_mem _ mem)⟩
          rw [rule.absorb_start, rule.absorb_stop]
          exact here.trans (le_max_left _ _)) memInner
      exact ⟨whole, memWhole, startsWhole.trans starts, stops.trans stopsWhole,
        fun is => markedWhole (marked is)⟩
    · rcases mem_cons.mp mem with rfl | mem
      · exact ⟨_, mem_cons_self, le_rfl, le_rfl, id⟩
      · obtain ⟨whole, memWhole, rest⟩ := ih later orderedLater mem
        exact ⟨whole, mem_cons_of_mem _ memWhole, rest⟩

omit [LinearOrder κ] rule sorted ordered in
/-- A mark is carried by no more merged ranges than ranges. -/
theorem countP_merged_le {mark : ε → Bool}
    (marks : ∀ prev next, mark (absorb prev next) = (mark prev || mark next)) :
    ((mergeRuns meets absorb prev ranges).1).countP mark ≤ (prev :: ranges).countP mark := by
  induction ranges generalizing prev with
  | nil => exact le_rfl
  | cons next ranges ih =>
    rw [mergeRuns]
    split
    · refine ih.trans ?_
      simp only [countP_cons, marks]
      cases mark prev <;> cases mark next <;> simp
    · simp only [countP_cons]
      have rest := @ih next
      simp only [countP_cons] at rest
      omega

end MergeRule

theorem mergeRuns_unflagged {meets : ε → ε → Bool} {absorb : ε → ε → ε} {ranges : List ε} {prev : ε}
    (none_ : (mergeRuns meets absorb prev ranges).2 = false) :
    (mergeRuns meets absorb prev ranges).1 = prev :: ranges := by
  induction ranges generalizing prev with
  | nil => rfl
  | cons next ranges ih =>
    rw [mergeRuns] at none_ ⊢
    split at none_
    · exact Bool.noConfusion none_
    next apart =>
      rw [if_neg apart]
      exact congrArg (prev :: ·) (ih none_)

end Microide.Lib
