/-
Erasing ranges of a vector in one sweep.

The ranges are sorted; every block that stays is moved down over the gap that the ranges before it
opened, and the vector is cut at the end. Ranges may overlap: one that ends where the sweep has
already read is passed over.

**Main results.** `eraseRanges_eq`: what stays is what no range holds.
-/

import Mathlib.Data.Prod.Lex
import Microide.Lib.LastWins

namespace Microide.Lib

open List Bool

variable {α : Type}

/-- `count` elements moved down one by one, from `read` on to `write` on. -/
def moveDown (l : List α) (write read : Nat) : Nat → List α
  | 0 => l
  | count + 1 =>
    match l[read]? with
    | some a => moveDown (l.set write a) (write + 1) (read + 1) count
    | none => l

/-- The sweep: the vector, and how much of its front is final. -/
def sweepRanges (l : List α) (write read : Nat) : List (Nat × Nat) → List α × Nat
  | [] => (moveDown l write read (l.length - read), write + (l.length - read))
  | range :: ranges =>
    if range.2 ≤ read then sweepRanges l write read ranges
    else
      sweepRanges (moveDown l write read (range.1 - read)) (write + (range.1 - read)) range.2 ranges

/-- The vector without the ranges, and whether it got shorter. -/
def eraseRanges (l : List α) (ranges : List (Nat × Nat)) : List α × Bool :=
  match sortBy (fun range => toLex range) ranges with
  | [] => (l, false)
  | first :: later =>
    let swept := sweepRanges l first.1 first.1 (first :: later)
    if swept.2 = swept.1.length then (swept.1, false) else (swept.1.take swept.2, true)

/-- Whether one of the ranges holds an index. -/
def InRanges (ranges : List (Nat × Nat)) (i : Nat) : Prop :=
  ∃ range ∈ ranges, range.1 ≤ i ∧ i < range.2

theorem inRanges_cons {range : Nat × Nat} {ranges : List (Nat × Nat)} {i : Nat} :
    InRanges (range :: ranges) i ↔ (range.1 ≤ i ∧ i < range.2) ∨ InRanges ranges i :=
  exists_mem_cons_iff _ _ _

theorem inRanges_append {ranges more : List (Nat × Nat)} {i : Nat} :
    InRanges (ranges ++ more) i ↔ InRanges ranges i ∨ InRanges more i := by
  unfold InRanges
  simp only [mem_append, or_and_right, exists_or]

theorem inRanges_ite {p : Prop} [Decidable p] {range : Nat × Nat} {i : Nat} :
    InRanges (if p then [range] else []) i ↔ p ∧ range.1 ≤ i ∧ i < range.2 := by
  unfold InRanges
  split
  next holds =>
    simp [holds]
  next fails =>
    simp [fails]

section Sweep

variable {out gap rest : List α}

theorem moveDown_append (count : Nat) (enough : count ≤ rest.length) :
    ∃ gap', gap'.length = gap.length ∧
      moveDown (out ++ gap ++ rest) out.length (out.length + gap.length) count =
        out ++ rest.take count ++ gap' ++ rest.drop count := by
  induction count generalizing out gap rest with
  | zero => exact ⟨gap, rfl, by rw [moveDown, take_zero, append_nil, drop_zero]⟩
  | succ count ih =>
    cases rest with
    | nil => exact absurd enough (Nat.not_succ_le_zero count)
    | cons a rest =>
      have found : (out ++ gap ++ a :: rest)[out.length + gap.length]? = some a := by
        rw [getElem?_append_right (by rw [length_append]), length_append,
          Nat.sub_self, getElem?_cons_zero]
      -- the first element of the gap is overwritten, and the gap moves up by one
      obtain ⟨gap', size, moved⟩ : ∃ gap' : List α, gap'.length = gap.length ∧
          (out ++ gap ++ a :: rest).set out.length a = out ++ [a] ++ gap' ++ rest := by
        cases gap with
        | nil => exact ⟨[], rfl, by simp⟩
        | cons b gap => exact ⟨gap ++ [a], by simp, by simp⟩
      obtain ⟨gap'', size', whole⟩ := @ih (out ++ [a]) gap' rest (Nat.le_of_succ_le_succ enough)
      refine ⟨gap'', size'.trans size, ?_⟩
      rw [length_append, length_singleton, size, Nat.add_right_comm] at whole
      rw [moveDown, found]
      dsimp only
      rw [moved, whole, take_succ_cons, drop_succ_cons, append_assoc out [a], singleton_append]

/-- What a sweep leaves in front: what was there, and of the rest what no range holds. -/
theorem sweepRanges_append {ranges : List (Nat × Nat)} {gone : α → Bool}
    (sorted : ranges.Pairwise fun a b => a.1 ≤ b.1)
    (inside : ∀ range ∈ ranges, range.1 ≤ range.2 ∧ range.2 ≤ out.length + gap.length + rest.length)
    (holds : ∀ i a, rest[i]? = some a →
      (gone a = true ↔ InRanges ranges (out.length + gap.length + i))) :
    ∃ left, sweepRanges (out ++ gap ++ rest) out.length (out.length + gap.length) ranges =
        (out ++ rest.filter (fun a => !gone a) ++ left,
          (out ++ rest.filter fun a => !gone a).length) ∧
      (out ++ rest.filter (fun a => !gone a) ++ left).length = (out ++ gap ++ rest).length := by
  have stays : ∀ block : List α, (∀ a ∈ block, gone a = false) →
      block.filter (fun a => !gone a) = block := fun block none_ =>
    filter_eq_self.mpr fun a mem => by rw [none_ a mem]; rfl
  induction ranges generalizing out gap rest with
  | nil =>
    have none_ : ∀ a ∈ rest, gone a = false := by
      intro a mem
      obtain ⟨i, found⟩ := mem_iff_getElem?.mp mem
      by_contra is
      obtain ⟨range, mem, -⟩ := (holds i a found).mp (by simpa using is)
      exact not_mem_nil mem
    obtain ⟨gap', size, moved⟩ := @moveDown_append _ out gap rest rest.length le_rfl
    have rest_ : (out ++ gap ++ rest).length - (out.length + gap.length) = rest.length := by
      rw [length_append, length_append, Nat.add_sub_cancel_left]
    rw [stays rest none_]
    refine ⟨gap', ?_, ?_⟩
    · rw [sweepRanges, rest_, moved, take_length, drop_length, append_nil, length_append]
    · simp only [length_append, size]
      omega
  | cons range ranges ih =>
    obtain ⟨behind, sorted⟩ := pairwise_cons.mp sorted
    obtain ⟨within, inside⟩ := forall_mem_cons.mp inside
    rw [sweepRanges]
    by_cases past : range.2 ≤ out.length + gap.length
    · rw [if_pos past]
      refine ih sorted inside fun i a found => ?_
      rw [holds i a found, inRanges_cons, or_iff_right]
      rintro ⟨-, below⟩
      omega
    · rw [if_neg past]
      obtain ⟨kept, mid, later, rfl, keptSize, midSize⟩ : ∃ kept mid later : List α,
          rest = kept ++ mid ++ later ∧ kept.length = range.1 - (out.length + gap.length) ∧
            out.length + gap.length + kept.length + mid.length = range.2 := by
        obtain ⟨n, size⟩ : ∃ n, n = range.1 - (out.length + gap.length) := ⟨_, rfl⟩
        obtain ⟨m, size'⟩ : ∃ m, m = range.2 - (out.length + gap.length) - n := ⟨_, rfl⟩
        refine ⟨rest.take n, (rest.drop n).take m, (rest.drop n).drop m, ?_, ?_, ?_⟩
        · rw [append_assoc, take_append_drop, take_append_drop]
        · rw [length_take]
          omega
        · rw [length_take, length_take, length_drop]
          omega
      have keptStay : ∀ a ∈ kept, gone a = false := by
        intro a mem
        obtain ⟨i, found⟩ := mem_iff_getElem?.mp mem
        have bound := (List.getElem?_eq_some_iff.mp found).1
        by_contra is
        have held := (holds i a (by
          rw [append_assoc, getElem?_append_left bound, found])).mp (by simpa using is)
        rcases inRanges_cons.mp held with ⟨low, -⟩ | ⟨other, mem, low, -⟩
        · omega
        · have := behind other mem
          omega
      have midGo : mid.filter (fun a => !gone a) = [] := by
        refine filter_eq_nil_iff.mpr fun a mem => ?_
        obtain ⟨i, found⟩ := mem_iff_getElem?.mp mem
        have bound := (List.getElem?_eq_some_iff.mp found).1
        have is := (holds (kept.length + i) a (by
          rw [append_assoc, getElem?_append_right (Nat.le_add_right _ _),
            Nat.add_sub_cancel_left, getElem?_append_left bound, found])).mpr
          (inRanges_cons.mpr (.inl ⟨by omega, by omega⟩))
        rw [is]
        exact Bool.false_ne_true
      obtain ⟨gap', size, moved⟩ :=
        @moveDown_append _ out gap (kept ++ mid ++ later) kept.length (by
          rw [append_assoc, length_append]
          exact Nat.le_add_right _ _)
      have write : out.length + kept.length = (out ++ kept).length := length_append.symm
      have read : range.2 = (out ++ kept).length + (gap' ++ mid).length := by
        rw [length_append, length_append, size]
        omega
      have shape : out ++ kept ++ gap' ++ (mid ++ later) = out ++ kept ++ (gap' ++ mid) ++ later := by
        simp only [append_assoc]
      obtain ⟨left, swept, whole⟩ := @ih (out ++ kept) (gap' ++ mid) later sorted
        (fun other mem => by
          have := inside other mem
          rw [length_append, length_append] at this
          omega)
        (fun i a found => by
          have index : out.length + gap.length + (kept.length + mid.length + i) = range.2 + i := by
            omega
          have at_ : (kept ++ mid ++ later)[kept.length + mid.length + i]? = some a := by
            rw [getElem?_append_right (by rw [length_append]; omega), length_append,
              Nat.add_sub_cancel_left, found]
          rw [holds _ a at_, index, inRanges_cons, ← read, or_iff_right]
          rintro ⟨-, below⟩
          omega)
      rw [filter_append, filter_append, midGo, append_nil, stays kept keptStay, ← append_assoc out]
      refine ⟨left, ?_, ?_⟩
      · rw [← keptSize, moved, write, append_assoc kept, take_left, drop_left, read, shape]
        exact swept
      · rw [whole]
        simp only [length_append]
        omega

end Sweep

/-- **What stays is what no range holds.** -/
theorem eraseRanges_eq {l : List α} {ranges : List (Nat × Nat)} {gone : α → Bool}
    (inside : ∀ range ∈ ranges, range.1 ≤ range.2 ∧ range.2 ≤ l.length)
    (holds : ∀ i a, l[i]? = some a → (gone a = true ↔ InRanges ranges i)) :
    eraseRanges l ranges = (l.filter fun a => !gone a, l.any gone) := by
  have same : ∀ i, InRanges (sortBy (fun range => toLex range) ranges) i ↔ InRanges ranges i := by
    intro i
    refine exists_congr fun range => ?_
    rw [mem_sortBy]
  have sorted : (sortBy (fun range => toLex range) ranges).Pairwise fun a b => a.1 ≤ b.1 := by
    refine (sortBy_pairwise _ _).imp fun {a b} le => ?_
    rcases Prod.Lex.le_iff.mp le with less | ⟨same, -⟩
    · exact less.le
    · exact same.le
  have inside' : ∀ range ∈ sortBy (fun range => toLex range) ranges,
      range.1 ≤ range.2 ∧ range.2 ≤ l.length := fun range mem =>
    inside range ((mem_sortBy _).mp mem)
  rw [eraseRanges]
  generalize sortBy (fun range => toLex range) ranges = sortedRanges at same sorted inside'
  cases sortedRanges with
  | nil =>
    have none_ : ∀ a ∈ l, gone a = false := by
      intro a mem
      obtain ⟨i, found⟩ := mem_iff_getElem?.mp mem
      by_contra is
      obtain ⟨range, mem, -⟩ := (same i).mpr ((holds i a found).mp (by simpa using is))
      exact not_mem_nil mem
    have any_ : l.any gone = false := any_eq_false.mpr fun a mem => by
      rw [none_ a mem]
      exact Bool.false_ne_true
    rw [any_, filter_eq_self.mpr fun a mem => by rw [none_ a mem]; rfl]
  | cons first later =>
    dsimp only
    have bound := (inside' first mem_cons_self)
    have first_ : (l.take first.1).length = first.1 := by
      rw [length_take]
      omega
    have shape : l.take first.1 ++ [] ++ l.drop first.1 = l := by
      rw [append_nil, take_append_drop]
    have early : (l.take first.1).filter (fun a => !gone a) = l.take first.1 := by
      refine filter_eq_self.mpr fun a mem => ?_
      obtain ⟨i, found⟩ := mem_iff_getElem?.mp mem
      have low : i < first.1 := by
        have := (List.getElem?_eq_some_iff.mp found).1
        omega
      rw [getElem?_take_of_lt low] at found
      by_contra is
      obtain ⟨range, mem, from_, -⟩ := (same i).mpr ((holds i a found).mp (by simpa using is))
      rcases mem_cons.mp mem with rfl | mem
      · omega
      · have := rel_of_pairwise_cons sorted mem
        omega
    obtain ⟨left, swept, whole⟩ := @sweepRanges_append _ (l.take first.1) [] (l.drop first.1)
      (first :: later) gone sorted
      (fun range mem => by
        rw [← length_append, ← length_append, shape]
        exact inside' range mem)
      (fun i a found => by
        rw [length_nil, Nat.add_zero, first_, same]
        exact holds _ a (by rwa [getElem?_drop] at found))
    rw [shape, first_, length_nil, Nat.add_zero] at swept
    have split_ : l.take first.1 ++ (l.drop first.1).filter (fun a => !gone a) =
        l.filter fun a => !gone a := by
      rw [← early, ← filter_append, take_append_drop]
    rw [split_] at swept whole
    rw [shape] at whole
    rw [swept]
    dsimp only
    rw [whole]
    have all_ : (l.filter fun a => !gone a).length = l.length ↔ l.any gone = false := by
      rw [length_filter_eq_length_iff, any_eq_false]
      simp only [not_eq_true', not_eq_true]
    split
    next all =>
      have empty : left = [] := by
        rw [length_append, all] at whole
        exact length_eq_zero_iff.mp (Nat.add_eq_left.mp whole)
      rw [all_.mp all, empty, append_nil]
    next shorter =>
      rw [take_left, ← not_eq_false _ |>.mp (fun none_ => shorter (all_.mpr none_))]

end Microide.Lib
