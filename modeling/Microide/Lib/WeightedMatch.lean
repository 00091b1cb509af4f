/-
Weighted matchings of two sequences.

The score of the best order-preserving matching of a weighted sequence with a plain one,
by the recursion a dynamic program fills its table with. When equal elements weigh the
same, matching two equal heads is never worse than any other start
(`score_cons_of_eq`): a matching that uses one of the heads elsewhere can be exchanged. No
matching weighs more than the score (`weight_le_score`).
-/

import Mathlib

namespace Microide.Lib

open List

variable {α : Type*} [DecidableEq α]

/-- The best total weight of an order-preserving matching. -/
def score : List (α × Nat) → List α → Nat
  | [], _ => 0
  | _ :: _, [] => 0
  | a :: xs, b :: ys =>
    if a.1 = b ∧ a.2 + score xs ys > max (score xs (b :: ys)) (score (a :: xs) ys) then
      a.2 + score xs ys
    else max (score xs (b :: ys)) (score (a :: xs) ys)

@[simp] theorem score_nil_left (ys : List α) : score [] ys = 0 := by
  simp [score]

@[simp] theorem score_nil_right (xs : List (α × Nat)) : score xs [] = 0 := by
  cases xs <;> simp [score]

variable {a : α × Nat} {xs : List (α × Nat)} {ys : List α}

/-- The best start is to skip the left head, to skip the right head or to match the two. -/
theorem score_cons_le {b : α} {n : Nat} (hleft : score xs (b :: ys) ≤ n)
    (hright : score (a :: xs) ys ≤ n) (hmatch : a.1 = b → a.2 + score xs ys ≤ n) :
    score (a :: xs) (b :: ys) ≤ n := by
  rw [score]
  split
  · next h => exact hmatch h.1
  · omega

theorem score_left_le_cons (a : α × Nat) (b : α) (xs : List (α × Nat)) (ys : List α) :
    score xs (b :: ys) ≤ score (a :: xs) (b :: ys) ∧
      score (a :: xs) ys ≤ score (a :: xs) (b :: ys) := by
  rw [score]
  split <;> omega

/-- A longer right sequence has no smaller score. -/
theorem score_le_cons_right (xs : List (α × Nat)) (b : α) (ys : List α) :
    score xs ys ≤ score xs (b :: ys) := by
  cases xs with
  | nil => simp
  | cons a xs => exact (score_left_le_cons a b xs ys).2

theorem score_le_cons_left (a : α × Nat) (xs : List (α × Nat)) (ys : List α) :
    score xs ys ≤ score (a :: xs) ys := by
  cases ys with
  | nil => simp
  | cons b ys => exact (score_left_le_cons a b xs ys).1

/-- One more left element adds at most its weight. -/
theorem score_cons_left_le (a : α × Nat) (xs : List (α × Nat)) (ys : List α) :
    score (a :: xs) ys ≤ a.2 + score xs ys := by
  induction ys with
  | nil => simp
  | cons b ys ih =>
      have hmono := score_le_cons_right xs b ys
      apply score_cons_le
      · omega
      · omega
      · intro _
        omega

/-- One more right element adds at most the weight its equals on the left have. -/
theorem score_cons_right_le {w : Nat} {b : α} (xs : List (α × Nat)) (ys : List α)
    (hw : ∀ x ∈ xs, x.1 = b → x.2 = w) : score xs (b :: ys) ≤ w + score xs ys := by
  induction xs with
  | nil => simp
  | cons a xs ih =>
      obtain ⟨ha, hxs⟩ := forall_mem_cons.mp hw
      have hrest := ih hxs
      have hmono := score_le_cons_left a xs ys
      apply score_cons_le
      · omega
      · omega
      · intro heq
        rw [ha heq]
        omega

/-- **Equal heads may be matched.** -/
theorem score_cons_of_eq (hw : ∀ x ∈ xs, x.1 = a.1 → x.2 = a.2) :
    score (a :: xs) (a.1 :: ys) = a.2 + score xs ys := by
  have hleft := score_cons_right_le xs ys hw
  have hright := score_cons_left_le a xs ys
  rw [score]
  split
  · rfl
  · next h =>
    have hnot : ¬ a.2 + score xs ys > max (score xs (a.1 :: ys)) (score (a :: xs) ys) :=
      fun hgt => h ⟨rfl, hgt⟩
    omega

theorem score_match_le : a.2 + score xs ys ≤ score (a :: xs) (a.1 :: ys) := by
  rw [score]
  split
  · exact Nat.le_refl _
  · next h =>
    have hnot : ¬ a.2 + score xs ys > max (score xs (a.1 :: ys)) (score (a :: xs) ys) :=
      fun hgt => h ⟨rfl, hgt⟩
    omega

/-- Elements of the weighted sequence whose values the other one has, in the order of both. -/
structure Matching (m xs : List (α × Nat)) (ys : List α) : Prop where
  left : m.Sublist xs
  right : (m.map Prod.fst).Sublist ys

/-- No matching weighs more than the score. -/
theorem weight_le_score {m : List (α × Nat)} (matching : Matching m xs ys) :
    (m.map Prod.snd).sum ≤ score xs ys := by
  induction xs generalizing m ys with
  | nil =>
    obtain rfl := sublist_nil.mp matching.left
    simp
  | cons a xs ihLeft =>
    induction ys generalizing m with
    | nil =>
      obtain rfl := map_eq_nil_iff.mp (sublist_nil.mp matching.right)
      exact Nat.zero_le _
    | cons b ys ihRight =>
      obtain ⟨skipLeft, skipRight⟩ := score_left_le_cons a b xs ys
      obtain ⟨left, right⟩ := matching
      cases left with
      | cons _ left => exact (ihLeft ⟨left, right⟩).trans skipLeft
      | cons_cons _ left =>
        cases right with
        | cons _ right => exact (ihRight ⟨left.cons_cons a, right⟩).trans skipRight
        | cons_cons _ right =>
          exact (Nat.add_le_add_left (ihLeft ⟨left, right⟩) a.2).trans score_match_le

end Microide.Lib
