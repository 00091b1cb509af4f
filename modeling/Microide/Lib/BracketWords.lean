/-
Balanced words.

A word has letters that open, letters that close, and others. It is balanced where as many close as
open and none closes more than was opened before; read from its end, with the two kinds changed
about, it is balanced again. `Closes` is what a scan that counts the open ones relies on.

**Main results.** `balanced_reverse_iff`; `closes_one_iff`: the word between two matching letters is
balanced; `exists_split_iff`: in an ordered list the word before a letter is what precedes it.
-/

import Mathlib.Data.List.Infix
import Mathlib.Data.List.Sort

namespace Microide.Lib

open List

variable {α : Type} {up down : α → Bool}

/-- As many letters close as open, and in no front more. -/
def Balanced (up down : α → Bool) (word : List α) : Prop :=
  word.countP down = word.countP up ∧ ∀ front, front <+: word → front.countP down ≤ front.countP up

/-- Of `depth` open letters the word closes all but one, and none too early. -/
def Closes (up down : α → Bool) (depth : Nat) (word : List α) : Prop :=
  word.countP down + 1 = word.countP up + depth ∧
    ∀ front, front <+: word → front.countP down < front.countP up + depth

theorem closes_one_iff {word : List α} : Closes up down 1 word ↔ Balanced up down word := by
  unfold Closes Balanced
  simp only [Nat.add_right_cancel_iff, Nat.lt_succ_iff]

theorem Balanced.reverse {word : List α} (balanced : Balanced up down word) :
    Balanced down up word.reverse := by
  obtain ⟨total, fronts⟩ := balanced
  constructor
  · rw [countP_reverse, countP_reverse, total]
  · intro front inside
    rw [← reverse_suffix, reverse_reverse] at inside
    obtain ⟨before, rfl⟩ := inside
    have low := fronts before (prefix_append _ _)
    rw [countP_append, countP_append, countP_reverse, countP_reverse] at total
    omega

theorem balanced_reverse_iff {word : List α} :
    Balanced down up word.reverse ↔ Balanced up down word := by
  constructor
  · intro balanced
    rw [← reverse_reverse word]
    exact balanced.reverse
  · exact Balanced.reverse

theorem closes_nil_iff {depth : Nat} : Closes up down depth [] ↔ depth = 1 := by
  constructor
  · rintro ⟨total, -⟩
    rw [countP_nil, countP_nil] at total
    omega
  · rintro rfl
    refine ⟨rfl, fun front inside => ?_⟩
    rw [prefix_nil.mp inside]
    exact Nat.one_pos

/-- The fronts of a word by its first letter. -/
theorem forall_front_cons {a : α} {word : List α} {P : List α → Prop} :
    (∀ front, front <+: a :: word → P front) ↔
      P [] ∧ ∀ front, front <+: word → P (a :: front) := by
  constructor
  · intro all
    exact ⟨all [] (List.nil_prefix), fun front inside =>
      all _ (cons_prefix_cons.mpr ⟨rfl, inside⟩)⟩
  · rintro ⟨none_, all⟩ front inside
    cases front with
    | nil => exact none_
    | cons b front =>
      obtain ⟨rfl, shorter⟩ := cons_prefix_cons.mp inside
      exact all front shorter

variable {a : α} {depth : Nat} {word : List α}

theorem closes_other (notUp : up a = false) (notDown : down a = false) (some_ : 0 < depth) :
    Closes up down depth (a :: word) ↔ Closes up down depth word := by
  unfold Closes
  rw [forall_front_cons]
  simp only [countP_cons, notUp, notDown, Bool.false_eq_true, if_false, Nat.add_zero,
    countP_nil, Nat.zero_add, some_, true_and]

theorem closes_up (opens : up a = true) (notDown : down a = false) (some_ : 0 < depth) :
    Closes up down depth (a :: word) ↔ Closes up down (depth + 1) word := by
  unfold Closes
  rw [forall_front_cons]
  simp only [countP_cons, opens, notDown, Bool.false_eq_true, if_false, if_true,
    Nat.add_zero, countP_nil, Nat.zero_add, some_, true_and, Nat.add_assoc, Nat.add_comm 1]

theorem closes_down (notUp : up a = false) (closes : down a = true) :
    Closes up down (depth + 1) (a :: word) ↔ Closes up down depth word := by
  unfold Closes
  rw [forall_front_cons]
  simp only [countP_cons, notUp, closes, Bool.false_eq_true, if_false, if_true,
    Nat.add_zero, countP_nil, Nat.zero_lt_succ, true_and, ← Nat.add_assoc,
    Nat.add_right_cancel_iff, Nat.add_lt_add_iff_right]

/-! ### Ordered lists -/

section Ordered

variable {R : α → α → Prop} [Std.Irrefl R] [Std.Antisymm R] {letters word after : List α} {mark : α}

theorem mem_word_iff (ordered : letters.Pairwise R) (split : letters = word ++ mark :: after) {a : α} :
    a ∈ word ↔ a ∈ letters ∧ R a mark := by
  subst split
  obtain ⟨-, tail, across⟩ := pairwise_append.mp ordered
  have later : ∀ {b}, b ∈ after → R mark b := rel_of_pairwise_cons tail
  rw [mem_append, mem_cons]
  constructor
  · exact fun mem => ⟨Or.inl mem, across a mem mark mem_cons_self⟩
  · rintro ⟨mem | rfl | mem, before⟩
    · exact mem
    · exact (Std.Irrefl.irrefl a before).elim
    · obtain rfl := Std.Antisymm.antisymm _ _ before (later mem)
      exact (Std.Irrefl.irrefl _ before).elim

/-- **What is read on the way to a letter is what comes before it.** -/
theorem exists_split_iff (ordered : letters.Pairwise R) (sorted : word.Pairwise R)
    (mem : mark ∈ letters → ∀ a, a ∈ word ↔ a ∈ letters ∧ R a mark) (P : List α → Prop) :
    (∃ front after, letters = front ++ mark :: after ∧ P front) ↔ mark ∈ letters ∧ P word := by
  have front_eq : ∀ front after, letters = front ++ mark :: after → front = word := by
    intro front after split
    have here : mark ∈ letters := split ▸ mem_append_right _ mem_cons_self
    refine (pairwise_append.mp (split ▸ ordered)).1.eq_of_mem_iff sorted fun a => ?_
    rw [mem_word_iff ordered split, mem here]
  constructor
  · rintro ⟨front, after, split, holds⟩
    exact ⟨split ▸ mem_append_right _ mem_cons_self, front_eq front after split ▸ holds⟩
  · rintro ⟨here, holds⟩
    obtain ⟨front, after, split⟩ := append_of_mem here
    exact ⟨front, after, split, (front_eq front after split).symm ▸ holds⟩

end Ordered

end Microide.Lib
