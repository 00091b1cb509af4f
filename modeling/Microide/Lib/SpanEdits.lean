/-
Edits of disjoint spans of a list.

An edit puts as many elements as it takes out, so the edits of disjoint spans, made one after
the other, each see the list as it was in their own span.

**Main results.** `foldl_editSpan`: the spans after all edits, and what is outside of them.
-/

import Mathlib.Data.List.TakeDrop
import Mathlib.Data.List.Pairwise

namespace Microide.Lib

open List

variable {α ι : Type}

/-- The `count` elements from `first` on. -/
def spanOf (first count : Nat) (list : List α) : List α := (list.drop first).take count

def editSpan (first count : Nat) (edit : List α → List α) (list : List α) : List α :=
  list.take first ++ edit (spanOf first count list) ++ list.drop (first + count)

section Span

variable {first count : Nat} {edit : List α → List α} {list : List α}

theorem length_spanOf (inside : first + count ≤ list.length) :
    (spanOf first count list).length = count := by
  rw [spanOf, length_take, length_drop]
  omega

theorem getElem?_spanOf {k : Nat} (within : k < count) :
    (spanOf first count list)[k]? = list[first + k]? := by
  rw [spanOf, getElem?_take_of_lt within, getElem?_drop]

theorem spanOf_congr {other : List α}
    (same : ∀ k, first ≤ k → k < first + count → other[k]? = list[k]?) :
    spanOf first count other = spanOf first count list := by
  refine ext_getElem? fun k => ?_
  rcases Nat.lt_or_ge k count with within | past
  · rw [getElem?_spanOf within, getElem?_spanOf within]
    exact same _ (Nat.le_add_right _ _) (by omega)
  · rw [spanOf, spanOf, getElem?_take_eq_none past, getElem?_take_eq_none past]

variable (keeps : ∀ span : List α, (edit span).length = span.length)
  (inside : first + count ≤ list.length)

include keeps inside

theorem length_editSpan : (editSpan first count edit list).length = list.length := by
  rw [editSpan, length_append, length_append, keeps, length_spanOf inside, length_take, length_drop]
  omega

theorem editSpan_outside {k : Nat} (outside : k < first ∨ first + count ≤ k) :
    (editSpan first count edit list)[k]? = list[k]? := by
  have before : (list.take first).length = first := length_take_of_le (by omega)
  have size : (edit (spanOf first count list)).length = count := by
    rw [keeps, length_spanOf inside]
  rw [editSpan, append_assoc]
  rcases outside with above | below
  · rw [getElem?_append_left (by omega), getElem?_take_of_lt above]
  · rw [getElem?_append_right (by omega), before, getElem?_append_right (by omega), size,
      getElem?_drop]
    congr 1
    omega

theorem spanOf_editSpan :
    spanOf first count (editSpan first count edit list) = edit (spanOf first count list) := by
  have before : (list.take first).length = first := length_take_of_le (by omega)
  have size : (edit (spanOf first count list)).length = count := by
    rw [keeps, length_spanOf inside]
  rw [editSpan, append_assoc, spanOf, drop_left' before, take_left' size]

end Span

/-! ### Runs of edits -/

variable {first count : ι → Nat} {edit : ι → List α → List α}

/-- **Edits of disjoint spans**: each span has its own edit, the rest of the list stays. -/
theorem foldl_editSpan {parts : List ι}
    (keeps : ∀ part ∈ parts, ∀ span : List α, (edit part span).length = span.length)
    (disjoint : parts.Pairwise fun upper lower => first upper + count upper ≤ first lower)
    (list : List α) (inside : ∀ part ∈ parts, first part + count part ≤ list.length) :
    (parts.foldl (fun list part => editSpan (first part) (count part) (edit part) list) list).length =
        list.length ∧
      (∀ k, (∀ part ∈ parts, k < first part ∨ first part + count part ≤ k) →
        (parts.foldl (fun list part => editSpan (first part) (count part) (edit part) list)
          list)[k]? = list[k]?) ∧
      ∀ part ∈ parts, spanOf (first part) (count part)
          (parts.foldl (fun list part => editSpan (first part) (count part) (edit part) list) list) =
        edit part (spanOf (first part) (count part) list) := by
  induction parts generalizing list with
  | nil => exact ⟨rfl, fun _ _ => rfl, fun _ mem => absurd mem not_mem_nil⟩
  | cons part parts ih =>
    obtain ⟨below, disjoint⟩ := pairwise_cons.mp disjoint
    obtain ⟨here, others⟩ := forall_mem_cons.mp inside
    obtain ⟨keepsHere, keeps⟩ := forall_mem_cons.mp keeps
    have size := length_editSpan keepsHere here
    obtain ⟨length, outside, spans⟩ := ih keeps disjoint
      (editSpan (first part) (count part) (edit part) list)
      fun other mem => Nat.le_trans (others other mem) (Nat.le_of_eq size.symm)
    rw [foldl_cons]
    refine ⟨length.trans size, fun k apart => ?_, forall_mem_cons.mpr ⟨?_, ?_⟩⟩
    · obtain ⟨apartHere, apart⟩ := forall_mem_cons.mp apart
      rw [outside k apart, editSpan_outside keepsHere here apartHere]
    · rw [← spanOf_editSpan keepsHere here]
      refine spanOf_congr fun k _ within => outside k fun other mem => .inl ?_
      exact Nat.lt_of_lt_of_le within (below other mem)
    · intro other mem
      rw [spans other mem]
      congr 1
      refine spanOf_congr fun k from_ _ => editSpan_outside keepsHere here (.inr ?_)
      exact Nat.le_trans (below other mem) from_

end Microide.Lib
