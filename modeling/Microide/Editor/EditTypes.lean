/-
Positions, ranges and applied edits.

An applied edit names the range it replaced and the text it put there; `AppliedEdit.after` is
what it says of a document's lines.

**Main results.** `after_above`, `after_below`: the lines outside the edited ones are the
document's own, those below moved by the change in the number of lines.
-/

import Microide.Editor.UndoHistory
import Mathlib.Data.List.GetD

namespace Microide.Editor

open List Text


def positionBefore (lhs rhs : TextPosition) : Bool :=
  lhs.line < rhs.line || (lhs.line = rhs.line && lhs.column < rhs.column)

structure SelectionRange where
  start : TextPosition
  stop : TextPosition
  deriving DecidableEq

structure AppliedEdit where
  rangeBefore : SelectionRange
  replacementText : List UInt8

namespace AppliedEdit

/-- The range, its earlier end first. -/
def normalized (edit : AppliedEdit) : SelectionRange :=
  if positionBefore edit.rangeBefore.stop edit.rangeBefore.start then
    ⟨edit.rangeBefore.stop, edit.rangeBefore.start⟩
  else edit.rangeBefore

def firstLine (edit : AppliedEdit) : Nat := edit.normalized.start.line

def lastLine (edit : AppliedEdit) : Nat := edit.normalized.stop.line

/-- The line breaks the edit put in. -/
def newlineCount (edit : AppliedEdit) : Nat := edit.replacementText.count lf

/-- The lines of a document after the edit. -/
def after (edit : AppliedEdit) (lines : List Line) : List Line :=
  lines.take edit.firstLine ++
    (((lines.getD edit.firstLine []).take edit.normalized.start.column ++ edit.replacementText ++
      (lines.getD edit.lastLine []).drop edit.normalized.stop.column).splitOn lf ++
      lines.drop (edit.lastLine + 1))

theorem firstLine_le_lastLine (edit : AppliedEdit) : edit.firstLine ≤ edit.lastLine := by
  unfold firstLine lastLine normalized positionBefore
  split
  next swapped =>
    simp only [Bool.or_eq_true, decide_eq_true_eq, Bool.and_eq_true] at swapped
    dsimp only
    omega
  next ordered =>
    simp only [Bool.or_eq_true, decide_eq_true_eq] at ordered
    omega

section After

variable (edit : AppliedEdit) {lines : List Line}

theorem after_above (inside : edit.lastLine < lines.length) {line : Nat}
    (above : line < edit.firstLine) : (edit.after lines)[line]? = lines[line]? := by
  have first := edit.firstLine_le_lastLine
  rw [after, getElem?_append_left, getElem?_take_of_lt above]
  rw [length_take]
  omega

theorem after_below (inside : edit.lastLine < lines.length) (plain : ∀ l ∈ lines, lf ∉ l)
    {line : Nat} (below : edit.lastLine < line) :
    (edit.after lines)[line - edit.lastLine + (edit.firstLine + edit.newlineCount)]? =
      lines[line]? := by
  have first := edit.firstLine_le_lastLine
  have kept : (lines.take edit.firstLine).length = edit.firstLine := by
    rw [length_take]
    omega
  have noBreak : ∀ i, (lines.getD i []).count lf = 0 := by
    intro i
    rw [count_eq_zero]
    by_cases bound : i < lines.length
    · rw [getD_eq_getElem _ _ bound]
      exact plain _ (getElem_mem bound)
    · rw [getD_eq_default _ _ (Nat.le_of_not_lt bound)]
      exact not_mem_nil
  have none_take : ∀ i c, ((lines.getD i []).take c).count lf = 0 := fun i c =>
    Nat.eq_zero_of_le_zero ((take_sublist c _).count_le lf |>.trans_eq (noBreak i))
  have none_drop : ∀ i c, ((lines.getD i []).drop c).count lf = 0 := fun i c =>
    Nat.eq_zero_of_le_zero ((drop_sublist c _).count_le lf |>.trans_eq (noBreak i))
  have middle : (((lines.getD edit.firstLine []).take edit.normalized.start.column ++
      edit.replacementText ++
      (lines.getD edit.lastLine []).drop edit.normalized.stop.column).splitOn lf).length =
      edit.newlineCount + 1 := by
    rw [Lib.length_splitOn, count_append, count_append, none_take, none_drop, newlineCount]
    omega
  rw [after, getElem?_append_right (by omega), kept,
    getElem?_append_right (by omega), middle, getElem?_drop]
  congr 1
  omega

end After

end AppliedEdit

end Microide.Editor
