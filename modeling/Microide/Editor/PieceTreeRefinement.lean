/-
The piece tree refines a list of lines.

Runs of the piece tree next to runs of the naive list of lines. A run is any sequence of
edits and reads, in any order: reads change the caches that later edits and reads use.

* `run_refines`: as long as every edit stays below the ceiling, the tree spells the lines
  the list has, counts them, and every node caches the sums over its subtree.
* `run_answers`: every read answers what the list gives, also when edits are refused.
-/

import Mathlib.Algebra.GroupWithZero.Nat
import Microide.Editor.PieceTreeReads

namespace Microide.Editor

open List Lib Text

/-! ### Edits -/

/-- The mutations of `PieceTree`. -/
inductive Edit where
  | reset (lines : List Line)
  | resetFromText (content : List UInt8)
  | replaceLineRange (start removed : Nat) (inserted : List Line)
  | setLine (index : Nat) (value : Line)
  | insertLine (index : Nat) (value : Line)
  | eraseLine (index : Nat)
  | eraseLineRange (first last : Nat)
  | pushBackLine (value : Line)
  | replaceTextRange (startLine startColumn endLine endColumn : Nat) (text : List UInt8)

/-- The tree after an edit. -/
def PieceTree.apply (R : Reserve) (t : PieceTree) : Edit → PieceTree
  | .reset lines => t.reset lines
  | .resetFromText content => t.resetFromText content
  | .replaceLineRange start removed inserted => t.replaceLineRange R start removed inserted
  | .setLine index value => t.setLine R index value
  | .insertLine index value => t.insertLine R index value
  | .eraseLine index => t.eraseLine R index
  | .eraseLineRange first last => t.eraseLineRange R first last
  | .pushBackLine value => t.pushBackLine R value
  | .replaceTextRange startLine startColumn endLine endColumn text =>
    t.replaceTextRange R startLine startColumn endLine endColumn text

namespace Edit

/-- The naive list of lines after an edit. -/
def apply (lines : List Line) : Edit → List Line
  | reset lines => lines
  | resetFromText content => content.splitOn lf
  | replaceLineRange start removed inserted => replaceLines lines start removed inserted
  | setLine index value => lines.set index value
  | insertLine index value => lines.take index ++ value :: lines.drop index
  | eraseLine index => lines.eraseIdx index
  | eraseLineRange first last => if first ≥ last then lines else lines.take first ++ lines.drop last
  | pushBackLine value => lines ++ [value]
  | replaceTextRange startLine startColumn endLine endColumn text =>
    replaceText lines startLine startColumn endLine endColumn text

/-- A load replaces the document without looking at the ceiling. -/
def isLoad : Edit → Bool
  | reset _ | resetFromText _ => true
  | _ => false

/-- The lines an edit inserts have no newline. -/
def LineFree : Edit → Prop
  | reset lines => ∀ line ∈ lines, lf ∉ line
  | replaceLineRange _ _ inserted => ∀ line ∈ inserted, lf ∉ line
  | setLine _ value | insertLine _ value | pushBackLine value => lf ∉ value
  | _ => True

/-- The line an edit names is there. -/
def InRange (lines : List Line) : Edit → Prop
  | setLine index _ => index < lines.length
  | _ => True

/-- What the callers promise of an edit. A loaded text fits into 32 bits. -/
structure Valid (lines : List Line) (edit : Edit) : Prop where
  free : edit.LineFree
  inRange : edit.InRange lines
  fits : edit.isLoad = true → (joinText (edit.apply lines)).length < 2 ^ 32

/-- The naive list of lines after an edit that may be refused. -/
def applyBelow (ceiling : Nat) (lines : List Line) (edit : Edit) : List Line :=
  if edit.isLoad = true ∨ (joinText (edit.apply lines)).length ≤ ceiling then edit.apply lines else lines

end Edit

namespace PieceTree

variable {t : PieceTree} {lines : List Line}

theorem free_replaceLines (h : ∀ line ∈ lines, lf ∉ line) {inserted : List Line}
    (hinserted : ∀ line ∈ inserted, lf ∉ line) (start removed : Nat) :
    ∀ line ∈ replaceLines lines start removed inserted, lf ∉ line := by
  intro line hline
  rw [replaceLines, mem_append, mem_append] at hline
  rcases hline with (hline | hline) | hline
  · exact h line (mem_of_mem_take hline)
  · exact hinserted line hline
  · exact h line (mem_of_mem_drop hline)

theorem free_replaceText (h : ∀ line ∈ lines, lf ∉ line)
    (startLine startColumn endLine endColumn : Nat) (text : List UInt8) :
    ∀ line ∈ replaceText lines startLine startColumn endLine endColumn text, lf ∉ line := by
  intro line hline
  unfold replaceText at hline
  split at hline
  · exact h line hline
  · rw [mem_append, mem_append] at hline
    rcases hline with (hline | hline) | hline
    · exact h line (mem_of_mem_take hline)
    · exact not_mem_of_mem_splitOn lf hline
    · exact h line (mem_of_mem_drop hline)

/-- The naive edits are replacements of lines. -/
theorem set_eq_replaceLines {index : Nat} (h : index < lines.length) (value : Line) :
    lines.set index value = replaceLines lines index 1 [value] := by
  rw [replaceLines, set_eq_take_append_cons_drop, if_pos h]
  simp

theorem insert_eq_replaceLines (lines : List Line) (index : Nat) (value : Line) :
    lines.take index ++ value :: lines.drop index = replaceLines lines index 0 [value] := by
  simp [replaceLines]

theorem eraseIdx_eq_replaceLines (lines : List Line) (index : Nat) :
    lines.eraseIdx index = replaceLines lines index 1 [] := by
  rw [replaceLines, eraseIdx_eq_take_drop_succ, append_nil]

theorem concat_eq_replaceLines (lines : List Line) (value : Line) :
    lines ++ [value] = replaceLines lines lines.length 0 [value] := by
  simp [replaceLines]

/-- The lines of the naive list after an edit have no newline. -/
theorem free_apply (h : ∀ line ∈ lines, lf ∉ line) {edit : Edit} (hedit : edit.Valid lines) :
    ∀ line ∈ edit.apply lines, lf ∉ line := by
  have hfree := hedit.free
  have hrange := hedit.inRange
  cases edit with
  | reset loaded => exact hfree
  | resetFromText content => exact fun line hline => not_mem_of_mem_splitOn lf hline
  | replaceLineRange start removed inserted => exact free_replaceLines h hfree start removed
  | setLine index value =>
      rw [Edit.apply, set_eq_replaceLines hrange]
      exact free_replaceLines h (forall_mem_singleton.mpr hfree) index 1
  | insertLine index value =>
      rw [Edit.apply, insert_eq_replaceLines]
      exact free_replaceLines h (forall_mem_singleton.mpr hfree) index 0
  | eraseLine index => exact fun line hline => h line (mem_of_mem_eraseIdx hline)
  | eraseLineRange first last =>
      intro line hline
      rw [Edit.apply] at hline
      split at hline
      · exact h line hline
      · rcases mem_append.mp hline with hline | hline
        · exact h line (mem_of_mem_take hline)
        · exact h line (mem_of_mem_drop hline)
  | pushBackLine value =>
      rw [Edit.apply, concat_eq_replaceLines]
      exact free_replaceLines h (forall_mem_singleton.mpr hfree) _ 0
  | replaceTextRange startLine startColumn endLine endColumn text => exact free_replaceText h _ _ _ _ _

/-- The splice of an edit. Loads have none, and neither have edits that find nothing to do. -/
def spliceOf (t : PieceTree) : Edit → Option Splice
  | .reset _ | .resetFromText _ => none
  | .replaceLineRange start removed inserted => some (lineSplice t start removed inserted)
  | .setLine index value => some (lineSplice t index 1 [value])
  | .insertLine index value => some (lineSplice t index 0 [value])
  | .eraseLine index => if index ≥ t.lineCount then none else some (lineSplice t index 1 [])
  | .eraseLineRange first last =>
    if first ≥ last then none else some (lineSplice t first (last - first) [])
  | .pushBackLine value => some (lineSplice t t.lineCount 0 [value])
  | .replaceTextRange startLine startColumn endLine endColumn text =>
    if t.lineCount = 0 then none
    else some (textSplice t startLine startColumn endLine endColumn text)

/-- **Every edit that is no load** is its splice. -/
theorem apply_eq_splice (R : Reserve) (t : PieceTree) {edit : Edit} (hload : edit.isLoad = false) :
    t.apply R edit = (t.spliceOf edit).elim t (Splice.apply R t) := by
  cases edit with
  | reset loaded => simp [Edit.isLoad] at hload
  | resetFromText content => simp [Edit.isLoad] at hload
  | replaceLineRange start removed inserted => rfl
  | setLine index value => rfl
  | insertLine index value => rfl
  | eraseLine index =>
      rw [PieceTree.apply, eraseLine, spliceOf]
      split <;> rfl
  | eraseLineRange first last =>
      rw [PieceTree.apply, eraseLineRange, spliceOf]
      split <;> rfl
  | pushBackLine value => rfl
  | replaceTextRange startLine startColumn endLine endColumn text =>
      rw [PieceTree.apply, replaceTextRange, spliceOf]
      split <;> rfl

/-- An edit that is no load changes nothing if it has no splice. -/
theorem apply_of_spliceOf_eq_none (h : t.Spells lines) {edit : Edit} (hload : edit.isLoad = false)
    (hnone : t.spliceOf edit = none) : edit.apply lines = lines := by
  have hn := h.lineCount
  cases edit with
  | reset loaded => simp [Edit.isLoad] at hload
  | resetFromText content => simp [Edit.isLoad] at hload
  | eraseLine index =>
      rw [spliceOf] at hnone
      split at hnone
      · exact eraseIdx_of_length_le (by omega)
      · exact absurd hnone (by simp)
  | eraseLineRange first last =>
      rw [spliceOf] at hnone
      split at hnone
      · next hge => exact if_pos hge
      · exact absurd hnone (by simp)
  | replaceTextRange startLine startColumn endLine endColumn text =>
      rw [spliceOf] at hnone
      split at hnone
      · next hzero =>
        rw [hn, ← eq_nil_iff_length_eq_zero] at hzero
        simp [Edit.apply, replaceText, hzero]
      · exact absurd hnone (by simp)
  | _ => exact absurd hnone (by simp [spliceOf])

/-- The splice of an edit does what the naive list does. -/
theorem replaces_of_spliceOf_eq_some (h : t.Spells lines) {edit : Edit} (hrange : edit.InRange lines)
    {splice : Splice} (hsome : t.spliceOf edit = some splice) :
    splice.Replaces t.toBuffers lines (edit.apply lines) := by
  have hn := h.lineCount
  cases edit with
  | reset loaded => simp [spliceOf] at hsome
  | resetFromText content => simp [spliceOf] at hsome
  | replaceLineRange start removed inserted =>
      obtain rfl := Option.some.inj hsome
      exact lineSplice_replaces h start removed inserted
  | setLine index value =>
      obtain rfl := Option.some.inj hsome
      rw [Edit.apply, set_eq_replaceLines hrange]
      exact lineSplice_replaces h index 1 [value]
  | insertLine index value =>
      obtain rfl := Option.some.inj hsome
      rw [Edit.apply, insert_eq_replaceLines]
      exact lineSplice_replaces h index 0 [value]
  | eraseLine index =>
      rw [spliceOf] at hsome
      split at hsome
      · exact absurd hsome (by simp)
      · obtain rfl := Option.some.inj hsome
        rw [Edit.apply, eraseIdx_eq_replaceLines]
        exact lineSplice_replaces h index 1 []
  | eraseLineRange first last =>
      rw [spliceOf] at hsome
      split at hsome
      · exact absurd hsome (by simp)
      · next hlt =>
        obtain rfl := Option.some.inj hsome
        have hsplice := lineSplice_replaces h first (last - first) []
        rw [replaceLines, append_nil, Nat.add_sub_cancel' (by omega)] at hsplice
        rwa [Edit.apply, if_neg hlt]
  | pushBackLine value =>
      obtain rfl := Option.some.inj hsome
      rw [Edit.apply, concat_eq_replaceLines, ← hn]
      exact lineSplice_replaces h t.lineCount 0 [value]
  | replaceTextRange startLine startColumn endLine endColumn text =>
      rw [spliceOf] at hsome
      split at hsome
      · exact absurd hsome (by simp)
      · next hpos =>
        obtain rfl := Option.some.inj hsome
        exact textSplice_replaces h (ne_nil_of_length_pos (by omega)) _ _ _ _ _

/-- **One edit**, refused or not. -/
theorem apply_spells (R : Reserve) (h : t.Spells lines) {edit : Edit} (hedit : edit.Valid lines) :
    (t.apply R edit).Spells (edit.applyBelow t.maxLiveDocumentBytes lines) ∧
      (t.apply R edit).maxLiveDocumentBytes = t.maxLiveDocumentBytes := by
  have hfree := free_apply h.free hedit
  cases hload : edit.isLoad with
  | true =>
      have hsize := hedit.fits hload
      cases edit with
      | reset loaded =>
          exact ⟨reset_spells h.ceiling hfree hsize,
            (rebuildFromOriginal_frame { t with original := joinText loaded }).2.1⟩
      | resetFromText content =>
          rw [Edit.apply, joinText, intercalate_splitOn] at hsize
          exact ⟨resetFromText_spells h.ceiling hsize,
            (rebuildFromOriginal_frame { t with original := content }).2.1⟩
      | _ => simp [Edit.isLoad] at hload
  | false =>
      rw [apply_eq_splice R t hload]
      cases hsplice : t.spliceOf edit with
      | none =>
          rw [Edit.applyBelow, apply_of_spliceOf_eq_none h hload hsplice, ite_self]
          exact ⟨h, rfl⟩
      | some splice =>
          have hreplaces := replaces_of_spliceOf_eq_some h hedit.inRange hsplice
          by_cases hfits : (joinText (edit.apply lines)).length ≤ t.maxLiveDocumentBytes
          · rw [Edit.applyBelow, if_pos (.inr hfits)]
            obtain ⟨hspells, hceiling, -⟩ := hreplaces.accepted R h hfree hfits
            exact ⟨hspells, hceiling⟩
          · rw [Edit.applyBelow, if_neg (by simp [hload, hfits]), Option.elim_some,
              hreplaces.refused R h (by omega)]
            exact ⟨⟨⟨h.buffers, h.root, h.fits, h.text⟩, h.lineCount, h.free, hreplaces.cursor,
              h.ceiling⟩, rfl⟩

end PieceTree

/-! ### Reads -/

/-- The reads of `PieceTree`, with what is already in the container they append to. -/
inductive Read where
  | lineView (index : Nat)
  | lineLength (index : Nat)
  | lineWindow (index byteStart byteLen : Nat)
  | sliceLines (first last : Nat)
  | appendLines (first last : Nat) (out : List Line)
  | appendLinesToBlob (first last : Nat) (out : LineBlob)
  | appendTextRange (startLine startColumn endLine endColumn : Nat) (out : List UInt8)
  | toVector
  | appendWholeText (out : List UInt8)

/-- What a read gives. -/
inductive Answer where
  | bytes (bytes : List UInt8)
  | length (length : Nat)
  | lines (lines : List Line)

/-- The answer to a read, and the tree after it. -/
def PieceTree.answer (t : PieceTree) : Read → Answer × PieceTree
  | .lineView index => (.bytes (t.lineView index).1, (t.lineView index).2)
  | .lineLength index => (.length (t.lineLength index).1, (t.lineLength index).2)
  | .lineWindow index byteStart byteLen =>
    (.bytes (t.lineWindow index byteStart byteLen).1, (t.lineWindow index byteStart byteLen).2)
  | .sliceLines first last => (.lines (t.sliceLines first last).1, (t.sliceLines first last).2)
  | .appendLines first last out =>
    (.lines (t.appendLines first last out).1, (t.appendLines first last out).2)
  | .appendLinesToBlob first last out =>
    (.lines (t.appendLines first last out).1.toVector, (t.appendLines first last out).2)
  | .appendTextRange startLine startColumn endLine endColumn out =>
    (.bytes (t.appendTextRange startLine startColumn endLine endColumn out).1,
      (t.appendTextRange startLine startColumn endLine endColumn out).2)
  | .toVector => (.lines t.toVector.1, t.toVector.2)
  | .appendWholeText out => (.bytes (t.appendWholeText out), t)

namespace Read

/-- The answer the naive list of lines gives. -/
def answer (lines : List Line) : Read → Answer
  | lineView index => .bytes (lines.getD index [])
  | lineLength index => .length (lines.getD index []).length
  | lineWindow index byteStart byteLen => .bytes (((lines.getD index []).drop byteStart).take byteLen)
  | sliceLines first last => .lines (slice lines first last)
  | appendLines first last out => .lines (out ++ slice lines first last)
  | appendLinesToBlob first last out => .lines (out.toVector ++ slice lines first last)
  | appendTextRange startLine startColumn endLine endColumn out =>
    .bytes (out ++ textRange lines startLine startColumn endLine endColumn)
  | toVector => .lines lines
  | appendWholeText out => .bytes (out ++ joinText lines)

/-- The line a read names is there; a blob is one, with room for the lines within the 32 bits
of its offsets. -/
def Valid (lines : List Line) : Read → Prop
  | lineView index | lineLength index | lineWindow index _ _ => index < lines.length
  | appendLinesToBlob first last out =>
    (∃ held, out.Spells held) ∧ out.data.length + (slice lines first last).flatten.length < 2 ^ 32
  | _ => True

end Read

namespace PieceTree

variable {t : PieceTree} {lines : List Line}

/-- **One read.** -/
theorem answer_spells (h : t.Spells lines) {read : Read} (hread : read.Valid lines) :
    (t.answer read).1 = read.answer lines ∧ (t.answer read).2.Spells lines := by
  cases read with
  | lineView index =>
      obtain ⟨hview, hspells⟩ := lineView_spec h (show index < lines.length from hread)
      rw [getElem_eq_getD []] at hview
      exact ⟨congrArg Answer.bytes hview, hspells⟩
  | lineLength index =>
      obtain ⟨hlength, hspells⟩ := lineLength_spec h (show index < lines.length from hread)
      rw [getElem_eq_getD []] at hlength
      exact ⟨congrArg Answer.length hlength, hspells⟩
  | lineWindow index byteStart byteLen =>
      obtain ⟨hwindow, hspells⟩ := lineWindow_spec h (show index < lines.length from hread) byteStart byteLen
      rw [getElem_eq_getD []] at hwindow
      exact ⟨congrArg Answer.bytes hwindow, hspells⟩
  | sliceLines first last =>
      obtain ⟨hlines, hspells⟩ := sliceLines_spec h first last
      exact ⟨congrArg Answer.lines hlines, hspells⟩
  | appendLines first last out =>
      obtain ⟨hlines, hspells⟩ := appendLines_spec h first last (counts_list out)
      rw [foldl_emplaceBack_list] at hlines
      exact ⟨congrArg Answer.lines hlines, hspells⟩
  | appendLinesToBlob first last out =>
      obtain ⟨⟨held, hheld⟩, hroom⟩ := hread
      obtain ⟨hblob, hspells⟩ := appendLines_spec h first last (counts_blob hheld.firstLine_le)
      refine ⟨?_, hspells⟩
      rw [answer, Read.answer, hblob, (hheld.foldl_emplaceBack _ hroom).toVector_eq, hheld.toVector_eq]
  | appendTextRange startLine startColumn endLine endColumn out =>
      obtain ⟨htext, hspells⟩ := appendTextRange_spec h startLine startColumn endLine endColumn out
      exact ⟨congrArg Answer.bytes htext, hspells⟩
  | toVector =>
      obtain ⟨hlines, hspells⟩ := toVector_spec h
      exact ⟨congrArg Answer.lines hlines, hspells⟩
  | appendWholeText out => exact ⟨congrArg Answer.bytes (appendWholeText_eq h out), h⟩

/-- A read changes the caches only. -/
theorem answer_frame (t : PieceTree) (read : Read) : ∃ cursor, (t.answer read).2 = { t with cursor } := by
  have hextract {σ : Type} [LineSink σ] (first last : Nat) (out : σ) :
      ∃ cursor, (t.extractLineRange first last out).2 = { t with cursor } := ⟨_, rfl⟩
  have happend {σ : Type} [LineSink σ] (first last : Nat) (out : σ) :
      ∃ cursor, (t.appendLines first last out).2 = { t with cursor } := by
    unfold appendLines
    split
    · exact ⟨t.cursor, rfl⟩
    · exact hextract _ _ _
  cases read with
  | lineView index =>
      rw [answer, lineView]
      dsimp only
      split
      · exact ⟨_, rfl⟩
      · split <;> exact ⟨_, rfl⟩
  | lineLength index => exact ⟨_, rfl⟩
  | lineWindow index byteStart byteLen =>
      rw [answer, lineWindow]
      dsimp only
      split
      · exact ⟨_, rfl⟩
      · split
        · exact ⟨_, rfl⟩
        · split <;> exact ⟨_, rfl⟩
  | sliceLines first last => exact happend first last []
  | appendLines first last out => exact happend first last out
  | appendLinesToBlob first last out => exact happend first last out
  | appendTextRange startLine startColumn endLine endColumn out => exact ⟨_, rfl⟩
  | toVector =>
      rw [answer, toVector]
      split
      · exact ⟨t.cursor, rfl⟩
      · exact hextract 0 t.lineCount ([] : List Line)
  | appendWholeText out => exact ⟨t.cursor, rfl⟩

end PieceTree

/-! ### Runs -/

/-- A step of a run. -/
inductive Op where
  | edit (edit : Edit)
  | read (read : Read)

namespace Op

/-- The tree after a step. -/
def applyTree (R : Reserve) (t : PieceTree) : Op → PieceTree
  | edit e => t.apply R e
  | read r => (t.answer r).2

/-- The naive list of lines after a step. -/
def apply (lines : List Line) : Op → List Line
  | edit e => e.apply lines
  | read _ => lines

/-- The naive list of lines after a step whose edit may be refused. -/
def applyBelow (ceiling : Nat) (lines : List Line) : Op → List Line
  | edit e => e.applyBelow ceiling lines
  | read _ => lines

/-- What the callers promise of a step. -/
def Valid (lines : List Line) : Op → Prop
  | edit e => e.Valid lines
  | read r => r.Valid lines

end Op

/-- The tree after a run. -/
def PieceTree.run (R : Reserve) (t : PieceTree) (ops : List Op) : PieceTree :=
  ops.foldl (Op.applyTree R) t

/-- The answers a run gives. -/
def PieceTree.answers (R : Reserve) (t : PieceTree) : List Op → List Answer
  | [] => []
  | .edit e :: ops => answers R (t.apply R e) ops
  | .read r :: ops => (t.answer r).1 :: answers R (t.answer r).2 ops

/-- Every step of a run is as the callers promise, on the lines it finds. -/
def ValidRun (ceiling : Nat) (lines : List Line) : List Op → Prop
  | [] => True
  | op :: ops => op.Valid lines ∧ ValidRun ceiling (op.applyBelow ceiling lines) ops

/-- No edit of a run takes the joined lines over the ceiling. -/
def StaysBelow (ceiling : Nat) (lines : List Line) : List Op → Prop
  | [] => True
  | op :: ops => (joinText (op.apply lines)).length ≤ ceiling ∧ StaysBelow ceiling (op.apply lines) ops

/-- `PieceTree()`, and the one that takes lines, with a byte ceiling. -/
def PieceTree.new (ceiling : Nat) (lines : List Line) : PieceTree :=
  reset { maxLiveDocumentBytes := ceiling } lines

namespace PieceTree

variable {t : PieceTree} {lines : List Line}

/-- **One step.** -/
theorem step_spells (R : Reserve) (h : t.Spells lines) {op : Op} (hop : op.Valid lines) :
    (op.applyTree R t).Spells (op.applyBelow t.maxLiveDocumentBytes lines) ∧
      (op.applyTree R t).maxLiveDocumentBytes = t.maxLiveDocumentBytes := by
  cases op with
  | edit e => exact apply_spells R h hop
  | read r =>
      obtain ⟨cursor, hframe⟩ := answer_frame t r
      exact ⟨(answer_spells h hop).2, by rw [Op.applyTree, hframe]⟩

/-- **Every run** leaves a tree that spells the lines. -/
theorem run_spells (R : Reserve) (h : t.Spells lines) (ops : List Op)
    (hops : ValidRun t.maxLiveDocumentBytes lines ops) :
    (t.run R ops).Spells (ops.foldl (Op.applyBelow t.maxLiveDocumentBytes) lines) := by
  induction ops generalizing t lines with
  | nil => exact h
  | cons op ops ih =>
      obtain ⟨hop, hrest⟩ := hops
      obtain ⟨hstep, hceiling⟩ := step_spells R h hop
      have hrun := ih hstep (by rwa [hceiling])
      rw [hceiling] at hrun
      exact hrun

theorem new_spells {ceiling : Nat} (hceiling : ceiling < 2 ^ 32) (hfree : ∀ line ∈ lines, lf ∉ line)
    (hsize : (joinText lines).length < 2 ^ 32) : (new ceiling lines).Spells lines :=
  reset_spells hceiling hfree hsize

theorem new_ceiling (ceiling : Nat) (lines : List Line) :
    (new ceiling lines).maxLiveDocumentBytes = ceiling :=
  (rebuildFromOriginal_frame { maxLiveDocumentBytes := ceiling, original := joinText lines }).2.1

end PieceTree

/-- Below the ceiling nothing is refused. -/
theorem StaysBelow.foldl_eq {ceiling : Nat} {lines : List Line} {ops : List Op}
    (h : StaysBelow ceiling lines ops) :
    ops.foldl (Op.applyBelow ceiling) lines = ops.foldl Op.apply lines := by
  induction ops generalizing lines with
  | nil => rfl
  | cons op ops ih =>
      obtain ⟨hfits, hrest⟩ := h
      have hstep : op.applyBelow ceiling lines = op.apply lines := by
        cases op with
        | edit e => exact if_pos (.inr hfits)
        | read r => rfl
      rw [foldl_cons, foldl_cons, hstep, ih hrest]

/-! ### Nodes -/

namespace Treap

/-- The pieces, in order. -/
def pieces : Treap → List Piece
  | null => []
  | node left piece _ _ right => left.pieces ++ piece :: right.pieces

/-- The nodes, each with what is below it. -/
def subtrees : Treap → List Treap
  | null => []
  | t@(node left _ _ _ right) => t :: left.subtrees ++ right.subtrees

theorem text_eq_flatMap (b : Buffers) (t : Treap) : t.text b = t.pieces.flatMap (Piece.text b) := by
  induction t with
  | null => rfl
  | node left piece subtreeLength subtreeNewlines right ihl ihr => simp [text, pieces, ihl, ihr]

theorem Valid.subtree {b : Buffers} {t : Treap} (h : t.Valid b) : ∀ sub ∈ t.subtrees, sub.Valid b := by
  induction t with
  | null => simp [subtrees]
  | node left piece subtreeLength subtreeNewlines right ihl ihr =>
      intro sub hsub
      rw [subtrees, cons_append, mem_cons, mem_append] at hsub
      rcases hsub with rfl | hsub | hsub
      · exact h
      · exact ihl h.1 sub hsub
      · exact ihr h.2.2.1 sub hsub

/-- Every node caches the sums over the pieces of its subtree. -/
def CachesSums (b : Buffers) (t : Treap) : Prop :=
  ∀ sub ∈ t.subtrees,
    sub.treeLength = (sub.pieces.map fun piece => (piece.text b).length).sum ∧
      sub.treeNewlines = (sub.pieces.map fun piece => (piece.text b).count lf).sum

theorem Valid.cachesSums {b : Buffers} {t : Treap} (h : t.Valid b) : t.CachesSums b := by
  intro sub hsub
  have hvalid := h.subtree sub hsub
  rw [treeLength_eq hvalid, treeNewlines_eq hvalid, text_eq_flatMap, length_flatMap, count_flatMap]
  exact ⟨rfl, rfl⟩

end Treap

/-! ### Main results -/

/-- **The piece tree refines the list of lines.** Over every run of edits and reads that stays
below the ceiling, the pieces in order spell the join of the lines the naive list has, the
line count is the list's, and every node caches the sums over its subtree. -/
theorem run_refines (R : Reserve) {ceiling : Nat} (hceiling : ceiling < 2 ^ 32) {lines : List Line}
    (hfree : ∀ line ∈ lines, lf ∉ line) (hsize : (joinText lines).length < 2 ^ 32) (ops : List Op)
    (hops : ValidRun ceiling lines ops) (hbelow : StaysBelow ceiling lines ops) :
    let t := (PieceTree.new ceiling lines).run R ops
    let naive := ops.foldl Op.apply lines
    t.root.pieces.flatMap (Piece.text t.toBuffers) = joinText naive ∧
      t.lineCount = naive.length ∧ t.root.CachesSums t.toBuffers := by
  have hceiling' := PieceTree.new_ceiling ceiling lines
  have hspells := PieceTree.run_spells R (PieceTree.new_spells hceiling hfree hsize) ops
    (by rwa [hceiling'])
  rw [hceiling', hbelow.foldl_eq] at hspells
  refine ⟨?_, hspells.lineCount, hspells.root.cachesSums⟩
  rw [← Treap.text_eq_flatMap, hspells.text]

/-- A string that reserves exactly what it is asked for. -/
def exactReserve : Reserve where
  capacity := id
  le_capacity _ := Nat.le_refl _
  capacity_lt _ h := h

/-- A read, an edit inside a line, an edit over two lines and a read of all. -/
def smallRun : List Op :=
  [.read (.lineView 1), .edit (.setLine 1 [99]), .edit (.replaceTextRange 0 1 1 0 [120, 10]),
    .read .toVector]

theorem validRun_smallRun (ceiling : Nat) : ValidRun ceiling [[97], [98]] smallRun :=
  ⟨(by decide : 1 < 2), ⟨(by decide : lf ∉ [99]), (by decide : 1 < 2), by simp [Edit.isLoad]⟩,
    ⟨trivial, trivial, by simp [Edit.isLoad]⟩, trivial, trivial⟩

/-- The run `a / b` to `a / c` to `ax / c`. -/
theorem smallRun_refines :
    let t := (PieceTree.new (2 ^ 32 - 1) [[97], [98]]).run exactReserve smallRun
    t.root.pieces.flatMap (Piece.text t.toBuffers) = joinText [[97, 120], [99]] ∧
      t.lineCount = 2 ∧ t.root.CachesSums t.toBuffers :=
  run_refines exactReserve (by decide) (by decide) (by decide) smallRun
    (validRun_smallRun _)
    ⟨by decide, by decide, by decide, by decide, trivial⟩

end Microide.Editor
