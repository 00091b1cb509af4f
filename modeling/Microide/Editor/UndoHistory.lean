/-
The undo history.

`TextViewportUndoHistory` and the steps of the viewport that drive it: entries in their
column-scoped and their line form, the coalescing of typing runs into the top entry, the
aggregation of grouped edits into disjoint ranges, the budget, the save point, and undo
and redo.

The buffer is the list of its lines that the piece tree spells, edited by `replaceLines`
and `replaceText`. A stack's first element is its top.
-/

import Mathlib.Algebra.GroupWithZero.Nat
import Microide.Editor.PieceTreeEdits
import Microide.Lib.Patches

namespace Microide.Editor

open Lib Text

/-! ### Entries -/

inductive LineEnding where
  | lf
  | crlf
  | cr
  deriving DecidableEq

structure TextPosition where
  line : Nat := 0
  column : Nat := 0
  deriving DecidableEq

inductive WrapRowAffinity where
  | nextRow
  | previousRow
  deriving DecidableEq

structure SecondaryCaret where
  position : TextPosition
  preferredColumn : Nat := 0
  selectionAnchor : Option TextPosition := none
  wrapAffinity : WrapRowAffinity := .nextRow
  deriving DecidableEq

structure ViewState where
  cursorLine : Nat := 0
  cursorColumn : Nat := 0
  preferredColumn : Nat := 0
  scrollLine : Nat := 0
  horizontalScroll : Nat := 0
  selectionAnchor : Option TextPosition := none
  secondaryCarets : List SecondaryCaret := []
  placeholder : Bool := false
  dirty : Bool := false
  deriving DecidableEq

/-- One undo step. An inline entry splices `insertedText` for `removedText` on one line; a
line entry replaces `beforeLines` by `afterLines`, and each of `extraParts` above it. -/
structure Entry where
  startLine : Nat := 0
  isInline : Bool := false
  startColumn : Nat := 0
  removedText : List UInt8 := []
  insertedText : List UInt8 := []
  beforeLines : List Line := []
  afterLines : List Line := []
  extraParts : List (Replacement Line) := []
  lineEndingBefore : Option LineEnding := none
  lineEndingAfter : Option LineEnding := none
  beforeState : ViewState := {}
  afterState : ViewState := {}
  byteSize : Nat := 0
  deriving DecidableEq

namespace Entry

def isMultiRange (entry : Entry) : Bool := !entry.extraParts.isEmpty

end Entry

/-- `LineBlob::content_bytes`. -/
def contentBytes (lines : List Line) : Nat := (lines.map List.length).sum

/-- `LineBlob::range_equals`. -/
def rangeEquals (lines : List Line) (first : Nat) (other : List Line) : Bool :=
  if first + other.length > lines.length then false
  else (lines.drop first).take other.length == other

/-- `LineBlob::replace_range`. -/
def replaceRange (lines : List Line) (first last : Nat) (replacement : List Line) : List Line :=
  let first := min first lines.length
  let last := min (max last first) lines.length
  lines.take first ++ replacement ++ lines.drop last

def entryContentBytes (entry : Entry) : Nat :=
  if entry.isInline then entry.removedText.length + entry.insertedText.length
  else
    let addLines (lines : List Line) : Nat := contentBytes lines + lines.length
    addLines entry.beforeLines + addLines entry.afterLines +
      (entry.extraParts.map fun part => addLines part.before + addLines part.after).sum

/-! ### Merging entries -/

def canMergeInlineEntry (aggregate next : Entry) : Bool :=
  let aggregateStart := aggregate.startColumn
  let aggregateEnd := aggregateStart + aggregate.insertedText.length
  let nextStart := next.startColumn
  let nextEnd := nextStart + next.removedText.length
  if aggregate.startLine ≠ next.startLine then false
  else if nextStart = aggregateEnd ∨ nextEnd = aggregateStart then true
  else if nextStart < aggregateStart ∨ nextEnd > aggregateEnd then false
  else (aggregate.insertedText.drop (nextStart - aggregateStart)).take next.removedText.length ==
    next.removedText

def mergeInlineEntryInto (aggregate next : Entry) : Entry :=
  let aggregateStart := aggregate.startColumn
  let aggregateEnd := aggregateStart + aggregate.insertedText.length
  let nextStart := next.startColumn
  let nextEnd := nextStart + next.removedText.length
  let merged :=
    if nextStart = aggregateEnd then
      { aggregate with
        removedText := aggregate.removedText ++ next.removedText
        insertedText := aggregate.insertedText ++ next.insertedText }
    else if nextEnd = aggregateStart then
      { aggregate with
        startColumn := nextStart
        removedText := next.removedText ++ aggregate.removedText
        insertedText := next.insertedText ++ aggregate.insertedText }
    else
      { aggregate with
        insertedText := splice aggregate.insertedText (nextStart - aggregateStart)
          next.removedText.length next.insertedText }
  { merged with afterState := next.afterState }

def canMergeSameShapeMultiRange (top next : Entry) : Bool :=
  if top.isInline || next.isInline || !top.isMultiRange ||
      top.extraParts.length != next.extraParts.length || top.startLine != next.startLine ||
      top.afterLines.length != next.beforeLines.length ||
      !rangeEquals top.afterLines 0 next.beforeLines then false
  else (List.zipWith (fun installed replaced : Replacement Line =>
      installed.afterStart == replaced.beforeStart &&
        installed.after.length == replaced.before.length &&
        rangeEquals installed.after 0 replaced.before) top.extraParts next.extraParts).all id

def mergeSameShapeMultiRange (top next : Entry) : Entry :=
  { top with
    afterLines := next.afterLines
    extraParts := List.zipWith Replacement.comp top.extraParts next.extraParts
    afterState := next.afterState }

def canMergeGroupEntry (aggregate next : Entry) : Bool :=
  let aggregateAfterStart := aggregate.startLine
  let aggregateAfterEnd := aggregate.startLine + aggregate.afterLines.length
  let nextStart := next.startLine
  let nextEnd := next.startLine + next.beforeLines.length
  if aggregate.isInline || next.isInline then false
  else if aggregate.isMultiRange || next.isMultiRange then false
  else if nextEnd = aggregateAfterStart ∨ nextStart = aggregateAfterEnd then true
  else if nextStart < aggregateAfterStart ∨ nextEnd > aggregateAfterEnd then false
  else rangeEquals aggregate.afterLines (nextStart - aggregateAfterStart) next.beforeLines

def mergeGroupEntry (aggregate next : Entry) : Entry :=
  let aggregateAfterStart := aggregate.startLine
  let aggregateAfterEnd := aggregate.startLine + aggregate.afterLines.length
  let nextStart := next.startLine
  let nextEnd := next.startLine + next.beforeLines.length
  let merged := { aggregate with afterState := next.afterState }
  if nextEnd = aggregateAfterStart then
    { merged with
      startLine := next.startLine
      beforeLines := next.beforeLines ++ merged.beforeLines
      afterLines := next.afterLines ++ merged.afterLines }
  else if nextStart = aggregateAfterEnd then
    { merged with
      beforeLines := merged.beforeLines ++ next.beforeLines
      afterLines := merged.afterLines ++ next.afterLines }
  else
    let relativeStart := nextStart - aggregateAfterStart
    let relativeEnd := relativeStart + next.beforeLines.length
    { merged with afterLines := replaceRange merged.afterLines relativeStart relativeEnd next.afterLines }

/-! ### The disjoint ranges of a group -/

/-- `std::lower_bound` on the start lines, which are ascending. -/
def insertSortedDisjoint (entries : List Entry) (next : Entry) : List Entry :=
  entries.takeWhile (fun entry => entry.startLine < next.startLine) ++
    next :: entries.dropWhile (fun entry => entry.startLine < next.startLine)

/-- The two neighbours as one entry, built onto the side that owns the bigger blob. -/
def joinAdjacent (low high : Entry) : Entry :=
  let highSideIsBigger : Bool :=
    contentBytes high.beforeLines + contentBytes high.afterLines >
      contentBytes low.beforeLines + contentBytes low.afterLines
  if highSideIsBigger && canMergeGroupEntry high low then
    { mergeGroupEntry high low with afterState := high.afterState }
  else mergeGroupEntry low high

/-- The loop of `CoalesceAdjacentDisjoint` at one element: a join stays there, otherwise it moves
on. -/
def coalesceFrom (low : Entry) : List Entry → List Entry
  | [] => [low]
  | high :: rest =>
    if high.startLine = low.startLine + low.afterLines.length ∧ canMergeGroupEntry low high then
      coalesceFrom (joinAdjacent low high) rest
    else low :: coalesceFrom high rest

def coalesceAdjacentDisjoint : List Entry → List Entry
  | [] => []
  | entry :: rest => coalesceFrom entry rest

/-- The range whose content wholly contains the lines that the child replaces. -/
def containerOf (entries : List Entry) (next : Entry) : Option Nat :=
  entries.findIdx? fun entry =>
    entry.startLine ≤ next.startLine ∧
      next.startLine + next.beforeLines.length ≤ entry.startLine + entry.afterLines.length

/-- The entry once `next` has changed the lines below it. -/
def shiftBy (next entry : Entry) : Entry :=
  if next.startLine + next.beforeLines.length ≤ entry.startLine then
    { entry with startLine := entry.startLine + next.afterLines.length - next.beforeLines.length }
  else entry

def mergeChildIntoDisjoint (entries : List Entry) (next : Entry) : List Entry :=
  let container := containerOf entries next
  let entries := entries.map (shiftBy next)
  let entries :=
    match container with
    | some i =>
      if canMergeGroupEntry (entries.getD i {}) next then
        entries.set i (mergeGroupEntry (entries.getD i {}) next)
      else insertSortedDisjoint entries next
    | none => insertSortedDisjoint entries next
  coalesceAdjacentDisjoint entries

/-! ### The history -/

inductive CoalesceKind where
  | none
  | insert
  | deleteBackward
  | deleteForward
  deriving DecidableEq

structure CoalesceHint where
  kind : CoalesceKind := .none
  changedIsSpace : Bool := false

structure UndoGroupFrame where
  state : ViewState
  disjointEntries : List Entry := []

structure UndoHistory where
  undoStack : List Entry := []
  redoStack : List Entry := []
  groupStack : List UndoGroupFrame := []
  activeRunKind : CoalesceKind := .none
  activeRunLastSpace : Bool := false

def kMaxHistoryEntries : Nat := 128

def kMaxHistoryBytes : Nat := 256 * 2 ^ 20

/-- Drop the oldest entries, here the first ones, while the bytes exceed the budget. -/
def dropOldest (total : Nat) : List Entry → List Entry
  | [] => []
  | [entry] => [entry]
  | oldest :: newer :: rest =>
    if total > kMaxHistoryBytes then dropOldest (total - oldest.byteSize) (newer :: rest)
    else oldest :: newer :: rest

/-- `EnforceHistoryBudget` on the undo stack. -/
def enforceHistoryBudget (undoStack : List Entry) : List Entry :=
  let kept := undoStack.take kMaxHistoryEntries
  (dropOldest (kept.map Entry.byteSize).sum kept.reverse).reverse

namespace UndoHistory

def isGroupActive (history : UndoHistory) : Bool := !history.groupStack.isEmpty

def endCoalesceRun (history : UndoHistory) : UndoHistory :=
  { history with activeRunKind := .none }

def notifyCursorMoved (history : UndoHistory) : UndoHistory := history.endCoalesceRun

def appendUndoEntry (history : UndoHistory) (entry : Entry) : UndoHistory :=
  let entry := { entry with byteSize := entryContentBytes entry }
  { history with undoStack := enforceHistoryBudget (entry :: history.undoStack) }

def beginGroup (history : UndoHistory) (beforeState : ViewState) : UndoHistory :=
  { history with groupStack := { state := beforeState } :: history.groupStack }

/-- The top entry with `next` folded in, when the run goes on. -/
def coalescedTop (top next : Entry) : Option Entry :=
  if top.isInline ≠ next.isInline then none
  else if top.isMultiRange || next.isMultiRange then
    if canMergeSameShapeMultiRange top next then some (mergeSameShapeMultiRange top next) else none
  else if top.isInline then
    if canMergeInlineEntry top next then some (mergeInlineEntryInto top next) else none
  else if canMergeGroupEntry top next then
    some { mergeGroupEntry top next with
      beforeState := top.beforeState, afterState := next.afterState }
  else none

def tryCoalesceWithTop (history : UndoHistory) (next : Entry) (hint : CoalesceHint) :
    Option UndoHistory :=
  match history.undoStack with
  | [] => none
  | top :: rest =>
    if history.activeRunKind ≠ hint.kind then none
    else if !hint.changedIsSpace && history.activeRunLastSpace then none
    else if next.beforeState.selectionAnchor.isSome then none
    else if next.beforeState.cursorLine ≠ top.afterState.cursorLine ∨
        next.beforeState.cursorColumn ≠ top.afterState.cursorColumn then none
    else
      match coalescedTop top next with
      | none => none
      | some merged =>
        let merged := { merged with byteSize := entryContentBytes merged }
        some { history with
          undoStack := enforceHistoryBudget (merged :: rest)
          activeRunLastSpace := hint.changedIsSpace }

def recordEntry (history : UndoHistory) (entry : Entry) (hint : CoalesceHint) : UndoHistory :=
  let history := { history with redoStack := [] }
  if history.groupStack.isEmpty then
    match if hint.kind ≠ .none then history.tryCoalesceWithTop entry hint else none with
    | some coalesced => coalesced
    | none =>
      { history.appendUndoEntry entry with
        activeRunKind := hint.kind, activeRunLastSpace := hint.changedIsSpace }
  else
    { history with
      activeRunKind := .none
      groupStack := history.groupStack.map fun frame =>
        { frame with disjointEntries := mergeChildIntoDisjoint frame.disjointEntries entry } }

/-- The disjoint ranges of a group as one entry: the lowest is the primary one, and each
range above gets its place in the document before from the lines added below it. -/
def aggregateOf (primary : Entry) (rest : List Entry) : Entry :=
  { primary with
    extraParts := toParts (primary.afterLines.length - primary.beforeLines.length)
      (rest.map fun part => ⟨part.startLine, part.beforeLines, part.afterLines⟩) }

/-- The entry a frame leaves, none when it has no range or one that holds nothing. -/
def finishFrame (frame : UndoGroupFrame) (afterState : ViewState) : Option Entry :=
  match frame.disjointEntries with
  | [] => none
  | primary :: rest =>
    let aggregate := aggregateOf primary rest
    if aggregate.beforeLines.isEmpty && aggregate.afterLines.isEmpty &&
        aggregate.extraParts.isEmpty then none
    else some { aggregate with beforeState := frame.state, afterState := afterState }

def finishActiveGroup (history : UndoHistory) (afterState : ViewState) :
    Option Entry × UndoHistory :=
  match history.groupStack with
  | [] => (none, history)
  | frame :: outer => (finishFrame frame afterState, { history with groupStack := outer })

def popUndo (history : UndoHistory) : Option (Entry × UndoHistory) :=
  match history.undoStack with
  | [] => none
  | entry :: rest => some (entry, { history.endCoalesceRun with undoStack := rest })

def popRedo (history : UndoHistory) : Option (Entry × UndoHistory) :=
  match history.redoStack with
  | [] => none
  | entry :: rest => some (entry, { history.endCoalesceRun with redoStack := rest })

def pushUndo (history : UndoHistory) (entry : Entry) : UndoHistory :=
  history.endCoalesceRun.appendUndoEntry entry

def pushRedo (history : UndoHistory) (entry : Entry) : UndoHistory :=
  { history.endCoalesceRun with redoStack := entry :: history.redoStack }

/-- Every stored position reads dirty. -/
def markDirty (entry : Entry) : Entry :=
  { entry with
    beforeState := { entry.beforeState with dirty := true }
    afterState := { entry.afterState with dirty := true } }

def markSaved (history : UndoHistory) : UndoHistory :=
  let undoStack := match history.undoStack.map markDirty with
    | [] => []
    | top :: rest => { top with afterState := { top.afterState with dirty := false } } :: rest
  let redoStack := match history.redoStack.map markDirty with
    | [] => []
    | top :: rest => { top with beforeState := { top.beforeState with dirty := false } } :: rest
  { history with undoStack := undoStack, redoStack := redoStack }.endCoalesceRun

end UndoHistory

/-! ### The viewport -/

/-- The buffer and how its lines are ended in the file. -/
@[ext] structure Document where
  lines : List Line
  lineEnding : LineEnding := .lf
  deriving DecidableEq

/-- A document keeps one line at least. -/
def orBlankLine (lines : List Line) : List Line :=
  if lines.isEmpty then [[]] else lines

/-- `ForEachPartInApplyOrder` with the splice it is used with: the extra parts, highest
first, then the primary range. -/
def applyParts (lines : List Line) (entry : Entry) (forward : Bool) : List Line :=
  let spliced := entry.extraParts.foldr (fun part lines =>
    if forward then
      replaceLines lines (min part.beforeStart lines.length) part.before.length part.after
    else replaceLines lines (min part.afterStart lines.length) part.after.length part.before) lines
  let removed := if forward then entry.beforeLines else entry.afterLines
  let inserted := if forward then entry.afterLines else entry.beforeLines
  replaceLines spliced (min entry.startLine spliced.length) removed.length inserted

def applyEntryToBuffer (lines : List Line) (entry : Entry) (forward : Bool) : List Line :=
  if entry.isInline && !lines.isEmpty then
    let removed := if forward then entry.removedText else entry.insertedText
    let inserted := if forward then entry.insertedText else entry.removedText
    let line := min entry.startLine (lines.length - 1)
    replaceText lines line entry.startColumn line (entry.startColumn + removed.length) inserted
  else if entry.isMultiRange then orBlankLine (applyParts lines entry forward)
  else
    let startLine := min entry.startLine lines.length
    let removedCount := if forward then entry.beforeLines.length else entry.afterLines.length
    let insertedLines := if forward then entry.afterLines else entry.beforeLines
    orBlankLine (replaceLines lines startLine removedCount insertedLines)

/-- What `ApplyHistoryEntry` does to the document. -/
def applyHistoryEntry (doc : Document) (entry : Entry) (forward : Bool) : Document :=
  if entry.isMultiRange then
    { doc with lines := orBlankLine (applyParts doc.lines entry forward) }
  else
    let doc := { doc with lines := applyEntryToBuffer doc.lines entry forward }
    match entry.lineEndingAfter, entry.lineEndingBefore with
    | some after, some before => { doc with lineEnding := if forward then after else before }
    | _, _ => doc

/-- `WidenInlineEntryToLines`: the line after the edit is the buffer's, the line before it has
the removed bytes back. -/
def widenInlineEntryToLines (lines : List Line) (entry : Entry) : Entry :=
  if !entry.isInline || lines.isEmpty then entry
  else
    let line := min entry.startLine (lines.length - 1)
    let afterLine := lines.getD line []
    let column := min entry.startColumn afterLine.length
    let beforeLine := splice afterLine column (min entry.insertedText.length (afterLine.length - column))
      entry.removedText
    { entry with
      beforeLines := [beforeLine], afterLines := [afterLine], isInline := false
      startLine := line, startColumn := 0, removedText := [], insertedText := [] }

/-- The part of a `TextViewport` and its document that undo and redo touch: the view state
holds the carets, the selection, the scroll positions and the document's dirty flag. -/
structure Viewport where
  doc : Document
  view : ViewState := {}
  history : UndoHistory := {}

namespace Viewport

def pushHistoryEntry (viewport : Viewport) (entry : Entry) (hint : CoalesceHint) : Viewport :=
  let entry :=
    if entry.isInline && viewport.history.isGroupActive then
      widenInlineEntryToLines viewport.doc.lines entry
    else entry
  { viewport with history := viewport.history.recordEntry entry hint }

def beginUndoGroup (viewport : Viewport) : Viewport :=
  { viewport with history := viewport.history.beginGroup viewport.view }

def flushActiveUndoGroup (viewport : Viewport) : Viewport :=
  let (aggregate, history) := viewport.history.finishActiveGroup viewport.view
  let viewport := { viewport with history := history }
  match aggregate with
  | none => viewport
  | some aggregate =>
    if viewport.history.isGroupActive then viewport
    else viewport.pushHistoryEntry aggregate {}

def endUndoGroup (viewport : Viewport) : Viewport := viewport.flushActiveUndoGroup

/-- `ApplyHistoryStep` once no group is open. The side that is left gets the view as it is. -/
def applyTopEntry (viewport : Viewport) (redo : Bool) : Viewport :=
  match if redo then viewport.history.popRedo else viewport.history.popUndo with
  | none => viewport
  | some (entry, history) =>
    let entry :=
      if redo then { entry with beforeState := viewport.view }
      else { entry with afterState := viewport.view }
    { doc := applyHistoryEntry viewport.doc entry redo
      view := if redo then entry.afterState else entry.beforeState
      history := if redo then history.pushUndo entry else history.pushRedo entry }

/-- `ApplyHistoryStep`. The clamp and the dedupe of the carets that follow it are steps of
their own, as every other move of the carets. -/
def applyHistoryStep (viewport : Viewport) (redo : Bool) : Viewport :=
  if viewport.history.isGroupActive then viewport.flushActiveUndoGroup.applyTopEntry redo
  else viewport.applyTopEntry redo

def undo (viewport : Viewport) : Viewport := viewport.applyHistoryStep false

def redo (viewport : Viewport) : Viewport := viewport.applyHistoryStep true

/-- The end of a save: the document is clean. -/
def markSaved (viewport : Viewport) : Viewport :=
  { viewport with
    view := { viewport.view with dirty := false }, history := viewport.history.markSaved }

end Viewport

end Microide.Editor
