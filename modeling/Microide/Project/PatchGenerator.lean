/-
The patch generator.

A model of `project/PatchGenerator.cpp`: the unified patch for a row range of a
comparison, and the staging patch that brings one change of a HEAD-versus-working-tree
comparison into the index.

**The model.** The source returns the text of the patch. Here it returns the hunk the text
is printed from, and `UnifiedPatch.text` prints it: the byte budget is a budget on that
text. `std::filesystem::path` is its generic byte string. The row range is a slice of the
model's rows, and the arrays `adds_after` and `deletes_after` are read off the rows that
remain.
-/

import Microide.Compare.CompareModel
import Microide.Lib.UnifiedHunk

namespace Microide.Project

open Lib Text Compare

structure PatchGenerationOptions where
  contextLines : Nat := 3
  maxPatchBytes : Nat := 64 * 1024 * 1024

/-! ### Patch text -/

/-- The bytes of a path that must be escaped. -/
def needsEscape (byte : UInt8) : Bool :=
  byte < 0x20 || byte == 0x7f || byte == 0x22 || byte == 0x5c || 0x80 ≤ byte

/-- One byte inside a quoted path: a letter escape, a three-digit octal one, or itself. -/
def escapeByte (byte : UInt8) : List UInt8 :=
  if byte == 0x07 then ascii "\\a"
  else if byte == 0x08 then ascii "\\b"
  else if byte == 0x09 then ascii "\\t"
  else if byte == 0x0a then ascii "\\n"
  else if byte == 0x0b then ascii "\\v"
  else if byte == 0x0c then ascii "\\f"
  else if byte == 0x0d then ascii "\\r"
  else if byte == 0x22 then ascii "\\\""
  else if byte == 0x5c then ascii "\\\\"
  else if byte < 0x20 || byte == 0x7f || 0x80 ≤ byte then
    [0x5c, ((byte >>> 6) &&& 7) + 0x30, ((byte >>> 3) &&& 7) + 0x30, (byte &&& 7) + 0x30]
  else [byte]

/-- `QuoteGitHeaderPath`. -/
def quoteGitHeaderPath (side path : List UInt8) : List UInt8 :=
  let combined := side ++ path
  if combined.any needsEscape then
    [0x22] ++ combined.flatMap escapeByte ++ [0x22]
  else combined

def decimalText (n : Nat) : List UInt8 := ascii (toString n)

/-- `kNoNewlineMarker`. -/
def kNoNewlineMarker : List UInt8 := ascii "\\ No newline at end of file\n"

/-- A patch of one hunk. -/
structure UnifiedPatch where
  path : List UInt8
  isNewFile : Bool
  isDeletedFile : Bool
  hunk : Hunk UInt8

/-- The byte that marks a body line. -/
def tagByte : HunkTag → UInt8
  | .context => 0x20
  | .remove => 0x2d
  | .add => 0x2b

/-- One body line as printed: `AppendPatchLine` and the marker of a missing newline. -/
def bodyLineText (line : HunkLine UInt8) : List UInt8 :=
  tagByte line.tag :: line.line.text ++ [lf] ++
    if line.line.newline then [] else kNoNewlineMarker

namespace UnifiedPatch

/-- Everything before the first body line. -/
def headerText (patch : UnifiedPatch) : List UInt8 :=
  let aPath := quoteGitHeaderPath (ascii "a/") patch.path
  let bPath := quoteGitHeaderPath (ascii "b/") patch.path
  ascii "diff --git " ++ aPath ++ ascii " " ++ bPath ++ [lf] ++
    (if patch.isNewFile then
      ascii "new file mode 100644\n--- /dev/null\n+++ " ++ bPath ++ [lf]
    else if patch.isDeletedFile then
      ascii "deleted file mode 100644\n--- " ++ aPath ++ ascii "\n+++ /dev/null\n"
    else ascii "--- " ++ aPath ++ ascii "\n+++ " ++ bPath ++ [lf]) ++
    ascii "@@ -" ++ decimalText patch.hunk.oldStart ++ ascii "," ++
    decimalText patch.hunk.oldCount ++ ascii " +" ++ decimalText patch.hunk.newStart ++
    ascii "," ++ decimalText patch.hunk.newCount ++ ascii " @@\n"

/-- The text the source returns. -/
def text (patch : UnifiedPatch) : List UInt8 :=
  patch.headerText ++ patch.hunk.body.flatMap bodyLineText

end UnifiedPatch

/-- The printing loop keeps to the byte budget: after each body line the bytes printed so
far must fit, and a budget of `0` is none. -/
def fitsBudget (maxPatchBytes : Nat) : Nat → List (HunkLine UInt8) → Bool
  | _, [] => true
  | printed, line :: lines =>
    let printed := printed + (bodyLineText line).length
    if maxPatchBytes ≠ 0 ∧ printed > maxPatchBytes then false
    else fitsBudget maxPatchBytes printed lines

/-! ### The row range -/

/-- `ExpandRangeStart`. -/
def expandRangeStart (rows : List CompareRow) : Nat → Nat → Nat
  | startRow, 0 => startRow
  | 0, _ + 1 => 0
  | startRow + 1, contextRemaining + 1 =>
    if (rows[startRow]?).map CompareRow.kind = some .unchanged then
      expandRangeStart rows startRow contextRemaining
    else startRow + 1

/-- `ExpandRangeEnd`. -/
def expandRangeEnd (rows : List CompareRow) : Nat → Nat → Nat
  | endRow, 0 => endRow
  | endRow, contextRemaining + 1 =>
    if (rows[endRow + 1]?).map CompareRow.kind = some .unchanged then
      expandRangeEnd rows (endRow + 1) contextRemaining
    else endRow

/-- The line number of one side of a row; `0` when the row has no line there. -/
def sideLine (rightSide : Bool) (row : CompareRow) : Nat :=
  if rightSide then row.rightLine else row.leftLine

/-- `FirstPatchLineNumber`, on the rows of the range. -/
def firstPatchLineNumber (range : List CompareRow) (rightSide : Bool) : Nat :=
  let participates (row : CompareRow) : Bool :=
    if rightSide then
      row.kind == .unchanged || row.kind == .added || row.kind == .modified
    else row.kind == .unchanged || row.kind == .deleted || row.kind == .modified
  ((range.find? fun row => participates row && sideLine rightSide row > 0).map
    (sideLine rightSide)).getD 1

/-- `PrecedingSideLine`, on the rows before the range. -/
def precedingSideLine (before : List CompareRow) (rightSide : Bool) : Nat :=
  ((before.reverse.find? fun row => sideLine rightSide row > 0).map (sideLine rightSide)).getD 0

/-- `last_left_line` and `last_right_line`. -/
def lastSideLine (rows : List CompareRow) (rightSide : Bool) : Nat :=
  rows.foldl (fun last row => max last (sideLine rightSide row)) 0

/-! ### The body of a hunk -/

structure PatchBodyLine where
  tag : HunkTag := .context
  text : Line
  noNewlineAfter : Bool := false

/-- `left_no_newline` and `right_no_newline`: this is a side's last line, and the side
lacks its final newline. -/
def noNewlineOn (model : CompareModel) (rightSide : Bool) (row : CompareRow) : Bool :=
  sideLine rightSide row == lastSideLine model.rows rightSide &&
    if rightSide then model.rightFinalNewlineMissing else model.leftFinalNewlineMissing

/-- `left_is_phantom` and `right_is_phantom`: the empty element after a final newline. -/
def phantomOn (model : CompareModel) (rightSide : Bool) (row : CompareRow) : Bool :=
  sideLine rightSide row == lastSideLine model.rows rightSide &&
    !if rightSide then model.rightFinalNewlineMissing else model.leftFinalNewlineMissing

/-- `adds_after`: the range still emits right-side content. -/
def addsAfter (rows : List CompareRow) : Bool :=
  rows.any fun row => row.kind == .added || row.kind == .modified

/-- `deletes_after`: the range still emits left-side content. -/
def deletesAfter (rows : List CompareRow) : Bool :=
  rows.any fun row => row.kind == .deleted || row.kind == .modified

/-- The body lines of an unchanged row; `rest` is what follows it in the range. -/
def unchangedLines (model : CompareModel) (row : CompareRow) (rest : List CompareRow) :
    List PatchBodyLine :=
  let contextText := if row.leftText.isEmpty then row.rightText else row.leftText
  let leftPhantom := phantomOn model false row
  let rightPhantom := phantomOn model true row
  let leftNoNewline := noNewlineOn model false row
  let rightNoNewline := noNewlineOn model true row
  if contextText.isEmpty && leftPhantom && rightPhantom then []
  else if contextText.isEmpty && leftPhantom then
    [{ tag := .add, text := row.rightText, noNewlineAfter := rightNoNewline }]
  else if contextText.isEmpty && rightPhantom then
    [{ tag := .remove, text := row.leftText, noNewlineAfter := leftNoNewline }]
  else if leftNoNewline && addsAfter rest then
    [{ tag := .remove, text := contextText, noNewlineAfter := true },
     { tag := .add, text := contextText, noNewlineAfter := rightNoNewline }]
  else if rightNoNewline && deletesAfter rest then
    [{ tag := .remove, text := contextText, noNewlineAfter := false },
     { tag := .add, text := contextText, noNewlineAfter := true }]
  else [{ text := contextText, noNewlineAfter := leftNoNewline }]

/-- The body lines of one row. -/
def rowLines (model : CompareModel) (row : CompareRow) (rest : List CompareRow) :
    List PatchBodyLine :=
  let leftPhantom := row.leftText.isEmpty && phantomOn model false row
  let rightPhantom := row.rightText.isEmpty && phantomOn model true row
  let removed : List PatchBodyLine :=
    if leftPhantom then []
    else [{ tag := .remove, text := row.leftText, noNewlineAfter := noNewlineOn model false row }]
  let added : List PatchBodyLine :=
    if rightPhantom then []
    else [{ tag := .add, text := row.rightText, noNewlineAfter := noNewlineOn model true row }]
  match row.kind with
  | .unchanged => unchangedLines model row rest
  | .deleted => removed
  | .added => added
  | .modified => removed ++ added

/-- The body lines of the range. -/
def bodyLines (model : CompareModel) : List CompareRow → List PatchBodyLine
  | [] => []
  | row :: rest => rowLines model row rest ++ bodyLines model rest

/-- A body line as it is printed: a line of a CRLF side gets its `'\r'` back. -/
def printedLine (model : CompareModel) (line : PatchBodyLine) : HunkLine UInt8 :=
  let sideCrlf := if line.tag = .add then model.rightUsesCrlf else model.leftUsesCrlf
  { tag := line.tag
    line :=
      { text := line.text ++ if sideCrlf && !line.noNewlineAfter then [cr] else []
        newline := !line.noNewlineAfter } }

/-- The header of the hunk for the body `lines`; `before` and `range` are the rows before
and in the row range. -/
def patchHunk (model : CompareModel) (isNewFile isDeletedFile : Bool)
    (before range : List CompareRow) (lines : List PatchBodyLine) : Hunk UInt8 :=
  let oldCount := lines.countP fun line => line.tag == .context || line.tag == .remove
  let newCount := lines.countP fun line => line.tag == .context || line.tag == .add
  let oldRangeCount := if isNewFile then 0 else oldCount
  let newRangeCount := if isDeletedFile then 0 else newCount
  let oldRangeStart :=
    if isNewFile then 0
    else if oldRangeCount = 0 then precedingSideLine before false
    else firstPatchLineNumber range false
  let newRangeStart :=
    if isDeletedFile then 0
    else if isNewFile then 1
    else if oldRangeCount = 0 then oldRangeStart + 1
    else if newRangeCount = 0 then oldRangeStart - 1
    else oldRangeStart
  { oldStart := oldRangeStart, oldCount := oldRangeCount
    newStart := newRangeStart, newCount := newRangeCount
    body := lines.map (printedLine model) }

/-- A patch that creates or removes the file has only the created or removed side. -/
def wholeFileLines (isNewFile isDeletedFile : Bool) (lines : List PatchBodyLine) :
    List PatchBodyLine :=
  if isNewFile then lines.filter fun line => line.tag == .add
  else if isDeletedFile then lines.filter fun line => line.tag == .remove
  else lines

/-- `BuildUnifiedPatch`. `has_change` is set where a removed or an added line is
written. -/
def buildUnifiedPatch (model : CompareModel) (path : List UInt8) (startRow endRow : Nat)
    (options : PatchGenerationOptions) : Option UnifiedPatch :=
  if model.rows.isEmpty ∨ startRow ≥ model.rows.length then none
  else
    let endRow := expandRangeEnd model.rows (min endRow (model.rows.length - 1)) options.contextLines
    let startRow := expandRangeStart model.rows startRow options.contextLines
    let range := slice model.rows startRow (endRow + 1)
    let isNewFile := model.leftAbsent && !model.rightAbsent
    let isDeletedFile := !model.leftAbsent && model.rightAbsent
    let lines := bodyLines model range
    if !lines.any (fun line => line.tag != .context) then none
    else
      let patch : UnifiedPatch :=
        { path, isNewFile, isDeletedFile
          hunk := patchHunk model isNewFile isDeletedFile (model.rows.take startRow) range
            (wholeFileLines isNewFile isDeletedFile lines) }
      if fitsBudget options.maxPatchBytes patch.headerText.length patch.hunk.body then some patch
      else none

/-- `GenerateComparePatch`. A negative hunk index is out of range like any other. -/
def generateComparePatch (model : CompareModel) (path : List UInt8) (hunkIndex : Nat)
    (options : PatchGenerationOptions := {}) : Option UnifiedPatch :=
  match model.hunks[hunkIndex]? with
  | none => none
  | some hunk => buildUnifiedPatch model path hunk.startRow hunk.endRow options

/-- `GenerateComparePatchForRows`. -/
def generateComparePatchForRows (model : CompareModel) (path : List UInt8)
    (firstModelRow lastModelRow : Nat) (options : PatchGenerationOptions := {}) :
    Option UnifiedPatch :=
  if firstModelRow > lastModelRow ∨ model.rows.isEmpty then none
  else
    let lastModelRow := min lastModelRow (model.rows.length - 1)
    buildUnifiedPatch model path (min firstModelRow lastModelRow) lastModelRow options

/-! ### Change spans -/

/-- `PatchChangeSpan`. -/
structure PatchChangeSpan where
  headFirst : Nat := 1
  headLast : Nat := 0
  worktreeFirst : Nat := 1
  worktreeLast : Nat := 0
  coversEnd : Bool := false

/-- `SideRangeForRows`. -/
def sideRangeForRows (rows : List CompareRow) (firstRow lastRow : Nat) (rightSide : Bool) :
    Nat × Nat :=
  let previous := precedingSideLine (rows.take firstRow) rightSide
  let last := (slice rows firstRow (lastRow + 1)).foldl
    (fun last row => if sideLine rightSide row > 0 then max last (sideLine rightSide row) else last)
    previous
  (previous + 1, last)

/-- `clamp_to_real`: the phantom is not a line. -/
def clampToReal (range : Nat × Nat) (lastLine : Nat) (phantom : Bool) : Nat × Nat :=
  let real := lastLine - (if phantom && lastLine > 0 then 1 else 0)
  (min range.1 (real + 1), min range.2 real)

/-- `ChangeSpanForRows`. -/
def changeSpanForRows (model : CompareModel) (firstRow lastRow : Nat) : PatchChangeSpan :=
  if model.rows.isEmpty ∨ firstRow ≥ model.rows.length then {}
  else
    let lastRow := min lastRow (model.rows.length - 1)
    let head := clampToReal (sideRangeForRows model.rows firstRow lastRow false)
      (lastSideLine model.rows false) (!model.leftFinalNewlineMissing)
    let worktree := clampToReal (sideRangeForRows model.rows firstRow lastRow true)
      (lastSideLine model.rows true) (!model.rightFinalNewlineMissing)
    { headFirst := head.1, headLast := head.2
      worktreeFirst := worktree.1, worktreeLast := worktree.2
      coversEnd := lastRow + 1 ≥ model.rows.length }

/-! ### Staging -/

/-- `LineText`. -/
structure LineText where
  lines : List Line := []
  finalNewline : Bool := false

/-- The loop of `SplitLineText`; `line` is the line read so far. -/
def lineTextFrom (line : Line) : List UInt8 → List Line
  | [] => if line.isEmpty then [] else [line]
  | c :: rest => if c = lf then line :: lineTextFrom [] rest else lineTextFrom (line ++ [c]) rest

/-- `SplitLineText`: split at `'\n'` only. -/
def splitLineText (text : List UInt8) : LineText :=
  { lines := lineTextFrom [] text, finalNewline := text.getLast? == some lf }

/-- `JoinLineText`. -/
def joinLineText (finalNewline : Bool) : List Line → List UInt8
  | [] => []
  | [line] => line ++ if finalNewline then [lf] else []
  | line :: next :: rest => line ++ [lf] ++ joinLineText finalNewline (next :: rest)

/-- The right line after which an insertion point before the left line `first` lands: the
last surviving line before it. -/
def insertionPoint (diff : List CompareRow) (first : Nat) : Nat :=
  diff.foldl
    (fun after row =>
      if row.leftLine = 0 ∨ row.leftLine ≥ first then after
      else if row.kind = .unchanged ∧ row.rightLine > 0 then max after row.rightLine
      else after) 0

/-- The rows of the left lines `first … last`. -/
def coveredRows (diff : List CompareRow) (first last : Nat) : List CompareRow :=
  diff.filter fun row => row.leftLine > 0 && first ≤ row.leftLine && row.leftLine ≤ last

/-- `MapRangeThroughDiff`. -/
def mapRangeThroughDiff (diff : List CompareRow) (first last : Nat) : Option (Nat × Nat) :=
  if last + 1 = first then some (insertionPoint diff first + 1, insertionPoint diff first)
  else
    let covered := coveredRows diff first last
    if covered.any fun row => row.kind != .unchanged || row.rightLine == 0 then none
    else
      match covered.map CompareRow.rightLine with
      | [] => none
      | target :: rest =>
        let lo := rest.foldl min target
        let hi := rest.foldl max target
        if covered.length ≠ last - first + 1 ∨ hi - lo + 1 ≠ covered.length then none
        else some (lo, hi)

/-- `StagingPatchOutcome`. -/
structure StagingPatchOutcome where
  patch : Option UnifiedPatch := none
  alreadyApplied : Bool := false
  spanNotIntact : Bool := false

/-- The `desired` lines: the new lines spliced over the index lines `indexFirst … indexLast`. -/
def spliceDesired (index dst : List Line) (indexFirst indexLast dstFirst dstLast : Nat) :
    List Line :=
  index.take (indexFirst - 1) ++ slice dst (dstFirst - 1) dstLast ++ index.drop indexLast

/-- The first and the last changed row. -/
def changedRowBounds (rows : List CompareRow) : Option (Nat × Nat) :=
  match rows.findIdx? (fun row => row.kind != .unchanged) with
  | none => none
  | some first => some (first, rows.length - 1 -
      (rows.reverse.findIdx fun row => row.kind != .unchanged))

section Staging

variable {K : Type} (A : Doubles K)

/-- `BuildStagingPatch`. -/
def buildStagingPatch (headText currentIndexText worktreeText : List UInt8)
    (span : PatchChangeSpan) (stage : Bool) (path : List UInt8) (headExists : Bool := true)
    (indexExists : Bool := true) (worktreeExists : Bool := true)
    (options : PatchGenerationOptions := {}) : StagingPatchOutcome :=
  let head := splitLineText headText
  let index := splitLineText currentIndexText
  let worktree := splitLineText worktreeText
  let src := if stage then head else worktree
  let dst := if stage then worktree else head
  let srcFirst := if stage then span.headFirst else span.worktreeFirst
  let srcLast := if stage then span.headLast else span.worktreeLast
  let dstFirst := if stage then span.worktreeFirst else span.headFirst
  let dstLast := if stage then span.worktreeLast else span.headLast
  if srcLast + 1 < srcFirst ∨ srcLast > src.lines.length ∨ dstLast + 1 < dstFirst ∨
      dstLast > dst.lines.length then { spanNotIntact := true }
  else
    let srcJoined := joinLineText src.finalNewline src.lines
    let indexJoined := joinLineText index.finalNewline index.lines
    match mapRangeThroughDiff (buildCompareModel A srcJoined indexJoined).rows srcFirst srcLast with
    | none => { spanNotIntact := true }
    | some (indexFirst, indexLast) =>
      let desired := spliceDesired index.lines dst.lines indexFirst indexLast dstFirst dstLast
      let desiredFinalNewline :=
        if span.coversEnd then (if desired.isEmpty then false else dst.finalNewline)
        else index.finalNewline
      let desiredJoined := joinLineText desiredFinalNewline desired
      if desiredJoined = indexJoined then { alreadyApplied := true }
      else
        let existence : CompareBuildOptions :=
          { leftExists := some indexExists
            rightExists := some (!desiredJoined.isEmpty ||
              if stage then worktreeExists else headExists) }
        let indexToDesired := buildCompareModel A indexJoined desiredJoined existence
        match changedRowBounds indexToDesired.rows with
        | none => { alreadyApplied := true }
        | some (firstChange, lastChange) =>
          { patch := generateComparePatchForRows indexToDesired path firstChange lastChange options }

end Staging

end Microide.Project
