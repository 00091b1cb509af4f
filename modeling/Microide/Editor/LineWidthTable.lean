/-
The table of line widths.

The layout cache keeps the packed width of every line, the widest line of each block of 512, and
the widest of the document. An edit that is reported splices the table and keeps, grows, adopts or
drops the maxima; a change of the tab size may park the table until the size comes back.

The table is `LineWidthCache`, and its operations are `maxVisualColumns`,
`updateVisualColumnCacheAfterEdit`, `parkLineWidthsForTabSizeChange` and
`clearVisibleLineAndMaxColumns`.
-/

import Microide.Editor.LineFacts
import Microide.Lib.Peaks

namespace Microide.Editor

open Lib Text

/-- An unsigned 32-bit integer, of a `size_t`. -/
def toU32 (n : Nat) : Nat := n % 2 ^ 32

/-- `TextLayoutCache::VisualColumnBlockMax`. -/
structure VisualColumnBlockMax where
  columns : Nat := 0
  line : Nat := 0

def kVisualColumnBlockLines : Nat := 512

/-- `TextLayoutCache::ParkedLineWidths`. -/
structure ParkedLineWidths where
  widths : Option (List PackedLineWidth) := none
  tabSize : Nat := 0
  contentRevision : Nat := 0

/-- The members of `TextLayoutCache` about line widths. -/
structure LineWidthCache where
  widths : List PackedLineWidth := []
  blockMax : List VisualColumnBlockMax := []
  maxColumns : Option Nat := none
  maxLineIndex : Option Nat := none
  tabSize : Nat := 0
  contentRevision : Nat := 0
  parked : ParkedLineWidths := {}
  parkingArmed : Bool := false

/-- `InlineLineSplice`. -/
structure InlineLineSplice where
  insertedText : Line := []
  valid : Bool := false

/-- The width of a line that the table has. -/
def columnsAt (widths : List PackedLineWidth) (index : Nat) : Nat :=
  (widths.getD index {}).visualColumns

/-- The widths of some lines of the table. -/
def columnsIn (widths : List PackedLineWidth) (start stop : Nat) : List Nat :=
  ((widths.take stop).drop start).map PackedLineWidth.visualColumns

/-! ### Blocks -/

/-- `VisualColumnBlockCount`. -/
def visualColumnBlockCount (widths : List PackedLineWidth) : Nat :=
  (widths.length + kVisualColumnBlockLines - 1) / kVisualColumnBlockLines

/-- The scan of a block for its widest line, the last one on a tie. -/
def scanBlock : VisualColumnBlockMax → Nat → List Nat → VisualColumnBlockMax
  | block, _, [] => block
  | block, index, columns :: rest =>
    scanBlock (if block.columns ≤ columns then ⟨toU32 columns, toU32 index⟩ else block) (index + 1) rest

def blockStart (blockIndex : Nat) : Nat := blockIndex * kVisualColumnBlockLines

def blockEnd (widths : List PackedLineWidth) (blockIndex : Nat) : Nat :=
  min (blockStart blockIndex + kVisualColumnBlockLines) widths.length

def scanWholeBlock (widths : List PackedLineWidth) (blockIndex : Nat) : VisualColumnBlockMax :=
  scanBlock {} (blockStart blockIndex)
    (columnsIn widths (blockStart blockIndex) (blockEnd widths blockIndex))

/-- `RebuildVisualColumnBlockMaxima`. -/
def rebuildVisualColumnBlockMaxima (widths : List PackedLineWidth) : List VisualColumnBlockMax :=
  (List.range (visualColumnBlockCount widths)).map (scanWholeBlock widths)

/-- The widest of some lines from `index` on, the last one on a tie. -/
def widestFrom (index : Nat) (columns : List Nat) : Nat × Nat :=
  bestFrom (fun value best => decide (best ≤ value)) (0, index) index columns

/-- A turn of the loop of `RefreshVisualColumnBlocksFor`. -/
def refreshBlock (widths : List PackedLineWidth) (firstLine lastLine blockIndex : Nat)
    (block : VisualColumnBlockMax) : VisualColumnBlockMax :=
  let touchedBegin := max (blockStart blockIndex) firstLine
  let touchedEnd := min (blockEnd widths blockIndex) (lastLine + 1)
  let widest := widestFrom touchedBegin (columnsIn widths touchedBegin touchedEnd)
  if block.columns ≤ widest.1 then ⟨toU32 widest.1, toU32 widest.2⟩
  else if block.line < touchedBegin ∨ touchedEnd ≤ block.line then block
  else scanWholeBlock widths blockIndex

/-- `RefreshVisualColumnBlocksFor`. -/
def refreshVisualColumnBlocksFor (widths : List PackedLineWidth) (blockMax : List VisualColumnBlockMax)
    (firstLine lastLine : Nat) : List VisualColumnBlockMax :=
  if widths = [] ∨ blockMax.length ≠ visualColumnBlockCount widths then []
  else if widths.length ≤ firstLine then blockMax
  else
    let lastLine := min lastLine (widths.length - 1)
    blockMax.mapIdx fun blockIndex block =>
      if firstLine / kVisualColumnBlockLines ≤ blockIndex ∧
          blockIndex ≤ lastLine / kVisualColumnBlockLines then
        refreshBlock widths firstLine lastLine blockIndex block
      else block

/-- The widest of the blocks, the last one on a tie. -/
def widestBlock (blockMax : List VisualColumnBlockMax) : Nat × Nat :=
  blockMax.foldl (fun best block => if best.1 ≤ block.columns then (block.columns, block.line) else best)
    (0, 0)

namespace LineWidthCache

/-! ### Queries -/

/-- `LineWidthsAreCurrent`. -/
def lineWidthsAreCurrent (cache : LineWidthCache) (linesSize tabSize contentRevision : Nat) : Bool :=
  cache.tabSize == tabSize && cache.contentRevision == contentRevision &&
    cache.widths.length == linesSize

/-- `LineFactsIfCurrent`. -/
def lineFactsIfCurrent (cache : LineWidthCache)
    (linesSize lineIndex tabSize contentRevision : Nat) : LineLayoutFacts :=
  if !cache.lineWidthsAreCurrent linesSize tabSize contentRevision ||
      decide (cache.widths.length ≤ lineIndex) then {}
  else (cache.widths.getD lineIndex {}).facts

/-- The table of a document: the parked one, where it is that of this content at this tab size. -/
def measuredWidths (cache : LineWidthCache) (lines : List Line) (tabSize contentRevision : Nat) :
    List PackedLineWidth :=
  match cache.parked.widths with
  | some widths =>
    if cache.parked.tabSize = tabSize ∧ cache.parked.contentRevision = contentRevision ∧
        widths.length = lines.length then widths
    else lines.map fun line => packLineWidth (measureLineFacts line tabSize)
  | none => lines.map fun line => packLineWidth (measureLineFacts line tabSize)

/-- The rebuild of `MaxVisualColumns`. -/
def rebuilt (cache : LineWidthCache) (lines : List Line) (tabSize contentRevision : Nat) :
    LineWidthCache :=
  let widths := cache.measuredWidths lines tabSize contentRevision
  { cache with
    widths := widths
    blockMax := rebuildVisualColumnBlockMaxima widths
    parked := {}
    parkingArmed := false }

/-- `MaxVisualColumns`. -/
def maxVisualColumns (cache : LineWidthCache) (lines : List Line) (tabSize contentRevision : Nat) :
    Nat × LineWidthCache :=
  if cache.maxColumns.isSome ∧ cache.tabSize = tabSize ∧ cache.contentRevision = contentRevision then
    (cache.maxColumns.getD 0, cache)
  else
    let current :=
      if cache.lineWidthsAreCurrent lines.length tabSize contentRevision then cache
      else cache.rebuilt lines tabSize contentRevision
    let blockMax :=
      if current.blockMax.length ≠ visualColumnBlockCount current.widths then
        rebuildVisualColumnBlockMaxima current.widths
      else current.blockMax
    let widest := widestBlock blockMax
    (widest.1,
      { current with
        blockMax := blockMax
        maxColumns := some widest.1
        maxLineIndex := some widest.2
        tabSize := tabSize
        contentRevision := contentRevision })

/-! ### Edits -/

/-- `ClearVisibleLineAndMaxColumns`. -/
def clearVisibleLineAndMaxColumns (cache : LineWidthCache) : LineWidthCache :=
  { parkingArmed := cache.parkingArmed }

/-- The entries of the lines an edit put in: derived from the spliced text where that is plain and
the line was, measured elsewhere. -/
def insertedColumns (cache : LineWidthCache) (startLine removedCount insertedCount : Nat)
    (lines : List Line) (tabSize : Nat) (splice : InlineLineSplice) : List PackedLineWidth :=
  if splice.valid = true ∧ removedCount = 1 ∧ insertedCount = 1 ∧ startLine < cache.widths.length ∧
      startLine < lines.length ∧ (cache.widths.getD startLine {}).facts.plainAscii = true ∧
      firstNonPlainAsciiByte splice.insertedText = splice.insertedText.length then
    [packLineWidth
      { visualColumns := (lines.getD startLine []).length, plainAscii := true, known := true }]
  else
    ((lines.drop startLine).take insertedCount).map fun line =>
      packLineWidth (measureLineFacts line tabSize)

/-- The widest line after an edit: it is adopted from the new lines or dropped where it was replaced,
and kept or grown elsewhere. -/
def updatedMax (cache : LineWidthCache) (start removedCount : Nat) (inserted : List Nat) :
    Option (Nat × Nat) :=
  let affectedEnd := start + removedCount
  match cache.maxColumns, cache.maxLineIndex with
  | some maxColumns, some maxLine =>
    if start ≤ maxLine ∧ maxLine < affectedEnd then
      let widest := widestFrom start inserted
      if inserted ≠ [] ∧ maxColumns ≤ widest.1 then some widest else none
    else
      let moved := if affectedEnd ≤ maxLine then maxLine + inserted.length - removedCount else maxLine
      some (bestFrom (fun value best => decide (best < value)) (maxColumns, moved) start inserted)
  | _, _ => none

/-- `UpdateVisualColumnCacheAfterEdit`. -/
def updateVisualColumnCacheAfterEdit (cache : LineWidthCache)
    (startLine removedCount insertedCount : Nat) (lines : List Line) (tabSize contentRevision : Nat)
    (splice : InlineLineSplice) : LineWidthCache :=
  if cache.tabSize ≠ tabSize ∨ lines.length + removedCount < insertedCount ∨
      cache.widths.length ≠ lines.length - insertedCount + removedCount then
    cache.clearVisibleLineAndMaxColumns
  else
    let inserted := cache.insertedColumns startLine removedCount insertedCount lines tabSize splice
    let start := min startLine cache.widths.length
    let eraseEnd := min (start + removedCount) cache.widths.length
    let widths := cache.widths.take start ++ inserted ++ cache.widths.drop eraseEnd
    let blockMax :=
      if removedCount = inserted.length ∧ eraseEnd = start + removedCount then
        if inserted = [] then cache.blockMax
        else refreshVisualColumnBlocksFor widths cache.blockMax start (start + inserted.length - 1)
      else []
    let widest := cache.updatedMax start removedCount (inserted.map PackedLineWidth.visualColumns)
    { cache with
      widths := widths
      blockMax := blockMax
      maxColumns := widest.map Prod.fst
      maxLineIndex := widest.map Prod.snd
      contentRevision := contentRevision }

/-! ### Parking -/

/-- `ParkLineWidthsForTabSizeChange`: an empty table never displaces a parked one. -/
def parkLineWidthsForTabSizeChange (cache : LineWidthCache) : LineWidthCache :=
  if !cache.parkingArmed then cache.clearVisibleLineAndMaxColumns
  else
    let parked : ParkedLineWidths :=
      if cache.widths ≠ [] ∧ cache.tabSize ≠ 0 then
        ⟨some cache.widths, cache.tabSize, cache.contentRevision⟩
      else cache.parked
    { cache.clearVisibleLineAndMaxColumns with parked := parked }

/-- `ArmLineWidthParking`. -/
def armLineWidthParking (cache : LineWidthCache) : LineWidthCache := { cache with parkingArmed := true }

end LineWidthCache

end Microide.Editor
