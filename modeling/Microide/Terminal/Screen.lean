/-
Writing glyphs on the screen.

A glyph is written at the cursor, in the pen's style and with its link. At the right margin the
wrap waits for the next glyph. A wide glyph takes two cells, and a write that overwrites one half
of it blanks the other. Runs of printable ASCII are written a row at a time.

The run writer is `putAsciiRun`, and one glyph's writer `putGlyph`.
-/

import Microide.Terminal.Pen
import Microide.Text.CellWidth

namespace Microide.Terminal

open Text

/-! ### The screen -/

/-- `TerminalCharsets`. -/
structure TerminalCharsets where
  g0DecGraphics : Bool := false
  g1DecGraphics : Bool := false
  shiftedOut : Bool := false

def TerminalCharsets.decGraphicsActive (charsets : TerminalCharsets) : Bool :=
  if charsets.shiftedOut then charsets.g1DecGraphics else charsets.g0DecGraphics

/-- What writing glyphs reads and changes of a `TerminalSession`. Of the last glyph the bytes in
use are kept. -/
structure Screen where
  lines : List TerminalLine := [{}]
  cursorRow : Nat := 0
  cursorColumn : Nat := 0
  rows : Nat := 24
  columns : Nat := 80
  useAlternateScreen : Bool := false
  autoWrapMode : Bool := true
  insertMode : Bool := false
  charsets : TerminalCharsets := {}
  scrollRegionTop : Nat := 0
  scrollRegionBottom : Nat := 23
  currentStyle : Pen := .reset
  currentLink : UInt16 := 0
  lastGlyph : List UInt8 := []

/-- `MakeUtf8TerminalCell`, and `MakeAsciiTerminalCell` of a byte. -/
def makeUtf8TerminalCell (glyph : List UInt8) (style : TerminalStyle) : TerminalCell :=
  { glyph := Glyph.ofBytes glyph, style := style }

/-- A blank in a style. -/
def blankCell (style : TerminalStyle) : TerminalCell := makeUtf8TerminalCell [0x20] style

/-! ### Rows -/

/-- `lines_.resize` to more lines. -/
def growLines (lines : List TerminalLine) (count : Nat) : List TerminalLine :=
  lines ++ List.replicate (count - lines.length) ({} : TerminalLine)

namespace Screen

/-- `EnsureCursorLineExistsLocked`. -/
def ensureCursorLineExists (screen : Screen) : Screen :=
  { screen with lines := growLines screen.lines (screen.cursorRow + 1) }

/-- `lines_[cursor_row_]` is changed. -/
def modifyCursorLine (screen : Screen) (change : TerminalLine → TerminalLine) : Screen :=
  { screen with lines := screen.lines.modify screen.cursorRow change }

/-- `PrimaryScreenTopLocked`. -/
def primaryScreenTop (screen : Screen) : Nat :=
  if screen.useAlternateScreen then 0 else screen.lines.length - max 1 screen.rows

def activeScrollRegionTop (screen : Screen) : Nat :=
  if screen.rows = 0 then 0 else min screen.scrollRegionTop (screen.rows - 1)

def activeScrollRegionBottom (screen : Screen) : Nat :=
  if screen.rows = 0 then 0
  else max screen.activeScrollRegionTop (min screen.scrollRegionBottom (screen.rows - 1))

def hasCustomScrollRegion (screen : Screen) : Bool :=
  screen.rows != 0 &&
    (screen.activeScrollRegionTop != 0 || screen.activeScrollRegionBottom != screen.rows - 1)

/-- `BlankLineToCurrentBackgroundLocked`. -/
def blankLineToCurrentBackground (screen : Screen) (line : TerminalLine) : TerminalLine :=
  let style := screen.currentStyle.val
  if (style.background.isNone && !style.has CellAttr.kInverse) || screen.columns == 0 then {}
  else { line with cells := List.replicate screen.columns (blankCell style) }

/-- `ScrollRegionUpLocked`, with the rotation of `ResolveScrollRotation`. -/
def scrollRegionUp (screen : Screen) (top bottom count : Nat) : Screen :=
  if screen.rows = 0 then screen
  else
    let terminalRows := max 1 screen.rows
    let screenTop := if screen.useAlternateScreen then 0 else screen.primaryScreenTop
    let lines := growLines screen.lines (screenTop + terminalRows)
    let relTop := min top (terminalRows - 1)
    let relBottom := max relTop (min bottom (terminalRows - 1))
    let shift := min count (relBottom - relTop + 1)
    let first := relTop + screenTop
    let last := relBottom + screenTop
    let region := (lines.take (last + 1)).drop first
    { screen with
      lines := lines.take first ++ region.drop shift ++
        (region.take shift).map screen.blankLineToCurrentBackground ++ lines.drop (last + 1) }

/-- The cursor is at the start of its row, which is the continuation of the row before it or not. -/
def startRow (screen : Screen) (wrappedFromPrevious : Bool) : Screen :=
  ({ screen with cursorColumn := 0 }.ensureCursorLineExists).modifyCursorLine fun line =>
    { line with wrappedFromPrevious := wrappedFromPrevious }

/-- The last part of `AdvanceCursorRowLocked`: one row down, with no region to scroll. -/
def advanceToNextRow (screen : Screen) (wrappedFromPrevious : Bool) : Screen :=
  let next := { screen with cursorRow := screen.cursorRow + 1, cursorColumn := 0 }
  if screen.lines.length ≤ next.cursorRow ∨ wrappedFromPrevious = true then
    next.startRow wrappedFromPrevious
  else next.ensureCursorLineExists

/-- `AdvanceCursorRowLocked`. -/
def advanceCursorRow (screen : Screen) (wrappedFromPrevious : Bool) : Screen :=
  let terminalRows := max 1 screen.rows
  if screen.useAlternateScreen then
    let screen := { screen with lines := growLines screen.lines terminalRows }
    let top := screen.activeScrollRegionTop
    let bottom := screen.activeScrollRegionBottom
    if top ≤ screen.cursorRow ∧ screen.cursorRow ≤ bottom then
      if screen.cursorRow = bottom then
        (screen.scrollRegionUp top bottom 1).startRow wrappedFromPrevious
      else { screen with cursorRow := screen.cursorRow + 1 }.startRow wrappedFromPrevious
    else if screen.cursorRow + 1 ≥ terminalRows then
      { screen with cursorColumn := 0 }.ensureCursorLineExists
    else screen.advanceToNextRow wrappedFromPrevious
  else if screen.hasCustomScrollRegion then
    let screenTop := screen.primaryScreenTop
    let relTop := screen.activeScrollRegionTop
    let relBottom := screen.activeScrollRegionBottom
    if screenTop + relTop ≤ screen.cursorRow ∧ screen.cursorRow ≤ screenTop + relBottom then
      if screen.cursorRow = screenTop + relBottom then
        (screen.scrollRegionUp relTop relBottom 1).startRow wrappedFromPrevious
      else { screen with cursorRow := screen.cursorRow + 1 }.startRow wrappedFromPrevious
    else if screen.cursorRow > screenTop + relBottom ∧
        screen.cursorRow + 1 ≥ screenTop + terminalRows then
      { screen with cursorColumn := 0 }.ensureCursorLineExists
    else screen.advanceToNextRow wrappedFromPrevious
  else screen.advanceToNextRow wrappedFromPrevious

end Screen

/-! ### Cells -/

abbrev Cells := List TerminalCell

/-- `ResizeLineLocked`. -/
def resizeLine (cells : Cells) (size : Nat) : Cells :=
  cells ++ List.replicate (size - cells.length) (blankCell {})

/-- A cell of a row, or the blank that a row that grows has there. -/
def cellAt (cells : Cells) (column : Nat) : TerminalCell := cells.getD column (blankCell {})

/-- `BreakWideGlyphPairForWriteLocked`. -/
def breakWideGlyphPairForWrite (cells : Cells) (start advance : Nat) (style : TerminalStyle) : Cells :=
  if advance = 0 ∨ cells.length ≤ start then cells
  else
    let left :=
      if (cellAt cells start).style.wideTrailing ∧ 0 < start then
        cells.set (start - 1) (blankCell style)
      else cells
    let last := start + advance - 1
    if last + 1 < left.length ∧ (cellAt left (last + 1)).style.wideTrailing then
      left.set (last + 1) (blankCell style)
    else left

/-- `InsertBlankCells`. -/
def insertBlankCells (cells : Cells) (at_ count columns : Nat) (style : TerminalStyle) : Cells :=
  if cells.length ≤ at_ ∨ count = 0 then cells
  else
    let split :=
      if (cellAt cells at_).style.wideTrailing ∧ 0 < at_ then
        (cells.set (at_ - 1) (blankCell style)).set at_ (blankCell style)
      else cells
    let opened := split.take at_ ++
      List.replicate (if columns > 0 then min count columns else count) (blankCell style) ++
        split.drop at_
    if columns > 0 ∧ columns < opened.length then
      let whole :=
        if (cellAt opened columns).style.wideTrailing then
          opened.set (columns - 1) (blankCell style)
        else opened
      whole.take columns
    else opened

/-! ### Glyphs -/

/-- `DecSpecialGraphicsGlyph`'s table, from `0x5F` on. -/
def kGlyphs : List (List UInt8) :=
  [[0xC2, 0xA0], [0xE2, 0x97, 0x86], [0xE2, 0x96, 0x92], [0xE2, 0x90, 0x89],
    [0xE2, 0x90, 0x8C], [0xE2, 0x90, 0x8D], [0xE2, 0x90, 0x8A], [0xC2, 0xB0],
    [0xC2, 0xB1], [0xE2, 0x90, 0xA4], [0xE2, 0x90, 0x8B], [0xE2, 0x94, 0x98],
    [0xE2, 0x94, 0x90], [0xE2, 0x94, 0x8C], [0xE2, 0x94, 0x94], [0xE2, 0x94, 0xBC],
    [0xE2, 0x8E, 0xBA], [0xE2, 0x8E, 0xBB], [0xE2, 0x94, 0x80], [0xE2, 0x8E, 0xBC],
    [0xE2, 0x8E, 0xBD], [0xE2, 0x94, 0x9C], [0xE2, 0x94, 0xA4], [0xE2, 0x94, 0xB4],
    [0xE2, 0x94, 0xAC], [0xE2, 0x94, 0x82], [0xE2, 0x89, 0xA4], [0xE2, 0x89, 0xA5],
    [0xCF, 0x80], [0xE2, 0x89, 0xA0], [0xC2, 0xA3], [0xC2, 0xB7]]

/-- `DecSpecialGraphicsGlyph`: empty for a byte it leaves alone. -/
def decSpecialGraphicsGlyph (byte : UInt8) : List UInt8 :=
  if 0x5F ≤ byte ∧ byte < 0x7F then kGlyphs.getD (byte.toNat - 0x5F) [] else []

def kUtf8ReplacementChar : List UInt8 := [0xEF, 0xBF, 0xBD]

/-- The bytes that are written for a glyph, and how many columns they take. -/
def effectiveGlyph (charsets : TerminalCharsets) (glyph : List UInt8) : List UInt8 × Nat :=
  if glyph.length = 1 ∧ glyph.headD 0 < 0x80 then
    let mapped := decSpecialGraphicsGlyph (glyph.headD 0)
    (if charsets.decGraphicsActive ∧ mapped ≠ [] then mapped else glyph, 1)
  else
    let codepoint := decodeUtf8Codepoint glyph
    (if codepoint = 0xFFFD then kUtf8ReplacementChar else glyph, codepointDisplayWidth codepoint)

/-- A mark of no width joins the glyph in a cell, if it fits. -/
def TerminalCell.join (cell : TerminalCell) (mark : List UInt8) : TerminalCell :=
  let bytes := cell.glyph.val
  if 0 < bytes.length ∧ bytes.length + mark.length ≤ 5 then
    { cell with glyph := Glyph.ofBytes (bytes ++ mark) }
  else cell

namespace Screen

/-- A written cell: the pen's style and link. -/
def glyphCell (screen : Screen) (glyph : List UInt8) : TerminalCell :=
  { makeUtf8TerminalCell glyph screen.currentStyle.val with link := screen.currentLink }

/-- The second half of a wide glyph. -/
def spacerCell (screen : Screen) : TerminalCell :=
  { style := screen.currentStyle.val.set CellAttr.kWideTrailing true, link := screen.currentLink }

/-- The cells of the cursor's row are changed. -/
def modifyCells (screen : Screen) (change : Cells → Cells) : Screen :=
  screen.modifyCursorLine fun line => { line with cells := change line.cells }

/-- The part of `PutGlyphLocked` for marks of no width. -/
def putMark (screen : Screen) (mark : List UInt8) : Screen :=
  if screen.cursorColumn = 0 then screen
  else
    screen.ensureCursorLineExists.modifyCells fun cells =>
      let before := screen.cursorColumn - 1
      let base :=
        if 0 < before ∧ before < cells.length ∧ (cellAt cells before).style.wideTrailing then
          before - 1
        else before
      cells.modify base fun cell => cell.join mark

/-- The part of `PutGlyphLocked` for a glyph that does not fit, without autowrap: it overwrites the
last cell. -/
def putOverLast (screen : Screen) (glyph : List UInt8) : Screen :=
  let screen := { screen with cursorColumn := screen.columns - 1 }.ensureCursorLineExists
  screen.modifyCells fun cells =>
    let resized := resizeLine cells (screen.cursorColumn + 1)
    (breakWideGlyphPairForWrite resized screen.cursorColumn 1 screen.currentStyle.val).set
      screen.cursorColumn (screen.glyphCell glyph)

/-- The part of `PutGlyphLocked` for a glyph that fits on the row. -/
def placeGlyph (screen : Screen) (glyph : List UInt8) (advance : Nat) : Screen :=
  let column := screen.cursorColumn
  let style := screen.currentStyle.val
  let placed := screen.ensureCursorLineExists.modifyCells fun cells =>
    let opened := if screen.insertMode then insertBlankCells cells column advance screen.columns style
      else cells
    let broken := breakWideGlyphPairForWrite (resizeLine opened (column + advance)) column advance style
    let lead := broken.set column (screen.glyphCell glyph)
    if advance = 2 then lead.set (column + 1) screen.spacerCell else lead
  { placed with
    lastGlyph := if glyph.length ≤ 4 then glyph else screen.lastGlyph
    cursorColumn := column + advance }

/-- `PutGlyphLocked`. -/
def putGlyph (screen : Screen) (glyph : List UInt8) : Screen :=
  let effective := effectiveGlyph screen.charsets glyph
  if effective.2 = 0 then screen.putMark effective.1
  else
    let width := if effective.2 = 2 then 2 else 1
    let advance := if screen.columns > 0 then min width screen.columns else width
    if screen.columns > 0 ∧ screen.cursorColumn + advance > screen.columns then
      if screen.autoWrapMode then (screen.advanceCursorRow true).placeGlyph effective.1 advance
      else screen.putOverLast effective.1
    else screen.placeGlyph effective.1 advance

end Screen

/-! ### Runs -/

def isPlainAscii (byte : UInt8) : Bool := 0x20 ≤ byte && byte < 0x7F

/-- Printable bytes. -/
abbrev PlainText := { bytes : List UInt8 // ∀ byte ∈ bytes, isPlainAscii byte = true }

/-- The loop of `PutAsciiRunLocked` over its cells. -/
def writeCells (cell : UInt8 → TerminalCell) : Cells → Nat → List UInt8 → Cells
  | cells, _, [] => cells
  | cells, column, byte :: bytes =>
    writeCells cell (cells.set column (cell byte)) (column + 1) bytes

/-- The row behind a run that `PutAsciiRunLocked` writes. -/
def writeRow (cell : UInt8 → TerminalCell) (style : TerminalStyle) (column : Nat) (bytes : List UInt8)
    (cells : Cells) : Cells :=
  let resized := resizeLine cells (column + bytes.length)
  writeCells cell (breakWideGlyphPairForWrite resized column bytes.length style) column bytes

namespace Screen

/-- `PutAsciiRunLocked` of the bytes that it takes. -/
def writeAscii (screen : Screen) (bytes : List UInt8) : Screen :=
  let column := screen.cursorColumn
  let written := screen.ensureCursorLineExists.modifyCells
    (writeRow (fun byte => screen.glyphCell [byte]) screen.currentStyle.val column bytes)
  { written with
    cursorColumn := column + bytes.length
    lastGlyph := [bytes.getLastD 0] }

/-- `PutAsciiRunLocked`: the number of bytes it took, and the screen behind them. -/
def putAsciiRun (screen : Screen) (run : List UInt8) : Nat × Screen :=
  let length := (run.takeWhile isPlainAscii).length
  if length = 0 ∨ screen.insertMode = true ∨ screen.charsets.decGraphicsActive = true then
    (0, screen)
  else if screen.columns > 0 then
    if screen.cursorColumn ≥ screen.columns then (0, screen)
    else
      let length := min length (screen.columns - screen.cursorColumn)
      (length, screen.writeAscii (run.take length))
  else (length, screen.writeAscii (run.take length))

/-- The loop of `AppendOutputLocked` over printable bytes, at most `rounds` of its turns: what the
run writer declines is written a byte at a time. -/
def appendAsciiFrom : Nat → Screen → List UInt8 → Screen
  | 0, screen, _ => screen
  | _ + 1, screen, [] => screen
  | rounds + 1, screen, byte :: rest =>
    let put := screen.putAsciiRun (byte :: rest)
    if 0 < put.1 then appendAsciiFrom rounds put.2 ((byte :: rest).drop put.1)
    else appendAsciiFrom rounds (screen.putGlyph [byte]) rest

/-- `AppendOutputLocked` of printable bytes. -/
def appendAscii (screen : Screen) (data : PlainText) : Screen :=
  appendAsciiFrom data.val.length screen data.val

/-- `PutGlyphLocked` of one byte after the other. -/
def putEach (screen : Screen) (bytes : List UInt8) : Screen :=
  bytes.foldl (fun screen byte => screen.putGlyph [byte]) screen

/-- The loop of REP, at most `rounds` of its turns. -/
def repeatAsciiFrom (byte : UInt8) (rowLength : Nat) : Nat → Nat → Screen → Screen
  | 0, _, screen => screen
  | rounds + 1, left, screen =>
    if 0 < left then
      let put := screen.putAsciiRun (List.replicate (min left rowLength) byte)
      if put.1 = 0 then repeatAsciiFrom byte rowLength rounds (left - 1) (screen.putGlyph [byte])
      else repeatAsciiFrom byte rowLength rounds (left - put.1) put.2
    else screen

/-- A glyph is written some times. -/
def putGlyphTimes (screen : Screen) (glyph : List UInt8) : Nat → Screen
  | 0 => screen
  | count + 1 => (screen.putGlyph glyph).putGlyphTimes glyph count

/-- How often REP repeats the last glyph. -/
def repeatCount (screen : Screen) (param : Nat) : Nat :=
  min (max 1 param) (max 1 screen.rows * max 1 screen.columns)

/-- `CSI Ps b`, REP. -/
def repeatLastGlyph (screen : Screen) (param : Nat) : Screen :=
  let glyph := screen.lastGlyph
  if glyph.length = 0 then screen
  else
    let count := screen.repeatCount param
    if glyph.length = 1 ∧ isPlainAscii (glyph.headD 0) = true ∧ screen.columns > 0 then
      repeatAsciiFrom (glyph.headD 0) (min count screen.columns) count count screen
    else screen.putGlyphTimes glyph count

end Screen

end Microide.Terminal
