/-
The host terminal's wire model.

Encoders and decoders of a host terminal's frames, line pages and input batches, as
`TerminalHostWire.cpp` writes them. A frame says how the screen moved down since the previous
one, whether the client holds each line that scrolled past, what each screen row is, and the
signals that changed. `Fail` ends a decode: whatever latched a failure is never answered.

`InBounds` is what the wire promises of a frame: each section of it is a structure of its own,
and is what the decoder checks of bytes nobody vouches for.
-/

import Microide.Lib.Decoder
import Microide.Terminal.TerminalCell

namespace Microide.Terminal

open Lib Lib.Decoder

/-! ### Runs, glyphs and lines -/

def kMaxHostTerminalDimension : Nat := 4096
def kMaxHostTerminalLineCells : Nat := 65536
def kMaxHostTerminalTextBytes : Nat := 64 * 2 ^ 20
def kMaxHostOpenUrlBytes : Nat := 8192

/-! Bits of a run's style byte. The link is not a style bit: its id follows the colours. -/

def kHasForeground : Nat := 0
def kHasBackground : Nat := 1
def kHasLink : Nat := 2

/-- A stored colour is opaque. -/
def putRgba (color : Rgb) : List UInt8 := [color.r, color.g, color.b, 0xff]

/-- A cell colour drops the alpha it is made from. -/
def getRgba : Decoder Rgb := do
  let value ← le 4
  pure ⟨UInt8.ofNat value, UInt8.ofNat (value / 2 ^ 8), UInt8.ofNat (value / 2 ^ 16)⟩

/-- A run is one style and one link. -/
def putRunStyle (cell : TerminalCell) : List UInt8 :=
  putVarint cell.style.attrs.toNat ++
    ([UInt8.ofNat (packBits
      [cell.style.foreground.isSome, cell.style.background.isSome, cell.link != 0])] ++
    (cell.style.foreground.elim [] putRgba ++
    (cell.style.background.elim [] putRgba ++
    if cell.link = 0 then [] else putVarint cell.link.toNat)))

def getLink : Decoder UInt16 := do
  let link ← varint
  check (link ≠ 0 ∧ link ≤ 0xffff)
  pure (UInt16.ofNat link)

/-- The run's cell, without a glyph. -/
def getRunStyle : Decoder TerminalCell := do
  let attrs ← varint
  let colors ← le 1
  let foreground ← optional (colors.testBit kHasForeground) getRgba
  let background ← optional (colors.testBit kHasBackground) getRgba
  let link ← optional (colors.testBit kHasLink) getLink
  pure { style := ⟨foreground, background, UInt16.ofNat attrs⟩, link := link.getD 0 }

def sameRun (a b : TerminalCell) : Bool := a.link == b.link && a.style == b.style

/-- A printable ASCII byte stands for itself; anything else is a length below 0x20 and that
many bytes. -/
def putGlyph (cell : TerminalCell) : List UInt8 :=
  match cell.glyph.val with
  | [byte] => if 0x20 ≤ byte ∧ byte < 0x7f then [byte] else [1, byte]
  | glyph => UInt8.ofNat glyph.length :: glyph

def getByte : Decoder UInt8 := do
  let byte ← le 1
  pure (UInt8.ofNat byte)

def getGlyph : Decoder Glyph := do
  let lead ← le 1
  if 0x20 ≤ lead then pure (Glyph.ofBytes [UInt8.ofNat lead])
  else do
    check (lead ≤ 5)
    let glyph ← many getByte lead
    pure (Glyph.ofBytes glyph)

/-- The runs of at most `cells` cells. -/
def putRuns : Nat → List TerminalCell → List UInt8
  | cells + 1, first :: rest =>
      let run := first :: rest.takeWhile (sameRun · first)
      putVarint run.length ++ (putRunStyle first ++
        (run.flatMap putGlyph ++ putRuns cells (rest.dropWhile (sameRun · first))))
  | _, _ => []

/-- The `left` cells of a line that are not read yet, in at most `runs` runs. -/
def getRuns : Nat → Nat → Decoder (List TerminalCell)
  | 0, _ => pure []
  | runs + 1, left =>
      if left = 0 then pure []
      else do
        let run ← varint
        check (run ≠ 0 ∧ run ≤ left)
        let runCell ← getRunStyle
        let glyphs ← many getGlyph run
        let rest ← getRuns runs (left - run)
        pure (glyphs.map (fun glyph => { runCell with glyph }) ++ rest)

def encodeTerminalLine (line : TerminalLine) : List UInt8 :=
  putVarint (Nat.bit line.wrappedFromPrevious line.cells.length) ++
    putRuns line.cells.length line.cells

def getLine : Decoder TerminalLine := do
  let header ← varint
  let cells := header / 2
  check (cells ≤ kMaxHostTerminalLineCells)
  room cells
  let runs ← getRuns cells cells
  room 0
  pure ⟨runs, header.testBit 0⟩

def putLines (lines : List TerminalLine) : List UInt8 :=
  putVarint lines.length ++ lines.flatMap encodeTerminalLine

/-- The count is checked against what the caller knows before any line is made. -/
def getLines (maxCount : Nat) : Decoder (List TerminalLine) := do
  let count ← varint
  check (count ≤ maxCount)
  room count
  many getLine count

def encodeTerminalLines (lines : List TerminalLine) : List UInt8 := putLines lines

def decodeTerminalLines (bytes : List UInt8) (maxLines : UInt64) : Option (List TerminalLine) :=
  (getLines maxLines.toNat).run bytes

/-! ### Frames -/

/-- Whether the client holds the lines that scrolled past, needs them, or cannot have them. -/
inductive TerminalHostRun.Kind where
  | promote
  | lines
  | gap
  deriving DecidableEq

structure TerminalHostRun where
  kind : TerminalHostRun.Kind := .lines
  count : UInt64 := 0

/-- The host session's link id; the client interns the address in its own table. -/
structure TerminalHostLink where
  id : UInt16 := 0
  uri : List UInt8 := []

structure TerminalHostNotification where
  title : List UInt8 := []
  body : List UInt8 := []

inductive TerminalCursorShape where
  | block
  | underline
  | bar
  deriving DecidableEq

def kCursorVisible : UInt16 := 2
def kCursorBlinking : UInt16 := 4
def kRunning : UInt16 := 128

structure TerminalHostFrame where
  rows : UInt32 := 24
  columns : UInt32 := 80
  flags : UInt16 := kCursorVisible ||| kCursorBlinking ||| kRunning
  cursorShape : TerminalCursorShape := .block
  /-- The latest input the host has written whose effect the frame can show. -/
  echoAck : UInt64 := 0
  previousTop : UInt64 := 0
  screenTop : UInt64 := 0
  cursorRow : UInt32 := 0
  cursorColumn : UInt32 := 0
  /-- Cover what moved from `previousTop` to `screenTop`, in order. -/
  scrollback : List TerminalHostRun := []
  scrollbackLines : List TerminalLine := []
  /-- One a row: true when the client keeps its line at the same absolute index. -/
  screenKeep : List Bool := []
  screenLines : List TerminalLine := []
  title : Option (List UInt8) := none
  workingDirectory : Option (List UInt8) := none
  clipboard : Option (List UInt8) := none
  notification : Option TerminalHostNotification := none
  openUrl : Option (List UInt8) := none
  links : List TerminalHostLink := []

/-! Bits of a frame's presence byte. -/

def kHasTitle : Nat := 0
def kHasWorkingDirectory : Nat := 1
def kHasClipboard : Nat := 2
def kHasNotification : Nat := 3
def kHasLinks : Nat := 4
def kHasOpenUrl : Nat := 5

def putRun (run : TerminalHostRun) : List UInt8 :=
  [UInt8.ofNat run.kind.ctorIdx] ++ putVarint run.count.toNat

/-- Eight rows a byte, the first in its lowest bit. -/
def putKeep : Nat → List Bool → List UInt8
  | 0, _ => []
  | bytes + 1, keep => UInt8.ofNat (packBits (keep.take 8)) :: putKeep bytes (keep.drop 8)

def keepBytes (rows : Nat) : Nat := (rows + 7) / 8

def putHeader (frame : TerminalHostFrame) : List UInt8 :=
  putVarint frame.rows.toNat ++ (putVarint frame.columns.toNat ++ (putVarint frame.flags.toNat ++
    ([UInt8.ofNat frame.cursorShape.ctorIdx] ++ (putVarint frame.echoAck.toNat ++
    (putVarint frame.previousTop.toNat ++ (putVarint frame.screenTop.toNat ++
    (putVarint frame.cursorRow.toNat ++ putVarint frame.cursorColumn.toNat)))))))

def putScrollback (frame : TerminalHostFrame) : List UInt8 :=
  putVarint frame.scrollback.length ++ (frame.scrollback.flatMap putRun ++
    putLines frame.scrollbackLines)

def putScreen (frame : TerminalHostFrame) : List UInt8 :=
  putVarint frame.screenKeep.length ++
    (putKeep (keepBytes frame.screenKeep.length) frame.screenKeep ++ putLines frame.screenLines)

def putNotification (notification : TerminalHostNotification) : List UInt8 :=
  putBytes notification.title ++ putBytes notification.body

def putLink (link : TerminalHostLink) : List UInt8 := putVarint link.id.toNat ++ putBytes link.uri

def putLinks (links : List TerminalHostLink) : List UInt8 :=
  putVarint links.length ++ links.flatMap putLink

def presentBits (frame : TerminalHostFrame) : List Bool :=
  [frame.title.isSome, frame.workingDirectory.isSome, frame.clipboard.isSome,
    frame.notification.isSome, !frame.links.isEmpty, frame.openUrl.isSome]

def putSignals (frame : TerminalHostFrame) : List UInt8 :=
  [UInt8.ofNat (packBits (presentBits frame))] ++ (frame.title.elim [] putBytes ++
    (frame.workingDirectory.elim [] putBytes ++ (frame.clipboard.elim [] putBytes ++
    (frame.notification.elim [] putNotification ++
    ((if frame.links.isEmpty then [] else putLinks frame.links) ++
    frame.openUrl.elim [] putBytes)))))

def encodeTerminalHostFrame (frame : TerminalHostFrame) : List UInt8 :=
  putHeader frame ++ (putScrollback frame ++ (putScreen frame ++ putSignals frame))

/-- The frame as far as its header. -/
def getHeader : Decoder TerminalHostFrame := do
  let rows ← varint
  let columns ← varint
  let flags ← varint
  let shape ← le 1
  room 0
  check (rows ≠ 0 ∧ columns ≠ 0 ∧ rows ≤ kMaxHostTerminalDimension ∧
    columns ≤ kMaxHostTerminalDimension ∧ flags ≤ 0xffff ∧
    shape ≤ TerminalCursorShape.bar.ctorIdx)
  let echoAck ← varint
  let previousTop ← varint
  let screenTop ← varint
  let cursorRow ← varint
  let cursorColumn ← varint
  room 0
  check (cursorRow < rows ∧ cursorColumn < columns)
  pure
    { rows := UInt32.ofNat rows, columns := UInt32.ofNat columns, flags := UInt16.ofNat flags,
      cursorShape := .ofNat shape, echoAck := UInt64.ofNat echoAck,
      previousTop := UInt64.ofNat previousTop, screenTop := UInt64.ofNat screenTop,
      cursorRow := UInt32.ofNat cursorRow, cursorColumn := UInt32.ofNat cursorColumn }

/-- A screen that grew upward moves no line into scrollback. -/
def TerminalHostFrame.moved (frame : TerminalHostFrame) : UInt64 :=
  if frame.previousTop ≤ frame.screenTop then frame.screenTop - frame.previousTop else 0

/-- What the runs read so far add up to. -/
structure RunTotals where
  covered : UInt64 := 0
  lineRuns : UInt64 := 0
  promoted : UInt64 := 0

def RunTotals.add (totals : RunTotals) (run : TerminalHostRun) : RunTotals :=
  { covered := totals.covered + run.count
    lineRuns := totals.lineRuns + if run.kind = .lines then run.count else 0
    promoted := totals.promoted + if run.kind = .promote then run.count else 0 }

/-- Promoted lines are of the client's previous screen: together at most one screen. -/
def getScrollbackRuns (moved : UInt64) :
    Nat → RunTotals → Decoder (List TerminalHostRun × RunTotals)
  | 0, totals => pure ([], totals)
  | runs + 1, totals => do
      let kind ← le 1
      let count ← varint
      room 0
      check (kind ≤ TerminalHostRun.Kind.gap.ctorIdx ∧ count ≠ 0 ∧
        count ≤ (moved - totals.covered).toNat)
      let run : TerminalHostRun := ⟨.ofNat kind, UInt64.ofNat count⟩
      check ((totals.add run).promoted.toNat ≤ kMaxHostTerminalDimension)
      let (rest, totals) ← getScrollbackRuns moved runs (totals.add run)
      pure (run :: rest, totals)

def getScrollback (frame : TerminalHostFrame) : Decoder TerminalHostFrame := do
  let count ← varint
  room count
  let (runs, totals) ← getScrollbackRuns frame.moved count {}
  check (totals.covered = frame.moved)
  let lines ← getLines totals.lineRuns.toNat
  check (lines.length = totals.lineRuns.toNat)
  pure { frame with scrollback := runs, scrollbackLines := lines }

/-- The next `rows` bits, of so many bytes. -/
def getKeep : Nat → Nat → Decoder (List Bool)
  | 0, _ => pure []
  | bytes + 1, rows => do
      let bits ← le 1
      let rest ← getKeep bytes (rows - 8)
      pure ((List.range (min 8 rows)).map bits.testBit ++ rest)

def getScreen (frame : TerminalHostFrame) : Decoder TerminalHostFrame := do
  let screen ← varint
  check (screen ≤ frame.rows.toNat)
  let keep ← getKeep (keepBytes screen) screen
  let sentRows := keep.count false
  room 0
  let lines ← getLines sentRows
  check (lines.length = sentRows)
  pure { frame with screenKeep := keep, screenLines := lines }

def getText : Decoder (List UInt8) := bytes kMaxHostTerminalTextBytes

def getNotification : Decoder TerminalHostNotification := do
  let title ← getText
  let body ← getText
  pure ⟨title, body⟩

def getHostLink : Decoder TerminalHostLink := do
  let id ← varint
  room 0
  check (id ≠ 0 ∧ id ≤ 0xffff)
  let uri ← getText
  pure ⟨UInt16.ofNat id, uri⟩

def getLinks : Decoder (List TerminalHostLink) := do
  let count ← varint
  check (count ≠ 0 ∧ count ≤ 0xffff)
  room count
  many getHostLink count

def getSignals (frame : TerminalHostFrame) : Decoder TerminalHostFrame := do
  let present ← le 1
  let title ← optional (present.testBit kHasTitle) getText
  let workingDirectory ← optional (present.testBit kHasWorkingDirectory) getText
  let clipboard ← optional (present.testBit kHasClipboard) getText
  let notification ← optional (present.testBit kHasNotification) getNotification
  let links ← optional (present.testBit kHasLinks) getLinks
  let openUrl ← optional (present.testBit kHasOpenUrl) (bytes kMaxHostOpenUrlBytes)
  pure
    { frame with
      title, workingDirectory, clipboard, notification, openUrl, links := links.getD [] }

def getFrame : Decoder TerminalHostFrame := do
  let frame ← getHeader
  let frame ← getScrollback frame
  let frame ← getScreen frame
  getSignals frame

/-- Nothing on any malformed, truncated or out-of-range field. -/
def decodeTerminalHostFrame (bytes : List UInt8) : Option TerminalHostFrame := getFrame.run bytes

/-! ### Input events -/

inductive TerminalMouseButton where
  | left
  | middle
  | right
  | none
  | wheelUp
  | wheelDown
  deriving DecidableEq

inductive TerminalKeyPress.Key where
  | char | enter | escape | backspace | tab | up | down | left | right | home | end_ | pageUp
  | pageDown | insert | delete | f1 | f2 | f3 | f4 | f5 | f6 | f7 | f8 | f9 | f10 | f11 | f12
  deriving DecidableEq

structure TerminalKeyPress where
  key : TerminalKeyPress.Key := .char
  codepoint : UInt32 := 0
  shift : Bool := false
  alt : Bool := false
  ctrl : Bool := false
  super : Bool := false

inductive TerminalInputEvent.Kind where
  | key
  | paste
  | mouseButton
  | mouseMotion
  | focus
  | bytes
  deriving DecidableEq

structure TerminalInputEvent where
  kind : TerminalInputEvent.Kind := .key
  seq : UInt64 := 0
  key : TerminalKeyPress := {}
  text : List UInt8 := []
  button : TerminalMouseButton := .none
  pressed : Bool := false
  row : UInt32 := 0
  column : UInt32 := 0
  modifiers : UInt16 := 0

def putKey (key : TerminalKeyPress) : List UInt8 :=
  [UInt8.ofNat key.key.ctorIdx] ++ (putVarint key.codepoint.toNat ++
    [UInt8.ofNat (packBits [key.shift, key.alt, key.ctrl, key.super])])

def putMouse (event : TerminalInputEvent) : List UInt8 :=
  [UInt8.ofNat event.button.ctorIdx] ++ ([UInt8.ofNat event.pressed.toNat] ++
    (putVarint event.row.toNat ++ (putVarint event.column.toNat ++
    putVarint event.modifiers.toNat)))

def encodeTerminalInputEvent (event : TerminalInputEvent) : List UInt8 :=
  [UInt8.ofNat event.kind.ctorIdx] ++ (putVarint event.seq.toNat ++
    match event.kind with
    | .key => putKey event.key
    | .paste | .bytes => putBytes event.text
    | .mouseButton | .mouseMotion => putMouse event
    | .focus => [UInt8.ofNat event.pressed.toNat])

def getKey : Decoder TerminalKeyPress := do
  let key ← le 1
  let codepoint ← varint
  let mods ← le 1
  check (key ≤ TerminalKeyPress.Key.f12.ctorIdx ∧ codepoint ≤ 0x10ffff)
  pure ⟨.ofNat key, UInt32.ofNat codepoint, mods.testBit 0, mods.testBit 1, mods.testBit 2,
    mods.testBit 3⟩

def getMouse (event : TerminalInputEvent) : Decoder TerminalInputEvent := do
  let button ← le 1
  let pressed ← le 1
  let row ← varint
  let column ← varint
  let modifiers ← varint
  check (button ≤ TerminalMouseButton.wheelDown.ctorIdx ∧ row ≤ kMaxHostTerminalDimension ∧
    column ≤ kMaxHostTerminalDimension ∧ modifiers ≤ 0xffff)
  pure
    { event with
      button := .ofNat button, pressed := pressed != 0, row := UInt32.ofNat row,
      column := UInt32.ofNat column, modifiers := UInt16.ofNat modifiers }

/-- The rest of an event, after its kind. -/
def getEventBody (kind : Nat) : Decoder TerminalInputEvent := do
  let seq ← varint
  room 0
  check (kind ≤ TerminalInputEvent.Kind.bytes.ctorIdx)
  let event : TerminalInputEvent := { kind := .ofNat kind, seq := UInt64.ofNat seq }
  match event.kind with
  | .key => do
      let key ← getKey
      pure { event with key }
  | .paste | .bytes => do
      let text ← getText
      pure { event with text }
  | .mouseButton | .mouseMotion => getMouse event
  | .focus => do
      let pressed ← le 1
      pure { event with pressed := pressed != 0 }

def getEvent : Decoder TerminalInputEvent := do
  let kind ← le 1
  let event ← getEventBody kind
  room 0
  pure event

/-- The events a batch adds, where all of it is well formed: an event is at least a byte. -/
def decodeTerminalInputEvents (bytes : List UInt8) : Option (List TerminalInputEvent) :=
  (untilEnd getEvent bytes.length).run bytes

end Microide.Terminal
