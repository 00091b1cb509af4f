/-
A host terminal's mirror and its history.

The client holds some of the host's lines: its scrollback above a screen it keeps in step with
the host's by frames. A rule row stands for the host lines that were not sent, or for none of
them (a note of the client's own). `TerminalHostHistory` is the session's map from its rows to
the host's lines; rows are absolute, the rows trimmed so far plus the row of the buffer.

A `MirrorRow` carries what it stands for beside its line, which the session does not keep: the
map is exact where it says the same. Host indices are 64-bit. Signals, predictions and the
cells' link ids are left out, and so is a session's stop.
-/

import Microide.Terminal.HostWire

namespace Microide.Terminal

/-! ### The map -/

/-- A row that stands for `count` host lines, or for none: a note. -/
structure HostGap where
  row : Nat
  count : UInt64
  id : Nat
  fillInFlight : Bool := false
  unfillable : Bool := false

structure RowShift where
  afterRow : Nat
  added : Nat

structure TerminalHostHistory where
  gaps : List HostGap := []
  nextGapId : Nat := 1
  /-- The host's index of the first row on the primary screen. -/
  firstLine : UInt64 := 0
  inFlight : Bool := false
  exhausted : Bool := false
  rowShifts : List RowShift := []
  rowShiftSequence : Nat := 0

/-- Prepended pages take the trim total down from here. -/
def kRowBase : Nat := 2 ^ 40
def kMaxRowShifts : Nat := 64

namespace TerminalHostHistory

def addGap (history : TerminalHostHistory) (row : Nat) (count : UInt64) : TerminalHostHistory :=
  { history with
    gaps := history.gaps ++ [{ row, count, id := history.nextGapId }]
    nextGapId := history.nextGapId + 1 }

/-- A gap row is one row but `count` lines; the sum is of 64 bits. -/
def excess (index : UInt64) (gap : HostGap) : UInt64 := index + (gap.count - 1)

def hostIndexOfRow (history : TerminalHostHistory) (absoluteRow trimTotal : Nat) : UInt64 :=
  (history.gaps.takeWhile fun gap => gap.row < absoluteRow).foldl excess
    (history.firstLine + (UInt64.ofNat absoluteRow - UInt64.ofNat trimTotal))

def recordRowShift (history : TerminalHostHistory) (afterRow added : Nat) : TerminalHostHistory :=
  if added = 0 then history
  else
    let shifts := history.rowShifts ++ [⟨afterRow, added⟩]
    { history with
      rowShifts := shifts.drop (shifts.length - kMaxRowShifts)
      rowShiftSequence := history.rowShiftSequence + 1 }

end TerminalHostHistory

/-! ### Rows -/

/-- What a row stands for: a host line, the host lines from `first` that were not sent, or
nothing of the host's. -/
inductive Shown where
  | line (index : UInt64)
  | withheld (first count : UInt64)
  | note
  deriving DecidableEq

structure MirrorRow where
  line : TerminalLine
  shows : Shown

def utf8 (text : String) : List UInt8 := text.toUTF8.toList

def utf8Length (lead : UInt8) : Nat :=
  if 0xf0 ≤ lead then 4 else if 0xe0 ≤ lead then 3 else if 0xc0 ≤ lead then 2 else 1

/-- The glyphs of `text`, which has at most `bytes` bytes; one cut short is a cell of its own. -/
def statusCells (style : TerminalStyle) : Nat → List UInt8 → List TerminalCell
  | 0, _ => []
  | _, [] => []
  | bytes + 1, lead :: rest =>
      let length := utf8Length lead
      { glyph := Glyph.ofBytes ((lead :: rest).take length), style } ::
        statusCells style bytes ((lead :: rest).drop length)

def kDim : UInt16 := 2

def makeStatusLine (text : List UInt8) (dim : Bool) : TerminalLine where
  cells := statusCells { attrs := if dim then kDim else 0 } text.length text

def gapText (count : UInt64) : List UInt8 :=
  utf8 ("⋯ " ++ toString count.toNat ++ (if count = 1 then " line" else " lines") ++
    " not transferred ⋯")

/-- The rule over `count` lines from `first`. -/
def gapRow (first count : UInt64) : MirrorRow :=
  ⟨makeStatusLine (gapText count) true, .withheld first count⟩

/-- A page's lines, the first of them at `first`. -/
def pageRows : UInt64 → List TerminalLine → List MirrorRow
  | _, [] => []
  | first, line :: lines => ⟨line, .line first⟩ :: pageRows (first + 1) lines

/-- The rule where only the first `count` of its lines are still withheld. -/
def MirrorRow.shrunk (row : MirrorRow) (count : UInt64) : MirrorRow where
  line := makeStatusLine (gapText count) true
  shows := match row.shows with
    | .withheld first _ => .withheld first count
    | shows => shows

/-! ### The session -/

structure Mirror where
  lines : List MirrorRow
  /-- Rows ever trimmed off the front, less those prepended. -/
  trimTotal : Nat := 0
  cursorRow : Nat := 0
  cursorColumn : Nat := 0
  rows : Nat := 24
  columns : Nat := 80
  maxScrollbackLines : Nat := 2000
  useAlternateScreen : Bool := false
  running : Bool := true
  /-- The session has a channel to the host. -/
  attached : Bool := true
  /-- The host's index of the first screen line. -/
  screenTop : UInt64 := 0
  /-- Screen lines at the tail of `lines`. -/
  screenLines : Nat := 1
  alternate : Bool := false
  mirrored : Bool := false
  /-- The primary buffer while the host shows its alternate screen. -/
  primaryStash : Option (List MirrorRow) := none
  primaryStashScreenLines : Nat := 0
  linkDown : Bool := false
  announceReattach : Bool := false
  history : TerminalHostHistory := {}

namespace Mirror

/-- `StartOnHost` of a new session: one blank line. -/
def start : Mirror where
  lines := [⟨{}, .line 0⟩]

def primary (m : Mirror) : List MirrorRow :=
  if m.alternate then m.primaryStash.getD [] else m.lines

/-- `InsertHostRule`: just above the screen. -/
def insertHostRule (m : Mirror) (line : TerminalLine) : Mirror :=
  let place := m.lines.length - min m.screenLines m.lines.length
  { m with
    history := m.history.addGap (m.trimTotal + place) 0
    lines := m.lines.take place ++ ⟨line, .note⟩ :: m.lines.drop place
    cursorRow := m.cursorRow + 1 }

end Mirror

/-! ### A frame -/

/-! Bits of a frame's flags. -/

def kAlternateScreen : Nat := 0
def kRunningBit : Nat := 7
def kReset : Nat := 9

def TerminalHostFrame.has (frame : TerminalHostFrame) (bit : Nat) : Bool :=
  frame.flags.toNat.testBit bit

namespace Mirror

/-- A cold attach: nothing held is valid. -/
def coldReset (m : Mirror) (frame : TerminalHostFrame) : Mirror :=
  { m with
    lines := []
    screenLines := 0
    primaryStash := none
    primaryStashScreenLines := 0
    alternate := false
    screenTop := frame.previousTop
    history := { m.history with gaps := [], firstLine := frame.previousTop, exhausted := false }
    trimTotal := max m.trimTotal kRowBase }

/-- The primary buffer is stashed under the alternate screen. -/
def switchScreen (m : Mirror) (alternate : Bool) : Mirror :=
  if alternate && !m.alternate then
    { m with
      primaryStash := some m.lines
      primaryStashScreenLines := m.screenLines
      lines := []
      screenLines := 0
      alternate }
  else if !alternate && m.alternate then
    { m with
      lines := m.primaryStash.getD []
      primaryStash := none
      screenLines := m.primaryStashScreenLines
      alternate }
  else m

end Mirror

/-- The screen that was shown before the frame, and its first line. -/
structure OldScreen where
  top : UInt64
  rows : List MirrorRow

/-- The old screen holds the line. -/
def OldScreen.holds (old : OldScreen) (absolute : UInt64) : Bool :=
  old.top ≤ absolute && (absolute - old.top).toNat < old.rows.length

/-- A line the old screen does not hold is blank: the frame disagrees with the mirror. -/
def OldScreen.take (old : OldScreen) (absolute : UInt64) : MirrorRow :=
  if old.holds absolute then
    (old.rows[(absolute - old.top).toNat]?).getD ⟨{}, .line absolute⟩
  else ⟨{}, .line absolute⟩

/-- The screen grew upward over `back` host lines, which come again as its rows. The loop takes
one row of `lines` at a time, which holds at most `rows` of them. -/
def takeBack (trimTotal : Nat) :
    Nat → UInt64 → List MirrorRow → List HostGap → List MirrorRow × List HostGap
  | 0, _, lines, gaps => (lines, gaps)
  | rows + 1, back, lines, gaps =>
      if back = 0 then (lines, gaps)
      else
        match lines.getLast? with
        | none => (lines, gaps)
        | some last =>
            let row := trimTotal + lines.length - 1
            match gaps.getLast?.filter (·.row = row) with
            | some gap =>
                -- only the newest of the withheld lines are back on screen
                if back < gap.count then
                  (lines.dropLast ++ [last.shrunk (gap.count - back)],
                    gaps.dropLast ++ [{ gap with count := gap.count - back }])
                else takeBack trimTotal rows (back - gap.count) lines.dropLast gaps.dropLast
            | none => takeBack trimTotal rows (back - 1) lines.dropLast gaps

/-- A frame while its scrollback is put down. -/
structure FrameRows where
  lines : List MirrorRow
  history : TerminalHostHistory
  /-- The host's index of the next line. -/
  absolute : UInt64
  /-- The sent lines not put down yet. -/
  sent : List TerminalLine
  consistent : Bool

/-- The `count` lines from `absolute`. -/
def linesFrom (absolute : UInt64) (count : Nat) : List UInt64 :=
  (List.range count).map fun i => absolute + UInt64.ofNat i

def FrameRows.run (trimTotal : Nat) (old : OldScreen) (rows : FrameRows) (run : TerminalHostRun) :
    FrameRows :=
  let count := run.count.toNat
  let next := rows.absolute + run.count
  match run.kind with
  | .promote =>
      let taken := linesFrom rows.absolute count
      { rows with
        lines := rows.lines ++ taken.map old.take
        consistent := rows.consistent && taken.all old.holds
        absolute := next }
  | .lines =>
      { rows with
        lines := rows.lines ++ pageRows rows.absolute (rows.sent.take count)
        sent := rows.sent.drop count
        absolute := next }
  | .gap =>
      { rows with
        history := rows.history.addGap (trimTotal + rows.lines.length) run.count
        lines := rows.lines ++ [gapRow rows.absolute run.count]
        absolute := next }

/-- The screen's rows from `top`: kept, or sent. -/
def screenRows (old : OldScreen) : UInt64 → List Bool → List TerminalLine → List MirrorRow
  | _, [], _ => []
  | top, true :: keep, sent => old.take top :: screenRows old (top + 1) keep sent
  | top, false :: keep, sent =>
      ⟨sent.headD {}, .line top⟩ :: screenRows old (top + 1) keep sent.tail

/-- The kept rows are all held. -/
def keptHeld (old : OldScreen) : UInt64 → List Bool → Bool
  | _, [] => true
  | top, kept :: keep => (!kept || old.holds top) && keptHeld old (top + 1) keep

namespace Mirror

/-- The old screen, off the tail; what stays is scrollback. -/
def detachScreen (m : Mirror) : OldScreen × Mirror :=
  let place := m.lines.length - min m.screenLines m.lines.length
  (⟨if m.alternate then 0 else m.screenTop, m.lines.drop place⟩,
    { m with lines := m.lines.take place })

/-- The scrollback of a frame for the primary screen. -/
def putScrollback (m : Mirror) (old : OldScreen) (frame : TerminalHostFrame) : Mirror × Bool :=
  let (lines, gaps) :=
    if frame.screenTop < frame.previousTop then
      takeBack m.trimTotal m.lines.length (frame.previousTop - frame.screenTop) m.lines
        m.history.gaps
    else (m.lines, m.history.gaps)
  let rows : FrameRows :=
    { lines
      history := { m.history with gaps }
      absolute := frame.previousTop
      sent := frame.scrollbackLines
      consistent := frame.previousTop == m.screenTop }
  let rows := frame.scrollback.foldl (FrameRows.run m.trimTotal old) rows
  ({ m with lines := rows.lines, history := rows.history }, rows.consistent)

/-- The screen of a frame; the buffer always holds a line. -/
def putScreen (m : Mirror) (old : OldScreen) (frame : TerminalHostFrame) : Mirror × Bool :=
  let top := if m.alternate then 0 else frame.screenTop
  let rows := screenRows old top frame.screenKeep frame.screenLines
  let rows := if frame.screenKeep.isEmpty then [⟨{}, .line top⟩] else rows
  ({ m with
    lines := m.lines ++ rows
    screenLines := max 1 frame.screenKeep.length
    screenTop := if m.alternate then m.screenTop else frame.screenTop
    mirrored := true
    linkDown := false
    rows := frame.rows.toNat
    columns := frame.columns.toNat }, keptHeld old top frame.screenKeep)

/-- The client's own scrollback cap. The front moves by host lines, not by rows. -/
def trimFront (m : Mirror) : Mirror :=
  let keep := m.maxScrollbackLines + m.screenLines
  if keep + keep / 4 < m.lines.length then
    let trim := m.lines.length - keep
    let trimTotal := m.trimTotal + trim
    let gone := m.history.gaps.filter fun gap => gap.row < trimTotal
    { m with
      lines := m.lines.drop trim
      trimTotal
      history := { m.history with
        gaps := m.history.gaps.filter fun gap => trimTotal ≤ gap.row
        firstLine := m.history.firstLine +
          gone.foldl TerminalHostHistory.excess (UInt64.ofNat trim) } }
  else m

/-- The recorded terminal is back: say so under the history it brought. -/
def announce (m : Mirror) (frame : TerminalHostFrame) : Mirror :=
  if m.announceReattach && frame.has kReset then
    let m := { m with announceReattach := false }
    if m.alternate then m
    else m.insertHostRule (makeStatusLine (utf8 "⋯ reattached ⋯") true)
  else m

/-- The rows of a frame, on the screen it is for. -/
def frameRows (m : Mirror) (frame : TerminalHostFrame) : Mirror × Bool :=
  let detached := m.detachScreen
  let scrolled := if m.alternate then (detached.2, true)
    else detached.2.putScrollback detached.1 frame
  let placed := scrolled.1.putScreen detached.1 frame
  (if m.alternate then placed.1 else placed.1.trimFront, scrolled.2 && placed.2)

def placeCursor (m : Mirror) (frame : TerminalHostFrame) : Mirror :=
  { m with
    cursorRow := m.lines.length - m.screenLines + frame.cursorRow.toNat
    cursorColumn := frame.cursorColumn.toNat }

/-- `ApplyHostFrame`: the mirror, and whether the frame agrees with it. -/
def applyHostFrame (m : Mirror) (frame : TerminalHostFrame) : Mirror × Bool :=
  if m.attached then
    let alternate := frame.has kAlternateScreen
    let m := if frame.has kReset then m.coldReset frame else m
    let applied := (m.switchScreen alternate).frameRows frame
    ({ (applied.1.placeCursor frame).announce frame with
      useAlternateScreen := alternate
      running := frame.has kRunningBit }, applied.2)
  else (m, true)

/-! ### The link -/

end Mirror

inductive HostEnd where
  | linkLost
  | terminalGone
  deriving DecidableEq

namespace Mirror

def endText (ended : HostEnd) (reason : List UInt8) : List UInt8 :=
  match ended with
  | .linkLost => utf8 "[connection to the host lost: " ++ reason ++ utf8 "]"
  | .terminalGone => utf8 "[" ++ reason ++ utf8 ": the shell ended; Enter starts a new one]"

/-- Nothing to say of a shell that had ended, or of a link that was up. -/
def endIgnored (m : Mirror) (ended : HostEnd) : Bool :=
  !m.attached || match ended with
    | .linkLost => !m.running
    | .terminalGone => !m.linkDown

/-- `HostEnded`: the link went away, or came back without the terminal. -/
def hostEnded (m : Mirror) (ended : HostEnd) (reason : List UInt8) : Mirror :=
  if m.endIgnored ended then m
  else
    { m with running := false, linkDown := ended == HostEnd.linkLost }.insertHostRule
      (makeStatusLine (endText ended reason) false)

def reattachHost (m : Mirror) (channel : Bool) : Mirror :=
  { m with attached := channel, running := channel, linkDown := false }

def noteHostReattached (m : Mirror) : Mirror := { m with announceReattach := true }

def detachFromHost (m : Mirror) : Mirror :=
  if m.attached then { m with attached := false, running := false } else m

/-! ### Pages -/

/-- A page of lines before the first: only one that still ends where the mirror begins. -/
def prependHostHistory (m : Mirror) (first : UInt64) (lines : List TerminalLine) : Mirror :=
  let m := { m with history := { m.history with inFlight := false } }
  if lines.isEmpty then { m with history := { m.history with exhausted := true } }
  else if m.useAlternateScreen || first + UInt64.ofNat lines.length != m.history.firstLine ||
      m.trimTotal < lines.length then m
  else
    { m with
      lines := pageRows first lines ++ m.lines
      trimTotal := m.trimTotal - lines.length
      cursorRow := m.cursorRow + lines.length
      history := { m.history with firstLine := first } }

/-- The rows that take the place of a gap's rule: all of its lines, or what is left of the
rule and the newest of its lines below it. -/
def fillRows (rule : MirrorRow) (gap : HostGap) (first : UInt64) (lines : List TerminalLine) :
    List MirrorRow :=
  if lines.length = gap.count.toNat then pageRows first lines
  else rule.shrunk (gap.count - UInt64.ofNat lines.length) :: pageRows first lines

/-- The gap that is left of it. -/
def fillGaps (gap : HostGap) (lines : List TerminalLine) : List HostGap :=
  if lines.length = gap.count.toNat then []
  else [{ gap with count := gap.count - UInt64.ofNat lines.length }]

/-- The shift a fill gives every gap below the one it fills. -/
def shiftBelow (row added : Nat) (gap : HostGap) : HostGap :=
  if row < gap.row then { gap with row := gap.row + added } else gap

/-- The rows in the place of the rule, and every gap below it as much further down. -/
def fill (m : Mirror) (older newer : List HostGap) (gap : HostGap) (first : UInt64)
    (lines : List TerminalLine) : Mirror :=
  let place := gap.row - m.trimTotal
  let rows := fillRows ((m.lines[place]?).getD ⟨{}, .note⟩) gap first lines
  let added := rows.length - 1
  let gaps := (older ++ fillGaps gap lines ++ newer).map (shiftBelow gap.row added)
  { m with
    lines := m.lines.take place ++ rows ++ m.lines.drop (place + 1)
    cursorRow := m.cursorRow + added
    history := { m.history with gaps }.recordRowShift gap.row added }

/-- A page of the newest lines of a gap: only one that still ends where the gap does. -/
def fillHostGap (m : Mirror) (gapId : Nat) (before first : UInt64) (lines : List TerminalLine) :
    Mirror :=
  match m.history.gaps.span fun gap => gap.id ≠ gapId with
  | (_, []) => m
  | (older, found :: newer) =>
      let gap := { found with fillInFlight := false }
      let gapEnd := m.history.hostIndexOfRow gap.row m.trimTotal + gap.count
      if lines.isEmpty then
        { m with history := { m.history with
            gaps := older ++ { gap with unfillable := true } :: newer } }
      else if m.useAlternateScreen || before != gapEnd ||
          first + UInt64.ofNat lines.length != gapEnd || gap.count.toNat < lines.length then
        { m with history := { m.history with gaps := older ++ gap :: newer } }
      else m.fill older newer gap first lines

/-! ### The scrollback limit -/

/-- `TrimScrollbackLocked`: a quarter over the limit, all the way down to it. -/
def trimScrollback (m : Mirror) : Mirror :=
  let maxLines := if m.useAlternateScreen then max 1 m.rows
    else m.maxScrollbackLines + max 1 m.rows
  if m.lines.length < maxLines + maxLines / 4 + 1 then m
  else
    let trim := m.lines.length - maxLines
    { m with
      lines := m.lines.drop trim
      cursorRow := m.cursorRow - trim
      trimTotal := m.trimTotal + trim }

def setMaxScrollbackLines (m : Mirror) (maxLines : Nat) : Mirror :=
  let clamped := min (max maxLines 200) 100000
  if m.maxScrollbackLines = clamped then m
  else { m with maxScrollbackLines := clamped }.trimScrollback

end Mirror

end Microide.Terminal
