/-
What the host terminal's wire keeps.

`InBounds` is what the protocol promises of a frame, of a page and of an event, section by
section; the decoders check exactly that. Each section has two lemmas: the decoder undoes the
encoder on a value in bounds, and whatever it answers is in bounds.

**Main results.** `hostWire_exact`: what is encoded within the bounds is decoded, and whatever
the decoder accepts is within them.
-/

import Mathlib.Data.List.TakeWhile
import Microide.Terminal.HostWire

namespace Microide.Terminal

open List Lib.Decoder Lib Gives UInt32

/-! ### Bounds -/

def TerminalLine.InBounds (line : TerminalLine) : Prop :=
  line.cells.length ≤ kMaxHostTerminalLineCells

/-- The lines the runs of one kind cover. -/
def runLines (kind : TerminalHostRun.Kind) (runs : List TerminalHostRun) : Nat :=
  ((runs.filter (·.kind = kind)).map (·.count.toNat)).sum

def coveredLines (runs : List TerminalHostRun) : Nat := (runs.map (·.count.toNat)).sum

namespace TerminalHostFrame

structure HeaderInBounds (frame : TerminalHostFrame) : Prop where
  rows : 1 ≤ frame.rows.toNat ∧ frame.rows.toNat ≤ kMaxHostTerminalDimension
  columns : 1 ≤ frame.columns.toNat ∧ frame.columns.toNat ≤ kMaxHostTerminalDimension
  cursorRow : frame.cursorRow < frame.rows
  cursorColumn : frame.cursorColumn < frame.columns

/-- The runs cover exactly the scrolled distance, with a line for each line they send. -/
structure ScrollbackInBounds (frame : TerminalHostFrame) : Prop where
  counted : ∀ run ∈ frame.scrollback, run.count ≠ 0
  covers : coveredLines frame.scrollback = frame.moved.toNat
  promoted : runLines .promote frame.scrollback ≤ kMaxHostTerminalDimension
  lines : frame.scrollbackLines.length = runLines .lines frame.scrollback
  each : ∀ line ∈ frame.scrollbackLines, line.InBounds

/-- At most a screen of rows, with a line for each that is not kept. -/
structure ScreenInBounds (frame : TerminalHostFrame) : Prop where
  rows : frame.screenKeep.length ≤ frame.rows.toNat
  lines : frame.screenLines.length = frame.screenKeep.count false
  each : ∀ line ∈ frame.screenLines, line.InBounds

structure SignalsInBounds (frame : TerminalHostFrame) : Prop where
  title : ∀ text ∈ frame.title, text.length ≤ kMaxHostTerminalTextBytes
  workingDirectory : ∀ text ∈ frame.workingDirectory, text.length ≤ kMaxHostTerminalTextBytes
  clipboard : ∀ text ∈ frame.clipboard, text.length ≤ kMaxHostTerminalTextBytes
  notification : ∀ notification ∈ frame.notification,
    notification.title.length ≤ kMaxHostTerminalTextBytes ∧
      notification.body.length ≤ kMaxHostTerminalTextBytes
  openUrl : ∀ text ∈ frame.openUrl, text.length ≤ kMaxHostOpenUrlBytes
  links : frame.links.length ≤ 0xffff
  link : ∀ link ∈ frame.links, link.id ≠ 0 ∧ link.uri.length ≤ kMaxHostTerminalTextBytes

/-- A frame within the protocol's bounds. -/
structure InBounds (frame : TerminalHostFrame) : Prop where
  header : frame.HeaderInBounds
  scrollback : frame.ScrollbackInBounds
  screen : frame.ScreenInBounds
  signals : frame.SignalsInBounds

end TerminalHostFrame

/-! ### Cells -/

theorem reads_getRgba (color : Rgb) : Reads getRgba (putRgba color) color := by
  obtain ⟨r, g, b⟩ := color
  have fits := getLe_lt (putRgba ⟨r, g, b⟩)
  have bytes := putLe_getLe (putRgba ⟨r, g, b⟩)
  have red := r.toNat_lt
  have green := g.toNat_lt
  have blue := b.toNat_lt
  have value : getLe (putRgba ⟨r, g, b⟩) =
      r.toNat + 256 * (g.toNat + 256 * (b.toNat + 256 * 255)) := by
    simp [putRgba, getLe]
  rw [← bytes]
  refine ((Reads.le fits).map _).answers ?_
  rw [value, Rgb.mk.injEq]
  refine ⟨?_, ?_, ?_⟩ <;> apply UInt8.toNat.inj <;> rw [UInt8.toNat_ofNat'] <;> omega

theorem reads_getLink {link : UInt16} (linked : link ≠ 0) :
    Reads getLink (putVarint link.toNat) link := by
  have nonzero : link.toNat ≠ 0 := fun zero => linked (UInt16.toNat.inj zero)
  have below := link.toNat_lt
  rw [← append_nil (putVarint _)]
  refine (Reads.varint (by omega)).bind (.check (by omega) ?_)
  rw [UInt16.ofNat_toNat]
  exact .pure link

/-- The style byte's bits. -/
theorem packBits_byte {bits : List Bool} (few : bits.length ≤ 8) : packBits bits < 256 :=
  (packBits_lt bits).trans_le (Nat.pow_le_pow_right (by decide) few)

theorem reads_getRunStyle (cell : TerminalCell) :
    Reads getRunStyle (putRunStyle cell) { cell with glyph := Glyph.empty } := by
  have attrs := cell.style.attrs.toNat_lt
  refine (Reads.varint (by omega)).bind ((Reads.byte (packBits_byte (by simp))).bind ?_)
  have foreground := Reads.optional putRgba cell.style.foreground fun color _ =>
    reads_getRgba color
  have background := Reads.optional putRgba cell.style.background fun color _ =>
    reads_getRgba color
  simp only [testBit_packBits, kHasLink]
  refine foreground.bind (background.bind ?_)
  by_cases linked : cell.link = 0
  · rw [if_pos linked]
    have absent : ([cell.style.foreground.isSome, cell.style.background.isSome,
        cell.link != 0].getD 2 false) = false := by simp [linked]
    rw [absent]
    refine (((Reads.pure none).map _)).answers ?_
    rw [UInt16.ofNat_toNat, Option.getD_none, linked]
  · rw [if_neg linked]
    have present : ([cell.style.foreground.isSome, cell.style.background.isSome,
        cell.link != 0].getD 2 false) = (some cell.link).isSome := by simp [linked]
    have link := Reads.optional (fun link => putVarint link.toNat) (some cell.link) fun link held => reads_getLink (by rintro rfl; exact linked (Option.some.inj held))
    rw [present]
    refine (link.map _).answers ?_
    rw [UInt16.ofNat_toNat, Option.getD_some]

theorem reads_getByte (byte : UInt8) : Reads getByte [byte] byte := by
  have below := byte.toNat_lt
  have read := (Reads.byte below).map UInt8.ofNat
  rwa [UInt8.ofNat_toNat] at read

/-- A glyph behind its length. -/
theorem reads_getGlyph_counted (glyph : Glyph) :
    Reads getGlyph (UInt8.ofNat glyph.val.length :: glyph.val) glyph := by
  have short := glyph.property
  have spelled : glyph.val.flatMap (fun byte => [byte]) = glyph.val := by simp
  have rest := (Reads.many (fun byte => [byte]) id glyph.val fun byte _ =>
    reads_getByte byte).map Glyph.ofBytes
  rw [spelled, map_id, Glyph.ofBytes_val] at rest
  have lead : glyph.val.length < 256 := by omega
  refine (Reads.byte lead).bind ?_
  rw [if_neg (by omega)]
  exact .check short rest

theorem reads_getGlyph (cell : TerminalCell) : Reads getGlyph (putGlyph cell) cell.glyph := by
  have counted := reads_getGlyph_counted cell.glyph
  unfold putGlyph
  split
  next byte only =>
    split
    next printable =>
      have below := byte.toNat_lt
      have lead : 0x20 ≤ byte.toNat := UInt8.le_iff_toNat_le.mp printable.1
      have read := Reads.byte below
      rw [UInt8.ofNat_toNat] at read
      refine read.bind ?_
      rw [if_pos lead, UInt8.ofNat_toNat]
      refine (Reads.pure _).answers (Subtype.ext ?_)
      rw [only]
      rfl
    · rwa [only] at counted
  · exact counted

/-! ### Lines -/

theorem length_putGlyph_pos (cell : TerminalCell) : 0 < (putGlyph cell).length := by
  unfold putGlyph
  split
  · split <;> simp
  · simp

/-- A run and the cells after it. -/
theorem length_run_add (first : TerminalCell) (rest : List TerminalCell) :
    (first :: rest.takeWhile (sameRun · first)).length +
      (rest.dropWhile (sameRun · first)).length = (first :: rest).length := by
  have split := congrArg List.length
    (takeWhile_append_dropWhile (p := (sameRun · first)) (l := rest))
  rw [length_append] at split
  simp only [length_cons]
  omega

/-- A line is at least a byte a cell. -/
theorem length_le_putRuns (runs : Nat) : ∀ (cells : List TerminalCell), cells.length ≤ runs →
    cells.length ≤ (putRuns runs cells).length := by
  induction runs with
  | zero => intro cells room; omega
  | succ runs ih =>
    intro cells room
    cases cells with
    | nil => simp
    | cons first rest =>
      have split := length_run_add first rest
      have glyphs := length_le_flatMap length_putGlyph_pos
        (first :: rest.takeWhile (sameRun · first))
      simp only [length_cons] at room split glyphs
      have after := ih (rest.dropWhile (sameRun · first)) (by omega)
      rw [putRuns]
      simp only [length_append, length_cons] at glyphs ⊢
      omega

/-- The cells of a run share its style and link. -/
theorem run_cells (first : TerminalCell) (rest : List TerminalCell) :
    ((first :: rest.takeWhile (sameRun · first)).map (·.glyph)).map
        (fun glyph => { first with glyph }) =
      first :: rest.takeWhile (sameRun · first) := by
  rw [map_map]
  refine (map_congr_left fun cell held => ?_).trans (map_id _)
  rcases mem_cons.mp held with rfl | later
  · rfl
  · have same := mem_takeWhile_imp later
    simp only [sameRun, Bool.and_eq_true, beq_iff_eq] at same
    obtain ⟨glyph, style, link⟩ := cell
    obtain ⟨rfl, rfl⟩ := same
    rfl

theorem reads_getRuns (runs : Nat) : ∀ (cells : List TerminalCell), cells.length ≤ runs →
    cells.length < 2 ^ 64 → Reads (getRuns runs cells.length) (putRuns runs cells) cells := by
  induction runs with
  | zero =>
    intro cells room _
    obtain rfl := length_eq_zero_iff.mp (Nat.le_zero.mp room)
    exact .pure []
  | succ runs ih =>
    intro cells room small
    cases cells with
    | nil => exact .pure []
    | cons first rest =>
      have split := length_run_add first rest
      have left : (first :: rest).length - (first :: rest.takeWhile (sameRun · first)).length =
          (rest.dropWhile (sameRun · first)).length := by omega
      have after := ih (rest.dropWhile (sameRun · first))
        (by simp only [length_cons] at room split; omega) (by omega)
      have glyphs := Reads.many putGlyph (·.glyph) (first :: rest.takeWhile (sameRun · first))
        fun cell _ => reads_getGlyph cell
      refine (Reads.varint (by omega)).bind (.check ⟨by simp, by omega⟩ ?_)
      refine (reads_getRunStyle first).bind (glyphs.bind ?_)
      rw [left]
      refine (after.map _).answers ((congrArg (· ++ _) (run_cells first rest)).trans ?_)
      exact congrArg (first :: ·) takeWhile_append_dropWhile

theorem reads_getLine {line : TerminalLine} (bounds : line.InBounds) :
    Reads getLine (encodeTerminalLine line) line := by
  obtain ⟨cells, wrapped⟩ := line
  have few : cells.length ≤ 65536 := bounds
  have header : Nat.bit wrapped cells.length < 2 ^ 64 := by
    have low := wrapped.toNat_lt
    rw [Nat.bit_val]
    omega
  refine (Reads.varint header).bind ?_
  rw [Nat.bit_div_two, Nat.testBit_bit_zero]
  refine .check bounds (.room (length_le_putRuns _ cells le_rfl) ?_)
  rw [← append_nil (putRuns _ _)]
  exact (reads_getRuns _ cells le_rfl (by omega)).bind (.room (Nat.zero_le _) (.pure _))

theorem length_encodeTerminalLine_pos (line : TerminalLine) :
    0 < (encodeTerminalLine line).length := by
  have header := length_putVarint_pos (Nat.bit line.wrappedFromPrevious line.cells.length)
  rw [encodeTerminalLine, length_append]
  omega

theorem reads_getLines {lines : List TerminalLine} (maxCount : Nat) (few : lines.length ≤ maxCount)
    (small : lines.length < 2 ^ 64) (bounds : ∀ line ∈ lines, line.InBounds) :
    Reads (getLines maxCount) (putLines lines) lines := by
  have each := Reads.many encodeTerminalLine id lines fun line held =>
    reads_getLine (bounds line held)
  rw [map_id] at each
  exact (Reads.varint small).bind (.check few
    (.room (length_le_flatMap length_encodeTerminalLine_pos lines) each))

/-! ### What the line decoders answer -/

theorem gives_getRuns (runs : Nat) : ∀ (left : Nat), left ≤ runs →
    Gives (getRuns runs left) (·.length = left) := by
  induction runs with
  | zero =>
    intro left room
    exact .pure (Nat.le_zero.mp room).symm
  | succ runs ih =>
    intro left room
    rw [getRuns]
    split
    next none => exact .pure none.symm
    · refine (trivial varint).bind fun run _ => check.bind fun _ covers =>
        (trivial _).bind fun runCell _ => ?_
      refine ((trivial _).many run).bind fun glyphs size => ?_
      refine (ih (left - run) (by omega)).bind fun rest after => .pure ?_
      rw [length_append, length_map, size.1, after]
      omega

theorem gives_getLine : Gives getLine TerminalLine.InBounds := by
  refine (trivial _).bind fun header _ => check.bind fun _ few =>
    (trivial _).bind fun _ _ => ?_
  refine (gives_getRuns _ _ le_rfl).bind fun cells size => (trivial _).bind fun _ _ => .pure ?_
  rw [TerminalLine.InBounds, size]
  exact few

theorem gives_getLines (maxCount : Nat) : Gives (getLines maxCount) fun lines =>
    lines.length ≤ maxCount ∧ ∀ line ∈ lines, line.InBounds := by
  refine (trivial _).bind fun count _ => check.bind fun _ few =>
    (trivial _).bind fun _ _ => ?_
  intro reader lines reader' answered
  obtain ⟨size, each⟩ := gives_getLine.many count answered
  exact ⟨size ▸ few, each⟩

/-- A page of lines: what is encoded within the page's bounds is decoded, nothing else is
decoded to itself, and whatever is decoded is within them. -/
theorem decodeTerminalLines_exact (maxLines : UInt64) :
    (∀ lines : List TerminalLine, decodeTerminalLines (encodeTerminalLines lines) maxLines =
        some lines ↔ lines.length ≤ maxLines.toNat ∧ ∀ line ∈ lines, line.InBounds) ∧
      ∀ bytes lines, decodeTerminalLines bytes maxLines = some lines →
        lines.length ≤ maxLines.toNat ∧ (∀ line ∈ lines, line.InBounds) ∧
          decodeTerminalLines (encodeTerminalLines lines) maxLines = some lines := by
  have kept : ∀ lines : List TerminalLine, (lines.length ≤ maxLines.toNat ∧
      ∀ line ∈ lines, line.InBounds) →
      decodeTerminalLines (encodeTerminalLines lines) maxLines = some lines := by
    rintro lines ⟨few, bounds⟩
    exact run_of_reads (reads_getLines _ few (few.trans_lt maxLines.toNat_lt) bounds)
  have bounded : ∀ bytes lines, decodeTerminalLines bytes maxLines = some lines →
      lines.length ≤ maxLines.toNat ∧ ∀ line ∈ lines, line.InBounds :=
    fun bytes lines accepted => gives_of_run (gives_getLines _) accepted
  refine ⟨fun lines => ⟨bounded _ _, kept lines⟩, fun bytes lines accepted => ?_⟩
  obtain ⟨few, bounds⟩ := bounded bytes lines accepted
  exact ⟨few, bounds, kept lines ⟨few, bounds⟩⟩

/-! ### The header -/

variable {frame : TerminalHostFrame} {before : List TerminalHostRun}

namespace TerminalHostFrame

/-- The frame as far as its header. -/
def headerOf (frame : TerminalHostFrame) : TerminalHostFrame :=
  { rows := frame.rows, columns := frame.columns, flags := frame.flags,
    cursorShape := frame.cursorShape, echoAck := frame.echoAck, previousTop := frame.previousTop,
    screenTop := frame.screenTop, cursorRow := frame.cursorRow,
    cursorColumn := frame.cursorColumn }

theorem reads_getHeader (bounds : frame.HeaderInBounds) :
    Reads getHeader (putHeader frame) frame.headerOf := by
  obtain ⟨rows, columns, cursorRow, cursorColumn⟩ := bounds
  have someRows : frame.rows.toNat ≠ 0 := by omega
  have someColumns : frame.columns.toNat ≠ 0 := by omega
  have flags := frame.flags.toNat_lt
  have shape : frame.cursorShape.ctorIdx < 3 := by cases frame.cursorShape <;> decide
  have shapeCode : frame.cursorShape.ctorIdx ≤ TerminalCursorShape.bar.ctorIdx :=
    Nat.le_of_lt_succ shape
  have number32 (n : UInt32) : n.toNat < 2 ^ 64 := n.toNat_lt.trans (by decide)
  have inRow : frame.cursorRow.toNat < frame.rows.toNat := cursorRow
  have inColumn : frame.cursorColumn.toNat < frame.columns.toNat := cursorColumn
  refine (Reads.varint (number32 _)).bind ((Reads.varint (number32 _)).bind ?_)
  refine (Reads.varint (by omega)).bind ((Reads.byte (by omega)).bind (.room (Nat.zero_le _) ?_))
  refine .check ⟨someRows, someColumns, rows.2, columns.2, Nat.le_of_lt_succ flags, shapeCode⟩ ?_
  refine (Reads.varint frame.echoAck.toNat_lt).bind
    ((Reads.varint frame.previousTop.toNat_lt).bind ((Reads.varint frame.screenTop.toNat_lt).bind ?_))
  rw [← append_nil (putVarint frame.cursorColumn.toNat)]
  refine (Reads.varint (number32 _)).bind ((Reads.varint (number32 _)).bind ?_)
  refine .room (Nat.zero_le _) (.check ⟨inRow, inColumn⟩ ((Reads.pure _).answers ?_))
  simp only [UInt32.ofNat_toNat, UInt16.ofNat_toNat, UInt64.ofNat_toNat,
    TerminalCursorShape.ofNat_ctorIdx]
  rfl

theorem gives_getHeader : Gives getHeader HeaderInBounds := by
  refine (trivial _).bind fun rows _ => (trivial _).bind fun columns _ =>
    (trivial _).bind fun flags _ => (trivial _).bind fun shape _ =>
    (trivial _).bind fun _ _ => check.bind fun _ sizes => ?_
  refine (trivial _).bind fun _ _ => (trivial _).bind fun _ _ =>
    (trivial _).bind fun _ _ => (trivial _).bind fun cursorRow _ =>
    (trivial _).bind fun cursorColumn _ => (trivial _).bind fun _ _ =>
    check.bind fun _ cursor => .pure ?_
  obtain ⟨someRows, someColumns, fewRows, fewColumns, -, -⟩ := sizes
  obtain ⟨inRow, inColumn⟩ := cursor
  unfold kMaxHostTerminalDimension at fewRows fewColumns
  have small {n : Nat} (few : n ≤ 4096) : (ofNat n).toNat = n :=
    toNat_ofNat_of_lt' (few.trans_lt (by decide))
  constructor
  · change 1 ≤ (ofNat rows).toNat ∧ (ofNat rows).toNat ≤ 4096
    rw [small fewRows]
    omega
  · change 1 ≤ (ofNat columns).toNat ∧ (ofNat columns).toNat ≤ 4096
    rw [small fewColumns]
    omega
  · change (ofNat cursorRow).toNat < (ofNat rows).toNat
    rwa [small fewRows, small (by omega)]
  · change (ofNat cursorColumn).toNat < (ofNat columns).toNat
    rwa [small fewColumns, small (by omega)]

/-! ### The scrollback -/

/-- What the runs before `runs` add up to, in 64 bits, is what they add up to. -/
structure Adds (totals : RunTotals) (runs : List TerminalHostRun) : Prop where
  covered : totals.covered.toNat = coveredLines runs
  lineRuns : totals.lineRuns.toNat = runLines .lines runs
  promoted : totals.promoted.toNat = runLines .promote runs

theorem coveredLines_append (before after : List TerminalHostRun) :
    coveredLines (before ++ after) = coveredLines before + coveredLines after := by
  simp [coveredLines]

theorem coveredLines_singleton (run : TerminalHostRun) :
    coveredLines [run] = run.count.toNat := by
  simp [coveredLines]

theorem runLines_append (kind : TerminalHostRun.Kind) (before after : List TerminalHostRun) :
    runLines kind (before ++ after) = runLines kind before + runLines kind after := by
  simp [runLines]

theorem runLines_le_coveredLines (kind : TerminalHostRun.Kind) (runs : List TerminalHostRun) :
    runLines kind runs ≤ coveredLines runs := by
  induction runs with
  | nil => exact le_rfl
  | cons run runs ih =>
    unfold runLines coveredLines at ih ⊢
    rw [filter_cons, map_cons, sum_cons]
    split
    · rw [map_cons, sum_cons]
      omega
    · omega

/-- A sum of the counts of one kind, in 64 bits. -/
theorem add_runLines {kind : TerminalHostRun.Kind} {run : TerminalHostRun} {total : UInt64}
    (adds : total.toNat = runLines kind before) (fits : coveredLines (before ++ [run]) < 2 ^ 64) :
    (total + if run.kind = kind then run.count else 0).toNat = runLines kind (before ++ [run]) := by
  have less := runLines_le_coveredLines kind (before ++ [run])
  rw [runLines_append] at less ⊢
  have own : (if run.kind = kind then run.count else 0).toNat = runLines kind [run] := by
    unfold runLines
    split
    next same => simp [same]
    next other => simp [other]
  rw [UInt64.toNat_add, adds, own, Nat.mod_eq_of_lt (by omega)]

/-- As long as the runs cover less than 2^64 lines, no sum wraps. -/
theorem Adds.add {totals : RunTotals} (adds : Adds totals before) (run : TerminalHostRun)
    (fits : coveredLines (before ++ [run]) < 2 ^ 64) : Adds (totals.add run) (before ++ [run]) where
  covered := by
    rw [coveredLines_append, coveredLines_singleton] at fits ⊢
    rw [RunTotals.add, UInt64.toNat_add, adds.covered, Nat.mod_eq_of_lt fits]
  lineRuns := add_runLines adds.lineRuns fits
  promoted := add_runLines adds.promoted fits

theorem adds_nil : Adds {} [] := ⟨rfl, rfl, rfl⟩

/-- The runs may still cover what they do not cover yet. -/
theorem Adds.left {totals : RunTotals} (adds : Adds totals before) (moved : UInt64)
    (inside : coveredLines before ≤ moved.toNat) :
    (moved - totals.covered).toNat = moved.toNat - coveredLines before := by
  have less : totals.covered ≤ moved := by
    rw [UInt64.le_iff_toNat_le, adds.covered]
    exact inside
  rw [UInt64.toNat_sub_of_le _ _ less, adds.covered]

theorem append_cons_run (before : List TerminalHostRun) (run : TerminalHostRun)
    (runs : List TerminalHostRun) : before ++ run :: runs = before ++ [run] ++ runs := by
  rw [append_assoc, singleton_append]

theorem reads_getScrollbackRuns (moved : UInt64) (runs : List TerminalHostRun) :
    ∀ {totals : RunTotals} {before : List TerminalHostRun}, Adds totals before →
      (∀ run ∈ runs, run.count ≠ 0) → coveredLines (before ++ runs) ≤ moved.toNat →
      runLines .promote (before ++ runs) ≤ kMaxHostTerminalDimension →
      ∃ all, Adds all (before ++ runs) ∧
        Reads (getScrollbackRuns moved runs.length totals) (runs.flatMap putRun) (runs, all) := by
  induction runs with
  | nil =>
    intro totals before adds _ _ _
    exact ⟨totals, by rwa [append_nil], .pure _⟩
  | cons run runs ih =>
    intro totals before adds counted inside promoted
    rw [append_cons_run] at inside promoted ⊢
    have some : run.count.toNat ≠ 0 := fun none =>
      counted run mem_cons_self (UInt64.toNat.inj none)
    have movedSmall := moved.toNat_lt
    rw [coveredLines_append] at inside
    have own : coveredLines (before ++ [run]) = coveredLines before + run.count.toNat := by
      rw [coveredLines_append, coveredLines_singleton]
    have next := adds.add run (by omega)
    obtain ⟨all, adds', rest⟩ := ih next (fun other held => counted other (mem_cons_of_mem _ held))
      (by rwa [coveredLines_append]) promoted
    refine ⟨all, adds', ?_⟩
    have kind : run.kind.ctorIdx < 3 := by cases run.kind <;> decide
    have left := adds.left moved (by omega)
    have onePromoted : (totals.add run).promoted.toNat ≤ kMaxHostTerminalDimension := by
      rw [next.promoted]
      rw [runLines_append] at promoted
      exact (Nat.le_add_right _ _).trans promoted
    refine (Reads.byte (by omega)).bind ((Reads.varint run.count.toNat_lt).bind
      (.room (Nat.zero_le _) (.check ⟨Nat.le_of_lt_succ kind, some, by omega⟩ ?_)))
    rw [TerminalHostRun.Kind.ofNat_ctorIdx, UInt64.ofNat_toNat]
    exact .check onePromoted (rest.map _)

theorem gives_getScrollbackRuns {moved : UInt64} (count : Nat) :
    ∀ {totals : RunTotals} {before : List TerminalHostRun}, Adds totals before →
      coveredLines before ≤ moved.toNat →
      runLines .promote before ≤ kMaxHostTerminalDimension →
      Gives (getScrollbackRuns moved count totals) fun (runs, all) =>
        Adds all (before ++ runs) ∧ (∀ run ∈ runs, run.count ≠ 0) ∧
          runLines .promote (before ++ runs) ≤ kMaxHostTerminalDimension := by
  induction count with
  | zero =>
    intro totals before adds _ promoted
    exact .pure (by simpa using ⟨adds, promoted⟩)
  | succ count ih =>
    intro totals before adds inside _
    refine (trivial _).bind fun kind _ => varint.bind fun count small =>
      (trivial _).bind fun _ _ => check.bind fun _ checked =>
      check.bind fun _ onePromoted => ?_
    obtain ⟨-, some, less⟩ := checked
    rw [adds.left moved inside] at less
    have movedSmall := moved.toNat_lt
    have own : coveredLines (before ++ [⟨.ofNat kind, UInt64.ofNat count⟩]) =
        coveredLines before + count := by
      rw [coveredLines_append, coveredLines_singleton]
      exact congrArg _ (UInt64.toNat_ofNat_of_lt' small)
    have next := adds.add ⟨.ofNat kind, UInt64.ofNat count⟩ (by omega)
    rw [next.promoted] at onePromoted
    refine (ih next (by omega) onePromoted).bind ?_
    rintro ⟨runs, all⟩ ⟨adds', counted, promoted⟩
    refine .pure ?_
    dsimp only
    rw [append_cons_run]
    refine ⟨adds', ?_, promoted⟩
    rintro run (_ | ⟨_, held⟩)
    · intro none
      have zero := congrArg UInt64.toNat none
      exact some ((UInt64.toNat_ofNat_of_lt' small).symm.trans zero)
    · exact counted run held

/-- As many runs as lines at most. -/
theorem length_le_coveredLines {runs : List TerminalHostRun} (counted : ∀ run ∈ runs, run.count ≠ 0) :
    runs.length ≤ coveredLines runs := by
  induction runs with
  | nil => exact le_rfl
  | cons run runs ih =>
    have rest := ih fun other held => counted other (mem_cons_of_mem _ held)
    have some : run.count.toNat ≠ 0 := fun none =>
      counted run mem_cons_self (UInt64.toNat.inj none)
    have split : coveredLines (run :: runs) = run.count.toNat + coveredLines runs := by
      simp [coveredLines]
    rw [length_cons]
    omega

theorem length_putRun_pos (run : TerminalHostRun) : 0 < (putRun run).length := by
  rw [putRun, length_append]
  exact Nat.lt_add_right _ Nat.one_pos

theorem reads_getScrollback {t : TerminalHostFrame} (bounds : frame.ScrollbackInBounds)
    (sameTop : t.moved = frame.moved) : Reads (getScrollback t) (putScrollback frame)
      { t with scrollback := frame.scrollback, scrollbackLines := frame.scrollbackLines } := by
  obtain ⟨counted, covers, promoted, lines, each⟩ := bounds
  have movedSmall := frame.moved.toNat_lt
  have few := length_le_coveredLines counted
  have fewLines := runLines_le_coveredLines .lines frame.scrollback
  obtain ⟨all, adds, runs⟩ := reads_getScrollbackRuns t.moved frame.scrollback
    adds_nil counted (by rw [nil_append, sameTop, covers]) promoted
  rw [nil_append] at adds
  have covered : all.covered = t.moved := by
    apply UInt64.toNat.inj
    rw [adds.covered, covers, sameTop]
  have page := reads_getLines all.lineRuns.toNat (by rw [adds.lineRuns, lines]) (by omega) each
  refine (Reads.varint (by omega)).bind (.room ?_ (runs.bind (.check covered ?_)))
  · rw [length_append]
    exact (length_le_flatMap length_putRun_pos _).trans (Nat.le_add_right _ _)
  rw [← append_nil (putLines _)]
  exact page.bind (.check (by rw [adds.lineRuns, lines]) (.pure _))

/-- Whatever is read of the scrollback covers exactly what moved. -/
theorem gives_getScrollback (start : TerminalHostFrame) :
    Gives (getScrollback start) fun frame => ∃ runs lines,
      frame = { start with scrollback := runs, scrollbackLines := lines } ∧
        frame.ScrollbackInBounds := by
  refine (trivial _).bind fun count _ => (trivial _).bind fun _ _ =>
    (gives_getScrollbackRuns count adds_nil (Nat.zero_le _) (Nat.zero_le _)).bind ?_
  rintro ⟨runs, all⟩ ⟨adds, counted, promoted⟩
  refine check.bind fun _ covered => (gives_getLines _).bind fun lines page =>
    check.bind fun _ size => .pure ⟨runs, lines, rfl, ?_⟩
  rw [nil_append] at adds promoted
  constructor
  · exact counted
  · rw [← adds.covered, covered]
    rfl
  · exact promoted
  · exact size.trans adds.lineRuns
  · exact page.2

/-! ### The screen -/

theorem le_keepBytes (rows : Nat) : rows ≤ 8 * keepBytes rows := by
  unfold keepBytes
  omega

/-- A byte's bits, as many as there are rows left. -/
theorem map_testBit_packBits (bits : List Bool) :
    (List.range bits.length).map (packBits bits).testBit = bits := by
  apply ext_getElem
  · simp
  · intro place before after
    simp [after]

theorem reads_getKeep (bytes : Nat) : ∀ (keep : List Bool), keep.length ≤ 8 * bytes →
    Reads (getKeep bytes keep.length) (putKeep bytes keep) keep := by
  induction bytes with
  | zero =>
    intro keep room
    obtain rfl := length_eq_zero_iff.mp (Nat.le_zero.mp room)
    exact .pure []
  | succ bytes ih =>
    intro keep room
    have rest := ih (keep.drop 8) (by rw [length_drop]; omega)
    rw [length_drop] at rest
    have byte := Reads.byte (packBits_byte (length_take_le 8 keep))
    refine byte.bind ((rest.map _).answers ?_)
    rw [← length_take, map_testBit_packBits, take_append_drop]

theorem gives_getKeep (bytes : Nat) : ∀ (rows : Nat), rows ≤ 8 * bytes →
    Gives (getKeep bytes rows) (·.length = rows) := by
  induction bytes with
  | zero =>
    intro rows room
    exact .pure (Nat.le_zero.mp room).symm
  | succ bytes ih =>
    intro rows room
    refine (trivial _).bind fun bits _ => (ih (rows - 8) (by omega)).bind fun rest size =>
      .pure ?_
    rw [length_append, length_map, length_range, size]
    omega

theorem reads_getScreen {t : TerminalHostFrame} (bounds : frame.ScreenInBounds)
    (sameRows : t.rows = frame.rows) : Reads (getScreen t) (putScreen frame)
      { t with screenKeep := frame.screenKeep, screenLines := frame.screenLines } := by
  obtain ⟨rows, lines, each⟩ := bounds
  have rowsSmall := frame.rows.toNat_lt
  have sent := count_le_length (a := false) (l := frame.screenKeep)
  have page := reads_getLines (frame.screenKeep.count false) (by omega) (by omega) each
  refine (Reads.varint (by omega)).bind (.check (by rw [sameRows]; exact rows) ?_)
  refine (reads_getKeep _ _ (le_keepBytes _)).bind (.room (Nat.zero_le _) ?_)
  rw [← append_nil (putLines _)]
  exact page.bind (.check lines (.pure _))

theorem gives_getScreen (start : TerminalHostFrame) :
    Gives (getScreen start) fun frame => ∃ keep lines,
      frame = { start with screenKeep := keep, screenLines := lines } ∧ frame.ScreenInBounds := by
  refine (trivial _).bind fun screen _ => check.bind fun _ few =>
    (gives_getKeep _ _ (le_keepBytes _)).bind fun keep size => (trivial _).bind fun _ _ =>
    (gives_getLines _).bind fun lines page => check.bind fun _ sent =>
    .pure ⟨keep, lines, rfl, ?_⟩
  constructor
  · exact size.trans_le few
  · exact sent
  · exact page.2

/-! ### The signals -/

theorem textBytes_small : kMaxHostTerminalTextBytes < 2 ^ 64 := by decide

theorem reads_getText {text : List UInt8} (fits : text.length ≤ kMaxHostTerminalTextBytes) :
    Reads getText (putBytes text) text := Reads.bytes fits textBytes_small

theorem reads_getNotification {notification : TerminalHostNotification}
    (title : notification.title.length ≤ kMaxHostTerminalTextBytes)
    (body : notification.body.length ≤ kMaxHostTerminalTextBytes) :
    Reads getNotification (putNotification notification) notification :=
  (reads_getText title).bind ((reads_getText body).map (TerminalHostNotification.mk _))

theorem reads_getHostLink {link : TerminalHostLink} (some : link.id ≠ 0)
    (fits : link.uri.length ≤ kMaxHostTerminalTextBytes) :
    Reads getHostLink (putLink link) link := by
  have below := link.id.toNat_lt
  have nonzero : link.id.toNat ≠ 0 := fun zero => some (UInt16.toNat.inj zero)
  refine (Reads.varint (by omega)).bind (.room (Nat.zero_le _) (.check (by omega) ?_))
  rw [UInt16.ofNat_toNat]
  exact (reads_getText fits).map (TerminalHostLink.mk link.id)

theorem length_putLink_pos (link : TerminalHostLink) : 0 < (putLink link).length := by
  rw [putLink, length_append]
  exact Nat.lt_add_right _ (length_putVarint_pos _)

theorem reads_getLinks {links : List TerminalHostLink} (some : links ≠ [])
    (few : links.length ≤ 0xffff)
    (each : ∀ link ∈ links, link.id ≠ 0 ∧ link.uri.length ≤ kMaxHostTerminalTextBytes) :
    Reads getLinks (putLinks links) links := by
  have items := Reads.many putLink id links fun link held =>
    reads_getHostLink (each link held).1 (each link held).2
  rw [map_id] at items
  have nonzero : links.length ≠ 0 := fun zero => some (length_eq_zero_iff.mp zero)
  exact (Reads.varint (by omega)).bind (.check ⟨nonzero, few⟩
    (.room (length_le_flatMap length_putLink_pos links) items))

/-- No links are no field of the frame. -/
theorem reads_optional_links {links : List TerminalHostLink} (few : links.length ≤ 0xffff)
    (each : ∀ link ∈ links, link.id ≠ 0 ∧ link.uri.length ≤ kMaxHostTerminalTextBytes) :
    ∃ present, Reads (optional (!links.isEmpty) getLinks)
      (if links.isEmpty then [] else putLinks links) present ∧ present.getD [] = links := by
  cases links with
  | nil => exact ⟨none, .pure none, rfl⟩
  | cons link links =>
    have read := reads_getLinks (cons_ne_nil _ _) few each
    exact ⟨some (link :: links), read.map some, rfl⟩

theorem reads_getSignals {t : TerminalHostFrame} (bounds : frame.SignalsInBounds) :
    Reads (getSignals t) (putSignals frame)
      { t with
        title := frame.title, workingDirectory := frame.workingDirectory,
        clipboard := frame.clipboard, notification := frame.notification,
        openUrl := frame.openUrl, links := frame.links } := by
  obtain ⟨links, read, same⟩ := reads_optional_links bounds.links bounds.link
  have openUrl := Reads.optional putBytes frame.openUrl fun text held =>
    Reads.bytes (bounds.openUrl text held) (by decide)
  refine (Reads.byte (packBits_byte (by simp [presentBits]))).bind ?_
  simp only [testBit_packBits]
  refine (Reads.optional _ _ fun text held => reads_getText (bounds.title text held)).bind ?_
  refine (Reads.optional _ _ fun text held => reads_getText (bounds.workingDirectory text held)).bind ?_
  refine (Reads.optional _ _ fun text held => reads_getText (bounds.clipboard text held)).bind ?_
  refine (Reads.optional _ _ fun notification held => reads_getNotification
    (bounds.notification notification held).1 (bounds.notification notification held).2).bind ?_
  refine read.bind ((openUrl.map _).answers ?_)
  rw [same]

theorem gives_getNotification : Gives getNotification fun notification =>
    notification.title.length ≤ kMaxHostTerminalTextBytes ∧
      notification.body.length ≤ kMaxHostTerminalTextBytes :=
  (Gives.bytes _).bind fun _ title => (Gives.bytes _).bind fun _ body => .pure ⟨title, body⟩

theorem gives_getHostLink : Gives getHostLink fun link =>
    link.id ≠ 0 ∧ link.uri.length ≤ kMaxHostTerminalTextBytes := by
  refine (trivial _).bind fun id _ => (trivial _).bind fun _ _ =>
    check.bind fun _ inside => (Gives.bytes _).bind fun uri fits => .pure ⟨?_, fits⟩
  intro zero
  have small : (UInt16.ofNat id).toNat = id :=
    UInt16.toNat_ofNat_of_lt' (inside.2.trans_lt (by decide))
  exact inside.1 (small.symm.trans (congrArg UInt16.toNat zero))

theorem gives_getLinks : Gives getLinks fun links => links.length ≤ 0xffff ∧
    ∀ link ∈ links, link.id ≠ 0 ∧ link.uri.length ≤ kMaxHostTerminalTextBytes := by
  refine (trivial _).bind fun count _ => check.bind fun _ inside =>
    (trivial _).bind fun _ _ => ?_
  intro reader links reader' answered
  obtain ⟨size, each⟩ := gives_getHostLink.many count answered
  exact ⟨size ▸ inside.2, each⟩

theorem gives_getSignals (start : TerminalHostFrame) :
    Gives (getSignals start) fun frame => frame.SignalsInBounds ∧
      frame = { frame with
        rows := start.rows, columns := start.columns, flags := start.flags,
        cursorShape := start.cursorShape, echoAck := start.echoAck,
        previousTop := start.previousTop, screenTop := start.screenTop,
        cursorRow := start.cursorRow, cursorColumn := start.cursorColumn,
        scrollback := start.scrollback, scrollbackLines := start.scrollbackLines,
        screenKeep := start.screenKeep, screenLines := start.screenLines } := by
  refine (trivial _).bind fun present _ => ?_
  refine ((Gives.bytes _).optional _).bind fun title titleFits =>
    ((Gives.bytes _).optional _).bind fun workingDirectory workingDirectoryFits =>
    ((Gives.bytes _).optional _).bind fun clipboard clipboardFits =>
    (gives_getNotification.optional _).bind fun notification notificationFits =>
    (gives_getLinks.optional _).bind fun links linksFit =>
    ((Gives.bytes _).optional _).bind fun openUrl openUrlFits => .pure ⟨?_, rfl⟩
  refine ⟨titleFits, workingDirectoryFits, clipboardFits, notificationFits, openUrlFits, ?_, ?_⟩
  · cases links with
    | none => exact Nat.zero_le _
    | some links => exact (linksFit links rfl).1
  · cases links with
    | none =>
      intro link held
      cases held
    | some links => exact (linksFit links rfl).2

/-! ### Frames -/

theorem reads_getFrame (bounds : frame.InBounds) :
    Reads getFrame (encodeTerminalHostFrame frame) frame := by
  have scrollback := reads_getScrollback (t := frame.headerOf) bounds.scrollback rfl
  have screen := reads_getScreen (t := { frame.headerOf with
    scrollback := frame.scrollback, scrollbackLines := frame.scrollbackLines }) bounds.screen rfl
  have signals := reads_getSignals (t := { frame.headerOf with
    scrollback := frame.scrollback, scrollbackLines := frame.scrollbackLines,
    screenKeep := frame.screenKeep, screenLines := frame.screenLines }) bounds.signals
  exact (reads_getHeader bounds.header).bind (scrollback.bind (screen.bind signals))

theorem gives_getFrame : Gives getFrame InBounds := by
  refine gives_getHeader.bind fun first header => (gives_getScrollback first).bind ?_
  rintro _ ⟨runs, lines, rfl, scrollback⟩
  refine (gives_getScreen _).bind ?_
  rintro _ ⟨keep, screenLines, rfl, screen⟩
  intro reader frame reader' answered
  obtain ⟨signals, same⟩ := gives_getSignals _ answered
  rw [same]
  exact ⟨{ header with }, { scrollback with }, { screen with }, { signals with }⟩

/-- A frame is what its encoding decodes to exactly where it is within the protocol's bounds;
whatever the decoder accepts is within them, covers in its runs what moved, without a wrap, and
is what its own encoding decodes to. -/
theorem decodeTerminalHostFrame_exact :
    (∀ frame, decodeTerminalHostFrame (encodeTerminalHostFrame frame) = some frame ↔
        frame.InBounds) ∧
      ∀ bytes frame, decodeTerminalHostFrame bytes = some frame →
        frame.InBounds ∧ coveredLines frame.scrollback = frame.moved.toNat ∧
          decodeTerminalHostFrame (encodeTerminalHostFrame frame) = some frame := by
  have kept {frame : TerminalHostFrame} (bounds : frame.InBounds) :
      decodeTerminalHostFrame (encodeTerminalHostFrame frame) = some frame :=
    run_of_reads (reads_getFrame bounds)
  have bounded {bytes : List UInt8} {frame : TerminalHostFrame}
      (accepted : decodeTerminalHostFrame bytes = some frame) : frame.InBounds :=
    gives_of_run gives_getFrame accepted
  refine ⟨fun frame => ⟨bounded, kept⟩, fun bytes frame accepted => ?_⟩
  exact ⟨bounded accepted, (bounded accepted).scrollback.covers, kept (bounded accepted)⟩

end TerminalHostFrame

/-! ### Input events -/

namespace TerminalInputEvent

/-- The fields the kind sends; the others are left at their defaults. -/
def used (event : TerminalInputEvent) : TerminalInputEvent :=
  match event.kind with
  | .key => { kind := event.kind, seq := event.seq, key := event.key }
  | .paste | .bytes => { kind := event.kind, seq := event.seq, text := event.text }
  | .mouseButton | .mouseMotion =>
      { kind := event.kind, seq := event.seq, button := event.button, pressed := event.pressed,
        row := event.row, column := event.column, modifiers := event.modifiers }
  | .focus => { kind := event.kind, seq := event.seq, pressed := event.pressed }

/-- The bounds of the fields the kind sends. -/
def InBounds (event : TerminalInputEvent) : Prop :=
  match event.kind with
  | .key => event.key.codepoint.toNat ≤ 0x10ffff
  | .paste | .bytes => event.text.length ≤ kMaxHostTerminalTextBytes
  | .mouseButton | .mouseMotion =>
      event.row.toNat ≤ kMaxHostTerminalDimension ∧ event.column.toNat ≤ kMaxHostTerminalDimension
  | .focus => True

theorem inBounds_used (event : TerminalInputEvent) : event.used.InBounds ↔ event.InBounds := by
  obtain ⟨kind, seq, key, text, button, pressed, row, column, modifiers⟩ := event
  cases kind <;> rfl

theorem reads_getKey {key : TerminalKeyPress} (bounds : key.codepoint.toNat ≤ 0x10ffff) :
    Reads getKey (putKey key) key := by
  have known : key.key.ctorIdx < 27 := by cases key.key <;> decide
  have below : key.codepoint.toNat < 2 ^ 64 := key.codepoint.toNat_lt.trans (by decide)
  have mods : packBits [key.shift, key.alt, key.ctrl, key.super] < 256 := packBits_byte (by simp)
  refine (Reads.byte (by omega)).bind ((Reads.varint below).bind ?_)
  refine (Reads.byte mods).bind (.check ⟨Nat.le_of_lt_succ known, bounds⟩ ?_)
  refine (Reads.pure _).answers ?_
  simp only [testBit_packBits, TerminalKeyPress.Key.ofNat_ctorIdx, UInt32.ofNat_toNat]
  rfl

theorem pressed_code (pressed : Bool) : (pressed.toNat != 0) = pressed := by
  cases pressed <;> rfl

theorem reads_pressed (pressed : Bool) : Reads (le 1) [UInt8.ofNat pressed.toNat] pressed.toNat :=
  .byte (pressed.toNat_lt.trans (by decide))

theorem reads_getMouse {event t : TerminalInputEvent}
    (bounds : event.row.toNat ≤ kMaxHostTerminalDimension ∧
      event.column.toNat ≤ kMaxHostTerminalDimension) :
    Reads (getMouse t) (putMouse event)
      { t with
        button := event.button, pressed := event.pressed, row := event.row,
        column := event.column, modifiers := event.modifiers } := by
  have button : event.button.ctorIdx < 6 := by cases event.button <;> decide
  have number32 (n : UInt32) : n.toNat < 2 ^ 64 := n.toNat_lt.trans (by decide)
  have modifiers := event.modifiers.toNat_lt
  refine (Reads.byte (by omega)).bind ((reads_pressed _).bind ((Reads.varint (number32 _)).bind
    ((Reads.varint (number32 _)).bind ?_)))
  rw [← append_nil (putVarint event.modifiers.toNat)]
  refine (Reads.varint (by omega)).bind (.check ⟨Nat.le_of_lt_succ button, bounds.1, bounds.2,
    Nat.le_of_lt_succ modifiers⟩ ((Reads.pure _).answers ?_))
  rw [TerminalMouseButton.ofNat_ctorIdx, pressed_code]
  simp only [UInt32.ofNat_toNat, UInt16.ofNat_toNat]

theorem reads_getEvent {event : TerminalInputEvent} (bounds : event.InBounds) :
    Reads getEvent (encodeTerminalInputEvent event) event.used := by
  have known : event.kind.ctorIdx < 6 := by cases event.kind <;> decide
  refine (Reads.byte (by omega)).bind ?_
  rw [← append_nil (putVarint _ ++ _)]
  refine Reads.bind ?_ (.room (Nat.zero_le _) (.pure event.used))
  refine (Reads.varint event.seq.toNat_lt).bind (.room (Nat.zero_le _)
    (.check (Nat.le_of_lt_succ known) ?_))
  rw [TerminalInputEvent.Kind.ofNat_ctorIdx, UInt64.ofNat_toNat]
  obtain ⟨kind, seq, key, text, button, pressed, row, column, modifiers⟩ := event
  cases kind with
  | key => exact (reads_getKey bounds).map _
  | paste => exact (TerminalHostFrame.reads_getText bounds).map _
  | mouseButton => exact reads_getMouse bounds
  | mouseMotion => exact reads_getMouse bounds
  | focus => exact ((reads_pressed pressed).map _).answers (by rw [pressed_code]; rfl)
  | bytes => exact (TerminalHostFrame.reads_getText bounds).map _

theorem encodeTerminalInputEvent_ne_nil (event : TerminalInputEvent) :
    encodeTerminalInputEvent event ≠ [] := cons_ne_nil _ _

/-! ### What the event decoder answers -/

theorem gives_getKey : Gives getKey fun key => key.codepoint.toNat ≤ 0x10ffff := by
  refine (trivial _).bind fun key _ => (trivial _).bind fun codepoint _ =>
    (trivial _).bind fun mods _ => check.bind fun _ inside => .pure ?_
  exact (toNat_ofNat_of_lt' (inside.2.trans_lt (by decide))).trans_le inside.2

/-- A decoded event is within the bounds and leaves the fields it does not send alone. -/
def Fits (event : TerminalInputEvent) : Prop := event.InBounds ∧ event.used = event

theorem gives_getMouse {t : TerminalInputEvent} (mouse : t.kind = .mouseButton ∨ t.kind = .mouseMotion)
    (fresh : t.used = t) : Gives (getMouse t) Fits := by
  refine (trivial _).bind fun button _ => (trivial _).bind fun pressed _ =>
    (trivial _).bind fun row _ => (trivial _).bind fun column _ =>
    (trivial _).bind fun modifiers _ => check.bind fun _ inside => .pure ?_
  obtain ⟨-, fewRows, fewColumns, -⟩ := inside
  have size : kMaxHostTerminalDimension < size := by decide
  have rows := (toNat_ofNat_of_lt' (fewRows.trans_lt size)).trans_le fewRows
  have columns := (toNat_ofNat_of_lt' (fewColumns.trans_lt size)).trans_le fewColumns
  obtain ⟨kind, seq, key, text, button, pressed, row, column, modifiers⟩ := t
  rcases mouse with rfl | rfl
  · obtain ⟨-, -, rfl, rfl, -⟩ := fresh
    exact ⟨⟨rows, columns⟩, rfl⟩
  · obtain ⟨-, -, rfl, rfl, -⟩ := fresh
    exact ⟨⟨rows, columns⟩, rfl⟩

theorem gives_getEventBody (kind : Nat) : Gives (getEventBody kind) Fits := by
  refine (trivial _).bind fun seq _ => (trivial _).bind fun _ _ =>
    check.bind fun _ _ => ?_
  cases Kind.ofNat kind with
  | key => exact gives_getKey.bind fun key inside => .pure ⟨inside, rfl⟩
  | paste => exact (Gives.bytes _).bind fun text fits => .pure ⟨fits, rfl⟩
  | mouseButton => exact gives_getMouse (.inl rfl) rfl
  | mouseMotion => exact gives_getMouse (.inr rfl) rfl
  | focus => exact (trivial _).bind fun pressed _ => .pure ⟨⟨⟩, rfl⟩
  | bytes => exact (Gives.bytes _).bind fun text fits => .pure ⟨fits, rfl⟩

theorem gives_getEvent : Gives getEvent Fits :=
  (trivial _).bind fun _ _ => (gives_getEventBody _).bind fun _ fits =>
    (trivial _).bind fun _ _ => .pure fits

/-! ### The batch loop -/

/-- A batch of events: the fields their kinds send are decoded exactly where they are within the
bounds; whatever is decoded is, and is what its own encoding decodes to. -/
theorem decodeTerminalInputEvents_exact :
    (∀ events : List TerminalInputEvent,
        decodeTerminalInputEvents (events.flatMap encodeTerminalInputEvent) =
          some (events.map used) ↔ ∀ event ∈ events, event.InBounds) ∧
      ∀ bytes events, decodeTerminalInputEvents bytes = some events →
        (∀ event ∈ events, event.InBounds) ∧
          decodeTerminalInputEvents (events.flatMap encodeTerminalInputEvent) = some events := by
  have kept {events : List TerminalInputEvent} (bounds : ∀ event ∈ events, event.InBounds) :
      decodeTerminalInputEvents (events.flatMap encodeTerminalInputEvent) =
        some (events.map used) := by
    have each : ∀ event ∈ events, Reads getEvent (encodeTerminalInputEvent event) event.used :=
      fun event held => reads_getEvent (bounds event held)
    have enough := length_le_flatMap
      (fun event => length_pos_iff.mpr (encodeTerminalInputEvent_ne_nil event)) events
    unfold decodeTerminalInputEvents Decoder.run
    rw [untilEnd_put encodeTerminalInputEvent_ne_nil _ enough each]
    rfl
  have fits {bytes : List UInt8} {events : List TerminalInputEvent}
      (accepted : decodeTerminalInputEvents bytes = some events) : ∀ event ∈ events, event.Fits :=
    gives_of_run (gives_getEvent.untilEnd _) accepted
  refine ⟨fun events => ⟨fun accepted event held => ?_, kept⟩, fun bytes events accepted => ?_⟩
  · exact event.inBounds_used.mp (fits accepted _ (mem_map_of_mem held)).1
  · have bounds := fun event held => (fits accepted event held).1
    have canonical : events.map used = events :=
      (map_congr_left fun event held => (fits accepted event held).2).trans (map_id _)
    exact ⟨bounds, (kept bounds).trans (congrArg some canonical)⟩

end TerminalInputEvent

/-- The wire loses nothing within the protocol's bounds and lets nothing past them: of a frame,
of a page of lines and of a batch of input events. -/
theorem hostWire_exact :
    ((∀ frame : TerminalHostFrame,
        frame.InBounds ↔ decodeTerminalHostFrame (encodeTerminalHostFrame frame) = some frame) ∧
      ∀ bytes frame, decodeTerminalHostFrame bytes = some frame →
        frame.InBounds ∧ coveredLines frame.scrollback = frame.moved.toNat ∧
          decodeTerminalHostFrame (encodeTerminalHostFrame frame) = some frame) ∧
      (∀ maxLines : UInt64,
        (∀ lines : List TerminalLine,
          lines.length ≤ maxLines.toNat ∧ (∀ line ∈ lines, line.InBounds) ↔
            decodeTerminalLines (encodeTerminalLines lines) maxLines = some lines) ∧
        ∀ bytes lines, decodeTerminalLines bytes maxLines = some lines →
          lines.length ≤ maxLines.toNat ∧ (∀ line ∈ lines, line.InBounds) ∧
            decodeTerminalLines (encodeTerminalLines lines) maxLines = some lines) ∧
      (∀ events : List TerminalInputEvent,
        (∀ event ∈ events, event.InBounds) ↔
          decodeTerminalInputEvents (events.flatMap encodeTerminalInputEvent) =
            some (events.map TerminalInputEvent.used)) ∧
      ∀ bytes events, decodeTerminalInputEvents bytes = some events →
        (∀ event ∈ events, event.InBounds) ∧
          decodeTerminalInputEvents (events.flatMap encodeTerminalInputEvent) = some events := by
  obtain ⟨frames, acceptedFrames⟩ := TerminalHostFrame.decodeTerminalHostFrame_exact
  obtain ⟨events, acceptedEvents⟩ := TerminalInputEvent.decodeTerminalInputEvents_exact
  refine ⟨⟨fun frame => (frames frame).symm, acceptedFrames⟩, fun maxLines => ?_,
    fun batch => (events batch).symm, acceptedEvents⟩
  obtain ⟨pages, acceptedPages⟩ := decodeTerminalLines_exact maxLines
  exact ⟨fun lines => (pages lines).symm, acceptedPages⟩

end Microide.Terminal
