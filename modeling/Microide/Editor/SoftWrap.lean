/-
Soft wrap of one line.

`WrapLineSegments` walks a line and breaks before the first code point that does not fit the row:
after the last whitespace of the row, with the marks behind it, or at that code point itself. It
goes back to the break and starts the next row there, so the walk of a row is a walk from the
row's start to its break.

**Main results.** `scanRow_spec`: what a row's walk finds; `wrapLineSegments_wrapped`: the rows of
a line as pieces of its code points; `wrapLineSegments_softWraps`.
-/

import Microide.Editor.VisualColumns

namespace Microide.Editor

open List Text

/-- What `WrapLineSegments` emits for a row. -/
structure WrapRow where
  visualStart : Nat := 0
  visualEnd : Nat := 0
  indent : Nat := 0
  deriving DecidableEq

/-- The loop of `HangingIndentFor`. -/
def leadingIndent (tabSize indentVisual : Nat) : Line → Nat
  | [] => indentVisual
  | ch :: rest =>
    if ch ≠ spaceByte ∧ ch ≠ tabByte then indentVisual
    else leadingIndent tabSize (advanceVisualColumn tabSize indentVisual ch) rest

/-- `HangingIndentFor`. -/
def hangingIndentFor (lineText : Line) (tabSize wrapColumns : Nat) : Nat :=
  min (leadingIndent tabSize 0 lineText) (wrapColumns / 2)

/-- Where the walk of a row is, and its last break opportunity. -/
structure RowScan where
  visual : Nat
  i : Nat
  lastBreakVisual : Nat
  lastBreakText : Nat

/-- Whether a code point is a space or a tab. -/
def isBlank (glyph : Line) : Bool := glyph.head? == some spaceByte || glyph.head? == some tabByte

/-- The step of the walk over a code point that fits, to the visual column behind it. -/
def RowScan.advance (scan : RowScan) (nextVisual : Nat) (glyph : Line) : RowScan :=
  let next := scan.i + glyph.length
  if isBlank glyph then ⟨nextVisual, next, nextVisual, next⟩
  else if nextVisual = scan.visual ∧ scan.lastBreakText = scan.i then
    ⟨nextVisual, next, scan.lastBreakVisual, next⟩
  else ⟨nextVisual, next, scan.lastBreakVisual, scan.lastBreakText⟩

/-- The walk of a row over the code points from its start on: the visual column it ends at, and
the offset of the break, none at the end of the line. -/
def scanRow (tabSize effectiveWrap rowStartVisual rowStartText : Nat) (scan : RowScan) :
    List Line → Nat × Option Nat
  | [] => (scan.visual, none)
  | glyph :: glyphs =>
    let nextVisual := advanceVisualColumnAt tabSize scan.visual glyph
    if nextVisual > scan.visual ∧ nextVisual - rowStartVisual > effectiveWrap ∧
        scan.visual > rowStartVisual then
      if scan.lastBreakText > rowStartText ∧ scan.lastBreakVisual > rowStartVisual then
        (scan.lastBreakVisual, some scan.lastBreakText)
      else (scan.visual, some scan.i)
    else
      scanRow tabSize effectiveWrap rowStartVisual rowStartText (scan.advance nextVisual glyph)
        glyphs

/-- The hanging indent of a row. -/
def indentAt (hangingIndent rowStartVisual : Nat) : Nat :=
  if rowStartVisual = 0 then 0 else hangingIndent

/-- The rows from a row's start on, at most `rounds` of them. -/
def wrapRowsFrom (tabSize wrapColumns hangingIndent : Nat) (lineText : Line) :
    Nat → Nat → Nat → List WrapRow
  | 0, _, _ => []
  | rounds + 1, rowStartVisual, rowStartText =>
    let indent := indentAt hangingIndent rowStartVisual
    let found := scanRow tabSize (wrapColumns - indent) rowStartVisual rowStartText
      ⟨rowStartVisual, rowStartText, rowStartVisual, rowStartText⟩
      (codePoints (lineText.drop rowStartText))
    ⟨rowStartVisual, found.1, indent⟩ ::
      match found.2 with
      | none => []
      | some breakText =>
        wrapRowsFrom tabSize wrapColumns hangingIndent lineText rounds found.1 breakText

/-- `WrapLineSegmentsFrom`. Every row takes a byte. -/
def wrapLineSegmentsFrom (tail : Line) (tabSize wrapColumns visualBase hangingIndent : Nat) :
    List WrapRow :=
  if tail = [] then [⟨visualBase, visualBase, indentAt hangingIndent visualBase⟩]
  else wrapRowsFrom tabSize wrapColumns hangingIndent tail tail.length visualBase 0

/-- `WrapLineSegments`. -/
def wrapLineSegments (lineText : Line) (tabSize wrapColumns : Nat) : List WrapRow :=
  if lineText = [] then [⟨0, 0, 0⟩]
  else
    wrapLineSegmentsFrom lineText tabSize wrapColumns 0
      (hangingIndentFor lineText tabSize wrapColumns)

/-! ### The walk of a row -/

/-- The cells a row may take: the wrap width, or one code point that is wider. -/
def FitsRow (tabSize effectiveWrap start : Nat) (glyphs : List Line) : Prop :=
  walkFrom tabSize start glyphs - start ≤ effectiveWrap ∨
    glyphs.countP (fun glyph => !isZeroWidth glyph) ≤ 1

/-- A cluster begins: what comes next is no mark. -/
def BeginsCluster (glyphs : List Line) : Prop := ∀ glyph ∈ glyphs.head?, isZeroWidth glyph = false

/-- The walk of a row that has come over the code points `done`. -/
structure Scanned (tabSize effectiveWrap start startText : Nat) (done : List Line)
    (scan : RowScan) : Prop where
  visual : scan.visual = walkFrom tabSize start done
  offset : scan.i = startText + done.flatten.length
  fits : FitsRow tabSize effectiveWrap start done
  opportunity : ∃ before behind, done = before ++ behind ∧
    scan.lastBreakVisual = walkFrom tabSize start before ∧
    scan.lastBreakText = startText + before.flatten.length ∧ BeginsCluster behind

section RowWalk

variable {tabSize effectiveWrap start startText : Nat} {done : List Line} {scan : RowScan}

theorem FitsRow.front {before behind : List Line}
    (fits : FitsRow tabSize effectiveWrap start (before ++ behind)) :
    FitsRow tabSize effectiveWrap start before := by
  rcases fits with narrow | single
  · rw [walkFrom_append] at narrow
    have := le_walkFrom tabSize (walkFrom tabSize start before) behind
    exact .inl (by omega)
  · rw [countP_append] at single
    exact .inr (by omega)

theorem BeginsCluster.append {behind more : List Line} (begins : BeginsCluster behind)
    (begins' : behind = [] → BeginsCluster more) : BeginsCluster (behind ++ more) := by
  cases behind with
  | nil => exact begins' rfl
  | cons glyph behind => exact begins

/-- A code point that fits keeps the invariant of the walk. -/
theorem Scanned.advance (scanned : Scanned tabSize effectiveWrap start startText done scan)
    {glyph : Line} (some_ : ∀ glyph ∈ done, glyph ≠ [])
    (stays : ¬(advanceVisualColumnAt tabSize scan.visual glyph > scan.visual ∧
      advanceVisualColumnAt tabSize scan.visual glyph - start > effectiveWrap ∧
        scan.visual > start)) :
    Scanned tabSize effectiveWrap start startText (done ++ [glyph])
      (scan.advance (advanceVisualColumnAt tabSize scan.visual glyph) glyph) := by
  obtain ⟨visual, offset, fits, before, behind, rfl, breakVisual, breakText, begins⟩ := scanned
  have next : advanceVisualColumnAt tabSize scan.visual glyph =
      walkFrom tabSize start (before ++ behind ++ [glyph]) := by
    rw [walkFrom_append, ← visual]
    rfl
  have nextText : scan.i + glyph.length =
      startText + (before ++ behind ++ [glyph]).flatten.length := by
    rw [flatten_append, length_append, offset, flatten_singleton, Nat.add_assoc]
  have fits' : FitsRow tabSize effectiveWrap start (before ++ behind ++ [glyph]) := by
    rw [FitsRow, ← next, countP_append, countP_singleton]
    by_cases mark : isZeroWidth glyph = true
    · rw [advanceVisualColumnAt_eq_iff.mpr mark, visual, mark]
      exact fits
    · have cell : scan.visual < advanceVisualColumnAt tabSize scan.visual glyph :=
        lt_advanceVisualColumnAt_iff.mpr (eq_false_of_ne_true mark)
      by_cases room : advanceVisualColumnAt tabSize scan.visual glyph - start ≤ effectiveWrap
      · exact .inl room
      · -- the row had no cell before this one
        have still : ¬scan.visual > start := fun more => stays ⟨cell, Nat.lt_of_not_le room, more⟩
        have none_ : walkFrom tabSize start (before ++ behind) = start := by
          have := le_walkFrom tabSize start (before ++ behind)
          omega
        have marks := walkFrom_eq_iff.mp none_
        have zero : (before ++ behind).countP (fun glyph => !isZeroWidth glyph) = 0 :=
          countP_eq_zero.mpr fun glyph mem => by rw [marks glyph mem]; exact Bool.false_ne_true
        right
        rw [zero, Nat.zero_add]
        split <;> decide
  unfold RowScan.advance
  dsimp only
  split
  · exact ⟨next, nextText, fits', _, [], (append_nil _).symm, next, nextText,
      fun _ mem => by cases mem⟩
  next notBlank =>
    split
    next mark =>
      obtain ⟨same, atBreak⟩ := mark
      -- the opportunity is right before the mark, so it moves behind it
      have empty : behind = [] := by
        have size : behind.flatten.length = 0 := by
          rw [flatten_append, length_append] at offset
          omega
        cases behind with
        | nil => rfl
        | cons first behind =>
          have := length_pos_iff.mpr (some_ first (by simp))
          rw [flatten_cons, length_append] at size
          omega
      subst empty
      rw [append_nil] at next nextText fits' offset visual
      refine ⟨?_, ?_, ?_, before ++ [glyph], [], ?_, ?_, ?_, fun _ mem => by cases mem⟩
      · rw [append_nil, next]
      · rw [append_nil, nextText]
      · rw [append_nil]
        exact fits'
      · rw [append_nil, append_nil]
      · rw [← next, breakVisual, ← visual, same]
      · exact nextText
    next notMark =>
      refine ⟨next, nextText, fits', before, behind ++ [glyph], (append_assoc _ _ _),
        breakVisual, breakText, begins.append ?_⟩
      rintro rfl first mem
      cases mem
      rw [append_nil] at offset
      have here : scan.lastBreakText = scan.i := breakText.trans offset.symm
      have cell : advanceVisualColumnAt tabSize scan.visual glyph ≠ scan.visual := fun same =>
        notMark ⟨same, here⟩
      exact eq_false_of_ne_true (advanceVisualColumnAt_eq_iff.not.mp cell)

/-- The end of the line, or a break behind a row that has a cell, in front of a code point that is
no mark. -/
def RowFound (tabSize effectiveWrap start startText : Nat) (glyphs : List Line) :
    Nat × Option Nat → Prop
  | (visual, none) =>
    visual = walkFrom tabSize start glyphs ∧ FitsRow tabSize effectiveWrap start glyphs
  | (visual, some text) => ∃ row rest, glyphs = row ++ rest ∧ rest ≠ [] ∧ BeginsCluster rest ∧
      visual = walkFrom tabSize start row ∧ start < visual ∧
      text = startText + row.flatten.length ∧ FitsRow tabSize effectiveWrap start row

/-- **What the walk of a row finds.** -/
theorem scanRow_spec (scanned : Scanned tabSize effectiveWrap start startText done scan)
    (some_ : ∀ glyph ∈ done, glyph ≠ []) {glyphs : List Line} (more_ : ∀ glyph ∈ glyphs, glyph ≠ []) :
    RowFound tabSize effectiveWrap start startText (done ++ glyphs)
      (scanRow tabSize effectiveWrap start startText scan glyphs) := by
  induction glyphs generalizing done scan with
  | nil =>
    rw [scanRow, append_nil]
    exact ⟨scanned.visual, scanned.fits⟩
  | cons glyph glyphs ih =>
    obtain ⟨glyph_, more_⟩ := forall_mem_cons.mp more_
    rw [scanRow]
    split
    next overflow =>
      obtain ⟨visual, offset, fits, before, behind, rfl, breakVisual, breakText, begins⟩ := scanned
      have cell : BeginsCluster (glyph :: glyphs) := by
        rintro first mem
        cases mem
        exact lt_advanceVisualColumnAt_iff.mp overflow.1
      split
      next usable =>
        refine ⟨before, behind ++ glyph :: glyphs, append_assoc _ _ _, by simp,
          begins.append fun _ => cell, breakVisual, usable.2, breakText, fits.front⟩
      · exact ⟨before ++ behind, glyph :: glyphs, rfl, cons_ne_nil _ _, cell, visual,
          overflow.2.2, offset, fits⟩
    next stays =>
      have next := ih (scanned.advance some_ stays)
        (by simpa [or_imp, forall_and] using ⟨some_, glyph_⟩) more_
      rw [append_assoc, singleton_append] at next
      exact next

end RowWalk

/-! ### The rows of a line -/

/-- Rows as consecutive pieces of the code points they start from. -/
inductive Wrapped (tabSize wrapColumns hangingIndent : Nat) : Nat → List Line → List WrapRow → Prop
  | last {start : Nat} {row : List Line}
      (fits : FitsRow tabSize (wrapColumns - indentAt hangingIndent start) start row) :
      Wrapped tabSize wrapColumns hangingIndent start row
        [⟨start, walkFrom tabSize start row, indentAt hangingIndent start⟩]
  | next {start : Nat} {row rest : List Line} {rows : List WrapRow}
      (fits : FitsRow tabSize (wrapColumns - indentAt hangingIndent start) start row)
      (cells : start < walkFrom tabSize start row) (some_ : rest ≠ [])
      (begins : BeginsCluster rest)
      (later : Wrapped tabSize wrapColumns hangingIndent (walkFrom tabSize start row) rest rows) :
      Wrapped tabSize wrapColumns hangingIndent start (row ++ rest)
        (⟨start, walkFrom tabSize start row, indentAt hangingIndent start⟩ :: rows)

theorem wrapRowsFrom_wrapped {tabSize wrapColumns hangingIndent : Nat} {lineText : Line}
    {rounds start startText : Nat} (some_ : lineText.drop startText ≠ [])
    (enough : (lineText.drop startText).length ≤ rounds) :
    Wrapped tabSize wrapColumns hangingIndent start (codePoints (lineText.drop startText))
      (wrapRowsFrom tabSize wrapColumns hangingIndent lineText rounds start startText) := by
  induction rounds generalizing start startText with
  | zero => exact absurd (length_eq_zero_iff.mp (Nat.le_zero.mp enough)) some_
  | succ rounds ih =>
    have begun : Scanned tabSize (wrapColumns - indentAt hangingIndent start) start startText []
        ⟨start, startText, start, startText⟩ :=
      ⟨rfl, rfl, .inr (Nat.zero_le _), [], [], rfl, rfl, rfl, fun _ mem => by cases mem⟩
    have found := @scanRow_spec _ _ _ _ _ _ begun (fun _ mem => absurd mem not_mem_nil)
      (codePoints (lineText.drop startText)) fun _ mem => codePoint_ne_nil mem
    rw [nil_append] at found
    rw [wrapRowsFrom]
    generalize scanRow tabSize (wrapColumns - indentAt hangingIndent start) start startText
      ⟨start, startText, start, startText⟩ (codePoints (lineText.drop startText)) = result at found
    obtain ⟨visual, text⟩ := result
    cases text with
    | none =>
      obtain ⟨rfl, fits⟩ := found
      exact .last fits
    | some text =>
      obtain ⟨row, rest, cut, some_', begins, rfl, cells, rfl, fits⟩ := found
      have behind : codePoints (lineText.drop (startText + row.flatten.length)) = rest := by
        rw [← drop_drop]
        exact codePoints_of_append cut
      have bytes : 1 ≤ row.flatten.length := by
        cases row with
        | nil => exact absurd cells (lt_irrefl start)
        | cons glyph row =>
          have mem : glyph ∈ codePoints (lineText.drop startText) := by
            rw [cut]
            exact mem_cons_self
          have := (codePoint_length mem).1
          rw [flatten_cons, length_append]
          omega
      rw [cut, ← behind]
      refine .next fits cells (behind ▸ some_') (behind ▸ begins) (ih ?_ ?_)
      · intro empty
        rw [empty] at behind
        exact some_' behind.symm
      · rw [length_drop] at enough ⊢
        omega

/-- **The rows of a line.** -/
theorem wrapLineSegments_wrapped (lineText : Line) (tabSize wrapColumns : Nat) :
    Wrapped tabSize wrapColumns (hangingIndentFor lineText tabSize wrapColumns) 0
      (codePoints lineText) (wrapLineSegments lineText tabSize wrapColumns) := by
  rw [wrapLineSegments]
  split
  next empty =>
    subst empty
    exact .last (.inr (Nat.zero_le _))
  next some_ =>
    rw [wrapLineSegmentsFrom, if_neg some_]
    exact @wrapRowsFrom_wrapped tabSize wrapColumns _ lineText lineText.length 0 0 some_ le_rfl

/-! ### The partition -/

/-- A row and the code points it holds: its span is theirs, and it is wider than its room only
with a single cell-bearing one. -/
structure RowHolds (tabSize wrapColumns : Nat) (row : WrapRow) (piece : List Line) : Prop where
  span : row.visualEnd = walkFrom tabSize row.visualStart piece
  single : wrapColumns - row.indent < row.visualEnd - row.visualStart →
    piece.countP (fun glyph => !isZeroWidth glyph) = 1

section Partition

variable {tabSize wrapColumns hangingIndent start : Nat} {glyphs : List Line} {rows : List WrapRow}

theorem BeginsCluster.lt_walkFrom (begins : BeginsCluster glyphs) (some_ : glyphs ≠ []) :
    start < walkFrom tabSize start glyphs := by
  obtain ⟨glyph, glyphs, rfl⟩ := exists_cons_of_ne_nil some_
  exact (lt_advanceVisualColumnAt_iff.mpr (begins glyph rfl)).trans_le (le_walkFrom _ _ _)

theorem FitsRow.rowHolds (fits : FitsRow tabSize (wrapColumns - indentAt hangingIndent start) start
    glyphs) : RowHolds tabSize wrapColumns
      ⟨start, walkFrom tabSize start glyphs, indentAt hangingIndent start⟩ glyphs := by
  refine ⟨rfl, fun wide => ?_⟩
  dsimp only at wide
  rcases fits with narrow | single
  · exact absurd wide (Nat.not_lt_of_le narrow)
  · refine le_antisymm single (Nat.pos_of_ne_zero fun none_ => ?_)
    have marks : walkFrom tabSize start glyphs = start := walkFrom_eq_iff.mpr fun glyph mem => by
      simpa using countP_eq_zero.mp none_ glyph mem
    omega

section

variable (wrapped : Wrapped tabSize wrapColumns hangingIndent start glyphs rows)

include wrapped

theorem Wrapped.head : rows.head?.map WrapRow.visualStart = some start := by
  cases wrapped <;> rfl

theorem Wrapped.consecutive : rows.IsChain fun row next => row.visualEnd = next.visualStart := by
  induction wrapped with
  | last fits => exact .singleton _
  | next fits cells some_ begins later ih =>
    refine isChain_cons.mpr ⟨fun next mem => ?_, ih⟩
    have first := later.head
    rw [Option.mem_def.mp mem] at first
    exact (Option.some.inj first).symm

theorem Wrapped.ends :
    rows.getLast?.map WrapRow.visualEnd = some (walkFrom tabSize start glyphs) := by
  induction wrapped with
  | last fits => rfl
  | @next start row rest rows fits cells some_ begins later ih =>
    rw [walkFrom_append, ← ih]
    cases later <;> rfl

theorem Wrapped.nonempty (cells_ : start < walkFrom tabSize start glyphs) :
    ∀ row ∈ rows, row.visualStart < row.visualEnd := by
  induction wrapped with
  | last fits =>
    intro row mem
    rw [mem_singleton.mp mem]
    exact cells_
  | next fits cells some_ begins later ih =>
    exact forall_mem_cons.mpr ⟨cells, ih (begins.lt_walkFrom some_)⟩

theorem Wrapped.pieces :
    ∃ first more, glyphs = (first :: more).flatten ∧ (glyphs ≠ [] → first ≠ []) ∧
      List.Forall₂ (RowHolds tabSize wrapColumns) rows (first :: more) ∧
      ∀ piece ∈ more, piece ≠ [] ∧ BeginsCluster piece := by
  induction wrapped with
  | @last start row fits =>
    exact ⟨row, [], by simp, id, .cons fits.rowHolds .nil, fun _ mem => absurd mem not_mem_nil⟩
  | @next start row rest rows fits cells some_ begins later ih =>
    obtain ⟨first, more, rfl, nonempty, holds, begin_⟩ := ih
    refine ⟨row, first :: more, flatten_cons.symm, fun _ => ?_, .cons fits.rowHolds holds,
      forall_mem_cons.mpr ⟨⟨nonempty some_, ?_⟩, begin_⟩⟩
    · rintro rfl
      exact lt_irrefl start cells
    · intro glyph mem
      obtain ⟨lead, piece, rfl⟩ := exists_cons_of_ne_nil (nonempty some_)
      exact begins glyph mem

end

end Partition

/-- Soft wrap partitions a line: its rows are consecutive, from column 0 to the line's width; each
holds a piece of the line's code points, and no piece but the first begins with a mark. -/
structure SoftWraps (tabSize wrapColumns : Nat) (line : Line) (rows : List WrapRow) : Prop where
  starts : rows.head?.map WrapRow.visualStart = some 0
  consecutive : rows.IsChain fun row next => row.visualEnd = next.visualStart
  ends : rows.getLast?.map WrapRow.visualEnd = some (walkFrom tabSize 0 (codePoints line))
  nonempty : (∃ glyph ∈ codePoints line, isZeroWidth glyph = false) →
    ∀ row ∈ rows, row.visualStart < row.visualEnd
  pieces : ∃ first more, codePoints line = (first :: more).flatten ∧
    List.Forall₂ (RowHolds tabSize wrapColumns) rows (first :: more) ∧
    ∀ piece ∈ more, piece ≠ [] ∧ BeginsCluster piece

theorem wrapLineSegments_softWraps (line : Line) (tabSize wrapColumns : Nat) :
    SoftWraps tabSize wrapColumns line (wrapLineSegments line tabSize wrapColumns) := by
  have wrapped := wrapLineSegments_wrapped line tabSize wrapColumns
  obtain ⟨first, more, whole, -, holds, begin_⟩ := wrapped.pieces
  refine ⟨wrapped.head, wrapped.consecutive, wrapped.ends, ?_, first, more, whole, holds, begin_⟩
  rintro ⟨glyph, mem, cell⟩
  refine wrapped.nonempty ((le_walkFrom _ _ _).lt_of_ne fun same => ?_)
  have mark := walkFrom_eq_iff.mp same.symm glyph mem
  rw [cell] at mark
  exact Bool.false_ne_true mark

end Microide.Editor
