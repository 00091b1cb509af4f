/-
Rows of visible cells.

A row shows the cells of a line between the horizontal scroll and the right edge. Where the width
of the line is known, it is built from a window of the line's bytes that starts in the plain
prefix and is sized for code points of four bytes that each take a cell.

**Main results.** `buildFrom_append`, `buildFrom_reached`: a walk goes on from the row behind it, or
ends at the edge; `buildFrom_sourceColumns_length`: the cells of a row.
-/

import Microide.Editor.CodePointWindows
import Microide.Editor.ColumnConversion

namespace Microide.Editor

open List Text

/-- `LayoutLine`. -/
structure LayoutLine where
  text : Line := []
  sourceColumns : List Nat := []
  textOffsets : List Nat := []
  visualColumns : Nat := 0
  caretColumn : Nat := 0
  caretVisible : Bool := false

/-- What `BuildVisibleLineWindowInto` is given besides the bytes: the columns a row shows, from
`horizontalScroll` on, the byte the window starts at, and the size of a tab. -/
structure RowView where
  horizontalScroll : Nat
  visibleColumns : Nat
  startByte : Nat
  tabSize : Nat

/-- The right edge of a row. -/
def RowView.edge (view : RowView) : Nat := view.horizontalScroll + view.visibleColumns

/-- A row while it is built. The last glyph with a cell ends before `lastGlyphNextByte`. -/
structure RowBuild where
  layout : LayoutLine
  visualColumn : Nat
  lastGlyphNextByte : Option Nat := none
  lastGlyphTextEnd : Nat := 0
  lastGlyphCell : Nat := 0

/-- A cell of a glyph that is on the row. -/
def RowBuild.placeCell (build : RowBuild) (view : RowView) (j cell : Nat) (glyph : Line) : RowBuild :=
  let layout := build.layout
  let placed : LayoutLine :=
    { layout with
      textOffsets := layout.textOffsets ++ [layout.text.length]
      sourceColumns := layout.sourceColumns ++ [view.startByte + j] }
  if glyph.head? = some tabByte then
    { build with layout := { placed with text := layout.text ++ [spaceByte] } }
  else if cell = 0 then
    { build with
      layout := { placed with text := layout.text ++ glyph }
      lastGlyphNextByte := some (j + glyph.length)
      lastGlyphTextEnd := (layout.text ++ glyph).length
      lastGlyphCell := placed.textOffsets.length - 1 }
  else if build.visualColumn + cell = view.horizontalScroll then
    { build with layout := { placed with text := layout.text ++ [spaceByte] } }
  else { build with layout := placed }

/-- The loop over the cells of a glyph, `count` of them from `cell` on. -/
def RowBuild.placeCells (view : RowView) (j : Nat) (glyph : Line) : Nat → Nat → RowBuild → RowBuild
  | 0, _, build => build
  | count + 1, cell, build =>
    if build.visualColumn + cell < view.horizontalScroll then
      placeCells view j glyph count (cell + 1) build
    else if build.visualColumn + cell ≥ view.edge then build
    else placeCells view j glyph count (cell + 1) (build.placeCell view j cell glyph)

/-- A mark joins the bytes of the glyph before it, when that is on the row. -/
def RowBuild.joinMark (build : RowBuild) (j : Nat) (mark : Line) : RowBuild :=
  if build.lastGlyphNextByte = some j then
    let layout := build.layout
    { build with
      layout :=
        { layout with
          text := layout.text.take build.lastGlyphTextEnd ++ mark ++
            layout.text.drop build.lastGlyphTextEnd
          textOffsets := layout.textOffsets.take (build.lastGlyphCell + 1) ++
            (layout.textOffsets.drop (build.lastGlyphCell + 1)).map (· + mark.length) }
      lastGlyphTextEnd := build.lastGlyphTextEnd + mark.length
      lastGlyphNextByte := some (j + mark.length) }
  else build

/-- A code point of the walk of a row. -/
def RowBuild.step (build : RowBuild) (view : RowView) (j : Nat) (glyph : Line) : RowBuild :=
  let nextVisual := advanceVisualColumnAt view.tabSize build.visualColumn glyph
  if nextVisual - build.visualColumn = 0 then build.joinMark j glyph
  else
    { build.placeCells view j glyph (nextVisual - build.visualColumn) 0 with
      visualColumn := nextVisual }

/-- The loop of `BuildVisibleLineWindowInto`: it ends behind a glyph that reaches the edge. -/
def buildFrom (view : RowView) : Nat → RowBuild → List Line → LayoutLine
  | _, build, [] => build.layout
  | j, build, glyph :: glyphs =>
    let next := build.step view j glyph
    if next.visualColumn ≠ build.visualColumn ∧ next.visualColumn ≥ view.edge then next.layout
    else buildFrom view (j + glyph.length) next glyphs

/-- `TextLayout::BuildVisibleLineWindowInto`. -/
def buildVisibleLineWindowInto (bytes : Line) (view : RowView) (visualColumns : Nat) : LayoutLine :=
  if view.visibleColumns = 0 then { visualColumns := visualColumns }
  else buildFrom view 0 ⟨{ visualColumns := visualColumns }, view.startByte, none, 0, 0⟩
    (codePoints bytes)

/-- `TextLayout::BuildVisibleLineInto`. -/
def buildVisibleLineInto (line : Line) (horizontalScroll visibleColumns tabSize : Nat)
    (facts : LineLayoutFacts) : LayoutLine :=
  let visualColumns :=
    if facts.known then facts.visualColumns
    else visualColumnForTextColumn line line.length tabSize
  let startByte :=
    if horizontalScroll > 0 ∧ line ≠ [] then
      let probe := min horizontalScroll line.length
      if facts.known && facts.plainAscii then probe
      else firstNonPlainAsciiByte (line.take probe)
    else 0
  buildVisibleLineWindowInto (line.drop (min startByte line.length))
    ⟨horizontalScroll, visibleColumns, startByte, tabSize⟩ visualColumns

/-- `TextLayout::ComputeVisibleLineWindowStart`. -/
def computeVisibleLineWindowStart (horizontalScroll lineLength plainPrefixEnd : Nat) : Nat :=
  if horizontalScroll = 0 ∨ lineLength = 0 then 0
  else min (min horizontalScroll lineLength) plainPrefixEnd

/-- `TextLayout::VisibleLineWindowBytes`. -/
def visibleLineWindowBytes (startByte horizontalScroll visibleColumns : Nat) : Nat :=
  let reach := if horizontalScroll > startByte then horizontalScroll - startByte else 0
  (reach + visibleColumns) * 4 + 4

def kMaxLineWindowBytes : Nat := 64 * 1024

/-- What `VisibleLineLayoutRefCached` builds on a miss, with what is known about the line. -/
def visibleLineLayout (memos : PlainPrefixMemos) (lines : List Line)
    (lineIndex horizontalScroll visibleColumns tabSize contentRevision : Nat)
    (facts : LineLayoutFacts) : LayoutLine × PlainPrefixMemos :=
  let line := lines.getD lineIndex []
  if facts.known then
    let probe := min horizontalScroll line.length
    let plainPrefixEnd :=
      if facts.plainAscii then (line.length, memos)
      else memos.plainAsciiPrefixEndInto lines lineIndex probe contentRevision
    let startByte := computeVisibleLineWindowStart horizontalScroll line.length plainPrefixEnd.1
    let want := visibleLineWindowBytes startByte horizontalScroll visibleColumns
    if want ≤ kMaxLineWindowBytes then
      (buildVisibleLineWindowInto (lineWindow line startByte want)
        ⟨horizontalScroll, visibleColumns, startByte, tabSize⟩ facts.visualColumns,
        plainPrefixEnd.2)
    else
      (buildVisibleLineInto line horizontalScroll visibleColumns tabSize facts, plainPrefixEnd.2)
  else (buildVisibleLineInto line horizontalScroll visibleColumns tabSize facts, memos)

/-! ### Cells -/

section Cells

variable {view : RowView} {build : RowBuild} {j : Nat} {glyph : Line}

theorem placeCell_visualColumn (cell : Nat) :
    (build.placeCell view j cell glyph).visualColumn = build.visualColumn := by
  unfold RowBuild.placeCell
  split_ifs <;> rfl

theorem placeCell_sourceColumns (cell : Nat) :
    (build.placeCell view j cell glyph).layout.sourceColumns =
      build.layout.sourceColumns ++ [view.startByte + j] := by
  unfold RowBuild.placeCell
  split_ifs <;> rfl

theorem placeCell_text_le (cell : Nat) :
    build.layout.text.length ≤ (build.placeCell view j cell glyph).layout.text.length := by
  unfold RowBuild.placeCell
  split_ifs
  · rw [length_append]
    exact Nat.le_add_right _ _
  · rw [length_append]
    exact Nat.le_add_right _ _
  · rw [length_append]
    exact Nat.le_add_right _ _
  · exact le_rfl

/-- The cells of a glyph that are on the row come from its byte. -/
theorem placeCells_sourceColumns (count cell : Nat) (build : RowBuild) :
    (build.placeCells view j glyph count cell).layout.sourceColumns =
      build.layout.sourceColumns ++ List.replicate
        (min (build.visualColumn + cell + count) view.edge -
          max (build.visualColumn + cell) view.horizontalScroll) (view.startByte + j) := by
  induction count generalizing cell build with
  | zero =>
    have none_ : min (build.visualColumn + cell + 0) view.edge -
        max (build.visualColumn + cell) view.horizontalScroll = 0 := by omega
    rw [none_]
    exact (append_nil _).symm
  | succ count ih =>
    rw [RowBuild.placeCells]
    split_ifs with left right
    · rw [ih]
      congr 2
      omega
    · have none_ : min (build.visualColumn + cell + (count + 1)) view.edge -
          max (build.visualColumn + cell) view.horizontalScroll = 0 := by omega
      rw [none_]
      exact (append_nil _).symm
    · have more : min (build.visualColumn + cell + (count + 1)) view.edge -
          max (build.visualColumn + cell) view.horizontalScroll =
            (min (build.visualColumn + (cell + 1) + count) view.edge -
              max (build.visualColumn + (cell + 1)) view.horizontalScroll) + 1 := by omega
      rw [ih, placeCell_sourceColumns, placeCell_visualColumn, more, replicate_succ,
        append_assoc, singleton_append]

theorem placeCells_text_le (count cell : Nat) (build : RowBuild) : build.layout.text.length ≤
      (build.placeCells view j glyph count cell).layout.text.length := by
  induction count generalizing cell build with
  | zero => exact le_rfl
  | succ count ih =>
    rw [RowBuild.placeCells]
    split_ifs
    · exact ih _ _
    · exact le_rfl
    · exact (placeCell_text_le cell).trans (ih _ _)

/-- Cells that are all left of the row change nothing. -/
theorem placeCells_left {count cell : Nat} {build : RowBuild}
    (left : build.visualColumn + cell + count ≤ view.horizontalScroll) :
    build.placeCells view j glyph count cell = build := by
  induction count generalizing cell with
  | zero => rfl
  | succ count ih =>
    rw [RowBuild.placeCells, if_pos (by omega), ih (by omega)]

/-- Only the first cell of a glyph gives marks something to join. -/
theorem placeCells_lastGlyphNextByte {count cell : Nat} {build : RowBuild}
    (later : glyph.head? = some tabByte ∨ 0 < cell ∨
      build.visualColumn + cell < view.horizontalScroll) :
    (build.placeCells view j glyph count cell).lastGlyphNextByte = build.lastGlyphNextByte := by
  induction count generalizing cell build with
  | zero => rfl
  | succ count ih =>
    rw [RowBuild.placeCells]
    split_ifs with left right
    · exact ih (.inr (.inl (Nat.succ_pos _)))
    · rfl
    · have same : (build.placeCell view j cell glyph).lastGlyphNextByte =
          build.lastGlyphNextByte := by
        unfold RowBuild.placeCell
        split_ifs with tab first scrolled
        · rfl
        · rcases later with tab' | more | left'
          · exact absurd tab' tab
          · omega
          · exact absurd left' left
        · rfl
        · rfl
      rw [ih (.inr (.inl (Nat.succ_pos _))), same]

end Cells

/-! ### Code points -/

section Steps

variable {view : RowView} {build : RowBuild} {j : Nat} {glyph : Line}

theorem joinMark_visualColumn (build : RowBuild) (j : Nat) (mark : Line) :
    (build.joinMark j mark).visualColumn = build.visualColumn := by
  unfold RowBuild.joinMark
  split <;> rfl

theorem step_visualColumn (view : RowView) (build : RowBuild) (j : Nat) (glyph : Line) :
    (build.step view j glyph).visualColumn =
      advanceVisualColumnAt view.tabSize build.visualColumn glyph := by
  have low := le_advanceVisualColumnAt view.tabSize build.visualColumn glyph
  rw [RowBuild.step]
  split
  · rw [joinMark_visualColumn]
    omega
  · rfl

theorem step_mark (mark : isZeroWidth glyph = true) :
    build.step view j glyph = build.joinMark j glyph := by
  rw [RowBuild.step, advanceVisualColumnAt_eq_iff.mpr mark, Nat.sub_self, if_pos rfl]

theorem step_cell (cell : isZeroWidth glyph = false) : build.step view j glyph =
      { build.placeCells view j glyph
          (advanceVisualColumnAt view.tabSize build.visualColumn glyph - build.visualColumn) 0 with
        visualColumn := advanceVisualColumnAt view.tabSize build.visualColumn glyph } := by
  have wide := (@lt_advanceVisualColumnAt_iff view.tabSize build.visualColumn glyph).mpr cell
  rw [RowBuild.step, if_neg (by omega)]

theorem step_sourceColumns (view : RowView) (build : RowBuild) (j : Nat) (glyph : Line) :
    (build.step view j glyph).layout.sourceColumns =
      build.layout.sourceColumns ++ List.replicate
        (min (advanceVisualColumnAt view.tabSize build.visualColumn glyph) view.edge -
          max build.visualColumn view.horizontalScroll) (view.startByte + j) := by
  cases mark : isZeroWidth glyph with
  | true =>
    have none_ : min build.visualColumn view.edge -
        max build.visualColumn view.horizontalScroll = 0 := by omega
    rw [step_mark mark, advanceVisualColumnAt_eq_iff.mpr mark, none_, replicate_zero,
      append_nil, RowBuild.joinMark]
    split <;> rfl
  | false =>
    have wide := (@lt_advanceVisualColumnAt_iff view.tabSize build.visualColumn glyph).mpr mark
    rw [step_cell mark]
    rw [placeCells_sourceColumns, Nat.add_zero, Nat.add_sub_cancel' wide.le]

theorem step_text_le (view : RowView) (build : RowBuild) (j : Nat) (glyph : Line) :
    build.layout.text.length ≤ (build.step view j glyph).layout.text.length := by
  cases mark : isZeroWidth glyph with
  | true =>
    rw [step_mark mark, RowBuild.joinMark]
    split
    · rw [length_append, length_append, length_take, length_drop]
      omega
    · exact le_rfl
  | false =>
    rw [step_cell mark]
    exact placeCells_text_le _ _ _

/-- Left of the row nothing is shown, and no mark has a glyph to join. -/
theorem step_left (none_ : build.lastGlyphNextByte = none)
    (left : advanceVisualColumnAt view.tabSize build.visualColumn glyph ≤ view.horizontalScroll) :
    (build.step view j glyph).layout = build.layout ∧
      (build.step view j glyph).lastGlyphNextByte = none := by
  cases mark : isZeroWidth glyph with
  | true =>
    rw [step_mark mark, RowBuild.joinMark, none_, if_neg (Option.some_ne_none j).symm]
    exact ⟨rfl, none_⟩
  | false =>
    have wide := (@lt_advanceVisualColumnAt_iff view.tabSize build.visualColumn glyph).mpr mark
    rw [step_cell mark, placeCells_left (by omega)]
    exact ⟨rfl, none_⟩

/-- A glyph that is a tab, or starts left of the row, is none for marks to join. -/
theorem step_unattached (cell : isZeroWidth glyph = false)
    (apart : glyph.head? = some tabByte ∨ build.visualColumn < view.horizontalScroll) :
    (build.step view j glyph).lastGlyphNextByte = build.lastGlyphNextByte := by
  rw [step_cell cell]
  exact placeCells_lastGlyphNextByte (apart.imp id fun left => .inr left)

/-- Any other glyph that starts on the row is, and all its bytes are shown. -/
theorem step_attached (cell : isZeroWidth glyph = false) (notTab : glyph.head? ≠ some tabByte)
    (right : view.horizontalScroll ≤ build.visualColumn) (inside : build.visualColumn < view.edge) :
    (build.step view j glyph).lastGlyphNextByte = some (j + glyph.length) ∧
      build.layout.text.length + glyph.length ≤
        (build.step view j glyph).layout.text.length := by
  have wide := (@lt_advanceVisualColumnAt_iff view.tabSize build.visualColumn glyph).mpr cell
  obtain ⟨more, width⟩ : ∃ more, advanceVisualColumnAt view.tabSize build.visualColumn glyph -
      build.visualColumn = more + 1 := ⟨_, (Nat.sub_add_cancel (by omega)).symm⟩
  have placed : build.placeCell view j 0 glyph =
      { build with
        layout :=
          { build.layout with
            textOffsets := build.layout.textOffsets ++ [build.layout.text.length]
            sourceColumns := build.layout.sourceColumns ++ [view.startByte + j]
            text := build.layout.text ++ glyph }
        lastGlyphNextByte := some (j + glyph.length)
        lastGlyphTextEnd := (build.layout.text ++ glyph).length
        lastGlyphCell := (build.layout.textOffsets ++ [build.layout.text.length]).length - 1 } := by
    rw [RowBuild.placeCell, if_neg notTab, if_pos rfl]
  rw [step_cell cell, width]
  rw [RowBuild.placeCells, if_neg (by omega), if_neg (by omega), placed]
  constructor
  · exact placeCells_lastGlyphNextByte (.inr (.inl (Nat.succ_pos 0)))
  · refine le_trans ?_ (placeCells_text_le _ _ _)
    exact length_append.ge

/-- What marks can join ends at or before the walk. -/
theorem step_lastGlyphNextByte (inside : build.visualColumn < view.edge)
    (before : ∀ k, build.lastGlyphNextByte = some k → k ≤ j) :
    ∀ k, (build.step view j glyph).lastGlyphNextByte = some k → k ≤ j + glyph.length := by
  intro k last
  cases mark : isZeroWidth glyph with
  | true =>
    rw [step_mark mark, RowBuild.joinMark] at last
    split at last
    · obtain rfl := Option.some.inj last
      exact le_rfl
    · exact (before k last).trans (Nat.le_add_right _ _)
  | false =>
    by_cases apart : glyph.head? = some tabByte ∨ build.visualColumn < view.horizontalScroll
    · rw [step_unattached mark apart] at last
      exact (before k last).trans (Nat.le_add_right _ _)
    · rw [not_or, Nat.not_lt] at apart
      rw [(step_attached mark apart.1 apart.2 inside).1] at last
      exact (Option.some.inj last).ge

end Steps

/-! ### Walks of a row -/

/-- The row behind some code points, when none of them reaches the edge. -/
def buildOver (view : RowView) : Nat → RowBuild → List Line → RowBuild
  | _, build, [] => build
  | j, build, glyph :: glyphs =>
    buildOver view (j + glyph.length) (build.step view j glyph) glyphs

variable {glyphs : List Line}

section Walks

variable {view : RowView} {build : RowBuild} {j : Nat}

theorem buildOver_append (glyphs more : List Line) : buildOver view j build (glyphs ++ more) =
    buildOver view (j + glyphs.flatten.length) (buildOver view j build glyphs) more := by
  induction glyphs generalizing j build with
  | nil => rfl
  | cons glyph glyphs ih =>
    rw [cons_append, buildOver, ih, flatten_cons, length_append, Nat.add_assoc]
    rfl

theorem buildOver_visualColumn (glyphs : List Line) : (buildOver view j build glyphs).visualColumn =
      walkFrom view.tabSize build.visualColumn glyphs := by
  induction glyphs generalizing j build with
  | nil => rfl
  | cons glyph glyphs ih => rw [buildOver, ih, step_visualColumn, walkFrom_cons]

/-- **A walk that stays left of the edge goes on** from the row behind it. -/
theorem buildFrom_append (inside : walkFrom view.tabSize build.visualColumn glyphs < view.edge)
    (more : List Line) : buildFrom view j build (glyphs ++ more) =
      buildFrom view (j + glyphs.flatten.length) (buildOver view j build glyphs) more := by
  induction glyphs generalizing j build with
  | nil => rfl
  | cons glyph glyphs ih =>
    have short := (le_walkFrom view.tabSize
      (advanceVisualColumnAt view.tabSize build.visualColumn glyph) glyphs).trans_lt inside
    rw [cons_append, buildFrom]
    rw [step_visualColumn, if_neg (by omega), ih (by rwa [step_visualColumn]), flatten_cons,
      length_append, Nat.add_assoc]
    rfl

/-- **A walk that reaches the edge** ends there, whatever follows. -/
theorem buildFrom_reached (inside : build.visualColumn < view.edge)
    (reached : view.edge ≤ walkFrom view.tabSize build.visualColumn glyphs) (more : List Line) :
    buildFrom view j build (glyphs ++ more) = buildFrom view j build glyphs := by
  induction glyphs generalizing j build with
  | nil => exact absurd inside (Nat.not_lt_of_le reached)
  | cons glyph glyphs ih =>
    rw [cons_append, buildFrom, buildFrom]
    rw [step_visualColumn]
    split
    · rfl
    next further =>
      exact ih (by rw [step_visualColumn]; omega) (by rwa [step_visualColumn])

/-- The number of cells of a row is the number of columns between the scroll and the edge that the
walk comes over. -/
theorem buildFrom_sourceColumns_length (glyphs : List Line) :
    (buildFrom view j build glyphs).sourceColumns.length =
      build.layout.sourceColumns.length +
        (min (walkFrom view.tabSize build.visualColumn glyphs) view.edge -
          max build.visualColumn view.horizontalScroll) := by
  induction glyphs generalizing j build with
  | nil =>
    rw [buildFrom]
    change _ = _ + (min build.visualColumn view.edge - _)
    omega
  | cons glyph glyphs ih =>
    have low := le_advanceVisualColumnAt view.tabSize build.visualColumn glyph
    have rest := le_walkFrom view.tabSize
      (advanceVisualColumnAt view.tabSize build.visualColumn glyph) glyphs
    have here := congrArg List.length (step_sourceColumns view build j glyph)
    rw [length_append, length_replicate] at here
    rw [buildFrom, walkFrom_cons]
    split
    next stops =>
      rw [step_visualColumn] at stops
      omega
    · rw [ih, step_visualColumn]
      omega

theorem buildFrom_text_le (glyphs : List Line) :
    build.layout.text.length ≤ (buildFrom view j build glyphs).text.length := by
  induction glyphs generalizing j build with
  | nil => exact le_rfl
  | cons glyph glyphs ih =>
    rw [buildFrom]
    split
    · exact step_text_le view build j glyph
    · exact (step_text_le view build j glyph).trans ih

/-- Each cell of a row comes from a byte of the walk. -/
theorem buildFrom_sourceColumns (some_ : ∀ glyph ∈ glyphs, glyph ≠ []) :
    ∃ more, (buildFrom view j build glyphs).sourceColumns = build.layout.sourceColumns ++ more ∧
      ∀ column ∈ more, view.startByte + j ≤ column ∧
        column < view.startByte + j + glyphs.flatten.length := by
  induction glyphs generalizing j build with
  | nil => exact ⟨[], (append_nil _).symm, fun _ mem => absurd mem not_mem_nil⟩
  | cons glyph glyphs ih =>
    obtain ⟨first, some_⟩ := forall_mem_cons.mp some_
    have bytes := length_pos_iff.mpr first
    rw [flatten_cons, length_append, buildFrom]
    split
    · refine ⟨_, step_sourceColumns view build j glyph, fun column mem => ?_⟩
      have := eq_of_mem_replicate mem
      omega
    · obtain ⟨more, columns, low⟩ := @ih (build.step view j glyph) (j + glyph.length) some_
      rw [step_sourceColumns, append_assoc] at columns
      refine ⟨_, columns, fun column mem => ?_⟩
      rcases mem_append.mp mem with here | later
      · have := eq_of_mem_replicate here
        omega
      · have := low column later
        omega

/-- A walk that stays left of the row shows nothing. -/
theorem buildOver_left (none_ : build.lastGlyphNextByte = none)
    (left : walkFrom view.tabSize build.visualColumn glyphs ≤ view.horizontalScroll) :
    (buildOver view j build glyphs).layout = build.layout ∧
      (buildOver view j build glyphs).lastGlyphNextByte = none := by
  induction glyphs generalizing j build with
  | nil => exact ⟨rfl, none_⟩
  | cons glyph glyphs ih =>
    have step := @step_left view build j glyph none_ ((le_walkFrom _ _ _).trans left)
    have rest := @ih (build.step view j glyph) (j + glyph.length) step.2
      (by rwa [step_visualColumn])
    exact ⟨rest.1.trans step.1, rest.2⟩

/-- A mark with nothing to join changes nothing. -/
theorem step_apart {mark : Line} (zero : isZeroWidth mark = true)
    (before : ∀ k, build.lastGlyphNextByte = some k → k < j) : build.step view j mark = build := by
  have apart : build.lastGlyphNextByte ≠ some j := fun here => lt_irrefl j (before j here)
  rw [step_mark zero, RowBuild.joinMark, if_neg apart]

theorem buildFrom_unattached {marks : List Line} (zero : ∀ mark ∈ marks, isZeroWidth mark = true)
    (some_ : ∀ mark ∈ marks, mark ≠ []) (before : ∀ k, build.lastGlyphNextByte = some k → k < j) :
    buildFrom view j build marks = build.layout := by
  induction marks generalizing j with
  | nil => rfl
  | cons mark marks ih =>
    obtain ⟨first, zero⟩ := forall_mem_cons.mp zero
    obtain ⟨bytes, some_⟩ := forall_mem_cons.mp some_
    rw [buildFrom]
    rw [step_apart first before, if_neg fun moves => moves.1 rfl]
    refine ih zero some_ fun k last => ?_
    have := before k last
    omega

end Walks

end Microide.Editor
