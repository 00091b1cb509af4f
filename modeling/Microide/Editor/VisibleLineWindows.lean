/-
Rows built from a window.

The window of a row holds what its walk reads as long as every code point takes a cell. Behind
enough marks it is too small: then the row is the one of the line only where nothing is shown of
what the window leaves out.

**Main results.** `buildFrom_window_iff`: when a window shows what its text shows;
`visibleLineLayout_iff`: when the row of a window is the row of the line.
-/

import Microide.Editor.ColumnShortcuts
import Microide.Editor.VisibleLines

namespace Microide.Editor

open List Text RowBuild

/-- The last glyph with a cell is none that marks can join: it is a tab, or starts left of the
row. -/
def Unattached (view : RowView) (glyphs : List Line) : Prop :=
  ∃ before base marks, glyphs = before ++ base :: marks ∧ isZeroWidth base = false ∧
    (∀ mark ∈ marks, isZeroWidth mark = true) ∧
    (base.head? = some tabByte ∨
      walkFrom view.tabSize view.startByte before < view.horizontalScroll)

/-- What a window leaves out, the code points `rest` and the bytes `cut` of the first of them, shows
nothing. -/
inductive WindowShowsAll (view : RowView) (whole rest : List Line) (cut : Line) : Prop
  | reached (edge : view.edge ≤ walkFrom view.tabSize view.startByte whole)
  | ends (none_ : rest = [])
  | scrolledPast
      (line : walkFrom view.tabSize view.startByte (whole ++ rest) ≤ view.horizontalScroll)
      (window : walkFrom view.tabSize view.startByte whole + cut.length ≤ view.horizontalScroll)
  | marksOnly (none_ : cut = []) (marks : ∀ glyph ∈ rest, isZeroWidth glyph = true)
      (unattached : Unattached view whole)

section Window

variable {view : RowView} {build : RowBuild} {j : Nat}

theorem buildOver_lastGlyphNextByte {glyphs : List Line}
    (inside : walkFrom view.tabSize build.visualColumn glyphs < view.edge)
    (before : ∀ k, build.lastGlyphNextByte = some k → k ≤ j) :
    ∀ k, (buildOver view j build glyphs).lastGlyphNextByte = some k →
      k ≤ j + glyphs.flatten.length := by
  induction glyphs generalizing j build with
  | nil => exact before
  | cons glyph glyphs ih =>
    have low := le_advanceVisualColumnAt view.tabSize build.visualColumn glyph
    have short := (le_walkFrom view.tabSize
      (advanceVisualColumnAt view.tabSize build.visualColumn glyph) glyphs).trans_lt inside
    rw [buildOver, flatten_cons, length_append, ← Nat.add_assoc]
    exact ih (by rwa [step_visualColumn]) (step_lastGlyphNextByte (low.trans_lt short) before)

/-- Marks join the glyph whose bytes end before them, one after the other. -/
theorem buildOver_attached {marks : List Line} (zero : ∀ mark ∈ marks, isZeroWidth mark = true)
    (last : build.lastGlyphNextByte = some j) :
    (buildOver view j build marks).lastGlyphNextByte = some (j + marks.flatten.length) := by
  induction marks generalizing j build with
  | nil => exact last
  | cons mark marks ih =>
    obtain ⟨first, zero⟩ := forall_mem_cons.mp zero
    rw [buildOver, flatten_cons, length_append, ← Nat.add_assoc]
    refine ih zero ?_
    rw [step_mark first, joinMark, if_pos last]

theorem buildOver_unattached {marks : List Line} (zero : ∀ mark ∈ marks, isZeroWidth mark = true)
    (some_ : ∀ mark ∈ marks, mark ≠ []) (before : ∀ k, build.lastGlyphNextByte = some k → k < j) :
    buildOver view j build marks = build := by
  induction marks generalizing j with
  | nil => rfl
  | cons mark marks ih =>
    obtain ⟨first, zero⟩ := forall_mem_cons.mp zero
    obtain ⟨bytes, some_⟩ := forall_mem_cons.mp some_
    rw [buildOver, step_apart first before]
    refine ih zero some_ fun k last => ?_
    have := before k last
    omega

/-- Behind a glyph that marks cannot join they have nothing to join. -/
theorem Unattached.before {glyphs : List Line} (unattached : Unattached view glyphs)
    (some_ : ∀ glyph ∈ glyphs, glyph ≠ []) (start : build.visualColumn = view.startByte)
    (none_ : build.lastGlyphNextByte = none)
    (inside : walkFrom view.tabSize build.visualColumn glyphs < view.edge) :
    ∀ k, (buildOver view 0 build glyphs).lastGlyphNextByte = some k → k < glyphs.flatten.length := by
  obtain ⟨before, base, marks, rfl, cell, zero, apart⟩ := unattached
  have base_ := some_ base (by simp)
  have bytes := length_pos_iff.mpr base_
  rw [walkFrom_append] at inside
  have front := (le_walkFrom view.tabSize (walkFrom view.tabSize build.visualColumn before)
    (base :: marks)).trans_lt inside
  have bound := @buildOver_lastGlyphNextByte view build 0 before front fun k last =>
    absurd (none_.symm.trans last) (Option.some_ne_none k).symm
  have column := @buildOver_visualColumn view build 0 before
  have apart' : base.head? = some tabByte ∨
      (buildOver view 0 build before).visualColumn < view.horizontalScroll := by
    rwa [column, start]
  have last := @step_unattached view (buildOver view 0 build before) (0 + before.flatten.length) base
    cell apart'
  intro k found
  rw [buildOver_append, buildOver] at found
  rw [buildOver_unattached zero (fun mark mem => some_ mark (by simp [mem]))] at found
  · rw [last] at found
    have := bound k found
    rw [flatten_append, flatten_cons, length_append, length_append]
    omega
  · intro k found
    rw [last] at found
    have := bound k found
    omega

theorem buildOver_nil (glyphs : List Line)
    (inside : walkFrom view.tabSize build.visualColumn glyphs < view.edge) :
    buildFrom view j build glyphs = (buildOver view j build glyphs).layout := by
  have whole := @buildFrom_append glyphs view build j inside []
  rwa [append_nil] at whole

theorem walkFrom_cut {tabSize visualColumn : Nat} {cut : Line} (high : ∀ c ∈ cut, 0x80 ≤ c) :
    walkFrom tabSize visualColumn (cut.map fun c => [c]) = visualColumn + cut.length := by
  induction cut generalizing visualColumn with
  | nil => rfl
  | cons c cut ih =>
    obtain ⟨first, high⟩ := forall_mem_cons.mp high
    rw [map_cons, walkFrom_cons, advanceVisualColumnAt_alone first, ih high, length_cons]
    omega

variable {text cut : Line} {limit : Nat} {whole rest : List Line}

/-- **Where nothing is shown of what the window leaves out** it shows what the text shows. -/
theorem buildFrom_window (windowed : Windowed text limit whole rest cut)
    (start : build.visualColumn = view.startByte) (none_ : build.lastGlyphNextByte = none)
    (scrolled : view.startByte ≤ view.horizontalScroll) (some_ : 0 < view.visibleColumns)
    (shows : WindowShowsAll view whole rest cut) :
    buildFrom view 0 build (codePoints (text.take limit)) =
      buildFrom view 0 build (codePoints text) := by
  have edge : view.horizontalScroll < view.edge := Nat.lt_add_of_pos_right some_
  rw [windowed.window, windowed.parts]
  cases shows with
  | reached reached =>
    rw [← start] at reached
    rw [buildFrom_reached (by omega) reached, buildFrom_reached (by omega) reached]
  | ends none_ =>
    rw [windowed.last none_, none_]
    rfl
  | scrolledPast line window =>
    rw [← start] at line window
    have cutWalk : walkFrom view.tabSize build.visualColumn (whole ++ cut.map fun c => [c]) ≤
        view.horizontalScroll := by
      rw [walkFrom_append, walkFrom_cut windowed.high]
      exact window
    rw [buildOver_nil _ (cutWalk.trans_lt edge), buildOver_nil _ (line.trans_lt edge),
      (buildOver_left none_ cutWalk).1, (buildOver_left none_ line).1]
  | marksOnly noCut marks unattached =>
    have bytes : ∀ glyph ∈ whole ++ rest, glyph ≠ [] := fun glyph mem =>
      codePoint_ne_nil (windowed.parts ▸ mem)
    rw [noCut, map_nil, append_nil]
    rcases Nat.lt_or_ge (walkFrom view.tabSize build.visualColumn whole) view.edge with
      inside | reached
    · have before := unattached.before (fun glyph mem => bytes glyph (mem_append_left _ mem))
        start none_ inside
      rw [buildFrom_append inside, buildOver_nil _ inside, Nat.zero_add]
      exact (buildFrom_unattached marks (fun mark mem => bytes mark (mem_append_right _ mem))
        before).symm
    · rw [buildFrom_reached (by omega) reached]

/-- A walk past where it started has come over a last cell. -/
theorem exists_last_cell {glyphs : List Line}
    (cells : ¬∀ glyph ∈ glyphs, isZeroWidth glyph = true) :
    ∃ before base marks, glyphs = before ++ base :: marks ∧ isZeroWidth base = false ∧
      ∀ mark ∈ marks, isZeroWidth mark = true := by
  induction glyphs with
  | nil => exact absurd (fun _ mem => absurd mem not_mem_nil) cells
  | cons glyph glyphs ih =>
    by_cases later : ∀ glyph ∈ glyphs, isZeroWidth glyph = true
    · refine ⟨[], glyph, glyphs, rfl, ?_, later⟩
      exact eq_false_of_ne_true fun first => cells (forall_mem_cons.mpr ⟨first, later⟩)
    · obtain ⟨before, base, marks, rfl, cell, zero⟩ := ih later
      exact ⟨glyph :: before, base, marks, rfl, cell, zero⟩

/-- A code point that begins with an ASCII byte is that byte. -/
theorem codePoint_ascii {glyph : Line} (mem : glyph ∈ codePoints text) {c : UInt8} (ascii : c < 0x80)
    (first : glyph.head? = some c) : glyph = [c] := by
  induction text using walkInduction with
  | nil => exact absurd mem not_mem_nil
  | step front behind split _ _ ih =>
    rw [split] at mem
    rcases mem_cons.mp mem with rfl | mem
    · obtain ⟨tail, rfl⟩ := head?_eq_some_iff.mp first
      rw [cons_append, codePoints_ascii ascii] at split
      exact (List.cons.inj split).1.symm
    · exact ih mem

/-- The row behind a code point, and what the rest of the walk adds. -/
theorem buildFrom_cons (glyph : Line) {glyphs : List Line} (some_ : ∀ glyph ∈ glyphs, glyph ≠ []) :
    (build.step view j glyph).layout.text.length ≤
        (buildFrom view j build (glyph :: glyphs)).text.length ∧
      ∃ more, (buildFrom view j build (glyph :: glyphs)).sourceColumns =
          (build.step view j glyph).layout.sourceColumns ++ more ∧
        ∀ column ∈ more, view.startByte + j + glyph.length ≤ column := by
  rw [buildFrom]
  split
  · exact ⟨le_rfl, [], (append_nil _).symm, fun _ mem => absurd mem not_mem_nil⟩
  · refine ⟨buildFrom_text_le glyphs, ?_⟩
    obtain ⟨more, columns, low⟩ := @buildFrom_sourceColumns glyphs view (build.step view j glyph)
      (j + glyph.length) some_
    refine ⟨more, columns, fun column mem => ?_⟩
    have := (low column mem).1
    omega

theorem isZeroWidth_alone {b : UInt8} (high : 0x80 ≤ b) : isZeroWidth [b] = false := by
  have step := @advanceVisualColumnAt_alone 1 0 b high
  exact (@lt_advanceVisualColumnAt_iff 1 0 [b]).mp (by omega)

theorem step_alone {b : UInt8} (high : 0x80 ≤ b) (right : view.horizontalScroll ≤ build.visualColumn)
    (inside : build.visualColumn < view.edge) :
    (build.step view j [b]).layout.text = build.layout.text ++ [b] := by
  have notTab : ¬[b].head? = some tabByte := by
    rintro tab
    rw [Option.some.inj tab] at high
    exact absurd high (by decide)
  rw [step_cell (isZeroWidth_alone high), advanceVisualColumnAt_alone high, Nat.add_sub_cancel_left]
  rw [placeCells, if_neg (by omega), if_neg (by omega), placeCells,
    placeCell, if_neg notTab, if_pos rfl]

/-- A byte that ends the row, or that nothing follows, is the last of its text. -/
theorem buildFrom_alone {b : UInt8} (high : 0x80 ≤ b)
    (right : view.horizontalScroll ≤ build.visualColumn) (inside : build.visualColumn < view.edge)
    (last : view.edge = build.visualColumn + 1 ∨ cut = []) :
    (buildFrom view j build ([b] :: cut.map fun c => [c])).text = build.layout.text ++ [b] := by
  rw [← @step_alone view build j b high right inside, buildFrom]
  split
  · rfl
  next further =>
    rw [step_visualColumn, advanceVisualColumnAt_alone high] at further
    obtain rfl : cut = [] := last.resolve_left (by omega)
    rfl

/-- Bytes of a code point that are on the row come from its start only if one cell of it is all
the row has left. -/
theorem cut_columns_of_eq {b : UInt8} {glyph : Line} {glyphs : List Line}
    (high : ∀ c ∈ b :: cut, 0x80 ≤ c) (longer : (b :: cut).length < glyph.length)
    (some_ : ∀ glyph ∈ glyphs, glyph ≠ []) (edge : view.horizontalScroll < view.edge)
    (inside : build.visualColumn < view.edge)
    (seen : view.horizontalScroll < build.visualColumn + (b :: cut).length)
    (same : (buildFrom view j build ((b :: cut).map fun c => [c])).sourceColumns =
      (buildFrom view j build (glyph :: glyphs)).sourceColumns) :
    view.horizontalScroll ≤ build.visualColumn ∧
      (view.edge = build.visualColumn + 1 ∨ cut = []) ∧ isZeroWidth glyph = false := by
  obtain ⟨first, -⟩ := forall_mem_cons.mp high
  have cells := @buildFrom_sourceColumns_length view build j ((b :: cut).map fun c => [c])
  rw [walkFrom_cut high] at cells
  obtain ⟨all, window, bounds⟩ := @buildFrom_sourceColumns
    ((b :: cut).map fun c => [c]) view build j ne_nil_of_mem_map_singleton
  rw [flatten_map_singleton] at bounds
  obtain ⟨-, more, columns, later⟩ := @buildFrom_cons view build j [b] (cut.map fun c => [c])
    ne_nil_of_mem_map_singleton
  obtain ⟨-, more', columns', later'⟩ := @buildFrom_cons view build j glyph _ some_
  rw [window, length_append] at cells
  rw [length_cons] at cells seen longer
  rw [step_sourceColumns, advanceVisualColumnAt_alone first, append_assoc] at columns
  rw [step_sourceColumns, append_assoc, ← same, window] at columns'
  have front := append_cancel_left (window.symm.trans columns)
  have front' := append_cancel_left columns'
  -- the columns of the window lie inside the code point, those of the text outside or at its start
  have none_' : more' = [] := eq_nil_iff_forall_not_mem.mpr fun column mem => by
    have := later' column mem
    have := bounds column (front' ▸ mem_append_right _ mem)
    rw [length_cons] at this
    omega
  rw [none_', append_nil] at front'
  have none_ : more = [] := eq_nil_iff_forall_not_mem.mpr fun column mem => by
    have := later column mem
    have := eq_of_mem_replicate (front' ▸ front ▸ mem_append_right _ mem)
    rw [length_singleton] at *
    omega
  rw [none_, append_nil] at front
  have count := congrArg List.length front
  have count' := congrArg List.length front'
  rw [length_replicate] at count count'
  refine ⟨by omega, ?_, ?_⟩
  · rw [← length_eq_zero_iff]
    omega
  · rw [← @lt_advanceVisualColumnAt_iff view.tabSize build.visualColumn glyph]
    omega

/-- **Bytes that a window cuts off are seen**: where they reach the row, it is not the one of the
whole code point. -/
theorem cut_left_of_eq {glyph : Line} {glyphs : List Line} (inside : build.visualColumn < view.edge)
    (edge : view.horizontalScroll < view.edge) (high : ∀ c ∈ cut, 0x80 ≤ c)
    (longer : cut.length < glyph.length) (some_ : ∀ glyph ∈ glyphs, glyph ≠ [])
    (notTab : 2 ≤ glyph.length → glyph.head? ≠ some tabByte)
    (same : buildFrom view j build (cut.map fun c => [c]) = buildFrom view j build (glyph :: glyphs)) :
    cut = [] ∨ build.visualColumn + cut.length ≤ view.horizontalScroll := by
  by_contra seen
  rw [not_or, Nat.not_le] at seen
  obtain ⟨none_, seen⟩ := seen
  obtain ⟨b, cut, rfl⟩ := exists_cons_of_ne_nil none_
  obtain ⟨right, last, cell⟩ := cut_columns_of_eq high longer some_ edge inside seen
    (congrArg LayoutLine.sourceColumns same)
  have first := forall_mem_cons.mp high
  have window := @buildFrom_alone view build j cut b first.1 right inside last
  rw [map_cons] at same
  rw [same] at window
  rw [length_cons] at longer
  have attached := (@step_attached view build j glyph cell (notTab (by omega)) right inside).2
  have behind := (@buildFrom_cons view build j glyph glyphs some_).1
  rw [window, length_append, length_singleton] at behind
  omega

/-- A mark that joins the glyph before it is seen. -/
theorem buildFrom_joined {mark : Line} {marks : List Line} (zero : isZeroWidth mark = true)
    (some_ : mark ≠ []) (last : build.lastGlyphNextByte = some j) :
    build.layout.text.length < (buildFrom view j build (mark :: marks)).text.length := by
  have bytes := length_pos_iff.mpr some_
  have joined : build.layout.text.length < (build.step view j mark).layout.text.length := by
    rw [step_mark zero, joinMark, if_pos last]
    rw [length_append, length_append, length_take, length_drop]
    omega
  rw [buildFrom, if_neg]
  · exact joined.trans_le (buildFrom_text_le marks)
  · rw [step_visualColumn, advanceVisualColumnAt_eq_iff.mpr zero]
    exact fun moves => moves.1 rfl

/-- A glyph that is on the row from its start on, and no tab, is one that the marks behind it
join. -/
theorem unattached_of_not_attached {glyphs : List Line}
    (tab : ∀ glyph ∈ glyphs, 2 ≤ glyph.length → glyph.head? ≠ some tabByte)
    (start : build.visualColumn = view.startByte) (scrolled : view.startByte ≤ view.horizontalScroll)
    (right : view.horizontalScroll < walkFrom view.tabSize build.visualColumn glyphs)
    (inside : walkFrom view.tabSize build.visualColumn glyphs < view.edge)
    (last : (buildOver view 0 build glyphs).lastGlyphNextByte ≠ some glyphs.flatten.length) :
    Unattached view glyphs := by
  have cells : ¬∀ glyph ∈ glyphs, isZeroWidth glyph = true := fun marks => by
    rw [walkFrom_eq_iff.mpr marks] at right
    omega
  obtain ⟨before, base, marks, rfl, cell, zero⟩ := exists_last_cell cells
  refine ⟨before, base, marks, rfl, cell, zero, ?_⟩
  by_contra attached
  rw [not_or, Nat.not_lt, ← start] at attached
  rw [walkFrom_append] at inside
  have column := @buildOver_visualColumn view build 0 before
  have front := (le_walkFrom view.tabSize (walkFrom view.tabSize build.visualColumn before)
    (base :: marks)).trans_lt inside
  rw [← column] at attached front
  have joined := (@step_attached view (buildOver view 0 build before) (0 + before.flatten.length)
    base cell attached.1 attached.2 front).1
  apply last
  rw [buildOver_append, buildOver, buildOver_attached zero joined, Nat.zero_add,
    flatten_append, flatten_cons, length_append, length_append, Nat.add_assoc]

/-- **A window that shows what its text shows** leaves out nothing that is seen. -/
theorem windowShowsAll_of_eq (windowed : Windowed text limit whole rest cut)
    (start : build.visualColumn = view.startByte) (scrolled : view.startByte ≤ view.horizontalScroll)
    (some_ : 0 < view.visibleColumns)
    (same : buildFrom view 0 build (codePoints (text.take limit)) =
      buildFrom view 0 build (codePoints text)) : WindowShowsAll view whole rest cut := by
  have edge : view.horizontalScroll < view.edge := Nat.lt_add_of_pos_right some_
  rcases Nat.lt_or_ge (walkFrom view.tabSize view.startByte whole) view.edge with inside | reached
  swap
  · exact .reached reached
  cases rest with
  | nil => exact .ends rfl
  | cons glyph glyphs =>
    have bytes : ∀ other ∈ whole ++ glyph :: glyphs, other ≠ [] := fun other mem =>
      codePoint_ne_nil (windowed.parts ▸ mem)
    have notTab : ∀ other ∈ whole ++ glyph :: glyphs, 2 ≤ other.length →
        other.head? ≠ some tabByte := fun other mem long tab => by
      rw [codePoint_ascii (windowed.parts ▸ mem) (by decide) tab] at long
      exact absurd long (by decide)
    have longer := (windowed.next glyph rfl).1
    rw [windowed.window, windowed.parts] at same
    rw [← start] at inside
    rw [buildFrom_append inside, buildFrom_append inside] at same
    have column := @buildOver_visualColumn view build 0 whole
    have cells := congrArg (fun layout : LayoutLine => layout.sourceColumns.length) same
    rw [buildFrom_sourceColumns_length, buildFrom_sourceColumns_length, walkFrom_cut windowed.high,
      column, ← walkFrom_append] at cells
    have low := le_walkFrom view.tabSize (walkFrom view.tabSize build.visualColumn whole)
      (glyph :: glyphs)
    rw [← walkFrom_append] at low
    rcases cut_left_of_eq (by rwa [column]) edge windowed.high longer
      (fun other mem => bytes other (by simp [mem])) (notTab glyph (by simp)) same with none_ | left
    · rw [none_, length_nil] at cells
      rcases Nat.lt_or_ge view.horizontalScroll (walkFrom view.tabSize build.visualColumn whole) with
        right | left
      · have marks : walkFrom view.tabSize (walkFrom view.tabSize build.visualColumn whole)
            (glyph :: glyphs) = walkFrom view.tabSize build.visualColumn whole := by
          rw [← walkFrom_append]
          omega
        rw [walkFrom_eq_iff] at marks
        refine .marksOnly none_ marks (unattached_of_not_attached ?_ start scrolled right inside ?_)
        · exact fun other mem => notTab other (mem_append_left _ mem)
        · intro last
          rw [none_, map_nil, buildFrom, Nat.zero_add] at same
          have longer := @buildFrom_joined view _ _ glyph glyphs (marks glyph (by simp))
            (bytes glyph (by simp)) last
          rw [← same] at longer
          exact lt_irrefl _ longer
      · refine .scrolledPast ?_ ?_
        · rw [← start]
          omega
        · rwa [← start, none_]
    · rw [column] at left
      refine .scrolledPast ?_ ?_
      · rw [← start]
        omega
      · rwa [← start]

/-- **When a window shows what its text shows.** -/
theorem buildFrom_window_iff (windowed : Windowed text limit whole rest cut)
    (start : build.visualColumn = view.startByte) (none_ : build.lastGlyphNextByte = none)
    (scrolled : view.startByte ≤ view.horizontalScroll) (some_ : 0 < view.visibleColumns) :
    buildFrom view 0 build (codePoints (text.take limit)) =
      buildFrom view 0 build (codePoints text) ↔ WindowShowsAll view whole rest cut :=
  ⟨windowShowsAll_of_eq windowed start scrolled some_,
    buildFrom_window windowed start none_ scrolled some_⟩

end Window

/-! ### The row of a line -/

/-- The byte the row of a line is built from. -/
def rowStart (line : Line) (horizontalScroll : Nat) : Nat :=
  min (min horizontalScroll line.length) (firstNonPlainAsciiByte line)

/-- The window of a row shows all that the row of the line does. -/
def RowWindowShowsAll (line : Line) (horizontalScroll visibleColumns tabSize : Nat) : Prop :=
  ∃ whole rest cut,
    Windowed (line.drop (rowStart line horizontalScroll))
      (visibleLineWindowBytes (rowStart line horizontalScroll) horizontalScroll visibleColumns)
      whole rest cut ∧
    WindowShowsAll ⟨horizontalScroll, visibleColumns, rowStart line horizontalScroll, tabSize⟩
      whole rest cut

section Rows

variable {line : Line} {horizontalScroll visibleColumns tabSize : Nat} {facts : LineLayoutFacts}

theorem visualColumnForTextColumn_whole (line : Line) (tabSize : Nat) :
    visualColumnForTextColumn line line.length tabSize = walkFrom tabSize 0 (codePoints line) := by
  obtain ⟨after, cut, reaches⟩ := @startingBefore_cut line.length 0 (codePoints line)
  have bytes := congrArg (fun glyphs => (List.flatten glyphs).length) cut
  rw [flatten_codePoints, flatten_append, length_append] at bytes
  have none_ : after = [] := by
    by_contra some_
    have reach := reaches some_
    obtain ⟨glyph, others, rfl⟩ := exists_cons_of_ne_nil some_
    have low := (codePoint_length (cut ▸ mem_append_right _ mem_cons_self)).1
    rw [flatten_cons, length_append] at bytes
    omega
  rw [none_, append_nil] at cut
  rw [visualColumnForTextColumn_eq, clampTextColumn_length, ← cut]

/-- The facts are those of the line: its width, and that it is plain where they say so. -/
structure LineLayoutFacts.Correct (facts : LineLayoutFacts) (line : Line) (tabSize : Nat) : Prop where
  width : facts.known = true → facts.visualColumns = walkFrom tabSize 0 (codePoints line)
  plain : facts.known = true → facts.plainAscii = true → PlainTo line line.length

theorem rowStart_plain (plain : PlainTo line line.length) :
    rowStart line horizontalScroll = min horizontalScroll line.length :=
  min_eq_left ((min_le_right _ _).trans ((le_firstNonPlainAsciiByte_iff le_rfl).mpr plain))

/-- The row of a whole line is built from that byte. -/
theorem buildVisibleLineInto_eq (correct : facts.Correct line tabSize) :
    buildVisibleLineInto line horizontalScroll visibleColumns tabSize facts =
      buildVisibleLineWindowInto (line.drop (rowStart line horizontalScroll))
        ⟨horizontalScroll, visibleColumns, rowStart line horizontalScroll, tabSize⟩
        (walkFrom tabSize 0 (codePoints line)) := by
  have width : (if facts.known then facts.visualColumns
      else visualColumnForTextColumn line line.length tabSize) =
        walkFrom tabSize 0 (codePoints line) := by
    split
    · exact correct.width ‹_›
    · exact visualColumnForTextColumn_whole line tabSize
  have inside : rowStart line horizontalScroll ≤ line.length :=
    (min_le_left _ _).trans (min_le_right _ _)
  have start : (if horizontalScroll > 0 ∧ line ≠ [] then
      (if facts.known && facts.plainAscii then min horizontalScroll line.length
        else firstNonPlainAsciiByte (line.take (min horizontalScroll line.length)))
      else 0) = rowStart line horizontalScroll := by
    split
    · split
      next known =>
        rw [Bool.and_eq_true] at known
        exact (rowStart_plain (correct.plain known.1 known.2)).symm
      · exact firstNonPlainAsciiByte_take _ _
    next none_ =>
      rw [not_and_or, Nat.not_lt, Nat.le_zero, not_not] at none_
      rcases none_ with rfl | rfl
      · rw [rowStart, Nat.zero_min, Nat.zero_min]
      · rw [rowStart, length_nil, Nat.min_zero, Nat.zero_min]
  rw [buildVisibleLineInto]
  rw [width, start, min_eq_left inside]

/-- The row of a line that is built on a miss: from a window, or from the whole line. -/
theorem visibleLineLayout_eq {contents : Nat → List Line} {memos : PlainPrefixMemos}
    {lineIndex contentRevision : Nat} (exact_ : memos.Exact contents)
    (found : (contents contentRevision)[lineIndex]? = some line)
    (correct : facts.Correct line tabSize) :
    (visibleLineLayout memos (contents contentRevision) lineIndex horizontalScroll visibleColumns
        tabSize contentRevision facts).1 =
      let start := rowStart line horizontalScroll
      let want := visibleLineWindowBytes start horizontalScroll visibleColumns
      buildVisibleLineWindowInto
        (if facts.known = true ∧ want ≤ kMaxLineWindowBytes then (line.drop start).take want
          else line.drop start)
        ⟨horizontalScroll, visibleColumns, start, tabSize⟩ (walkFrom tabSize 0 (codePoints line)) := by
  have here : (contents contentRevision).getD lineIndex [] = line := by
    rw [getD_eq_getElem?_getD, found]
    rfl
  have scan := plainAsciiPrefixEndInto_spec exact_ found (min_le_right horizontalScroll line.length)
  have start : ∀ known : facts.known = true, computeVisibleLineWindowStart horizontalScroll line.length
      (if facts.plainAscii then (line.length, memos)
        else memos.plainAsciiPrefixEndInto (contents contentRevision) lineIndex
          (min horizontalScroll line.length) contentRevision).1 = rowStart line horizontalScroll := by
    intro known
    rw [computeVisibleLineWindowStart]
    split
    next none_ =>
      rcases none_ with zero | zero
      · rw [rowStart, zero, Nat.zero_min, Nat.zero_min]
      · rw [rowStart, zero, Nat.min_zero, Nat.zero_min]
    · split
      next plain =>
        rw [rowStart_plain (correct.plain known plain)]
        exact min_eq_left (min_le_right _ _)
      · rw [scan.1, rowStart]
        omega
  rw [visibleLineLayout, here]
  cases known : facts.known with
  | false =>
    exact buildVisibleLineInto_eq correct
  | true =>
    rw [if_pos rfl]
    dsimp only
    rw [start known]
    by_cases small : visibleLineWindowBytes (rowStart line horizontalScroll) horizontalScroll
        visibleColumns ≤ kMaxLineWindowBytes
    · rw [if_pos small]
      dsimp only
      rw [if_pos ⟨rfl, small⟩, correct.width known]
      rfl
    · rw [if_neg small]
      dsimp only
      rw [if_neg fun both => small both.2]
      exact buildVisibleLineInto_eq correct

/-- **The row built from a window** is the row of the whole line exactly if the window shows all
that the row does. -/
theorem visibleLineLayout_iff {contents : Nat → List Line} {memos : PlainPrefixMemos}
    {lineIndex contentRevision : Nat} (run : MemoRun contents memos)
    (found : (contents contentRevision)[lineIndex]? = some line)
    (correct : facts.Correct line tabSize) :
    (visibleLineLayout memos (contents contentRevision) lineIndex horizontalScroll visibleColumns
        tabSize contentRevision facts).1 =
      buildVisibleLineInto line horizontalScroll visibleColumns tabSize {} ↔
    (facts.known = true →
      visibleLineWindowBytes (rowStart line horizontalScroll) horizontalScroll visibleColumns ≤
        kMaxLineWindowBytes →
      0 < visibleColumns → RowWindowShowsAll line horizontalScroll visibleColumns tabSize) := by
  have unknown : ({} : LineLayoutFacts).Correct line tabSize :=
    ⟨fun known => absurd known Bool.false_ne_true, fun known => absurd known Bool.false_ne_true⟩
  rw [visibleLineLayout_eq run.exact found correct, buildVisibleLineInto_eq unknown]
  dsimp only
  by_cases windowed : facts.known = true ∧
      visibleLineWindowBytes (rowStart line horizontalScroll) horizontalScroll visibleColumns ≤
        kMaxLineWindowBytes
  swap
  · rw [if_neg windowed]
    exact ⟨fun _ known small => absurd ⟨known, small⟩ windowed, fun _ => rfl⟩
  rw [if_pos windowed]
  rcases Nat.eq_zero_or_pos visibleColumns with none_ | some_
  · rw [buildVisibleLineWindowInto, buildVisibleLineWindowInto, if_pos none_, if_pos none_]
    exact ⟨fun _ _ _ some_ => absurd none_ some_.ne', fun _ => rfl⟩
  rw [buildVisibleLineWindowInto, buildVisibleLineWindowInto, if_neg some_.ne', if_neg some_.ne']
  have scrolled : rowStart line horizontalScroll ≤ horizontalScroll :=
    (min_le_left _ _).trans (min_le_left _ _)
  constructor
  · intro same _ _ _
    obtain ⟨whole, rest, cut, parts⟩ := codePoints_take (line.drop (rowStart line horizontalScroll))
      (visibleLineWindowBytes (rowStart line horizontalScroll) horizontalScroll visibleColumns)
    exact ⟨whole, rest, cut, parts, (buildFrom_window_iff parts rfl rfl scrolled some_).mp same⟩
  · intro shows
    obtain ⟨whole, rest, cut, parts, shows⟩ := shows windowed.1 windowed.2 some_
    exact (buildFrom_window_iff parts rfl rfl scrolled some_).mpr shows

/-- The row of `a`, a tab and `b` from its second column on, built from all of its bytes. -/
theorem visibleLineLayout_iff_tab :
    (visibleLineLayout {} [[0x61, 0x09, 0x62]] 0 1 3 4 0 (measureLineFacts [0x61, 0x09, 0x62] 4)).1 =
      buildVisibleLineInto [0x61, 0x09, 0x62] 1 3 4 {} := by
  have correct : (measureLineFacts [0x61, 0x09, 0x62] 4).Correct [0x61, 0x09, 0x62] 4 :=
    ⟨fun _ => measureLineFacts_visualColumns (by decide) _, fun _ => measureLineFacts_plainAscii.mp⟩
  refine (@visibleLineLayout_iff [0x61, 0x09, 0x62] 1 3 4 _ (fun _ => [[0x61, 0x09, 0x62]]) {} 0 0
    .cold rfl correct).mpr fun _ _ _ => ?_
  refine ⟨[[0x09], [0x62]], [], [], ⟨by decide +kernel, by decide +kernel, ?_, ?_, fun _ => rfl⟩,
    .ends rfl⟩
  · exact fun c mem => absurd mem not_mem_nil
  · exact fun glyph mem => absurd mem (Option.not_mem_none glyph)

/-- Behind an `a` with six combining acutes, two cells need more than twelve bytes: the window ends
inside the sixth mark, and its first byte is shown where `b` is. -/
theorem visibleLineLayout_marks :
    let line : Line := [0x61, 0xCC, 0x81, 0xCC, 0x81, 0xCC, 0x81, 0xCC, 0x81, 0xCC, 0x81, 0xCC, 0x81,
      0x62]
    (visibleLineLayout {} [line] 0 0 2 4 0 (measureLineFacts line 4)).1.sourceColumns = [0, 11] ∧
      (buildVisibleLineInto line 0 2 4 {}).sourceColumns = [0, 13] := by
  decide +kernel

end Rows

end Microide.Editor
