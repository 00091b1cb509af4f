/-
Wrapped rows after an edit.

Under soft wrap without a collapsed fold an edit replaces the rows of its lines in the table; where
it only splices one line of plain text, the wrap resumes at the first row that can have seen it.

**Main results.** `rewrapEdit_spec`: the rows kept and wrapped anew are those of the lines before
the edit and the inserted ones; `updateWrappedRowsAfterEdit_spec`: the table is a full rebuild's.
-/

import Microide.Editor.ResumedWrap
import Microide.Editor.WrappedRows

namespace Microide.Editor

open List Lib Text WrappedRowTable

/-- What the layout cache reads of a folding model. -/
structure FoldingModelView where
  identity : Nat
  hasAnyCollapsedFold : Bool
  layoutRevision : Nat

/-- The inputs a build of the table was made for. -/
structure WrapBuildKey where
  tabSize : Nat
  visibleColumns : Nat
  layoutShapeRevision : Nat
  contentRevision : Nat
  softWrap : Bool
  foldingModel : Option Nat
  foldRevision : Nat

/-- The wrapped rows of `TextLayoutCache`, with the memo an update consults. -/
structure WrappedRowCache where
  table : WrappedRowTable
  isTrivial : Bool
  foldNoWrap : Bool
  key : WrapBuildKey
  memos : PlainPrefixMemos

/-- The guard of `UpdateWrappedRowsAfterEdit`: soft wrap without a collapsed fold, and a table that
was built for the same inputs. -/
def WrappedRowCache.canSplice (cache : WrappedRowCache) (tabSize visibleColumns : Nat)
    (softWrap : Bool) (foldingModel : Option FoldingModelView) (layoutShapeRevision : Nat) : Bool :=
  softWrap && !foldingModel.any (·.hasAnyCollapsedFold) && !cache.isTrivial && !cache.foldNoWrap &&
    cache.key.softWrap && cache.key.tabSize == tabSize &&
    cache.key.visibleColumns == visibleColumns &&
    cache.key.layoutShapeRevision == layoutShapeRevision &&
    cache.key.foldingModel == foldingModel.map (·.identity) &&
    cache.key.foldRevision == (foldingModel.map (·.layoutRevision)).getD 0

/-- The offset of a line, or the row count behind the last. -/
def WrappedRowTable.rowBoundary (table : WrappedRowTable) (line oldLineCount : Nat) : Nat :=
  if line < oldLineCount then table.lineOffsets.getD line 0 else table.rows.length

/-- The search for the first row that could have examined the edit. -/
def WrappedRowTable.firstRowReaching (table : WrappedRowTable)
    (firstRow removedRowsEnd wrapColumns editVisual : Nat) : Nat :=
  firstRow + partitionPoint (fun row => row.visualStart + wrapColumns < editVisual)
    ((table.rows.drop firstRow).take (removedRowsEnd - firstRow))

/-- The loop that wraps the inserted lines: their offsets, and their rows. -/
def wrapInserted (tabSize wrapColumns : Nat) :
    Nat → List Nat → List WrappedRow → List Line → List Nat × List WrappedRow
  | _, offsets, rows, [] => (offsets, rows)
  | lineIndex, offsets, rows, line :: lines =>
    wrapInserted tabSize wrapColumns (lineIndex + 1) (offsets ++ [rows.length])
      (rows ++ wrapSingleLine line lineIndex tabSize wrapColumns) lines

/-- What an update wraps anew: the first row it replaces, the rows in place of it, and where the
rows of each inserted line start. -/
structure Rewrap where
  spliceFirstRow : Nat
  newRows : List WrappedRow
  lineOffsets : List Nat

/-- The wrap of a spliced line from its row `resumeRow` on. -/
def WrappedRowTable.resumeWrap (table : WrappedRowTable) (lines : List Line)
    (startLine firstRow resumeRow tabSize wrapColumns : Nat) : Rewrap :=
  let lineText := lines.getD startLine []
  let resumeVisual := ((table.rows[resumeRow]?).map (·.visualStart)).getD 0
  let hangingIndent := hangingIndentFor
    (lineWindow lineText 0 (min lineText.length (wrapColumns + 1))) tabSize wrapColumns
  { spliceFirstRow := resumeRow
    newRows := (wrapLineSegmentsFrom (lineWindow lineText resumeVisual
      (lineText.length - resumeVisual)) tabSize wrapColumns resumeVisual hangingIndent).map
        fun row => ⟨row, startLine⟩
    lineOffsets := [firstRow] }

/-- What `UpdateWrappedRowsAfterEdit` wraps, and the memo behind its question. -/
def WrappedRowCache.rewrapEdit (cache : WrappedRowCache)
    (startLine removedCount insertedCount : Nat) (lines : List Line)
    (tabSize wrapColumns firstRow removedRowsEnd contentRevision : Nat)
    (editColumn : Option Nat) : Rewrap × PlainPrefixMemos :=
  let whole : Rewrap :=
    let wrapped := wrapInserted tabSize wrapColumns startLine [] []
      ((lines.drop startLine).take insertedCount)
    ⟨firstRow, wrapped.2, wrapped.1.map (firstRow + ·)⟩
  match editColumn with
  | none => (whole, cache.memos)
  | some editColumn =>
    if insertedCount = 1 ∧ removedCount = 1 ∧ firstRow < removedRowsEnd then
      let plain := cache.memos.plainAsciiThroughColumn lines startLine editColumn contentRevision
      if plain.1 then
        let lo := cache.table.firstRowReaching firstRow removedRowsEnd wrapColumns editColumn
        if lo > firstRow then
          (cache.table.resumeWrap lines startLine firstRow lo tabSize wrapColumns, plain.2)
        else (whole, plain.2)
      else (whole, plain.2)
    else (whole, cache.memos)

/-- The splice of the rows into the table: in place where neither the lines nor the rows change
their number. -/
def WrappedRowTable.splice (table : WrappedRowTable) (rewrap : Rewrap)
    (startLine removedCount insertedCount removedRowsEnd newLineCount : Nat) :
    Option WrappedRowTable :=
  let removedRows := removedRowsEnd - rewrap.spliceFirstRow
  if insertedCount = removedCount ∧ rewrap.newRows.length = removedRows then
    some
      { rows := table.rows.take rewrap.spliceFirstRow ++ rewrap.newRows ++
          table.rows.drop (rewrap.spliceFirstRow + rewrap.newRows.length)
        lineOffsets := table.lineOffsets.take startLine ++ rewrap.lineOffsets ++
          table.lineOffsets.drop (startLine + insertedCount) }
  else
    let later := (table.rows.drop removedRowsEnd).map fun row =>
      if insertedCount = removedCount then row
      else { row with lineIndex := row.lineIndex + insertedCount - removedCount }
    let newOffsets := table.lineOffsets.take startLine ++ rewrap.lineOffsets ++
      (table.lineOffsets.drop (startLine + removedCount)).map
        (· + rewrap.newRows.length - removedRows)
    let rows := table.rows.take rewrap.spliceFirstRow ++ rewrap.newRows ++ later
    if newOffsets.length ≠ newLineCount ∨ rows = [] then none
    else some ⟨rows, newOffsets⟩

/-- `UpdateWrappedRowsAfterEdit`; no cache where it asks for a full rebuild. -/
def WrappedRowCache.updateWrappedRowsAfterEdit (cache : WrappedRowCache)
    (startLine removedCount insertedCount : Nat) (lines : List Line) (tabSize visibleColumns : Nat)
    (softWrap : Bool) (foldingModel : Option FoldingModelView)
    (layoutShapeRevision contentRevision : Nat) (editColumn : Option Nat) :
    Option WrappedRowCache :=
  if cache.canSplice tabSize visibleColumns softWrap foldingModel layoutShapeRevision = false then
    none
  else if lines.length + removedCount < insertedCount then none
  else
    let oldLineCount := lines.length + removedCount - insertedCount
    if cache.table.lineOffsets.length ≠ oldLineCount ∨ oldLineCount = 0 ∨
        startLine + removedCount > oldLineCount then none
    else
      let wrapColumns := max 1 visibleColumns
      let totalRows := cache.table.rows.length
      let firstRow := cache.table.rowBoundary startLine oldLineCount
      let removedRowsEnd := cache.table.rowBoundary (startLine + removedCount) oldLineCount
      if firstRow > removedRowsEnd ∨ removedRowsEnd > totalRows then none
      else
        let rewrap := cache.rewrapEdit startLine removedCount insertedCount lines tabSize wrapColumns
          firstRow removedRowsEnd contentRevision editColumn
        (cache.table.splice rewrap.1 startLine removedCount insertedCount removedRowsEnd
          lines.length).map fun table =>
            { cache with
              table := table
              key := { cache.key with contentRevision := contentRevision }
              memos := rewrap.2 }

/-! ### The full table -/

/-- Nothing is hidden. -/
def noneHidden : Nat → Bool := fun _ => false

section Full

variable {tabSize wrapColumns : Nat}

theorem rowsFrom_cons (lineIndex : Nat) (line : Line) (lines : List Line) :
    rowsFrom noneHidden tabSize wrapColumns lineIndex (line :: lines) =
      wrapSingleLine line lineIndex tabSize wrapColumns ++
        rowsFrom noneHidden tabSize wrapColumns (lineIndex + 1) lines := rfl

theorem offsetsFrom_cons (lineIndex lastVisibleRow rowCount : Nat) (line : Line)
    (lines : List Line) :
    offsetsFrom noneHidden tabSize wrapColumns lineIndex lastVisibleRow rowCount (line :: lines) =
      rowCount :: offsetsFrom noneHidden tabSize wrapColumns (lineIndex + 1) rowCount
        (rowCount + (wrapSingleLine line lineIndex tabSize wrapColumns).length) lines := rfl

theorem wrapSingleLine_length (line : Line) (lineIndex : Nat) :
    (wrapSingleLine line lineIndex tabSize wrapColumns).length =
      (wrapLineSegments line tabSize wrapColumns).length := length_map _

/-- A shift of the line indices is a shift of the first. -/
theorem rowsFrom_map {shift : Nat → Nat} {lineIndex : Nat} (lines : List Line)
    (along : ∀ k, shift (lineIndex + k) = shift lineIndex + k) :
    (rowsFrom noneHidden tabSize wrapColumns lineIndex lines).map
        (fun row => { row with lineIndex := shift row.lineIndex }) =
      rowsFrom noneHidden tabSize wrapColumns (shift lineIndex) lines := by
  induction lines generalizing lineIndex with
  | nil => rfl
  | cons line lines ih =>
    have next : ∀ k, shift (lineIndex + 1 + k) = shift (lineIndex + 1) + k := fun k => by
      rw [Nat.add_assoc, along, along]
      omega
    rw [rowsFrom_cons, rowsFrom_cons, map_append, ih next, along 1]
    rw [wrapSingleLine, wrapSingleLine, map_map]
    rfl

/-- A shift of the offsets is a shift of the rows before. -/
theorem offsetsFrom_map {shift : Nat → Nat} {rowCount : Nat}
    (lineIndex lineIndex' lastVisibleRow lastVisibleRow' : Nat) (lines : List Line)
    (along : ∀ k, shift (rowCount + k) = shift rowCount + k) :
    (offsetsFrom noneHidden tabSize wrapColumns lineIndex lastVisibleRow rowCount lines).map shift =
      offsetsFrom noneHidden tabSize wrapColumns lineIndex' lastVisibleRow' (shift rowCount)
        lines := by
  induction lines generalizing lineIndex lineIndex' lastVisibleRow lastVisibleRow' rowCount with
  | nil => rfl
  | cons line lines ih =>
    have next (count : Nat) :
        ∀ k, shift (rowCount + count + k) = shift (rowCount + count) + k := fun k => by
      rw [Nat.add_assoc, along, along]
      omega
    rw [offsetsFrom_cons, offsetsFrom_cons, map_cons, wrapSingleLine_length,
      wrapSingleLine_length, ih _ (lineIndex' + 1) _ (shift rowCount) (next _), along]

theorem offsetsFrom_append (lineIndex lastVisibleRow rowCount : Nat) (lines more : List Line) :
    offsetsFrom noneHidden tabSize wrapColumns lineIndex lastVisibleRow rowCount (lines ++ more) =
      offsetsFrom noneHidden tabSize wrapColumns lineIndex lastVisibleRow rowCount lines ++
        offsetsFrom noneHidden tabSize wrapColumns 0 0
          (rowCount + (rowsFrom noneHidden tabSize wrapColumns lineIndex lines).length) more := by
  induction lines generalizing lineIndex lastVisibleRow rowCount with
  | nil =>
    have moved := @offsetsFrom_map tabSize wrapColumns id rowCount lineIndex 0 lastVisibleRow 0 more
      fun _ => rfl
    rwa [map_id] at moved
  | cons line lines ih =>
    rw [cons_append, offsetsFrom_cons, offsetsFrom_cons, ih, rowsFrom_cons, length_append,
      cons_append, Nat.add_assoc]

theorem offsetsFrom_length (lineIndex lastVisibleRow rowCount : Nat) (lines : List Line) :
    (offsetsFrom noneHidden tabSize wrapColumns lineIndex lastVisibleRow rowCount lines).length =
      lines.length := by
  induction lines generalizing lineIndex lastVisibleRow rowCount with
  | nil => rfl
  | cons line lines ih => rw [offsetsFrom_cons, length_cons, length_cons, ih]

theorem ensureWrappedRowLayouts_eq {lines : List Line} (some_ : lines ≠ [])
    (tabSize visibleColumns : Nat) :
    ensureWrappedRowLayouts lines noneHidden tabSize visibleColumns =
      ⟨rowsFrom noneHidden tabSize (max 1 visibleColumns) 0 lines,
        offsetsFrom noneHidden tabSize (max 1 visibleColumns) 0 0 0 lines⟩ := by
  have rows := @wrapLinesFrom_rows noneHidden tabSize (max 1 visibleColumns) 0 0 {} lines
  have offsets := @wrapLinesFrom_lineOffsets noneHidden tabSize (max 1 visibleColumns) 0 0 {} lines
  have occupied : rowsFrom noneHidden tabSize (max 1 visibleColumns) 0 lines ≠ [] := by
    obtain ⟨line, lines, rfl⟩ := exists_cons_of_ne_nil some_
    exact append_ne_nil_of_left_ne_nil (wrapSingleLine_ne_nil _ _ _ _) _
  rw [ensureWrappedRowLayouts]
  rw [if_neg (by rwa [rows])]
  exact congrArg₂ mk rows offsets

theorem wrapInserted_eq (lineIndex : Nat) (offsets : List Nat) (rows : List WrappedRow)
    (lines : List Line) : wrapInserted tabSize wrapColumns lineIndex offsets rows lines =
      (offsets ++ offsetsFrom noneHidden tabSize wrapColumns lineIndex 0 rows.length lines,
        rows ++ rowsFrom noneHidden tabSize wrapColumns lineIndex lines) := by
  induction lines generalizing lineIndex offsets rows with
  | nil => exact Prod.ext (append_nil _).symm (append_nil _).symm
  | cons line lines ih =>
    have moved := @offsetsFrom_map tabSize wrapColumns id
      (rows.length + (wrapSingleLine line lineIndex tabSize wrapColumns).length) (lineIndex + 1)
      (lineIndex + 1) 0 rows.length lines fun _ => rfl
    rw [map_id] at moved
    rw [wrapInserted, ih, offsetsFrom_cons, rowsFrom_cons, length_append, append_assoc,
      append_assoc, moved]
    rfl

end Full

/-! ### The update -/

/-- An in-line splice at a byte column. -/
def SplicedAt (old new : Line) (column : Nat) : Prop :=
  ∃ front removed inserted back, old = front ++ removed ++ back ∧
    new = front ++ inserted ++ back ∧ column = front.length

section Update

variable {before removed inserted after : List Line} {tabSize visibleColumns : Nat}

theorem rowBoundary_append {front back : List Line} (some_ : front ++ back ≠ []) :
    (ensureWrappedRowLayouts (front ++ back) noneHidden tabSize visibleColumns).rowBoundary
        front.length (front ++ back).length =
      (rowsFrom noneHidden tabSize (max 1 visibleColumns) 0 front).length := by
  rw [ensureWrappedRowLayouts_eq some_, rowBoundary]
  cases back with
  | nil =>
    rw [append_nil, if_neg (lt_irrefl _)]
  | cons line back =>
    rw [if_pos (by rw [length_append, length_cons]; omega), offsetsFrom_append,
      offsetsFrom_cons, getD_eq_getElem?_getD, getElem?_append_right, offsetsFrom_length,
      Nat.sub_self, getElem?_cons_zero, Option.getD_some, Nat.zero_add]
    rw [offsetsFrom_length]

/-- A rewrap that keeps the rows before its splice and completes them to those of the lines before
the edit and the inserted ones. -/
structure Completes (tabSize wrapColumns : Nat) (before removed inserted : List Line)
    (rows : List WrappedRow) (rewrap : Rewrap) : Prop where
  rows : rows.take rewrap.spliceFirstRow ++ rewrap.newRows =
    rowsFrom noneHidden tabSize wrapColumns 0 (before ++ inserted)
  early : rewrap.spliceFirstRow ≤
    (rowsFrom noneHidden tabSize wrapColumns 0 (before ++ removed)).length
  offsets : rewrap.lineOffsets = offsetsFrom noneHidden tabSize wrapColumns 0 0
    (rowsFrom noneHidden tabSize wrapColumns 0 before).length inserted

/-- **The splice of the table** is the table of the edited document. -/
theorem splice_spec {rewrap : Rewrap} {table : WrappedRowTable} (some_ : before ++ removed ++ after ≠ [])
    (completes : Completes tabSize (max 1 visibleColumns) before removed inserted
      (ensureWrappedRowLayouts (before ++ removed ++ after) noneHidden tabSize visibleColumns).rows
      rewrap)
    (spliced : (ensureWrappedRowLayouts (before ++ removed ++ after) noneHidden tabSize
        visibleColumns).splice rewrap before.length removed.length inserted.length
        (rowsFrom noneHidden tabSize (max 1 visibleColumns) 0 (before ++ removed)).length
        (before ++ inserted ++ after).length = some table) :
    table = ensureWrappedRowLayouts (before ++ inserted ++ after) noneHidden tabSize
      visibleColumns := by
  obtain ⟨rows, early, offsets⟩ := completes
  rw [ensureWrappedRowLayouts_eq some_] at rows spliced
  rw [WrappedRowTable.splice] at spliced
  dsimp only at rows spliced
  set wrapColumns := max 1 visibleColumns
  have rowsOld := @rowsFrom_append noneHidden tabSize wrapColumns 0 (before ++ removed) after
  have offsetsOld := @offsetsFrom_append tabSize wrapColumns 0 0 0 (before ++ removed) after
  rw [offsetsFrom_append 0 0 0 before removed, Nat.zero_add, Nat.zero_add] at offsetsOld
  rw [Nat.zero_add] at rowsOld
  have size : rewrap.spliceFirstRow + rewrap.newRows.length =
      (rowsFrom noneHidden tabSize wrapColumns 0 (before ++ inserted)).length := by
    rw [← rows, length_append, length_take, rowsOld, length_append]
    omega
  -- the new table in its parts
  have whole : before ++ inserted ++ after ≠ [] →
      ensureWrappedRowLayouts (before ++ inserted ++ after) noneHidden tabSize visibleColumns =
        ⟨rowsFrom noneHidden tabSize wrapColumns 0 (before ++ inserted) ++
            rowsFrom noneHidden tabSize wrapColumns (before.length + inserted.length) after,
          offsetsFrom noneHidden tabSize wrapColumns 0 0 0 before ++ rewrap.lineOffsets ++
            offsetsFrom noneHidden tabSize wrapColumns 0 0
              (rowsFrom noneHidden tabSize wrapColumns 0 (before ++ inserted)).length after⟩ := by
    intro some_'
    rw [ensureWrappedRowLayouts_eq some_', offsets, rowsFrom_append, offsetsFrom_append,
      offsetsFrom_append 0 0 0 before inserted, Nat.zero_add, Nat.zero_add, Nat.zero_add,
      length_append]
  have lineCount : (before ++ removed).length = before.length + removed.length :=
    length_append
  have frontOffsets := @offsetsFrom_length tabSize wrapColumns 0 0 0 before
  have removedOffsets := @offsetsFrom_length tabSize wrapColumns 0 0
    (rowsFrom noneHidden tabSize wrapColumns 0 before).length removed
  have takeOffsets : (offsetsFrom noneHidden tabSize wrapColumns 0 0 0
      (before ++ removed ++ after)).take before.length =
        offsetsFrom noneHidden tabSize wrapColumns 0 0 0 before := by
    rw [offsetsOld, append_assoc, take_left' frontOffsets]
  have dropOffsets : (offsetsFrom noneHidden tabSize wrapColumns 0 0 0
      (before ++ removed ++ after)).drop (before.length + removed.length) =
        offsetsFrom noneHidden tabSize wrapColumns 0 0
          (rowsFrom noneHidden tabSize wrapColumns 0 (before ++ removed)).length after := by
    rw [offsetsOld, drop_left' (by rw [length_append, frontOffsets, removedOffsets])]
  split at spliced
  next inPlace =>
    obtain ⟨lines, sameRows⟩ := inPlace
    obtain rfl := Option.some.inj spliced
    have some_' : before ++ inserted ++ after ≠ [] := by
      intro none_
      refine some_ (length_eq_zero_iff.mp ?_)
      have := congrArg List.length none_
      simp only [length_append, length_nil] at this ⊢
      omega
    rw [whole some_', rows, lines, takeOffsets, dropOffsets, size]
    have end_ : (rowsFrom noneHidden tabSize wrapColumns 0 (before ++ inserted)).length =
        (rowsFrom noneHidden tabSize wrapColumns 0 (before ++ removed)).length := by omega
    rw [end_, rowsOld, drop_left, lineCount]
  · have laterRows : (List.drop (rowsFrom noneHidden tabSize wrapColumns 0 (before ++ removed)).length
        (rowsFrom noneHidden tabSize wrapColumns 0 (before ++ removed ++ after))).map (fun row =>
          if inserted.length = removed.length then row
          else { row with lineIndex := row.lineIndex + inserted.length - removed.length }) =
        rowsFrom noneHidden tabSize wrapColumns (before.length + inserted.length) after := by
      rw [rowsOld, drop_left, lineCount]
      by_cases lines : inserted.length = removed.length
      · simp only [lines, if_true, map_id']
      · simp only [if_neg lines]
        have moved := @rowsFrom_map tabSize wrapColumns (fun k => k + inserted.length - removed.length)
          (before.length + removed.length) after fun k => by omega
        rw [moved]
        congr 1
        omega
    have laterOffsets : (offsetsFrom noneHidden tabSize wrapColumns 0 0
        (rowsFrom noneHidden tabSize wrapColumns 0 (before ++ removed)).length after).map
          (· + rewrap.newRows.length -
            ((rowsFrom noneHidden tabSize wrapColumns 0 (before ++ removed)).length -
              rewrap.spliceFirstRow)) =
        offsetsFrom noneHidden tabSize wrapColumns 0 0
          (rowsFrom noneHidden tabSize wrapColumns 0 (before ++ inserted)).length after := by
      rw [offsetsFrom_map 0 0 0 0 after fun k => by omega]
      congr 1
      omega
    rw [laterRows, rows, takeOffsets, dropOffsets, laterOffsets] at spliced
    split at spliced
    · exact absurd spliced (Option.some_ne_none _).symm
    next shape =>
      obtain rfl := Option.some.inj spliced
      refine (whole fun none_ => shape (.inr ?_)).symm
      obtain ⟨front, rfl⟩ := append_eq_nil_iff.mp none_
      rw [front]
      rfl

/-- The rows of all the inserted lines. -/
theorem completes_whole (wrapColumns : Nat) {rows rest : List WrappedRow}
    (split : rows = rowsFrom noneHidden tabSize wrapColumns 0 before ++ rest) :
    let wrapped := wrapInserted tabSize wrapColumns before.length [] []
      (((before ++ inserted ++ after).drop before.length).take inserted.length)
    Completes tabSize wrapColumns before removed inserted rows
      ⟨(rowsFrom noneHidden tabSize wrapColumns 0 before).length, wrapped.2,
        wrapped.1.map ((rowsFrom noneHidden tabSize wrapColumns 0 before).length + ·)⟩ := by
  have slice : ((before ++ inserted ++ after).drop before.length).take inserted.length =
      inserted := by
    rw [append_assoc, drop_left, take_left]
  rw [slice, wrapInserted_eq]
  refine ⟨?_, ?_, ?_⟩
  · dsimp only
    rw [split, take_left, rowsFrom_append, Nat.zero_add, nil_append]
  · dsimp only
    rw [rowsFrom_append, length_append]
    exact Nat.le_add_right _ _
  · rw [nil_append, offsetsFrom_map _ 0 _ 0 inserted fun k => (Nat.add_assoc _ _ _).symm]
    rfl

theorem Wrapped.le_visualStart {tabSize wrapColumns hangingIndent start : Nat} {glyphs : List Line}
    {rows : List WrapRow} (wrapped : Wrapped tabSize wrapColumns hangingIndent start glyphs rows) :
    ∀ row ∈ rows, start ≤ row.visualStart := by
  induction wrapped with
  | last fits =>
    intro row mem
    rw [mem_singleton.mp mem]
  | next fits cells some_ begins later ih =>
    exact forall_mem_cons.mpr ⟨le_rfl, fun row mem => cells.le.trans (ih row mem)⟩

/-- **The resumed wrap completes the rows** of a spliced line. -/
theorem resumeWrap_spec {old new : Line} {column wrapColumns : Nat} (room : 1 ≤ wrapColumns)
    (spliced : SplicedAt old new column) (plain : PlainTo new column) {table : WrappedRowTable}
    {rest : List WrappedRow}
    (split : table.rows = rowsFrom noneHidden tabSize wrapColumns 0 before ++
      wrapSingleLine old before.length tabSize wrapColumns ++ rest)
    {firstRow lo : Nat}
    (first : firstRow = (rowsFrom noneHidden tabSize wrapColumns 0 before).length)
    (search : table.firstRowReaching firstRow
      (rowsFrom noneHidden tabSize wrapColumns 0 (before ++ [old])).length wrapColumns column = lo)
    (resumed : firstRow < lo) : Completes tabSize wrapColumns before [old] [new] table.rows
      (table.resumeWrap (before ++ [new] ++ after) before.length firstRow lo tabSize wrapColumns) := by
  obtain ⟨same, inside, inside'⟩ : old.take column = new.take column ∧ column ≤ old.length ∧
      column ≤ new.length := by
    obtain ⟨front, gone, added, back, rfl, rfl, rfl⟩ := spliced
    refine ⟨by rw [append_assoc, append_assoc, take_left, take_left], ?_, ?_⟩
    all_goals
      rw [append_assoc, length_append]
      exact Nat.le_add_right _ _
  have plainOld : PlainTo old column := by
    rw [PlainTo, same]
    exact plain
  -- the search is among the rows of the line
  have slice : (table.rows.drop firstRow).take
      ((rowsFrom noneHidden tabSize wrapColumns 0 (before ++ [old])).length - firstRow) =
        wrapSingleLine old before.length tabSize wrapColumns := by
    rw [split, first, rowsFrom_append, append_assoc, drop_left, length_append,
      Nat.add_sub_cancel_left, Nat.zero_add]
    exact take_left' (congrArg List.length (append_nil _)).symm
  rw [firstRowReaching, slice] at search
  by_cases near : column ≤ wrapColumns
  · have none_ : partitionPoint
        (fun row : WrappedRow => decide (row.visualStart + wrapColumns < column))
        ([] ++ wrapSingleLine old before.length tabSize wrapColumns) = 0 :=
      partitionPoint_append (fun _ mem => absurd mem not_mem_nil) fun row _ =>
        decide_eq_false (by omega)
    rw [nil_append] at none_
    omega
  have far : wrapColumns < column := Nat.lt_of_not_le near
  have indents : hangingIndentFor old tabSize wrapColumns =
      hangingIndentFor new tabSize wrapColumns := by
    rw [← hangingIndentFor_take (Nat.lt_succ_self _) tabSize old,
      ← hangingIndentFor_take (Nat.lt_succ_self _) tabSize new]
    have cut := congrArg (List.take (wrapColumns + 1)) same
    rw [take_take, take_take, min_eq_left far] at cut
    exact congrArg (hangingIndentFor · tabSize wrapColumns) cut
  have rowsOf {line : Line} (long : column ≤ line.length) :
      wrapLineSegments line tabSize wrapColumns = wrapRowsFrom tabSize wrapColumns
        (hangingIndentFor line tabSize wrapColumns) line line.length 0 0 := by
    have some_ : line ≠ [] := ne_nil_of_length_pos (by omega)
    rw [wrapLineSegments, if_neg some_, wrapLineSegmentsFrom, if_neg some_]
  obtain ⟨kept, resume, more, more', rowsOld, rowsNew, enough, enough', early, reaches, starts⟩ :=
    @wrapRows_shared old new column tabSize wrapColumns (hangingIndentFor new tabSize wrapColumns)
      same inside inside' plainOld room (min_le_right _ _) 0 old.length new.length (Nat.zero_le _)
      (Nat.sub_le _ _) (Nat.sub_le _ _)
  rw [← indents, ← rowsOf inside, indents] at rowsOld
  rw [← rowsOf inside'] at rowsNew
  have tail : old.drop resume ≠ [] :=
    ne_nil_of_length_pos (by rw [length_drop]; omega)
  have wrapped := @wrapRowsFrom_wrapped tabSize wrapColumns
    (hangingIndentFor new tabSize wrapColumns) old more resume resume tail
    (by rw [length_drop]; exact enough)
  have pieces : wrapSingleLine old before.length tabSize wrapColumns =
      kept.map (fun row => ⟨row, before.length⟩) ++
        (wrapRowsFrom tabSize wrapColumns (hangingIndentFor new tabSize wrapColumns) old more resume
          resume).map fun row => ⟨row, before.length⟩ := by
    rw [wrapSingleLine, rowsOld, map_append]
  have place : lo = firstRow + kept.length := by
    rw [← search, pieces, partitionPoint_append, length_map]
    · intro row mem
      obtain ⟨old, memOld, rfl⟩ := mem_map.mp mem
      exact decide_eq_true (starts old memOld)
    · intro row mem
      obtain ⟨old, memOld, rfl⟩ := mem_map.mp mem
      have := wrapped.le_visualStart old memOld
      exact decide_eq_false (by dsimp only; omega)
  have resumeVisual : ((table.rows[lo]?).map (·.visualStart)).getD 0 = resume := by
    obtain ⟨more, rfl⟩ : ∃ rounds, more = rounds + 1 := ⟨more - 1, by omega⟩
    rw [split, pieces, place, first, append_assoc,
      getElem?_append_right (Nat.le_add_right _ _), Nat.add_sub_cancel_left, append_assoc,
      getElem?_append_right (by rw [length_map]), length_map, Nat.sub_self]
    rfl
  have lineText : (before ++ [new] ++ after).getD before.length [] = new := by
    rw [append_assoc, getD_eq_getElem?_getD, getElem?_append_right le_rfl, Nat.sub_self]
    rfl
  have leading : hangingIndentFor (lineWindow new 0 (min new.length (wrapColumns + 1))) tabSize
      wrapColumns = hangingIndentFor new tabSize wrapColumns := by
    rw [lineWindow, drop_zero, min_comm, ← take_take, take_length]
    exact hangingIndentFor_take (Nat.lt_succ_self _) tabSize new
  have behind : lineWindow new resume (new.length - resume) = new.drop resume :=
    take_of_length_le (by rw [length_drop])
  rw [resumeWrap, resumeVisual, lineText, leading, behind, wrapLineSegmentsFrom_drop tabSize wrapColumns _ (by omega) enough']
  refine ⟨?_, ?_, ?_⟩
  · have front : table.rows.take lo = rowsFrom noneHidden tabSize wrapColumns 0 before ++
        kept.map fun row => ⟨row, before.length⟩ := by
      rw [split, pieces, ← append_assoc, append_assoc _ _ rest]
      exact take_left' (by rw [length_append, length_map, place, first])
    rw [front, rowsFrom_append, rowsFrom_cons, wrapSingleLine, rowsNew, map_append,
      append_assoc, append_assoc, Nat.zero_add]
    exact congrArg _ (congrArg _ (append_nil _).symm)
  · dsimp only
    rw [rowsFrom_append, rowsFrom_cons, Nat.zero_add, pieces, place, first, length_append,
      length_append, length_append, length_map]
    omega
  · rw [offsetsFrom_cons, first]
    rfl

/-- **What an update wraps** completes the rows before the edit. -/
theorem rewrapEdit_spec {cache : WrappedRowCache} {wrapColumns contentRevision : Nat}
    (room : 1 ≤ wrapColumns) {editColumn : Option Nat} {contents : Nat → List Line}
    (spliced : ∀ column ∈ editColumn, ∀ old new, removed = [old] → inserted = [new] →
      SplicedAt old new column)
    (memos : cache.memos.Exact contents)
    (content : contents contentRevision = before ++ inserted ++ after) {rest : List WrappedRow}
    (split : cache.table.rows = rowsFrom noneHidden tabSize wrapColumns 0 (before ++ removed) ++ rest)
    {firstRow removedRowsEnd : Nat}
    (first : firstRow = (rowsFrom noneHidden tabSize wrapColumns 0 before).length)
    (last : removedRowsEnd =
      (rowsFrom noneHidden tabSize wrapColumns 0 (before ++ removed)).length) :
    Completes tabSize wrapColumns before removed inserted cache.table.rows
      (cache.rewrapEdit before.length removed.length inserted.length (before ++ inserted ++ after)
        tabSize wrapColumns firstRow removedRowsEnd contentRevision editColumn).1 := by
  rw [rowsFrom_append, Nat.zero_add] at split
  have whole := @completes_whole before removed inserted after tabSize wrapColumns cache.table.rows _
    (split.trans (append_assoc _ _ _))
  rw [← first] at whole
  unfold WrappedRowCache.rewrapEdit
  cases editColumn with
  | none => exact whole
  | some column =>
    dsimp only
    split_ifs with shape plain resumed
    · obtain ⟨new, rfl⟩ := length_eq_one_iff.mp shape.1
      obtain ⟨old, rfl⟩ := length_eq_one_iff.mp shape.2.1
      have found : (contents contentRevision)[before.length]? = some new := by
        rw [content, append_assoc, getElem?_append_right le_rfl, Nat.sub_self]
        rfl
      have asked := (plainAsciiThroughColumn_spec memos column found).1
      rw [content] at asked
      have split' : cache.table.rows = rowsFrom noneHidden tabSize wrapColumns 0 before ++
          wrapSingleLine old before.length tabSize wrapColumns ++ rest :=
        split.trans (congrArg (_ ++ · ++ rest) (append_nil _))
      exact resumeWrap_spec room (spliced column rfl old new rfl rfl) (asked.mp plain) split' first
        (by rw [last]) resumed
    · exact whole
    · exact whole
    · exact whole

/-- **An incremental re-wrap is a full one**: where an update splices the full table of the document
before the edit, it leaves the full table of the edited document. -/
theorem updateWrappedRowsAfterEdit_spec {editColumn : Option Nat} {cache cache' : WrappedRowCache}
    {contents : Nat → List Line} {softWrap : Bool} {foldingModel : Option FoldingModelView}
    {layoutShapeRevision contentRevision : Nat}
    (spliced : ∀ column ∈ editColumn, ∀ old new, removed = [old] → inserted = [new] →
      SplicedAt old new column)
    (run : MemoRun contents cache.memos)
    (content : contents contentRevision = before ++ inserted ++ after)
    (full : cache.table = ensureWrappedRowLayouts (before ++ removed ++ after) noneHidden
      cache.key.tabSize cache.key.visibleColumns)
    (updated : cache.updateWrappedRowsAfterEdit before.length removed.length inserted.length
      (before ++ inserted ++ after) tabSize visibleColumns softWrap foldingModel layoutShapeRevision
      contentRevision editColumn = some cache') :
    cache'.table =
      ensureWrappedRowLayouts (before ++ inserted ++ after) noneHidden tabSize visibleColumns := by
  have lineCount : (before ++ inserted ++ after).length + removed.length - inserted.length =
      (before ++ removed ++ after).length := by
    simp only [length_append]
    omega
  have frontCount : before.length + removed.length = (before ++ removed).length :=
    length_append.symm
  rw [WrappedRowCache.updateWrappedRowsAfterEdit] at updated
  dsimp only at updated
  rw [lineCount, frontCount] at updated
  split_ifs at updated with unfit short shape boundaries
  have fit : cache.key.tabSize = tabSize ∧ cache.key.visibleColumns = visibleColumns := by
    simp only [WrappedRowCache.canSplice, Bool.not_eq_false, Bool.and_eq_true, beq_iff_eq] at unfit
    exact ⟨unfit.1.1.1.1.2, unfit.1.1.1.2⟩
  have some_ : before ++ removed ++ after ≠ [] := by
    intro none_
    exact shape (.inr (.inl (by rw [none_]; rfl)))
  rw [fit.1, fit.2] at full
  have first : cache.table.rowBoundary before.length (before ++ removed ++ after).length =
      (rowsFrom noneHidden tabSize (max 1 visibleColumns) 0 before).length := by
    rw [full, append_assoc]
    exact rowBoundary_append (by rwa [← append_assoc])
  have last : cache.table.rowBoundary (before ++ removed).length (before ++ removed ++ after).length =
      (rowsFrom noneHidden tabSize (max 1 visibleColumns) 0 (before ++ removed)).length := by
    rw [full]
    exact rowBoundary_append some_
  have split : cache.table.rows =
      rowsFrom noneHidden tabSize (max 1 visibleColumns) 0 (before ++ removed) ++
        rowsFrom noneHidden tabSize (max 1 visibleColumns) (0 + (before ++ removed).length) after := by
    rw [full, ensureWrappedRowLayouts_eq some_, ← rowsFrom_append]
  obtain ⟨table, spliced_, rfl⟩ := Option.map_eq_some_iff.mp updated
  have completes := rewrapEdit_spec (le_max_left 1 visibleColumns) spliced run.exact content split
    first last
  rw [first, last] at completes
  rw [first, last, full] at spliced_
  rw [full] at completes
  exact splice_spec some_ completes spliced_

end Update

/-- A `b` typed at column 12 of fourteen `a`s that wrap at four columns: the wrap resumes. -/
theorem updateWrappedRowsAfterEdit_spec_resumed :
    let old : Line := List.replicate 14 0x61
    let new : Line := List.replicate 12 0x61 ++ [0x62] ++ List.replicate 2 0x61
    let cache : WrappedRowCache :=
      ⟨ensureWrappedRowLayouts [[0x78], old, [0x79]] noneHidden 4 4, false, false,
        ⟨4, 4, 0, 6, true, none, 0⟩, {}⟩
    ∃ cache', cache.updateWrappedRowsAfterEdit 1 1 1 [[0x78], new, [0x79]] 4 4 true none 0 7
        (some 12) = some cache' ∧
      cache'.table = ensureWrappedRowLayouts [[0x78], new, [0x79]] noneHidden 4 4 := by
  intro old new cache
  have updates : (cache.updateWrappedRowsAfterEdit 1 1 1 [[0x78], new, [0x79]] 4 4 true none 0 7
      (some 12)).isSome = true := by decide +kernel
  obtain ⟨cache', updated⟩ := Option.isSome_iff_exists.mp updates
  refine ⟨cache', updated, ?_⟩
  refine @updateWrappedRowsAfterEdit_spec [[0x78]] [old] [new] [[0x79]] 4 4 (some 12) cache cache'
    (fun _ => [[0x78], new, [0x79]]) true none 0 7 ?_ .cold rfl rfl updated
  rintro column mem _ _ same same'
  cases mem
  cases same
  cases same'
  exact ⟨List.replicate 12 0x61, [], [0x62], List.replicate 2 0x61, rfl, rfl, rfl⟩

end Microide.Editor
