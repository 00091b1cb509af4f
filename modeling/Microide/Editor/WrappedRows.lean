/-
The table of wrapped rows.

Under soft wrap the layout cache keeps the rows of every line that no fold hides, in one list, and
for each line the index of its first row. A visual column of a line is looked up among the line's
rows by the end of their spans.

**Main results.** `ensureWrappedRowLayouts_split`: the rows around a line's; `softWrap_rows`: the
rows of a line partition it, and each visual column finds the row that owns it.
-/

import Microide.Editor.CaretSets
import Microide.Editor.SoftWrap

namespace Microide.Editor

open List Lib Text

/-- `TextLayoutCache::WrappedRow`. -/
structure WrappedRow extends WrapRow where
  lineIndex : Nat

/-- `wrapped_row_layouts_` and `wrapped_line_row_offsets_`. -/
structure WrappedRowTable where
  rows : List WrappedRow := []
  lineOffsets : List Nat := []

/-- `WrapSingleLine`. -/
def wrapSingleLine (lineText : Line) (lineIndex tabSize wrapColumns : Nat) : List WrappedRow :=
  (wrapLineSegments lineText tabSize wrapColumns).map fun row => ⟨row, lineIndex⟩

/-- The loop of `EnsureWrappedRowLayouts` under soft wrap. -/
def wrapLinesFrom (hidden : Nat → Bool) (tabSize wrapColumns : Nat) :
    Nat → Nat → WrappedRowTable → List Line → WrappedRowTable
  | _, _, table, [] => table
  | lineIndex, lastVisibleRow, table, line :: lines =>
    if hidden lineIndex then
      wrapLinesFrom hidden tabSize wrapColumns (lineIndex + 1) lastVisibleRow
        { table with lineOffsets := table.lineOffsets ++ [lastVisibleRow] } lines
    else
      wrapLinesFrom hidden tabSize wrapColumns (lineIndex + 1) table.rows.length
        { rows := table.rows ++ wrapSingleLine line lineIndex tabSize wrapColumns
          lineOffsets := table.lineOffsets ++ [table.rows.length] } lines

/-- `EnsureWrappedRowLayouts` under soft wrap: a full rebuild. -/
def ensureWrappedRowLayouts (lines : List Line) (hidden : Nat → Bool)
    (tabSize visibleColumns : Nat) : WrappedRowTable :=
  let table := wrapLinesFrom hidden tabSize (max 1 visibleColumns) 0 0 {} lines
  if table.rows = [] then
    { rows := [⟨⟨0, 0, 0⟩, 0⟩], lineOffsets := List.replicate lines.length 0 }
  else table

/-- `WrappedLineRowOffset`. -/
def WrappedRowTable.wrappedLineRowOffset (table : WrappedRowTable) (lineIndex : Nat) : Nat :=
  table.lineOffsets.getD lineIndex 0

/-- `WrappedRowRangeForLine`: the first and the last row. -/
def WrappedRowTable.wrappedRowRangeForLine (table : WrappedRowTable) (lineIndex : Nat) :
    Nat × Nat :=
  let first := min (table.wrappedLineRowOffset lineIndex) (table.rows.length - 1)
  match table.rows[first]? with
  | none => (table.wrappedLineRowOffset lineIndex, table.wrappedLineRowOffset lineIndex)
  | some owner =>
    let last :=
      first + partitionPoint (fun row => row.lineIndex ≤ owner.lineIndex) (table.rows.drop first)
    (first, if last > first then last - 1 else first)

/-- Whether the caret is past a span that ends at `visualEnd`; with the affinity for the previous
row a span still has the column it ends at. -/
def endsBefore (affinity : WrapRowAffinity) (visualColumn visualEnd : Nat) : Bool :=
  match affinity with
  | .previousRow => visualEnd < visualColumn
  | .nextRow => visualEnd ≤ visualColumn

/-- `WrappedRowForVisualColumn`. -/
def WrappedRowTable.wrappedRowForVisualColumn (table : WrappedRowTable)
    (firstRow lastRow visualColumn : Nat) (affinity : WrapRowAffinity) : Nat :=
  if table.rows = [] ∨ lastRow ≤ firstRow then firstRow
  else
    let clampedLast := min lastRow (table.rows.length - 1)
    if firstRow ≥ clampedLast then min firstRow clampedLast
    else
      firstRow + partitionPoint (fun row => endsBefore affinity visualColumn row.visualEnd)
        ((table.rows.drop firstRow).take (clampedLast - firstRow))

/-! ### The table -/

/-- The rows of lines from an index on. -/
def rowsFrom (hidden : Nat → Bool) (tabSize wrapColumns : Nat) : Nat → List Line → List WrappedRow
  | _, [] => []
  | lineIndex, line :: lines =>
    (if hidden lineIndex then [] else wrapSingleLine line lineIndex tabSize wrapColumns) ++
      rowsFrom hidden tabSize wrapColumns (lineIndex + 1) lines

/-- The offsets of lines from an index on, behind `rowCount` rows. -/
def offsetsFrom (hidden : Nat → Bool) (tabSize wrapColumns : Nat) :
    Nat → Nat → Nat → List Line → List Nat
  | _, _, _, [] => []
  | lineIndex, lastVisibleRow, rowCount, line :: lines =>
    if hidden lineIndex then
      lastVisibleRow ::
        offsetsFrom hidden tabSize wrapColumns (lineIndex + 1) lastVisibleRow rowCount lines
    else
      rowCount :: offsetsFrom hidden tabSize wrapColumns (lineIndex + 1) rowCount
        (rowCount + (wrapSingleLine line lineIndex tabSize wrapColumns).length) lines

section Table

variable {hidden : Nat → Bool} {tabSize wrapColumns : Nat}

theorem wrapLinesFrom_rows (lineIndex lastVisibleRow : Nat) (table : WrappedRowTable)
    (lines : List Line) :
    (wrapLinesFrom hidden tabSize wrapColumns lineIndex lastVisibleRow table lines).rows =
      table.rows ++ rowsFrom hidden tabSize wrapColumns lineIndex lines := by
  induction lines generalizing lineIndex lastVisibleRow table with
  | nil => exact (append_nil _).symm
  | cons line lines ih =>
    rw [wrapLinesFrom, rowsFrom]
    split
    · rw [ih, nil_append]
    · rw [ih, append_assoc]

theorem rowsFrom_append (lineIndex : Nat) (lines more : List Line) :
    rowsFrom hidden tabSize wrapColumns lineIndex (lines ++ more) =
      rowsFrom hidden tabSize wrapColumns lineIndex lines ++
        rowsFrom hidden tabSize wrapColumns (lineIndex + lines.length) more := by
  induction lines generalizing lineIndex with
  | nil => rfl
  | cons line lines ih =>
    rw [cons_append, rowsFrom, rowsFrom, ih, append_assoc, length_cons,
      Nat.add_assoc, Nat.add_comm 1]

theorem rowsFrom_lineIndex {lineIndex : Nat} {lines : List Line} {row : WrappedRow}
    (mem : row ∈ rowsFrom hidden tabSize wrapColumns lineIndex lines) :
    lineIndex ≤ row.lineIndex ∧ row.lineIndex < lineIndex + lines.length := by
  induction lines generalizing lineIndex with
  | nil => exact absurd mem not_mem_nil
  | cons line lines ih =>
    rw [rowsFrom, mem_append] at mem
    rw [length_cons]
    rcases mem with mem | mem
    · split at mem
      · exact absurd mem not_mem_nil
      · obtain ⟨_, -, rfl⟩ := mem_map.mp mem
        dsimp only
        omega
    · have := ih mem
      omega

theorem wrapLinesFrom_lineOffsets (lineIndex lastVisibleRow : Nat) (table : WrappedRowTable)
    (lines : List Line) :
    (wrapLinesFrom hidden tabSize wrapColumns lineIndex lastVisibleRow table lines).lineOffsets =
      table.lineOffsets ++ offsetsFrom hidden tabSize wrapColumns lineIndex lastVisibleRow
        table.rows.length lines := by
  induction lines generalizing lineIndex lastVisibleRow table with
  | nil => exact (append_nil _).symm
  | cons line lines ih =>
    rw [wrapLinesFrom, offsetsFrom]
    split
    · rw [ih, append_assoc, singleton_append]
    · rw [ih, append_assoc, singleton_append, length_append]

/-- The offset of a line that is shown is the number of rows before it. -/
theorem offsetsFrom_shown {before after : List Line} {line : Line}
    (lineIndex lastVisibleRow rowCount : Nat) (shown : hidden (lineIndex + before.length) = false) :
    (offsetsFrom hidden tabSize wrapColumns lineIndex lastVisibleRow rowCount
      (before ++ line :: after))[before.length]? =
        some (rowCount + (rowsFrom hidden tabSize wrapColumns lineIndex before).length) := by
  induction before generalizing lineIndex lastVisibleRow rowCount with
  | nil =>
    have here : hidden lineIndex = false := shown
    rw [nil_append, offsetsFrom, here, if_neg Bool.false_ne_true]
    rfl
  | cons first before ih =>
    rw [length_cons, Nat.add_comm before.length, ← Nat.add_assoc] at shown
    rw [cons_append, offsetsFrom, rowsFrom]
    split
    · rw [length_cons, getElem?_cons_succ, ih _ _ _ shown, nil_append]
    · rw [length_cons, getElem?_cons_succ, ih _ _ _ shown, length_append, Nat.add_assoc]

theorem wrapSingleLine_ne_nil (line : Line) (lineIndex tabSize wrapColumns : Nat) :
    wrapSingleLine line lineIndex tabSize wrapColumns ≠ [] := by
  have first := (wrapLineSegments_wrapped line tabSize wrapColumns).head
  rw [wrapSingleLine, ne_eq, map_eq_nil_iff]
  intro empty
  rw [empty] at first
  cases first

/-- **The rows around a line's**: those of the lines before it, its own from its offset on, and
those of the lines after it. -/
theorem ensureWrappedRowLayouts_split {before after : List Line} {line : Line}
    (visibleColumns : Nat) (shown : hidden before.length = false) :
    let table := ensureWrappedRowLayouts (before ++ line :: after) hidden tabSize visibleColumns
    ∃ first rest, table.rows =
        first ++ wrapSingleLine line before.length tabSize (max 1 visibleColumns) ++ rest ∧
      table.wrappedLineRowOffset before.length = first.length ∧
      (∀ row ∈ first, row.lineIndex < before.length) ∧
      ∀ row ∈ rest, before.length < row.lineIndex := by
  have some_ := wrapSingleLine_ne_nil line before.length tabSize (max 1 visibleColumns)
  have rows := @wrapLinesFrom_rows hidden tabSize (max 1 visibleColumns) 0 0 {}
    (before ++ line :: after)
  have offsets := @wrapLinesFrom_lineOffsets hidden tabSize (max 1 visibleColumns) 0 0 {}
    (before ++ line :: after)
  have shown' : hidden (0 + before.length) = false := by rwa [Nat.zero_add]
  rw [rowsFrom_append, rowsFrom, shown', if_neg Bool.false_ne_true, Nat.zero_add,
    nil_append] at rows
  rw [ensureWrappedRowLayouts]
  rw [if_neg (by
    rw [rows]
    exact append_ne_nil_of_right_ne_nil _ (append_ne_nil_of_left_ne_nil some_ _))]
  refine ⟨_, _, by rw [rows, append_assoc], ?_, fun row mem => ?_, fun row mem => ?_⟩
  · rw [WrappedRowTable.wrappedLineRowOffset, getD_eq_getElem?_getD, offsets]
    have found := @offsetsFrom_shown hidden tabSize (max 1 visibleColumns) before after line 0 0 0
      shown'
    exact (congrArg (·.getD 0) found).trans (Nat.zero_add _)
  · simpa using (rowsFrom_lineIndex mem).2
  · exact (rowsFrom_lineIndex mem).1

end Table

/-! ### Rows of a visual column -/

/-- The row that owns a column: the caret is not past its span, unless it is the last, and past
every span before. -/
structure OwnsColumn (rows : List WrapRow) (affinity : WrapRowAffinity) (visualColumn k : Nat) :
    Prop where
  inside : k < rows.length
  reaches : ∀ row, rows[k]? = some row → k + 1 < rows.length →
    endsBefore affinity visualColumn row.visualEnd = false
  starts : ∀ row, rows[k]? = some row → 0 < k →
    endsBefore affinity visualColumn row.visualStart = true

theorem Wrapped.le_visualEnd {tabSize wrapColumns hangingIndent start : Nat} {glyphs : List Line}
    {rows : List WrapRow} (wrapped : Wrapped tabSize wrapColumns hangingIndent start glyphs rows) :
    (∀ row ∈ rows, start ≤ row.visualEnd) ∧
      rows.Pairwise fun row next => row.visualEnd ≤ next.visualEnd := by
  induction wrapped with
  | last fits =>
    refine ⟨fun row mem => ?_, pairwise_singleton _ _⟩
    rw [mem_singleton.mp mem]
    exact le_walkFrom _ _ _
  | next fits cells some_ begins later ih =>
    refine ⟨forall_mem_cons.mpr ⟨cells.le, fun row mem => ?_⟩, pairwise_cons.mpr ih⟩
    exact cells.le.trans (ih.1 row mem)

theorem endsBefore_of_le {affinity : WrapRowAffinity} {visualColumn a b : Nat} (le : a ≤ b)
    (past : endsBefore affinity visualColumn b = true) :
    endsBefore affinity visualColumn a = true := by
  cases affinity <;> simp only [endsBefore, decide_eq_true_eq] at past ⊢ <;> omega

/-- The rows but the last are cut where the row begins that owns the column. -/
theorem exists_ownsColumn {rows : List WrapRow} (some_ : rows ≠ [])
    (consecutive : rows.IsChain fun row next => row.visualEnd = next.visualStart)
    (ends : rows.Pairwise fun row next => row.visualEnd ≤ next.visualEnd)
    (affinity : WrapRowAffinity) (visualColumn : Nat) :
    ∃ before behind, rows.dropLast = before ++ behind ∧
      (∀ row ∈ before, endsBefore affinity visualColumn row.visualEnd = true) ∧
      (∀ row ∈ behind, endsBefore affinity visualColumn row.visualEnd = false) ∧
      OwnsColumn rows affinity visualColumn before.length := by
  have cuts : rows.dropLast.Pairwise fun a b =>
      endsBefore affinity visualColumn b.visualEnd → endsBefore affinity visualColumn a.visualEnd :=
    (ends.sublist (dropLast_sublist rows)).imp endsBefore_of_le
  obtain ⟨before, behind, cut, -, passing, failing⟩ := exists_cut cuts
  have shape : rows = before ++ (behind ++ [rows.getLast some_]) := by
    rw [← append_assoc, ← cut, dropLast_concat_getLast]
  have size : rows.length = before.length + behind.length + 1 := by
    conv_lhs => rw [shape]
    simp only [length_append, length_singleton]
    omega
  refine ⟨before, behind, cut, passing, failing, by omega, ?_, ?_⟩
  · intro row found early
    have place : behind[0]? = some row := by
      rw [shape, getElem?_append_right le_rfl, Nat.sub_self,
        getElem?_append_left (by omega)] at found
      exact found
    exact failing row (mem_of_getElem? place)
  · intro row found late
    have some_' := ne_nil_of_length_pos late
    rw [shape] at consecutive
    rw [shape, getElem?_append_right le_rfl, Nat.sub_self, ← head?_eq_getElem?] at found
    have meets := (isChain_append.mp consecutive).2.2 _ (getLast?_eq_some_getLast some_') row found
    rw [← meets]
    exact passing _ (getLast_mem some_')

section Lookup

variable {first rest : List WrappedRow} {rows : List WrapRow} {lineIndex : Nat}
  {table : WrappedRowTable}

/-- The rows of a line are found from its offset. -/
theorem wrappedRowRangeForLine_eq (some_ : rows ≠ [])
    (split : table.rows = first ++ rows.map (fun row => ⟨row, lineIndex⟩) ++ rest)
    (offset : table.wrappedLineRowOffset lineIndex = first.length)
    (later : ∀ row ∈ rest, lineIndex < row.lineIndex) : table.wrappedRowRangeForLine lineIndex =
      (first.length, first.length + (rows.length - 1)) := by
  obtain ⟨head, tail, rfl⟩ := exists_cons_of_ne_nil some_
  have size : first.length ≤ table.rows.length - 1 := by
    rw [split]
    simp only [length_append, length_map, length_cons]
    omega
  have found : table.rows[first.length]? = some ⟨head, lineIndex⟩ := by
    rw [split, append_assoc, getElem?_append_right le_rfl, Nat.sub_self]
    rfl
  have dropped : table.rows.drop first.length =
      (head :: tail).map (fun row => ⟨row, lineIndex⟩) ++ rest := by
    rw [split, append_assoc, drop_left]
  have place : partitionPoint (fun row : WrappedRow => row.lineIndex ≤ lineIndex)
      ((head :: tail).map (fun row => ⟨row, lineIndex⟩) ++ rest) = tail.length + 1 := by
    rw [partitionPoint_append]
    · rw [length_map, length_cons]
    · intro row mem
      obtain ⟨_, -, rfl⟩ := mem_map.mp mem
      exact decide_eq_true le_rfl
    · intro row mem
      exact decide_eq_false (Nat.not_le_of_lt (later row mem))
  rw [WrappedRowTable.wrappedRowRangeForLine, offset, min_eq_left size, found]
  dsimp only
  rw [dropped, place, if_pos (by omega), length_cons]
  rfl

/-- A column of a line is looked up among the line's rows but the last. -/
theorem wrappedRowForVisualColumn_eq (some_ : rows ≠ [])
    (split : table.rows = first ++ rows.map (fun row => ⟨row, lineIndex⟩) ++ rest)
    (affinity : WrapRowAffinity) (visualColumn : Nat) {before behind : List WrapRow}
    (cut : rows.dropLast = before ++ behind)
    (passing : ∀ row ∈ before, endsBefore affinity visualColumn row.visualEnd = true)
    (failing : ∀ row ∈ behind, endsBefore affinity visualColumn row.visualEnd = false) :
    table.wrappedRowForVisualColumn first.length (first.length + (rows.length - 1)) visualColumn
      affinity = first.length + before.length := by
  have size : rows.length = before.length + behind.length + 1 := by
    have := congrArg List.length cut
    have := length_pos_iff.mpr some_
    rw [length_dropLast, length_append] at *
    omega
  have total : table.rows.length = first.length + rows.length + rest.length := by
    rw [split, length_append, length_append, length_map]
  have occupied : table.rows ≠ [] := ne_nil_of_length_pos (by omega)
  rw [WrappedRowTable.wrappedRowForVisualColumn]
  by_cases single : rows.length = 1
  · rw [if_pos (.inr (by omega))]
    omega
  · rw [if_neg (by rintro (none_ | le); exacts [occupied none_, by omega])]
    have last : min (first.length + (rows.length - 1)) (table.rows.length - 1) =
        first.length + (rows.length - 1) := by omega
    rw [last, if_neg (by omega), Nat.add_sub_cancel_left]
    have taken : (table.rows.drop first.length).take (rows.length - 1) =
        before.map (fun row => ⟨row, lineIndex⟩) ++ behind.map fun row => ⟨row, lineIndex⟩ := by
      rw [split, append_assoc, drop_left, take_append_of_le_length (by simp),
        ← map_append, ← cut, dropLast_eq_take, map_take]
    rw [taken, partitionPoint_append, length_map]
    · intro row mem
      obtain ⟨old, memOld, rfl⟩ := mem_map.mp mem
      exact passing old memOld
    · intro row mem
      obtain ⟨old, memOld, rfl⟩ := mem_map.mp mem
      exact failing old memOld

end Lookup

/-- **Soft wrap partitions a line**, whose rows stand together in the table; and each visual column
finds the row that owns it. -/
theorem softWrap_rows {before after : List Line} {line : Line} {hidden : Nat → Bool}
    (tabSize visibleColumns : Nat) (shown : hidden before.length = false) :
    let rows := wrapLineSegments line tabSize (max 1 visibleColumns)
    let table := ensureWrappedRowLayouts (before ++ line :: after) hidden tabSize visibleColumns
    SoftWraps tabSize (max 1 visibleColumns) line rows ∧
      ∃ first, table.wrappedRowRangeForLine before.length = (first, first + (rows.length - 1)) ∧
        (∀ k < rows.length, table.rows[first + k]? = rows[k]?.map fun row => ⟨row, before.length⟩) ∧
        ∀ visualColumn affinity, ∃ k, OwnsColumn rows affinity visualColumn k ∧
          table.wrappedRowForVisualColumn first (first + (rows.length - 1)) visualColumn affinity =
            first + k := by
  dsimp only
  have wrapped := wrapLineSegments_wrapped line tabSize (max 1 visibleColumns)
  have some_ : wrapLineSegments line tabSize (max 1 visibleColumns) ≠ [] := fun empty =>
    wrapSingleLine_ne_nil line 0 tabSize (max 1 visibleColumns) (by rw [wrapSingleLine, empty]; rfl)
  obtain ⟨first, rest, split, offset, -, later⟩ :=
    @ensureWrappedRowLayouts_split hidden tabSize before after line visibleColumns shown
  rw [wrapSingleLine] at split
  refine ⟨wrapLineSegments_softWraps line tabSize _, first.length,
    wrappedRowRangeForLine_eq some_ split offset later, fun k inside => ?_,
    fun visualColumn affinity => ?_⟩
  · rw [split, append_assoc, getElem?_append_right (Nat.le_add_right _ _),
      Nat.add_sub_cancel_left, getElem?_append_left (by rwa [length_map]),
      getElem?_map]
  · obtain ⟨front, behind, cut, passing, failing, owns⟩ :=
      exists_ownsColumn some_ wrapped.consecutive wrapped.le_visualEnd.2 affinity visualColumn
    exact ⟨front.length, owns,
      wrappedRowForVisualColumn_eq some_ split affinity visualColumn cut passing failing⟩

/-- `a b  cd` in three columns, behind a line that a fold hides. -/
theorem softWrap_rows_behindFold :
    (decide (1 = 0) = false) ∧
      SoftWraps 4 3 [0x61, 0x20, 0x62, 0x20, 0x20, 0x63, 0x64]
        (wrapLineSegments [0x61, 0x20, 0x62, 0x20, 0x20, 0x63, 0x64] 4 3) :=
  ⟨rfl, (@softWrap_rows [[0x78]] [] [0x61, 0x20, 0x62, 0x20, 0x20, 0x63, 0x64]
    (fun lineIndex => decide (lineIndex = 0)) 4 3 rfl).1⟩

end Microide.Editor
