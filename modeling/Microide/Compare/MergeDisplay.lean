/-
The rows a merge is shown in.

`BuildMergeDisplayModel` lays the incoming lines, the result and the current lines of a merge
side by side. Base lines no hunk touches stand in all three columns; the rows of a hunk are as
many as its longest column has lines, and the columns that end earlier are left blank. Each
column counts its own lines, and a row a column leaves blank has the number zero in it.

**Main result.** `buildMergeDisplayModel_columns`: each column spells its lines, numbered from
one, whatever the hunks' choices are.
-/

import Mathlib
import Microide.Compare.CompareModel
import Microide.Compare.MergeProjections

namespace Microide.Compare

open List Lib Text

structure MergeDisplayRow where
  incomingText : Line := []
  resultText : Line := []
  currentText : Line := []
  incomingLine : Nat := 0
  resultLine : Nat := 0
  currentLine : Nat := 0
  hunk : Int := -1
  conflict : Bool := false
  incomingChanged : Bool := false
  resultChanged : Bool := false
  currentChanged : Bool := false

structure MergeDisplayModel where
  rows : List MergeDisplayRow := []
  hunks : List CompareHunk := []

/-- The rows so far and the number of the next line of each column. -/
structure DisplayState where
  display : MergeDisplayModel := {}
  incomingLine : Nat := 1
  resultLine : Nat := 1
  currentLine : Nat := 1

namespace DisplayState

/-- A row of a line that is the same in all three columns. -/
def pushUnchangedRow (state : DisplayState) (text : Line) : DisplayState where
  display := { state.display with
    rows := state.display.rows ++ [{
      incomingText := text, resultText := text, currentText := text
      incomingLine := state.incomingLine, resultLine := state.resultLine
      currentLine := state.currentLine }] }
  incomingLine := state.incomingLine + 1
  resultLine := state.resultLine + 1
  currentLine := state.currentLine + 1

/-- `emit_unchanged_rows`. -/
def emitUnchangedRows (state : DisplayState) (baseLines : List Line) (fromLine toLine : Nat) :
    DisplayState :=
  (slice baseLines fromLine toLine).foldl pushUnchangedRow state

/-- The row `row` of a hunk. -/
def pushHunkRow (hunk : MergeHunk) (hunkResultLines : List Line) (state : DisplayState) (row : Nat) :
    DisplayState :=
  let hasIncoming := row < hunk.incomingLines.length
  let hasResult := row < hunkResultLines.length
  let hasCurrent := row < hunk.currentLines.length
  { display := { state.display with
      rows := state.display.rows ++ [{
        incomingText := if hasIncoming then hunk.incomingLines.getD row [] else []
        resultText := if hasResult then hunkResultLines.getD row [] else []
        currentText := if hasCurrent then hunk.currentLines.getD row [] else []
        incomingLine := if hasIncoming then state.incomingLine else 0
        resultLine := if hasResult then state.resultLine else 0
        currentLine := if hasCurrent then state.currentLine else 0
        hunk := hunk.index
        conflict := hunk.conflict
        incomingChanged := hunk.incomingLines ≠ hunk.baseLines
        resultChanged := hunkResultLines ≠ hunk.baseLines
        currentChanged := hunk.currentLines ≠ hunk.baseLines }] }
    incomingLine := if hasIncoming then state.incomingLine + 1 else state.incomingLine
    resultLine := if hasResult then state.resultLine + 1 else state.resultLine
    currentLine := if hasCurrent then state.currentLine + 1 else state.currentLine }

end DisplayState

/-- The result lines of a hunk. -/
def hunkResultLines (hunk : MergeHunk) : List Line :=
  (mergeChoiceLineViews hunk hunk.choice).1 ++ (mergeChoiceLineViews hunk hunk.choice).2

def hunkRowCount (hunk : MergeHunk) : Nat :=
  max hunk.incomingLines.length (max (hunkResultLines hunk).length hunk.currentLines.length)

/-- A hunk's rows, and its entry among the hunks unless it has none. -/
def DisplayState.pushHunk (state : DisplayState) (hunk : MergeHunk) : DisplayState :=
  let startRow := state.display.rows.length
  let pushed := (List.range (hunkRowCount hunk)).foldl
    (DisplayState.pushHunkRow hunk (hunkResultLines hunk)) state
  if startRow < pushed.display.rows.length then
    { pushed with display := { pushed.display with
        hunks := pushed.display.hunks ++
          [{ index := hunk.index, startRow := startRow, endRow := pushed.display.rows.length - 1 }] } }
  else pushed

/-- The loop of `BuildMergeDisplayModel` from `baseCursor` on. -/
def displayFrom (baseLines : List Line) : Nat → List MergeHunk → DisplayState → DisplayState
  | baseCursor, [], state => state.emitUnchangedRows baseLines baseCursor baseLines.length
  | baseCursor, hunk :: hunks, state =>
    displayFrom baseLines hunk.baseEnd hunks
      ((state.emitUnchangedRows baseLines baseCursor hunk.baseStart).pushHunk hunk)

/-- `BuildMergeDisplayModel`. -/
def buildMergeDisplayModel (model : MergeModel) : MergeDisplayModel :=
  let shown := displayFrom model.baseLines 0 model.hunks {}
  if shown.display.rows.isEmpty then
    ((mergeResultLines model).foldl DisplayState.pushUnchangedRow shown).display
  else shown.display

/-! ### Columns -/

inductive MergeColumn where
  | incoming
  | result
  | current

namespace MergeColumn

def text (row : MergeDisplayRow) : MergeColumn → Line
  | incoming => row.incomingText
  | result => row.resultText
  | current => row.currentText

def number (row : MergeDisplayRow) : MergeColumn → Nat
  | incoming => row.incomingLine
  | result => row.resultLine
  | current => row.currentLine

def next (state : DisplayState) : MergeColumn → Nat
  | incoming => state.incomingLine
  | result => state.resultLine
  | current => state.currentLine

def hunkLines (hunk : MergeHunk) : MergeColumn → List Line
  | incoming => hunk.incomingLines
  | result => hunkResultLines hunk
  | current => hunk.currentLines

/-- The rows with a number in the column, each with its text. -/
def spelled (column : MergeColumn) (rows : List MergeDisplayRow) : List (Line × Nat) :=
  rows.filterMap fun row =>
    if column.number row ≠ 0 then some (column.text row, column.number row) else none

/-- The column holds `lines` and counts them from one. -/
structure Holds (column : MergeColumn) (state : DisplayState) (lines : List Line) : Prop where
  spelled : column.spelled state.display.rows = lines.zipIdx 1
  next : column.next state = lines.length + 1

/-- The base outside the hunks, with each hunk's lines of the column. -/
def walk (column : MergeColumn) (baseLines : List Line) : Nat → List MergeHunk → List Line
  | baseCursor, [] => slice baseLines baseCursor baseLines.length
  | baseCursor, hunk :: hunks =>
    slice baseLines baseCursor hunk.baseStart ++ column.hunkLines hunk ++
      column.walk baseLines hunk.baseEnd hunks

end MergeColumn

open MergeColumn

variable {column : MergeColumn} {state : DisplayState} {lines : List Line}

theorem holds_unchangedRow (holds : column.Holds state lines) (text : Line) :
    column.Holds (state.pushUnchangedRow text) (lines ++ [text]) := by
  obtain ⟨spelled, next⟩ := holds
  constructor
  · unfold MergeColumn.spelled at spelled ⊢
    rw [zipIdx_append, ← spelled]
    cases column <;>
      simp_all [DisplayState.pushUnchangedRow, MergeColumn.number, MergeColumn.text, MergeColumn.next,
        Nat.add_comm]
  · rw [length_append, length_singleton, ← next]
    cases column <;> rfl

theorem holds_unchangedRows (added : List Line) : ∀ {state : DisplayState} {lines : List Line},
    column.Holds state lines →
    column.Holds (added.foldl DisplayState.pushUnchangedRow state) (lines ++ added) := by
  induction added with
  | nil =>
    intro state lines holds
    rwa [append_nil]
  | cons text added ih =>
    intro state lines holds
    rw [append_cons]
    exact ih (holds_unchangedRow holds text)

/-- What a row of a hunk is in a column. -/
theorem pushHunkRow_column (column : MergeColumn) (hunk : MergeHunk) (state : DisplayState)
    (row : Nat) : ∃ pushed : MergeDisplayRow,
      (DisplayState.pushHunkRow hunk (hunkResultLines hunk) state row).display.rows =
        state.display.rows ++ [pushed] ∧
      (row < (column.hunkLines hunk).length →
        column.text pushed = (column.hunkLines hunk).getD row [] ∧
          column.number pushed = column.next state ∧
          column.next (DisplayState.pushHunkRow hunk (hunkResultLines hunk) state row) =
            column.next state + 1) ∧
      ((column.hunkLines hunk).length ≤ row →
        column.number pushed = 0 ∧
          column.next (DisplayState.pushHunkRow hunk (hunkResultLines hunk) state row) =
            column.next state) := by
  refine ⟨_, rfl, fun within => ?_, fun ended => ?_⟩
  · cases column with
    | incoming =>
      exact ⟨if_pos within, if_pos within, if_pos within⟩
    | result =>
      exact ⟨if_pos within, if_pos within, if_pos within⟩
    | current =>
      exact ⟨if_pos within, if_pos within, if_pos within⟩
  · cases column with
    | incoming =>
      replace ended : ¬row < hunk.incomingLines.length := Nat.not_lt.mpr ended
      exact ⟨if_neg ended, if_neg ended⟩
    | result =>
      replace ended : ¬row < (hunkResultLines hunk).length := Nat.not_lt.mpr ended
      exact ⟨if_neg ended, if_neg ended⟩
    | current =>
      replace ended : ¬row < hunk.currentLines.length := Nat.not_lt.mpr ended
      exact ⟨if_neg ended, if_neg ended⟩

/-- A row of a hunk adds the column's line of the row, where it has one. -/
theorem holds_hunkRow {hunk : MergeHunk} {row : Nat}
    (holds : column.Holds state (lines ++ (column.hunkLines hunk).take row)) :
    column.Holds (DisplayState.pushHunkRow hunk (hunkResultLines hunk) state row)
      (lines ++ (column.hunkLines hunk).take (row + 1)) := by
  obtain ⟨spelled, next⟩ := holds
  obtain ⟨pushed, rows, line, blank⟩ := pushHunkRow_column column hunk state row
  by_cases within : row < (column.hunkLines hunk).length
  · obtain ⟨text, number, advanced⟩ := line within
    have taken : lines ++ (column.hunkLines hunk).take (row + 1) =
        lines ++ (column.hunkLines hunk).take row ++ [(column.hunkLines hunk).getD row []] := by
      rw [append_assoc, take_add_one, getElem?_eq_getElem within, getD_eq_getElem _ _ within]
      rfl
    rw [taken]
    generalize lines ++ (column.hunkLines hunk).take row = shown at spelled next ⊢
    constructor
    · unfold MergeColumn.spelled at spelled ⊢
      rw [rows, filterMap_append, spelled, zipIdx_append]
      simp [text, number, next, Nat.add_comm]
    · rw [advanced, next, length_append, length_singleton]
  · obtain ⟨number, same⟩ := blank (Nat.not_lt.mp within)
    have taken : (column.hunkLines hunk).take (row + 1) = (column.hunkLines hunk).take row := by
      rw [take_of_length_le (by omega), take_of_length_le (by omega)]
    rw [taken]
    constructor
    · unfold MergeColumn.spelled at spelled ⊢
      rw [rows, filterMap_append, spelled]
      simp [number]
    · rw [same, next]

theorem holds_hunkRows (holds : column.Holds state lines) (hunk : MergeHunk) (count : Nat) :
    column.Holds ((List.range count).foldl
        (DisplayState.pushHunkRow hunk (hunkResultLines hunk)) state)
      (lines ++ (column.hunkLines hunk).take count) := by
  induction count with
  | zero => simpa using holds
  | succ count ih =>
    rw [range_succ, foldl_append]
    exact holds_hunkRow ih

theorem length_hunkLines_le (column : MergeColumn) (hunk : MergeHunk) :
    (column.hunkLines hunk).length ≤ hunkRowCount hunk := by
  cases column with
  | incoming => exact Nat.le_max_left _ _
  | result => exact (Nat.le_max_left _ _).trans (Nat.le_max_right _ _)
  | current => exact (Nat.le_max_right _ _).trans (Nat.le_max_right _ _)

theorem holds_hunk (holds : column.Holds state lines) (hunk : MergeHunk) :
    column.Holds (state.pushHunk hunk) (lines ++ column.hunkLines hunk) := by
  have pushed := holds_hunkRows holds hunk (hunkRowCount hunk)
  rw [take_of_length_le (length_hunkLines_le column hunk)] at pushed
  unfold DisplayState.pushHunk
  dsimp only
  split
  · obtain ⟨spelled, next⟩ := pushed
    refine ⟨spelled, ?_⟩
    cases column <;> exact next
  · exact pushed

theorem holds_displayFrom (baseLines : List Line) (hunks : List MergeHunk) :
    ∀ (baseCursor : Nat) {state : DisplayState} {lines : List Line}, column.Holds state lines →
    column.Holds (displayFrom baseLines baseCursor hunks state)
      (lines ++ column.walk baseLines baseCursor hunks) := by
  induction hunks with
  | nil => exact fun _ _ _ holds => holds_unchangedRows _ holds
  | cons hunk hunks ih =>
    intro baseCursor state lines holds
    have next := ih hunk.baseEnd (holds_hunk (holds_unchangedRows
      (slice baseLines baseCursor hunk.baseStart) holds) hunk)
    rwa [append_assoc, append_assoc, ← append_assoc (slice baseLines _ _)] at next

/-! ### The columns of a merge -/

/-- The model with a choice made for each hunk. -/
def chooseEach (choices : Nat → MergeChoice) (model : MergeModel) : MergeModel :=
  { model with hunks := model.hunks.map fun hunk => { hunk with choice := choices hunk.index } }

/-- The lines of a version of a hunk. -/
theorem walk_result (baseLines : List Line) (hunks : List MergeHunk) : ∀ baseCursor,
    MergeColumn.result.walk baseLines baseCursor hunks =
      mergeResultFrom baseLines false baseCursor hunks := by
  induction hunks with
  | nil => exact fun _ => rfl
  | cons hunk hunks ih =>
    intro baseCursor
    rw [MergeColumn.walk, mergeResultFrom, ih]
    rfl

/-- A column of one version is the walk in which every hunk takes that version. -/
theorem walk_version {column : MergeColumn} {choice : MergeChoice}
    (version : ∀ (hunk : MergeHunk) (recorded : MergeChoice),
      column.hunkLines { hunk with choice := recorded } = hunkResultLines { hunk with choice })
    (choices : Nat → MergeChoice) (baseLines : List Line) (hunks : List MergeHunk) : ∀ baseCursor,
    column.walk baseLines baseCursor
        (hunks.map fun hunk => { hunk with choice := choices hunk.index }) =
      mergeResultFrom baseLines false baseCursor (hunks.map fun hunk => { hunk with choice }) := by
  induction hunks with
  | nil => exact fun _ => rfl
  | cons hunk hunks ih =>
    intro baseCursor
    rw [map_cons, map_cons, MergeColumn.walk, mergeResultFrom, ih, version]
    rfl

/-- The two columns of the versions hold the lines of the two texts. -/
theorem walk_versions (base incoming current : List UInt8) (choices : Nat → MergeChoice) :
    let model := chooseEach choices (buildMergeModel base incoming current)
    MergeColumn.incoming.walk model.baseLines 0 model.hunks = splitLineViews incoming ∧
      MergeColumn.current.walk model.baseLines 0 model.hunks = splitLineViews current := by
  obtain ⟨incomingPatched, currentPatched⟩ := mergeChanges_patchesTo base incoming current
  constructor
  · have version : ∀ (hunk : MergeHunk) (recorded : MergeChoice),
        MergeColumn.incoming.hunkLines { hunk with choice := recorded } =
          hunkResultLines { hunk with choice := .incoming } := fun hunk _ =>
      (append_nil hunk.incomingLines).symm
    exact (walk_version version choices _ _ 0).trans
      ((mergeResultFrom_chooseAll base incoming current (.inr (.inl rfl))).trans
        incomingPatched.patched)
  · have version : ∀ (hunk : MergeHunk) (recorded : MergeChoice),
        MergeColumn.current.hunkLines { hunk with choice := recorded } =
          hunkResultLines { hunk with choice := .current } := fun hunk _ =>
      (append_nil hunk.currentLines).symm
    exact (walk_version version choices _ _ 0).trans
      ((mergeResultFrom_chooseAll base incoming current (.inr (.inr rfl))).trans
        currentPatched.patched)

/-- A choice among versions that have lines has lines. -/
theorem hunkResultLines_ne_nil {hunk : MergeHunk} (base : hunk.baseLines ≠ [])
    (incoming : hunk.incomingLines ≠ []) (current : hunk.currentLines ≠ []) :
    hunkResultLines hunk ≠ [] := by
  unfold hunkResultLines
  cases hunk.choice with
  | base => simpa [mergeChoiceLineViews] using base
  | incoming => simpa [mergeChoiceLineViews] using incoming
  | current => simpa [mergeChoiceLineViews] using current
  | both =>
    unfold mergeChoiceLineViews
    split_ifs <;> simp [incoming, current]
  | bothCurrentFirst =>
    unfold mergeChoiceLineViews
    split_ifs <;> simp [incoming, current]
  | bothIncomingFirst =>
    unfold mergeChoiceLineViews
    split_ifs <;> simp [incoming, current]

/-- The hunks lie apart in the base, each with the base lines it replaces. -/
structure HunksPlaced (baseLines : List Line) (hunks : List MergeHunk) : Prop where
  sliced : ∀ hunk ∈ hunks, hunk.baseLines = slice baseLines hunk.baseStart hunk.baseEnd ∧
    hunk.baseStart ≤ hunk.baseEnd ∧ hunk.baseEnd ≤ baseLines.length
  apart : hunks.Pairwise fun a b => a.baseEnd < b.baseStart

theorem chooseEach_placed (base incoming current : List UInt8) (choices : Nat → MergeChoice) :
    HunksPlaced (splitLineViews base)
      (chooseEach choices (buildMergeModel base incoming current)).hunks := by
  have sound := mergeGroups_sound base incoming current
  have hunks : (chooseEach choices (buildMergeModel base incoming current)).hunks =
      (mergeGroups base incoming current).mapIdx fun i g =>
        { flushGroup (splitLineViews base) g with index := i, choice := choices i } := by
    rw [chooseEach, buildMergeModel_hunks]
    exact ext_getElem (by simp) fun i _ _ => by simp
  rw [hunks]
  constructor
  · intro hunk mem
    obtain ⟨i, inside, rfl⟩ := mem_mapIdx.mp mem
    exact ⟨rfl, sound.hunk_bounds (getElem_mem _)⟩
  · refine pairwise_iff_getElem.mpr fun i j hi hj lt => ?_
    rw [length_mapIdx] at hi hj
    simp only [getElem_mapIdx]
    exact pairwise_iff_getElem.mp sound.hunks_apart i j hi hj lt

/-- A column is empty only where a single hunk is the whole of the base. -/
theorem walk_eq_nil {baseLines : List Line} {hunks : List MergeHunk} (some_ : baseLines ≠ [])
    (placed : HunksPlaced baseLines hunks) {column : MergeColumn}
    (empty : column.walk baseLines 0 hunks = []) :
    ∃ hunk, hunks = [hunk] ∧ column.hunkLines hunk = [] ∧
      slice baseLines 0 hunk.baseStart = [] ∧ slice baseLines hunk.baseEnd baseLines.length = [] := by
  cases hunks with
  | nil =>
    rw [MergeColumn.walk, slice_whole] at empty
    exact absurd empty some_
  | cons hunk rest =>
    rw [MergeColumn.walk, append_eq_nil_iff, append_eq_nil_iff] at empty
    obtain ⟨⟨before, lines⟩, behind⟩ := empty
    cases rest with
    | nil => exact ⟨hunk, rfl, lines, before, behind⟩
    | cons next rest =>
      -- a base line stands between two hunks
      rw [MergeColumn.walk, append_eq_nil_iff, append_eq_nil_iff] at behind
      obtain ⟨-, ordered, inside⟩ := placed.sliced next (by simp)
      have apart := (pairwise_cons.mp placed.apart).1 next mem_cons_self
      have reaches := slice_eq_nil_iff.mp behind.1.1
      omega

theorem result_ne_nil (base incoming current : List UInt8) (choices : Nat → MergeChoice) :
    let model := chooseEach choices (buildMergeModel base incoming current)
    MergeColumn.result.walk model.baseLines 0 model.hunks ≠ [] := by
  intro model empty
  have placed := chooseEach_placed base incoming current choices
  obtain ⟨hunk, whole, lines, before, behind⟩ :=
    walk_eq_nil (splitLineViews_ne_nil base) placed empty
  obtain ⟨incomingWalk, currentWalk⟩ := walk_versions base incoming current choices
  change MergeColumn.incoming.walk (splitLineViews base) 0 model.hunks = _ at incomingWalk
  change MergeColumn.current.walk (splitLineViews base) 0 model.hunks = _ at currentWalk
  have alone : ∀ column : MergeColumn,
      column.walk (splitLineViews base) 0 model.hunks = column.hunkLines hunk := fun column => by
    rw [whole, MergeColumn.walk, MergeColumn.walk, before, behind, append_nil, nil_append]
  obtain ⟨sliced, ordered, inside⟩ := placed.sliced hunk (by rw [whole]; exact mem_singleton_self _)
  refine hunkResultLines_ne_nil ?_ ?_ ?_ lines
  · rw [sliced]
    intro none
    have replaced := slice_eq_nil_iff.mp none
    have above := slice_eq_nil_iff.mp before
    have below := slice_eq_nil_iff.mp behind
    have some_ := length_pos_iff.mpr (splitLineViews_ne_nil base)
    omega
  · rw [show hunk.incomingLines = MergeColumn.incoming.hunkLines hunk from rfl, ← alone, incomingWalk]
    exact splitLineViews_ne_nil incoming
  · rw [show hunk.currentLines = MergeColumn.current.hunkLines hunk from rfl, ← alone, currentWalk]
    exact splitLineViews_ne_nil current

/-- **Merge display projections.** In the display of a merge of any three texts, whatever is
chosen for its hunks, the rows with an incoming line spell the incoming lines, those with a
result line the merge result and those with a current line the current lines, numbered from
one in the order of the rows. -/
theorem buildMergeDisplayModel_columns (base incoming current : List UInt8)
    (choices : Nat → MergeChoice) :
    let model := chooseEach choices (buildMergeModel base incoming current)
    let rows := (buildMergeDisplayModel model).rows
    MergeColumn.incoming.spelled rows = model.incomingLines.zipIdx 1 ∧
      MergeColumn.result.spelled rows = (mergeResultLines model).zipIdx 1 ∧
      MergeColumn.current.spelled rows = model.currentLines.zipIdx 1 := by
  intro model rows
  have holds : ∀ column : MergeColumn, column.Holds (displayFrom model.baseLines 0 model.hunks {})
      (column.walk model.baseLines 0 model.hunks) := fun column => by
    have start : column.Holds {} [] := ⟨rfl, by cases column <;> rfl⟩
    exact holds_displayFrom model.baseLines model.hunks 0 start
  obtain ⟨incomingWalk, currentWalk⟩ := walk_versions base incoming current choices
  have some_ : (displayFrom model.baseLines 0 model.hunks {}).display.rows.isEmpty = false := by
    refine Bool.eq_false_iff.mpr fun none => ?_
    have nothing := (holds .incoming).spelled
    rw [List.isEmpty_iff.mp none, incomingWalk] at nothing
    exact splitLineViews_ne_nil incoming (zipIdx_eq_nil_iff.mp nothing.symm)
  have shown : rows = (displayFrom model.baseLines 0 model.hunks {}).display.rows := by
    change (buildMergeDisplayModel model).rows = _
    unfold buildMergeDisplayModel
    dsimp only
    rw [if_neg (by rw [some_]; exact Bool.false_ne_true)]
  have result : mergeResultLines model = MergeColumn.result.walk model.baseLines 0 model.hunks := by
    have ne : MergeColumn.result.walk model.baseLines 0 model.hunks ≠ [] :=
      result_ne_nil base incoming current choices
    rw [walk_result] at ne ⊢
    unfold mergeResultLines collectMergeResultLines
    dsimp only
    rw [if_neg fun none => ne (List.isEmpty_iff.mp none)]
  rw [shown, result]
  refine ⟨?_, (holds .result).spelled, ?_⟩
  · rw [(holds .incoming).spelled, incomingWalk]
    rfl
  · rw [(holds .current).spelled, currentWalk]
    rfl

end Microide.Compare
