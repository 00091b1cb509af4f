/-
Building a comparison into recycled rows.

A rebuild of a comparison hands out the rows of the one before it: `RowSink::Next` resets
the next stored row, or appends one when the storage is used up, and `Finish` drops what
is left over. The build writes rows, hunks and highlighted spans into that storage.

**Main result.** `buildInto_invariant`: whatever the model held before, the rows number
and spell both texts, the hunks cover exactly the changed rows, and nothing old shows.
-/

import Microide.Compare.HunkCover
import Microide.Compare.IntralineSpans

namespace Microide.Compare

open List Lib Text CompareRow

/-! ### Rows with their spans -/

/-- `CompareRow` with its highlighted spans. -/
structure SpannedRow extends CompareRow where
  leftChangedSpans : List CompareTextSpan := []
  rightChangedSpans : List CompareTextSpan := []

namespace SpannedRow

/-- What `Next` does to a stored row before it hands it out. -/
def reset (row : SpannedRow) : SpannedRow :=
  { row with
    leftText := [], rightText := [], leftLine := 0, rightLine := 0
    kind := .unchanged, hunk := none, leftChangedSpans := [], rightChangedSpans := [] }

/-- The views of a row into the texts of the comparison before are dropped first. -/
def dropViews (row : SpannedRow) : SpannedRow :=
  { row with leftText := [], rightText := [] }

end SpannedRow

/-! ### The storage -/

/-- The storage a comparison is built into: its first `next` rows are written, the others
are left over from the comparison before. -/
structure RowStore where
  rows : List SpannedRow
  next : Nat := 0
  fits : next ≤ rows.length
  hunks : List CompareHunk := []
  leftLine : Nat := 1
  rightLine : Nat := 1

namespace RowStore

/-- `RowSink::Next`: the row that is handed out, and the storage with one more row in
use. -/
def nextRow (store : RowStore) : SpannedRow × RowStore :=
  let stored :=
    if store.next = store.rows.length then store.rows ++ [({} : SpannedRow)] else store.rows
  ((stored.getD store.next {}).reset,
    { store with
      rows := stored
      next := store.next + 1
      fits := by
        have := store.fits
        simp only [stored]
        split
        · rw [List.length_append, List.length_singleton]
          omega
        · omega })

/-- The row that was handed out last has become `row`. -/
def write (store : RowStore) (row : SpannedRow) : RowStore :=
  { store with
    rows := store.rows.set (store.next - 1) row
    fits := by rw [List.length_set]; exact store.fits }

/-- A row of two matched lines. -/
def pushEqual (store : RowStore) (left right : Line) : RowStore :=
  let (row, next) := store.nextRow
  let written := next.write
    { row with
      leftText := left, rightText := right
      leftLine := store.leftLine, rightLine := store.rightLine }
  { written with leftLine := store.leftLine + 1, rightLine := store.rightLine + 1 }

def pushEquals (store : RowStore) : List (Line × Line) → RowStore
  | [] => store
  | (left, right) :: pairs => (store.pushEqual left right).pushEquals pairs

/-- `RowSink::Finish`. -/
def finish (store : RowStore) : List SpannedRow :=
  store.rows.take store.next

end RowStore

/-- What one alignment step writes: the lines it takes, and the kind these give. -/
def alignedRow (hunk : Nat) (kind : HunkAlignmentKind) (left right : Line)
    (leftLine rightLine : Nat) (row : CompareRow) : CompareRow :=
  let row := { row with hunk := some hunk }
  let row := if kind ≠ .insert then { row with leftText := left, leftLine := leftLine } else row
  let row := if kind ≠ .delete then { row with rightText := right, rightLine := rightLine } else row
  { row with
    kind :=
      if row.leftLine ≠ 0 ∧ row.rightLine ≠ 0 then .modified
      else if row.leftLine ≠ 0 then .deleted else .added }

/-- The rows of one hunk, with their spans; `cells` is what the hunk may still spend on
refining them. -/
def RowStore.pushAligned (store : RowStore) (hunk cells : Nat) :
    List HunkAlignmentKind → List Line → List Line → RowStore
  | [], _, _ => store
  | kind :: kinds, deleted, inserted =>
    let (fresh, next) := store.nextRow
    let row := alignedRow hunk kind (deleted.headD []) (inserted.headD []) store.leftLine
      store.rightLine fresh.toCompareRow
    let (spans, cells) := populateChangedSpans row cells
    let written := next.write
      { row with leftChangedSpans := spans.left, rightChangedSpans := spans.right }
    RowStore.pushAligned
      { written with
        leftLine := if kind ≠ .insert then store.leftLine + 1 else store.leftLine
        rightLine := if kind ≠ .delete then store.rightLine + 1 else store.rightLine }
      hunk cells kinds
      (if kind ≠ .insert then deleted.tail else deleted)
      (if kind ≠ .delete then inserted.tail else inserted)

/-! ### The build -/

section Build

variable {K : Type} (A : Doubles K)

/-- The end of a run of changed lines. -/
def flushRunInto (store : RowStore) (deleted inserted : List Line) : RowStore :=
  if deleted.isEmpty && inserted.isEmpty then store
  else
    let hunkIndex := store.hunks.length
    let aligned := store.pushAligned hunkIndex kMaxHunkIntralineTotalCells
      (alignHunkLines A deleted inserted) deleted inserted
    { aligned with
      hunks := aligned.hunks ++
        [{ index := hunkIndex, startRow := store.next, endRow := aligned.next - 1 }] }

/-- The loop over the operations; `deleted` and `inserted` collect the current run. -/
def rowsFromOpsInto (store : RowStore) (deleted inserted : List Line) : List DiffOp → RowStore
  | [] => flushRunInto A store deleted inserted
  | op :: ops =>
    match op.kind with
    | .equal =>
      rowsFromOpsInto ((flushRunInto A store deleted inserted).pushEqual op.text op.rightText) [] [] ops
    | .delete => rowsFromOpsInto store (deleted ++ [op.text]) inserted ops
    | .insert => rowsFromOpsInto store deleted (inserted ++ [op.text]) ops

/-- The hunks after a one-sided phantom row: it joins the hunk it touches, or is one of its
own. -/
def phantomHunks (hunks : List CompareHunk) (rowIndex : Nat) : List CompareHunk :=
  match hunks.getLast? with
  | some last =>
    if last.endRow + 1 = rowIndex then hunks.dropLast ++ [{ last with endRow := rowIndex }]
    else hunks ++ [{ index := hunks.length, startRow := rowIndex, endRow := rowIndex }]
  | none => [{ index := 0, startRow := rowIndex, endRow := rowIndex }]

/-- The row of the trailing phantoms. -/
def pushPhantomInto (store : RowStore) (leftPhantom rightPhantom : Bool) : RowStore :=
  if leftPhantom && rightPhantom then store.pushEqual [] []
  else if leftPhantom || rightPhantom then
    let (row, next) := store.nextRow
    let hunks := phantomHunks store.hunks (next.next - 1)
    let written := next.write
      { row with
        leftText := [], rightText := []
        kind := if leftPhantom then .deleted else .added
        leftLine := if leftPhantom then store.leftLine else 0
        rightLine := if rightPhantom then store.rightLine else 0
        hunk := hunks.getLast?.map CompareHunk.index }
    { written with
      hunks
      leftLine := if leftPhantom then store.leftLine + 1 else store.leftLine
      rightLine := if rightPhantom then store.rightLine + 1 else store.rightLine }
  else store

/-- `CompareModel`, with the spans of its rows. A default one is fresh. -/
structure StoredModel where
  leftSource : List UInt8 := []
  rightSource : List UInt8 := []
  rows : List SpannedRow := []
  hunks : List CompareHunk := []
  leftFinalNewlineMissing : Bool := false
  rightFinalNewlineMissing : Bool := false
  leftAbsent : Bool := false
  rightAbsent : Bool := false
  leftUsesCrlf : Bool := false
  rightUsesCrlf : Bool := false

/-- `BuildCompareModelProfiledInto`, into a model that may hold a comparison already. A null
buffer is an empty text. -/
def buildInto (model : StoredModel) (leftBuffer rightBuffer : Option (List UInt8))
    (options : CompareBuildOptions) : StoredModel :=
  let left := leftBuffer.getD []
  let right := rightBuffer.getD []
  let leftPhantom := !finalNewlineMissing left
  let rightPhantom := !finalNewlineMissing right
  let leftLines := realLinesOf left leftPhantom
  let rightLines := realLinesOf right rightPhantom
  let ends := findEqualEnds leftLines rightLines options
  let ops := buildLineDiffOps (slice leftLines ends.prefixLength ends.leftSuffix)
    (slice rightLines ends.prefixLength ends.rightSuffix) options
  let store : RowStore := { rows := model.rows.map SpannedRow.dropViews, fits := Nat.zero_le _ }
  let started := store.pushEquals
    ((leftLines.take ends.prefixLength).zip (rightLines.take ends.prefixLength))
  let middle := rowsFromOpsInto A started [] [] ops
  let ended := middle.pushEquals
    ((leftLines.drop ends.leftSuffix).zip (rightLines.drop ends.rightSuffix))
  let built := pushPhantomInto ended leftPhantom rightPhantom
  { leftSource := left, rightSource := right
    rows := built.finish, hunks := built.hunks
    leftFinalNewlineMissing := finalNewlineMissing left
    rightFinalNewlineMissing := finalNewlineMissing right
    leftAbsent := match options.leftExists with
      | some e => !e
      | none => left.isEmpty
    rightAbsent := match options.rightExists with
      | some e => !e
      | none => right.isEmpty
    leftUsesCrlf := usesCrlf left, rightUsesCrlf := usesCrlf right }

end Build

/-! ### Old contents never show -/

namespace RowStore

theorem length_finish (store : RowStore) : store.finish.length = store.next := by
  rw [finish, length_take, Nat.min_eq_left store.fits]

/-- A written row is the next one, whatever stood in its place. -/
theorem finish_write_nextRow (store : RowStore) (row : SpannedRow) :
    (store.nextRow.2.write row).finish = store.finish ++ [row] := by
  have hfits := store.fits
  have hset : ∀ stored : List SpannedRow, store.next < stored.length →
      (stored.set store.next row).take (store.next + 1) = stored.take store.next ++ [row] := by
    intro stored hlt
    rw [take_add_one, take_set_of_le (Nat.le_refl _), getElem?_set_self hlt, Option.toList_some]
  simp only [finish, write, nextRow, Nat.add_sub_cancel]
  split
  · next hfull =>
    rw [hset _ (by rw [length_append, length_singleton]; omega),
      take_append_of_le_length hfits]
  · next hroom => exact hset _ (by omega)

end RowStore

/-- The written rows of the store are those of the sink, and both count alike. -/
structure Shows (store : RowStore) (sink : RowSink) : Prop where
  rows : store.finish.map SpannedRow.toCompareRow = sink.rows
  hunks : store.hunks = sink.hunks
  leftLine : store.leftLine = sink.leftLine
  rightLine : store.rightLine = sink.rightLine
  left_pos : 0 < sink.leftLine
  right_pos : 0 < sink.rightLine

/-- A step of the build takes every store that shows `sink` to one that shows `sink'`, and
appends the same rows to each of them. -/
def Appends (step : RowStore → RowStore) (sink sink' : RowSink) : Prop :=
  ∃ more, ∀ store, Shows store sink → (step store).finish = store.finish ++ more ∧
    Shows (step store) sink'

theorem Shows.next_eq {store : RowStore} {sink : RowSink} (h : Shows store sink) :
    store.next = sink.rows.length := by
  rw [← store.length_finish, ← h.rows, length_map]

variable {step : RowStore → RowStore}

namespace Appends

variable {sink sink' sink'' : RowSink}

theorem refl (sink : RowSink) : Appends id sink sink :=
  ⟨[], fun store h => ⟨by simp, h⟩⟩

theorem trans {step' : RowStore → RowStore} (h : Appends step sink sink')
    (h' : Appends step' sink' sink'') : Appends (fun store => step' (step store)) sink sink'' := by
  obtain ⟨more, hmore⟩ := h
  obtain ⟨more', hmore'⟩ := h'
  refine ⟨more ++ more', fun store hstore => ?_⟩
  obtain ⟨hfinish, hshows⟩ := hmore store hstore
  obtain ⟨hfinish', hshows'⟩ := hmore' _ hshows
  exact ⟨by rw [hfinish', hfinish, append_assoc], hshows'⟩

/-- One row is written, which depends on the counts of the sink only. -/
theorem of_row (row : SpannedRow)
    (hrow : ∀ store, Shows store sink → (step store).finish = store.finish ++ [row])
    (hrows : sink'.rows = sink.rows ++ [row.toCompareRow])
    (hcounts : ∀ store, Shows store sink → (step store).hunks = sink'.hunks ∧
      (step store).leftLine = sink'.leftLine ∧ (step store).rightLine = sink'.rightLine)
    (hpos : 0 < sink.leftLine → 0 < sink.rightLine → 0 < sink'.leftLine ∧ 0 < sink'.rightLine) :
    Appends step sink sink' := by
  refine ⟨[row], fun store h => ⟨hrow store h, ?_⟩⟩
  obtain ⟨hhunks, hleft, hright⟩ := hcounts store h
  obtain ⟨hposLeft, hposRight⟩ := hpos h.left_pos h.right_pos
  refine ⟨?_, hhunks, hleft, hright, hposLeft, hposRight⟩
  rw [hrow store h, map_append, h.rows, hrows]
  rfl

theorem pushEqual (sink : RowSink) (left right : Line) :
    Appends (fun store => store.pushEqual left right) sink (sink.pushEqual left right) := by
  apply of_row
    { leftText := left, rightText := right, leftLine := sink.leftLine, rightLine := sink.rightLine }
  · intro store h
    rw [← h.leftLine, ← h.rightLine]
    exact store.finish_write_nextRow _
  · rfl
  · intro store h
    rw [RowSink.pushEqual, ← h.leftLine, ← h.rightLine, ← h.hunks]
    exact ⟨rfl, rfl, rfl⟩
  · intro _ _
    exact ⟨Nat.succ_pos _, Nat.succ_pos _⟩

theorem pushEquals (sink : RowSink) (pairs : List (Line × Line)) :
    Appends (fun store => store.pushEquals pairs) sink (sink.pushEquals pairs) := by
  induction pairs generalizing sink with
  | nil => exact refl sink
  | cons pair pairs ih => exact (pushEqual sink pair.1 pair.2).trans (ih _)

theorem congr {step' : RowStore → RowStore} (h : Appends step sink sink')
    (heq : ∀ store, Shows store sink → step' store = step store) : Appends step' sink sink' := by
  obtain ⟨more, hmore⟩ := h
  refine ⟨more, fun store hstore => ?_⟩
  rw [heq store hstore]
  exact hmore store hstore

theorem of_pos (h : 0 < sink.leftLine → 0 < sink.rightLine → Appends step sink sink') :
    Appends step sink sink' := by
  by_cases hpos : 0 < sink.leftLine ∧ 0 < sink.rightLine
  · exact h hpos.1 hpos.2
  · exact ⟨[], fun store hstore => absurd ⟨hstore.left_pos, hstore.right_pos⟩ hpos⟩

/-- The row and the cells of an alignment step are those of the counts it starts from. -/
theorem pushAligned (hunk : Nat) (sink : RowSink) (cells : Nat) (kinds : List HunkAlignmentKind)
    (deleted inserted : List Line) :
    Appends (fun store => store.pushAligned hunk cells kinds deleted inserted) sink
      (RowSink.pushAligned hunk sink kinds deleted inserted) := by
  induction kinds generalizing sink cells deleted inserted with
  | nil => exact refl sink
  | cons kind kinds ih =>
      refine of_pos fun hleft hright => ?_
      -- The row this step writes, the cells it leaves and the lines it counts.
      obtain ⟨row, hrow⟩ : ∃ row, row = alignedRow hunk kind (deleted.headD []) (inserted.headD [])
        sink.leftLine sink.rightLine {} := ⟨_, rfl⟩
      let next : RowSink :=
        { sink with
          rows := sink.rows ++ [row]
          leftLine := if kind ≠ .insert then sink.leftLine + 1 else sink.leftLine
          rightLine := if kind ≠ .delete then sink.rightLine + 1 else sink.rightLine }
      have hstep : Appends
          (fun store =>
            { store.nextRow.2.write
                { row with
                  leftChangedSpans := (populateChangedSpans row cells).1.left
                  rightChangedSpans := (populateChangedSpans row cells).1.right } with
              leftLine := if kind ≠ .insert then store.leftLine + 1 else store.leftLine
              rightLine := if kind ≠ .delete then store.rightLine + 1 else store.rightLine })
          sink next := by
        apply of_row
        · intro store _
          exact store.finish_write_nextRow _
        · rfl
        · intro store h
          exact ⟨h.hunks, by simp only [next, h.leftLine], by simp only [next, h.rightLine]⟩
        · intro _ _
          cases kind <;> simp [next, hleft, hright]
      have hsink : RowSink.pushAligned hunk sink (kind :: kinds) deleted inserted =
          RowSink.pushAligned hunk next kinds
            (if kind ≠ .insert then deleted.tail else deleted)
            (if kind ≠ .delete then inserted.tail else inserted) := by
        have hleft' := Nat.ne_of_gt hleft
        have hright' := Nat.ne_of_gt hright
        cases kind <;> simp [RowSink.pushAligned, next, hrow, alignedRow, hleft', hright']
      rw [hsink]
      apply (hstep.trans (ih next (populateChangedSpans row cells).2 _ _)).congr
      intro store h
      rw [RowStore.pushAligned, hrow, ← h.leftLine, ← h.rightLine]
      rfl

section Build

variable {K : Type} (A : Doubles K)

theorem flushRun (sink : RowSink) (deleted inserted : List Line) :
    Appends (fun store => flushRunInto A store deleted inserted) sink
      (Compare.flushRun A sink deleted inserted) := by
  unfold flushRunInto Compare.flushRun
  split
  · exact refl sink
  · obtain ⟨more, hmore⟩ := pushAligned sink.hunks.length sink kMaxHunkIntralineTotalCells
      (alignHunkLines A deleted inserted) deleted inserted
    refine ⟨more, fun store h => ?_⟩
    obtain ⟨hfinish, hshows⟩ := hmore store h
    dsimp only
    rw [h.hunks]
    refine ⟨hfinish, hshows.rows, ?_, hshows.leftLine, hshows.rightLine, hshows.left_pos,
      hshows.right_pos⟩
    dsimp only
    rw [hshows.hunks, hshows.next_eq, h.next_eq]

theorem rowsFromOps (sink : RowSink) (deleted inserted : List Line) (ops : List DiffOp) :
    Appends (fun store => rowsFromOpsInto A store deleted inserted ops) sink
      (Compare.rowsFromOps A sink deleted inserted ops) := by
  induction ops generalizing sink deleted inserted with
  | nil => exact flushRun A sink deleted inserted
  | cons op ops ih =>
      obtain ⟨kind, text, rightText⟩ := op
      cases kind with
      | equal =>
          have hpushed := (flushRun A sink deleted inserted).trans (pushEqual _ text rightText)
          exact hpushed.trans (ih _ [] [])
      | delete => exact ih sink (deleted ++ [text]) inserted
      | insert => exact ih sink deleted (inserted ++ [text])

end Build

theorem pushPhantom (sink : RowSink) (leftPhantom rightPhantom : Bool) :
    Appends (fun store => pushPhantomInto store leftPhantom rightPhantom) sink
      (Compare.pushPhantom sink leftPhantom rightPhantom) := by
  unfold pushPhantomInto Compare.pushPhantom
  split
  · exact pushEqual sink [] []
  · split
    · apply of_row
        { kind := if leftPhantom then .deleted else .added
          leftLine := if leftPhantom then sink.leftLine else 0
          rightLine := if rightPhantom then sink.rightLine else 0
          hunk := (phantomHunks sink.hunks sink.rows.length).getLast?.map CompareHunk.index }
      · intro store h
        rw [← h.next_eq, ← h.hunks, ← h.leftLine, ← h.rightLine]
        exact store.finish_write_nextRow _
      · rfl
      · intro store h
        rw [← h.next_eq, ← h.hunks, ← h.leftLine, ← h.rightLine]
        exact ⟨rfl, rfl, rfl⟩
      · intro hleft hright
        cases leftPhantom <;> cases rightPhantom <;> simp [hleft, hright]
    · exact refl sink

end Appends

/-! ### The build into a recycled model -/

/-- The model without the spans of its rows. -/
def StoredModel.toCompareModel (model : StoredModel) : CompareModel where
  leftSource := model.leftSource
  rightSource := model.rightSource
  rows := model.rows.map SpannedRow.toCompareRow
  hunks := model.hunks
  leftFinalNewlineMissing := model.leftFinalNewlineMissing
  rightFinalNewlineMissing := model.rightFinalNewlineMissing
  leftAbsent := model.leftAbsent
  rightAbsent := model.rightAbsent
  leftUsesCrlf := model.leftUsesCrlf
  rightUsesCrlf := model.rightUsesCrlf

section Build

variable {K : Type} (A : Doubles K)

/-- The storage at the start of a build shows the empty sink. -/
theorem shows_start (rows : List SpannedRow) : Shows { rows, fits := Nat.zero_le _ } {} :=
  ⟨rfl, rfl, rfl, rfl, Nat.one_pos, Nat.one_pos⟩

/-- What a build writes is determined by the two texts and the options. -/
theorem exists_built (leftBuffer rightBuffer : Option (List UInt8)) (options : CompareBuildOptions) :
    ∃ rows : List SpannedRow, ∀ model,
      (buildInto A model leftBuffer rightBuffer options).rows = rows ∧
        (buildInto A model leftBuffer rightBuffer options).toCompareModel =
          buildCompareModel A (leftBuffer.getD []) (rightBuffer.getD []) options := by
  obtain ⟨leftLines, hleft⟩ : ∃ lines, lines = realLinesOf (leftBuffer.getD [])
    (!finalNewlineMissing (leftBuffer.getD [])) := ⟨_, rfl⟩
  obtain ⟨rightLines, hright⟩ : ∃ lines, lines = realLinesOf (rightBuffer.getD [])
    (!finalNewlineMissing (rightBuffer.getD [])) := ⟨_, rfl⟩
  obtain ⟨ends, hends⟩ : ∃ ends, ends = findEqualEnds leftLines rightLines options := ⟨_, rfl⟩
  obtain ⟨more, hmore⟩ := (((Appends.pushEquals {}
    ((leftLines.take ends.prefixLength).zip (rightLines.take ends.prefixLength))).trans
    (Appends.rowsFromOps A _ [] [] (buildLineDiffOps
      (slice leftLines ends.prefixLength ends.leftSuffix)
      (slice rightLines ends.prefixLength ends.rightSuffix) options))).trans
    (Appends.pushEquals _ ((leftLines.drop ends.leftSuffix).zip
      (rightLines.drop ends.rightSuffix)))).trans
    (Appends.pushPhantom _ (!finalNewlineMissing (leftBuffer.getD []))
      (!finalNewlineMissing (rightBuffer.getD [])))
  subst hends hleft hright
  refine ⟨more, fun model => ?_⟩
  obtain ⟨hfinish, hshows⟩ := hmore _ (shows_start (model.rows.map SpannedRow.dropViews))
  constructor
  · exact hfinish
  · rw [StoredModel.toCompareModel, buildCompareModel, CompareModel.mk.injEq]
    exact ⟨rfl, rfl, hshows.rows, hshows.hunks, rfl, rfl, rfl, rfl, rfl, rfl⟩

/-- Nothing of a recycled model is left after a build. -/
theorem buildInto_fresh (model : StoredModel) (leftBuffer rightBuffer : Option (List UInt8))
    (options : CompareBuildOptions) :
    buildInto A model leftBuffer rightBuffer options =
      buildInto A {} leftBuffer rightBuffer options := by
  obtain ⟨rows, hbuilt⟩ := exists_built A leftBuffer rightBuffer options
  obtain ⟨hrows, hmodel⟩ := hbuilt model
  obtain ⟨hrows', hmodel'⟩ := hbuilt {}
  have hhunks := congrArg CompareModel.hunks (hmodel.trans hmodel'.symm)
  rw [buildInto, StoredModel.mk.injEq]
  exact ⟨rfl, rfl, hrows.trans hrows'.symm, hhunks, rfl, rfl, rfl, rfl, rfl, rfl⟩

/-- The numbers of a side are those of the rows that have the side. -/
theorem Numbered.left_zipIdx {i j : Nat} {rows : List CompareRow} (hi : 0 < i)
    (h : Numbered i j rows) :
    (rows.filter fun row => row.leftLine ≠ 0).map (fun row => (row.leftText, row.leftLine)) =
      (rows.filterMap left?).zipIdx i := by
  induction rows generalizing i j with
  | nil => rfl
  | cons row rows ih =>
      obtain ⟨hleft, -, hrest⟩ := h
      by_cases hkind : row.kind = .added
      · rw [if_pos hkind] at hleft hrest
        simpa [left?, hkind, hleft] using ih hi hrest
      · rw [if_neg hkind] at hleft hrest
        simpa [left?, hkind, hleft, Nat.ne_of_gt hi] using ih (Nat.succ_pos i) hrest

@[inherit_doc Numbered.left_zipIdx]
theorem Numbered.right_zipIdx {i j : Nat} {rows : List CompareRow} (hj : 0 < j)
    (h : Numbered i j rows) :
    (rows.filter fun row => row.rightLine ≠ 0).map (fun row => (row.rightText, row.rightLine)) =
      (rows.filterMap right?).zipIdx j := by
  induction rows generalizing i j with
  | nil => rfl
  | cons row rows ih =>
      obtain ⟨-, hright, hrest⟩ := h
      by_cases hkind : row.kind = .deleted
      · rw [if_pos hkind] at hright hrest
        simpa [right?, hkind, hright] using ih hj hrest
      · rw [if_neg hkind] at hright hrest
        simpa [right?, hkind, hright, Nat.ne_of_gt hj] using ih (Nat.succ_pos j) hrest

/-- **The compare model invariant.** Built into a model that held any comparison before:

* the rows with a left line number carry `1, 2, …` and spell the left lines, and so do the
  rows with a right line number the right lines;
* a changed row lies in exactly one hunk and carries its index, an unchanged row in none,
  and the hunks are non-empty ranges of rows, numbered and in order;
* the result is the one of a fresh model. -/
theorem buildInto_invariant (model : StoredModel) (leftBuffer rightBuffer : Option (List UInt8))
    (options : CompareBuildOptions) :
    let built := buildInto A model leftBuffer rightBuffer options
    ((built.rows.filter fun row => row.leftLine ≠ 0).map (fun row => (row.leftText, row.leftLine)) =
        (splitLineViews (leftBuffer.getD [])).zipIdx 1 ∧
      (built.rows.filter fun row => row.rightLine ≠ 0).map
          (fun row => (row.rightText, row.rightLine)) =
        (splitLineViews (rightBuffer.getD [])).zipIdx 1) ∧
    ((∀ (k : Nat) (row : SpannedRow), built.rows[k]? = some row → row.kind ≠ .unchanged →
        ∃ hunk ∈ built.hunks, hunk.Contains k ∧ row.hunk = some hunk.index ∧
          ∀ other ∈ built.hunks, other.Contains k → other = hunk) ∧
      (∀ (k : Nat) (row : SpannedRow), built.rows[k]? = some row → row.kind = .unchanged →
        row.hunk = none ∧ ∀ hunk ∈ built.hunks, ¬ hunk.Contains k) ∧
      (∀ (i : Nat) (hunk : CompareHunk), built.hunks[i]? = some hunk →
        hunk.index = i ∧ hunk.startRow ≤ hunk.endRow ∧ hunk.endRow < built.rows.length) ∧
      built.hunks.Pairwise fun hunk later => hunk.endRow < later.startRow) ∧
    built = buildInto A {} leftBuffer rightBuffer options := by
  intro built
  obtain ⟨rows, hbuilt⟩ := exists_built A leftBuffer rightBuffer options
  have hmodel := (hbuilt model).2
  have hspells := buildCompareModel_spells A (leftBuffer.getD []) (rightBuffer.getD []) options
  have hcover := buildCompareModel_cover A (leftBuffer.getD []) (rightBuffer.getD []) options
  rw [← hmodel] at hspells hcover
  have hrow : ∀ (k : Nat) (row : SpannedRow), built.rows[k]? = some row →
      built.toCompareModel.rows[k]? = some row.toCompareRow := by
    intro k row hget
    rw [StoredModel.toCompareModel, getElem?_map, hget]
    rfl
  refine ⟨⟨?_, ?_⟩, ⟨?_, ?_, ?_, ?_⟩, buildInto_fresh A model leftBuffer rightBuffer options⟩
  · rw [← hspells.left_eq, ← hspells.numbered.left_zipIdx Nat.one_pos,
      StoredModel.toCompareModel, filter_map, map_map]
    rfl
  · rw [← hspells.right_eq, ← hspells.numbered.right_zipIdx Nat.one_pos,
      StoredModel.toCompareModel, filter_map, map_map]
    rfl
  · intro k row hget hkind
    obtain ⟨hunk, hmem, hcontains, hindex⟩ := hcover.changed k _ (hrow k row hget) hkind
    exact ⟨hunk, hmem, hcontains, hindex,
      fun other hother hother' => hcover.eq_of_contains hmem hother hcontains hother'⟩
  · intro k row hget hkind
    exact hcover.unchanged k _ (hrow k row hget) hkind
  · intro i hunk hget
    obtain ⟨hle, hlt⟩ := hcover.within hunk (mem_of_getElem? hget)
    rw [StoredModel.toCompareModel, length_map] at hlt
    exact ⟨hcover.index_eq i hunk hget, hle, hlt⟩
  · exact hcover.ordered

end Build

end Microide.Compare
