/-
What the compare rows say.

The rows of a comparison spell both texts: read from top to bottom, the left parts are
the left lines numbered `1, 2, …`, the right parts are the right lines numbered
`1, 2, …`, an unchanged row carries two equal lines, and the phantoms come last.

**Main result.** `buildCompareModel_rows`, for any arithmetic in the hunk aligner.
-/

import Microide.Compare.CompareModel

namespace Microide.Compare

open List Lib Text CompareRow RowSink

/-! ### Reading a row -/

namespace CompareRow

/-- The left line of a row, if it has one. -/
def left? (row : CompareRow) : Option Line :=
  if row.kind = .added then none else some row.leftText

/-- The right line of a row, if it has one. -/
def right? (row : CompareRow) : Option Line :=
  if row.kind = .deleted then none else some row.rightText

end CompareRow

/-- The rows carry consecutive line numbers, from `i` on the left and from `j` on the
right, and `0` on a side they do not have. -/
def Numbered : Nat → Nat → List CompareRow → Prop
  | _, _, [] => True
  | i, j, row :: rows =>
    row.leftLine = (if row.kind = .added then 0 else i) ∧
      row.rightLine = (if row.kind = .deleted then 0 else j) ∧
      Numbered (if row.kind = .added then i else i + 1)
        (if row.kind = .deleted then j else j + 1) rows

/-- The rows spell `ls` on the left and `rs` on the right, numbered from `1`, and pair
unchanged only lines the options make equal. -/
structure Spells (options : CompareBuildOptions) (rows : List CompareRow) (ls rs : List Line) :
    Prop where
  left_eq : rows.filterMap CompareRow.left? = ls
  right_eq : rows.filterMap CompareRow.right? = rs
  numbered : Numbered 1 1 rows
  same : ∀ row ∈ rows, row.kind = .unchanged →
    linesEqualForDiff row.leftText row.rightText options = true

theorem numbered_append (i j : Nat) (rows rows' : List CompareRow) :
    Numbered i j (rows ++ rows') ↔ Numbered i j rows ∧
      Numbered (i + (rows.filterMap left?).length)
        (j + (rows.filterMap right?).length) rows' := by
  induction rows generalizing i j with
  | nil => simp [Numbered]
  | cons row rows ih =>
      rw [cons_append, Numbered, Numbered, ih]
      cases hkind : row.kind <;>
        simp [left?, right?, hkind, Nat.add_assoc, Nat.add_comm 1, and_assoc]

theorem Spells.append {options : CompareBuildOptions} {rows rows' : List CompareRow}
    {ls ls' rs rs' : List Line} (h : Spells options rows ls rs)
    (hleft : rows'.filterMap left? = ls') (hright : rows'.filterMap right? = rs')
    (hnumbered : Numbered (1 + ls.length) (1 + rs.length) rows')
    (hsame : ∀ row ∈ rows', row.kind = .unchanged →
      linesEqualForDiff row.leftText row.rightText options = true) :
    Spells options (rows ++ rows') (ls ++ ls') (rs ++ rs') := by
  refine ⟨?_, ?_, ?_, ?_⟩
  · rw [filterMap_append, h.left_eq, hleft]
  · rw [filterMap_append, h.right_eq, hright]
  · rw [numbered_append, h.left_eq, h.right_eq]
    exact ⟨h.numbered, hnumbered⟩
  · intro row hrow
    rcases mem_append.mp hrow with hrow | hrow
    · exact h.same row hrow
    · exact hsame row hrow

/-! ### The row sink -/

/-- The sink has written rows for `ls` and `rs` and counts the next lines. -/
structure SinkSpells (options : CompareBuildOptions) (sink : RowSink) (ls rs : List Line) : Prop where
  spells : Spells options sink.rows ls rs
  left_next : sink.leftLine = ls.length + 1
  right_next : sink.rightLine = rs.length + 1

section Sink

variable {options : CompareBuildOptions} {sink : RowSink} {ls rs : List Line}

theorem sinkSpells_empty : SinkSpells options {} [] [] :=
  ⟨⟨rfl, rfl, trivial, by simp⟩, rfl, rfl⟩

section

variable (h : SinkSpells options sink ls rs)

include h

/-- Writing one more row that carries the next numbers. -/
theorem SinkSpells.pushRow (row : CompareRow)
    (hleft : row.leftLine = if row.kind = .added then 0 else sink.leftLine)
    (hright : row.rightLine = if row.kind = .deleted then 0 else sink.rightLine)
    (hsame : row.kind = .unchanged → linesEqualForDiff row.leftText row.rightText options = true) :
    SinkSpells options
      { sink with
        rows := sink.rows ++ [row]
        leftLine := if row.kind = .added then sink.leftLine else sink.leftLine + 1
        rightLine := if row.kind = .deleted then sink.rightLine else sink.rightLine + 1 }
      (ls ++ row.left?.toList) (rs ++ row.right?.toList) := by
  obtain ⟨hspells, hnextLeft, hnextRight⟩ := h
  refine ⟨hspells.append ?_ ?_ ?_ (by simpa using hsame), ?_, ?_⟩
  · cases hrow : row.left? <;> simp [hrow]
  · cases hrow : row.right? <;> simp [hrow]
  · simp only [Numbered, hleft, hright, hnextLeft, hnextRight, and_true, Nat.add_comm 1]
  · cases hkind : row.kind <;> simp [left?, hkind, hnextLeft]
  · cases hkind : row.kind <;> simp [right?, hkind, hnextRight]

theorem SinkSpells.pushEqual {left right : Line}
    (heq : linesEqualForDiff left right options = true) :
    SinkSpells options (sink.pushEqual left right) (ls ++ [left]) (rs ++ [right]) :=
  h.pushRow { leftText := left, rightText := right, leftLine := sink.leftLine
              rightLine := sink.rightLine } rfl rfl fun _ => heq

theorem SinkSpells.pushEquals {ls' rs' : List Line}
    (heq : List.Forall₂ (fun l r => linesEqualForDiff l r options = true) ls' rs') :
    SinkSpells options (sink.pushEquals (ls'.zip rs')) (ls ++ ls') (rs ++ rs') := by
  induction heq generalizing sink ls rs with
  | nil => simpa [pushEquals] using h
  | @cons l r ls' rs' hlr _ ih =>
      have hnext := ih (h.pushEqual hlr)
      simpa [pushEquals] using hnext

/-- An alignment that consumes exactly the deleted and the inserted lines writes exactly
these. -/
theorem SinkSpells.pushAligned (hunk : Nat) (kinds : List HunkAlignmentKind)
    (deleted inserted : List Line) (hdeleted : kinds.countP (· ≠ .insert) = deleted.length)
    (hinserted : kinds.countP (· ≠ .delete) = inserted.length) :
    SinkSpells options (pushAligned hunk sink kinds deleted inserted)
      (ls ++ deleted) (rs ++ inserted) := by
  induction kinds generalizing sink ls rs deleted inserted with
  | nil =>
      obtain rfl : deleted = [] := length_eq_zero_iff.mp (by simpa using hdeleted.symm)
      obtain rfl : inserted = [] := length_eq_zero_iff.mp (by simpa using hinserted.symm)
      simpa [pushAligned] using h
  | cons kind kinds ih =>
      cases kind with
      | pair =>
          cases deleted with
          | nil => simp at hdeleted
          | cons d deleted =>
              cases inserted with
              | nil => simp at hinserted
              | cons r inserted =>
                  rw [append_cons, append_cons rs]
                  exact ih (h.pushRow { leftText := d, rightText := r, leftLine := sink.leftLine
                                        rightLine := sink.rightLine, kind := .modified
                                        hunk := some hunk } rfl rfl nofun)
                    deleted inserted (by simpa using hdeleted) (by simpa using hinserted)
      | delete =>
          cases deleted with
          | nil => simp at hdeleted
          | cons d deleted =>
              have hnext := ih (h.pushRow { leftText := d, leftLine := sink.leftLine
                                            kind := .deleted, hunk := some hunk } rfl rfl nofun)
                deleted inserted (by simpa using hdeleted) (by simpa using hinserted)
              simpa [pushAligned, left?, right?] using hnext
      | insert =>
          cases inserted with
          | nil => simp at hinserted
          | cons r inserted =>
              have hnext := ih (h.pushRow { rightText := r, rightLine := sink.rightLine
                                            kind := .added, hunk := some hunk } rfl rfl nofun)
                deleted inserted (by simpa using hdeleted) (by simpa using hinserted)
              simpa [pushAligned, left?, right?] using hnext

end

end Sink

/-! ### Alignments consume both sides -/

theorem traceAlignment_counts (leftCount rightCount : Nat) (choices : List (List HunkAlignmentKind))
    (fuel i j : Nat) (hi : i ≤ leftCount) (hj : j ≤ rightCount)
    (hfuel : (leftCount - i) + (rightCount - j) ≤ fuel) :
    (traceAlignment leftCount rightCount choices fuel i j).countP (· ≠ .insert) = leftCount - i ∧
      (traceAlignment leftCount rightCount choices fuel i j).countP (· ≠ .delete)
        = rightCount - j := by
  induction fuel generalizing i j with
  | zero =>
      simp only [traceAlignment, countP_nil]
      omega
  | succ fuel ih =>
      rw [traceAlignment]
      split
      · simp only [countP_nil]
        omega
      · split
        · have h := ih i (j + 1) hi (by omega) (by omega)
          simp only [countP_cons, h.1, h.2]
          simp
          omega
        · split
          · have h := ih (i + 1) j (by omega) hj (by omega)
            simp only [countP_cons, h.1, h.2]
            simp
            omega
          · split
            · have h := ih (i + 1) (j + 1) (by omega) (by omega) (by omega)
              simp only [countP_cons, h.1, h.2]
              simp
              omega
            · have h := ih (i + 1) j (by omega) hj (by omega)
              simp only [countP_cons, h.1, h.2]
              simp
              omega
            · have h := ih i (j + 1) hi (by omega) (by omega)
              simp only [countP_cons, h.1, h.2]
              simp
              omega

/-- Whatever the costs say, an alignment uses every deleted and every inserted line
once. -/
theorem alignHunkLines_counts {K : Type} (A : Doubles K) (deleted inserted : List Line) :
    (alignHunkLines A deleted inserted).countP (· ≠ .insert) = deleted.length ∧
      (alignHunkLines A deleted inserted).countP (· ≠ .delete) = inserted.length := by
  simp only [alignHunkLines]
  split
  · next h => simp [countP_replicate, h]
  · split
    · next h => simp [countP_replicate, h]
    · split
      · simp [countP_replicate]
      · have h := traceAlignment_counts deleted.length inserted.length
          ((alignTable A deleted.length inserted deleted).map fun row => row.map Prod.snd)
          (deleted.length + inserted.length) 0 0 (Nat.zero_le _) (Nat.zero_le _) (by omega)
        simpa using h

/-! ### The whole model -/

section Build

variable {K : Type} (A : Doubles K) {options : CompareBuildOptions} {ls rs : List Line}

theorem SinkSpells.flushRun {sink : RowSink} (h : SinkSpells options sink ls rs)
    (deleted inserted : List Line) :
    SinkSpells options (flushRun A sink deleted inserted) (ls ++ deleted) (rs ++ inserted) := by
  unfold Compare.flushRun
  split
  · next hempty =>
    rw [Bool.and_eq_true, List.isEmpty_iff, List.isEmpty_iff] at hempty
    simpa [hempty.1, hempty.2] using h
  · obtain ⟨hdeleted, hinserted⟩ := alignHunkLines_counts A deleted inserted
    obtain ⟨hspells, hleft, hright⟩ := h.pushAligned sink.hunks.length _ deleted inserted
      hdeleted hinserted
    exact ⟨hspells, hleft, hright⟩

theorem SinkSpells.rowsFromOps {sink : RowSink} (h : SinkSpells options sink ls rs)
    (ops : List DiffOp) (deleted inserted : List Line)
    (hkept : ∀ l r, Edit.keep l r ∈ ops.map DiffOp.edit → linesEqualForDiff l r options = true) :
    SinkSpells options (rowsFromOps A sink deleted inserted ops)
      (ls ++ deleted ++ source (ops.map DiffOp.edit))
      (rs ++ inserted ++ target (ops.map DiffOp.edit)) := by
  induction ops generalizing sink ls rs deleted inserted with
  | nil => simpa [Compare.rowsFromOps] using h.flushRun A deleted inserted
  | cons op ops ih =>
      obtain ⟨kind, text, rightText⟩ := op
      have hkept' : ∀ l r, Edit.keep l r ∈ ops.map DiffOp.edit →
          linesEqualForDiff l r options = true :=
        fun l r hmem => hkept l r (mem_cons_of_mem _ hmem)
      cases kind with
      | equal =>
          have hnext := ih ((h.flushRun A deleted inserted).pushEqual
            (hkept text rightText mem_cons_self)) [] [] hkept'
          rw [append_nil, append_nil, append_assoc (ls ++ deleted),
            append_assoc (rs ++ inserted)] at hnext
          exact hnext
      | delete =>
          have hnext := ih h (deleted ++ [text]) inserted hkept'
          rw [← append_assoc, append_assoc (ls ++ deleted)] at hnext
          exact hnext
      | insert =>
          have hnext := ih h deleted (inserted ++ [text]) hkept'
          rw [← append_assoc rs, append_assoc (rs ++ inserted)] at hnext
          exact hnext

end Build

/-- The row the phantoms get after `i` left and `j` right lines. -/
def phantomRows (leftPhantom rightPhantom : Bool) (i j : Nat) (hunk : Option Nat) : List CompareRow :=
  match leftPhantom, rightPhantom with
  | true, true => [{ leftLine := i + 1, rightLine := j + 1 }]
  | true, false => [{ kind := .deleted, leftLine := i + 1, hunk }]
  | false, true => [{ kind := .added, rightLine := j + 1, hunk }]
  | false, false => []

theorem pushPhantom_rows {sink : RowSink} {i j : Nat} (leftPhantom rightPhantom : Bool)
    (hleft : sink.leftLine = i + 1) (hright : sink.rightLine = j + 1) :
    ∃ hunk, (pushPhantom sink leftPhantom rightPhantom).rows =
      sink.rows ++ phantomRows leftPhantom rightPhantom i j hunk := by
  cases leftPhantom <;> cases rightPhantom
  · exact ⟨none, by simp [pushPhantom, phantomRows]⟩
  · exact ⟨_, by simp [pushPhantom, hright]; rfl⟩
  · exact ⟨_, by simp [pushPhantom, hleft]; rfl⟩
  · exact ⟨none, by simp [pushPhantom, pushEqual, phantomRows, hleft, hright]⟩

/-- The lines that take part in the alignment, and the phantom after them, are the lines
the splitter finds. -/
theorem realLinesOf_append_phantom (source : List UInt8) :
    realLinesOf source (!finalNewlineMissing source) ++
      (if !finalNewlineMissing source then [[]] else []) = splitLineViews source := by
  unfold realLinesOf
  cases hmissing : finalNewlineMissing source with
  | true => simp
  | false =>
      have hlast : (splitLineViews source).getLast? = some [] := by
        rcases eq_nil_or_concat' source with rfl | ⟨init, last, rfl⟩
        · rfl
        · obtain rfl : last = lf := by simpa [finalNewlineMissing] using hmissing
          exact splitLineViews_concat_lf init
      obtain ⟨init, hinit⟩ := getLast?_eq_some_iff.mp hlast
      simp [hinit]

/-- **The rows spell both texts.** Before the phantom's row, the left parts are the left
lines and the right parts are the right lines, in order and numbered from `1`. -/
theorem buildCompareModel_rows {K : Type} (A : Doubles K) (left right : List UInt8)
    (options : CompareBuildOptions) : let leftLines := realLinesOf left (!finalNewlineMissing left)
    let rightLines := realLinesOf right (!finalNewlineMissing right)
    ∃ real hunk, Spells options real leftLines rightLines ∧
      (buildCompareModel A left right options).rows = real ++
        phantomRows (!finalNewlineMissing left) (!finalNewlineMissing right)
          leftLines.length rightLines.length hunk := by
  intro leftLines rightLines
  have hbound := equalEnds_le (fun l r => linesEqualForDiff l r options) leftLines rightLines
  have hstart := forall₂_equalEnds_fst (fun l r => linesEqualForDiff l r options) leftLines rightLines
  have hend := forall₂_equalEnds_snd (fun l r => linesEqualForDiff l r options) leftLines rightLines
  have haligns := buildLineDiffOps_aligns
    (slice leftLines (findEqualEnds leftLines rightLines options).prefixLength
      (findEqualEnds leftLines rightLines options).leftSuffix)
    (slice rightLines (findEqualEnds leftLines rightLines options).prefixLength
      (findEqualEnds leftLines rightLines options).rightSuffix) options
  have hsink := ((sinkSpells_empty.pushEquals hstart).rowsFromOps A _ [] [] haligns.kept).pushEquals hend
  rw [haligns.source_eq, haligns.target_eq] at hsink
  simp only [nil_append, append_nil, findEqualEnds] at hsink
  have hcut : ∀ (lines : List Line) (p s : Nat), p + s ≤ lines.length →
      lines.take p ++ slice lines p (lines.length - s) ++ lines.drop (lines.length - s) = lines := by
    intro lines p s hle
    rw [← slice_zero, slice_append _ (Nat.zero_le _) (by omega),
      slice_append_drop _ (Nat.zero_le _), drop_zero]
  rw [hcut _ _ _ hbound.1, hcut _ _ _ hbound.2] at hsink
  obtain ⟨hunk, hrows⟩ := pushPhantom_rows (!finalNewlineMissing left) (!finalNewlineMissing right)
    hsink.left_next hsink.right_next
  exact ⟨_, hunk, hsink.spells, hrows⟩

/-- The phantom's row spells the empty segment after a final newline. -/
theorem Spells.append_phantomRows {options : CompareBuildOptions} {rows : List CompareRow}
    {ls rs : List Line} (h : Spells options rows ls rs) (leftPhantom rightPhantom : Bool)
    (hunk : Option Nat) :
    Spells options (rows ++ phantomRows leftPhantom rightPhantom ls.length rs.length hunk)
      (ls ++ if leftPhantom then [[]] else []) (rs ++ if rightPhantom then [[]] else []) := by
  have hempty : linesEqualForDiff [] [] options = true := rfl
  apply h.append
  · cases leftPhantom <;> cases rightPhantom <;> rfl
  · cases leftPhantom <;> cases rightPhantom <;> rfl
  · cases leftPhantom <;> cases rightPhantom <;> simp [phantomRows, Numbered, Nat.add_comm]
  · cases leftPhantom <;> cases rightPhantom <;> simp [phantomRows, hempty]

/-- With the phantom's row the rows spell the segments the splitter finds. -/
theorem buildCompareModel_spells {K : Type} (A : Doubles K) (left right : List UInt8)
    (options : CompareBuildOptions) :
    Spells options (buildCompareModel A left right options).rows (splitLineViews left)
      (splitLineViews right) := by
  obtain ⟨real, hunk, hspells, hrows⟩ := buildCompareModel_rows A left right options
  have hwhole := hspells.append_phantomRows (!finalNewlineMissing left)
    (!finalNewlineMissing right) hunk
  rw [hrows, ← realLinesOf_append_phantom left, ← realLinesOf_append_phantom right]
  exact hwhole

theorem pushEquals_unchanged (sink : RowSink) (pairs : List (Line × Line))
    (h : ∀ row ∈ sink.rows, row.kind = .unchanged) :
    ∀ row ∈ (sink.pushEquals pairs).rows, row.kind = .unchanged := by
  induction pairs generalizing sink with
  | nil => exact h
  | cons pair pairs ih =>
      apply ih
      simp only [pushEqual, forall_mem_append, forall_mem_singleton]
      exact ⟨h, trivial⟩

end Microide.Compare
