/-
When a generated patch is exact.

A patch for a row range should turn the left file into the left file with exactly the
selected changed rows taken from the right file. `selectedText` says which bytes these
are: every line keeps the newline it has on the side it is taken from, a line that is no
longer the last one is terminated, and a shared line that only one file ends with
follows the row that stands for the final newline.

**Main result.** `buildUnifiedPatch_exact_iff`: the header counts and the lines the hunk
expects are always right, and the result is right exactly when the range `KeepsEnds`.
-/

import Microide.Project.PatchEnds

namespace Microide.Project

open List Lib Text Compare CompareRow Cut

/-! ### What a patch should do -/

/-- The final newline of the result: the last row of the model stands for it. -/
def selectedFinalNewline (model : CompareModel) (first last : Nat) : Bool :=
  if first ≤ model.rows.length - 1 ∧ model.rows.length - 1 ≤ last then
    !model.rightFinalNewlineMissing
  else !model.leftFinalNewlineMissing

/-- The lines of the left file with the changed rows `first … last` taken from the right
file. -/
def selectedLines (model : CompareModel) (first last : Nat) : List (FileLine UInt8) :=
  model.rows.zipIdx.filterMap fun (row, i) =>
    chosenLine model (selectedFinalNewline model first last) (first ≤ i && i ≤ last) row

/-- The left text with exactly the selected changed rows taken from the right text. -/
def selectedText (model : CompareModel) (first last : Nat) : List UInt8 :=
  fileText lf (settle (selectedLines model first last))

/-- The text exact application of a patch gives. -/
def UnifiedPatch.appliedText (patch : UnifiedPatch) (text : List UInt8) : Option (List UInt8) :=
  (patch.hunk.apply (fileLines lf text)).map (fileText lf)

/-- A patch for the rows `first … last` is exact. -/
structure ExactPatch (model : CompareModel) (left right : List UInt8) (first last : Nat)
    (patch : UnifiedPatch) : Prop where
  counts : patch.hunk.CountsMatch
  expected : patch.hunk.MatchesAt (fileLines lf left)
  applied : patch.appliedText left = some (selectedText model first last)
  whole : first = 0 → last + 1 = model.rows.length → patch.appliedText left = some right

/-! ### The body of the hunk -/

section Body

variable {model : CompareModel} {left right : List UInt8}

theorem printedLine_of_noCrlf (hcrlf : model.leftUsesCrlf = false ∧ model.rightUsesCrlf = false)
    (line : PatchBodyLine) : printedLine model line =
      { tag := line.tag, line := { text := line.text, newline := !line.noNewlineAfter } } := by
  simp [printedLine, hcrlf.1, hcrlf.2]

@[simp] theorem oldLines_cons (line : HunkLine UInt8) (body : List (HunkLine UInt8)) :
    oldLines (line :: body) = (if line.tag = .add then [] else [line.line]) ++ oldLines body := by
  unfold oldLines
  split <;> simp_all

@[simp] theorem newLines_cons (line : HunkLine UInt8) (body : List (HunkLine UInt8)) :
    newLines (line :: body) = (if line.tag = .remove then [] else [line.line]) ++ newLines body := by
  unfold newLines
  split <;> simp_all

@[simp] theorem oldLines_nil : oldLines ([] : List (HunkLine UInt8)) = [] := rfl

@[simp] theorem newLines_nil : newLines ([] : List (HunkLine UInt8)) = [] := rfl

section

variable (h : RowsOf model left right)

include h

/-- The body lines of a shared line: a removed and an added line when the hunk goes on
after a file's unterminated end, else a context line. -/
theorem unchangedLines_eq {row : CompareRow} (hmem : row ∈ model.rows)
    (hkind : row.kind = .unchanged) (rest : List CompareRow)
    (hempty : (row.rightText.isEmpty && phantomOn model true row) = false) :
    unchangedLines model row rest =
      if noNewlineOn model false row && addsAfter rest then
        [{ tag := .remove, text := row.rightText, noNewlineAfter := true },
         { tag := .add, text := row.rightText, noNewlineAfter := noNewlineOn model true row }]
      else if noNewlineOn model true row && deletesAfter rest then
        [{ tag := .remove, text := row.rightText, noNewlineAfter := false },
         { tag := .add, text := row.rightText, noNewlineAfter := true }]
      else [{ text := row.rightText, noNewlineAfter := noNewlineOn model false row }] := by
  have hphantom : phantomOn model false row = phantomOn model true row :=
    Bool.eq_iff_iff.mpr ⟨h.phantomOn_unchanged hmem hkind false,
      h.phantomOn_unchanged hmem hkind true⟩
  simp only [unchangedLines, h.same row hmem hkind, ite_self, hphantom, hempty, Bool.false_and,
    Bool.false_eq_true, if_false]

/-- The body lines of an unchanged row expect its left line and leave the line
`takenLine` says. -/
theorem unchangedLines_spec {pre rest post : List CompareRow} {row : CompareRow}
    (hrows : model.rows = pre ++ row :: (rest ++ post)) (hkind : row.kind = .unchanged) :
    oldLines ((unchangedLines model row rest).map (printedLine model)) =
        (rowLine model false row).toList ∧
      newLines ((unchangedLines model row rest).map (printedLine model)) =
        (takenLine model row rest).toList := by
  have hmem : row ∈ model.rows := by simp [hrows]
  have hsame := h.same row hmem hkind
  have hphantom : phantomOn model false row = phantomOn model true row :=
    Bool.eq_iff_iff.mpr ⟨h.phantomOn_unchanged hmem hkind false,
      h.phantomOn_unchanged hmem hkind true⟩
  have htext : sideText false row = some row.rightText := by
    simp [sideText, left?, hkind, hsame]
  have hdeletes : noNewlineOn model false row = true → deletesAfter rest = false := by
    intro hno
    have hadded := (h.noNewline_split hrows hno).2.1
    simp only [deletesAfter, any_eq_false, Bool.or_eq_true, beq_iff_eq]
    intro r hr
    have hr : r.kind = .added := hadded r (by simp [hr])
    simp [hr]
  have hprinted := printedLine_of_noCrlf h.noCrlf
  cases hempty : row.rightText.isEmpty && phantomOn model true row with
  | true =>
      rw [Bool.and_eq_true] at hempty
      simp [unchangedLines, hsame, hphantom, hempty, takenLine, rowLine, htext, hkind]
  | false =>
      have hline : rowLine model false row =
          some { text := row.rightText, newline := !noNewlineOn model false row } := by
        simp [rowLine, htext, hphantom, hempty]
      rw [unchangedLines_eq h hmem hkind rest hempty, takenLine, if_pos hkind, hline]
      split
      · next hadds =>
        rw [Bool.and_eq_true] at hadds
        simp [hprinted, hadds]
      · next hadds =>
        split
        · next hdeleted =>
          have hleft : noNewlineOn model false row = false := by
            by_contra hno
            simp [hdeletes (by simpa using hno)] at hdeleted
          simp [hprinted, hleft]
        · simp [hprinted]

/-- The body lines of a row expect its left line and leave the line `takenLine` says. -/
theorem rowLines_spec (pre rest post : List CompareRow) (row : CompareRow)
    (hrows : model.rows = pre ++ row :: (rest ++ post)) :
    oldLines ((rowLines model row rest).map (printedLine model)) = (rowLine model false row).toList ∧
      newLines ((rowLines model row rest).map (printedLine model)) =
        (takenLine model row rest).toList := by
  have hprinted := printedLine_of_noCrlf h.noCrlf
  cases hkind : row.kind with
  | unchanged =>
      have hspec := unchangedLines_spec h hrows hkind
      simpa [rowLines, hkind] using hspec
  | deleted =>
      cases hphantom : row.leftText.isEmpty && phantomOn model false row <;>
        simp [rowLines, hkind, hphantom, hprinted, rowLine, sideText, left?,
          right?, takenLine]
  | added =>
      cases hphantom : row.rightText.isEmpty && phantomOn model true row <;>
        simp [rowLines, hkind, hphantom, hprinted, rowLine, sideText, left?,
          right?, takenLine]
  | modified =>
      cases hleft : row.leftText.isEmpty && phantomOn model false row <;>
        cases hright : row.rightText.isEmpty && phantomOn model true row <;>
          simp [rowLines, hkind, hleft, hright, hprinted, rowLine, sideText, left?,
            right?, takenLine]

/-- **The body of a hunk** expects the left lines of the range and leaves `takenLines`. -/
theorem bodyLines_spec {pre range post : List CompareRow}
    (hrows : model.rows = pre ++ range ++ post) :
    oldLines ((bodyLines model range).map (printedLine model)) =
        range.filterMap (rowLine model false) ∧
      newLines ((bodyLines model range).map (printedLine model)) = takenLines model range := by
  induction range generalizing pre with
  | nil => exact ⟨rfl, rfl⟩
  | cons row rest ih =>
      have hrow := rowLines_spec h pre rest post row (by simpa using hrows)
      have hrest := @ih (pre ++ [row]) (by simpa using hrows)
      rw [bodyLines, map_append, oldLines_append, newLines_append, hrow.1, hrow.2, hrest.1,
        hrest.2, takenLines]
      refine ⟨?_, rfl⟩
      cases hline : rowLine model false row <;> simp [hline]

end

/-! ### The header -/

/-- The counts of the header are those of the body. -/
theorem countP_oldLines (lines : List PatchBodyLine) :
    lines.countP (fun line => line.tag == .context || line.tag == .remove) =
      (oldLines (lines.map (printedLine model))).length := by
  induction lines with
  | nil => rfl
  | cons line lines ih =>
      rw [countP_cons, ih, map_cons, oldLines_cons, length_append, Nat.add_comm]
      cases htag : line.tag <;> simp [printedLine, htag]

theorem countP_newLines (lines : List PatchBodyLine) :
    lines.countP (fun line => line.tag == .context || line.tag == .add) =
      (newLines (lines.map (printedLine model))).length := by
  induction lines with
  | nil => rfl
  | cons line lines ih =>
      rw [countP_cons, ih, map_cons, newLines_cons, length_append, Nat.add_comm]
      cases htag : line.tag <;> simp [printedLine, htag]

section

variable (h : RowsOf model left right)

include h

/-- Every row before the last one stands for a line on each side it has. -/
theorem length_before {before rest : List CompareRow} (hrows : model.rows = before ++ rest)
    (hne : rest ≠ []) (rightSide : Bool) : (before.filterMap (rowLine model rightSide)).length =
      (before.filterMap (sideText rightSide)).length := by
  have htexts : (before.filterMap (rowLine model rightSide)).map FileLine.text =
      before.filterMap (sideText rightSide) := by
    rw [map_filterMap]
    apply filterMap_congr
    intro row hrow
    obtain ⟨b₁, b₂, hbefore⟩ := append_of_mem hrow
    have hsplit : model.rows = b₁ ++ row :: (b₂ ++ rest) := by simp [hrows, hbefore]
    cases hline : rowLine model rightSide row with
    | none =>
        by_cases hkind : row.kind = otherKind rightSide
        · exact (sideText_eq_none_iff.mpr hkind).symm
        · simpa [hne] using h.eq_nil_of_phantom hsplit hkind hline
    | some line =>
        obtain ⟨text, htext, -, rfl⟩ := rowLine_eq_some_iff.mp hline
        simp [htext]
  rw [← htexts, length_map]

/-- The number of a line counts the lines before it. -/
theorem sideLine_eq {before after : List CompareRow} {row : CompareRow}
    (hrows : model.rows = before ++ row :: after) (rightSide : Bool) :
    sideLine rightSide row = if row.kind = otherKind rightSide then 0
      else (before.filterMap (sideText rightSide)).length + 1 := by
  rw [sideLine_of_numbered (hrows ▸ h.numbered)]
  simp [Nat.add_comm]

/-- The line before the range. -/
theorem precedingSideLine_eq {before rest : List CompareRow} (hrows : model.rows = before ++ rest)
    (rightSide : Bool) :
    precedingSideLine before rightSide = (before.filterMap (sideText rightSide)).length := by
  have hzero : ∀ row ∈ before, sideText rightSide row = none → ¬ sideLine rightSide row > 0 := by
    intro row hrow hnone
    obtain ⟨b₁, b₂, hbefore⟩ := append_of_mem hrow
    have hsplit : model.rows = b₁ ++ row :: (b₂ ++ rest) := by simp [hrows, hbefore]
    simp [sideLine_eq h hsplit, sideText_eq_none_iff.mp hnone]
  rcases eq_nil_or_concat' (before.filterMap (sideText rightSide)) with hnil | ⟨init, last, heq⟩
  · have hfind : before.reverse.find? (fun row => decide (sideLine rightSide row > 0)) = none := by
      simp only [find?_eq_none, mem_reverse, decide_eq_true_eq]
      exact fun row hrow => hzero row hrow (filterMap_eq_nil_iff.mp hnil row hrow)
    simp [precedingSideLine, hfind, hnil]
  · obtain ⟨b₁, b₂, hbefore, hb₁, hb₂⟩ := filterMap_eq_append_iff.mp heq
    obtain ⟨skipped, row, tail, rfl, hskipped, hrow, htail⟩ := filterMap_eq_cons_iff.mp hb₂
    have hkind : row.kind ≠ otherKind rightSide := by
      intro hkind
      rw [sideText_eq_none_iff.mpr hkind] at hrow
      cases hrow
    have hsplit : model.rows = (b₁ ++ skipped) ++ row :: (tail ++ rest) := by simp [hrows, hbefore]
    have hline := sideLine_eq h hsplit rightSide
    rw [if_neg hkind, filterMap_append, hb₁, filterMap_eq_nil_iff.mpr hskipped, append_nil] at hline
    have hfind : before.reverse.find? (fun row => decide (sideLine rightSide row > 0)) =
        some row := by
      have hnone : tail.reverse.find? (fun row => decide (sideLine rightSide row > 0)) = none := by
        simp only [find?_eq_none, mem_reverse, decide_eq_true_eq]
        exact fun r hr => hzero r (by simp [hbefore, hr]) (filterMap_eq_nil_iff.mp htail r hr)
      simp [hbefore, hnone, hline]
    simp [precedingSideLine, hfind, heq, hline]

/-- The first line of the range. -/
theorem firstPatchLineNumber_eq {before range rest : List CompareRow}
    (hrows : model.rows = before ++ range ++ rest) (hne : range.filterMap (sideText false) ≠ []) :
    firstPatchLineNumber range false = (before.filterMap (sideText false)).length + 1 := by
  obtain ⟨text, texts, heq⟩ := exists_cons_of_ne_nil hne
  obtain ⟨skipped, row, tail, rfl, hskipped, hrow, -⟩ := filterMap_eq_cons_iff.mp heq
  have hkind : row.kind ≠ otherKind false := by
    intro hkind
    rw [sideText_eq_none_iff.mpr hkind] at hrow
    cases hrow
  have hsplit : model.rows = (before ++ skipped) ++ row :: (tail ++ rest) := by simp [hrows]
  have hline := sideLine_eq h hsplit false
  rw [if_neg hkind, filterMap_append, filterMap_eq_nil_iff.mpr hskipped, append_nil] at hline
  have hskip : ∀ r ∈ skipped, r.kind = .added := fun r hr =>
    sideText_eq_none_iff.mp (hskipped r hr)
  have hparticipates : (row.kind == .unchanged || row.kind == .deleted || row.kind == .modified)
      = true := by
    cases hk : row.kind <;> simp_all [otherKind]
  simp only [firstPatchLineNumber]
  rw [find?_append, find?_eq_none.mpr]
  · simp [hparticipates, hline]
  · intro r hr
    simp [hskip r hr]

end

end Body

/-! ### The range -/

/-- Widening the range towards the start passes unchanged rows only. -/
theorem expandRangeStart_spec (rows : List CompareRow) (start context : Nat) :
    expandRangeStart rows start context ≤ start ∧
      ∀ i, expandRangeStart rows start context ≤ i → i < start →
        (rows[i]?).map kind = some .unchanged := by
  induction context generalizing start with
  | zero => exact ⟨by simp [expandRangeStart], fun i hle hlt => by simp [expandRangeStart] at hle; omega⟩
  | succ context ih =>
      cases start with
      | zero => exact ⟨by simp [expandRangeStart], by simp⟩
      | succ start =>
          rw [expandRangeStart]
          split
          · next hkind =>
            obtain ⟨hle, hbetween⟩ := ih start
            refine ⟨by omega, fun i hi hlt => ?_⟩
            by_cases heq : i = start
            · rwa [heq]
            · exact hbetween i hi (by omega)
          · exact ⟨Nat.le_refl _, fun i hi hlt => by omega⟩

/-- Widening the range towards the end passes unchanged rows only. -/
theorem expandRangeEnd_spec (rows : List CompareRow) (last context : Nat) :
    last ≤ expandRangeEnd rows last context ∧
      ∀ i, last < i → i ≤ expandRangeEnd rows last context →
        (rows[i]?).map kind = some .unchanged := by
  induction context generalizing last with
  | zero => exact ⟨by simp [expandRangeEnd], fun i hlt hle => by simp [expandRangeEnd] at hle; omega⟩
  | succ context ih =>
      rw [expandRangeEnd]
      split
      · next hkind =>
        obtain ⟨hle, hbetween⟩ := ih (last + 1)
        refine ⟨by omega, fun i hlt hi => ?_⟩
        by_cases heq : i = last + 1
        · rwa [heq]
        · exact hbetween i (by omega) hi
      · exact ⟨Nat.le_refl _, fun i hlt hi => by omega⟩

section Range

variable {model : CompareModel} {first last : Nat}

/-- The rows of a patch's range, widened by the context. -/
def patchRange (model : CompareModel) (first last context : Nat) : Nat × Nat :=
  (expandRangeStart model.rows first context,
    expandRangeEnd model.rows (min last (model.rows.length - 1)) context)

/-- The rows before, in and after a patch's range. -/
def rowsBefore (model : CompareModel) (range : Nat × Nat) : List CompareRow :=
  model.rows.take range.1

def rowsIn (model : CompareModel) (range : Nat × Nat) : List CompareRow :=
  slice model.rows range.1 (range.2 + 1)

def rowsAfter (model : CompareModel) (range : Nat × Nat) : List CompareRow :=
  model.rows.drop (range.2 + 1)

/-- The changed rows of the range are the selected ones. -/
theorem changed_in_range_iff {context i : Nat} {row : CompareRow} (hi : model.rows[i]? = some row)
    (hkind : row.kind ≠ .unchanged) :
    ((patchRange model first last context).1 ≤ i ∧ i ≤ (patchRange model first last context).2) ↔
      (first ≤ i ∧ i ≤ last) := by
  obtain ⟨hstart, hbefore⟩ := expandRangeStart_spec model.rows first context
  obtain ⟨hend, hafter⟩ := expandRangeEnd_spec model.rows (min last (model.rows.length - 1)) context
  have hlength : i < model.rows.length := (List.getElem?_eq_some_iff.mp hi).1
  have hchanged : (model.rows[i]?).map kind ≠ some .unchanged := by simp [hi, hkind]
  have h₁ : (patchRange model first last context).1 ≤ i → first ≤ i := by
    intro hle
    by_contra hlt
    exact hchanged (hbefore i hle (by omega))
  have h₂ : i ≤ (patchRange model first last context).2 → i ≤ min last (model.rows.length - 1) := by
    intro hle
    by_contra hlt
    exact hchanged (hafter i (by omega) hle)
  simp only [patchRange] at h₁ h₂ ⊢
  omega

theorem rows_cut {range : Nat × Nat} (hle : range.1 ≤ range.2 + 1) :
    model.rows = rowsBefore model range ++ rowsIn model range ++ rowsAfter model range := by
  rw [rowsBefore, rowsIn, rowsAfter, ← slice_zero, slice_append _ (Nat.zero_le _) hle,
    slice_append_drop _ (Nat.zero_le _), drop_zero]

/-- The selected lines, cut at the range. -/
theorem selectedLines_eq {context : Nat}
    (hne : rowsIn model (patchRange model first last context) ≠ []) :
    selectedLines model first last =
      chosen model (selectedFinalNewline model first last)
        (rowsBefore model (patchRange model first last context))
        (rowsIn model (patchRange model first last context))
        (rowsAfter model (patchRange model first last context)) := by
  have hlt : (patchRange model first last context).1 <
      (patchRange model first last context).2 + 1 := by
    by_contra hle
    exact hne (slice_eq_nil_of_le _ (by omega))
  have hchanged := @changed_in_range_iff model first last context
  generalize hrange : patchRange model first last context = range at hne hlt hchanged ⊢
  have hcut : model.rows = _ := @rows_cut model range (by omega)
  have hpos : 0 < (rowsIn model range).length := length_pos_iff.mpr hne
  have hlengths : (rowsBefore model range).length = range.1 ∧
      (rowsIn model range).length = min (range.2 + 1) model.rows.length - range.1 := by
    rw [rowsIn, length_slice] at hpos ⊢
    rw [rowsBefore, length_take]
    omega
  -- A row is treated by its kind and by its place relative to the range.
  have hpart : ∀ (pre xs post : List CompareRow) (taken : Bool), model.rows = pre ++ xs ++ post →
      (∀ i, pre.length ≤ i → i < pre.length + xs.length →
        (decide (range.1 ≤ i) && decide (i ≤ range.2)) = taken) →
      (xs.zipIdx pre.length).filterMap
          (fun p => chosenLine model (selectedFinalNewline model first last)
            (first ≤ p.2 && p.2 ≤ last) p.1) =
        xs.filterMap (chosenLine model (selectedFinalNewline model first last) taken) := by
    intro pre xs post taken hrows hplace
    apply filterMap_zipIdx_congr (fun i row => chosenLine model
      (selectedFinalNewline model first last) (first ≤ i && i ≤ last) row)
    intro i row hi
    have hxs := (List.getElem?_eq_some_iff.mp hi).1
    have hrow : model.rows[pre.length + i]? = some row := by
      rw [hrows, append_assoc, getElem?_append_right (by omega), Nat.add_sub_cancel_left,
        getElem?_append_left hxs, hi]
    by_cases hkind : row.kind = .unchanged
    · simp [chosenLine, hkind]
    · rw [← hplace (pre.length + i) (by omega) (by omega)]
      congr 1
      rw [Bool.eq_iff_iff]
      simpa using (hchanged hrow hkind).symm
  have hsplit : selectedLines model first last =
      (rowsBefore model range ++ rowsIn model range ++ rowsAfter model range).zipIdx.filterMap
        fun p => chosenLine model (selectedFinalNewline model first last)
          (first ≤ p.2 && p.2 ≤ last) p.1 := by
    rw [← hcut]
    rfl
  rw [hsplit, zipIdx_append, zipIdx_append, filterMap_append, filterMap_append,
    chosen, Nat.zero_add, Nat.zero_add]
  have hbefore := hpart [] (rowsBefore model range) (rowsIn model range ++ rowsAfter model range)
    false (by simpa using hcut) (by simp; omega)
  have hin := hpart (rowsBefore model range) (rowsIn model range) (rowsAfter model range) true hcut
    (by simp; omega)
  have hafter := hpart (rowsBefore model range ++ rowsIn model range) (rowsAfter model range) [] false
    (by simpa using hcut) (by
      rw [length_append, hlengths.1, hlengths.2, rowsAfter, length_drop]
      simp
      omega)
  rw [length_nil] at hbefore
  rw [hbefore, hin, hafter]

/-- A range with a change is a cut of the rows. -/
theorem cut_of_change {left right : List UInt8} (h : RowsOf model left right) {context : Nat}
    (hchange : (bodyLines model (rowsIn model (patchRange model first last context))).any
      (fun line => line.tag != .context) = true) :
    Cut model (rowsBefore model (patchRange model first last context))
      (rowsIn model (patchRange model first last context))
      (rowsAfter model (patchRange model first last context))
      (selectedFinalNewline model first last) := by
  have hne : rowsIn model (patchRange model first last context) ≠ [] := by
    intro hnil
    simp [hnil, bodyLines] at hchange
  have hlt : (patchRange model first last context).1 <
      (patchRange model first last context).2 + 1 := by
    by_contra hle
    exact hne (slice_eq_nil_of_le _ (by omega))
  have hend := (expandRangeEnd_spec model.rows (min last (model.rows.length - 1)) context).1
  have hchanged := @changed_in_range_iff model first last context
  have hrange₂ : min last (model.rows.length - 1) ≤ (patchRange model first last context).2 := hend
  generalize patchRange model first last context = range at hne hlt hchanged hchange hrange₂ ⊢
  have hcut : model.rows = _ := @rows_cut model range (by omega)
  have hstart : range.1 < model.rows.length := by
    have := length_pos_iff.mpr hne
    rw [rowsIn, length_slice] at this
    omega
  refine ⟨hcut, ?_, ?_, hne, ?_⟩
  · intro hafter
    have hlength : range.2 + 1 < model.rows.length := by
      have := length_pos_iff.mpr hafter
      rw [rowsAfter, length_drop] at this
      omega
    rw [selectedFinalNewline, if_neg (by omega)]
    rfl
  · intro hafter row hrow hkind
    have hlast : model.rows.getLast? = some row := by
      rw [hcut, hafter, append_nil, getLast?_append, hrow]
      rfl
    have hindex : model.rows[model.rows.length - 1]? = some row := by
      rw [← getLast?_eq_getElem?, hlast]
    have hselected := (hchanged hindex hkind).mp (by
      have := drop_eq_nil_iff.mp hafter
      omega)
    rw [selectedFinalNewline, if_pos hselected]
    rfl
  · intro hadded
    obtain ⟨hold, hnew⟩ := bodyLines_spec h hcut
    rw [filterMap_eq_nil_iff.mpr fun r hr => rowLine_of_otherKind (hadded r hr)] at hold
    intro hnil
    rw [hnil] at hnew
    obtain ⟨line, hline, htag⟩ := any_eq_true.mp hchange
    cases hkind : line.tag with
    | context => simp [hkind] at htag
    | remove =>
        have hmem : (printedLine model line).line ∈
            oldLines ((bodyLines model (rowsIn model range)).map (printedLine model)) :=
          mem_map.mpr ⟨_, mem_filter.mpr ⟨mem_map_of_mem hline, by simp [printedLine, hkind]⟩, rfl⟩
        simp [hold] at hmem
    | add =>
        have hmem : (printedLine model line).line ∈
            newLines ((bodyLines model (rowsIn model range)).map (printedLine model)) :=
          mem_map.mpr ⟨_, mem_filter.mpr ⟨mem_map_of_mem hline, by simp [printedLine, hkind]⟩, rfl⟩
        simp [hnew] at hmem

end Range

/-! ### Exact application -/

section Exact

variable {model : CompareModel} {left right : List UInt8} {before mid after : List CompareRow}

section

variable (h : RowsOf model left right)

include h

/-- A hunk that expects the left lines of the range at its place applies to the left
file. -/
theorem hunk_apply (hrows : model.rows = before ++ mid ++ after) {hunk : Hunk UInt8}
    (hold : oldLines hunk.body = mid.filterMap (rowLine model false))
    (hnew : newLines hunk.body = takenLines model mid) (hcounts : hunk.CountsMatch)
    (hposition : hunk.position = (before.filterMap (rowLine model false)).length) :
    hunk.MatchesAt (fileLines lf left) ∧
      hunk.apply (fileLines lf left) = some (result model before mid after) := by
  have hlines : fileLines lf left = before.filterMap (rowLine model false) ++
      (mid.filterMap (rowLine model false) ++ after.filterMap (rowLine model false)) := by
    have hleft : model.rows.filterMap (rowLine model false) = fileLines lf left :=
      h.fileLines_eq false
    rw [← hleft, hrows]
    simp
  have hcount : hunk.oldCount = (mid.filterMap (rowLine model false)).length := by
    rw [hcounts.1, hold]
  have hmatches : hunk.MatchesAt (fileLines lf left) := by
    refine ⟨?_, ?_⟩
    · rw [hposition, hlines, length_append]
      omega
    · rw [hold, hlines, hposition, hcount, slice, ← append_assoc, ← length_append,
        take_left, drop_left]
  refine ⟨hmatches, ?_⟩
  rw [Hunk.apply, if_pos ⟨hcounts, hmatches⟩, hlines, hnew, hposition, hcount, result,
    take_left, ← length_append, ← append_assoc, drop_left]

/-- The texts of the chosen lines have no newline, and the last of them has text if it is
unterminated. -/
theorem chosenLine_text {final taken : Bool} {row : CompareRow} (hmem : row ∈ model.rows)
    {line : FileLine UInt8} (hline : chosenLine model final taken row = some line) :
    lf ∉ line.text ∧ (line.newline = false → line.text ≠ []) := by
  have hrow : ∀ rightSide line, rowLine model rightSide row = some line →
      lf ∉ line.text ∧ (noNewlineOn model rightSide row = true → line.text ≠ []) := by
    intro rightSide line hline
    obtain ⟨text, htext, -, rfl⟩ := rowLine_eq_some_iff.mp hline
    exact ⟨h.lf_not_mem hmem htext, fun hno => h.text_ne_nil hmem hno htext⟩
  by_cases hkind : row.kind = .unchanged
  · rw [chosenLine, if_pos hkind, Option.map_eq_some_iff] at hline
    obtain ⟨l, hl, rfl⟩ := hline
    obtain ⟨r, hr, htext⟩ : ∃ r, rowLine model true row = some r ∧ r.text = l.text := by
      have htexts := h.rowLine_unchanged_text hmem hkind
      rw [hl, Option.map_some, eq_comm, Option.map_eq_some_iff] at htexts
      exact htexts
    refine ⟨(hrow false l hl).1, fun hnewline => ?_⟩
    -- If no side lacks the newline here, the line is terminated.
    cases hL : noNewlineOn model false row with
    | true => exact (hrow false l hl).2 hL
    | false =>
        cases hR : noNewlineOn model true row with
        | true => exact htext ▸ (hrow true r hr).2 hR
        | false => simp [hL, hR, rowLine_newline hl] at hnewline
  · rw [chosenLine_changed hkind] at hline
    refine ⟨(hrow taken line hline).1, fun hnewline => (hrow taken line hline).2 ?_⟩
    simpa [rowLine_newline hline] using hnewline

/-- **The bytes are right exactly when the newlines are.** -/
theorem fileText_result_iff {final : Bool} (hrows : model.rows = before ++ mid ++ after) :
    fileText lf (result model before mid after) =
        fileText lf (settle (chosen model final before mid after)) ↔
      Cut.EndsAgree model final before mid after := by
  have hchosen : ∀ line ∈ chosen model final before mid after,
      lf ∉ line.text ∧ (line.newline = false → line.text ≠ []) := by
    intro line hline
    simp only [chosen, mem_append, mem_filterMap] at hline
    rcases hline with (⟨row, hrow, hline⟩ | ⟨row, hrow, hline⟩) | ⟨row, hrow, hline⟩
    all_goals exact chosenLine_text h (by simp [hrows, hrow]) hline
  apply fileText_eq_settle_iff lf map_text_result
  · intro text htext
    obtain ⟨line, hline, rfl⟩ := mem_map.mp htext
    exact (hchosen line hline).1
  · exact fun last hlast => (hchosen last (mem_of_getLast? hlast)).2

end

/-- A body that expects nothing only adds. -/
theorem filter_add_of_oldLines_nil {lines : List PatchBodyLine}
    (hold : oldLines (lines.map (printedLine model)) = []) :
    lines.filter (fun line => line.tag == .add) = lines := by
  rw [filter_eq_self]
  intro line hline
  by_contra htag
  have hmem : (printedLine model line).line ∈ oldLines (lines.map (printedLine model)) :=
    mem_map.mpr ⟨_, mem_filter.mpr ⟨mem_map_of_mem hline, by simpa [printedLine] using htag⟩, rfl⟩
  simp [hold] at hmem

/-- A body that leaves nothing only removes. -/
theorem filter_remove_of_newLines_nil {lines : List PatchBodyLine}
    (hnew : newLines (lines.map (printedLine model)) = []) :
    lines.filter (fun line => line.tag == .remove) = lines := by
  rw [filter_eq_self]
  intro line hline
  by_contra htag
  have hmem : (printedLine model line).line ∈ newLines (lines.map (printedLine model)) :=
    mem_map.mpr ⟨_, mem_filter.mpr ⟨mem_map_of_mem hline, by simpa [printedLine] using htag⟩, rfl⟩
  simp [hnew] at hmem

/-- An empty right file has no lines to take. -/
theorem takenLines_of_right_empty (h : RowsOf model left [])
    (hrows : model.rows = before ++ mid ++ after) : takenLines model mid = [] := by
  have hnone : ∀ row ∈ model.rows, rowLine model true row = none := by
    have hlines : model.rows.filterMap (rowLine model true) = [] := h.fileLines_eq true
    exact filterMap_eq_nil_iff.mp hlines
  rw [takenLines_eq_nil_iff true]
  intro row hrow
  have hmem : row ∈ model.rows := by simp [hrows, hrow]
  by_cases hkind : row.kind = .unchanged
  · have htexts := h.rowLine_unchanged_text hmem hkind
    rw [hnone row hmem, Option.map_none, Option.map_eq_none_iff] at htexts
    simp [chosenLine, hkind, htexts]
  · rw [chosenLine_changed hkind, hnone row hmem]

section Header

variable (h : RowsOf model left right) (hrows : model.rows = before ++ mid ++ after)
  {isNewFile isDeletedFile : Bool} (hnewFile : isNewFile = true → left = [])
  (hdeletedFile : isDeletedFile = true → right = [])

include h hrows hnewFile hdeletedFile

/-- A created file has no left lines and a removed file no right ones. -/
theorem whole_file_lines : (isNewFile = true → mid.filterMap (rowLine model false) = []) ∧
      (isNewFile = true → before.filterMap (rowLine model false) = []) ∧
      (isDeletedFile = true → takenLines model mid = []) := by
  have hleft : isNewFile = true → ∀ row ∈ model.rows, rowLine model false row = none := by
    intro hnew
    have hlines : model.rows.filterMap (rowLine model false) = fileLines lf left :=
      h.fileLines_eq false
    rw [hnewFile hnew] at hlines
    exact filterMap_eq_nil_iff.mp hlines
  refine ⟨fun hnew => ?_, fun hnew => ?_, fun hdeleted => ?_⟩
  · exact filterMap_eq_nil_iff.mpr fun row hrow => hleft hnew row (by simp [hrows, hrow])
  · exact filterMap_eq_nil_iff.mpr fun row hrow => hleft hnew row (by simp [hrows, hrow])
  · obtain rfl := hdeletedFile hdeleted
    exact takenLines_of_right_empty h hrows

/-- Erasing the other side changes nothing: there is none. -/
theorem wholeFileLines_eq :
    wholeFileLines isNewFile isDeletedFile (bodyLines model mid) = bodyLines model mid := by
  obtain ⟨hold, hnew⟩ := bodyLines_spec h hrows
  obtain ⟨hmid, -, htaken⟩ := whole_file_lines h hrows hnewFile hdeletedFile
  unfold wholeFileLines
  split
  · next hisNew => exact filter_add_of_oldLines_nil (hold.trans (hmid hisNew))
  · split
    · next hisDeleted => exact filter_remove_of_newLines_nil (hnew.trans (htaken hisDeleted))
    · rfl

theorem patchHunk_countsMatch :
    (patchHunk model isNewFile isDeletedFile before mid (bodyLines model mid)).CountsMatch := by
  obtain ⟨hold, hnew⟩ := bodyLines_spec h hrows
  obtain ⟨hmid, -, htaken⟩ := whole_file_lines h hrows hnewFile hdeletedFile
  refine ⟨?_, ?_⟩
  · simp only [patchHunk, @countP_oldLines model, hold]
    split
    · next hisNew => simp [hmid hisNew]
    · rfl
  · simp only [patchHunk, @countP_newLines model, hnew]
    split
    · next hisDeleted => simp [htaken hisDeleted]
    · rfl

/-- The stated position is that of the range in the left file. -/
theorem patchHunk_position (hne : mid ≠ []) :
    (patchHunk model isNewFile isDeletedFile before mid (bodyLines model mid)).position =
      (before.filterMap (rowLine model false)).length := by
  obtain ⟨hold, hnew⟩ := bodyLines_spec h hrows
  obtain ⟨hmid, hbefore, -⟩ := whole_file_lines h hrows hnewFile hdeletedFile
  have hrest : model.rows = before ++ (mid ++ after) := by simp [hrows]
  have hlength := length_before h hrest (by simp [hne]) false
  simp only [patchHunk, Hunk.position, @countP_oldLines model, hold]
  cases hisNew : isNewFile with
  | true => simp [hbefore hisNew]
  | false =>
      by_cases hcount : mid.filterMap (rowLine model false) = []
      · simp [hcount, precedingSideLine_eq h hrest, hlength]
      · have htexts : mid.filterMap (sideText false) ≠ [] := by
          intro hnil
          apply hcount
          rw [filterMap_eq_nil_iff] at hnil ⊢
          exact fun row hrow => rowLine_of_otherKind (sideText_eq_none_iff.mp (hnil row hrow))
        simp [hcount, firstPatchLineNumber_eq h hrows htexts, hlength]

end Header

section

variable (h : RowsOf model left right)

include h

/-- **What `BuildUnifiedPatch` prints.** The body is that of the widened range, the counts
are the body's, and the stated position is that of the range in the left file. -/
theorem buildUnifiedPatch_hunk (hleft : model.leftAbsent = true → left = [])
    (hright : model.rightAbsent = true → right = []) {path : List UInt8} {first last : Nat}
    {options : PatchGenerationOptions} {patch : UnifiedPatch}
    (hpatch : buildUnifiedPatch model path first last options = some patch) :
    (bodyLines model (rowsIn model (patchRange model first last options.contextLines))).any
        (fun line => line.tag != .context) = true ∧
      patch.hunk.body = (bodyLines model
        (rowsIn model (patchRange model first last options.contextLines))).map (printedLine model) ∧
      patch.hunk.CountsMatch ∧
      patch.hunk.position = ((rowsBefore model
        (patchRange model first last options.contextLines)).filterMap (rowLine model false)).length := by
  unfold buildUnifiedPatch at hpatch
  split at hpatch
  · cases hpatch
  dsimp only at hpatch
  split at hpatch
  · cases hpatch
  next hchange =>
  replace hchange : (bodyLines model
      (rowsIn model (patchRange model first last options.contextLines))).any
        (fun line => line.tag != .context) = true := by
    simpa [rowsIn, patchRange] using hchange
  split at hpatch
  · have hcut := cut_of_change h hchange
    have hnewFile : (model.leftAbsent && !model.rightAbsent) = true → left = [] := fun hnew =>
      hleft (Bool.and_eq_true_iff.mp hnew).1
    have hdeletedFile : (!model.leftAbsent && model.rightAbsent) = true → right = [] :=
      fun hdeleted => hright (Bool.and_eq_true_iff.mp hdeleted).2
    have hlines := wholeFileLines_eq h hcut.rows_eq hnewFile hdeletedFile
    obtain rfl := Option.some_inj.mp hpatch
    refine ⟨hchange, congrArg (List.map (printedLine model)) hlines, ?_, ?_⟩
    · have hcounts := patchHunk_countsMatch h hcut.rows_eq hnewFile hdeletedFile
      rw [← hlines] at hcounts
      exact hcounts
    · have hposition := patchHunk_position h hcut.rows_eq hnewFile hdeletedFile hcut.nonempty
      rw [← hlines] at hposition
      exact hposition
  · cases hpatch

/-- With every row selected the lines are those of the right file. -/
theorem selectedText_whole : selectedText model 0 (model.rows.length - 1) = right := by
  have hlines : selectedLines model 0 (model.rows.length - 1) =
      model.rows.filterMap (chosenLine model (!missingOn model true) true) := by
    apply filterMap_zipIdx_congr (fun i row => chosenLine model
      (selectedFinalNewline model 0 (model.rows.length - 1))
      (0 ≤ i && i ≤ model.rows.length - 1) row)
    intro i row hi
    have hlt := (List.getElem?_eq_some_iff.mp hi).1
    have hle : i ≤ model.rows.length - 1 := by omega
    simp [selectedFinalNewline, hle, missingOn]
  have hright : model.rows.filterMap (rowLine model true) = fileLines lf right := h.fileLines_eq true
  have hchosen : ∀ row ∈ model.rows, ∀ line,
      chosenLine model (!missingOn model true) true row = some line →
        lf ∉ line.text ∧ (line.newline = false → line.text ≠ []) :=
    fun row hrow line hline => chosenLine_text h hrow hline
  have htexts : ∀ row ∈ model.rows, (rowLine model true row).map FileLine.text =
      (chosenLine model (!missingOn model true) true row).map FileLine.text := by
    intro row hrow
    by_cases hkind : row.kind = .unchanged
    · rw [← h.rowLine_unchanged_text hrow hkind, chosenLine, if_pos hkind, Option.map_map]
      rfl
    · rw [chosenLine_changed hkind]
  rw [selectedText, hlines, ← fileText_fileLines lf right, ← hright, eq_comm]
  rw [fileText_eq_settle_iff]
  · refine ⟨terminated_side h true [] model.rows [] (by simp), ?_⟩
    have hnone : ∀ row ∈ model.rows, rowLine model true row = none →
        chosenLine model (!missingOn model true) true row = none := by
      intro row hrow hline
      have htext := htexts row hrow
      rw [hline, Option.map_none, eq_comm, Option.map_eq_none_iff] at htext
      exact htext
    by_cases hnil : model.rows.filterMap (rowLine model true) = []
    · have hnil' : model.rows.filterMap (chosenLine model (!missingOn model true) true) = [] :=
        filterMap_eq_nil_iff.mpr fun row hrow =>
          hnone row hrow (filterMap_eq_nil_iff.mp hnil row hrow)
      rw [hnil, hnil']
    · obtain ⟨before, row, after, line, hrows, hline, hafter⟩ := exists_last_filterMap hnil
      have hmem : row ∈ model.rows := by simp [hrows]
      obtain ⟨line', hline'⟩ : ∃ line', chosenLine model (!missingOn model true) true row = some line' := by
        have htext := htexts row hmem
        rw [hline, Option.map_some, eq_comm, Option.map_eq_some_iff] at htext
        exact ⟨_, htext.choose_spec.1⟩
      have hlast : (model.rows.filterMap (rowLine model true)).getLast? = some line := by
        rw [hrows]
        exact getLast?_filterMap before hline hafter
      have hlast' : (model.rows.filterMap (chosenLine model (!missingOn model true) true)).getLast? =
          some line' := by
        rw [hrows]
        exact getLast?_filterMap before hline' fun r hr =>
          hnone r (by simp [hrows, hr]) (hafter r hr)
      rw [hlast, hlast', Option.map_some, Option.map_some, Option.some_inj, rowLine_newline hline]
      by_cases hkind : row.kind = .unchanged
      · rw [chosenLine, if_pos hkind, Option.map_eq_some_iff] at hline'
        obtain ⟨l, hl, rfl⟩ := hline'
        have hR : noNewlineOn model true row = missingOn model true := by
          cases hm : missingOn model true with
          | false => simp [noNewlineOn_eq, hm]
          | true =>
              exact h.noNewline_of_no_lines_after hrows (by simp [hkind, otherKind]) hm hafter
        simp only [rowLine_newline hl, hR]
        split
        · next heq => rw [heq]
        · rfl
      · rw [chosenLine_changed hkind, hline, Option.some_inj] at hline'
        rw [← hline', rowLine_newline hline]
  · rw [map_filterMap, map_filterMap]
    exact filterMap_congr htexts
  · intro text htext
    obtain ⟨line, hline, rfl⟩ := mem_map.mp htext
    obtain ⟨row, hrow, hline⟩ := mem_filterMap.mp hline
    exact (hchosen row hrow line hline).1
  · intro last hlast
    obtain ⟨row, hrow, hline⟩ := mem_filterMap.mp (mem_of_getLast? hlast)
    exact (hchosen row hrow last hline).2

/-- **A patch is exact exactly when its range keeps the ends of the files.** -/
theorem buildUnifiedPatch_exact_iff (hleft : model.leftAbsent = true → left = [])
    (hright : model.rightAbsent = true → right = []) {path : List UInt8} {first last : Nat}
    {options : PatchGenerationOptions} {patch : UnifiedPatch}
    (hpatch : buildUnifiedPatch model path first last options = some patch) :
    ExactPatch model left right first last patch ↔
      KeepsEnds model (rowsBefore model (patchRange model first last options.contextLines))
        (rowsIn model (patchRange model first last options.contextLines))
        (rowsAfter model (patchRange model first last options.contextLines)) := by
  obtain ⟨hchange, hbody, hcounts, hposition⟩ := buildUnifiedPatch_hunk h hleft hright hpatch
  have hcut := cut_of_change h hchange
  obtain ⟨hold, hnew⟩ := bodyLines_spec h hcut.rows_eq
  rw [← hbody] at hold hnew
  obtain ⟨hmatches, happly⟩ := hunk_apply h hcut.rows_eq hold hnew hcounts hposition
  have happlied : patch.appliedText left = some (selectedText model first last) ↔
      KeepsEnds model (rowsBefore model (patchRange model first last options.contextLines))
        (rowsIn model (patchRange model first last options.contextLines))
        (rowsAfter model (patchRange model first last options.contextLines)) := by
    rw [UnifiedPatch.appliedText, happly, Option.map_some, Option.some_inj, selectedText,
      selectedLines_eq hcut.nonempty, fileText_result_iff h hcut.rows_eq, endsAgree_iff h hcut]
  rw [← happlied]
  refine ⟨ExactPatch.applied, fun happlied => ⟨hcounts, hmatches, happlied, ?_⟩⟩
  rintro rfl hlast
  rw [happlied, show last = model.rows.length - 1 by omega, selectedText_whole h]

end

end Exact

/-! ### The patches of a comparison -/

/-- The rows `first … last`, widened by the context, keep the ends of both files. -/
def RangeKeepsEnds (model : CompareModel) (first last contextLines : Nat) : Prop :=
  KeepsEnds model (rowsBefore model (patchRange model first last contextLines))
    (rowsIn model (patchRange model first last contextLines))
    (rowsAfter model (patchRange model first last contextLines))

instance (model : CompareModel) (first last contextLines : Nat) :
    Decidable (RangeKeepsEnds model first last contextLines) :=
  inferInstanceAs (Decidable (KeepsEnds _ _ _ _))

/-- **Patch generation.** For every two texts without `'\r'` and every row range or hunk
of their comparison, a generated patch is exact exactly when its range keeps the ends of
both files. -/
theorem generateComparePatch_exact_iff {K : Type} (A : Doubles K) {left right : List UInt8}
    (hleft : cr ∉ left) (hright : cr ∉ right) (path : List UInt8)
    (options : PatchGenerationOptions) :
    (∀ first last patch, first ≤ last → last < (buildCompareModel A left right).rows.length →
      generateComparePatchForRows (buildCompareModel A left right) path first last options
        = some patch →
      (ExactPatch (buildCompareModel A left right) left right first last patch ↔
        RangeKeepsEnds (buildCompareModel A left right) first last options.contextLines)) ∧
    ∀ hunkIndex hunk patch, (buildCompareModel A left right).hunks[hunkIndex]? = some hunk →
      generateComparePatch (buildCompareModel A left right) path hunkIndex options = some patch →
      (ExactPatch (buildCompareModel A left right) left right hunk.startRow hunk.endRow patch ↔
        RangeKeepsEnds (buildCompareModel A left right) hunk.startRow hunk.endRow
          options.contextLines) := by
  have h : RowsOf (buildCompareModel A left right) left right :=
    rowsOf_buildCompareModel A hleft hright rfl
  have hleftAbsent : (buildCompareModel A left right).leftAbsent = true → left = [] :=
    List.isEmpty_iff.mp
  have hrightAbsent : (buildCompareModel A left right).rightAbsent = true → right = [] :=
    List.isEmpty_iff.mp
  refine ⟨?_, ?_⟩
  · intro first last patch hle hlt hpatch
    rw [generateComparePatchForRows, if_neg (by
      rw [List.isEmpty_iff, ← length_eq_zero_iff]
      omega)] at hpatch
    dsimp only at hpatch
    rw [Nat.min_eq_left (show last ≤ _ - 1 by omega), Nat.min_eq_left hle] at hpatch
    exact buildUnifiedPatch_exact_iff h hleftAbsent hrightAbsent hpatch
  · intro hunkIndex hunk patch hhunk hpatch
    rw [generateComparePatch, hhunk] at hpatch
    exact buildUnifiedPatch_exact_iff h hleftAbsent hrightAbsent hpatch

/-- The range of a patch that keeps the ends: one changed line inside the file. -/
theorem generateComparePatch_exact_modified_line :
    ∃ patch, generateComparePatchForRows
        (buildCompareModel rationals (ascii "a\nb\nc\n") (ascii "a\nB\nc\n")) (ascii "f") 1 1 {}
          = some patch ∧
      ExactPatch (buildCompareModel rationals (ascii "a\nb\nc\n") (ascii "a\nB\nc\n"))
        (ascii "a\nb\nc\n") (ascii "a\nB\nc\n") 1 1 patch := by
  have hpatch : (generateComparePatchForRows
      (buildCompareModel rationals (ascii "a\nb\nc\n") (ascii "a\nB\nc\n")) (ascii "f") 1 1
        {}).isSome = true := by decide +kernel
  obtain ⟨patch, hpatch⟩ := Option.isSome_iff_exists.mp hpatch
  refine ⟨patch, hpatch, ((generateComparePatch_exact_iff rationals ?_ ?_ (ascii "f") {}).1 1 1 patch
    (Nat.le_refl 1) ?_ hpatch).mpr ?_⟩
  all_goals decide +kernel

/-- Deleting one of two lines after a shared line that the right file ends with: the patch
joins the shared line and the line that stays. -/
theorem generateComparePatchForRows_joins_lines :
    ∃ patch, generateComparePatchForRows
        (buildCompareModel rationals (ascii "a\nb\nc") (ascii "a")) (ascii "f") 1 1 {} = some patch ∧
      patch.appliedText (ascii "a\nb\nc") = some (ascii "ac") ∧
      selectedText (buildCompareModel rationals (ascii "a\nb\nc") (ascii "a")) 1 1
        = ascii "a\nc" ∧
      ¬ ExactPatch (buildCompareModel rationals (ascii "a\nb\nc") (ascii "a")) (ascii "a\nb\nc")
        (ascii "a") 1 1 patch := by
  have hpatch : (generateComparePatchForRows
      (buildCompareModel rationals (ascii "a\nb\nc") (ascii "a")) (ascii "f") 1 1 {}).map
        (fun patch => patch.appliedText (ascii "a\nb\nc")) = some (some (ascii "ac")) := by
    decide +kernel
  have hselected : selectedText (buildCompareModel rationals (ascii "a\nb\nc") (ascii "a")) 1 1
      = ascii "a\nc" := by decide +kernel
  obtain ⟨patch, hpatch, happlied⟩ := Option.map_eq_some_iff.mp hpatch
  refine ⟨patch, hpatch, happlied, hselected, fun hexact => ?_⟩
  have hne := hexact.applied
  rw [happlied, hselected] at hne
  exact absurd hne (by decide)

end Microide.Project
